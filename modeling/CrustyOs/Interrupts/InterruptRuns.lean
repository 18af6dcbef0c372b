import CrustyOs.Interrupts.InterruptSpec

/-! Every run of the interrupt code from its initialisation on: devices, the processor, and the
kernel's own calls, in any order. -/
namespace CrustyOs.Interrupts
namespace Irqs
open Lib

variable {σ η δ : Type}

inductive Op (η δ : Type) where
  /-- The devices raise and drop request lines. -/
  | devices (change : δ)
  /-- The processor answers a request of the controllers. -/
  | interrupt (t : Trap)
  | exception (vector : Nat) (t : Trap)
  | spuriousApic (t : Trap)
  | enable
  | disable
  | register (irq : Nat) (handler : η)
  | unregister (irq : Nat)
  | maskLock (irq : Nat)
  | maskWrite
  | unmaskIrq (irq : Nat)
  | readImr
  | disablePic

section Exec

variable (H : PortSpace σ) (change : δ → σ → σ) (effect : η → (Nat → Option η) → Nat → Option η)

def exec (k : Irqs σ η) : Op η δ → Run σ η (Irqs σ η)
  | .devices d => .ok { k with ports := change d k.ports }
  | .interrupt t =>
    match H.acknowledge k.ports with
    | none => .ok k
    | some (vector, ports) => enterGate H effect (k.arrive vector ports) vector 1 t
  | .exception vector t => enterGate H effect (k.arrive vector k.ports) vector 0 t
  | .spuriousApic t => enterGate H effect (k.arrive apicSpurious k.ports) apicSpurious 1 t
  | .enable => .ok { k with enabled := true }
  | .disable => .ok { k with enabled := false }
  | .register irq handler => (register k irq handler).map Prod.snd
  | .unregister irq => unregister k irq
  | .maskLock irq => maskLock k irq
  | .maskWrite => maskWrite H k
  | .unmaskIrq irq => unmaskIrq H k irq
  | .readImr => .ok (readImr H k).2
  | .disablePic => .ok (disablePic H k)

/-- Interrupts come where the flag allows them. Between its lock and its write the code of `mask_irq`
does nothing else. -/
def Valid (k : Irqs σ η) : Op η δ → Prop
  | .devices _ => True
  | .interrupt _ => k.enabled = true
  | .exception vector _ => vector < 0x20
  | .spuriousApic _ => k.enabled = true
  | .maskWrite => k.held ≠ none
  | _ => k.held = none

instance (k : Irqs σ η) : (op : Op η δ) → Decidable (Valid k op)
  | .devices _ => inferInstanceAs (Decidable True)
  | .interrupt _ => inferInstanceAs (Decidable (k.enabled = true))
  | .exception vector _ => inferInstanceAs (Decidable (vector < 0x20))
  | .spuriousApic _ => inferInstanceAs (Decidable (k.enabled = true))
  | .maskWrite => inferInstanceAs (Decidable (k.held ≠ none))
  | .enable | .disable | .register .. | .unregister _ | .maskLock _ | .unmaskIrq _ | .readImr | .disablePic =>
    inferInstanceAs (Decidable (k.held = none))

def initial (s : σ) : Irqs σ η := picInit H ⟨s, fun _ => 0, 0, fun _ => none, none, false, []⟩

end Exec

/-! ### The account of a run -/

def arrivals (vector : Nat) (log : List (Event η)) : Nat :=
  log.countP fun
    | .arrived v _ => v == vector
    | _ => false

def calls (log : List (Event η)) : List (Nat × η) :=
  log.filterMap fun
    | .called irq f => some (irq, f)
    | _ => none

def dues (log : List (Event η)) : List (Nat × η) :=
  log.filterMap fun
    | .arrived _ due => due
    | _ => none

/-- Whether a line is masked, by the calls since the slave's lines were masked at the start. -/
def maskedBy : List (Event η) → Nat → Bool
  | [], irq => 8 ≤ irq
  | .masked j :: log, irq => irq = j || maskedBy log irq
  | .unmasked j :: log, irq => irq != j && maskedBy log irq
  | .allMasked :: _, _ => true
  | _ :: log, irq => maskedBy log irq

/-- No masked line ever interrupts: the two spurious vectors apart, every arrival was unmasked. -/
def Admitted : List (Event η) → Prop
  | [] => True
  | .arrived vector _ :: log =>
    (0x20 ≤ vector → vector < 0x30 → vector ≠ picIrqSpuriousMaster → vector ≠ picIrqAtaSecondary →
      maskedBy log (vector - 0x20) = false) ∧ Admitted log
  | _ :: log => Admitted log

/-- The controllers between interrupts: nothing is in service, so that no line is held back, and the
masks are what the calls made them. -/
def Quiet (View : σ → Chips → Prop) (ports : σ) (log : List (Event η)) : Prop :=
  ∃ masterMask slaveMask, View ports ⟨masterMask, slaveMask, 0, 0⟩ ∧
    ∀ i < 8, masterMask.getLsbD i = maskedBy log i ∧ slaveMask.getLsbD i = maskedBy log (8 + i)

structure Accounted (View : σ → Chips → Prop) (k : Irqs σ η) : Prop where
  quiet : Quiet View k.ports k.log
  counted : ∀ vector, k.count vector = BitVec.ofNat 64 (arrivals vector k.log)
  ticked : k.uptimeMs = BitVec.ofNat 64 (arrivals picIrqTimer k.log)
  called : calls k.log = (dues k.log).filter fun call => dispatches call.1
  admitted : Admitted k.log

/-! ### Steps of a run -/

section Steps

variable {H : PortSpace σ} {View : σ → Chips → Prop} {change : δ → σ → σ}
  {effect : η → (Nat → Option η) → Nat → Option η} {k k' : Irqs σ η} {vector : Nat} {ports : σ}

theorem log_of_handled (handled : Handled (k.arrive vector ports) k' vector) :
    maskedBy k'.log = maskedBy k.log ∧
      calls k'.log = ((due k vector).toList.filter fun call => dispatches call.1) ++ calls k.log ∧
      dues k'.log = (due k vector).toList ++ dues k.log ∧
      (∀ v, arrivals v k'.log = arrivals v k.log + if vector = v then 1 else 0) ∧
      (Admitted k'.log ↔ Admitted (k.arrive vector ports).log) := by
  have log : k'.log = ((due k vector).filter fun call => dispatches call.1).elim (k.arrive vector ports).log
      fun call => .called call.1 call.2 :: (k.arrive vector ports).log := handled.log
  rw [log]
  cases registered : due k vector with
  | none =>
    refine ⟨?_, ?_, ?_, fun v => ?_, Iff.rfl⟩
    · funext irq
      simp [arrive, maskedBy]
    · simp [arrive, calls]
    · simp [arrive, dues, registered]
    · simp [arrive, arrivals, List.countP_cons]
  | some call =>
    rw [Option.filter_some]
    cases answered : dispatches call.1 with
    | false =>
      refine ⟨?_, ?_, ?_, fun v => ?_, Iff.rfl⟩
      · funext irq
        simp [arrive, maskedBy]
      · simp [arrive, calls, answered]
      · simp [arrive, dues, registered]
      · simp [arrive, arrivals, List.countP_cons]
    | true =>
      refine ⟨?_, ?_, ?_, fun v => ?_, Iff.rfl⟩
      · funext irq
        simp [arrive, maskedBy]
      · simp [arrive, calls, answered]
      · simp [arrive, dues, registered]
      · simp [arrive, arrivals, List.countP_cons]

theorem Accounted.arrival (h : Accounted View k) (handled : Handled (k.arrive vector ports) k' vector)
    (quiet : Quiet View k'.ports k.log)
    (unmasked : 0x20 ≤ vector → vector < 0x30 → vector ≠ picIrqSpuriousMaster → vector ≠ picIrqAtaSecondary →
      maskedBy k.log (vector - 0x20) = false) : Accounted View k' := by
  obtain ⟨masks, called, dued, arrived, admitted⟩ := log_of_handled handled
  refine ⟨?_, fun v => ?_, ?_, ?_, ?_⟩
  · unfold Quiet
    rw [masks]
    exact quiet
  · rw [count, handled.counters, arrived v, BitVec.ofNat_add, ← h.counted v, Function.update_apply]
    split
    · subst v
      rw [if_pos rfl]
      rfl
    · rename_i other
      rw [if_neg (Ne.symm other)]
      exact (BitVec.add_zero _).symm
  · rw [uptimeMs, handled.ticks, arrived, BitVec.ofNat_add, ← h.ticked]
    split
    · rfl
    · exact (BitVec.add_zero _).symm
  · rw [called, dued, h.called, List.filter_append]
  · exact admitted.mpr ⟨unmasked, h.admitted⟩

theorem unmasked_of_acknowledged {mm sm : BitVec 8} {c : Chips} {log : List (Event η)}
    (ack : Acknowledged ⟨mm, sm, 0, 0⟩ vector c)
    (masks : ∀ i < 8, mm.getLsbD i = maskedBy log i ∧ sm.getLsbD i = maskedBy log (8 + i))
    (master : vector ≠ picIrqSpuriousMaster) (slave : vector ≠ picIrqAtaSecondary) :
    maskedBy log (vector - 0x20) = false := by
  cases ack with
  | master i line cascade unmasked =>
    rw [show pic1Offset + i - 0x20 = i from Nat.add_sub_cancel_left ..]
    exact (masks i line).1.symm.trans unmasked
  | slave i line unmasked =>
    rw [show pic2Offset + i - 0x20 = 8 + i from Nat.sub_eq_of_eq_add (by unfold pic2Offset; omega)]
    exact (masks i line).2.symm.trans unmasked
  | spuriousMaster => exact absurd rfl master
  | spuriousSlave => exact absurd rfl slave

/-- An interrupt that returns: none was requested, or its handler did its work. -/
theorem Accounted.interrupt_returns (law : I8259 H View) (h : Accounted View k) {t : Trap}
    (done : exec H change effect k (.interrupt t) = .ok k') :
    k' = k ∨ ∃ vector ports, Handled (k.arrive vector ports) k' vector ∧ Quiet View k'.ports k.log ∧
      (vector ≠ picIrqSpuriousMaster → vector ≠ picIrqAtaSecondary → maskedBy k.log (vector - 0x20) = false) := by
  unfold exec at done
  dsimp only at done
  split at done
  · exact Or.inl (Except.ok.inj done).symm
  · rename_i vector ports request
    obtain ⟨mm, sm, view, masks⟩ := h.quiet
    obtain ⟨c, ack, after⟩ := law.acknowledge view request
    have served : ∃ k', enterGate H effect (k.arrive vector ports) vector 1 t = .ok k' ∧
        Served View (k.arrive vector ports) k' vector ⟨mm, sm, 0, 0⟩ := by
      by_cases gated : (idtGates H effect).lookup vector = none
      · -- the fault for a missing gate does not return
        rw [enterGate, gated] at done
        cases done
      · cases enterGate_ends law ack (k := k.arrive vector ports) after gated (t := t) with
        | inl ends =>
          by_cases free : k.held = none
          · exact ends.2.served free
          · obtain ⟨_, spun⟩ := ends.2.spins free
            rw [spun] at done
            cases done
        | inr spurious => exact spurious.2
    obtain ⟨k₁, run, handled, quiet⟩ := served
    rw [run] at done
    obtain rfl := Except.ok.inj done
    exact Or.inr ⟨vector, ports, handled, ⟨mm, sm, quiet, masks⟩, unmasked_of_acknowledged ack masks⟩

theorem Accounted.interrupt (law : I8259 H View) (h : Accounted View k) {t : Trap}
    (done : exec H change effect k (.interrupt t) = .ok k') : Accounted View k' := by
  rcases h.interrupt_returns law done with rfl | ⟨vector, ports, handled, quiet, unmasked⟩
  · exact h
  · exact h.arrival handled quiet fun _ _ => unmasked

theorem Accounted.exception (h : Accounted View k) {t : Trap} (low : vector < 0x20)
    (done : exec H change effect k (.exception vector t) = .ok k') : Accounted View k' := by
  have returned := exception_returns low done
  subst returned
  have handled : Handled (k.arrive vector k.ports) ((k.arrive vector k.ports).record vector) vector := by
    refine record_handled ?_
    interval_cases vector <;> rfl
  exact h.arrival handled h.quiet (by omega)

theorem Accounted.spuriousApic (h : Accounted View k) {t : Trap}
    (done : exec H change effect k (.spuriousApic t) = .ok k') : Accounted View k' := by
  obtain rfl := Except.ok.inj done
  have handled : Handled (k.arrive apicSpurious k.ports) ((k.arrive apicSpurious k.ports).record apicSpurious)
      apicSpurious := record_handled rfl
  exact h.arrival handled h.quiet fun _ high => absurd high (by decide)

/-! The mask calls. -/

theorem getLsbD_mask {m : BitVec 8} {j i : Nat} (line : i < 8) :
    (m ||| 1#8 <<< j).getLsbD i = if i = j then true else m.getLsbD i := by
  rw [BitVec.getLsbD_or, BitVec.getLsbD_shiftLeft]
  split
  · subst i
    simp [line]
  · rename_i other
    by_cases below : i < j
    · simp [below]
    · have : i - j ≠ 0 := by omega
      simp [this]

theorem getLsbD_unmask {m : BitVec 8} {j i : Nat} (line : i < 8) :
    (m &&& ~~~(1#8 <<< j)).getLsbD i = if i = j then false else m.getLsbD i := by
  have bit := getLsbD_mask (m := 0#8) (j := j) line
  rw [BitVec.zero_or] at bit
  rw [BitVec.getLsbD_and, BitVec.getLsbD_not, bit]
  split <;> simp [line]

theorem Quiet.rewrite (law : I8259 H View) {log : List (Event η)} (quiet : Quiet View ports log) (irq : Nat)
    (bit : Bool) (event : Event η) {f : BitVec 8 → BitVec 8}
    (written : ∀ m i, i < 8 → (f m).getLsbD i = if i = maskShift irq then bit else m.getLsbD i)
    (logged : ∀ j, maskedBy (event :: log) j = if j = irq then bit else maskedBy log j) :
    Quiet View (H.write (maskPort irq) (f (H.read (maskPort irq) ports).1) (H.read (maskPort irq) ports).2)
      (event :: log) := by
  obtain ⟨mm, sm, view, masks⟩ := quiet
  by_cases low : irq < 8
  · rw [show maskPort irq = 0x21 from if_pos low]
    rw [show maskShift irq = irq from if_pos low] at written
    obtain ⟨read, after⟩ := law.read_master_mask view
    rw [read]
    refine ⟨f mm, sm, law.master_mask after _, fun i line => ?_⟩
    rw [written mm i line, logged, logged, if_neg (show 8 + i ≠ irq by omega), (masks i line).1]
    exact ⟨rfl, (masks i line).2⟩
  · rw [show maskPort irq = 0xA1 from if_neg low]
    rw [show maskShift irq = irq - 8 from if_neg low] at written
    obtain ⟨read, after⟩ := law.read_slave_mask view
    rw [read]
    refine ⟨mm, f sm, law.slave_mask after _, fun i line => ?_⟩
    rw [written sm i line, logged, logged, if_neg (show i ≠ irq by omega), (masks i line).2]
    refine ⟨(masks i line).1, ?_⟩
    by_cases same : i = irq - 8
    · rw [if_pos same, if_pos (by omega)]
    · rw [if_neg same, if_neg (by omega)]

theorem Accounted.keep (h : Accounted View k) (quiet : Quiet View k'.ports k'.log)
    (counters : k'.counters = k.counters) (ticks : k'.ticks = k.ticks)
    (arrived : ∀ v, arrivals v k'.log = arrivals v k.log) (called : calls k'.log = calls k.log)
    (dued : dues k'.log = dues k.log) (admitted : Admitted k'.log) : Accounted View k' where
  quiet := quiet
  counted v := by
    rw [count, counters, arrived]
    exact h.counted v
  ticked := by
    rw [uptimeMs, ticks, arrived]
    exact h.ticked
  called := by
    rw [called, dued]
    exact h.called
  admitted := admitted

theorem Accounted.maskWrite (law : I8259 H View) (h : Accounted View k) (done : maskWrite H k = .ok k') :
    Accounted View k' := by
  unfold Irqs.maskWrite at done
  split at done
  · obtain rfl := Except.ok.inj done
    exact h
  · rename_i irq holder
    dsimp only at done
    split at done
    · obtain rfl := Except.ok.inj done
      have quiet := h.quiet.rewrite law irq true (.masked irq)
        (fun m i line => getLsbD_mask line) (fun j => by simp [maskedBy])
      exact h.keep quiet rfl rfl (fun _ => rfl) rfl rfl h.admitted
    · cases done

theorem Accounted.unmaskIrq (law : I8259 H View) (h : Accounted View k) {irq : Nat}
    (done : unmaskIrq H k irq = .ok k') : Accounted View k' := by
  unfold Irqs.unmaskIrq at done
  dsimp only at done
  split at done
  · obtain rfl := Except.ok.inj done
    have quiet := h.quiet.rewrite law irq false (.unmasked irq)
      (fun m i line => getLsbD_unmask line) (fun j => by
        by_cases same : j = irq <;> simp [maskedBy, same])
    exact h.keep quiet rfl rfl (fun _ => rfl) rfl rfl h.admitted
  · cases done

theorem Accounted.disablePic (law : I8259 H View) (h : Accounted View k) : Accounted View (disablePic H k) := by
  obtain ⟨mm, sm, view, masks⟩ := h.quiet
  have full : ∀ i < 8, (0xFF : BitVec 8).getLsbD i = true := by decide
  exact h.keep ⟨_, _, law.master_mask (law.slave_mask view 0xFF) 0xFF, fun i line => ⟨full i line, full i line⟩⟩
    rfl rfl (fun _ => rfl) rfl rfl h.admitted

theorem Accounted.readImr (law : I8259 H View) (h : Accounted View k) : Accounted View (readImr H k).2 := by
  obtain ⟨mm, sm, view, masks⟩ := h.quiet
  have after := (law.read_slave_mask (law.read_master_mask view).2).2
  exact h.keep ⟨mm, sm, after, masks⟩ rfl rfl (fun _ => rfl) rfl rfl h.admitted

theorem Accounted.step (law : I8259 H View) (steady : ∀ {s c} d, View s c → View (change d s) c)
    (h : Accounted View k) {op : Op η δ} (valid : Valid k op) (done : exec H change effect k op = .ok k') :
    Accounted View k' := by
  cases op with
  | devices d =>
    obtain rfl := Except.ok.inj done
    obtain ⟨mm, sm, view, masks⟩ := h.quiet
    exact h.keep ⟨mm, sm, steady d view, masks⟩ rfl rfl (fun _ => rfl) rfl rfl h.admitted
  | interrupt t => exact h.interrupt law done
  | exception vector t => exact h.exception valid done
  | spuriousApic t => exact h.spuriousApic done
  | enable | disable =>
    obtain rfl := Except.ok.inj done
    exact h.keep h.quiet rfl rfl (fun _ => rfl) rfl rfl h.admitted
  | register irq handler =>
    obtain ⟨⟨fresh, k₁⟩, registered, last⟩ := ok_of_map done
    unfold Irqs.register at registered
    split at registered
    · split at registered
      · cases registered
        subst last
        exact h.keep h.quiet rfl rfl (fun _ => rfl) rfl rfl h.admitted
      · cases registered
        subst last
        exact h
    · cases registered
  | unregister irq =>
    unfold exec Irqs.unregister at done
    dsimp only at done
    split at done
    · obtain rfl := Except.ok.inj done
      exact h.keep h.quiet rfl rfl (fun _ => rfl) rfl rfl h.admitted
    · cases done
  | maskLock irq =>
    unfold exec Irqs.maskLock at done
    dsimp only at done
    split at done
    · obtain rfl := Except.ok.inj done
      exact h.keep h.quiet rfl rfl (fun _ => rfl) rfl rfl h.admitted
    · cases done
  | maskWrite => exact h.maskWrite law done
  | unmaskIrq irq => exact h.unmaskIrq law done
  | readImr =>
    obtain rfl := Except.ok.inj done
    exact h.readImr law
  | disablePic =>
    obtain rfl := Except.ok.inj done
    exact h.disablePic law

theorem initial_accounted (law : I8259 H View) (s : σ) : Accounted View (initial (η := η) H s) where
  quiet := by
    obtain ⟨c, view, master, slave⟩ := law.programmed s
    have after := law.slave_mask (law.master_mask view 0x00) 0xFF
    rw [master, slave] at after
    have masks : ∀ i < 8, (0x00 : BitVec 8).getLsbD i = decide (8 ≤ i) ∧
        (0xFF : BitVec 8).getLsbD i = decide (8 ≤ 8 + i) := by decide
    exact ⟨_, _, after, masks⟩
  counted vector := rfl
  ticked := rfl
  called := rfl
  admitted := trivial

theorem Accounted.readImr_bit (law : I8259 H View) (h : Accounted View k) {irq : Nat} (line : irq < 16) :
    (Irqs.readImr H k).1.getLsbD irq = maskedBy k.log irq := by
  obtain ⟨mm, sm, view, masks⟩ := h.quiet
  obtain ⟨master, after⟩ := law.read_master_mask view
  obtain ⟨slave, _⟩ := law.read_slave_mask after
  have value : (Irqs.readImr H k).1 = mm.setWidth 16 ||| sm.setWidth 16 <<< 8 := by
    unfold Irqs.readImr
    dsimp only
    rw [master, slave]
  rw [value, BitVec.getLsbD_or, BitVec.getLsbD_shiftLeft, BitVec.getLsbD_setWidth, BitVec.getLsbD_setWidth]
  by_cases low : irq < 8
  · rw [← (masks irq low).1]
    simp [low, line]
  · have high := (masks (irq - 8) (by omega)).2
    rw [show 8 + (irq - 8) = irq by omega] at high
    have beyond : mm.getLsbD irq = false := BitVec.getLsbD_of_ge _ _ (by omega)
    simp [low, line, high, beyond]
    omega

theorem reach_accounted (law : I8259 H View) (steady : ∀ {s c} d, View s c → View (change d s) c) {s : σ}
    (run : Reach (exec H change effect) Valid (initial H s) k) : Accounted View k :=
  run.invariant (initial_accounted law s) fun _ _ _ h valid done => h.step law steady valid done

theorem gateless {mm sm : BitVec 8} {c : Chips} (ack : Acknowledged ⟨mm, sm, 0, 0⟩ vector c)
    (missing : (idtGates H effect).lookup vector = none) :
    vector ∈ [0x23, 0x24, 0x25, 0x26, 0x29, 0x2A, 0x2B, 0x2D] := by
  cases ack with
  | master i line cascade unmasked =>
    interval_cases i
    case «2» => exact absurd rfl cascade
    case «0» | «1» | «7» => cases missing
    all_goals decide
  | slave i line unmasked =>
    interval_cases i
    case «0» | «4» | «6» | «7» => cases missing
    all_goals decide
  | spuriousMaster => cases missing
  | spuriousSlave => cases missing

/-- The next interrupt returns when its vector has a gate and the lock is free; without a gate the kernel
panics over the segment that is not present. -/
def Answered (H : PortSpace σ) (effect : η → (Nat → Option η) → Nat → Option η)
    (run : Run σ η (Irqs σ η)) (vector : Nat) : Prop :=
  ((idtGates H effect).lookup vector ≠ none ∧ ∃ k', run = .ok k') ∨
    vector ∈ [0x23, 0x24, 0x25, 0x26, 0x29, 0x2A, 0x2B, 0x2D] ∧
      ∃ k', run = .error (k', .panic ⟨"#NP segment not present", some (vector * 8 + 3), none⟩)

theorem Accounted.answered (law : I8259 H View) (h : Accounted View k) (free : k.held = none) {t : Trap}
    (request : H.acknowledge k.ports = some (vector, ports)) :
    Answered H effect (exec H change effect k (.interrupt t)) vector := by
  obtain ⟨mm, sm, view, masks⟩ := h.quiet
  obtain ⟨c, ack, after⟩ := law.acknowledge view request
  simp only [exec, request]
  by_cases gated : (idtGates H effect).lookup vector = none
  · right
    refine ⟨gateless ack gated, (k.arrive vector ports).record exceptionSegmentNotPresent, ?_⟩
    rw [enterGate, gated]
    rfl
  · left
    refine ⟨gated, ?_⟩
    cases enterGate_ends law ack (k := k.arrive vector ports) after gated (t := t) with
    | inl ends =>
      obtain ⟨k', run, _⟩ := ends.2.served free
      exact ⟨k', run⟩
    | inr spurious =>
      obtain ⟨_, k', run, _⟩ := spurious
      exact ⟨k', run⟩

/-- In every run of devices, interrupts, exceptions and the kernel's own calls: every interrupt is ended
and counted once; a handler registered for a line that dispatches gets one call for each interrupt of
the line, and one registered for another line none; the tick count is the number of timer interrupts;
the mask registers are what the mask calls made them, and no masked line interrupts. -/
theorem interrupts_accounted (law : I8259 H View) (steady : ∀ {s c} d, View s c → View (change d s) c) {s : σ}
    (run : Reach (exec H change effect) Valid (initial H s) k) :
    Accounted View k ∧ (∀ irq < 16, (readImr H k).1.getLsbD irq = maskedBy k.log irq) ∧
      ∀ t vector ports, k.held = none → H.acknowledge k.ports = some (vector, ports) →
        Answered H effect (exec H change effect k (.interrupt t)) vector := by
  have h := reach_accounted law steady run
  exact ⟨h, fun irq line => h.readImr_bit law line, fun t vector ports free request => h.answered law free request⟩

def oneShot (_ : Nat) (table : Nat → Option Nat) : Nat → Option Nat := Function.update table 0 none

def sampleOps : List (Op Nat (List Request)) :=
  [.register 0 7, .register 1 9, .enable, .devices [.line 0, .glitchMaster, .line 1, .glitchSlave, .line 0],
    .interrupt ⟨0, 0⟩, .interrupt ⟨0, 0⟩, .exception 3 ⟨0, 0⟩, .interrupt ⟨0, 0⟩, .interrupt ⟨0, 0⟩,
    .interrupt ⟨0, 0⟩, .unmaskIrq 12, .devices [.line 12], .interrupt ⟨0, 0⟩]

theorem interrupts_accounted_sample : ∃ k, Reach (exec ChainedPair.ports ChainedPair.request oneShot) Valid
    (initial ChainedPair.ports ⟨⟨0xFF, 0xFF, 4, 1⟩, []⟩) k ∧ k.uptimeMs = 2 ∧ dues k.log = [(1, 9), (0, 7)] ∧
    calls k.log = [(0, 7)] ∧ arrivals picIrqMouse k.log = 1 ∧ Accounted ChainedPair.View k := by
  obtain ⟨k, ran, ticks, registered, called, mouse⟩ : ∃ k,
      trial (exec ChainedPair.ports ChainedPair.request oneShot) Valid
        (initial ChainedPair.ports ⟨⟨0xFF, 0xFF, 4, 1⟩, []⟩) sampleOps = some k ∧ k.uptimeMs = 2 ∧
        dues k.log = [(1, 9), (0, 7)] ∧ calls k.log = [(0, 7)] ∧ arrivals picIrqMouse k.log = 1 :=
    ⟨_, rfl, by decide, by decide, by decide, by decide⟩
  have run := trial_reach sampleOps .start ran
  exact ⟨k, run, ticks, registered, called, mouse,
    (interrupts_accounted ChainedPair.lawful ChainedPair.request_steady run).1⟩

def Guarded (k : Irqs σ η) : Op η δ → Prop
  | .maskLock _ => k.held = none ∧ k.enabled = false
  | op => Valid k op

theorem Guarded.valid {op : Op η δ} (guarded : Guarded k op) : Valid k op := by
  cases op with
  | maskLock irq => exact guarded.1
  | _ => exact guarded

def OffWhileHeld (k : Irqs σ η) : Prop := k.held ≠ none → k.enabled = false

theorem OffWhileHeld.step (law : I8259 H View) (h : Accounted View k) (off : OffWhileHeld k) {op : Op η δ}
    (guarded : Guarded k op) (done : exec H change effect k op = .ok k') : OffWhileHeld k' := by
  cases op with
  | devices d | readImr | disablePic | disable =>
    obtain rfl := Except.ok.inj done
    first | exact off | exact fun _ => rfl
  | interrupt t =>
    rcases h.interrupt_returns law done with rfl | ⟨vector, ports, handled, _⟩
    · exact off
    · intro held
      rw [handled.held] at held
      exact handled.enabled.trans (off held)
  | exception vector t =>
    obtain rfl := exception_returns guarded done
    exact off
  | spuriousApic t =>
    obtain rfl := Except.ok.inj done
    exact off
  | enable =>
    obtain rfl := Except.ok.inj done
    exact fun held => absurd guarded held
  | register irq handler =>
    obtain ⟨⟨fresh, k₁⟩, registered, rfl⟩ := ok_of_map done
    unfold Irqs.register at registered
    split at registered
    · split at registered <;> cases registered <;> exact off
    · cases registered
  | unregister irq =>
    unfold exec Irqs.unregister at done
    dsimp only at done
    split at done
    · obtain rfl := Except.ok.inj done
      exact off
    · cases done
  | maskLock irq =>
    unfold exec Irqs.maskLock at done
    dsimp only at done
    split at done
    · obtain rfl := Except.ok.inj done
      exact fun _ => guarded.2
    · cases done
  | maskWrite =>
    unfold exec Irqs.maskWrite at done
    dsimp only at done
    split at done
    · obtain rfl := Except.ok.inj done
      exact off
    · split at done
      · obtain rfl := Except.ok.inj done
        exact fun held => absurd rfl held
      · cases done
  | unmaskIrq irq =>
    unfold exec Irqs.unmaskIrq at done
    dsimp only at done
    split at done
    · obtain rfl := Except.ok.inj done
      exact off
    · cases done

theorem exception_stops {t : Trap} {stop : Stop} (low : vector < 0x20)
    (stopped : enterGate H effect k vector 0 t = .error (k', stop)) : stop ≠ .spins := by
  interval_cases vector <;> cases stopped <;> exact Stop.noConfusion

theorem guarded_never_spins (law : I8259 H View) (h : Accounted View k) (off : OffWhileHeld k) {op : Op η δ}
    (guarded : Guarded k op) (k' : Irqs σ η) : exec H change effect k op ≠ .error (k', .spins) := by
  intro spun
  cases op with
  | devices d | enable | disable | readImr | disablePic | spuriousApic t => cases spun
  | interrupt t =>
    have free : k.held = none := by
      by_contra held
      have enabled : k.enabled = true := guarded
      rw [off held] at enabled
      cases enabled
    cases request : H.acknowledge k.ports with
    | none =>
      simp only [exec, request] at spun
      cases spun
    | some answer =>
      obtain ⟨vector, ports⟩ := answer
      have answered : Answered H effect (exec H change effect k (.interrupt t)) vector := h.answered law free request
      rcases answered with ⟨_, k₁, run⟩ | ⟨_, k₁, run⟩
      · rw [run] at spun
        cases spun
      · rw [run] at spun
        cases spun
  | exception vector t => exact exception_stops guarded spun rfl
  | register irq handler =>
    unfold exec Irqs.register at spun
    dsimp only at spun
    split at spun
    · split at spun <;> cases spun
    · cases spun
  | unregister irq =>
    unfold exec Irqs.unregister at spun
    dsimp only at spun
    split at spun <;> cases spun
  | maskLock irq =>
    simp only [exec, Irqs.maskLock, guarded.1] at spun
    cases spun
  | maskWrite =>
    unfold exec Irqs.maskWrite at spun
    dsimp only at spun
    split at spun
    · cases spun
    · split at spun <;> cases spun
  | unmaskIrq irq =>
    unfold exec Irqs.unmaskIrq at spun
    dsimp only at spun
    split at spun <;> cases spun

/-- No step of a run ever waits for the lock of the controllers when `mask_irq` is called with interrupts
off. Called with interrupts on, an interrupt of the controllers that comes through its gate between the
lock and the write waits for ever, unless it is spurious at the master; the spurious interrupt of the
processor's own controller does not touch the lock. -/
theorem mask_irq_needs_interrupts_off (law : I8259 H View) (steady : ∀ {s c} d, View s c → View (change d s) c)
    (s : σ) :
    (∀ k, Reach (exec H change effect) Guarded (initial H s) k → ∀ op, Guarded k op → ∀ k',
      exec H change effect k op ≠ .error (k', .spins)) ∧
    ∀ k, Reach (exec H change effect) Valid (initial H s) k → k.held ≠ none →
      (∀ t vector ports, H.acknowledge k.ports = some (vector, ports) → (idtGates H effect).lookup vector ≠ none →
        ((∃ k', exec H change effect k (.interrupt t) = .error (k', .spins)) ↔
          ¬ Spurious H { k with ports := ports } vector)) ∧
      ∀ t, ∃ k', exec H change effect k (.spuriousApic t) = .ok k' := by
  constructor
  · intro k run op guarded k'
    have inv : Accounted View k ∧ OffWhileHeld k := by
      refine run.invariant (I := fun k => Accounted View k ∧ OffWhileHeld k)
        ⟨initial_accounted law s, fun held => absurd rfl held⟩ ?_
      intro k op k' before allowed done
      exact ⟨before.1.step law steady allowed.valid done, before.2.step law before.1 allowed done⟩
    exact guarded_never_spins law inv.1 inv.2 guarded k'
  · intro k run held
    refine ⟨fun t vector ports request gated => ?_, fun t => ⟨_, rfl⟩⟩
    obtain ⟨mm, sm, view, masks⟩ := (reach_accounted law steady run).quiet
    obtain ⟨c, ack, after⟩ := law.acknowledge view request
    simp only [exec, request]
    cases enterGate_ends law ack (k := k.arrive vector ports) after gated (t := t) with
    | inl ends => exact iff_of_true (ends.2.spins held) ends.1
    | inr gone =>
      refine iff_of_false ?_ (not_not.mpr gone.1)
      rintro ⟨k', spun⟩
      obtain ⟨_, k₁, returned, _⟩ := gone
      cases spun.symm.trans returned

/-- The timer interrupts a `mask_irq` that holds the lock. -/
theorem mask_irq_interrupted : ∃ k k' : Irqs ChainedPair Nat,
    Reach (exec ChainedPair.ports ChainedPair.request oneShot) Valid
      (initial ChainedPair.ports ⟨⟨0xFF, 0xFF, 0, 0⟩, []⟩) k ∧
    exec ChainedPair.ports ChainedPair.request oneShot k (.interrupt ⟨0, 0⟩) = .error (k', .spins) := by
  obtain ⟨k, ran, held, request⟩ : ∃ k, trial (exec ChainedPair.ports ChainedPair.request oneShot) Valid
      (initial ChainedPair.ports ⟨⟨0xFF, 0xFF, 0, 0⟩, []⟩)
        ([.enable, .devices [.line 0], .maskLock 12] : List (Op Nat (List Request))) = some k ∧
      k.held ≠ none ∧ ∃ ports, ChainedPair.ports.acknowledge k.ports = some (picIrqTimer, ports) :=
    ⟨_, rfl, by decide, _, rfl⟩
  obtain ⟨ports, request⟩ := request
  have run := trial_reach _ .start ran
  obtain ⟨k', spun⟩ := (((mask_irq_needs_interrupts_off ChainedPair.lawful ChainedPair.request_steady
    ⟨⟨0xFF, 0xFF, 0, 0⟩, []⟩).2 k run held).1 ⟨0, 0⟩ picIrqTimer ports request (by decide)).mpr
      fun gone => absurd gone.1 (by decide)
  exact ⟨k, k', run, spun⟩

end Steps

end Irqs
end CrustyOs.Interrupts
