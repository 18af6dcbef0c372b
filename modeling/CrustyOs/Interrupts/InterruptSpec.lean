import CrustyOs.Interrupts.Handlers
import CrustyOs.Lib.Runs

/-! One interrupt from its answer to its end: each handler counts it, dispatches its line, and comes to
the end-of-interrupt that leaves nothing in service. -/
namespace CrustyOs.Interrupts
namespace Irqs
open Lib

variable {σ η : Type}

def irqOf (vector : Nat) : Option Nat :=
  if pic1Offset ≤ vector ∧ vector < pic1Offset + 16 then some (vector - pic1Offset) else none

/-- The lines whose handlers dispatch. Those of the keyboard, of line 7 and of line 15 do not. -/
def dispatches (irq : Nat) : Bool := irq ∈ [0, 8, 12, 14]

def due (k : Irqs σ η) (vector : Nat) : Option (Nat × η) :=
  (irqOf vector).bind fun irq => (k.handlers irq).map fun f => (irq, f)

def arrive (k : Irqs σ η) (vector : Nat) (ports : σ) : Irqs σ η :=
  { k with ports := ports, log := .arrived vector (due k vector) :: k.log }

structure Handled (k k' : Irqs σ η) (vector : Nat) : Prop where
  counters : k'.counters = Function.update k.counters vector (k.counters vector + 1)
  ticks : k'.ticks = if vector = picIrqTimer then k.ticks + 1 else k.ticks
  held : k'.held = k.held
  enabled : k'.enabled = k.enabled
  log : k'.log = ((due k vector).filter fun call => dispatches call.1).elim k.log
    fun call => .called call.1 call.2 :: k.log

theorem record_handled {k : Irqs σ η} {vector : Nat} {ports : σ}
    (quiet : (irqOf vector).any dispatches = false) :
    Handled k { k.record vector with ports := ports } vector where
  counters := rfl
  ticks := by
    rw [if_neg]
    · rfl
    · rintro rfl
      cases quiet
  held := rfl
  enabled := rfl
  log := by
    unfold due
    cases line : irqOf vector with
    | none => rfl
    | some irq =>
      have other : dispatches irq = false := by rwa [line] at quiet
      rw [Option.bind_some]
      cases k.handlers irq with
      | none => rfl
      | some f =>
        rw [Option.map_some, Option.filter_some, if_neg (ne_true_of_eq_false other)]
        rfl

section Serving

variable {H : PortSpace σ} {View : σ → Chips → Prop} {effect : η → (Nat → Option η) → Nat → Option η}
  {k k₁ : Irqs σ η} {c : Chips} {vector irq i : Nat} {t : Trap} {mm sm ms ss : BitVec 8}

def Ending (H : PortSpace σ) (View : σ → Chips → Prop) (run : Run σ η (Irqs σ η)) (k : Irqs σ η) (vector : Nat)
    (after : Chips) : Prop :=
  ∃ answered k₁, run = endOfInterrupt H k₁ answered ∧ Handled k k₁ vector ∧
    View (H.notifyEndOfInterrupt answered k₁.ports) after

def Served (View : σ → Chips → Prop) (k k' : Irqs σ η) (vector : Nat) (after : Chips) : Prop :=
  Handled k k' vector ∧ View k'.ports after

theorem Ending.served {run : Run σ η (Irqs σ η)} (h : Ending H View run k vector c) (free : k.held = none) :
    ∃ k', run = .ok k' ∧ Served View k k' vector c := by
  obtain ⟨answered, k₁, rfl, handled, ended⟩ := h
  unfold endOfInterrupt
  rw [handled.held, free]
  exact ⟨_, rfl, ⟨handled.counters, handled.ticks, free.symm, handled.enabled, handled.log⟩, ended⟩

theorem Ending.spins {run : Run σ η (Irqs σ η)} (h : Ending H View run k vector c) (held : k.held ≠ none) :
    ∃ k', run = .error (k', .spins) := by
  obtain ⟨answered, k₁, rfl, handled, ended⟩ := h
  unfold endOfInterrupt
  rw [handled.held]
  cases holder : k.held with
  | none => exact absurd holder held
  | some irq => exact ⟨_, rfl⟩

theorem dispatch_ends (line : irqOf vector = some irq) (dispatched : dispatches irq = true) (inside : irq < 16)
    (counters : k₁.counters = Function.update k.counters vector (k.counters vector + 1))
    (ticks : k₁.ticks = if vector = picIrqTimer then k.ticks + 1 else k.ticks) (held : k₁.held = k.held)
    (enabled : k₁.enabled = k.enabled) (handlers : k₁.handlers = k.handlers) (log : k₁.log = k.log)
    (ended : View (H.notifyEndOfInterrupt vector k₁.ports) c) :
    Ending H View (dispatch effect k₁ irq >>= fun k => endOfInterrupt H k vector) k vector c := by
  unfold dispatch
  rw [if_pos inside, handlers]
  cases slot : k.handlers irq with
  | none =>
    refine ⟨vector, k₁, rfl, ⟨counters, ticks, held, enabled, ?_⟩, ended⟩
    rw [due, line, Option.bind_some, slot]
    exact log
  | some f =>
    refine ⟨vector, _, rfl, ⟨counters, ticks, held, enabled, ?_⟩, ended⟩
    rw [due, line, Option.bind_some, slot, Option.map_some, Option.filter_some, if_pos dispatched]
    exact congrArg _ log

theorem irqInService_master (law : I8259 H View) (view : View k.ports ⟨mm, sm, ms, ss⟩) :
    (irqInService H k 7).1 = (ms &&& 1#8 <<< 7 != 0) ∧
      ∃ ports, (irqInService H k 7).2 = { k with ports := ports } ∧ View ports ⟨mm, sm, ms, ss⟩ := by
  obtain ⟨read, after⟩ := law.master_service view
  exact ⟨congrArg (fun isr => isr &&& 1#8 <<< 7 != 0) read, _, rfl, after⟩

theorem irqInService_slave (law : I8259 H View) (view : View k.ports ⟨mm, sm, ms, ss⟩) :
    (irqInService H k 15).1 = (ss &&& 1#8 <<< 7 != 0) ∧
      ∃ ports, (irqInService H k 15).2 = { k with ports := ports } ∧ View ports ⟨mm, sm, ms, ss⟩ := by
  obtain ⟨read, after⟩ := law.slave_service view
  exact ⟨congrArg (fun isr => isr &&& 1#8 <<< 7 != 0) read, _, rfl, after⟩

theorem master_ended (law : I8259 H View) {s : σ} (view : View s ⟨mm, sm, 1#8 <<< i, 0⟩) (line : i < 8)
    (low : pic1Offset ≤ vector) (high : vector < pic1Offset + 8) :
    View (H.notifyEndOfInterrupt vector s) ⟨mm, sm, 0, 0⟩ := by
  have ended : View _ ⟨mm, sm, endHighest (1#8 <<< i), 0⟩ := law.notify_master view vector low high
  rw [endHighest_line line] at ended
  exact ended

theorem slave_ended (law : I8259 H View) {s : σ} (view : View s ⟨mm, sm, 1#8 <<< 2, 1#8 <<< i⟩)
    (line : i < 8) (low : pic2Offset ≤ vector) (high : vector < pic2Offset + 8) :
    View (H.notifyEndOfInterrupt vector s) ⟨mm, sm, 0, 0⟩ := by
  have ended : View _ ⟨mm, sm, endHighest (1#8 <<< 2), endHighest (1#8 <<< i)⟩ :=
    law.notify_slave view vector low high
  rw [endHighest_line line, endHighest_line (show 2 < 8 by decide)] at ended
  exact ended

theorem timerHandler_ends (law : I8259 H View) (view : View k.ports ⟨mm, sm, 1#8 <<< 0, 0⟩) :
    Ending H View (timerHandler H effect k t) k picIrqTimer ⟨mm, sm, 0, 0⟩ :=
  dispatch_ends rfl rfl (by decide) rfl rfl rfl rfl rfl rfl
    (master_ended law view (by decide) (by decide) (by decide))

theorem keyboardHandler_ends (law : I8259 H View) (view : View k.ports ⟨mm, sm, 1#8 <<< 1, 0⟩) :
    Ending H View (keyboardHandler H k t) k picIrqKeyboard ⟨mm, sm, 0, 0⟩ := by
  have read := law.read_other view 0x60 (by decide)
  exact ⟨_, _, rfl, record_handled rfl, master_ended law read (by decide) (by decide) (by decide)⟩

theorem rtcHandler_ends (law : I8259 H View) (view : View k.ports ⟨mm, sm, 1#8 <<< 2, 1#8 <<< 0⟩) :
    Ending H View (rtcHandler H effect k t) k picIrqRtc ⟨mm, sm, 0, 0⟩ := by
  have read := law.read_other (law.write_other view 0x0C) 0x71 (by decide)
  exact dispatch_ends rfl rfl (by decide) rfl rfl rfl rfl rfl rfl
    (slave_ended law read (by decide) (by decide) (by decide))

theorem mouseHandler_ends (law : I8259 H View) (view : View k.ports ⟨mm, sm, 1#8 <<< 2, 1#8 <<< 4⟩) :
    Ending H View (mouseHandler H effect k t) k picIrqMouse ⟨mm, sm, 0, 0⟩ := by
  have read := law.read_other view 0x60 (by decide)
  exact dispatch_ends rfl rfl (by decide) rfl rfl rfl rfl rfl rfl
    (slave_ended law read (by decide) (by decide) (by decide))

theorem ataPrimaryHandler_ends (law : I8259 H View) (view : View k.ports ⟨mm, sm, 1#8 <<< 2, 1#8 <<< 6⟩) :
    Ending H View (ataPrimaryHandler H effect k t) k picIrqAtaPrimary ⟨mm, sm, 0, 0⟩ :=
  dispatch_ends rfl rfl (by decide) rfl rfl rfl rfl rfl rfl
    (slave_ended law view (by decide) (by decide) (by decide))

theorem spuriousMasterHandler_ends (law : I8259 H View) (view : View k.ports ⟨mm, sm, 1#8 <<< 7, 0⟩) :
    Ending H View (spuriousMasterHandler H k t) k picIrqSpuriousMaster ⟨mm, sm, 0, 0⟩ := by
  obtain ⟨inService, ports, same, after⟩ :=
    irqInService_master law (k := k.record picIrqSpuriousMaster) view
  unfold spuriousMasterHandler eoiIfNotSpuriousMaster
  dsimp only
  rw [inService, same, if_pos (by decide)]
  exact ⟨_, _, rfl, record_handled rfl, master_ended law after (by decide) (by decide) (by decide)⟩

/-- A spurious request at the master is left alone, and the lock with it. -/
theorem spuriousMasterHandler_spurious (law : I8259 H View) (view : View k.ports ⟨mm, sm, 0, 0⟩) :
    ∃ k', spuriousMasterHandler H k t = .ok k' ∧ Served View k k' picIrqSpuriousMaster ⟨mm, sm, 0, 0⟩ := by
  obtain ⟨inService, ports, same, after⟩ :=
    irqInService_master law (k := k.record picIrqSpuriousMaster) view
  unfold spuriousMasterHandler eoiIfNotSpuriousMaster
  dsimp only
  rw [inService, same, if_neg (by decide)]
  exact ⟨_, rfl, record_handled rfl, after⟩

/-- Line 7 of the slave: the cascade line of the master came into service in either case. -/
theorem ataSecondaryHandler_ends (law : I8259 H View)
    (view : View k.ports ⟨mm, sm, 1#8 <<< 2, ss⟩) (line : ss = 1#8 <<< 7 ∨ ss = 0) :
    Ending H View (ataSecondaryHandler H k t) k picIrqAtaSecondary ⟨mm, sm, 0, 0⟩ := by
  obtain ⟨inService, ports, same, after⟩ :=
    irqInService_slave law (k := k.record picIrqAtaSecondary) view
  unfold ataSecondaryHandler eoiIfNotSpuriousSlave
  dsimp only
  rw [inService, same]
  cases line with
  | inl real =>
    subst real
    rw [if_pos (by decide)]
    exact ⟨_, _, rfl, record_handled rfl, slave_ended law after (by decide) (by decide) (by decide)⟩
  | inr spurious =>
    subst spurious
    rw [if_neg (by decide)]
    exact ⟨_, _, rfl, record_handled rfl, master_ended law after (by decide) (by decide) (by decide)⟩

/-- A request that went away before it was answered: line 7 of the master is not in service. -/
def Spurious (H : PortSpace σ) (k : Irqs σ η) (vector : Nat) : Prop :=
  vector = picIrqSpuriousMaster ∧ (irqInService H k 7).1 = false

/-- Whatever request the processor is answered: where the vector has a gate, its handler comes to the
end of the interrupt; only a spurious request at the master needs none. -/
theorem enterGate_ends (law : I8259 H View) (ack : Acknowledged ⟨mm, sm, 0, 0⟩ vector c) (view : View k.ports c)
    (gated : (idtGates H effect).lookup vector ≠ none) :
    ¬ Spurious H k vector ∧ Ending H View (enterGate H effect k vector 1 t) k vector ⟨mm, sm, 0, 0⟩ ∨
      Spurious H k vector ∧ ∃ k', enterGate H effect k vector 1 t = .ok k' ∧
        Served View k k' vector ⟨mm, sm, 0, 0⟩ := by
  have other (ne : vector ≠ picIrqSpuriousMaster) : ¬ Spurious H k vector := fun gone => ne gone.1
  cases ack with
  | master i line cascade unmasked =>
    left
    have view : View k.ports ⟨mm, sm, 1#8 <<< i, 0⟩ := BitVec.zero_or (x := 1#8 <<< i) ▸ view
    interval_cases i
    case «0» => exact ⟨other (by decide), timerHandler_ends law view (t := t)⟩
    case «1» => exact ⟨other (by decide), keyboardHandler_ends law view (t := t)⟩
    case «7» =>
      refine ⟨fun gone => ?_, spuriousMasterHandler_ends law view (t := t)⟩
      rw [Spurious, (irqInService_master law view).1] at gone
      exact absurd gone.2 (by decide)
    all_goals exact absurd rfl gated
  | slave i line unmasked =>
    left
    have view : View k.ports ⟨mm, sm, 1#8 <<< 2, 1#8 <<< i⟩ := by
      have both := view
      simp only [BitVec.ofNat_eq_ofNat, BitVec.zero_or] at both
      exact both
    interval_cases i
    case «0» => exact ⟨other (by decide), rtcHandler_ends law view (t := t)⟩
    case «4» => exact ⟨other (by decide), mouseHandler_ends law view (t := t)⟩
    case «6» => exact ⟨other (by decide), ataPrimaryHandler_ends law view (t := t)⟩
    case «7» => exact ⟨other (by decide), ataSecondaryHandler_ends law view (Or.inl rfl) (t := t)⟩
    all_goals exact absurd rfl gated
  | spuriousMaster =>
    right
    refine ⟨⟨rfl, ?_⟩, spuriousMasterHandler_spurious law view (t := t)⟩
    rw [(irqInService_master law view).1]
    decide
  | spuriousSlave =>
    left
    have view : View k.ports ⟨mm, sm, 1#8 <<< 2, 0⟩ := BitVec.zero_or (x := 1#8 <<< 2) ▸ view
    exact ⟨other (by decide), ataSecondaryHandler_ends law view (Or.inr rfl) (t := t)⟩

theorem exception_returns {k' : Irqs σ η} (low : vector < 0x20) (run : enterGate H effect k vector 0 t = .ok k') :
    k' = k.record vector := by
  interval_cases vector <;> first | exact (Except.ok.inj run).symm | cases run

end Serving

end Irqs
end CrustyOs.Interrupts
