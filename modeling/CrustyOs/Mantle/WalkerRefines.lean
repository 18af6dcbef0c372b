import CrustyOs.Mantle.WalkerSpec
import Mathlib.Data.Finmap

/-! The walker as a finite map from pages to frames and protections. -/
namespace CrustyOs.Mantle
open Lib Abalone PageTableWalker

def Canonical (v : Nat) : Prop := v < 2 ^ 47 ∨ 2 ^ 64 - 2 ^ 47 ≤ v ∧ v < 2 ^ 64

/-- What an address space is for: a frame and a protection for some pages. -/
abbrev AddressSpace := Finmap fun _ : Nat => Nat × Protection

inductive WalkerOp where
  | map (vaddr phys : Nat) (prot : Protection)
  | unmap (vaddr : Nat)
  | translate (vaddr : Nat)

inductive WalkerOut where
  | mapped (result : Except MapError (Option Nat))
  | unmapped
  | translated (phys : Option Nat)
  deriving DecidableEq

/-- The map's own account of an operation. Running out is possible for a page where `exhausted`
says so, and then nothing changes. -/
inductive Step (exhausted : Nat → Prop) : AddressSpace → WalkerOp → WalkerOut → AddressSpace → Prop where
  | misaligned {pages vaddr phys prot} (bad : ¬ (pageSize ∣ vaddr ∧ pageSize ∣ phys)) :
      Step exhausted pages (.map vaddr phys prot) (.mapped (.error .misaligned)) pages
  | outOfFrames {pages vaddr phys prot} (aligned : pageSize ∣ vaddr ∧ pageSize ∣ phys)
      (can : exhausted vaddr) :
      Step exhausted pages (.map vaddr phys prot) (.mapped (.error .outOfFrames)) pages
  | map {pages vaddr phys prot} (aligned : pageSize ∣ vaddr ∧ pageSize ∣ phys) :
      Step exhausted pages (.map vaddr phys prot)
        (.mapped (.ok ((pages.lookup (vaddr / pageSize)).map Prod.fst)))
        (pages.insert (vaddr / pageSize) (phys, prot))
  | unmap {pages vaddr} :
      Step exhausted pages (.unmap vaddr) .unmapped (pages.erase (vaddr / pageSize))
  | translate {pages vaddr} :
      Step exhausted pages (.translate vaddr)
        (.translated ((pages.lookup (vaddr / pageSize)).map fun e => e.1 + vaddr % pageSize)) pages

variable {σ : Type}

def WalkerOp.exec (P : Paging) (B : FrameSource σ) (w : PageTableWalker) (s : Machine σ) :
    WalkerOp → Except Panic (WalkerOut × Machine σ)
  | .map vaddr phys prot => do
    let (result, s) ← w.map P B s vaddr phys prot
    return (.mapped result, s)
  | .unmap vaddr => do return (.unmapped, ← w.unmap P s vaddr)
  | .translate vaddr => do return (.translated (← w.translate P s vaddr), s)

def WalkerOp.execAll (P : Paging) (B : FrameSource σ) (w : PageTableWalker) :
    Machine σ → List WalkerOp → Except Panic (List WalkerOut × Machine σ)
  | s, [] => .ok ([], s)
  | s, op :: ops => do
    let (out, s) ← op.exec P B w s
    let (outs, s) ← execAll P B w s ops
    return (out :: outs, s)

/-- The call that led to `s` ran out: its request for a frame was refused, and the page has no
table of the last level. -/
def RanOut (P : Paging) (B : FrameSource σ) (w : PageTableWalker)
    (Ready : σ → (Nat → Nat) → (Nat → Prop) → Prop) (s : Machine σ) (vaddr : Nat) : Prop :=
  Refuses B Ready s ∧ NoTable P w.hhdm s.mem.word (pml4Phys s) vaddr

/-- The account of a run, operation by operation beside the machine. -/
inductive Steps (P : Paging) (B : FrameSource σ) (w : PageTableWalker)
    (Ready : σ → (Nat → Nat) → (Nat → Prop) → Prop) :
    Machine σ → AddressSpace → List WalkerOp → List WalkerOut → Machine σ → AddressSpace → Prop where
  | nil {s pages} : Steps P B w Ready s pages [] [] s pages
  | cons {s s₁ s' pages pages₁ pages' op out ops outs} (run : op.exec P B w s = .ok (out, s₁))
      (first : Step (RanOut P B w Ready s₁) pages op out pages₁)
      (rest : Steps P B w Ready s₁ pages₁ ops outs s' pages') :
      Steps P B w Ready s pages (op :: ops) (out :: outs) s' pages'

def WalkerOp.Valid (P : Paging) : WalkerOp → Prop
  | .map vaddr phys prot => Canonical vaddr ∧ phys < 2 ^ 52 ∧ prot ∈ Protection.constants P.flags
  | .unmap vaddr => Canonical vaddr
  | .translate vaddr => Canonical vaddr

def leafEntry (P : Paging) (e : Nat × Protection) : Nat :=
  P.pteEncode e.1 pageSize (P.flags.present ||| e.2.bits)

/-- The tree's leaves are the map's entries. -/
structure Represents (P : Paging) (w : PageTableWalker)
    (Ready : σ → (Nat → Nat) → (Nat → Prop) → Prop) (s : Machine σ) (Held : Nat → Prop)
    (pages : AddressSpace) : Prop where
  sound : Sound P w.hhdm Ready (pml4Phys s) s Held
  entries : ∀ v, Canonical v → lookup P w.hhdm s.mem.word (pml4Phys s) v =
    (pages.lookup (v / pageSize)).map fun e => (3, leafEntry P e)
  valid : ∀ n e, pages.lookup n = some e →
    pageSize ∣ e.1 ∧ e.1 < 2 ^ 52 ∧ e.2 ∈ Protection.constants P.flags

variable {P : Paging} {B : FrameSource σ} {w : PageTableWalker} {s s' : Machine σ}
  {Ready : σ → (Nat → Nat) → (Nat → Prop) → Prop} {Held : Nat → Prop} {pages : AddressSpace} {u v : Nat}

theorem path_eq_iff (hu : Canonical u) (hv : Canonical v) :
    path u = path v ↔ u / pageSize = v / pageSize := by
  simp only [path, List.cons.injEq, and_true]
  unfold Canonical at hu hv
  unfold pageSize
  constructor
  · rintro ⟨four, three, two, one⟩
    omega
  · intro same
    omega

theorem pml4Phys_congr (same : s'.cr3 = s.cr3) : pml4Phys s' = pml4Phys s := by
  unfold pml4Phys
  rw [same]

namespace Represents

theorem clear (h : Represents P w Ready s Held pages) (hv : Canonical v) :
    Clear P w.hhdm s.mem.word (pml4Phys s) v 3 := by
  intro d e he
  rw [h.entries v hv] at he
  obtain ⟨_, _, leaf⟩ := Option.map_eq_some_iff.mp he
  exact (Prod.mk.inj leaf).1.le

theorem frames (h : Represents P w Ready s Held pages) (x : X86 P) (hv : Canonical v) :
    ((lookup P w.hhdm s.mem.word (pml4Phys s) v).map fun leaf => P.ptePhysAddr leaf.2 pageSize) =
        (pages.lookup (v / pageSize)).map Prod.fst ∧
      (lookup P w.hhdm s.mem.word (pml4Phys s) v).map (physOf P v) =
        (pages.lookup (v / pageSize)).map fun e => e.1 + v % pageSize := by
  rw [h.entries v hv]
  cases found : pages.lookup (v / pageSize) with
  | none => exact ⟨rfl, rfl⟩
  | some e =>
    obtain ⟨aligned, small, known⟩ := h.valid _ e found
    obtain ⟨_, phys⟩ := x.leaf_entry (x.policy known)
    rw [addressBits_of_dvd aligned small] at phys
    refine ⟨?_, ?_⟩
    · rw [Option.map_some, Option.map_some, Option.map_some]
      exact congrArg some phys
    · rw [Option.map_some, Option.map_some, Option.map_some]
      exact congrArg (fun base => some (base + v % pageSize)) phys

theorem grown {Held' : Nat → Prop} (h : Represents P w Ready s Held pages)
    (grown : Grown P w.hhdm Ready (pml4Phys s) s Held s' Held') :
    Represents P w Ready s' Held' pages := by
  have root := pml4Phys_congr grown.cr3
  refine ⟨by rw [root]; exact grown.sound, fun v hv => ?_, h.valid⟩
  rw [root]
  exact (grown.finds _ (path_path v)).trans (h.entries v hv)

theorem stored_map {phys : Nat} {prot : Protection} (h : Represents P w Ready s Held pages) (x : X86 P)
    (hv : Canonical v) (known : prot ∈ Protection.constants P.flags) (aligned : pageSize ∣ phys)
    (small : phys < 2 ^ 52)
    (stored : Stored P w.hhdm Ready (pml4Phys s) s Held v 3 (leafEntry P (phys, prot)) s') :
    Represents P w Ready s' Held (pages.insert (v / pageSize) (phys, prot)) := by
  have root := pml4Phys_congr stored.cr3
  refine ⟨by rw [root]; exact stored.sound, fun u hu => ?_, fun n e found => ?_⟩
  · rw [root]
    by_cases same : u / pageSize = v / pageSize
    · rw [stored.here u ((path_eq_iff hu hv).mpr same), same, Finmap.lookup_insert, Option.map_some]
      exact if_pos (x.leaf_entry (x.policy known)).1
    · rw [stored.other u fun e => same ((path_eq_iff hu hv).mp e), Finmap.lookup_insert_of_ne _ same]
      exact h.entries u hu
  · by_cases same : n = v / pageSize
    · rw [same, Finmap.lookup_insert] at found
      obtain rfl := Option.some.inj found
      exact ⟨aligned, small, known⟩
    · rw [Finmap.lookup_insert_of_ne _ same] at found
      exact h.valid n e found

theorem stored_unmap (h : Represents P w Ready s Held pages) (x : X86 P) (hv : Canonical v)
    (stored : Stored P w.hhdm Ready (pml4Phys s) s Held v 3 0 s') :
    Represents P w Ready s' Held (pages.erase (v / pageSize)) := by
  have root := pml4Phys_congr stored.cr3
  refine ⟨by rw [root]; exact stored.sound, fun u hu => ?_, fun n e found => ?_⟩
  · rw [root]
    by_cases same : u / pageSize = v / pageSize
    · have absent : slot P 3 0 = .empty := slot_absent (by rw [x.present, Nat.zero_testBit])
      rw [stored.here u ((path_eq_iff hu hv).mpr same), same, Finmap.lookup_erase, absent]
      rfl
    · rw [stored.other u fun e => same ((path_eq_iff hu hv).mp e), Finmap.lookup_erase_ne same]
      exact h.entries u hu
  · by_cases same : n = v / pageSize
    · rw [same, Finmap.lookup_erase] at found
      cases found
    · rw [Finmap.lookup_erase_ne same] at found
      exact h.valid n e found

end Represents

/-- One operation of the walker is a step of the map, unless the allocator panics. -/
theorem step_refines {op : WalkerOp} (x : X86 P) (supply : Supplies w.hhdm B Ready)
    (h : Represents P w Ready s Held pages) (valid : op.Valid P) :
    (∃ e, op.exec P B w s = .error e ∧ Fails B Ready) ∨
    ∃ out s' Held' pages', op.exec P B w s = .ok (out, s') ∧
      Step (RanOut P B w Ready s') pages op out pages' ∧ Represents P w Ready s' Held' pages' := by
  cases op with
  | map v phys prot =>
    obtain ⟨hv, small, known⟩ := valid
    by_cases aligned : pageSize ∣ v ∧ pageSize ∣ phys
    · rcases map_spec x supply phys prot h.sound aligned (h.clear hv) with
        ⟨e, run, fails⟩ | ⟨s', Held', run, grown, refuses, missing⟩ | ⟨s₁, Held₁, s', run, grown, stored⟩
      · exact Or.inl ⟨e, by simp only [WalkerOp.exec, run, bind, Except.bind], fails⟩
      · rw [← pml4Phys_congr grown.cr3] at missing
        exact Or.inr ⟨_, s', Held', pages, by simp only [WalkerOp.exec, run, bind, Except.bind]; rfl,
          .outOfFrames aligned ⟨refuses, missing⟩, h.grown grown⟩
      · have root := pml4Phys_congr grown.cr3
        rw [← root] at stored
        rw [(h.frames x hv).1] at run
        exact Or.inr ⟨_, s', Held₁, _, by simp only [WalkerOp.exec, run, bind, Except.bind]; rfl,
          .map aligned, (h.grown grown).stored_map x hv known aligned.2 small stored⟩
    · have guard : v &&& (pageSize - 1) ≠ 0 ∨ phys &&& (pageSize - 1) ≠ 0 := by
        rw [and_page_zero, and_page_zero]
        tauto
      exact Or.inr ⟨_, s, Held, pages, by simp only [WalkerOp.exec, map, guard, if_true, bind, Except.bind]; rfl,
        .misaligned aligned, h⟩
  | unmap v =>
    rcases unmap_spec x supply h.sound v with ⟨run, high⟩ | ⟨s', run, stored⟩
    · refine Or.inr ⟨_, s, Held, _, by simp only [WalkerOp.exec, run, bind, Except.bind]; rfl, .unmap, ?_⟩
      -- nothing was mapped: the tree has no leaf above the last level
      have absent : pages.lookup (v / pageSize) = none := by
        cases found : pages.lookup (v / pageSize) with
        | none => rfl
        | some e =>
          have leaf := h.entries v valid
          rw [found, Option.map_some] at leaf
          exact absurd (high _ _ leaf) (Nat.lt_irrefl 3)
      have same : pages.erase (v / pageSize) = pages := by
        apply Finmap.ext_lookup
        intro n
        by_cases here : n = v / pageSize
        · rw [here, Finmap.lookup_erase, absent]
        · exact Finmap.lookup_erase_ne here
      rw [same]
      exact h
    · exact Or.inr ⟨_, s', Held, _, by simp only [WalkerOp.exec, run, bind, Except.bind]; rfl, .unmap,
        h.stored_unmap x valid stored⟩
  | translate v =>
    have run := translate_eq x w h.sound.pages v
    rw [(h.frames x valid).2] at run
    exact Or.inr ⟨_, s, Held, pages, by simp only [WalkerOp.exec, run, bind, Except.bind]; rfl,
      .translate, h⟩

theorem run_refines (x : X86 P) (supply : Supplies w.hhdm B Ready) (returns : ¬ Fails B Ready)
    (ops : List WalkerOp) : ∀ {s : Machine σ} {Held : Nat → Prop} {pages : AddressSpace},
    Represents P w Ready s Held pages → (∀ op ∈ ops, op.Valid P) →
    ∃ outs s' Held' pages', WalkerOp.execAll P B w s ops = .ok (outs, s') ∧
      Steps P B w Ready s pages ops outs s' pages' ∧ Represents P w Ready s' Held' pages' := by
  induction ops with
  | nil => exact fun {s Held pages} h _ => ⟨[], s, Held, pages, rfl, .nil, h⟩
  | cons op ops ih =>
    intro s Held pages h valid
    rcases step_refines x supply h (valid op (List.mem_cons_self ..)) with
      ⟨_, _, fails⟩ | ⟨out, s₁, Held₁, pages₁, run, step, h₁⟩
    · exact absurd fails returns
    · obtain ⟨outs, s', Held', pages', rest, steps, h'⟩ :=
        ih h₁ fun op hop => valid op (List.mem_cons_of_mem _ hop)
      refine ⟨out :: outs, s', Held', pages', ?_, .cons run step steps, h'⟩
      simp only [WalkerOp.execAll, run, rest, bind, Except.bind]
      rfl

structure EmptyRoot (w : PageTableWalker) (Ready : σ → (Nat → Nat) → (Nat → Prop) → Prop)
    (s : Machine σ) : Prop where
  frame : Frame w.hhdm (pml4Phys s)
  zero : ∀ i < 512, s.mem.word (pml4Phys s + w.hhdm + 8 * i) = 0
  ready : Ready s.buddy s.mem.word fun f => f = pml4Phys s

theorem EmptyRoot.represents (h : EmptyRoot w Ready s) (x : X86 P) :
    Represents P w Ready s (fun f => f = pml4Phys s) ∅ := by
  obtain ⟨pages, _, finds⟩ := PageTree.empty x h.frame (fun f => f = pml4Phys s) rfl h.zero
  refine ⟨⟨pages, h.ready⟩, fun v _ => ?_, fun n e found => ?_⟩
  · rw [Finmap.lookup_empty]
    exact finds _ (path_path v)
  · rw [Finmap.lookup_empty] at found
    cases found

/-- From an empty top-level table every run of the walker returns, and answers and
translates as the finite map does; a call runs out only where a table is missing and the
allocator has refused it. -/
theorem walker_refines_partial_map (x : X86 P) (supply : Supplies w.hhdm B Ready)
    (returns : ¬ Fails B Ready) (start : EmptyRoot w Ready s) (ops : List WalkerOp)
    (valid : ∀ op ∈ ops, op.Valid P) :
    ∃ outs s' pages, WalkerOp.execAll P B w s ops = .ok (outs, s') ∧
      Steps P B w Ready s ∅ ops outs s' pages ∧
      (∀ v, Canonical v → w.translate P s' v =
        .ok ((pages.lookup (v / pageSize)).map fun e => e.1 + v % pageSize)) ∧
      ∀ v, Canonical v → lookup P w.hhdm s'.mem.word (pml4Phys s') v =
        (pages.lookup (v / pageSize)).map fun e => (3, leafEntry P e) := by
  obtain ⟨outs, s', Held', pages, run, steps, h⟩ := run_refines x supply returns ops
    (start.represents x) valid
  refine ⟨outs, s', pages, run, steps, fun v hv => ?_, h.entries⟩
  rw [translate_eq x w h.sound.pages v, (h.frames x hv).2]

def smallMachine : Machine (List (Option Nat)) :=
  ⟨0x1000, Memory.blank, [some 0x2000, some 0x3000, some 0x4000, none], []⟩

theorem smallMachine_empty : EmptyRoot ⟨0⟩ (ListReady 0) smallMachine := by
  have root : pml4Phys smallMachine = 0x1000 := by decide
  have frame : ∀ f ∈ [0x1000, 0x2000, 0x3000, 0x4000], Frame 0 f := by
    intro f hf
    simp only [List.mem_cons, List.not_mem_nil, or_false] at hf
    rcases hf with rfl | rfl | rfl | rfl <;> exact ⟨by decide, by decide, by decide⟩
  refine ⟨by rw [root]; exact frame _ (by simp), fun _ _ => rfl, fun f hf => ?_, fun virt hv => ?_, ?_⟩
  · rw [hf, root]
    exact frame _ (by simp)
  · have known : virt = 0x2000 ∨ virt = 0x3000 ∨ virt = 0x4000 := by
      simpa [smallMachine] using hv
    refine ⟨virt, rfl, frame virt (by simpa using Or.inr known), fun held => ?_⟩
    rw [held, root] at known
    omega
  · simp [smallMachine]

/-- Two pages share three tables; a third needs a table that is not there. -/
def smallOps : List WalkerOp :=
  [.map 0x400000 0x7000 (Protection.kernelRw amd64.flags), .translate 0x400123,
    .map 0x401000 0x8000 (Protection.mmioWc amd64.flags), .unmap 0x400000,
    .map 0x800000 0x9000 (Protection.kernelRx amd64.flags), .translate 0x401004]

/-- What is mapped in the end: the first page is taken back, the third never came. -/
def smallPages : AddressSpace :=
  have first : AddressSpace := Finmap.insert 0x400 (0x7000, Protection.kernelRw amd64.flags) ∅
  have second : AddressSpace := Finmap.insert 0x401 (0x8000, Protection.mmioWc amd64.flags) first
  second.erase 0x400

theorem walker_refines_partial_map_small :
    ∃ outs s' pages, outs = [.mapped (.ok none), .translated (some 0x7123), .mapped (.ok none), .unmapped,
        .mapped (.error .outOfFrames), .translated (some 0x8004)] ∧
      pages = smallPages ∧
      WalkerOp.execAll amd64 listSource ⟨0⟩ smallMachine smallOps = .ok (outs, s') ∧
      Steps amd64 listSource ⟨0⟩ (ListReady 0) smallMachine ∅ smallOps outs s' pages ∧
      (∀ v, Canonical v → PageTableWalker.translate amd64 ⟨0⟩ s' v =
        .ok ((pages.lookup (v / pageSize)).map fun e => e.1 + v % pageSize)) ∧
      ∀ v, Canonical v → lookup amd64 0 s'.mem.word (pml4Phys s') v =
        (pages.lookup (v / pageSize)).map fun e => (3, leafEntry amd64 e) := by
  have valid : ∀ op ∈ smallOps, op.Valid amd64 := by
    simp only [smallOps, List.forall_mem_cons, List.not_mem_nil, WalkerOp.Valid, Canonical]
    refine ⟨⟨by decide, by decide, by decide⟩, by decide, ⟨by decide, by decide, by decide⟩, by decide,
      ⟨by decide, by decide, by decide⟩, by decide, nofun⟩
  obtain ⟨outs, s', pages, run, steps, rest⟩ := walker_refines_partial_map amd64_x86 (listSource_supplies 0)
    (listSource_returns 0) smallMachine_empty smallOps valid
  have answers : (WalkerOp.execAll amd64 listSource ⟨0⟩ smallMachine smallOps).toOption.map Prod.fst =
      some [.mapped (.ok none), .translated (some 0x7123), .mapped (.ok none), .unmapped,
        .mapped (.error .outOfFrames), .translated (some 0x8004)] := by decide +kernel
  rw [run] at answers
  obtain rfl := Option.some.inj answers
  refine ⟨_, s', pages, rfl, ?_, run, steps, rest⟩
  -- the outputs tell which account each operation has
  obtain _ | ⟨_, first, steps⟩ := steps
  cases first
  obtain _ | ⟨_, second, steps⟩ := steps
  cases second
  obtain _ | ⟨_, third, steps⟩ := steps
  cases third
  obtain _ | ⟨_, fourth, steps⟩ := steps
  cases fourth
  obtain _ | ⟨_, fifth, steps⟩ := steps
  cases fifth
  obtain _ | ⟨_, sixth, steps⟩ := steps
  cases sixth
  cases steps
  rfl

end CrustyOs.Mantle
