import CrustyOs.Mantle.TreeGrowth

/-! What `map` and `unmap` do to the tree, on a path without huge pages. -/
namespace CrustyOs.Mantle
open Lib Abalone PageTableWalker

variable {σ : Type} {P : Paging} {hhdm root f t i k v u : Nat} {B : FrameSource σ} {s s₁ s₂ s' : Machine σ}
  {Ready : σ → (Nat → Nat) → (Nat → Prop) → Prop} {Held Held₁ Held₂ : Nat → Prop} {p : List Nat}
  {word word' : Nat → Nat}

theorem path_split (v : Nat) (hk : k < 4) :
    path v = (path v).take k ++ (path v).getD k 0 :: (path v).drop (k + 1) ∧
      (path v).take (k + 1) = (path v).take k ++ [(path v).getD k 0] ∧ ((path v).take k).length = k := by
  match k, hk with
  | 0, _ | 1, _ | 2, _ | 3, _ => exact ⟨rfl, rfl, rfl⟩

theorem path_take_path (v k : Nat) : (radix P hhdm).Path ((path v).take k) :=
  fun i hi => path_path v i (List.mem_of_mem_take hi)

theorem X86.level_index (x : X86 P) (v : Nat) (hk : k < 4) :
    P.vaddrPtIndex v (4 - k) = (path v).getD k 0 := by
  obtain ⟨four, three, two, one⟩ := x.index_eq v
  match k, hk with
  | 0, _ => exact four
  | 1, _ => exact three
  | 2, _ => exact two
  | 3, _ => exact one

theorem path_getD_lt (v : Nat) (hk : k < 4) : (path v).getD k 0 < 512 := by
  match k, hk with
  | 0, _ | 1, _ | 2, _ | 3, _ => exact Nat.mod_lt _ (by decide)

theorem X86.table_entry (x : X86 P) (frame : Frame hhdm f) (hk : k < 3) :
    slot P k (P.pteEncode f pageSize (P.flags.present ||| P.flags.writable)) = .child f := by
  have flags : P.flags.present ||| P.flags.writable = 3 := by rw [x.flags]; rfl
  have outside : FlagBits 3 := by unfold FlagBits; decide
  obtain ⟨phys, bits⟩ := x.encode_spec (Or.inl rfl) outside f
  rw [flags]
  rw [slot_child, phys, addressBits_of_dvd frame.aligned frame.small]
  · rw [x.present, bits 0 (Or.inl (by decide))]
    rfl
  · rw [x.huge, bits 7 (Or.inl (by decide))]
    rfl
  · omega

/-- The way down for an address has reached the table `t` after `k` steps. -/
def Descends (P : Paging) (hhdm : Nat) (Ready : σ → (Nat → Nat) → (Nat → Prop) → Prop) (root : Nat)
    (s : Machine σ) (Held : Nat → Prop) (v k t : Nat) (s' : Machine σ) : Prop :=
  ∃ Held', Grown P hhdm Ready root s Held s' Held' ∧
    (radix P hhdm).tableAt s'.mem.word 0 root ((path v).take k) = some t

theorem Descends.start (h : Sound P hhdm Ready root s Held) (v : Nat) :
    Descends P hhdm Ready root s Held v 0 root s := ⟨Held, .refl h, rfl⟩

def Clear (P : Paging) (hhdm : Nat) (word : Nat → Nat) (root v n : Nat) : Prop :=
  ∀ d e, lookup P hhdm word root v = some (d, e) → n ≤ d

def NoTable (P : Paging) (hhdm : Nat) (word : Nat → Nat) (root v : Nat) : Prop :=
  (radix P hhdm).tableAt word 0 root ((path v).take 3) = none

theorem noTable_of_absent (ht : (radix P hhdm).tableAt word 0 root ((path v).take k) = some t) (hk : k < 3)
    (absent : P.pteIsPresent (word (t + hhdm + 8 * (path v).getD k 0)) = false) :
    NoTable P hhdm word root v := by
  have whole : (path v).take 3 = (path v).take k ++ (path v).getD k 0 :: ((path v).take 3).drop (k + 1) := by
    match k, hk with
    | 0, _ | 1, _ | 2, _ => rfl
  unfold NoTable
  rw [whole, Radix.tableAt_append, ht]
  exact tableAt_absent rfl absent

theorem Descends.entry (h : Descends P hhdm Ready root s Held v k t s₁) (hk : k < 3)
    (clear : Clear P hhdm s.mem.word root v (k + 1)) :
    P.pteIsPresent (s₁.mem.word (t + hhdm + 8 * (path v).getD k 0)) = false ∨
      P.pteIsPresent (s₁.mem.word (t + hhdm + 8 * (path v).getD k 0)) = true ∧
        P.pteIsHuge (s₁.mem.word (t + hhdm + 8 * (path v).getD k 0)) = false := by
  obtain ⟨Held₁, grown, ht⟩ := h
  obtain ⟨whole, _, length⟩ := path_split v (k := k) (by omega)
  generalize (path v).getD k 0 = i at whole ⊢
  cases present : P.pteIsPresent (s₁.mem.word (t + hhdm + 8 * i)) with
  | false => exact Or.inl rfl
  | true =>
    right
    refine ⟨rfl, ?_⟩
    by_contra huge
    have leaf : (radix P hhdm).find s₁.mem.word 0 root (path v) =
        some (k, s₁.mem.word (t + hhdm + 8 * i)) := by
      rw [whole, Radix.find_append ht, length, Nat.zero_add]
      exact find_leaf rfl (slot_huge present (by simpa using huge))
    rw [grown.finds _ (path_path v)] at leaf
    have le := clear _ _ leaf
    omega

/-- One step down: an absent entry takes a fresh frame as the next table, a present one
names it. -/
theorem Descends.next (h : Descends P hhdm Ready root s Held v k t s₁) (x : X86 P)
    (supply : Supplies hhdm B Ready) (hk : k < 3) (clear : Clear P hhdm s.mem.word root v (k + 1)) :
    ∃ Held₁, Grown P hhdm Ready root s Held s₁ Held₁ ∧ Frame hhdm t ∧
      ((P.pteIsPresent (s₁.mem.word (t + hhdm + 8 * (path v).getD k 0)) = false ∧
        NoTable P hhdm s₁.mem.word root v ∧ ∀ f s₂, Zeroed hhdm Ready Held₁ s₁ f s₂ → Descends P hhdm Ready root s Held v (k + 1) f
          { s₂ with mem := s₂.mem.write (t + hhdm + 8 * (path v).getD k 0)
                      (P.pteEncode f pageSize (P.flags.present ||| P.flags.writable)) }) ∨
      (P.pteIsPresent (s₁.mem.word (t + hhdm + 8 * (path v).getD k 0)) = true ∧
        Descends P hhdm Ready root s Held v (k + 1)
          (P.ptePhysAddr (s₁.mem.word (t + hhdm + 8 * (path v).getD k 0)) pageSize) s₁)) := by
  have entry := h.entry hk clear
  obtain ⟨Held₁, grown, ht⟩ := h
  obtain ⟨_, snoc, length⟩ := path_split v (k := k) (by omega)
  have prefix_path : (radix P hhdm).Path ((path v).take k ++ [(path v).getD k 0]) :=
    snoc ▸ path_take_path v (k + 1)
  refine ⟨Held₁, grown, grown.sound.pages.frame (path_take_path v k) ht, ?_⟩
  rcases entry with absent | ⟨present, small⟩
  · refine Or.inl ⟨absent, noTable_of_absent ht hk absent, fun f s₂ zeroed => ?_⟩
    have vacant : slot P ((path v).take k).length (s₁.mem.word (t + hhdm + 8 * (path v).getD k 0)) = .empty :=
      slot_absent absent
    have child := x.table_entry zeroed.frame hk
    rw [← length] at child
    obtain ⟨linked, at_new⟩ := zeroed.link x supply grown.sound prefix_path ht vacant child
    rw [← snoc] at at_new
    exact ⟨_, grown.trans linked, at_new⟩
  · refine Or.inr ⟨present, Held₁, grown, ?_⟩
    rw [snoc]
    exact tableAt_snoc rfl ht present small (by omega)

structure Stored (P : Paging) (hhdm : Nat) (Ready : σ → (Nat → Nat) → (Nat → Prop) → Prop) (root : Nat)
    (s : Machine σ) (Held : Nat → Prop) (v k entry : Nat) (s' : Machine σ) : Prop where
  cr3 : s'.cr3 = s.cr3
  sound : Sound P hhdm Ready root s' Held
  here : ∀ u, (path u).take (k + 1) = (path v).take (k + 1) →
    lookup P hhdm s'.mem.word root u = if slot P k entry = .leaf then some (k, entry) else none
  other : ∀ u, (path u).take (k + 1) ≠ (path v).take (k + 1) →
    lookup P hhdm s'.mem.word root u = lookup P hhdm s.mem.word root u
  footprint : Footprint P hhdm root Held s s'

theorem store_spec (entry : Nat) (supply : Supplies hhdm B Ready) (sound : Sound P hhdm Ready root s Held)
    (hk : k < 4) (top : k ≠ 0)
    (ht : (radix P hhdm).tableAt s.mem.word 0 root ((path v).take k) = some t)
    (last : ∀ u, slot P k entry ≠ .child u) :
    Stored P hhdm Ready root s Held v k entry
      { s with mem := s.mem.write (t + hhdm + 8 * (path v).getD k 0) entry } := by
  obtain ⟨_, snoc, length⟩ := path_split v hk
  have hi := path_getD_lt v hk
  generalize (path v).getD k 0 = i at snoc hi ⊢
  have prefix_path : (radix P hhdm).Path ((path v).take k ++ [i]) := snoc ▸ path_take_path v (k + 1)
  have held := sound.pages.tree.table _ t (path_take_path v k) ht
  have off : ∀ a, a ≠ t + hhdm + 8 * i →
      (s.mem.write (t + hhdm + 8 * i) entry).word a = s.mem.word a :=
    fun a ne => Memory.read_write_other _ _ ne
  have kind : ∀ u, (radix P hhdm).slot ((path v).take k).length entry ≠ .child u := by
    rw [length]
    exact last
  obtain ⟨tree, tables, finds, through⟩ := sound.pages.tree.set frames_spaced ht prefix_path off
    (Memory.read_write_same _ _ _) kind
  have split : ∀ u, (path u).take (k + 1) = (path v).take (k + 1) →
      path u = (path v).take k ++ i :: (path u).drop (k + 1) := by
    intro u same
    conv_lhs => rw [← List.take_append_drop (k + 1) (path u), same, snoc]
    rw [List.append_assoc, List.singleton_append]
  have apart : ∀ u, (path u).take (k + 1) ≠ (path v).take (k + 1) →
      ¬ (path v).take k ++ [i] <+: path u := by
    intro u ne prefixed
    have cut := List.prefix_iff_eq_take.mp prefixed
    rw [List.length_append, length, List.length_singleton, ← snoc] at cut
    exact ne cut.symm
  refine ⟨rfl, ⟨⟨tree, fun q d e hq he => ?_⟩, ?_⟩, fun u same => ?_, fun u ne => ?_, ?_⟩
  · by_cases passes : (path v).take k ++ [i] <+: q
    · obtain ⟨r, rfl⟩ := passes
      rw [List.append_assoc, List.singleton_append, through r, length] at he
      split at he
      · obtain ⟨rfl, _⟩ := Prod.mk.inj (Option.some.inj he)
        exact top
      · cases he
    · exact sound.pages.top q d e hq (finds q hq passes ▸ he)
  · apply supply.stored _ _ _ _ sound.ready
    intro a changed
    by_contra outside
    apply changed
    apply off
    rintro rfl
    exact outside ⟨t, held.2, word_inFrame hi⟩
  · have result := through ((path u).drop (k + 1))
    rw [← split u same, length] at result
    exact result
  · exact finds (path u) (path_path u) (apart u ne)
  · refine ⟨[t + hhdm + 8 * i], [], rfl, rfl, by simp, fun a ha => ?_, ?_⟩
    · rw [List.mem_singleton.mp ha]
      exact ⟨t, Or.inl ⟨_, path_take_path v k, ht⟩, word_inFrame hi⟩
    · rintro f ⟨q, hq, hf⟩
      exact Or.inl ⟨q, hq, tables q f hq hf⟩

theorem last_lookup (ht : (radix P hhdm).tableAt word 0 root ((path v).take 3) = some t) :
    lookup P hhdm word root v =
      if P.pteIsPresent (word (t + hhdm + 8 * (path v).getD 3 0)) then
        some (3, word (t + hhdm + 8 * (path v).getD 3 0)) else none := by
  have found : lookup P hhdm word root v = (radix P hhdm).find word 3 t [(path v).getD 3 0] :=
    Radix.find_append (p := (path v).take 3) ht
  rw [found]
  cases present : P.pteIsPresent (word (t + hhdm + 8 * (path v).getD 3 0)) with
  | false =>
    rw [if_neg Bool.false_ne_true]
    exact find_absent rfl present
  | true =>
    rw [if_pos rfl]
    exact find_leaf rfl (slot_last present)

theorem slot_three {e : Nat} (u : Nat) : slot P 3 e ≠ .child u := by
  unfold slot
  split
  · simp
  · simp

theorem and_page_zero (a : Nat) : a &&& (pageSize - 1) ≠ 0 ↔ ¬ pageSize ∣ a := by
  have mask : a &&& (pageSize - 1) = a % pageSize := Nat.and_two_pow_sub_one_eq_mod a 12
  rw [mask, Nat.dvd_iff_mod_eq_zero]

section Walker

variable {w : PageTableWalker} (x : X86 P) (supply : Supplies w.hhdm B Ready)

include x supply

theorem descendOrCreate_spec (h : Descends P w.hhdm Ready root s Held v k t s₁) (hk : k < 3)
    (clear : Clear P w.hhdm s.mem.word root v (k + 1)) :
    (∃ e, w.descendOrCreate P B s₁ t v (4 - k) = .error e ∧ Fails B Ready) ∨
    (∃ s₂ Held₂, w.descendOrCreate P B s₁ t v (4 - k) = .ok (.error .outOfFrames, s₂) ∧
      Grown P w.hhdm Ready root s Held s₂ Held₂ ∧ Refuses B Ready s₂ ∧
        NoTable P w.hhdm s₂.mem.word root v) ∨
    ∃ u s₂, w.descendOrCreate P B s₁ t v (4 - k) = .ok (.ok u, s₂) ∧
      Descends P w.hhdm Ready root s Held v (k + 1) u s₂ := by
  obtain ⟨Held₁, grown, frame, next⟩ := h.next x supply hk clear
  have index := x.level_index v (k := k) (by omega)
  have hi := path_getD_lt v (k := k) (by omega)
  generalize (path v).getD k 0 = i at *
  have read : PageTable.read s₁.mem (t + w.hhdm) i = .ok (s₁.mem.word (t + w.hhdm + 8 * i)) := if_pos hi
  rcases next with ⟨absent, missing, linked⟩ | ⟨present, below⟩
  · rcases request_spec supply grown.sound.ready with
      ⟨e, panics, fails⟩ | ⟨s₂, refused, none, refuses⟩ | ⟨f, s₂, answered, zeroed⟩
    · refine Or.inl ⟨e, ?_, fails⟩
      simp only [descendOrCreate, allocTableFrame, tableAtPhys_frame w frame, index, read, absent, bind,
        Except.bind, panics, Bool.false_eq_true, if_false]
    · have still : NoTable P w.hhdm s₂.mem.word root v :=
        ((grown.sound.pages.kept none.keeps).2 _ (path_take_path v 3)).1.trans missing
      refine Or.inr (Or.inl ⟨s₂, Held₁, ?_, grown.trans (none.grown grown.sound), refuses, still⟩)
      simp only [descendOrCreate, allocTableFrame, tableAtPhys_frame w frame, index, read, absent, bind,
        Except.bind, refused, Bool.false_eq_true, if_false]
      rfl
    · refine Or.inr (Or.inr ⟨f, _, ?_, linked f _ zeroed⟩)
      have above : require (decide (f + w.hhdm ≥ w.hhdm)) "buddy returned address below HHDM" = .ok () :=
        require_true _ (by simp)
      have phys : checkedSub (f + w.hhdm) w.hhdm = .ok f := by
        rw [checkedSub_le (Nat.le_add_left _ _), Nat.add_sub_cancel]
      have store (m : Memory) (value : Nat) : PageTable.write m (t + w.hhdm) i value =
          .ok (m.write (t + w.hhdm + 8 * i) value) := if_pos hi
      simp only [descendOrCreate, allocTableFrame, tableAtPhys_frame w frame, index, read, absent, bind,
        Except.bind, pure, Except.pure, answered, above, phys, store, Bool.false_eq_true, if_false]
  · refine Or.inr (Or.inr ⟨_, s₁, ?_, below⟩)
    simp only [descendOrCreate, tableAtPhys_frame w frame, index, read, present, bind, Except.bind, if_true]
    rfl

theorem map_spec (phys : Nat) (prot : Protection) (h : Sound P w.hhdm Ready (pml4Phys s) s Held)
    (aligned : pageSize ∣ v ∧ pageSize ∣ phys) (clear : Clear P w.hhdm s.mem.word (pml4Phys s) v 3) :
    (∃ e, w.map P B s v phys prot = .error e ∧ Fails B Ready) ∨
    (∃ s' Held', w.map P B s v phys prot = .ok (.error .outOfFrames, s') ∧
      Grown P w.hhdm Ready (pml4Phys s) s Held s' Held' ∧ Refuses B Ready s' ∧
        NoTable P w.hhdm s'.mem.word (pml4Phys s) v) ∨
    ∃ s₁ Held₁ s', w.map P B s v phys prot = .ok (.ok ((lookup P w.hhdm s.mem.word (pml4Phys s) v).map
        fun leaf => P.ptePhysAddr leaf.2 pageSize), s') ∧
      Grown P w.hhdm Ready (pml4Phys s) s Held s₁ Held₁ ∧
      Stored P w.hhdm Ready (pml4Phys s) s₁ Held₁ v 3
        (P.pteEncode phys pageSize (P.flags.present ||| prot.bits)) s' := by
  have guard : ¬ (v &&& (pageSize - 1) ≠ 0 ∨ phys &&& (pageSize - 1) ≠ 0) := by
    rw [and_page_zero, and_page_zero]
    tauto
  have clear₁ : ∀ n ≤ 3, Clear P w.hhdm s.mem.word (pml4Phys s) v n :=
    fun n hn d e he => hn.trans (clear d e he)
  rcases descendOrCreate_spec x supply (.start h v) (by decide) (clear₁ 1 (by decide)) with
    ⟨e, run₄, fails⟩ | ⟨s₄, Held₄, run₄, refused⟩ | ⟨t₃, s₃, run₄, down₃⟩
  · exact Or.inl ⟨e, by simp only [map, guard, if_false, bind, Except.bind, run₄], fails⟩
  · exact Or.inr (Or.inl ⟨s₄, Held₄, by simp only [map, guard, if_false, bind, Except.bind, run₄]; rfl,
      refused⟩)
  rcases descendOrCreate_spec x supply down₃ (by decide) (clear₁ 2 (by decide)) with
    ⟨e, run₃, fails⟩ | ⟨s₄, Held₄, run₃, refused⟩ | ⟨t₂, s₂, run₃, down₂⟩
  · exact Or.inl ⟨e, by simp only [map, guard, if_false, bind, Except.bind, run₄, run₃], fails⟩
  · exact Or.inr (Or.inl ⟨s₄, Held₄,
      by simp only [map, guard, if_false, bind, Except.bind, run₄, run₃]; rfl, refused⟩)
  rcases descendOrCreate_spec x supply down₂ (by decide) (clear₁ 3 (by decide)) with
    ⟨e, run₂, fails⟩ | ⟨s₄, Held₄, run₂, refused⟩ | ⟨t₁, s₁, run₂, down₁⟩
  · exact Or.inl ⟨e, by simp only [map, guard, if_false, bind, Except.bind, run₄, run₃, run₂], fails⟩
  · exact Or.inr (Or.inl ⟨s₄, Held₄,
      by simp only [map, guard, if_false, bind, Except.bind, run₄, run₃, run₂]; rfl, refused⟩)
  obtain ⟨Held₁, grown, ht⟩ := down₁
  have stored := store_spec (P.pteEncode phys pageSize (P.flags.present ||| prot.bits)) supply
    grown.sound (by decide) (by decide) ht slot_three
  have frame := grown.sound.pages.frame (path_take_path v 3) ht
  have index := x.level_index v (k := 3) (by decide)
  have hi := path_getD_lt v (k := 3) (by decide)
  have found := last_lookup ht
  have same : lookup P w.hhdm s₁.mem.word (pml4Phys s) v = lookup P w.hhdm s.mem.word (pml4Phys s) v :=
    grown.finds (path v) (path_path v)
  rw [same] at found
  refine Or.inr (Or.inr ⟨s₁, Held₁, _, ?_, grown, stored⟩)
  have read : PageTable.read s₁.mem (t₁ + w.hhdm) ((path v).getD 3 0) =
      .ok (s₁.mem.word (t₁ + w.hhdm + 8 * (path v).getD 3 0)) := if_pos hi
  have store (value : Nat) : PageTable.write s₁.mem (t₁ + w.hhdm) ((path v).getD 3 0) value =
      .ok (s₁.mem.write (t₁ + w.hhdm + 8 * (path v).getD 3 0) value) := if_pos hi
  rw [found, apply_ite (Option.map _), Option.map_some, Option.map_none]
  simp only [map, guard, if_false, bind, Except.bind, run₄, run₃, run₂, writeLeaf,
    tableAtPhys_frame w frame, index, read, store]
  rfl

omit supply in
theorem walkExisting_spec (h : PageTree P w.hhdm s.mem.word root Held) (hk : k < 3)
    (ht : (radix P w.hhdm).tableAt s.mem.word 0 root ((path v).take k) = some t) :
    (w.walkExisting P s t v (4 - k) = .ok none ∧
      ∀ d e, lookup P w.hhdm s.mem.word root v = some (d, e) → d = k) ∨
    ∃ u, w.walkExisting P s t v (4 - k) = .ok (some u) ∧
      (radix P w.hhdm).tableAt s.mem.word 0 root ((path v).take (k + 1)) = some u := by
  obtain ⟨whole, snoc, length⟩ := path_split v (k := k) (by omega)
  have index := x.level_index v (k := k) (by omega)
  have hi := path_getD_lt v (k := k) (by omega)
  have frame := h.frame (path_take_path v k) ht
  have found : lookup P w.hhdm s.mem.word root v =
      (radix P w.hhdm).find s.mem.word k t ((path v).getD k 0 :: (path v).drop (k + 1)) := by
    have split := Radix.find_append (q := (path v).getD k 0 :: (path v).drop (k + 1)) ht
    rwa [← whole, length, Nat.zero_add] at split
  rw [snoc]
  generalize (path v).getD k 0 = i at index hi found ⊢
  have read : PageTable.read s.mem (t + w.hhdm) i = .ok (s.mem.word (t + w.hhdm + 8 * i)) := if_pos hi
  simp only [walkExisting, tableAtPhys_frame w frame, index, read, bind, Except.bind]
  rw [found]
  obtain ⟨e, entry⟩ : ∃ e, e = s.mem.word (t + w.hhdm + 8 * i) := ⟨_, rfl⟩
  rw [← entry]
  cases present : P.pteIsPresent e with
  | false =>
    left
    refine ⟨rfl, fun d e he => ?_⟩
    rw [find_absent entry present] at he
    cases he
  | true =>
    cases huge : P.pteIsHuge e with
    | true =>
      left
      refine ⟨rfl, fun d e he => ?_⟩
      rw [find_leaf entry (slot_huge present huge)] at he
      exact (Prod.mk.inj (Option.some.inj he)).1.symm
    | false => exact Or.inr ⟨_, rfl, tableAt_snoc entry ht present huge (by omega)⟩

/-- `unmap` stops above the last level, or clears the entry there. -/
theorem unmap_spec (h : Sound P w.hhdm Ready (pml4Phys s) s Held) (v : Nat) :
    (w.unmap P s v = .ok s ∧
      ∀ d e, lookup P w.hhdm s.mem.word (pml4Phys s) v = some (d, e) → d < 3) ∨
    ∃ s', w.unmap P s v = .ok s' ∧ Stored P w.hhdm Ready (pml4Phys s) s Held v 3 0 s' := by
  rcases walkExisting_spec x h.pages (k := 0) (v := v) (by decide) rfl with ⟨run₄, high⟩ | ⟨t₃, run₄, ht₃⟩
  · refine Or.inl ⟨?_, fun d e he => by rw [high d e he]; decide⟩
    simp only [unmap, run₄, bind, Except.bind]
    rfl
  rcases walkExisting_spec x h.pages (by decide) ht₃ with ⟨run₃, high⟩ | ⟨t₂, run₃, ht₂⟩
  · refine Or.inl ⟨?_, fun d e he => by rw [high d e he]; decide⟩
    simp only [unmap, run₄, run₃, bind, Except.bind]
    rfl
  rcases walkExisting_spec x h.pages (by decide) ht₂ with ⟨run₂, high⟩ | ⟨t₁, run₂, ht₁⟩
  · refine Or.inl ⟨?_, fun d e he => by rw [high d e he]; decide⟩
    simp only [unmap, run₄, run₃, run₂, bind, Except.bind]
    rfl
  have stored := store_spec 0 supply h (by decide) (by decide) ht₁ slot_three
  have frame := h.pages.frame (path_take_path v 3) ht₁
  have index := x.level_index v (k := 3) (by decide)
  have store (value : Nat) : PageTable.write s.mem (t₁ + w.hhdm) ((path v).getD 3 0) value =
      .ok (s.mem.write (t₁ + w.hhdm + 8 * (path v).getD 3 0) value) := if_pos (path_getD_lt v (by decide))
  refine Or.inr ⟨_, ?_, stored⟩
  simp only [unmap, run₄, run₃, run₂, tableAtPhys_frame w frame, index, store, bind, Except.bind]
  rfl

end Walker

theorem X86.leaf_entry (x : X86 P) {phys : Nat} {prot : Protection}
    (policy : FlagBits prot.bits) :
    slot P 3 (P.pteEncode phys pageSize (P.flags.present ||| prot.bits)) = .leaf ∧
      P.ptePhysAddr (P.pteEncode phys pageSize (P.flags.present ||| prot.bits)) pageSize =
        addressBits phys pageSize := by
  obtain ⟨outside, present⟩ := x.leaf_flags policy
  obtain ⟨phys_eq, bits⟩ := x.encode_spec (Or.inl rfl) outside phys
  refine ⟨slot_last ?_, phys_eq⟩
  rw [x.present, bits 0 (Or.inl (by decide)), present]

end CrustyOs.Mantle
