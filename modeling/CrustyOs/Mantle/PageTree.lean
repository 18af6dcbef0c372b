import CrustyOs.Lib.Radix
import CrustyOs.Mantle.Walker

/-! Four-level page tables as a radix tree, and what `translate` reads off it. -/
namespace CrustyOs.Mantle
open Lib Abalone PageTableWalker

/-- A frame that page-table code can reach through the HHDM window. -/
structure Frame (hhdm f : Nat) : Prop where
  aligned : pageSize ∣ f
  small : f < 2 ^ 52
  reached : f + hhdm + pageSize ≤ 2 ^ 64

/-- At every level but the last the huge bit makes a leaf. -/
def slot (P : Paging) (depth entry : Nat) : Slot :=
  if P.pteIsPresent entry then
    if depth = 3 ∨ P.pteIsHuge entry then .leaf else .child (P.ptePhysAddr entry pageSize)
  else .empty

def radix (P : Paging) (hhdm : Nat) : Radix := ⟨512, slot P, fun table i => table + hhdm + 8 * i⟩

def path (vaddr : Nat) : List Nat :=
  [vaddr / 2 ^ 39 % 512, vaddr / 2 ^ 30 % 512, vaddr / 2 ^ 21 % 512, vaddr / 2 ^ 12 % 512]

/-- The tables at `root`, all in frames that are held; the top level has no huge entries. -/
structure PageTree (P : Paging) (hhdm : Nat) (word : Nat → Nat) (root : Nat) (Held : Nat → Prop) :
    Prop where
  tree : (radix P hhdm).Tree word (fun f => Frame hhdm f ∧ Held f) root
  top : ∀ p d e, (radix P hhdm).Path p → (radix P hhdm).find word 0 root p = some (d, e) → d ≠ 0

def IsTable (P : Paging) (hhdm : Nat) (word : Nat → Nat) (root f : Nat) : Prop :=
  ∃ p, (radix P hhdm).Path p ∧ (radix P hhdm).tableAt word 0 root p = some f

def lookup (P : Paging) (hhdm : Nat) (word : Nat → Nat) (root vaddr : Nat) : Option (Nat × Nat) :=
  (radix P hhdm).find word 0 root (path vaddr)

def physOf (P : Paging) (vaddr : Nat) : Nat × Nat → Nat
  | (1, entry) => P.ptePhysAddr entry huge1G + vaddr % huge1G
  | (2, entry) => P.ptePhysAddr entry huge2M + vaddr % huge2M
  | (_, entry) => P.ptePhysAddr entry pageSize + vaddr % pageSize

variable {P : Paging} {hhdm root f t e d i v : Nat} {word word' : Nat → Nat} {Held Held' : Nat → Prop}
  {p : List Nat} {m : Memory}

theorem slot_absent (absent : P.pteIsPresent e = false) : slot P d e = .empty := by
  simp [slot, absent]

theorem slot_huge (present : P.pteIsPresent e = true) (huge : P.pteIsHuge e = true) :
    slot P d e = .leaf := by
  simp [slot, present, huge]

theorem slot_child (present : P.pteIsPresent e = true) (small : P.pteIsHuge e = false) (hd : d ≠ 3) :
    slot P d e = .child (P.ptePhysAddr e pageSize) := by
  simp [slot, present, small, hd]

theorem slot_last (present : P.pteIsPresent e = true) : slot P 3 e = .leaf := by
  simp [slot, present]

theorem path_path (v : Nat) : (radix P hhdm).Path (path v) := by
  have index (x : Nat) : x % 512 < (radix P hhdm).width := Nat.mod_lt _ (by decide)
  intro i hi
  simp only [path, List.mem_cons, List.not_mem_nil, or_false] at hi
  rcases hi with rfl | rfl | rfl | rfl <;> exact index _

theorem frames_spaced : (radix P hhdm).Spaced fun f => Frame hhdm f ∧ Held f := by
  rintro t u i j ⟨⟨⟨a, rfl⟩, _, _⟩, _⟩ ⟨⟨⟨b, rfl⟩, _, _⟩, _⟩ hi hj same
  have ranges : i < 512 ∧ j < 512 := ⟨hi, hj⟩
  have cells : pageSize * a + hhdm + 8 * i = pageSize * b + hhdm + 8 * j := same
  unfold pageSize at *
  omega

theorem tableAtPhys_frame (w : PageTableWalker) (h : Frame w.hhdm f) :
    w.tableAtPhys f = .ok (f + w.hhdm) := by
  have reached := h.reached
  exact checkedAdd_lt (by unfold pageSize at reached; omega)

theorem read_index (hi : i < 512) :
    PageTable.read m (t + hhdm) i = .ok (m.word ((radix P hhdm).cell t i)) := if_pos hi

theorem X86.index_eq (x : X86 P) (v : Nat) :
    P.vaddrPtIndex v 4 = v / 2 ^ 39 % 512 ∧ P.vaddrPtIndex v 3 = v / 2 ^ 30 % 512 ∧
      P.vaddrPtIndex v 2 = v / 2 ^ 21 % 512 ∧ P.vaddrPtIndex v 1 = v / 2 ^ 12 % 512 :=
  ⟨x.index v 4 (by decide) (by decide), x.index v 3 (by decide) (by decide),
    x.index v 2 (by decide) (by decide), x.index v 1 (by decide) (by decide)⟩

theorem PageTree.frame (h : PageTree P hhdm word root Held) (hp : (radix P hhdm).Path p)
    (ht : (radix P hhdm).tableAt word 0 root p = some t) : Frame hhdm t := (h.tree.table p t hp ht).1

theorem PageTree.root_frame (h : PageTree P hhdm word root Held) : Frame hhdm root :=
  h.frame (p := []) (fun _ hi => absurd hi List.not_mem_nil) rfl

section Entry

variable (entry : e = word ((radix P hhdm).cell t i))

include entry

theorem tableAt_snoc (ht : (radix P hhdm).tableAt word 0 root p = some t)
    (present : P.pteIsPresent e = true) (small : P.pteIsHuge e = false) (hd : p.length ≠ 3) :
    (radix P hhdm).tableAt word 0 root (p ++ [i]) = some (P.ptePhysAddr e pageSize) := by
  have child : (radix P hhdm).slot p.length e = .child _ := slot_child present small hd
  rw [Radix.tableAt_append, ht, Option.bind_some, Nat.zero_add, Radix.tableAt, ← entry, child]
  rfl

theorem find_absent (absent : P.pteIsPresent e = false) :
    (radix P hhdm).find word d t (i :: p) = none := by
  have empty : (radix P hhdm).slot d e = .empty := slot_absent absent
  rw [Radix.find, ← entry, empty]

theorem tableAt_absent (absent : P.pteIsPresent e = false) :
    (radix P hhdm).tableAt word d t (i :: p) = none := by
  have empty : (radix P hhdm).slot d e = .empty := slot_absent absent
  rw [Radix.tableAt, ← entry, empty]

theorem find_leaf (leaf : slot P d e = .leaf) :
    (radix P hhdm).find word d t (i :: p) = some (d, e) := by
  have leaf : (radix P hhdm).slot d e = .leaf := leaf
  rw [Radix.find, ← entry, leaf]

theorem find_child (present : P.pteIsPresent e = true) (small : P.pteIsHuge e = false) (hd : d ≠ 3) :
    (radix P hhdm).find word d t (i :: p) =
      (radix P hhdm).find word (d + 1) (P.ptePhysAddr e pageSize) p := by
  have child : (radix P hhdm).slot d e = .child _ := slot_child present small hd
  rw [Radix.find, ← entry, child]

end Entry

/-- `translate` is the lookup in the tree. -/
theorem translate_eq {σ : Type} {s : Machine σ} (x : X86 P) (w : PageTableWalker)
    (h : PageTree P w.hhdm s.mem.word (pml4Phys s) Held) (v : Nat) :
    w.translate P s v = .ok ((lookup P w.hhdm s.mem.word (pml4Phys s) v).map (physOf P v)) := by
  have whole : (radix P w.hhdm).Path (path v) := path_path v
  obtain ⟨level₄, level₃, level₂, level₁⟩ := x.index_eq v
  have offsets : v &&& 0x3FFFFFFF = v % huge1G ∧ v &&& 0x1FFFFF = v % huge2M ∧
      v &&& (pageSize - 1) = v % pageSize :=
    ⟨Nat.and_two_pow_sub_one_eq_mod v 30, Nat.and_two_pow_sub_one_eq_mod v 21,
      Nat.and_two_pow_sub_one_eq_mod v 12⟩
  unfold lookup path at *
  obtain ⟨i₄, i₄_def⟩ : ∃ i, i = v / 2 ^ 39 % 512 := ⟨_, rfl⟩
  obtain ⟨i₃, i₃_def⟩ : ∃ i, i = v / 2 ^ 30 % 512 := ⟨_, rfl⟩
  obtain ⟨i₂, i₂_def⟩ : ∃ i, i = v / 2 ^ 21 % 512 := ⟨_, rfl⟩
  obtain ⟨i₁, i₁_def⟩ : ∃ i, i = v / 2 ^ 12 % 512 := ⟨_, rfl⟩
  rw [← i₄_def, ← i₃_def, ← i₂_def, ← i₁_def] at whole
  obtain ⟨hi₄, hi₃, hi₂, hi₁⟩ : i₄ < 512 ∧ i₃ < 512 ∧ i₂ < 512 ∧ i₁ < 512 :=
    ⟨whole i₄ (by simp), whole i₃ (by simp), whole i₂ (by simp), whole i₁ (by simp)⟩
  have paths : ∀ n, (radix P w.hhdm).Path ([i₄, i₃, i₂, i₁].take n) :=
    fun n i hi => whole i (List.mem_of_mem_take hi)
  obtain ⟨e₄, entry₄⟩ : ∃ e, e = s.mem.word ((radix P w.hhdm).cell (pml4Phys s) i₄) := ⟨_, rfl⟩
  simp only [PageTableWalker.translate, level₄, level₃, level₂, level₁, offsets, ← i₄_def, ← i₃_def, ← i₂_def,
    ← i₁_def, bind, Except.bind, tableAtPhys_frame w h.root_frame, read_index (P := P) hi₄, ← entry₄]
  cases present₄ : P.pteIsPresent e₄ with
  | false =>
    rw [find_absent entry₄ present₄]
    rfl
  | true =>
    have small₄ : P.pteIsHuge e₄ = false := by
      by_contra huge
      have leaf := find_leaf (p := [i₃, i₂, i₁]) (d := 0) entry₄
        (slot_huge present₄ (by simpa using huge))
      exact h.top _ _ _ whole leaf rfl
    have at₃ := tableAt_snoc (p := []) entry₄ rfl present₄ small₄ (by decide)
    rw [find_child entry₄ present₄ small₄ (by decide)]
    obtain ⟨e₃, entry₃⟩ : ∃ e, e = s.mem.word ((radix P w.hhdm).cell (P.ptePhysAddr e₄ pageSize) i₃) := ⟨_, rfl⟩
    simp only [tableAtPhys_frame w (h.frame (paths 1) at₃), read_index (P := P) hi₃, ← entry₃,
      Bool.not_true, Bool.false_eq_true, if_false]
    cases present₃ : P.pteIsPresent e₃ with
    | false =>
      rw [find_absent entry₃ present₃]
      rfl
    | true =>
      cases huge₃ : P.pteIsHuge e₃ with
      | true =>
        rw [find_leaf entry₃ (slot_huge present₃ huge₃)]
        rfl
      | false =>
        have at₂ := tableAt_snoc entry₃ at₃ present₃ huge₃ (by simp)
        rw [find_child entry₃ present₃ huge₃ (by decide)]
        obtain ⟨e₂, entry₂⟩ : ∃ e, e = s.mem.word ((radix P w.hhdm).cell (P.ptePhysAddr e₃ pageSize) i₂) := ⟨_, rfl⟩
        simp only [tableAtPhys_frame w (h.frame (paths 2) at₂), read_index (P := P) hi₂, ← entry₂,
          Bool.not_true, Bool.false_eq_true, if_false]
        cases present₂ : P.pteIsPresent e₂ with
        | false =>
          rw [find_absent entry₂ present₂]
          rfl
        | true =>
          cases huge₂ : P.pteIsHuge e₂ with
          | true =>
            rw [find_leaf entry₂ (slot_huge present₂ huge₂)]
            rfl
          | false =>
            have at₁ := tableAt_snoc entry₂ at₂ present₂ huge₂ (by simp)
            rw [find_child entry₂ present₂ huge₂ (by decide)]
            obtain ⟨e₁, entry₁⟩ : ∃ e, e = s.mem.word ((radix P w.hhdm).cell (P.ptePhysAddr e₂ pageSize) i₁) := ⟨_, rfl⟩
            simp only [tableAtPhys_frame w (h.frame (paths 3) at₁), read_index (P := P) hi₁, ← entry₁,
              Bool.not_true, Bool.false_eq_true, if_false]
            cases present₁ : P.pteIsPresent e₁ with
            | false =>
              rw [find_absent entry₁ present₁]
              rfl
            | true =>
              rw [find_leaf entry₁ (slot_last present₁)]
              rfl

end CrustyOs.Mantle
