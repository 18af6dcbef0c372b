import CrustyOs.Lib.Intrusive
import CrustyOs.Lib.Memory

/-! Doubly linked lists whose links are words of the memory, at two fixed offsets
from the node: pushing and unlinking as the usual stores. -/
namespace CrustyOs.Lib

variable {n p : Nat} {m : Memory} {xs : List Nat} {head x : Nat}

def wordAt (m : Memory) (offset y : Nat) : Nat := m.read (y + offset)

def LinkWord (n p : Nat) (nodes : List Nat) (a : Nat) : Prop := ∃ y ∈ nodes, a = y + n ∨ a = y + p

def LinksApart (n p : Nat) (nodes : List Nat) : Prop := ∀ y ∈ nodes, ∀ z ∈ nodes, y + n ≠ z + p

def storePush (m : Memory) (n p head x : Nat) : Memory :=
  let m := (m.write (x + n) head).write (x + p) 0
  if head ≠ 0 then m.write (head + p) x else m

def storeUnlink (m : Memory) (n p x : Nat) : Memory :=
  let prev := wordAt m p x
  let next := wordAt m n x
  let m := if prev ≠ 0 then m.write (prev + n) next else m
  if next ≠ 0 then m.write (next + p) prev else m

theorem wordAt_write_other {v a o y : Nat} (ne : y + o ≠ a) :
    wordAt (m.write a v) o y = wordAt m o y := Memory.read_write_other m v ne

theorem wordAt_write {v o y z : Nat} :
    wordAt (m.write (z + o) v) o y = if y = z then v else wordAt m o y := by
  simp only [wordAt, Memory.read_write, Nat.add_right_cancel_iff]

namespace Linked

theorem head_mem (h : Linked (wordAt m n) (wordAt m p) head xs) (ne : head ≠ 0) : head ∈ xs := by
  rw [h.head_eq]
  exact headD_mem fun e => ne (h.head_zero_iff.mpr e)

theorem storePush (h : Linked (wordAt m n) (wordAt m p) head xs) (nonnull : x ≠ 0)
    (fresh : x ∉ xs) (apart : LinksApart n p (x :: xs)) :
    Linked (wordAt (storePush m n p head x) n) (wordAt (storePush m n p head x) p) x (x :: xs) ∧
      Memory.StoresIn (LinkWord n p (x :: xs)) m (storePush m n p head x) := by
  have self : x ∈ x :: xs := List.mem_cons_self
  have two : Memory.StoresIn (LinkWord n p (x :: xs)) m ((m.write (x + n) head).write (x + p) 0) :=
    ((Memory.StoresIn.refl _ _).write _ ⟨x, self, Or.inl rfl⟩).write _ ⟨x, self, Or.inr rfl⟩
  unfold Lib.storePush
  by_cases empty : head = 0
  · simp only [empty, ne_eq, not_true_eq_false, if_false]
    obtain rfl := h.head_zero_iff.mp empty
    rw [empty] at two
    refine ⟨h.push nonnull fresh ?_ ?_ ?_ ?_ ?_, two⟩
    · rw [wordAt_write_other (apart x self x self), wordAt_write, if_pos rfl, empty]
    · rw [wordAt_write, if_pos rfl]
    · simp
    · simp
    · exact fun ne => absurd empty ne
  · rw [if_pos empty]
    have mem : head ∈ x :: xs := List.mem_cons_of_mem _ (h.head_mem empty)
    have ne_head : x ≠ head := fun e => fresh (e ▸ h.head_mem empty)
    have nexts : ∀ y ∈ x :: xs,
        wordAt (((m.write (x + n) head).write (x + p) 0).write (head + p) x) n y =
          if y = x then head else wordAt m n y := by
      intro y hy
      rw [wordAt_write_other (apart y hy head mem), wordAt_write_other (apart y hy x self), wordAt_write]
    have prevs : ∀ y, wordAt (((m.write (x + n) head).write (x + p) 0).write (head + p) x) p y =
        if y = head then x else if y = x then 0 else wordAt (m.write (x + n) head) p y := by
      intro y
      rw [wordAt_write, wordAt_write]
    have others : ∀ y ∈ xs, y ≠ x := fun y hy e => fresh (e ▸ hy)
    refine ⟨h.push nonnull fresh ?_ ?_ ?_ ?_ ?_, two.write _ ⟨head, mem, Or.inr rfl⟩⟩
    · rw [nexts x self, if_pos rfl]
    · rw [prevs, if_neg ne_head, if_pos rfl]
    · intro y hy
      rw [nexts y (List.mem_cons_of_mem _ hy), if_neg (others y hy)]
    · intro y hy ne
      rw [prevs, if_neg ne, if_neg (others y hy)]
      exact wordAt_write_other (apart x self y (List.mem_cons_of_mem _ hy)).symm
    · intro _
      rw [prevs, if_pos rfl]

theorem storeUnlink (h : Linked (wordAt m n) (wordAt m p) head xs) (hx : x ∈ xs)
    (apart : LinksApart n p xs) :
    Linked (wordAt (storeUnlink m n p x) n) (wordAt (storeUnlink m n p x) p)
        (if wordAt m p x = 0 then wordAt m n x else head) (xs.erase x) ∧
      Memory.StoresIn (LinkWord n p xs) m (storeUnlink m n p x) := by
  obtain ⟨prevs, nexts⟩ := h.neighbours hx
  have prev_mem : wordAt m p x ≠ 0 → wordAt m p x ∈ xs :=
    fun ne => List.mem_of_mem_erase (prevs.resolve_left ne)
  have next_mem : wordAt m n x ≠ 0 → wordAt m n x ∈ xs :=
    fun ne => List.mem_of_mem_erase (nexts.resolve_left ne)
  refine ⟨h.unlink hx ?_ ?_, ?_⟩
  · intro y hy _
    have nonnull : y ≠ 0 := fun e => h.nonnull (e ▸ hy)
    have first : wordAt (if wordAt m p x ≠ 0 then m.write (wordAt m p x + n) (wordAt m n x) else m) n y =
        if y = wordAt m p x then wordAt m n x else wordAt m n y := by
      split
      · exact wordAt_write
      · rename_i zero
        rw [if_neg fun e => nonnull (e.trans (not_not.mp zero))]
    unfold Lib.storeUnlink
    dsimp only
    split
    · rename_i ne
      rw [wordAt_write_other (apart y hy _ (next_mem ne)), first]
    · exact first
  · intro y hy _
    have nonnull : y ≠ 0 := fun e => h.nonnull (e ▸ hy)
    have first : wordAt (if wordAt m p x ≠ 0 then m.write (wordAt m p x + n) (wordAt m n x) else m) p y =
        wordAt m p y := by
      split
      · rename_i ne
        exact wordAt_write_other (apart _ (prev_mem ne) y hy).symm
      · rfl
    unfold Lib.storeUnlink
    dsimp only
    split
    · rw [wordAt_write, first]
    · rename_i zero
      rw [first, if_neg fun e => nonnull (e.trans (not_not.mp zero))]
  · have first : Memory.StoresIn (LinkWord n p xs) m
        (if wordAt m p x ≠ 0 then m.write (wordAt m p x + n) (wordAt m n x) else m) := by
      split
      · rename_i ne
        exact (Memory.StoresIn.refl _ _).write _ ⟨_, prev_mem ne, Or.inl rfl⟩
      · exact Memory.StoresIn.refl _ _
    unfold Lib.storeUnlink
    dsimp only
    split
    · rename_i ne
      exact first.write _ ⟨_, next_mem ne, Or.inr rfl⟩
    · exact first

end Linked
end CrustyOs.Lib
