import Mathlib.Algebra.BigOperators.Group.Finset.Basic
import Mathlib.Algebra.BigOperators.Group.List.Basic
import Mathlib.Algebra.BigOperators.Ring.Finset
import Mathlib.Algebra.BigOperators.Ring.List
import Mathlib.Algebra.GroupWithZero.Nat
import Mathlib.Algebra.Order.BigOperators.Group.Finset
import Mathlib.Tactic.Common

/-! Finite families of lists and their total weights. One weight law serves
every count taken over the family: bytes, coverage, occurrences. -/
namespace CrustyOs.Lib

def weight (n : Nat) (f : Nat → Nat → Nat) (lists : Nat → List Nat) : Nat :=
  ∑ k ∈ Finset.range n, ((lists k).map (f k)).sum

section
variable {n k : Nat} {f : Nat → Nat → Nat} {lists : Nat → List Nat}

theorem weight_update (f : Nat → Nat → Nat) (lists : Nat → List Nat) (hk : k < n) (ys : List Nat) :
    weight n f (Function.update lists k ys) + ((lists k).map (f k)).sum =
      weight n f lists + (ys.map (f k)).sum := by
  have mem : k ∈ Finset.range n := Finset.mem_range.mpr hk
  have others : ∀ j ∈ (Finset.range n).erase k,
      ((Function.update lists k ys j).map (f j)).sum = ((lists j).map (f j)).sum := by
    intro j hj
    rw [Function.update_of_ne (Finset.ne_of_mem_erase hj)]
  unfold weight
  rw [← Finset.add_sum_erase _ _ mem, ← Finset.add_sum_erase _ (fun j => ((lists j).map (f j)).sum) mem,
    Finset.sum_congr rfl others, Function.update_self]
  omega

theorem weight_push (hk : k < n) (p : Nat) :
    weight n f (Function.update lists k (p :: lists k)) = f k p + weight n f lists := by
  have h := weight_update f lists hk (p :: lists k)
  simp only [List.map_cons, List.sum_cons] at h
  omega

theorem weight_erase (hk : k < n) {p : Nat} (hp : p ∈ lists k) :
    f k p + weight n f (Function.update lists k ((lists k).erase p)) = weight n f lists := by
  have h := weight_update f lists hk ((lists k).erase p)
  have s := List.sum_map_erase (f k) hp
  omega

theorem weight_mem (hk : k < n) {p : Nat} (hp : p ∈ lists k) : f k p ≤ weight n f lists :=
  Nat.le.intro (weight_erase hk hp)

theorem weight_two {j p q : Nat} (hk : k < n) (hj : j < n) (hp : p ∈ lists k) (hq : q ∈ lists j)
    (ne : ¬ (j = k ∧ q = p)) : f k p + f j q ≤ weight n f lists := by
  rw [← weight_erase hk hp]
  apply Nat.add_le_add_left
  apply weight_mem hj
  by_cases e : j = k
  · subst e
    rw [Function.update_self]
    exact (List.mem_erase_of_ne (fun h => ne ⟨rfl, h⟩)).mpr hq
  · rwa [Function.update_of_ne e]

theorem weight_pos (h : 0 < weight n f lists) : ∃ k < n, ∃ p ∈ lists k, 0 < f k p := by
  by_contra none
  have zero : weight n f lists = 0 := by
    apply Finset.sum_eq_zero
    intro k hk
    apply List.sum_eq_zero
    intro v hv
    obtain ⟨p, hp, rfl⟩ := List.mem_map.mp hv
    by_contra hne
    exact none ⟨k, Finset.mem_range.mp hk, p, hp, Nat.pos_of_ne_zero hne⟩
  omega

theorem weight_empty (h : ∀ k < n, lists k = []) : weight n f lists = 0 := by
  apply Finset.sum_eq_zero
  intro k hk
  rw [h k (Finset.mem_range.mp hk)]
  rfl

theorem weight_scale (c : Nat) : weight n (fun k p => c * f k p) lists = c * weight n f lists := by
  unfold weight
  rw [Finset.mul_sum]
  apply Finset.sum_congr rfl
  intro k _
  exact List.sum_map_mul_left (lists k) (f k) c

theorem weight_congr {g : Nat → Nat → Nat} (h : ∀ k < n, ∀ p ∈ lists k, f k p = g k p) :
    weight n f lists = weight n g lists := by
  apply Finset.sum_congr rfl
  intro k hk
  rw [List.map_congr_left (h k (Finset.mem_range.mp hk))]

end

theorem sum_list_sum {α : Type} (R : Finset Nat) (f : α → Nat → Nat) (l : List α) :
    ∑ x ∈ R, (l.map fun a => f a x).sum = (l.map fun a => ∑ x ∈ R, f a x).sum := by
  induction l with
  | nil => simp
  | cons a l ih => simp [Finset.sum_add_distrib, ih]

theorem sum_weight (n : Nat) (R : Finset Nat) (f : Nat → Nat → Nat → Nat) (lists : Nat → List Nat) :
    ∑ x ∈ R, weight n (fun k p => f k p x) lists = weight n (fun k p => ∑ x ∈ R, f k p x) lists := by
  unfold weight
  rw [Finset.sum_comm]
  exact Finset.sum_congr rfl fun k _ => sum_list_sum R (f k) (lists k)

end CrustyOs.Lib
