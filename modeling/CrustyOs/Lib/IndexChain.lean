import Mathlib.Data.Finset.Card
import Mathlib.Data.Finset.Range
import Mathlib.Data.List.Nodup

/-! Chains of indices with a sentinel: each index stores the next one, the last
stores `stop`. As with the address lists, `next` reads the stored links. -/
namespace CrustyOs.Lib

def Threaded (next : Nat → Nat) (stop : Nat) : List Nat → Prop
  | [] => True
  | i :: is => next i = is.headD stop ∧ Threaded next stop is

namespace Threaded

variable {next next' : Nat → Nat} {stop : Nat} {is : List Nat}

theorem congr (h : Threaded next stop is) (same : ∀ i ∈ is, next' i = next i) :
    Threaded next' stop is := by
  induction is with
  | nil => trivial
  | cons i is ih =>
    exact ⟨(same i (by simp)).trans h.1, ih h.2 fun j hj => same j (by simp [hj])⟩

theorem range' {n : Nat} (i : Nat)
    (links : ∀ j, i ≤ j → j < i + n → next j = if j + 1 < i + n then j + 1 else stop) :
    Threaded next stop (List.range' i n) := by
  induction n generalizing i with
  | zero => trivial
  | succ n ih =>
    refine ⟨?_, ih (i + 1) fun j low high => ?_⟩
    · rw [links i (Nat.le_refl i) (by omega)]
      cases n with
      | zero => simp
      | succ n => simp [List.range'_succ]
    · rw [links j (by omega) (by omega)]
      congr 1
      exact propext (by omega)

theorem range {n : Nat} (links : ∀ j < n, next j = if j + 1 < n then j + 1 else stop) :
    Threaded next stop (List.range n) := by
  rw [List.range_eq_range']
  apply range'
  intro j _ high
  simpa using links j (by omega)

end Threaded

/-! Index lists below a bound: which indices are left out. -/

section
variable {n i : Nat} {is : List Nat}

theorem length_lt_of_missing (nodup : is.Nodup) (bound : ∀ j ∈ is, j < n) (hi : i < n)
    (missing : i ∉ is) : is.length < n := by
  have sub : (i :: is).toFinset ⊆ Finset.range n := by
    intro j hj
    rw [List.mem_toFinset, List.mem_cons] at hj
    rcases hj with rfl | hj
    · exact Finset.mem_range.mpr hi
    · exact Finset.mem_range.mpr (bound j hj)
  have card := Finset.card_le_card sub
  rw [List.toFinset_card_of_nodup (List.nodup_cons.mpr ⟨missing, nodup⟩), Finset.card_range] at card
  exact card

theorem exists_missing (short : is.length < n) : ∃ i < n, i ∉ is := by
  by_contra none
  have sub : Finset.range n ⊆ is.toFinset := by
    intro j hj
    rw [List.mem_toFinset]
    by_contra missing
    exact none ⟨j, Finset.mem_range.mp hj, missing⟩
  have card := Finset.card_le_card sub
  rw [Finset.card_range] at card
  have toFinset := List.toFinset_card_le is
  omega

end
end CrustyOs.Lib
