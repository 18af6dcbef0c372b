import Mathlib.Data.Nat.Bitwise
import Mathlib.Tactic.Common

/-! Bit counts on words of a fixed width, and bit fields as arithmetic. -/
namespace CrustyOs.Lib

/-- Trailing zero bits of a `w`-bit word; the zero word has `w` of them. -/
def trailingZeros : Nat → Nat → Nat
  | 0, _ => 0
  | w + 1, x => if x % 2 = 1 then 0 else trailingZeros w (x / 2) + 1

theorem trailingZeros_dvd (w x : Nat) : 2 ^ trailingZeros w x ∣ x := by
  induction w generalizing x with
  | zero => exact Nat.one_dvd x
  | succ w ih =>
    unfold trailingZeros
    split
    · exact Nat.one_dvd x
    · rename_i even
      have half : x = x / 2 * 2 := by omega
      rw [half, Nat.mul_div_cancel _ (by omega), Nat.pow_succ]
      exact Nat.mul_dvd_mul_right (ih (x / 2)) 2

theorem le_trailingZeros {w x k : Nat} (hk : k ≤ w) (h : 2 ^ k ∣ x) : k ≤ trailingZeros w x := by
  induction w generalizing x k with
  | zero => omega
  | succ w ih =>
    cases k with
    | zero => omega
    | succ k =>
      obtain ⟨c, rfl⟩ := h
      have even : 2 ^ (k + 1) * c = 2 * (2 ^ k * c) := by rw [Nat.pow_succ]; ac_rfl
      unfold trailingZeros
      rw [even, if_neg (by omega), Nat.mul_div_cancel_left _ (by omega)]
      exact Nat.succ_le_succ (ih (by omega) (Nat.dvd_mul_right _ _))

theorem testBit_trailingZeros {w x : Nat} (nonzero : x ≠ 0) (small : x < 2 ^ w) :
    x.testBit (trailingZeros w x) = true ∧ ∀ i < trailingZeros w x, x.testBit i = false := by
  refine ⟨?_, fun i low => ?_⟩
  · induction w generalizing x with
    | zero => omega
    | succ w ih =>
      unfold trailingZeros
      split
      · rename_i odd
        simpa [Nat.testBit_zero] using odd
      · rw [Nat.testBit_succ]
        exact ih (by omega) (by omega)
  · have divides := trailingZeros_dvd w x
    obtain ⟨c, hc⟩ := (Nat.pow_dvd_pow 2 (Nat.succ_le_of_lt low)).trans divides
    rw [hc, Nat.testBit_two_pow_mul]
    simp

/-! Masks. -/

def wordNot (w x : Nat) : Nat := x ^^^ (2 ^ w - 1)

theorem testBit_wordNot (w x i : Nat) :
    (wordNot w x).testBit i = (x.testBit i ^^ decide (i < w)) := by
  rw [wordNot, Nat.testBit_xor, Nat.testBit_two_pow_sub_one]

theorem and_two_pow_ne_zero (x i : Nat) : (x &&& 2 ^ i != 0) = x.testBit i := by
  rw [Nat.and_two_pow]
  cases x.testBit i <;> simp

theorem testBit_of_dvd {k x i : Nat} (h : 2 ^ k ∣ x) (low : i < k) : x.testBit i = false := by
  obtain ⟨c, rfl⟩ := h
  rw [Nat.testBit_two_pow_mul]
  simp [Nat.not_le_of_lt low]

theorem and_wordNot_low {w k x : Nat} (small : x < 2 ^ w) (hk : k ≤ w) :
    x &&& wordNot w (2 ^ k - 1) = x / 2 ^ k * 2 ^ k := by
  apply Nat.eq_of_testBit_eq
  intro i
  rw [Nat.testBit_and, testBit_wordNot, Nat.testBit_two_pow_sub_one, Nat.testBit_mul_two_pow]
  by_cases low : i < k
  · have narrow : i < w := by omega
    simp [low, narrow, Nat.not_le_of_lt low]
  · have back : (x / 2 ^ k).testBit (i - k) = x.testBit i := by
      rw [Nat.testBit_div_two_pow, Nat.sub_add_cancel (by omega)]
    by_cases narrow : i < w
    · simp [low, narrow, back, Nat.le_of_not_lt low]
    · have zero : x.testBit i = false :=
        Nat.testBit_lt_two_pow (Nat.lt_of_lt_of_le small (Nat.pow_le_pow_right (by omega) (by omega)))
      simp [back, zero]

theorem testBit_flag {w i k : Nat} (x : Nat) (f : Bool) (hi : i < w) :
    (if f then x ||| 2 ^ k else x &&& wordNot w (2 ^ k)).testBit i =
      if i = k then f else x.testBit i := by
  cases f with
  | false =>
    rw [if_neg Bool.false_ne_true, Nat.testBit_and, testBit_wordNot, Nat.testBit_two_pow]
    by_cases e : k = i
    · subst e
      simp [hi]
    · simp [hi, e, Ne.symm e]
  | true =>
    rw [if_pos rfl, Nat.testBit_or, Nat.testBit_two_pow]
    by_cases e : k = i
    · subst e
      simp
    · simp [e, Ne.symm e]

end CrustyOs.Lib
