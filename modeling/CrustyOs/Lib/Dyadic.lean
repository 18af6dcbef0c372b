import Mathlib.Algebra.Group.Nat.Even
import Mathlib.Algebra.Ring.Parity
import Mathlib.Data.Nat.Bitwise
import Mathlib.Tactic.Common
import Mathlib.Tactic.Ring

/-! Dyadic blocks of natural numbers. The block of order `k` at `p` is the run
`p, p + 1, ..., p + 2 ^ k - 1`; it is aligned when `2 ^ k` divides `p`. Aligned
blocks are nested or disjoint, and a partition of a set into aligned blocks
without a mergeable pair is the set of its maximal aligned blocks. -/
namespace CrustyOs.Lib

def InBlock (k p x : Nat) : Prop := p ≤ x ∧ x < p + 2 ^ k

instance (k p x : Nat) : Decidable (InBlock k p x) := inferInstanceAs (Decidable (_ ∧ _))

/-- How often the block covers `x`: the indicator that partitions are counted with. -/
def cover (k p x : Nat) : Nat := if InBlock k p x then 1 else 0

theorem inBlock_self (k p : Nat) : InBlock k p p :=
  ⟨Nat.le_refl p, Nat.lt_add_of_pos_right (Nat.two_pow_pos k)⟩

theorem cover_split (k p x : Nat) :
    cover (k + 1) p x = cover k p x + cover k (p + 2 ^ k) x := by
  have hp := Nat.two_pow_pos k
  have h2 : 2 ^ (k + 1) = 2 ^ k + 2 ^ k := by rw [Nat.pow_succ]; omega
  have whole : InBlock (k + 1) p x ↔ InBlock k p x ∨ InBlock k (p + 2 ^ k) x := by
    simp only [InBlock, h2]; omega
  by_cases low : InBlock k p x
  · have high : ¬ InBlock k (p + 2 ^ k) x := fun h => Nat.not_le_of_lt low.2 h.1
    rw [cover, cover, cover, if_pos low, if_neg high, if_pos (whole.mpr (Or.inl low))]
  · by_cases high : InBlock k (p + 2 ^ k) x
    · rw [cover, cover, cover, if_neg low, if_pos high, if_pos (whole.mpr (Or.inr high))]
    · have out : ¬ InBlock (k + 1) p x := fun h => (whole.mp h).elim low high
      rw [cover, cover, cover, if_neg low, if_neg high, if_neg out]

theorem aligned_of_le {j k p : Nat} (hjk : j ≤ k) (h : 2 ^ k ∣ p) : 2 ^ j ∣ p :=
  Nat.dvd_trans (Nat.pow_dvd_pow 2 hjk) h

theorem inBlock_iff_div {k p x : Nat} (h : 2 ^ k ∣ p) : InBlock k p x ↔ x / 2 ^ k = p / 2 ^ k := by
  obtain ⟨c, rfl⟩ := h
  have hpos := Nat.two_pow_pos k
  rw [Nat.mul_div_cancel_left c hpos, Nat.div_eq_iff hpos, InBlock]
  rw [Nat.mul_comm c]
  omega

theorem inBlock_nested {j k p q x y : Nat} (hjk : j ≤ k) (hq : 2 ^ j ∣ q) (hp : 2 ^ k ∣ p)
    (xq : InBlock j q x) (xp : InBlock k p x) (yq : InBlock j q y) : InBlock k p y := by
  rw [inBlock_iff_div hq] at xq yq
  rw [inBlock_iff_div hp] at xp ⊢
  obtain ⟨d, rfl⟩ := Nat.exists_eq_add_of_le hjk
  rw [Nat.pow_add, ← Nat.div_div_eq_div_mul] at xp ⊢
  rw [yq, ← xq, xp]

theorem aligned_eq_of_meet {k p q x : Nat} (hp : 2 ^ k ∣ p) (hq : 2 ^ k ∣ q)
    (xp : InBlock k p x) (xq : InBlock k q x) : p = q := by
  rw [inBlock_iff_div hp] at xp
  rw [inBlock_iff_div hq] at xq
  have same : p / 2 ^ k = q / 2 ^ k := xp.symm.trans xq
  rw [← Nat.div_mul_cancel hp, ← Nat.div_mul_cancel hq, same]

/-! The buddy of an aligned block flips bit `k` of its start. -/

theorem xor_two_pow_mul (k c : Nat) : 2 ^ k * c ^^^ 2 ^ k = 2 ^ k * (c ^^^ 1) := by
  apply Nat.eq_of_testBit_eq
  intro i
  simp only [Nat.testBit_xor, Nat.testBit_two_pow_mul, Nat.testBit_two_pow]
  by_cases hik : k ≤ i
  · have same : decide (k = i) = Nat.testBit 1 (i - k) := by
      rw [← Nat.pow_zero 2, Nat.testBit_two_pow]
      apply decide_eq_decide.mpr; omega
    simp [hik, same]
  · have hne : k ≠ i := by omega
    simp [hik, hne]

theorem buddy_lower {k p : Nat} (h : 2 ^ (k + 1) ∣ p) : p ^^^ 2 ^ k = p + 2 ^ k := by
  obtain ⟨c, rfl⟩ := h
  have e : 2 ^ (k + 1) * c = 2 ^ k * (2 * c) := by rw [Nat.pow_succ]; ring
  rw [e, xor_two_pow_mul, Nat.xor_one_of_even (even_two_mul c)]
  ring

theorem buddy_upper {k p : Nat} (h : 2 ^ (k + 1) ∣ p) : (p + 2 ^ k) ^^^ 2 ^ k = p := by
  rw [← buddy_lower h, Nat.xor_assoc, Nat.xor_self, Nat.xor_zero]

theorem half_of_aligned {k p : Nat} (h : 2 ^ k ∣ p) :
    2 ^ (k + 1) ∣ p ∨ ∃ q, 2 ^ (k + 1) ∣ q ∧ p = q + 2 ^ k := by
  obtain ⟨c, rfl⟩ := h
  rcases Nat.even_or_odd' c with ⟨d, rfl | rfl⟩
  · left; exact ⟨d, by rw [Nat.pow_succ]; ring⟩
  · right; exact ⟨2 ^ (k + 1) * d, ⟨d, rfl⟩, by rw [Nat.pow_succ]; ring⟩

theorem buddy_ne (k p : Nat) : p ^^^ 2 ^ k ≠ p := by
  intro h
  have flip : (p ^^^ (p ^^^ 2 ^ k)) = 0 := by rw [h, Nat.xor_self]
  rw [← Nat.xor_assoc, Nat.xor_self, Nat.zero_xor] at flip
  exact absurd flip (Nat.two_pow_pos k).ne'

theorem buddy_buddy (k p : Nat) : (p ^^^ 2 ^ k) ^^^ 2 ^ k = p := by
  rw [Nat.xor_assoc, Nat.xor_self, Nat.xor_zero]

theorem min_buddy {k p : Nat} (h : 2 ^ k ∣ p) :
    2 ^ (k + 1) ∣ min p (p ^^^ 2 ^ k) ∧
      ∀ x, cover (k + 1) (min p (p ^^^ 2 ^ k)) x = cover k p x + cover k (p ^^^ 2 ^ k) x := by
  rcases half_of_aligned h with low | ⟨q, hq, rfl⟩
  · rw [buddy_lower low, Nat.min_eq_left (Nat.le_add_right _ _)]
    exact ⟨low, cover_split k p⟩
  · rw [buddy_upper hq, Nat.min_eq_right (Nat.le_add_right _ _)]
    exact ⟨hq, fun x => by rw [cover_split, Nat.add_comm]⟩

theorem pair_index_lower {k p : Nat} (h : 2 ^ (k + 1) ∣ p) :
    (p + 2 ^ k) / 2 ^ (k + 1) = p / 2 ^ (k + 1) := by
  have hpos := Nat.two_pow_pos k
  obtain ⟨c, rfl⟩ := h
  rw [Nat.mul_add_div (Nat.two_pow_pos _), Nat.mul_div_cancel_left c (Nat.two_pow_pos _)]
  have small : 2 ^ k / 2 ^ (k + 1) = 0 := by
    rw [Nat.div_eq_zero_iff, Nat.pow_succ]; omega
  rw [small, Nat.add_zero]

theorem pair_index_eq {k p q : Nat} (hp : 2 ^ k ∣ p) (hq : 2 ^ k ∣ q)
    (h : p / 2 ^ (k + 1) = q / 2 ^ (k + 1)) : q = p ∨ q = p ^^^ 2 ^ k := by
  have lower : ∀ {a b : Nat}, 2 ^ (k + 1) ∣ a → 2 ^ (k + 1) ∣ b →
      a / 2 ^ (k + 1) = b / 2 ^ (k + 1) → b = a := by
    intro a b ha hb e
    rw [← Nat.div_mul_cancel ha, ← Nat.div_mul_cancel hb, e]
  rcases half_of_aligned hp with low | ⟨a, ha, rfl⟩ <;>
    rcases half_of_aligned hq with low' | ⟨b, hb, rfl⟩
  · exact Or.inl (lower low low' h)
  · rw [pair_index_lower hb] at h
    rw [buddy_lower low, lower low hb h]
    exact Or.inr rfl
  · rw [pair_index_lower ha] at h
    rw [buddy_upper ha, lower ha low' h]
    exact Or.inr rfl
  · rw [pair_index_lower ha, pair_index_lower hb] at h
    rw [lower ha hb h]
    exact Or.inl rfl

theorem pair_index_buddy {k p : Nat} (h : 2 ^ k ∣ p) :
    (p ^^^ 2 ^ k) / 2 ^ (k + 1) = p / 2 ^ (k + 1) := by
  rcases half_of_aligned h with low | ⟨q, hq, rfl⟩
  · rw [buddy_lower low, pair_index_lower low]
  · rw [buddy_upper hq, pair_index_lower hq]

/-! Partitions into aligned blocks. -/

structure Fits (top : Nat) (F : Nat → Prop) (k p : Nat) : Prop where
  order : k ≤ top
  aligned : 2 ^ k ∣ p
  inside : ∀ x, InBlock k p x → F x

def MaximalFit (top : Nat) (F : Nat → Prop) (k p : Nat) : Prop :=
  Fits top F k p ∧ ∀ j q, Fits top F j q → (∀ x, InBlock k p x → InBlock j q x) → j = k ∧ q = p

/-- A partition of `F` into aligned blocks of order at most `top`. -/
structure Partition (top : Nat) (F : Nat → Prop) (B : Nat → Nat → Prop) : Prop where
  fits : ∀ k p, B k p → Fits top F k p
  covers : ∀ x, F x → ∃ k p, B k p ∧ InBlock k p x
  single : ∀ k p j q x, B k p → B j q → InBlock k p x → InBlock j q x → j = k ∧ q = p

/-- No two blocks below the top order could be merged. -/
def Coalesced (top : Nat) (B : Nat → Nat → Prop) : Prop :=
  ∀ k p, k < top → B k p → ¬ B k (p ^^^ 2 ^ k)

namespace Partition

variable {top : Nat} {F : Nat → Prop} {B : Nat → Nat → Prop}

/-- In a coalesced partition every fitting block lies in one block: either its
halves already do, or they would be a mergeable pair. -/
theorem fit_in_block (h : Partition top F B) (c : Coalesced top B) {j q : Nat}
    (fit : Fits top F j q) :
    ∃ k p, B k p ∧ j ≤ k ∧ ∀ x, InBlock j q x → InBlock k p x := by
  induction j generalizing q with
  | zero =>
    obtain ⟨k, p, hB, hx⟩ := h.covers q (fit.inside q (inBlock_self 0 q))
    exact ⟨k, p, hB, Nat.zero_le k, fun x hx' =>
      inBlock_nested (Nat.zero_le k) fit.aligned (h.fits k p hB).aligned (inBlock_self 0 q) hx hx'⟩
  | succ j ih =>
    have h2 : 2 ^ (j + 1) = 2 ^ j + 2 ^ j := by rw [Nat.pow_succ]; omega
    have hpos := Nat.two_pow_pos j
    have low_aligned := aligned_of_le (Nat.le_succ j) fit.aligned
    have low : Fits top F j q := by
      refine ⟨Nat.le_of_succ_le fit.order, low_aligned, fun x hx => fit.inside x ?_⟩
      exact ⟨hx.1, by have := hx.2; omega⟩
    have high : Fits top F j (q + 2 ^ j) := by
      refine ⟨Nat.le_of_succ_le fit.order, Nat.dvd_add low_aligned (Nat.dvd_refl _), ?_⟩
      intro x hx
      exact fit.inside x ⟨by have := hx.1; omega, by have := hx.2; omega⟩
    -- a strictly larger block over either half contains the whole block
    have grow : ∀ r k p, Fits top F j r → InBlock (j + 1) q r → B k p → j < k →
        (∀ x, InBlock j r x → InBlock k p x) →
        ∃ k p, B k p ∧ j + 1 ≤ k ∧ ∀ x, InBlock (j + 1) q x → InBlock k p x := by
      intro r k p _ hr hB hk sub
      refine ⟨k, p, hB, hk, fun x hx => ?_⟩
      exact inBlock_nested hk fit.aligned (h.fits k p hB).aligned hr (sub r (inBlock_self j r)) hx
    obtain ⟨k₁, p₁, hB₁, hk₁, sub₁⟩ := ih low
    obtain ⟨k₂, p₂, hB₂, hk₂, sub₂⟩ := ih high
    rcases Nat.lt_or_eq_of_le hk₁ with lt₁ | rfl
    · exact grow q k₁ p₁ low (inBlock_self _ q) hB₁ lt₁ sub₁
    · rcases Nat.lt_or_eq_of_le hk₂ with lt₂ | rfl
      · refine grow (q + 2 ^ j) k₂ p₂ high ?_ hB₂ lt₂ sub₂
        exact ⟨by omega, by omega⟩
      · have e₁ : p₁ = q := aligned_eq_of_meet (h.fits _ _ hB₁).aligned low_aligned
          (sub₁ q (inBlock_self j q)) (inBlock_self j q)
        have e₂ : p₂ = q + 2 ^ j := aligned_eq_of_meet (h.fits _ _ hB₂).aligned high.aligned
          (sub₂ _ (inBlock_self j _)) (inBlock_self j _)
        subst e₁ e₂
        exact absurd hB₂ (by rw [← buddy_lower fit.aligned]; exact c j p₁ fit.order hB₁)

/-- A coalesced partition is the set of maximal fitting blocks. -/
theorem block_iff_maximal (h : Partition top F B) (c : Coalesced top B) (k p : Nat) :
    B k p ↔ MaximalFit top F k p := by
  constructor
  · intro hB
    refine ⟨h.fits k p hB, fun j q fit sub => ?_⟩
    obtain ⟨k', p', hB', hj, sub'⟩ := h.fit_in_block c fit
    have here := sub p (inBlock_self k p)
    obtain ⟨rfl, rfl⟩ := h.single k p k' p' p hB hB' (inBlock_self k p) (sub' p here)
    have order : j = k' := by
      have hlen : 2 ^ k' ≤ 2 ^ j := by
        have last := sub (p' + (2 ^ k' - 1)) ⟨by omega, by have := Nat.two_pow_pos k'; omega⟩
        have := last.2
        have := here.1
        omega
      exact Nat.le_antisymm hj ((Nat.pow_le_pow_iff_right (by omega)).mp hlen)
    subst order
    exact ⟨rfl, aligned_eq_of_meet fit.aligned (h.fits _ _ hB).aligned here (inBlock_self _ _)⟩
  · rintro ⟨fit, largest⟩
    obtain ⟨k', p', hB, _, sub⟩ := h.fit_in_block c fit
    obtain ⟨rfl, rfl⟩ := largest k' p' (h.fits k' p' hB) sub
    exact hB

end Partition
end CrustyOs.Lib
