import CrustyOs.Abalone.Tlsf

/-! Header words: the flag bits beside the size, and which word of which header a
store changes. -/
namespace CrustyOs.Abalone.Tlsf
open Lib

variable {S : Nat → Prop} {m m' : Memory} {a b q s v : Nat} {f : Bool}

/-! One word. -/

theorem blockSize_testBit (m : Memory) (b i : Nat) :
    (blockSize m b).testBit i = ((sizeWord m b).testBit i && decide (2 ≤ i ∧ i < 64)) := by
  have flags : freeBit ||| prevPhysBit = 2 ^ 2 - 1 := rfl
  rw [blockSize, flags, Nat.testBit_and, testBit_wordNot, Nat.testBit_two_pow_sub_one]
  by_cases low : i < 2 <;> by_cases high : i < 64 <;> simp [low, high] <;> omega

theorem isFree_eq (m : Memory) (b : Nat) : isFree m b = (sizeWord m b).testBit 0 :=
  and_two_pow_ne_zero _ 0

theorem isPrevFree_eq (m : Memory) (b : Nat) : isPrevFree m b = (sizeWord m b).testBit 1 :=
  and_two_pow_ne_zero _ 1

theorem readings (same : sizeWord m' q = sizeWord m b) :
    blockSize m' q = blockSize m b ∧ isFree m' q = isFree m b ∧ isPrevFree m' q = isPrevFree m b := by
  simp only [blockSize, isFree, isPrevFree, same, and_self]

theorem setSize_readings (m : Memory) (b : Nat) (words : 8 ∣ s) (small : s < 2 ^ 64) :
    blockSize (setSize m b s) b = s ∧ isFree (setSize m b s) b = isFree m b ∧
      isPrevFree (setSize m b s) b = isPrevFree m b := by
  have flags : freeBit ||| prevPhysBit = 2 ^ 2 - 1 := rfl
  have word : sizeWord (setSize m b s) b = (sizeWord m b &&& (2 ^ 2 - 1)) ||| s := by
    simp [sizeWord, setSize, flags]
  have low : ∀ i, i < 3 → s.testBit i = false := fun i hi => testBit_of_dvd (k := 3) words hi
  refine ⟨?_, ?_, ?_⟩
  · apply Nat.eq_of_testBit_eq
    intro i
    rw [blockSize_testBit, word, Nat.testBit_or, Nat.testBit_and, Nat.testBit_two_pow_sub_one]
    rcases Nat.lt_or_ge i 2 with lt | ge
    · simp [low i (by omega), Nat.not_le_of_lt lt]
    · rcases Nat.lt_or_ge i 64 with lt' | ge'
      · simp [ge, lt', Nat.not_lt_of_le ge]
      · have top : s.testBit i = false :=
          Nat.testBit_lt_two_pow (Nat.lt_of_lt_of_le small (Nat.pow_le_pow_right (by omega) ge'))
        simp [top, Nat.not_lt_of_le ge']
  · rw [isFree_eq, isFree_eq, word, Nat.testBit_or, Nat.testBit_and, Nat.testBit_two_pow_sub_one,
      low 0 (by omega)]
    simp
  · rw [isPrevFree_eq, isPrevFree_eq, word, Nat.testBit_or, Nat.testBit_and,
      Nat.testBit_two_pow_sub_one, low 1 (by omega)]
    simp

theorem setFree_readings (m : Memory) (b : Nat) (f : Bool) :
    blockSize (setFree m b f) b = blockSize m b ∧ isFree (setFree m b f) b = f ∧
      isPrevFree (setFree m b f) b = isPrevFree m b := by
  have word : ∀ i < 64, (sizeWord (setFree m b f) b).testBit i =
      if i = 0 then f else (sizeWord m b).testBit i := by
    intro i hi
    have bit := testBit_flag (k := 0) (sizeWord m b) f hi
    rwa [sizeWord, setFree, Memory.read_write_same]
  refine ⟨?_, by rw [isFree_eq, word 0 (by omega)]; rfl, ?_⟩
  · apply Nat.eq_of_testBit_eq
    intro i
    rw [blockSize_testBit, blockSize_testBit]
    by_cases range : 2 ≤ i ∧ i < 64
    · rw [word i range.2, if_neg (by omega)]
    · simp [range]
  · rw [isPrevFree_eq, isPrevFree_eq, word 1 (by omega)]
    rfl

theorem setPrevFree_readings (m : Memory) (b : Nat) (f : Bool) :
    blockSize (setPrevFree m b f) b = blockSize m b ∧ isFree (setPrevFree m b f) b = isFree m b ∧
      isPrevFree (setPrevFree m b f) b = f := by
  have word : ∀ i < 64, (sizeWord (setPrevFree m b f) b).testBit i =
      if i = 1 then f else (sizeWord m b).testBit i := by
    intro i hi
    have bit := testBit_flag (k := 1) (sizeWord m b) f hi
    rwa [sizeWord, setPrevFree, Memory.read_write_same]
  refine ⟨?_, by rw [isFree_eq, isFree_eq, word 0 (by omega)]; rfl, ?_⟩
  · apply Nat.eq_of_testBit_eq
    intro i
    rw [blockSize_testBit, blockSize_testBit]
    by_cases range : 2 ≤ i ∧ i < 64
    · rw [word i range.2, if_neg (by omega)]
    · simp [range]
  · rw [isPrevFree_eq, word 1 (by omega)]
    rfl

/-! Many headers. -/

def Spaced (S : Nat → Prop) : Prop := ∀ a b, S a → S b → a ≠ b → a + 32 ≤ b ∨ b + 32 ≤ a

namespace Spaced

theorem read_field (sp : Spaced S) {i j : Nat} (ha : S a) (hb : S b) (hi : i < 32) (hj : j < 32) :
    (m.write (a + i) v).read (b + j) = if b = a ∧ j = i then v else m.read (b + j) := by
  rw [Memory.read_write]
  have same : b + j = a + i ↔ b = a ∧ j = i := by
    by_cases e : b = a
    · subst e; omega
    · have apart := sp a b ha hb (Ne.symm e)
      omega
  simp only [same]

theorem size_store (sp : Spaced S) (ha : S a) (hb : S b) :
    sizeWord (m.write a v) b = (if b = a then v else sizeWord m b) ∧
      prevPhys (m.write a v) b = prevPhys m b ∧ nextFree (m.write a v) b = nextFree m b ∧
      prevFree (m.write a v) b = prevFree m b := by
  have read : ∀ j < 32, (m.write a v).read (b + j) = if b = a ∧ j = 0 then v else m.read (b + j) :=
    fun j hj => sp.read_field ha hb (by decide : 0 < 32) hj
  refine ⟨?_, ?_, ?_, ?_⟩
  · simpa [sizeWord] using read 0 (by decide)
  · simpa [prevPhys] using read 8 (by decide)
  · simpa [nextFree] using read 16 (by decide)
  · simpa [prevFree] using read 24 (by decide)

theorem field_store (sp : Spaced S) {i : Nat} (pos : 0 < i) (hi : i < 32) (ha : S a) (hb : S b) :
    sizeWord (m.write (a + i) v) b = sizeWord m b ∧
      prevPhys (m.write (a + i) v) b = (if b = a ∧ 8 = i then v else prevPhys m b) ∧
      nextFree (m.write (a + i) v) b = (if b = a ∧ 16 = i then v else nextFree m b) ∧
      prevFree (m.write (a + i) v) b = (if b = a ∧ 24 = i then v else prevFree m b) := by
  have read : ∀ j < 32, (m.write (a + i) v).read (b + j) =
      if b = a ∧ j = i then v else m.read (b + j) := fun j hj => sp.read_field ha hb hi hj
  have zero : 0 ≠ i := by omega
  refine ⟨?_, read 8 (by decide), read 16 (by decide), read 24 (by decide)⟩
  simpa [sizeWord, zero] using read 0 (by decide)

end Spaced

def HeaderOf (S : Nat → Prop) (x : Nat) : Prop := ∃ q, S q ∧ q ≤ x ∧ x + 8 ≤ q + 32

theorem headerOf_field {i : Nat} (hq : S q) (hi : i ≤ 24) : HeaderOf S (q + i) :=
  ⟨q, hq, Nat.le_add_right q i, by omega⟩

end CrustyOs.Abalone.Tlsf
