import CrustyOs.Abalone.Tlsf

/-! Arithmetic of the two-level mapping, and of the header word. -/
namespace CrustyOs.Abalone.Tlsf
open Lib

variable {s size fl sl : Nat}

def classOf (size : Nat) : Nat × Nat := (Nat.log2 size, size / 2 ^ (Nat.log2 size - 5) % 32)

def classFloor (c : Nat × Nat) : Nat := (32 + c.2) * 2 ^ (c.1 - 5)

def ClassLe (c d : Nat × Nat) : Prop := c.1 < d.1 ∨ c.1 = d.1 ∧ c.2 ≤ d.2

theorem log2_bounds (h : 32 ≤ size) :
    5 ≤ Nat.log2 size ∧ 2 ^ Nat.log2 size ≤ size ∧ size < 2 ^ (Nat.log2 size + 1) := by
  have low : 5 ≤ Nat.log2 size := (Nat.le_log2 (by omega)).mpr h
  exact ⟨low, Nat.log2_self_le (by omega), Nat.lt_log2_self⟩

theorem mapping_eq (h : 32 ≤ size) : mapping size = .ok (classOf size) := by
  obtain ⟨low, _, _⟩ := log2_bounds h
  have nonzero : size ≠ 0 := by omega
  have row : ¬ Nat.log2 size < 5 := Nat.not_lt_of_le low
  have mask (x : Nat) : x &&& (slCount - 1) = x % 32 := Nat.and_two_pow_sub_one_eq_mod x 5
  have five : slIndexCount = 5 := rfl
  simp only [mapping, highBit, nonzero, if_false, five, bind, Except.bind, row, mask,
    Nat.shiftRight_eq_div_pow]
  rfl

/-- The size whose class a search starts from. -/
def searchSize (size : Nat) : Nat := size + (2 ^ (Nat.log2 size - 5) - 1)

theorem mappingSearch_eq (h : 32 ≤ size) : mappingSearch size =
    if searchSize size < 2 ^ 64 then mapping (searchSize size) else .error .addOverflow := by
  have guard : size ≥ 1 <<< slIndexCount := h
  have high : highBit size = .ok (Nat.log2 size) := if_neg (by omega)
  have five : slIndexCount = 5 := rfl
  unfold mappingSearch
  rw [if_pos guard, high]
  simp only [bind, Except.bind, pure, Except.pure, Nat.one_shiftLeft, five, checkedAdd, searchSize]
  split
  · rename_i outside
    split at outside <;> simp_all
  · rename_i within
    split at within <;> simp_all

theorem classFloor_eq (h : 32 ≤ size) :
    classFloor (classOf size) = size / 2 ^ (Nat.log2 size - 5) * 2 ^ (Nat.log2 size - 5) := by
  obtain ⟨low, least, most⟩ := log2_bounds h
  set q := 2 ^ (Nat.log2 size - 5) with q_def
  have pos : 0 < q := Nat.two_pow_pos _
  have scale : 2 ^ Nat.log2 size = 32 * q := by
    rw [q_def, ← Nat.pow_add 2 5, Nat.add_sub_cancel' low]
  have range : 32 ≤ size / q ∧ size / q < 64 := by
    rw [Nat.pow_succ] at most
    exact ⟨(Nat.le_div_iff_mul_le pos).mpr (by omega), (Nat.div_lt_iff_lt_mul pos).mpr (by omega)⟩
  have row : 32 + size / q % 32 = size / q := by omega
  rw [classFloor, classOf]
  simp only [← q_def, row]

theorem classFloor_le (h : 32 ≤ size) :
    classFloor (classOf size) ≤ size ∧ size < classFloor (classOf size) + 2 ^ (Nat.log2 size - 5) := by
  have division := Nat.div_add_mod size (2 ^ (Nat.log2 size - 5))
  have rest := Nat.mod_lt size (Nat.two_pow_pos (Nat.log2 size - 5))
  rw [classFloor_eq h, Nat.mul_comm]
  omega

theorem classOf_range (h : 32 ≤ size) (small : size < 2 ^ 30) :
    (classOf size).1 < flIndexCount ∧ (classOf size).2 < slCount := by
  have row : (classOf size).2 < slCount := Nat.mod_lt _ (by decide)
  exact ⟨(Nat.log2_lt (by omega)).mpr small, row⟩

theorem classFloor_mono {c d : Nat × Nat} (le : ClassLe c d) (low : 5 ≤ c.1) (row : c.2 < 32) :
    classFloor c ≤ classFloor d := by
  unfold classFloor
  cases le with
  | inl lt =>
    have grow : 2 * 2 ^ (c.1 - 5) ≤ 2 ^ (d.1 - 5) := by
      rw [← Nat.pow_succ']
      exact Nat.pow_le_pow_right (by omega) (by omega)
    calc (32 + c.2) * 2 ^ (c.1 - 5) ≤ 64 * 2 ^ (c.1 - 5) := Nat.mul_le_mul_right _ (by omega)
      _ = 32 * (2 * 2 ^ (c.1 - 5)) := by omega
      _ ≤ 32 * 2 ^ (d.1 - 5) := Nat.mul_le_mul_left _ grow
      _ ≤ (32 + d.2) * 2 ^ (d.1 - 5) := Nat.mul_le_mul_right _ (by omega)
  | inr both =>
    rw [both.1]
    exact Nat.mul_le_mul_right _ (by omega)

theorem classLe_iff {c : Nat × Nat} (low : 5 ≤ c.1) (row : c.2 < 32) (hs : 32 ≤ size) :
    ClassLe c (classOf size) ↔ classFloor c ≤ size := by
  obtain ⟨floor, width⟩ := classFloor_le hs
  constructor
  · exact fun le => (classFloor_mono le low row).trans floor
  · intro fits
    by_contra below
    have column : (classOf size).2 < 32 := Nat.mod_lt _ (by decide)
    unfold ClassLe at below
    have least : ClassLe (classOf size) c := by
      unfold ClassLe
      omega
    have first : (classOf size).1 = Nat.log2 size := rfl
    rw [first] at below
    obtain ⟨five, _, most⟩ := log2_bounds hs
    cases Nat.lt_or_ge (Nat.log2 size) c.1 with
    | inl lt =>
      have grow : 2 ^ (Nat.log2 size + 1) ≤ 2 ^ c.1 := Nat.pow_le_pow_right (by omega) lt
      have scale : 2 ^ c.1 = 32 * 2 ^ (c.1 - 5) := by
        rw [← Nat.pow_add 2 5, Nat.add_sub_cancel' low]
      have bottom : 32 * 2 ^ (c.1 - 5) ≤ classFloor c := Nat.mul_le_mul_right _ (by omega)
      omega
    | inr ge =>
      have same : c.1 = Nat.log2 size := by omega
      have next : (classOf size).2 + 1 ≤ c.2 := by omega
      have step : classFloor (classOf size) + 2 ^ (Nat.log2 size - 5) ≤ classFloor c := by
        calc classFloor (classOf size) + 2 ^ (Nat.log2 size - 5)
            = (32 + (classOf size).2 + 1) * 2 ^ (Nat.log2 size - 5) := (Nat.succ_mul _ _).symm
          _ ≤ (32 + c.2) * 2 ^ (Nat.log2 size - 5) := Nat.mul_le_mul_right _ (by omega)
          _ = classFloor c := by rw [classFloor, same]
      omega

theorem mappingSearch_start (h : 32 ≤ size) {c : Nat × Nat} (found : mappingSearch size = .ok c) :
    c = classOf (searchSize size) ∧ 32 ≤ searchSize size ∧ searchSize size < 2 ^ 64 := by
  have above : 32 ≤ searchSize size := Nat.le_trans h (Nat.le_add_right _ _)
  rw [mappingSearch_eq h, mapping_eq above] at found
  split at found
  · rename_i small
    exact ⟨(Except.ok.inj found).symm, above, small⟩
  · cases found

def goodSize (size : Nat) : Nat :=
  searchSize size / 2 ^ (Nat.log2 size - 5) * 2 ^ (Nat.log2 size - 5)

theorem classFloor_search (h : 32 ≤ size) : classFloor (classOf (searchSize size)) = goodSize size := by
  obtain ⟨low, least, most⟩ := log2_bounds h
  have above : 32 ≤ searchSize size := Nat.le_trans h (Nat.le_add_right _ _)
  rw [classFloor_eq above, goodSize]
  obtain ⟨q, q_def⟩ : ∃ q, q = 2 ^ (Nat.log2 size - 5) := ⟨_, rfl⟩
  have pos : 0 < q := q_def ▸ Nat.two_pow_pos _
  have scale : 2 ^ Nat.log2 size = 32 * q := by
    rw [q_def, ← Nat.pow_add 2 5, Nat.add_sub_cancel' low]
  have total : searchSize size = size + (q - 1) := by rw [searchSize, q_def]
  rw [Nat.pow_succ] at most
  rcases Nat.lt_or_ge (searchSize size) (64 * q) with lower | upper
  · have same : Nat.log2 (searchSize size) = Nat.log2 size := by
      have ge : Nat.log2 size ≤ Nat.log2 (searchSize size) := (Nat.le_log2 (by omega)).mpr (by omega)
      have lt : Nat.log2 (searchSize size) < Nat.log2 size + 1 :=
        (Nat.log2_lt (by omega)).mpr (by rw [Nat.pow_succ]; omega)
      omega
    rw [same]
  · have next : Nat.log2 (searchSize size) = Nat.log2 size + 1 := by
      have ge : Nat.log2 size + 1 ≤ Nat.log2 (searchSize size) :=
        (Nat.le_log2 (by omega)).mpr (by rw [Nat.pow_succ]; omega)
      have lt : Nat.log2 (searchSize size) < Nat.log2 size + 1 + 1 :=
        (Nat.log2_lt (by omega)).mpr (by rw [Nat.pow_succ, Nat.pow_succ]; omega)
      omega
    have double : 2 ^ (Nat.log2 size + 1 - 5) = 2 * q := by
      rw [q_def, ← Nat.pow_succ']
      congr 1
      omega
    have coarse : searchSize size / (2 * q) = 32 :=
      Nat.div_eq_of_lt_le (by omega) (by omega)
    have fine : searchSize size / q = 64 := Nat.div_eq_of_lt_le (by omega) (by omega)
    rw [next, double, coarse, ← q_def, fine]
    omega

theorem mapping_ok {c : Nat × Nat} (found : mapping size = .ok c) (row : 5 ≤ c.1) :
    32 ≤ size ∧ classOf size = c := by
  have low : 32 ≤ size := by
    by_cases zero : size = 0
    · simp [mapping, highBit, zero, bind, Except.bind] at found
    · have high : highBit size = .ok (Nat.log2 size) := if_neg zero
      simp only [mapping, high, bind, Except.bind] at found
      have first := congrArg Prod.fst (Except.ok.inj found)
      exact (Nat.le_log2 zero).mp (first ▸ row)
  refine ⟨low, ?_⟩
  rw [mapping_eq low] at found
  exact Except.ok.inj found

/-- Every block of the class a search starts from, or of a later one, is large
enough: the search rounds the size up to a class floor. -/
theorem mappingSearch_fits (h : 32 ≤ size) {c : Nat × Nat} (found : mappingSearch size = .ok c)
    (hs : 32 ≤ s) (le : ClassLe c (classOf s)) : size ≤ s := by
  obtain ⟨low, least, most⟩ := log2_bounds h
  have pos := Nat.two_pow_pos (Nat.log2 size - 5)
  have scale : 2 ^ Nat.log2 size = 32 * 2 ^ (Nat.log2 size - 5) := by
    rw [← Nat.pow_add 2 5, Nat.add_sub_cancel' low]
  obtain ⟨rfl, above, _⟩ := mappingSearch_start h found
  obtain ⟨total, total_def⟩ : ∃ total, total = searchSize size := ⟨_, rfl⟩
  rw [← total_def] at above le
  unfold searchSize at total_def
  have row : (classOf total).2 < 32 := Nat.mod_lt _ (by omega)
  have floor := classFloor_mono le (log2_bounds above).1 row
  have fits : size ≤ classFloor (classOf total) := by
    obtain ⟨_, least', most'⟩ := log2_bounds above
    obtain ⟨_, width⟩ := classFloor_le above
    have step : Nat.log2 total = Nat.log2 size ∨ Nat.log2 total = Nat.log2 size + 1 := by
      have ge : Nat.log2 size ≤ Nat.log2 total := (Nat.le_log2 (by omega)).mpr (by omega)
      have lt : Nat.log2 total < Nat.log2 size + 2 := by
        apply (Nat.log2_lt (by omega)).mpr
        rw [Nat.pow_succ, Nat.pow_succ]
        omega
      omega
    cases step with
    | inl same =>
      rw [same] at width
      omega
    | inr next =>
      have bottom : 32 * 2 ^ (Nat.log2 total - 5) ≤ classFloor (classOf total) :=
        Nat.mul_le_mul_right _ (by omega)
      have double : 2 ^ (Nat.log2 total - 5) = 2 * 2 ^ (Nat.log2 size - 5) := by
        rw [next, ← Nat.pow_succ', Nat.succ_eq_add_one]
        congr 1
        omega
      rw [Nat.pow_succ] at most
      omega
  exact fits.trans (floor.trans (classFloor_le hs).1)

theorem search_within_iff (h : 32 ≤ size) (physical : size < 2 ^ 63) :
    (∃ c, mappingSearch size = .ok c ∧ c.1 < flIndexCount) ↔ size ≤ 2 ^ 30 - 2 ^ 24 := by
  obtain ⟨low, least, most⟩ := log2_bounds h
  have rows : flIndexCount = 30 := rfl
  have scale : 2 ^ Nat.log2 size = 32 * 2 ^ (Nat.log2 size - 5) := by
    rw [← Nat.pow_add 2 5, Nat.add_sub_cancel' low]
  have above : 32 ≤ searchSize size := Nat.le_trans h (Nat.le_add_right _ _)
  have small : searchSize size < 2 ^ 64 := by
    unfold searchSize
    omega
  have start : mappingSearch size = .ok (classOf (searchSize size)) := by
    rw [mappingSearch_eq h, if_pos small, mapping_eq above]
  have within : (∃ c, mappingSearch size = .ok c ∧ c.1 < flIndexCount) ↔ searchSize size < 2 ^ 30 := by
    rw [start]
    constructor
    · rintro ⟨c, e, row⟩
      obtain rfl := Except.ok.inj e
      exact (Nat.log2_lt (by omega)).mp row
    · exact fun lt => ⟨_, rfl, (Nat.log2_lt (by omega)).mpr lt⟩
  rw [within]
  unfold searchSize
  constructor
  · intro lt
    by_contra large
    have top : 29 ≤ Nat.log2 size := (Nat.le_log2 (by omega)).mpr (by omega)
    have step : 2 ^ 24 ≤ 2 ^ (Nat.log2 size - 5) := Nat.pow_le_pow_right (by omega) (by omega)
    omega
  · intro le
    rcases Nat.lt_or_ge (Nat.log2 size) 29 with below | ge
    · have step : 2 ^ (Nat.log2 size - 5) ≤ 2 ^ 23 := Nat.pow_le_pow_right (by omega) (by omega)
      have half : size < 2 ^ 29 := (Nat.log2_lt (by omega)).mp below
      omega
    · have top : Nat.log2 size < 30 := (Nat.log2_lt (by omega)).mpr (by omega)
      have same : Nat.log2 size = 29 := by omega
      rw [same]
      omega

end CrustyOs.Abalone.Tlsf
