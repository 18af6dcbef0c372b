import CrustyOs.Abalone.SlabSpec
import CrustyOs.Lib.Runs

/-! The slots of a slab as addresses, for the element types that `new` accepts. -/
namespace CrustyOs.Abalone.Slab
open Lib

/-- `assert_slab_compatible`, which repeats the checks of `new`. -/
def assertSlabCompatible (t : ElementLayout) : Except Panic Unit := do
  require (t.size ≥ 8) "SlabCache<T>: T must be at least as large as usize (free-list link storage requires sizeof(usize) bytes per slot)"
  require (t.align ≤ pageSize) "SlabCache<T>: T alignment exceeds PAGE_SIZE"

variable {t : ElementLayout} {order x : Nat} {inner : SlabCacheInner}

theorem assertSlabCompatible_iff :
    assertSlabCompatible t = .ok () ↔ 8 ≤ t.size ∧ t.align ≤ pageSize := by
  constructor
  · intro checked
    obtain ⟨_, size, checked⟩ := ok_of_bind checked
    exact ⟨of_decide_eq_true (of_require size), of_decide_eq_true (of_require checked)⟩
  · rintro ⟨size, align⟩
    exact (bind_of_ok (require_true _ (decide_eq_true size)) _).trans (require_true _ (decide_eq_true align))

theorem new_compatible (made : SlabCacheInner.new t order = .ok inner) : assertSlabCompatible t = .ok () := by
  obtain ⟨_, size, made⟩ := ok_of_bind made
  obtain ⟨_, align, made⟩ := ok_of_bind made
  exact assertSlabCompatible_iff.mpr ⟨of_decide_eq_true (of_require size), of_decide_eq_true (of_require align)⟩

theorem new_returns (size : 8 ≤ t.size) (align : t.align ≤ pageSize) (low : order < 64) :
    SlabCacheInner.new t order = .ok ⟨order, capacityFor t order, 0, AllocStats.zero⟩ := by
  unfold SlabCacheInner.new
  rw [bind_of_ok (require_true _ (decide_eq_true size)), bind_of_ok (require_true _ (decide_eq_true align)),
    bind_of_ok (require_true _ (decide_eq_true low))]
  rfl

/-! A slot's address and back. -/

theorem Fits.base_room (fits : Fits t order) (base : slabBytes order ∣ x) (small : x < 2 ^ 64) :
    x + slabBytes order ≤ 2 ^ 64 := by
  obtain ⟨value, low⟩ := slabBytes_eq fits.pos
  have space : slabBytes order ∣ 2 ^ 64 := by
    rw [value]
    exact Nat.pow_dvd_pow 2 (by omega)
  obtain ⟨c, rfl⟩ := base
  obtain ⟨d, whole⟩ := space
  rw [whole] at small ⊢
  have before : c < d := Nat.lt_of_mul_lt_mul_left small
  rw [← Nat.mul_succ]
  exact Nat.mul_le_mul_left _ before

theorem dvd_slot_iff {d : Nat} (base : d ∣ x) (stride : d ∣ headerStride t) (i : Nat) :
    d ∣ slot t x i ↔ d ∣ i * t.size := by
  unfold slot
  exact (Nat.dvd_add_iff_right (Nat.dvd_add base stride)).symm

theorem slot_aligned (align : t.align ≤ pageSize) (base : t.align ∣ x) (i : Nat) : t.align ∣ slot t x i := by
  obtain ⟨k, _, larger, stride, _⟩ := headerStride_spec t align
  have first : t.align ∣ headerStride t := Nat.dvd_trans larger stride
  have steps : t.align ∣ i * t.size := Nat.dvd_trans t.align_dvd (Nat.dvd_mul_left _ _)
  exact (dvd_slot_iff base first i).mpr steps

theorem Fits.align_dvd (fits : Fits t order) : t.align ∣ slabBytes order := by
  obtain ⟨value, _⟩ := slabBytes_eq fits.pos
  obtain ⟨j, power⟩ := t.align_pow
  have accepted := fits.align
  rw [power, show pageSize = 2 ^ 12 by decide] at accepted
  have page : j ≤ 12 := (Nat.pow_le_pow_iff_right (by decide)).mp accepted
  rw [value, power]
  exact Nat.pow_dvd_pow 2 (by omega)

/-- A slot lies aligned in its slab, behind the header, and the mask and the division of
`dealloc` find the slab and the index again. -/
theorem slot_round_trip (size : 8 ≤ t.size) (align : t.align ≤ pageSize) (small : x < 2 ^ 64)
    (base : slabBytes order ∣ x) {i : Nat} (hi : i < capacityFor t order) :
    t.align ∣ x + headerStride t + i * t.size ∧
      x + headerSize ≤ x + headerStride t + i * t.size ∧
      x + headerStride t + i * t.size + t.size ≤ x + slabBytes order ∧
      (x + headerStride t + i * t.size) &&& wordNot 64 (slabBytes order - 1) = x ∧
      (x + headerStride t + i * t.size - (x + headerStride t)) / t.size = i := by
  have fits : Fits t order := ⟨size, align, by omega⟩
  obtain ⟨behind, _, within⟩ := fits.slot_within (x := x) hi
  have aligned : t.align ∣ x := Nat.dvd_trans fits.align_dvd base
  exact ⟨slot_aligned align aligned i, behind, within,
    fits.slot_base base (fits.base_room base small) hi, fits.slot_index⟩

def pair : ElementLayout := ⟨16, 16, ⟨4, rfl⟩, Nat.dvd_refl 16⟩

theorem slot_round_trip_pair :
    pair.align ∣ 0x1000 + headerStride pair + 5 * pair.size ∧
      0x1000 + headerSize ≤ 0x1000 + headerStride pair + 5 * pair.size ∧
      0x1000 + headerStride pair + 5 * pair.size + pair.size ≤ 0x1000 + slabBytes 0 ∧
      (0x1000 + headerStride pair + 5 * pair.size) &&& wordNot 64 (slabBytes 0 - 1) = 0x1000 ∧
      (0x1000 + headerStride pair + 5 * pair.size - (0x1000 + headerStride pair)) / pair.size = 5 :=
  slot_round_trip (by decide) (by decide) (by decide) (show slabBytes 0 ∣ 0x1000 by decide)
    (show 5 < capacityFor pair 0 by decide)

/-! Links. -/

theorem eight_dvd_slot_iff (align : t.align ≤ pageSize) (aligned : 8 ∣ x) (i : Nat) :
    8 ∣ slot t x i ↔ 8 ∣ i * t.size := by
  obtain ⟨k, eight, _, stride, _⟩ := headerStride_spec t align
  have first : 8 ∣ headerStride t := Nat.dvd_trans (Nat.pow_dvd_pow 2 eight) stride
  exact dvd_slot_iff aligned first i

theorem Fits.base_aligned (fits : Fits t order) (base : slabBytes order ∣ x) : 8 ∣ x := by
  obtain ⟨value, _⟩ := slabBytes_eq fits.pos
  have eight : 2 ^ 3 ∣ slabBytes order := by
    rw [value]
    exact Nat.pow_dvd_pow 2 (by omega)
  exact Nat.dvd_trans eight base

/-- The links of a slab are read and written at multiples of 8 exactly if its elements have
such a size, or there is no second slot. -/
theorem links_aligned_iff (made : SlabCacheInner.new t order = .ok inner) (base : slabBytes order ∣ x) :
    (∀ i < capacityFor t order, 8 ∣ slot t x i) ↔ 8 ∣ t.size ∨ capacityFor t order ≤ 1 := by
  obtain ⟨size, align⟩ := assertSlabCompatible_iff.mp (new_compatible made)
  constructor
  · intro all
    by_cases second : 1 < capacityFor t order
    · have fits : Fits t order := ⟨size, align, by omega⟩
      have link := (eight_dvd_slot_iff align (fits.base_aligned base) 1).mp (all 1 second)
      rw [Nat.one_mul] at link
      exact Or.inl link
    · exact Or.inr (by omega)
  · intro condition i hi
    have fits : Fits t order := ⟨size, align, by omega⟩
    apply (eight_dvd_slot_iff align (fits.base_aligned base) i).mpr
    cases condition with
    | inl multiple => exact Nat.dvd_trans multiple (Nat.dvd_mul_left _ _)
    | inr single =>
      obtain rfl : i = 0 := by omega
      rw [Nat.zero_mul]
      exact Nat.dvd_zero 8

def triple : ElementLayout := ⟨12, 4, ⟨2, rfl⟩, by decide⟩

theorem new_triple :
    SlabCacheInner.new triple 0 = .ok ⟨0, capacityFor triple 0, 0, AllocStats.zero⟩ :=
  new_returns (by decide) (by decide) (by decide)

theorem links_aligned_iff_triple :
    (∀ i < capacityFor triple 0, 8 ∣ slot triple 0x1000 i) ↔ 8 ∣ triple.size ∨ capacityFor triple 0 ≤ 1 :=
  links_aligned_iff new_triple (by decide)

/-- The second slot of a slab of such triples starts at an odd multiple of 4. -/
theorem second_link_misaligned :
    ¬ ∀ (t : ElementLayout) (order x : Nat) (inner : SlabCacheInner), SlabCacheInner.new t order = .ok inner →
      assertSlabCompatible t = .ok () → slabBytes order ∣ x → ∀ i < capacityFor t order, 8 ∣ slot t x i := by
  intro claim
  have second := claim triple 0 0x1000 _ new_triple (new_compatible new_triple) (by decide) 1 (by decide)
  exact absurd second (by decide)

end CrustyOs.Abalone.Slab
