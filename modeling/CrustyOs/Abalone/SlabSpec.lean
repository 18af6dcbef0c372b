import CrustyOs.Abalone.Slab
import CrustyOs.Lib.IndexChain
import CrustyOs.Lib.LinkWords

/-! One slab and the list of partial slabs: what the memory says about each, and
what linking and unlinking a header does to the list. -/
namespace CrustyOs.Abalone.Slab
open Lib

/-! Layout arithmetic. -/

theorem slabBytes_eq {order : Nat} (pos : 0 < slabBytes order) :
    slabBytes order = 2 ^ (order + 12) ∧ order + 12 < 64 := by
  have value : slabBytes order = 2 ^ (order + 12) % 2 ^ 64 := by
    rw [slabBytes, Nat.shiftLeft_eq, Nat.pow_add, Nat.mul_comm]; rfl
  have low : order + 12 < 64 := by
    by_contra high
    have zero : 2 ^ (order + 12) % 2 ^ 64 = 0 :=
      Nat.mod_eq_zero_of_dvd (Nat.pow_dvd_pow 2 (by omega))
    omega
  exact ⟨by rw [value, Nat.mod_eq_of_lt (Nat.pow_lt_pow_right (by omega) low)], low⟩

theorem mask_slabBytes {order x : Nat} (pos : 0 < slabBytes order) (small : x < 2 ^ 64) :
    x &&& wordNot 64 (slabBytes order - 1) = x / slabBytes order * slabBytes order := by
  obtain ⟨value, low⟩ := slabBytes_eq pos
  rw [value]
  exact and_wordNot_low small (by omega)

theorem headerStride_spec (t : ElementLayout) (accepted : t.align ≤ pageSize) :
    ∃ k, 3 ≤ k ∧ t.align ∣ 2 ^ k ∧ 2 ^ k ∣ headerStride t ∧ headerSize ≤ headerStride t := by
  obtain ⟨j, hj⟩ := t.align_pow
  obtain ⟨k, hk, eight, small⟩ : ∃ k, (if t.align > headerAlign then t.align else headerAlign) = 2 ^ k ∧
      3 ≤ k ∧ j ≤ k := by
    unfold headerAlign
    split
    · rename_i larger
      refine ⟨j, hj, ?_, Nat.le_refl j⟩
      by_contra low
      have le : 2 ^ j ≤ 2 ^ 2 := Nat.pow_le_pow_right (by omega) (by omega)
      omega
    · rename_i smaller
      refine ⟨3, rfl, Nat.le_refl 3, ?_⟩
      by_contra high
      have le : 2 ^ 4 ≤ 2 ^ j := Nat.pow_le_pow_right (by omega) (by omega)
      omega
  have cap : 2 ^ k ≤ 4096 := by
    rw [← hk]
    unfold pageSize at accepted
    unfold headerAlign
    split <;> omega
  have width : k ≤ 64 := by
    by_contra wide
    have big : 2 ^ 13 ≤ 2 ^ k := Nat.pow_le_pow_right (by omega) (by omega)
    omega
  have value : headerStride t = (headerSize + 2 ^ k - 1) / 2 ^ k * 2 ^ k := by
    rw [headerStride, hk, and_wordNot_low (by unfold headerSize; omega) width]
  refine ⟨k, eight, hj ▸ Nat.pow_dvd_pow 2 small, ⟨_, value.trans (Nat.mul_comm _ _)⟩, ?_⟩
  have pos := Nat.two_pow_pos k
  have split := Nat.div_add_mod (headerSize + 2 ^ k - 1) (2 ^ k)
  have rest := Nat.mod_lt (headerSize + 2 ^ k - 1) pos
  rw [Nat.mul_comm] at split
  omega

theorem headerStride_ge (t : ElementLayout) (accepted : t.align ≤ pageSize) :
    headerSize ≤ headerStride t := by
  obtain ⟨_, _, _, _, behind⟩ := headerStride_spec t accepted
  exact behind

/-- The layout facts shared by everything below: an accepted element type, and an
order whose slabs have room for one. -/
structure Fits (t : ElementLayout) (order : Nat) : Prop where
  size : 8 ≤ t.size
  align : t.align ≤ pageSize
  capacity : 0 < capacityFor t order

def Inside (order x a : Nat) : Prop := x ≤ a ∧ a + 8 ≤ x + slabBytes order

def slot (t : ElementLayout) (x i : Nat) : Nat := x + headerStride t + i * t.size

section
variable {t : ElementLayout} {order x i j : Nat}

theorem Fits.room (h : Fits t order) :
    headerStride t + capacityFor t order * t.size ≤ slabBytes order := by
  have pos := h.capacity
  unfold capacityFor at pos ⊢
  split at pos
  · omega
  · rename_i open_
    rw [if_neg open_]
    have whole := Nat.div_mul_le_self (slabBytes order - headerStride t) t.size
    omega

theorem Fits.pos (h : Fits t order) : 0 < slabBytes order := by
  have room := h.room
  have stride := headerStride_ge t h.align
  unfold headerSize at stride
  omega

theorem Fits.slot_within (h : Fits t order) (hi : i < capacityFor t order) :
    x + 32 ≤ slot t x i ∧ x + headerStride t ≤ slot t x i ∧
      slot t x i + t.size ≤ x + slabBytes order := by
  have room := h.room
  have stride := headerStride_ge t h.align
  have upper : (i + 1) * t.size ≤ capacityFor t order * t.size := Nat.mul_le_mul_right _ hi
  rw [Nat.succ_mul] at upper
  unfold slot
  unfold headerSize at stride
  omega

theorem slot_apart (t : ElementLayout) (x : Nat) (ne : i ≠ j) :
    slot t x i + t.size ≤ slot t x j ∨ slot t x j + t.size ≤ slot t x i := by
  unfold slot
  rcases Nat.lt_or_gt_of_ne ne with lt | lt
  · have step := Nat.mul_le_mul_right t.size lt
    rw [Nat.succ_mul] at step
    omega
  · have step := Nat.mul_le_mul_right t.size lt
    rw [Nat.succ_mul] at step
    omega

theorem Fits.slot_inj (h : Fits t order) (e : slot t x i = slot t x j) : i = j := by
  by_contra ne
  have size := h.size
  rcases slot_apart t x ne with far | far
  · omega
  · omega

/-- A slot address finds its slab by rounding down, and its index by division. -/
theorem Fits.slot_base (h : Fits t order) (aligned : slabBytes order ∣ x)
    (range : x + slabBytes order ≤ 2 ^ 64) (hi : i < capacityFor t order) :
    slot t x i &&& wordNot 64 (slabBytes order - 1) = x := by
  have within := h.slot_within (x := x) hi
  have size := h.size
  obtain ⟨c, rfl⟩ := aligned
  rw [mask_slabBytes h.pos (by omega)]
  obtain ⟨d, hd⟩ : ∃ d, slot t (slabBytes order * c) i = d + slabBytes order * c :=
    ⟨slot t (slabBytes order * c) i - slabBytes order * c, by omega⟩
  rw [hd, Nat.add_mul_div_left _ _ h.pos, Nat.div_eq_of_lt (by omega), Nat.zero_add, Nat.mul_comm]

theorem Fits.index_lt (h : Fits t order) (hi : i < capacityFor t order) : i < usizeMax := by
  obtain ⟨value, low⟩ := slabBytes_eq h.pos
  have room := h.room
  have least : capacityFor t order * 8 ≤ capacityFor t order * t.size := Nat.mul_le_mul_left _ h.size
  have top : 2 ^ (order + 12) ≤ 2 ^ 63 := Nat.pow_le_pow_right (by omega) (by omega)
  unfold usizeMax
  omega

theorem Fits.header_room (h : Fits t order) : headerSize ≤ slabBytes order := by
  have room := h.room
  have stride := headerStride_ge t h.align
  omega

theorem Fits.slot_index (h : Fits t order) : (slot t x i - (x + headerStride t)) / t.size = i := by
  have size := h.size
  unfold slot
  rw [Nat.add_sub_cancel_left, Nat.mul_div_cancel _ (by omega)]

end

/-! One slab. -/

/-- What the memory says about the slab at `x` whose free slots are `f`, in list order. -/
structure SlabOk (t : ElementLayout) (order : Nat) (m : Memory) (x : Nat) (f : List Nat) : Prop where
  head : freeHeadOf m x = f.headD usizeMax
  count : inUseOf m x + f.length = capacityFor t order
  capacity : capacityOf m x = capacityFor t order % 2 ^ 32
  small : inUseOf m x < 2 ^ 32
  limit : capacityOf m x = 0 ∨ inUseOf m x ≤ capacityOf m x
  nodup : f.Nodup
  bound : ∀ i ∈ f, i < capacityFor t order
  threaded : Threaded (fun i => m.read (slot t x i)) usizeMax f

/-- A header that `alloc` may still find on the partial list. With no slot count in
the `u32` the slab never counts as full. -/
def Open (m : Memory) (x : Nat) : Prop := capacityOf m x = 0 ∨ inUseOf m x < capacityOf m x

section
variable {t : ElementLayout} {order x i : Nat} {m m' : Memory} {f : List Nat}

theorem SlabOk.congr (h : SlabOk t order m x f) (fits : Fits t order)
    (same : ∀ a, Inside order x a → a ≠ x + 16 → a ≠ x + 24 → m'.read a = m.read a) :
    SlabOk t order m' x f ∧ (Open m' x ↔ Open m x) := by
  have room := fits.room
  have stride := headerStride_ge t fits.align
  unfold headerSize at stride
  have inUse : inUseOf m' x = inUseOf m x :=
    same _ ⟨by omega, by omega⟩ (by omega) (by omega)
  have capacity : capacityOf m' x = capacityOf m x :=
    same _ ⟨by omega, by omega⟩ (by omega) (by omega)
  refine ⟨⟨?_, by rw [inUse]; exact h.count, by rw [capacity]; exact h.capacity,
    by rw [inUse]; exact h.small, by rw [inUse, capacity]; exact h.limit, h.nodup, h.bound, ?_⟩, by rw [Open, Open, inUse, capacity]⟩
  · exact (same _ ⟨by omega, by omega⟩ (by omega) (by omega)).trans h.head
  · apply h.threaded.congr
    intro i hi
    have within := fits.slot_within (x := x) (h.bound i hi)
    have size := fits.size
    exact same _ ⟨by omega, by omega⟩ (by omega) (by omega)

theorem SlabOk.free_of_open (h : SlabOk t order m x f) (fits : Fits t order) (o : Open m x) : f ≠ [] := by
  rintro rfl
  have count := h.count
  have small := h.small
  have capacity := h.capacity
  have pos := fits.capacity
  rw [List.length_nil, Nat.add_zero] at count
  rw [← count, Nat.mod_eq_of_lt small] at capacity
  rcases o with zero | less
  · omega
  · omega

theorem SlabOk.used (h : SlabOk t order m x f) :
    0 < inUseOf m x ↔ ∃ i < capacityFor t order, i ∉ f := by
  have count := h.count
  constructor
  · intro pos
    exact exists_missing (by omega)
  · rintro ⟨i, hi, missing⟩
    have short := length_lt_of_missing h.nodup h.bound hi missing
    omega

theorem SlabOk.rewrite (fits : Fits t order) (capacity : capacityOf m x = capacityFor t order % 2 ^ 32)
    {head inUse : Nat} (head_eq : head = f.headD usizeMax) (count : inUse + f.length = capacityFor t order)
    (small : inUse < 2 ^ 32) (limit : capacityOf m x = 0 ∨ inUse ≤ capacityOf m x)
    (nodup : f.Nodup) (bound : ∀ i ∈ f, i < capacityFor t order)
    (threaded : Threaded (fun i => m.read (slot t x i)) usizeMax f) :
    SlabOk t order (setInUse (setFreeHead m x head) x inUse) x f ∧
      inUseOf (setInUse (setFreeHead m x head) x inUse) x = inUse ∧
      capacityOf (setInUse (setFreeHead m x head) x inUse) x = capacityOf m x := by
  have stored : inUseOf (setInUse (setFreeHead m x head) x inUse) x = inUse :=
    Memory.read_write_same _ _ _
  have kept : capacityOf (setInUse (setFreeHead m x head) x inUse) x = capacityOf m x := by
    simp only [capacityOf, setInUse, setFreeHead, Memory.read_write]
    rw [if_neg (by omega), if_neg (by omega)]
  refine ⟨⟨?_, by rw [stored]; exact count, by rw [kept]; exact capacity, by rw [stored]; exact small,
    by rw [stored, kept]; exact limit, nodup, bound, ?_⟩, stored, kept⟩
  · rw [← head_eq]
    simp [freeHeadOf, setInUse, setFreeHead, Memory.read_write]
  · apply threaded.congr
    intro i hi
    have within := fits.slot_within (x := x) (bound i hi)
    simp only [setInUse, setFreeHead, Memory.read_write]
    rw [if_neg (by omega), if_neg (by omega)]

theorem SlabOk.pop {is : List Nat} (h : SlabOk t order m x (i :: is)) (fits : Fits t order)
    (o : Open m x) (small : inUseOf m x + 1 < 2 ^ 32) :
    SlabOk t order (setInUse (setFreeHead m x (m.read (slot t x i))) x (inUseOf m x + 1)) x is ∧
      inUseOf (setInUse (setFreeHead m x (m.read (slot t x i))) x (inUseOf m x + 1)) x = inUseOf m x + 1 ∧
      capacityOf (setInUse (setFreeHead m x (m.read (slot t x i))) x (inUseOf m x + 1)) x =
        capacityOf m x := by
  have count := h.count
  rw [List.length_cons] at count
  exact SlabOk.rewrite fits h.capacity h.threaded.1 (by omega) small o (List.nodup_cons.mp h.nodup).2
    (fun j hj => h.bound j (List.mem_cons_of_mem _ hj)) h.threaded.2

theorem SlabOk.push (h : SlabOk t order m x f) (fits : Fits t order) (hi : i < capacityFor t order)
    (missing : i ∉ f) {m₁ : Memory} (linked : m₁ = m.write (slot t x i) (freeHeadOf m x)) :
    SlabOk t order (setInUse (setFreeHead m₁ x i) x (inUseOf m x - 1)) x (i :: f) ∧
      inUseOf (setInUse (setFreeHead m₁ x i) x (inUseOf m x - 1)) x = inUseOf m x - 1 ∧
      capacityOf (setInUse (setFreeHead m₁ x i) x (inUseOf m x - 1)) x = capacityOf m x := by
  have pos := h.used.mpr ⟨i, hi, missing⟩
  have count := h.count
  have small := h.small
  have within := fits.slot_within (x := x) hi
  have kept : capacityOf m₁ x = capacityOf m x := by
    rw [linked]
    exact Memory.read_write_other _ _ (by omega)
  have threaded : Threaded (fun j => m₁.read (slot t x j)) usizeMax (i :: f) := by
    rw [linked]
    refine ⟨?_, h.threaded.congr fun j hj => ?_⟩
    · exact (Memory.read_write_same _ _ _).trans h.head
    · apply Memory.read_write_other
      intro e
      exact missing (fits.slot_inj e ▸ hj)
  have limit : capacityOf m₁ x = 0 ∨ inUseOf m x - 1 ≤ capacityOf m₁ x := by
    rw [kept]
    exact h.limit.imp_right (by omega)
  rw [← kept]
  apply SlabOk.rewrite fits (kept.trans h.capacity) rfl ?_ (by omega) limit
    (List.nodup_cons.mpr ⟨missing, h.nodup⟩) ?_ threaded
  · rw [List.length_cons]
    omega
  · intro j hj
    cases hj with
    | head => exact hi
    | tail _ hj => exact h.bound j hj

/-! A slab as `grow` writes it. -/

theorem threadSlots_spec (fits : Fits t order) {n : Nat} (hn : n ≤ capacityFor t order) :
    (∀ i < n, (SlabCache.threadSlots t x (capacityFor t order) m n).read (slot t x i) =
        if i + 1 < capacityFor t order then i + 1 else usizeMax) ∧
      Memory.StoresIn (Inside order x) m
        (SlabCache.threadSlots t x (capacityFor t order) m n) := by
  induction n with
  | zero => exact ⟨by simp, Memory.StoresIn.refl _ _⟩
  | succ n ih =>
    obtain ⟨links, stores⟩ := ih (by omega)
    have within := fits.slot_within (x := x) (Nat.lt_of_succ_le hn)
    have size := fits.size
    refine ⟨fun i hi => ?_, stores.write _ ⟨?_, ?_⟩⟩
    · rw [SlabCache.threadSlots, ← slot, Memory.read_write]
      by_cases e : i = n
      · rw [if_pos (by rw [e]), e]
      · rw [if_neg fun same => e (fits.slot_inj same)]
        exact links i (by omega)
    · rw [← slot]
      omega
    · rw [← slot]
      omega

theorem fresh_spec (fits : Fits t order) {m' : Memory}
    (built : m' = SlabCache.writeHeader (SlabCache.threadSlots t x (capacityFor t order) m
      (capacityFor t order)) x 0 0 (capacityFor t order % 2 ^ 32) 0 0) :
    SlabOk t order m' x (List.range (capacityFor t order)) ∧ Open m' x ∧
      Memory.StoresIn (Inside order x) m m' := by
  obtain ⟨links, stores⟩ := threadSlots_spec (x := x) (m := m) fits (Nat.le_refl _)
  have pos := fits.capacity
  have room := fits.room
  have stride := headerStride_ge t fits.align
  unfold headerSize at stride
  have freeHead : freeHeadOf m' x = 0 := by
    simp [built, SlabCache.writeHeader, freeHeadOf, setFreeHead, setInUse, setCapacity, setPrev, setNext,
      Memory.read_write]
  have inUse : inUseOf m' x = 0 := by
    simp [built, SlabCache.writeHeader, inUseOf, setFreeHead, setInUse, setCapacity, setPrev, setNext,
      Memory.read_write]
  have capacity : capacityOf m' x = capacityFor t order % 2 ^ 32 := by
    simp [built, SlabCache.writeHeader, capacityOf, setFreeHead, setInUse, setCapacity, setPrev, setNext,
      Memory.read_write]
  have slots : ∀ i < capacityFor t order, m'.read (slot t x i) =
      if i + 1 < capacityFor t order then i + 1 else usizeMax := by
    intro i hi
    have within := fits.slot_within (x := x) hi
    rw [← links i hi, built]
    simp only [SlabCache.writeHeader, setFreeHead, setInUse, setCapacity, setPrev, setNext, Memory.read_write]
    rw [if_neg (by omega), if_neg (by omega), if_neg (by omega), if_neg (by omega), if_neg (by omega)]
  refine ⟨⟨?_, ?_, capacity, ?_, ?_, List.nodup_range, ?_, Threaded.range slots⟩, ?_, ?_⟩
  · rw [freeHead]
    cases n : capacityFor t order with
    | zero => omega
    | succ n => simp [List.range_succ_eq_map]
  · rw [inUse, List.length_range, Nat.zero_add]
  · omega
  · omega
  · exact fun i hi => List.mem_range.mp hi
  · unfold Open
    omega
  · rw [built]
    have word : ∀ k, k ≤ 24 → Inside order x (x + k) := fun k hk => ⟨by omega, by omega⟩
    exact ((((stores.write _ (word 0 (by omega))).write _ (word 8 (by omega))).write _
      (word 12 (by omega))).write _ (word 16 (by omega))).write _ (word 24 (by omega))

end

/-! The partial list. -/

section
variable {σ : Type} {s : SlabCache σ} {parts : List Nat} {x : Nat}

theorem linkPartial_spec (h : Linked (nextOf s.mem) (prevOf s.mem) s.inner.partialHead parts)
    (nonnull : x ≠ 0) (fresh : x ∉ parts) (apart : LinksApart 24 16 (x :: parts)) :
    ∃ m', s.linkPartial x = { s with mem := m', inner := { s.inner with partialHead := x } } ∧
      Linked (nextOf m') (prevOf m') x (x :: parts) ∧
      Memory.StoresIn (LinkWord 24 16 (x :: parts)) s.mem m' :=
  ⟨_, rfl, Linked.storePush (m := s.mem) (n := 24) (p := 16) h nonnull fresh apart⟩

theorem unlinkPartial_spec (h : Linked (nextOf s.mem) (prevOf s.mem) s.inner.partialHead parts)
    (mem : x ∈ parts) (apart : LinksApart 24 16 parts) :
    ∃ m' head, s.unlinkPartial x = { s with mem := m', inner := { s.inner with partialHead := head } } ∧
      Linked (nextOf m') (prevOf m') head (parts.erase x) ∧
      Memory.StoresIn (LinkWord 24 16 parts) s.mem m' := by
  obtain ⟨linked, stores⟩ := Linked.storeUnlink (m := s.mem) (n := 24) (p := 16) h mem apart
  refine ⟨_, _, rfl, ?_, stores⟩
  have flip : (if prevOf s.mem x ≠ 0 then s.inner.partialHead else nextOf s.mem x) =
      if prevOf s.mem x = 0 then nextOf s.mem x else s.inner.partialHead := ite_not _ _ _
  rw [flip]
  exact linked

end
end CrustyOs.Abalone.Slab
