import CrustyOs.Abalone.SlabSpec
import Mathlib.Data.List.Pairwise

/-! All slabs of a cache together: bases, free lists and live objects. A store
inside one slab leaves the others alone, so each edit is an edit of one slab. -/
namespace CrustyOs.Abalone.Slab
open Lib

def Beside (order x y : Nat) : Prop := x + slabBytes order ≤ y ∨ y + slabBytes order ≤ x

instance (order : Nat) : Std.Symm (Beside order) := ⟨fun _ _ => Or.symm⟩

/-- Disjoint non-null blocks inside the address space. -/
structure Placed (order : Nat) (bases : List Nat) : Prop where
  apart : bases.Pairwise (Beside order)
  range : ∀ x ∈ bases, x ≠ 0 ∧ x + slabBytes order ≤ 2 ^ 64

def Outside (order : Nat) (bases : List Nat) (a : Nat) : Prop :=
  ∀ x ∈ bases, a + 8 ≤ x ∨ x + slabBytes order ≤ a

section
variable {order x y : Nat} {bases : List Nat}

theorem Placed.far (h : Placed order bases) (hx : x ∈ bases) (hy : y ∈ bases) (ne : x ≠ y) :
    Beside order x y :=
  h.apart.forall hx hy ne

theorem Placed.nodup (h : Placed order bases) (pos : 0 < slabBytes order) : bases.Nodup := by
  apply h.apart.imp
  intro x y far e
  unfold Beside at far
  omega

theorem Placed.linksApart (h : Placed order bases) {nodes : List Nat} (sub : ∀ y ∈ nodes, y ∈ bases)
    (room : headerSize ≤ slabBytes order) : LinksApart 24 16 nodes := by
  intro y hy z hz
  by_cases e : y = z
  · omega
  · have far := h.far (sub y hy) (sub z hz) e
    unfold Beside at far
    unfold headerSize at room
    omega

end

/-- The slabs at `bases` with their free lists, and the objects live in them. -/
structure Slabs (t : ElementLayout) (order : Nat) (m : Memory) (bases : List Nat)
    (free : Nat → List Nat) (live : List Nat) : Prop where
  placed : Placed order bases
  aligned : ∀ x ∈ bases, slabBytes order ∣ x
  slab : ∀ x ∈ bases, SlabOk t order m x (free x)
  live_nodup : live.Nodup
  live_iff : ∀ p, p ∈ live ↔ ∃ x ∈ bases, ∃ i < capacityFor t order, i ∉ free x ∧ p = slot t x i

section
variable {t : ElementLayout} {order : Nat} {m m' : Memory} {bases parts live f is : List Nat}
  {free : Nat → List Nat} {x y i : Nat}

/-- The words that `alloc` and `dealloc` rewrite: two of the header, and a slot's link. -/
def Rewritten (t : ElementLayout) (x i a : Nat) : Prop := a = x ∨ a = x + 8 ∨ a = slot t x i

theorem Rewritten.inside (fits : Fits t order) (hi : i < capacityFor t order) {a : Nat}
    (h : Rewritten t x i a) : Inside order x a := by
  have room := fits.header_room
  have within := fits.slot_within (x := x) hi
  have size := fits.size
  unfold headerSize at room
  unfold Inside
  rcases h with rfl | rfl | rfl
  · omega
  · omega
  · omega

theorem header_rewritten {head inUse : Nat} (stores : Memory.StoresIn (Rewritten t x i) m m') :
    Memory.StoresIn (Rewritten t x i) m (setInUse (setFreeHead m' x head) x inUse) :=
  (stores.write _ (Or.inl rfl)).write _ (Or.inr (Or.inl rfl))

def Clear (t : ElementLayout) (live : List Nat) (a : Nat) : Prop :=
  ∀ p ∈ live, a + 8 ≤ p ∨ p + t.size ≤ a

theorem Clear.erase {p a : Nat} (h : Clear t live a) : Clear t (live.erase p) a :=
  fun q hq => h q (List.mem_of_mem_erase hq)

theorem Placed.outside (h : Placed order (x :: bases)) {a : Nat} (inside : Inside order x a) :
    Outside order bases a := by
  intro y hy
  have far := (List.pairwise_cons.mp h.apart).1 y hy
  unfold Beside at far
  unfold Inside at inside
  omega

theorem Placed.tail (h : Placed order (x :: bases)) : Placed order bases :=
  ⟨(List.pairwise_cons.mp h.apart).2, fun y hy => h.range y (List.mem_cons_of_mem _ hy)⟩

theorem links_kept {P : Nat → Prop} {head : Nat} (h : Linked (nextOf m) (prevOf m) head parts)
    (stores : Memory.StoresIn P m m') (miss : ∀ a, LinkWord 24 16 parts a → ¬ P a) :
    Linked (nextOf m') (prevOf m') head parts :=
  h.congr (fun y hy => stores.read_eq (miss _ ⟨y, hy, Or.inl rfl⟩))
    (fun y hy => stores.read_eq (miss _ ⟨y, hy, Or.inr rfl⟩))

theorem Placed.links_miss (fits : Fits t order) (sub : ∀ y ∈ parts, y ∈ bases) {a : Nat}
    (link : LinkWord 24 16 parts a) : ¬ Outside order bases a := by
  obtain ⟨y, hy, e⟩ := link
  intro out
  have far := out y (sub y hy)
  have room := fits.header_room
  unfold headerSize at room
  omega

theorem Placed.links_miss_rewritten (h : Placed order bases) (fits : Fits t order)
    (sub : ∀ y ∈ parts, y ∈ bases) (hx : x ∈ bases) (hi : i < capacityFor t order) {a : Nat}
    (link : LinkWord 24 16 parts a) : ¬ Rewritten t x i a := by
  obtain ⟨y, hy, e⟩ := link
  intro word
  have inside := word.inside fits hi
  have within := fits.slot_within (x := x) hi
  have room := fits.header_room
  unfold headerSize at room
  unfold Inside at inside
  by_cases same : y = x
  · unfold Rewritten at word
    omega
  · have far := h.far (sub y hy) hx same
    unfold Beside at far
    omega

namespace Slabs

theorem frame (h : Slabs t order m bases free live) (fits : Fits t order)
    (same : ∀ x ∈ bases, ∀ a, Inside order x a → a ≠ x + 16 → a ≠ x + 24 →
      m'.read a = m.read a) :
    Slabs t order m' bases free live ∧ ∀ x ∈ bases, (Open m' x ↔ Open m x) :=
  ⟨⟨h.placed, h.aligned, fun x hx => ((h.slab x hx).congr fits (same x hx)).1, h.live_nodup, h.live_iff⟩,
    fun x hx => ((h.slab x hx).congr fits (same x hx)).2⟩

theorem relinked (h : Slabs t order m bases free live) (fits : Fits t order)
    (sub : ∀ y ∈ parts, y ∈ bases) (stores : Memory.StoresIn (LinkWord 24 16 parts) m m') :
    Slabs t order m' bases free live ∧ ∀ x ∈ bases, (Open m' x ↔ Open m x) := by
  apply h.frame fits
  intro x hx a inside ne₁ ne₂
  apply stores.read_eq
  rintro ⟨y, hy, e⟩
  unfold Inside at inside
  have room := fits.header_room
  unfold headerSize at room
  by_cases same : x = y
  · subst same
    omega
  · have far := h.placed.far hx (sub y hy) same
    unfold Beside at far
    omega

theorem outside (h : Slabs t order m bases free live) (fits : Fits t order)
    (stores : Memory.StoresIn (Outside order bases) m m') :
    Slabs t order m' bases free live ∧ ∀ x ∈ bases, (Open m' x ↔ Open m x) := by
  apply h.frame fits
  intro x hx a inside _ _
  apply stores.read_eq
  intro out
  have far := out x hx
  unfold Inside at inside
  omega

theorem other (h : Slabs t order m bases free live) (fits : Fits t order) (hx : x ∈ bases)
    (hy : y ∈ bases) (ne : y ≠ x)
    (stores : Memory.StoresIn (Inside order x) m m') :
    SlabOk t order m' y (free y) ∧ (Open m' y ↔ Open m y) := by
  apply (h.slab y hy).congr fits
  intro a inside _ _
  apply stores.read_eq
  have far := h.placed.far hy hx ne
  unfold Beside at far
  unfold Inside at inside ⊢
  omega

theorem edit (h : Slabs t order m bases free live) (fits : Fits t order) (hx : x ∈ bases) {live' : List Nat}
    (stores : Memory.StoresIn (Inside order x) m m')
    (slab : SlabOk t order m' x f) (nodup : live'.Nodup)
    (objects : ∀ p, p ∈ live' ↔ ∃ y ∈ bases, ∃ j < capacityFor t order,
      j ∉ Function.update free x f y ∧ p = slot t y j) :
    Slabs t order m' bases (Function.update free x f) live' ∧ ∀ y ∈ bases, y ≠ x → (Open m' y ↔ Open m y) := by
  refine ⟨⟨h.placed, h.aligned, fun y hy => ?_, nodup, objects⟩,
    fun y hy ne => (h.other fits hx hy ne stores).2⟩
  by_cases e : y = x
  · subst e
    rw [Function.update_self]
    exact slab
  · rw [Function.update_of_ne e]
    exact (h.other fits hx hy e stores).1

theorem slots_apart (h : Slabs t order m bases free live) (fits : Fits t order) (hx : x ∈ bases) (hy : y ∈ bases)
    (ne : x ≠ y) {j : Nat} (hi : i < capacityFor t order) (hj : j < capacityFor t order) :
    slot t x i + t.size ≤ slot t y j ∨ slot t y j + t.size ≤ slot t x i := by
  have wx := fits.slot_within (x := x) hi
  have wy := fits.slot_within (x := y) hj
  have far := h.placed.far hx hy ne
  unfold Beside at far
  omega

theorem slot_inj (h : Slabs t order m bases free live) (fits : Fits t order) (hx : x ∈ bases)
    (hy : y ∈ bases) {j : Nat} (hi : i < capacityFor t order) (hj : j < capacityFor t order)
    (e : slot t x i = slot t y j) : x = y ∧ i = j := by
  have same : x = y := by
    by_contra ne
    have apart := h.slots_apart fits hx hy ne hi hj
    have size := fits.size
    omega
  subst same
  exact ⟨rfl, fits.slot_inj e⟩

/-! What a store may touch without changing an object. -/

theorem clear_outside (h : Slabs t order m bases free live) (fits : Fits t order) {a : Nat}
    (out : Outside order bases a) : Clear t live a := by
  intro p hp
  obtain ⟨y, hy, j, hj, _, rfl⟩ := (h.live_iff p).mp hp
  have within := fits.slot_within (x := y) hj
  have far := out y hy
  omega

theorem clear_header (h : Slabs t order m bases free live) (fits : Fits t order) (hx : x ∈ bases) {a : Nat}
    (low : x ≤ a) (high : a + 8 ≤ x + 32) : Clear t live a := by
  intro p hp
  obtain ⟨y, hy, j, hj, _, rfl⟩ := (h.live_iff p).mp hp
  have within := fits.slot_within (x := y) hj
  have room := fits.header_room
  unfold headerSize at room
  by_cases e : x = y
  · omega
  · have far := h.placed.far hx hy e
    unfold Beside at far
    omega

theorem clear_links (h : Slabs t order m bases free live) (fits : Fits t order)
    (sub : ∀ y ∈ parts, y ∈ bases) {a : Nat} (link : LinkWord 24 16 parts a) : Clear t live a := by
  obtain ⟨y, hy, e⟩ := link
  exact h.clear_header fits (sub y hy) (by omega) (by omega)

theorem clear_slot (h : Slabs t order m bases free live) (fits : Fits t order) (hx : x ∈ bases)
    (hi : i < capacityFor t order) (dead : slot t x i ∉ live) : Clear t live (slot t x i) := by
  intro p hp
  obtain ⟨y, hy, j, hj, _, rfl⟩ := (h.live_iff p).mp hp
  have size := fits.size
  by_cases e : x = y
  · subst e
    have ne : i ≠ j := fun e => dead (e ▸ hp)
    have apart := slot_apart t x ne
    omega
  · have apart := h.slots_apart fits hx hy e hi hj
    omega

theorem clear_rewritten (h : Slabs t order m bases free live) (fits : Fits t order) (hx : x ∈ bases)
    (hi : i < capacityFor t order) (dead : slot t x i ∉ live) {a : Nat} (word : Rewritten t x i a) :
    Clear t live a := by
  rcases word with rfl | rfl | rfl
  · exact h.clear_header fits hx (by omega) (by omega)
  · exact h.clear_header fits hx (by omega) (by omega)
  · exact h.clear_slot fits hx hi dead

theorem take (h : Slabs t order m bases free live) (fits : Fits t order) (hx : x ∈ bases)
    (e : free x = i :: is) (o : Open m x) (small : inUseOf m x + 1 < 2 ^ 32)
    (popped : m' = setInUse (setFreeHead m x (m.read (slot t x i))) x (inUseOf m x + 1)) :
    Slabs t order m' bases (Function.update free x is) (slot t x i :: live) ∧
      (∀ y ∈ bases, y ≠ x → (Open m' y ↔ Open m y)) ∧ inUseOf m' x = inUseOf m x + 1 ∧
      capacityOf m' x = capacityOf m x ∧ Memory.StoresIn (Rewritten t x i) m m' := by
  have slab := e ▸ h.slab x hx
  obtain ⟨slab', inUse, capacity⟩ := slab.pop fits o small
  have fresh := (List.nodup_cons.mp slab.nodup).1
  have hi := slab.bound i List.mem_cons_self
  have new : slot t x i ∉ live := by
    intro old
    obtain ⟨y, hy, j, hj, missing, same⟩ := (h.live_iff _).mp old
    obtain ⟨rfl, rfl⟩ := h.slot_inj fits hx hy hi hj same
    exact missing (e ▸ List.mem_cons_self)
  subst popped
  have stores : Memory.StoresIn (Rewritten t x i) m
      (setInUse (setFreeHead m x (m.read (slot t x i))) x (inUseOf m x + 1)) :=
    header_rewritten (Memory.StoresIn.refl (Rewritten t x i) m)
  obtain ⟨slabs, others⟩ := h.edit fits hx (stores.mono fun a => Rewritten.inside fits hi) slab' (List.nodup_cons.mpr ⟨new, h.live_nodup⟩)
    (by
      intro p
      constructor
      · intro hp
        cases hp with
        | head => exact ⟨x, hx, i, hi, by rwa [Function.update_self], rfl⟩
        | tail _ hp =>
          obtain ⟨y, hy, j, hj, missing, rfl⟩ := (h.live_iff _).mp hp
          refine ⟨y, hy, j, hj, ?_, rfl⟩
          by_cases same : y = x
          · subst same
            rw [Function.update_self]
            exact fun hj => missing (e ▸ List.mem_cons_of_mem _ hj)
          · rwa [Function.update_of_ne same]
      · rintro ⟨y, hy, j, hj, missing, rfl⟩
        by_cases same : y = x
        · subst same
          rw [Function.update_self] at missing
          by_cases first : j = i
          · rw [first]
            exact List.mem_cons_self
          · refine List.mem_cons_of_mem _ ((h.live_iff _).mpr ⟨y, hy, j, hj, ?_, rfl⟩)
            rw [e]
            exact fun hj => (List.mem_cons.mp hj).elim first missing
        · rw [Function.update_of_ne same] at missing
          exact List.mem_cons_of_mem _ ((h.live_iff _).mpr ⟨y, hy, j, hj, missing, rfl⟩))
  exact ⟨slabs, others, inUse, capacity, stores⟩

theorem give (h : Slabs t order m bases free live) (fits : Fits t order) (hx : x ∈ bases)
    (hi : i < capacityFor t order) (missing : i ∉ free x)
    (pushed : m' = setInUse (setFreeHead (m.write (slot t x i) (freeHeadOf m x)) x i) x (inUseOf m x - 1)) :
    Slabs t order m' bases (Function.update free x (i :: free x)) (live.erase (slot t x i)) ∧
      (∀ y ∈ bases, y ≠ x → (Open m' y ↔ Open m y)) ∧ inUseOf m' x = inUseOf m x - 1 ∧
      capacityOf m' x = capacityOf m x ∧ Memory.StoresIn (Rewritten t x i) m m' := by
  obtain ⟨slab', inUse, capacity⟩ := (h.slab x hx).push fits hi missing rfl
  subst pushed
  have stores : Memory.StoresIn (Rewritten t x i) m
      (setInUse (setFreeHead (m.write (slot t x i) (freeHeadOf m x)) x i) x (inUseOf m x - 1)) :=
    header_rewritten ((Memory.StoresIn.refl (Rewritten t x i) m).write (freeHeadOf m x) (Or.inr (Or.inr rfl)))
  obtain ⟨slabs, others⟩ := h.edit fits hx (stores.mono fun a => Rewritten.inside fits hi) slab'
    (h.live_nodup.erase (slot t x i))
    (by
      intro p
      rw [h.live_nodup.mem_erase_iff, h.live_iff]
      constructor
      · rintro ⟨ne, y, hy, j, hj, out, rfl⟩
        refine ⟨y, hy, j, hj, ?_, rfl⟩
        by_cases same : y = x
        · subst same
          rw [Function.update_self]
          intro hj
          cases hj with
          | head => exact ne rfl
          | tail _ hj => exact out hj
        · rwa [Function.update_of_ne same]
      · rintro ⟨y, hy, j, hj, out, rfl⟩
        by_cases same : y = x
        · subst same
          rw [Function.update_self, List.mem_cons, not_or] at out
          exact ⟨fun e => out.1 (fits.slot_inj e), y, hy, j, hj, out.2, rfl⟩
        · rw [Function.update_of_ne same] at out
          exact ⟨fun e => same (h.slot_inj fits hy hx hj hi e).1, y, hy, j, hj, out, rfl⟩)
  exact ⟨slabs, others, inUse, capacity, stores⟩

theorem add (h : Slabs t order m bases free live) (fits : Fits t order) (placed : Placed order (x :: bases))
    (aligned : slabBytes order ∣ x) (slab : SlabOk t order m' x (List.range (capacityFor t order)))
    (stores : Memory.StoresIn (Inside order x) m m') :
    Slabs t order m' (x :: bases) (Function.update free x (List.range (capacityFor t order))) live ∧
      ∀ y ∈ bases, (Open m' y ↔ Open m y) := by
  have pos := fits.pos
  have fresh := (List.nodup_cons.mp (placed.nodup pos)).1
  have other : ∀ y ∈ bases, SlabOk t order m' y (free y) ∧ (Open m' y ↔ Open m y) := by
    intro y hy
    apply (h.slab y hy).congr fits
    intro a inside _ _
    apply stores.read_eq
    have far := (List.pairwise_cons.mp placed.apart).1 y hy
    unfold Beside at far
    unfold Inside at inside ⊢
    omega
  have free_eq : ∀ y ∈ bases, Function.update free x (List.range (capacityFor t order)) y = free y :=
    fun y hy => Function.update_of_ne (fun e : y = x => fresh (e ▸ hy)) _ _
  refine ⟨⟨placed, ?_, ?_, h.live_nodup, fun p => ?_⟩, fun y hy => (other y hy).2⟩
  · intro y hy
    cases hy with
    | head => exact aligned
    | tail _ hy => exact h.aligned y hy
  · intro y hy
    cases hy with
    | head =>
      rw [Function.update_self]
      exact slab
    | tail _ hy =>
      rw [free_eq y hy]
      exact (other y hy).1
  · rw [h.live_iff]
    constructor
    · rintro ⟨y, hy, j, hj, missing, e⟩
      exact ⟨y, List.mem_cons_of_mem _ hy, j, hj, by rwa [free_eq y hy], e⟩
    · rintro ⟨y, hy, j, hj, missing, e⟩
      cases hy with
      | head =>
        rw [Function.update_self] at missing
        exact absurd (List.mem_range.mpr hj) missing
      | tail _ hy => exact ⟨y, hy, j, hj, by rwa [free_eq y hy] at missing, e⟩

theorem drop (h : Slabs t order m bases free live) (fits : Fits t order) (hx : x ∈ bases)
    (empty : inUseOf m x = 0) : Slabs t order m (bases.erase x) free live := by
  have slab := h.slab x hx
  have nodup := h.placed.nodup fits.pos
  have sub : ∀ {y}, y ∈ bases.erase x → y ∈ bases := List.mem_of_mem_erase
  refine ⟨⟨h.placed.apart.sublist List.erase_sublist, fun y hy => h.placed.range y (sub hy)⟩,
    fun y hy => h.aligned y (sub hy), fun y hy => h.slab y (sub hy), h.live_nodup, fun p => ?_⟩
  rw [h.live_iff]
  constructor
  · rintro ⟨y, hy, j, hj, missing, e⟩
    refine ⟨y, nodup.mem_erase_iff.mpr ⟨?_, hy⟩, j, hj, missing, e⟩
    rintro rfl
    have used := slab.used.mpr ⟨j, hj, missing⟩
    omega
  · rintro ⟨y, hy, rest⟩
    exact ⟨y, sub hy, rest⟩

end Slabs
end
end CrustyOs.Abalone.Slab
