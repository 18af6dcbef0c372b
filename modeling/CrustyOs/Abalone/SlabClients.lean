import CrustyOs.Abalone.BuddyClients
import CrustyOs.Abalone.SlabSafety

/-! A cache beside other owners of memory: it reads its slabs only and hands out parts of
its slabs. -/
namespace CrustyOs.Abalone.Slab
open Lib BuddyAllocator

variable {σ : Type} {t : ElementLayout} {order : Nat} {Ready Ready' : σ → Memory → List Nat → Prop}
  {s : SlabCache σ} {bases parts live : List Nat} {free : Nat → List Nat} {m : Memory} {p : σ}

def slabsOf (calls : List PageCall) : List Allocation :=
  ((outstanding calls).getD []).map fun out => ⟨out.1, out.2⟩

namespace Inv

theorem slabs_eq (h : Inv t order Ready s bases free parts live) :
    slabsOf s.calls = bases.map fun x => ⟨x, order⟩ := by
  rw [slabsOf, h.log, Option.getD_some, List.map_map]
  rfl

theorem sourced (h : Inv t order Ready s bases free parts live) (fits : Fits t order)
    (same : ∀ x ∈ bases, ∀ a, Inside order x a → m.read a = s.mem.read a) (ready : Ready' p m bases) :
    Inv t order Ready' { s with pages := p, mem := m } bases free parts live := by
  have room := fits.header_room
  unfold headerSize at room
  obtain ⟨slabs, opened⟩ := h.shape.slabs.frame fits fun x hx a inside _ _ => same x hx a inside
  have word : ∀ y ∈ parts, ∀ i ≤ 24, m.read (y + i) = s.mem.read (y + i) :=
    fun y hy i hi => same y (h.shape.sub y hy) _ ⟨by omega, by omega⟩
  refine ⟨h.slabOrder, h.capacity, ⟨slabs, h.shape.linked.congr ?_ ?_, fun y => ?_⟩, ready, h.accounts, h.log⟩
  · exact fun y hy => word y hy 24 (by decide)
  · exact fun y hy => word y hy 16 (by decide)
  · rw [h.shape.parts_iff]
    exact and_congr_right fun hy => (opened y hy).symm

theorem owner (h : Inv t order Ready s bases free parts live) (fits : Fits t order) (hk : order < buddyMaxOrder) :
    Owner.Tidy ⟨(slabsOf s.calls).map Allocation.range, live.map fun p => ⟨p, t.size⟩⟩ where
  inside := by
    intro r hr
    obtain ⟨p, hp, rfl⟩ := List.mem_map.mp hr
    obtain ⟨x, hx, _, low, high⟩ := (h.shape.slabs.safe fits).slots p hp
    obtain ⟨y, hy, e⟩ := List.mem_map.mp hx
    obtain ⟨rfl, _⟩ := Prod.mk.inj e
    refine ⟨⟨y, slabBytes order⟩, ?_, low, high⟩
    rw [h.slabs_eq, ← slab_range hk]
    exact List.mem_map_of_mem (List.mem_map_of_mem hy)
  apart := by
    rw [List.pairwise_map]
    exact (h.shape.slabs.safe fits).apart

end Inv
end CrustyOs.Abalone.Slab
