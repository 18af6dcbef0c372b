import CrustyOs.Abalone.SlabClients
import CrustyOs.Abalone.TlsfClients

/-! The allocators as the kernel runs them: one buddy allocator in one memory, under it the
callers of whole pages, the TLSF heap in a pool of its own, and any number of slab caches,
their calls interleaved in any order. -/
namespace CrustyOs.Abalone
open Lib BuddyAllocator

/-- A `static SlabCache<T>`, with the objects it has out. -/
structure Cache where
  element : Slab.ElementLayout
  order : Nat
  inner : Slab.SlabCacheInner
  calls : List Slab.PageCall
  live : List Nat

/-- `BUDDY`, `HEAP` and the caches. Beside them stand what the callers hold: page blocks,
heap payloads and the pages registered so far. -/
structure AllocatorStack where
  buddy : BuddyAllocator
  mem : Memory
  pages : Finset Nat
  blocks : List Allocation
  pool : Allocation
  heap : TlsfInner
  objects : List Nat
  caches : List Cache

namespace Cache

def client (c : Cache) (s : AllocatorStack) : Slab.System BuddyAllocator :=
  ⟨⟨c.inner, s.mem, s.buddy, c.calls⟩, c.live⟩

def slabs (c : Cache) : List Allocation := Slab.slabsOf c.calls

def owner (c : Cache) : Owner :=
  ⟨c.slabs.map Allocation.range, c.live.map fun p => ⟨p, c.element.size⟩⟩

end Cache

namespace AllocatorStack

/-- Any client's call, or a client's store to what it holds. -/
inductive Op where
  | pages (op : BuddyAllocator.Op)
  | heap (op : TlsfInner.Op)
  | newCache (element : Slab.ElementLayout) (order : Nat)
  | cache (i : Nat) (op : Slab.Op)

def pageClient (s : AllocatorStack) : BuddyAllocator.System := ⟨s.buddy, s.mem, s.blocks, s.pages⟩

def heapClient (s : AllocatorStack) : TlsfInner.System := ⟨s.heap, s.mem, s.objects⟩

def exec (s : AllocatorStack) : Op → Except Panic AllocatorStack
  | .pages op => do
    let r ← BuddyAllocator.exec s.pageClient op
    return { s with buddy := r.buddy, mem := r.mem, pages := r.pages, blocks := r.live }
  | .heap op => do
    let r ← TlsfInner.exec s.heapClient op
    return { s with heap := r.tlsf, mem := r.mem, objects := r.live }
  | .newCache element order => do
    let inner ← Slab.SlabCacheInner.new element order
    return { s with caches := s.caches ++ [⟨element, order, inner, [], []⟩] }
  | .cache i op =>
    match s.caches[i]? with
    | none => .error .indexOutOfBounds
    | some c => do
      let r ← Slab.exec c.element Slab.buddySource (c.client s) op
      let c := { c with inner := r.cache.inner, calls := r.cache.calls, live := r.live }
      return { s with buddy := r.cache.pages, mem := r.cache.mem, caches := s.caches.set i c }

def Registrable (s : AllocatorStack) (op : BuddyAllocator.Op) : Prop :=
  ∀ x ∈ op.registers s.pageClient, x < 2 ^ buddyMaxOrder ∧ s.buddy.base + (x + 1) * pageSize ≤ 2 ^ 64

/-- What the callers promise: pages, payloads and objects are given back by their holders, and new
regions fit. A heap request has a class in the tables, and a heap release finds its predecessor
(`FollowsPredecessor`), which no caller can see to. That the links in an element's slots are
aligned is left to the element's layout. -/
def Valid (s : AllocatorStack) : Op → Prop
  | .pages op => BuddyAllocator.Valid s.pageClient op ∧ s.Registrable op
  | .heap op => TlsfInner.Valid s.heapClient op ∧ TlsfInner.FollowsPredecessor s.heapClient op
  | .newCache element order => order < buddyMaxOrder ∧ 8 ≤ element.size ∧ element.align ≤ pageSize ∧
      0 < Slab.capacityFor element order
  | .cache i op => ∃ c, s.caches[i]? = some c ∧ Slab.Valid c.element (c.client s) op

/-- Calls whose guard can be computed: no heap release follows `prev_phys`. -/
def Alone (s : AllocatorStack) : Op → Prop
  | .pages op => BuddyAllocator.Valid s.pageClient op ∧ s.Registrable op
  | .heap op => TlsfInner.ValidAlone s.heapClient op
  | .newCache element order => order < buddyMaxOrder ∧ 8 ≤ element.size ∧ element.align ≤ pageSize ∧
      0 < Slab.capacityFor element order
  | .cache i op => ∃ c ∈ s.caches[i]?, Slab.Valid c.element (c.client s) op

theorem Alone.valid {s : AllocatorStack} {op : Op} (h : s.Alone op) : s.Valid op := by
  cases op with
  | pages op => exact h
  | heap op => exact h.following
  | newCache element order => exact h
  | cache i op => exact h

instance (s : AllocatorStack) (op : Op) : Decidable (s.Alone op) := by
  cases op <;> unfold Alone Registrable <;> infer_instance

def allocations (s : AllocatorStack) : List Allocation :=
  s.blocks ++ s.pool :: s.caches.flatMap Cache.slabs

def owners (s : AllocatorStack) : List Owner :=
  ⟨s.blocks.map Allocation.range, s.blocks.map Allocation.range⟩ ::
    ⟨[s.pool.range], s.objects.map (TlsfInner.payloadRange s.mem)⟩ :: s.caches.map Cache.owner

structure OutsideLive (s s' : AllocatorStack) (a : Nat) : Prop where
  blocks : ∀ b ∈ s.blocks, b ∈ s'.blocks → b.range.Off a
  objects : ∀ p ∈ s.objects, p ∈ s'.objects → (TlsfInner.payloadRange s.mem p).Off a
  slots : ∀ (i : Nat) (c c' : Cache), s.caches[i]? = some c → s'.caches[i]? = some c' →
    ∀ p ∈ c.live, p ∈ c'.live → ByteRange.Off ⟨p, c.element.size⟩ a

def whole (s : AllocatorStack) : BuddyAllocator.System := ⟨s.buddy, s.mem, s.allocations, s.pages⟩

end AllocatorStack

def Cache.Sound (c : Cache) (s : AllocatorStack) : Prop :=
  c.order < buddyMaxOrder ∧ Slab.Fits c.element c.order ∧ ∃ bases free parts,
    Slab.Inv c.element c.order (fun _ _ _ => True) (c.client s).cache bases free parts c.live

theorem Cache.Sound.owner {c : Cache} {s : AllocatorStack} (h : c.Sound s) : c.owner.Tidy := by
  obtain ⟨hk, fits, bases, free, parts, inv⟩ := h
  exact inv.owner fits hk

namespace AllocatorStack

/-- The run invariant: each allocator's own, over one record of the blocks that are out. -/
structure Sound (s : AllocatorStack) : Prop where
  whole : ∃ lists blocks, BuddyAllocator.Sound s.whole lists blocks
  roomy : Roomy s.whole
  heap : ∃ lists cs, TlsfInner.Sound s.pool.ptr (s.pool.range.start + s.pool.range.len) s.heapClient lists cs
  caches : ∀ c ∈ s.caches, c.Sound s

variable {s s' : AllocatorStack} {m : Memory} {b : BuddyAllocator} {c : Cache} {i : Nat}

theorem holds_eq (s : AllocatorStack) :
    s.owners.flatMap Owner.holds = s.allocations.map Allocation.range := by
  have later : (s.caches.map Cache.owner).flatMap Owner.holds =
      (s.caches.flatMap Cache.slabs).map Allocation.range := by
    rw [List.flatMap_map, List.map_flatMap]
    rfl
  rw [owners, allocations, List.flatMap_cons, List.flatMap_cons, later, List.map_append, List.map_cons]
  rfl

theorem Sound.held_apart (h : Sound s) : (s.owners.flatMap Owner.holds).Pairwise ByteRange.Apart := by
  obtain ⟨lists, blocks, sound⟩ := h.whole
  rw [holds_eq]
  exact sound.ranges_apart

theorem Sound.tidy (h : Sound s) : ∀ o ∈ s.owners, o.Tidy := by
  intro o ho
  have apart := h.held_apart
  rw [owners, List.flatMap_cons, List.pairwise_append] at apart
  rw [owners, List.mem_cons, List.mem_cons] at ho
  rcases ho with rfl | rfl | ho
  · exact ⟨fun r hr => ⟨r, hr, .refl r⟩, apart.1⟩
  · obtain ⟨lists, cs, sound⟩ := h.heap
    have pool : s.pool.range.start + s.pool.range.len - s.pool.ptr = s.pool.range.len :=
      Nat.add_sub_cancel_left _ _
    have owner := sound.owner
    rw [pool] at owner
    exact owner
  · obtain ⟨c, hc, rfl⟩ := List.mem_map.mp ho
    exact (h.caches c hc).owner

end AllocatorStack
end CrustyOs.Abalone
