import CrustyOs.Abalone.Config
import CrustyOs.Lib.Bits
import CrustyOs.Lib.Memory

/-! The typed slab allocator of `abalone/src/slab.rs`.
A cache owns no memory: the slabs come from a page source, and headers, free
links and objects all lie in the memory they share. -/
namespace CrustyOs.Abalone.Slab
open Lib

/-- `size_of` and `align_of` of the element type, as the language promises them. -/
structure ElementLayout where
  size : Nat
  align : Nat
  align_pow : ∃ k, align = 2 ^ k
  align_dvd : align ∣ size

/-- `usize::MAX`, the end-of-list sentinel. -/
def usizeMax : Nat := 2 ^ 64 - 1

/-! `SlabHeader`: 32 bytes, aligned to 8, at the start of each slab. -/

def headerSize : Nat := 32
def headerAlign : Nat := 8

def freeHeadOf (m : Memory) (header : Nat) : Nat := m.read header
def inUseOf (m : Memory) (header : Nat) : Nat := m.read (header + 8)
def capacityOf (m : Memory) (header : Nat) : Nat := m.read (header + 12)
def prevOf (m : Memory) (header : Nat) : Nat := m.read (header + 16)
def nextOf (m : Memory) (header : Nat) : Nat := m.read (header + 24)
def setFreeHead (m : Memory) (header v : Nat) : Memory := m.write header v
def setInUse (m : Memory) (header v : Nat) : Memory := m.write (header + 8) v
def setCapacity (m : Memory) (header v : Nat) : Memory := m.write (header + 12) v
def setPrev (m : Memory) (header v : Nat) : Memory := m.write (header + 16) v
def setNext (m : Memory) (header v : Nat) : Memory := m.write (header + 24) v

def isFull (m : Memory) (header : Nat) : Bool := inUseOf m header == capacityOf m header
def isEmpty (m : Memory) (header : Nat) : Bool := inUseOf m header == 0

def headerStride (t : ElementLayout) : Nat :=
  let align := if t.align > headerAlign then t.align else headerAlign
  (headerSize + align - 1) &&& wordNot 64 (align - 1)

def slabBytes (order : Nat) : Nat := (pageSize <<< order) % 2 ^ 64

def capacityFor (t : ElementLayout) (order : Nat) : Nat :=
  if t.size = 0 ∨ headerStride t ≥ slabBytes order then 0
  else (slabBytes order - headerStride t) / t.size

def checkedSucc32 (n : Nat) : Except Panic Nat :=
  if n + 1 < 2 ^ 32 then .ok (n + 1) else .error .addOverflow

/-- Where the pages come from: `alloc_page` and `dealloc_page`, on a state of their own. -/
structure PageSource (σ : Type) where
  allocPage : σ → Memory → Nat → Except Panic (Option Nat × σ × Memory)
  deallocPage : σ → Memory → Nat → Nat → Except Panic (σ × Memory)

inductive PageCall where
  | obtained (ptr order : Nat)
  | handedBack (ptr order : Nat)
  deriving DecidableEq, Repr

structure SlabCacheInner where
  slabOrder : Nat
  capacity : Nat
  partialHead : Nat
  stats : AllocStats

def SlabCacheInner.new (t : ElementLayout) (slabOrder : Nat) : Except Panic SlabCacheInner := do
  require (t.size ≥ 8) "SlabCache<T>: T must be at least as large as usize; use a wrapper type or increase T's size"
  require (t.align ≤ pageSize) "SlabCache<T>: T alignment exceeds PAGE_SIZE"
  require (slabOrder < 64) "attempt to shift left with overflow"
  return { slabOrder, capacity := capacityFor t slabOrder, partialHead := 0, stats := AllocStats.zero }

/-- A cache at work: its fields, the memory, the page source's state, and the calls
made to the page source so far, latest first. -/
structure SlabCache (σ : Type) where
  inner : SlabCacheInner
  mem : Memory
  pages : σ
  calls : List PageCall

namespace SlabCache
variable {σ : Type}

def withStats (s : SlabCache σ) (stats : AllocStats) : SlabCache σ :=
  { s with inner := { s.inner with stats } }

def linkPartial (s : SlabCache σ) (header : Nat) : SlabCache σ :=
  let m := setNext s.mem header s.inner.partialHead
  let m := setPrev m header 0
  let m := if s.inner.partialHead ≠ 0 then setPrev m s.inner.partialHead header else m
  { s with mem := m, inner := { s.inner with partialHead := header } }

def unlinkPartial (s : SlabCache σ) (header : Nat) : SlabCache σ :=
  let prev := prevOf s.mem header
  let next := nextOf s.mem header
  let partialHead := if prev ≠ 0 then s.inner.partialHead else next
  let m := if prev ≠ 0 then setNext s.mem prev next else s.mem
  let m := if next ≠ 0 then setPrev m next prev else m
  { s with mem := m, inner := { s.inner with partialHead } }

/-- The `for i in 0..capacity` loop of `grow`, by rounds done. -/
def threadSlots (t : ElementLayout) (slabBase capacity : Nat) (m : Memory) : Nat → Memory
  | 0 => m
  | i + 1 =>
    (threadSlots t slabBase capacity m i).write (slabBase + headerStride t + i * t.size)
      (if i + 1 < capacity then i + 1 else usizeMax)

def writeHeader (m : Memory) (header freeHead inUse capacity prev next : Nat) : Memory :=
  setNext (setPrev (setCapacity (setInUse (setFreeHead m header freeHead) header inUse)
    header capacity) header prev) header next

def grow (t : ElementLayout) (src : PageSource σ) (s : SlabCache σ) :
    Except Panic (Option Unit × SlabCache σ) := do
  let bytes := slabBytes s.inner.slabOrder
  let capacity := s.inner.capacity
  require (capacity > 0) "SlabCache<T>: zero capacity (T too large for slab order?)"
  let (raw, pages, mem) ← src.allocPage s.pages s.mem s.inner.slabOrder
  match raw with
  | none => return (none, { s with pages, mem })
  | some slabBase =>
    let calls := .obtained slabBase s.inner.slabOrder :: s.calls
    if slabBase &&& wordNot 64 (bytes - 1) ≠ slabBase then
      let (pages, mem) ← src.deallocPage pages mem slabBase s.inner.slabOrder
      return (none, { s with pages, mem, calls := .handedBack slabBase s.inner.slabOrder :: calls })
    else
      let mem := threadSlots t slabBase capacity mem capacity
      -- `capacity as u32` drops the high half
      let mem := writeHeader mem slabBase 0 0 (capacity % 2 ^ 32) 0 0
      let s := linkPartial { s with pages, mem, calls } slabBase
      return (some (), s.withStats { s.inner.stats with
        totalBytes := s.inner.stats.totalBytes + bytes
        freeBytes := s.inner.stats.freeBytes + capacity * t.size })

/-- `alloc` once a partial slab is at hand. -/
def takeSlot (t : ElementLayout) (s : SlabCache σ) : Except Panic (Nat × SlabCache σ) := do
  let header := s.inner.partialHead
  let slotIdx := freeHeadOf s.mem header
  require (slotIdx != usizeMax) "alloc called on full slab"
  let objPtr := header + headerStride t + slotIdx * t.size
  let m := setFreeHead s.mem header (s.mem.read objPtr)
  let inUse ← checkedSucc32 (inUseOf m header)
  let s := { s with mem := setInUse m header inUse }
  let s := if isFull s.mem header then s.unlinkPartial header else s
  let usedBytes := s.inner.stats.usedBytes + t.size
  return (objPtr, s.withStats { s.inner.stats with
    allocCount := s.inner.stats.allocCount + 1
    usedBytes
    peakBytes := if usedBytes > s.inner.stats.peakBytes then usedBytes else s.inner.stats.peakBytes })

def alloc (t : ElementLayout) (src : PageSource σ) (s : SlabCache σ) :
    Except Panic (Option Nat × SlabCache σ) := do
  let (ready, s) ← if s.inner.partialHead = 0 then s.grow t src else pure (some (), s)
  match ready with
  | none => return (none, s)
  | some () =>
    let (objPtr, s) ← s.takeSlot t
    return (some objPtr, s)

/-- The relinking or release at the end of a slab's `dealloc`. -/
def settleSlab (t : ElementLayout) (src : PageSource σ) (s : SlabCache σ) (slabBase : Nat)
    (wasFull : Bool) : Except Panic (SlabCache σ) := do
  if wasFull then return s.linkPartial slabBase
  else if isEmpty s.mem slabBase then
    let s := s.unlinkPartial slabBase
    let (pages, mem) ← src.deallocPage s.pages s.mem slabBase s.inner.slabOrder
    let s := { s with pages, mem, calls := .handedBack slabBase s.inner.slabOrder :: s.calls }
    let totalBytes ← checkedSub s.inner.stats.totalBytes (slabBytes s.inner.slabOrder)
    let freeBytes ← checkedSub s.inner.stats.freeBytes (s.inner.capacity * t.size)
    return s.withStats { s.inner.stats with totalBytes, freeBytes }
  else return s

def dealloc (t : ElementLayout) (src : PageSource σ) (s : SlabCache σ) (objPtr : Nat) :
    Except Panic (SlabCache σ) := do
  let bytes := slabBytes s.inner.slabOrder
  let stride := headerStride t
  let slabBase := objPtr &&& wordNot 64 (bytes - 1)
  require (inUseOf s.mem slabBase > 0) "dealloc on empty slab"
  require (objPtr ≥ slabBase + stride) "obj_ptr precedes object region"
  require (objPtr + t.size ≤ slabBase + bytes) "obj_ptr outside slab bounds"
  let slotIdx := (objPtr - (slabBase + stride)) / t.size
  let wasFull := isFull s.mem slabBase
  let m := s.mem.write objPtr (freeHeadOf s.mem slabBase)
  let m := setFreeHead m slabBase slotIdx
  let m := setInUse m slabBase (inUseOf m slabBase - 1)
  let s ← settleSlab t src { s with mem := m } slabBase wasFull
  let usedBytes ← checkedSub s.inner.stats.usedBytes t.size
  return s.withStats { s.inner.stats with
    deallocCount := s.inner.stats.deallocCount + 1
    usedBytes
    freeBytes := s.inner.stats.freeBytes + t.size }

end SlabCache

def SlabCache.new {σ : Type} (t : ElementLayout) (slabOrder : Nat) (mem : Memory) (pages : σ) :
    Except Panic (SlabCache σ) := do
  let inner ← SlabCacheInner.new t slabOrder
  return ⟨inner, mem, pages, []⟩

end CrustyOs.Abalone.Slab
