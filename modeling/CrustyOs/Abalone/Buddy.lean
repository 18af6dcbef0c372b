import CrustyOs.Abalone.Config
import CrustyOs.Lib.Bits
import CrustyOs.Lib.Memory

/-! The binary buddy allocator of `abalone/src/buddy.rs`.
The free lists are threaded through the free blocks themselves, so every
operation runs on an allocator and the memory it lives in. A pointer is an
address and the null pointer is 0. -/
namespace CrustyOs.Abalone
open Lib

/-! `FreeBlock`: the overlay on the first 16 bytes of a free block. -/

def prevOf (m : Memory) (node : Nat) : Nat := m.read node
def nextOf (m : Memory) (node : Nat) : Nat := m.read (node + 8)
def setPrev (m : Memory) (node v : Nat) : Memory := m.write node v
def setNext (m : Memory) (node v : Nat) : Memory := m.write (node + 8) v

/-- `words: [u64; (1 << (BUDDY_MAX_ORDER - 1)) / 64 + 1]`, by word index. -/
structure Bitmap where
  words : Nat → Nat

namespace Bitmap

def wordCount : Nat := (1 <<< (buddyMaxOrder - 1)) / 64 + 1

def new : Bitmap := ⟨fun _ => 0⟩

def toggle (b : Bitmap) (bit : Nat) : Except Panic Bitmap :=
  if bit / 64 < wordCount then
    .ok ⟨fun i => if i = bit / 64 then b.words i ^^^ (1 <<< (bit % 64)) else b.words i⟩
  else .error .indexOutOfBounds

def test (b : Bitmap) (bit : Nat) : Except Panic Bool :=
  if bit / 64 < wordCount then .ok ((b.words (bit / 64) >>> (bit % 64)) &&& 1 == 1)
  else .error .indexOutOfBounds

end Bitmap

/-- `freeLists` and `bitmaps` hold one entry for each order below `buddyMaxOrder`. -/
structure BuddyAllocator where
  base : Nat
  totalPages : Nat
  freeLists : Nat → Nat
  bitmaps : Nat → Bitmap
  stats : AllocStats

namespace BuddyAllocator

def new : BuddyAllocator := ⟨0, 0, fun _ => 0, fun _ => Bitmap.new, AllocStats.zero⟩

def setFreeList (s : BuddyAllocator) (order head : Nat) : BuddyAllocator :=
  { s with freeLists := fun k => if k = order then head else s.freeLists k }

def toggle (s : BuddyAllocator) (order bit : Nat) : Except Panic BuddyAllocator := do
  let b ← (s.bitmaps order).toggle bit
  return { s with bitmaps := fun k => if k = order then b else s.bitmaps k }

def setBase (s : BuddyAllocator) (virtBase : Nat) : Except Panic BuddyAllocator := do
  require (s.totalPages == 0) "set_base must be called before add_region"
  require (virtBase % pageSize == 0) "assertion failed: virt_base % PAGE_SIZE == 0"
  return { s with base := virtBase }

def freeBlock (s : BuddyAllocator) (m : Memory) (pageIdx order : Nat) :
    Except Panic (BuddyAllocator × Memory) := do
  let node := s.base + pageIdx * pageSize
  let head := s.freeLists order
  let m := setNext (setPrev m node 0) node head
  let m := if head ≠ 0 then setPrev m head node else m
  let s ← (s.setFreeList order node).toggle order (pageIdx >>> (order + 1))
  return (s, m)

def nextOrder (offsetPages remaining : Nat) : Nat :=
  let alignOrder := min (if offsetPages = 0 then buddyMaxOrder - 1 else trailingZeros 64 offsetPages)
    (buddyMaxOrder - 1)
  let sizeOrder := min (Nat.log2 remaining) (buddyMaxOrder - 1)
  min alignOrder sizeOrder

/-- The `while remaining > 0` loop. Each round removes at least one page, so a
bound of `remaining` rounds is never used up. -/
def addRegionLoop : Nat → BuddyAllocator → Memory → Nat → Nat → Except Panic (BuddyAllocator × Memory)
  | 0, s, m, _, _ => .ok (s, m)
  | rounds + 1, s, m, offsetPages, remaining =>
    if remaining > 0 then do
      let order := nextOrder offsetPages remaining
      let blockPages := 1 <<< order
      let (s, m) ← s.freeBlock m offsetPages order
      addRegionLoop rounds s m (offsetPages + blockPages) (remaining - blockPages)
    else .ok (s, m)

def addRegion (s : BuddyAllocator) (m : Memory) (virtBase pageCount : Nat) :
    Except Panic (BuddyAllocator × Memory) := do
  require (s.base != 0) "call set_base before add_region"
  require (virtBase ≥ s.base) "region base precedes allocator base"
  let offsetPages := (virtBase - s.base) / pageSize
  let (s, m) ← addRegionLoop pageCount s m offsetPages pageCount
  let totalPages := s.totalPages + pageCount
  let totalBytes := totalPages * pageSize
  let freeBytes ← checkedSub totalBytes s.stats.usedBytes
  return ({ s with totalPages, stats := { s.stats with totalBytes, freeBytes } }, m)

/-- `(order..BUDDY_MAX_ORDER).find(|&k| !self.free_lists[k].is_null())`. -/
def findOrder (s : BuddyAllocator) (order : Nat) : Option Nat :=
  (List.range' order (buddyMaxOrder - order)).find? (fun k => s.freeLists k != 0)

/-- The `while current_order > order` loop, by the number of orders still to go
down: the current order is `order + steps`, the current page stays the lower half. -/
def splitLoop : Nat → BuddyAllocator → Memory → Nat → Nat → Except Panic (BuddyAllocator × Memory)
  | 0, s, m, _, _ => .ok (s, m)
  | steps + 1, s, m, currentPage, order => do
    let currentOrder := order + steps
    let buddyPage := currentPage + (1 <<< currentOrder)
    let (s, m) ← s.freeBlock m buddyPage currentOrder
    splitLoop steps s m currentPage order

def allocPages (s : BuddyAllocator) (m : Memory) (order : Nat) :
    Except Panic (Option Nat × BuddyAllocator × Memory) := do
  require (order < buddyMaxOrder) "order exceeds BUDDY_MAX_ORDER"
  match s.findOrder order with
  | none => return (none, s, m)
  | some foundOrder =>
    let blockPtr := s.freeLists foundOrder
    let next := nextOf m blockPtr
    let s := s.setFreeList foundOrder next
    let m := if next ≠ 0 then setPrev m next 0 else m
    let pageIdx := (blockPtr - s.base) / pageSize
    let s ← s.toggle foundOrder (pageIdx >>> (foundOrder + 1))
    let (s, m) ← splitLoop (foundOrder - order) s m pageIdx order
    let bytes := (1 <<< order) * pageSize
    let usedBytes := s.stats.usedBytes + bytes
    let freeBytes ← checkedSub s.stats.freeBytes bytes
    let stats := { s.stats with
      usedBytes, freeBytes
      allocCount := s.stats.allocCount + 1
      peakBytes := if usedBytes > s.stats.peakBytes then usedBytes else s.stats.peakBytes }
    return (some (s.base + pageIdx * pageSize), { s with stats }, m)

def unlinkBuddy (s : BuddyAllocator) (m : Memory) (buddy ord : Nat) : BuddyAllocator × Memory :=
  let s := if prevOf m buddy ≠ 0 then s else s.setFreeList ord (nextOf m buddy)
  let m₁ := if prevOf m buddy ≠ 0 then setNext m (prevOf m buddy) (nextOf m buddy) else m
  let m₂ := if nextOf m₁ buddy ≠ 0 then setPrev m₁ (nextOf m₁ buddy) (prevOf m₁ buddy) else m₁
  (s, m₂)

/-- The `while ord < BUDDY_MAX_ORDER - 1` loop, by the orders left below the top. -/
def mergeLoop : Nat → BuddyAllocator → Memory → Nat → Nat →
    Except Panic (BuddyAllocator × Memory × Nat × Nat)
  | 0, s, m, pageIdx, ord => .ok (s, m, pageIdx, ord)
  | left + 1, s, m, pageIdx, ord => do
    let buddyIdx := pageIdx ^^^ (1 <<< ord)
    let pairBit := pageIdx >>> (ord + 1)
    if ← (s.bitmaps ord).test pairBit then
      let buddyAddr := s.base + buddyIdx * pageSize
      let (s, m) := s.unlinkBuddy m buddyAddr ord
      let s ← s.toggle ord pairBit
      mergeLoop left s m (min pageIdx buddyIdx) (ord + 1)
    else return (s, m, pageIdx, ord)

def deallocPages (s : BuddyAllocator) (m : Memory) (ptr order : Nat) :
    Except Panic (BuddyAllocator × Memory) := do
  require (ptr ≥ s.base && (ptr - s.base) % pageSize == 0) "dealloc_pages: address not from this allocator"
  require (order < buddyMaxOrder) "order exceeds BUDDY_MAX_ORDER"
  let pageIdx := (ptr - s.base) / pageSize
  let (s, m, pageIdx, ord) ← mergeLoop (buddyMaxOrder - 1 - order) s m pageIdx order
  let (s, m) ← s.freeBlock m pageIdx ord
  let bytes := (1 <<< order) * pageSize
  let usedBytes ← checkedSub s.stats.usedBytes bytes
  let stats := { s.stats with
    usedBytes
    freeBytes := s.stats.freeBytes + bytes
    deallocCount := s.stats.deallocCount + 1 }
  return ({ s with stats }, m)

end BuddyAllocator
end CrustyOs.Abalone
