import CrustyOs.Abalone.Config
import CrustyOs.Lib.Bits
import CrustyOs.Lib.Memory

/-! The two-level segregated fit allocator of `abalone/src/tlsf.rs`.
Blocks carry their headers in memory; a block is the address of its header. -/
namespace CrustyOs.Abalone
open Lib

namespace Tlsf

def slIndexCount : Nat := 5
def flIndexCount : Nat := 30
def slCount : Nat := 1 <<< slIndexCount
def blockMin : Nat := 32
def freeBit : Nat := 1
def prevPhysBit : Nat := 2

/-! `BlockHeader`: four words. The field and the method `prev_free` of the source
are `prevFree` and `isPrevFree`. -/

def headerSize : Nat := 32

def sizeWord (m : Memory) (b : Nat) : Nat := m.read b
def prevPhys (m : Memory) (b : Nat) : Nat := m.read (b + 8)
def nextFree (m : Memory) (b : Nat) : Nat := m.read (b + 16)
def prevFree (m : Memory) (b : Nat) : Nat := m.read (b + 24)

def blockSize (m : Memory) (b : Nat) : Nat := sizeWord m b &&& wordNot 64 (freeBit ||| prevPhysBit)
def isFree (m : Memory) (b : Nat) : Bool := sizeWord m b &&& freeBit != 0
def isPrevFree (m : Memory) (b : Nat) : Bool := sizeWord m b &&& prevPhysBit != 0

def setSize (m : Memory) (b s : Nat) : Memory :=
  m.write b ((sizeWord m b &&& (freeBit ||| prevPhysBit)) ||| s)

def setFree (m : Memory) (b : Nat) (f : Bool) : Memory :=
  m.write b (if f then sizeWord m b ||| freeBit else sizeWord m b &&& wordNot 64 freeBit)

def setPrevFree (m : Memory) (b : Nat) (f : Bool) : Memory :=
  m.write b (if f then sizeWord m b ||| prevPhysBit else sizeWord m b &&& wordNot 64 prevPhysBit)

def payload (b : Nat) : Nat := b + headerSize
def nextPhys (m : Memory) (b : Nat) : Nat := b + headerSize + blockSize m b

def writeHeader (m : Memory) (b size prevPhys nextFree prevFree : Nat) : Memory :=
  (((m.write b size).write (b + 8) prevPhys).write (b + 16) nextFree).write (b + 24) prevFree

/-- `usize::BITS - 1 - x.leading_zeros()`. -/
def highBit (x : Nat) : Except Panic Nat :=
  if x = 0 then .error .subtractOverflow else .ok (Nat.log2 x)

def mapping (size : Nat) : Except Panic (Nat × Nat) := do
  let fl ← highBit size
  let sl := (if fl < slIndexCount then size <<< (slIndexCount - fl) else size >>> (fl - slIndexCount))
    &&& (slCount - 1)
  return (fl, sl)

def mappingSearch (size : Nat) : Except Panic (Nat × Nat) := do
  let round ← if size ≥ 1 <<< slIndexCount then do
      let high ← highBit size
      pure ((1 <<< (high - slIndexCount)) - 1)
    else pure 0
  let size ← checkedAdd size round
  mapping size

end Tlsf

open Tlsf

/-- `slBitmap` has `flIndexCount` entries and `freeLists` as many rows of `slCount`. -/
structure TlsfInner where
  flBitmap : Nat
  slBitmap : Nat → Nat
  freeLists : Nat → Nat → Nat

namespace TlsfInner

def new : TlsfInner := ⟨0, fun _ => 0, fun _ _ => 0⟩

/-- `self.free_lists[fl][sl]`. -/
def head (t : TlsfInner) (fl sl : Nat) : Except Panic Nat :=
  if fl < flIndexCount ∧ sl < slCount then .ok (t.freeLists fl sl) else .error .indexOutOfBounds

def setHead (t : TlsfInner) (fl sl block : Nat) : TlsfInner :=
  { t with freeLists := fun i j => if i = fl ∧ j = sl then block else t.freeLists i j }

def slBits (t : TlsfInner) (fl : Nat) : Except Panic Nat :=
  if fl < flIndexCount then .ok (t.slBitmap fl) else .error .indexOutOfBounds

def setSlBits (t : TlsfInner) (fl bits : Nat) : TlsfInner :=
  { t with slBitmap := fun i => if i = fl then bits else t.slBitmap i }

def insertFree (t : TlsfInner) (m : Memory) (block : Nat) : Except Panic (TlsfInner × Memory) := do
  let (fl, sl) ← mapping (blockSize m block)
  let head ← t.head fl sl
  let m := (m.write (block + 16) head).write (block + 24) 0
  let m := if head ≠ 0 then m.write (head + 24) block else m
  let t := t.setHead fl sl block
  let t := { t with flBitmap := t.flBitmap ||| (1 <<< fl) }
  let t := t.setSlBits fl (t.slBitmap fl ||| (1 <<< sl))
  return (t, setFree m block true)

def clearBits (t : TlsfInner) (fl sl : Nat) : TlsfInner :=
  let t := t.setSlBits fl (t.slBitmap fl &&& wordNot 32 (1 <<< sl))
  if t.slBitmap fl = 0 then { t with flBitmap := t.flBitmap &&& wordNot 32 (1 <<< fl) } else t

def removeFree (t : TlsfInner) (m : Memory) (block : Nat) : Except Panic (TlsfInner × Memory) := do
  let (fl, sl) ← mapping (blockSize m block)
  let prev := prevFree m block
  let next := nextFree m block
  let head ← t.head fl sl
  let m := if prev ≠ 0 then m.write (prev + 16) next else m
  let head := if prev ≠ 0 then head else next
  let t := if prev ≠ 0 then t else t.setHead fl sl next
  let m := if next ≠ 0 then m.write (next + 24) prev else m
  let t := if head = 0 then t.clearBits fl sl else t
  return (t, setFree m block false)

def findFree (t : TlsfInner) (size : Nat) : Except Panic (Option Nat) := do
  let (fl, sl) ← mappingSearch size
  let slMap := (← t.slBits fl) >>> sl
  if slMap ≠ 0 then
    return some (← t.head fl (sl + trailingZeros 32 slMap))
  else
    let flMap := t.flBitmap >>> (fl + 1)
    if flMap = 0 then return none
    else
      let fl := fl + 1 + trailingZeros 32 flMap
      let sl := trailingZeros 32 (← t.slBits fl)
      return some (← t.head fl sl)

/-- The size `alloc` works with: at least `blockMin`, rounded up to whole words. -/
def roundSize (size : Nat) : Except Panic Nat := do
  let size ← checkedAdd (max size blockMin) (8 - 1)
  return size &&& wordNot 64 (8 - 1)

def wrappingSub (a b : Nat) : Nat := (a + 2 ^ 64 - b) % 2 ^ 64

def splitBlock (t : TlsfInner) (m : Memory) (block size remainder : Nat) :
    Except Panic (TlsfInner × Memory) := do
  let m := setSize m block size
  let next := nextPhys m block
  let m := setSize m next (remainder - headerSize)
  let m := m.write (next + 8) block
  let m := setPrevFree m next false
  let (t, m) ← t.insertFree m next
  let after := nextPhys m next
  return (t, m.write (after + 8) next)

def alloc (t : TlsfInner) (m : Memory) (size : Nat) :
    Except Panic (Option Nat × TlsfInner × Memory) := do
  let size ← roundSize size
  match ← t.findFree size with
  | none => return (none, t, m)
  | some block =>
    let (t, m) ← t.removeFree m block
    let remainder := wrappingSub (blockSize m block) size
    let (t, m) ← if remainder ≥ headerSize + blockMin then t.splitBlock m block size remainder
      else pure (t, m)
    let next := nextPhys m block
    return (some (payload block), t, setPrevFree m next false)

/-- The block that absorbs a freed one from behind: its predecessor, if that is free. -/
def mergePrev (t : TlsfInner) (m : Memory) (block : Nat) : Except Panic (Nat × TlsfInner × Memory) :=
  if isPrevFree m block then do
    let prev := prevPhys m block
    let (t, m) ← t.removeFree m prev
    let combined ← checkedAdd (blockSize m prev + headerSize) (blockSize m block)
    return (prev, t, setSize m prev combined)
  else return (block, t, m)

def mergeNext (t : TlsfInner) (m : Memory) (merged : Nat) : Except Panic (TlsfInner × Memory) :=
  let next := nextPhys m merged
  if isFree m next then do
    let (t, m) ← t.removeFree m next
    let combined ← checkedAdd (blockSize m merged + headerSize) (blockSize m next)
    return (t, setSize m merged combined)
  else return (t, m)

def dealloc (t : TlsfInner) (m : Memory) (ptr : Nat) : Except Panic (TlsfInner × Memory) := do
  let block := ptr - headerSize
  let (merged, t, m) ← t.mergePrev m block
  let (t, m) ← t.mergeNext m merged
  let (t, m) ← t.insertFree m merged
  let after := nextPhys m merged
  return (t, setPrevFree m after true)

def addPool (t : TlsfInner) (m : Memory) (mem size : Nat) : Except Panic (TlsfInner × Memory) := do
  require (size > 2 * headerSize + blockMin) "pool too small"
  let sentinel := mem + (size - headerSize)
  let m := writeHeader m sentinel 0 0 0 0
  let m := writeHeader m mem (size - 2 * headerSize) 0 0 0
  let m := setPrevFree m mem false
  let m := m.write (sentinel + 8) mem
  t.insertFree m mem

end TlsfInner
end CrustyOs.Abalone
