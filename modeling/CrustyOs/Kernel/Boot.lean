import CrustyOs.Abalone.BuddyCuts
import CrustyOs.Abalone.Tlsf

/-! The memory map of `src/limine_data.rs` and the three places of the boot that register
pages: `memory/heap.rs`, `LimineData::release`, and `main.rs` around the stack switch. -/
namespace CrustyOs.Kernel
open Lib Abalone

/-- `align_up` and `align_down` of the `bitwise` crate, which is not in the repository. -/
structure AlignOps where
  alignUp : Nat → Nat → Nat
  alignDown : Nat → Nat → Nat

/-- Rounding to a power of two, where the result stays in the word. -/
structure AlignOps.Lawful (A : AlignOps) : Prop where
  up : ∀ v k, v + (2 ^ k - 1) < 2 ^ 64 → A.alignUp v (2 ^ k) = (v + (2 ^ k - 1)) / 2 ^ k * 2 ^ k
  down : ∀ v k, v < 2 ^ 64 → k < 64 → A.alignDown v (2 ^ k) = v / 2 ^ k * 2 ^ k

def AlignOps.exact : AlignOps := ⟨fun v a => (v + (a - 1)) / a * a, fun v a => v / a * a⟩

theorem AlignOps.exact_lawful : AlignOps.exact.Lawful := ⟨fun _ _ _ => rfl, fun _ _ _ _ => rfl⟩

inductive MemoryRegionType where
  | usable
  | bootloaderReclaimable
  | acpiReclaimable
  | acpiNvs
  | executableAndModules
  | framebuffer
  | badMemory
  | reserved
  deriving DecidableEq, Repr

namespace MemoryRegionType

def isImmediatelyUsable : MemoryRegionType → Bool
  | usable => true
  | _ => false

def isReclaimable : MemoryRegionType → Bool
  | bootloaderReclaimable | acpiReclaimable => true
  | _ => false

end MemoryRegionType

/-- A region whose end and whose rounded base are 64-bit words; `end()` and
`aligned_base()` would overflow on any other. -/
structure MemoryRegion where
  base : Nat
  length : Nat
  regionType : MemoryRegionType
  ends : base + length < 2 ^ 64
  rounds : base + 4095 < 2 ^ 64

namespace MemoryRegion

def endAddr (r : MemoryRegion) : Nat := r.base + r.length
def alignedBase (A : AlignOps) (r : MemoryRegion) : Nat := A.alignUp r.base 4096
def alignedEnd (A : AlignOps) (r : MemoryRegion) : Nat := A.alignDown r.endAddr 4096

/-! Bases of the maps below. -/

theorem rounds_page : 0x1000 + 4095 < 2 ^ 64 := by decide
theorem rounds_megabyte : 0x100000 + 4095 < 2 ^ 64 := by decide

end MemoryRegion

structure FramebufferInfo where
  virtAddr : Nat
  physAddr : Nat
  byteSize : Nat

/-- What `harvest` leaves behind. The kernel's physical end is its start plus its size,
rounded up to a page. -/
structure LimineData where
  hhdmOffset : Nat
  kernelPhysStart : Nat
  kernelPhysEnd : Nat
  kernelVirtStart : Nat
  kernelVirtEnd : Nat
  regions : List MemoryRegion
  framebuffer : Option FramebufferInfo
  image : kernelPhysStart ≤ kernelPhysEnd
  rounds : kernelPhysEnd + 4095 < 2 ^ 64

abbrev Calls := BuddyAllocator.Calls

namespace LimineData
variable (A : AlignOps) (d : LimineData)

def reclaimableRegions : List MemoryRegion := d.regions.filter fun r => r.regionType.isReclaimable

/-! `heap::init`. -/

/-- Pass 1: the lowest aligned base, in the HHDM. -/
def minVirt : Option Nat :=
  ((d.regions.filter fun r => r.regionType.isImmediatelyUsable).map
    fun r => d.hhdmOffset + r.alignedBase A).min?

/-- Case 1 of pass 2: a region extends below the kernel. -/
def lowerPart (base stop : Nat) : Calls :=
  let kernelPhysStart := A.alignDown d.kernelPhysStart 4096
  if base < kernelPhysStart then
    let partEnd := min stop kernelPhysStart
    let pageCount := (partEnd - base) / 4096
    if pageCount > 0 then [(d.hhdmOffset + base, pageCount)] else []
  else []

/-- Case 2 of pass 2: a region extends above the kernel. -/
def upperPart (base stop : Nat) : Calls :=
  let kernelPhysEnd := A.alignUp d.kernelPhysEnd 4096
  if stop > kernelPhysEnd then
    let partStart := max base kernelPhysEnd
    let pageCount := (stop - partStart) / 4096
    if pageCount > 0 then [(d.hhdmOffset + partStart, pageCount)] else []
  else []

def punchOut (r : MemoryRegion) : Calls :=
  let base := r.alignedBase A
  let stop := r.alignedEnd A
  if r.regionType ≠ .usable then []
  else if base ≥ stop then []
  else lowerPart A d base stop ++ upperPart A d base stop

def initCalls : Calls := d.regions.flatMap (punchOut A d)

def heapInit (s : BuddyAllocator.System) : Except Panic (BuddyAllocator.System × TlsfInner) := do
  match minVirt A d with
  | none => .error (.expect "no usable memory")
  | some minVirt =>
    let buddy ← s.buddy.setBase minVirt
    let s ← BuddyAllocator.registerAll { s with buddy } (initCalls A d)
    let (mem, buddy, m) ← s.buddy.allocPages s.mem 10
    match mem with
    | none => .error (.expect "TLSF init: buddy OOM")
    | some mem =>
      let (heap, m) ← TlsfInner.new.addPool m mem (4096 <<< 10)
      return ({ s with buddy, mem := m, live := ⟨mem, 10⟩ :: s.live }, heap)

/-! `LimineData::release`. -/

def spPhysPage (offset : Nat) : Nat := offset &&& wordNot 64 0xFFF

def releaseRegion (sp : Nat) (r : MemoryRegion) : Calls :=
  let base := r.alignedBase A
  let stop := r.alignedEnd A
  if base ≥ stop then []
  else if base < 0x100000 then []
  -- the region of the current stack pointer is left to `kernel_main_continue`
  else if sp ≥ base ∧ sp < stop then []
  else
    let pageCount := (stop - base) / 4096
    if pageCount = 0 then [] else [(d.hhdmOffset + base, pageCount)]

def releaseCalls (sp : Nat) : Calls := d.reclaimableRegions.flatMap (releaseRegion A d sp)

def release (currentSp : Nat) (s : BuddyAllocator.System) : Except Panic BuddyAllocator.System := do
  let offset ← checkedSub currentSp d.hhdmOffset
  BuddyAllocator.registerAll s (releaseCalls A d (spPhysPage offset))

/-! `kernel_main` and `kernel_main_continue`. -/

def bootStackRegion (sp : Nat) : Option (Nat × Nat) :=
  (d.reclaimableRegions.find? fun r =>
    let base := r.alignedBase A
    let stop := r.alignedEnd A
    base ≥ 0x100000 ∧ base < stop ∧ sp ≥ base ∧ sp < stop).bind fun r =>
      let base := r.alignedBase A
      let stop := r.alignedEnd A
      let pages := (stop - base) / 4096
      if pages > 0 then some (d.hhdmOffset + base, pages) else none

def kernelMainContinue (region : Option (Nat × Nat)) (s : BuddyAllocator.System) :
    Except Panic BuddyAllocator.System := BuddyAllocator.registerAll s region.toList

end LimineData
end CrustyOs.Kernel
