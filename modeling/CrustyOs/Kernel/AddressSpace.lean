import CrustyOs.Kernel.Boot
import CrustyOs.Mantle.Pml4

/-! The page-table steps of `kernel_main`: the device mappings, the kernel stack of
`memory/stack.rs`, and the kernel's own tables. `vmm::get()` is the walker at the HHDM offset. -/
namespace CrustyOs.Kernel
open Lib Abalone Mantle

variable {σ : Type} (P : Paging) (B : FrameSource σ)

def lapicPhys : Nat := 0xFEE00000
def lapicSize : Nat := 0x1000

def expectMapped (message : String) : Except MapError Unit × Machine σ → Except Panic (Machine σ)
  | (.error _, _) => .error (.expect message)
  | (.ok (), s) => .ok s

namespace LimineData
variable (d : LimineData)

def physMemSize : Nat := (d.regions.map MemoryRegion.endAddr).max?.getD 0

def mapLapic (s : Machine σ) : Except Panic (Machine σ) := do
  let lapicVirt ← checkedAdd d.hhdmOffset lapicPhys
  let mapped ← PageTableWalker.mapMmio P B ⟨d.hhdmOffset⟩ s lapicVirt lapicPhys lapicSize
    (Protection.mmioUc P.flags)
  expectMapped "LAPIC MMIO map failed" mapped

def mapFramebuffer (fb : FramebufferInfo) (s : Machine σ) : Except Panic (Machine σ) := do
  let mapped ← PageTableWalker.mapMmio P B ⟨d.hhdmOffset⟩ s fb.virtAddr fb.physAddr fb.byteSize
    (Protection.mmioWc P.flags)
  expectMapped "fb MMIO map failed" mapped

/-- Steps 4.5 and 5 of `kernel_main`. -/
def mapDevices (apicSupported : Bool) (s : Machine σ) : Except Panic (Machine σ) := do
  let s ← (if apicSupported then d.mapLapic P B s else .ok s)
  match d.framebuffer with
  | none => .ok s
  | some fb => d.mapFramebuffer P B fb s

def installKernelPml4 (s : Machine σ) : Except Panic (Machine σ) :=
  Pml4.installKernelPml4 P B d.hhdmOffset s d.kernelVirtStart d.kernelVirtEnd d.kernelPhysStart
    d.physMemSize

end LimineData

structure KernelStack where
  top : Nat
  guardVirt : Nat
  deriving DecidableEq, Repr

/-- Step 6, over an allocator of blocks of every order. -/
def allocKernelStack (blocks : Nat → FrameSource σ) (w : PageTableWalker) (minPages : Nat)
    (s : Machine σ) : Except Panic (KernelStack × Machine σ) := do
  let count ← checkedAdd minPages 1
  let totalOrder := count.nextPowerOfTwo.log2
  let totalPages := 1 <<< totalOrder
  let (found, buddy, word) ← blocks totalOrder s.buddy s.mem.word
  match found with
  | none => .error (.expect "kernel stack OOM")
  | some baseVirt =>
    let s ← w.unmap P { s with buddy, mem := ⟨word, s.mem.stores⟩ } baseVirt
    let top ← checkedAdd baseVirt (totalPages * 0x1000)
    return (⟨top, baseVirt⟩, s)

end CrustyOs.Kernel
