import CrustyOs.Lib.Runs
import CrustyOs.Mantle.Walker

/-! `mantle/src/pml4.rs`: the kernel's own page tables. -/
namespace CrustyOs.Mantle.Pml4
open Lib Abalone

variable {σ : Type} (P : Paging) (B : FrameSource σ) (hhdm : Nat)

def outOfMemory : Panic := .expect "pml4: buddy OOM during page table construction"

def allocZeroFrame (s : Machine σ) : Except Panic (Nat × Machine σ) := do
  let (found, s) ← s.request B
  match found with
  | none => .error outOfMemory
  | some virt =>
    let phys ← checkedSub virt hhdm
    return (phys, { s with mem := PageTable.zero s.mem virt })

def descendOrCreate (s : Machine σ) (tablePhys vaddr level : Nat) : Except Panic (Nat × Machine σ) := do
  let table ← checkedAdd tablePhys hhdm
  let idx := P.vaddrPtIndex vaddr level
  let entry ← PageTable.read s.mem table idx
  if P.pteIsPresent entry then return (P.ptePhysAddr entry pageSize, s)
  else
    let (childPhys, s) ← allocZeroFrame B hhdm s
    let e := P.pteEncode childPhys pageSize (P.flags.present ||| P.flags.writable)
    let mem ← PageTable.write s.mem table idx e
    return (childPhys, { s with mem })

def hugeFlags (F : PteFlags) : Nat :=
  F.present ||| F.writable ||| F.noExecute ||| F.hugePage ||| F.global

def hhdmPage (pml4Phys i : Nat) (s : Machine σ) : Except Panic (Machine σ) := do
  let phys := i * huge2M
  let virt ← checkedAdd hhdm phys
  let (pdptPhys, s) ← descendOrCreate P B hhdm s pml4Phys virt 4
  let (pdPhys, s) ← descendOrCreate P B hhdm s pdptPhys virt 3
  let pd ← checkedAdd pdPhys hhdm
  let idx := P.vaddrPtIndex virt 2
  let pde := P.pteEncode phys huge2M (hugeFlags P.flags)
  let mem ← PageTable.write s.mem pd idx pde
  return { s with mem }

def mapHhdm2m (s : Machine σ) (pml4Phys physMemSize : Nat) : Except Panic (Machine σ) := do
  let padded ← checkedAdd physMemSize huge2M
  forRange (hhdmPage P B hhdm pml4Phys) ((padded - 1) / huge2M) s

def rangePage (pml4Phys virtStart physStart : Nat) (prot : Protection) (i : Nat) (s : Machine σ) :
    Except Panic (Machine σ) := do
  let virt ← checkedAdd virtStart (i * pageSize)
  let phys ← checkedAdd physStart (i * pageSize)
  let (pdptPhys, s) ← descendOrCreate P B hhdm s pml4Phys virt 4
  let (pdPhys, s) ← descendOrCreate P B hhdm s pdptPhys virt 3
  let (ptPhys, s) ← descendOrCreate P B hhdm s pdPhys virt 2
  let pt ← checkedAdd ptPhys hhdm
  let idx := P.vaddrPtIndex virt 1
  let leaf := P.pteEncode phys pageSize (P.flags.present ||| prot.bits)
  let mem ← PageTable.write s.mem pt idx leaf
  return { s with mem }

def mapRange4k (s : Machine σ) (pml4Phys virtStart physStart pages : Nat) (prot : Protection) :
    Except Panic (Machine σ) :=
  forRange (rangePage P B hhdm pml4Phys virtStart physStart prot) pages s

def installKernelPml4 (s : Machine σ)
    (kernelVirtStart kernelVirtEnd kernelPhysStart physMemSize : Nat) : Except Panic (Machine σ) := do
  let (pml4Phys, s) ← allocZeroFrame B hhdm s
  let s ← mapHhdm2m P B hhdm s pml4Phys physMemSize
  let span ← checkedSub kernelVirtEnd kernelVirtStart
  let padded ← checkedAdd span pageSize
  let kernelPages := (padded - 1) / pageSize
  let s ← mapRange4k P B hhdm s pml4Phys kernelVirtStart kernelPhysStart kernelPages
    (Protection.kernelRwxBoot P.flags)
  return { s with cr3 := pml4Phys }

end CrustyOs.Mantle.Pml4
