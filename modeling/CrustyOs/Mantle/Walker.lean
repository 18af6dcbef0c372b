import CrustyOs.Abalone.Config
import CrustyOs.Lib.Memory
import CrustyOs.Mantle.Paging

/-! `PageTableWalker` of `mantle/src/walker.rs` over a memory of words. Page tables are
reached at their physical address plus the HHDM offset. The TLB is not modelled:
every write of a live entry is followed by `invlpg`. -/
namespace CrustyOs.Mantle
open Lib Abalone

/-! `table.rs`. -/

namespace PageTable

def read (m : Memory) (table index : Nat) : Except Panic Nat :=
  if index < 512 then .ok (m.read (table + 8 * index)) else .error .indexOutOfBounds

def write (m : Memory) (table index value : Nat) : Except Panic Memory :=
  if index < 512 then .ok (m.write (table + 8 * index) value) else .error .indexOutOfBounds

def zero (m : Memory) (table : Nat) : Memory := m.fill table 0 512

end PageTable

/-- `abalone::buddy::alloc_pages(0)`, over the words of memory: the allocator keeps its
links in the pages it owns. -/
def FrameSource (σ : Type) := σ → (Nat → Nat) → Except Panic (Option Nat × σ × (Nat → Nat))

/-- The registers and memory that page-table code works on. The stores in `mem` are those of
page-table code alone, and `granted` lists the frames that the allocator gave it. -/
structure Machine (σ : Type) where
  cr3 : Nat
  mem : Memory
  buddy : σ
  granted : List Nat

variable {σ : Type}

def Machine.request (B : FrameSource σ) (s : Machine σ) : Except Panic (Option Nat × Machine σ) := do
  let (found, buddy, word) ← B s.buddy s.mem.word
  let s := { s with buddy, mem := ⟨word, s.mem.stores⟩ }
  match found with
  | none => return (none, s)
  | some virt => return (some virt, { s with granted := virt :: s.granted })

inductive MapError where
  | outOfFrames
  | misaligned
  deriving DecidableEq, Repr

structure PageTableWalker where
  hhdm : Nat

namespace PageTableWalker

variable (P : Paging) (B : FrameSource σ) (w : PageTableWalker)

def pml4Phys (s : Machine σ) : Nat := s.cr3 &&& wordNot 64 0xFFF

def tableAtPhys (phys : Nat) : Except Panic Nat := checkedAdd phys w.hhdm

def allocTableFrame (s : Machine σ) : Except Panic (Option Nat × Machine σ) := do
  let (found, s) ← s.request B
  match found with
  | none => return (none, s)
  | some virt =>
    require (virt ≥ w.hhdm) "buddy returned address below HHDM"
    return (some virt, { s with mem := PageTable.zero s.mem virt })

def descendOrCreate (s : Machine σ) (tablePhys vaddr level : Nat) :
    Except Panic (Except MapError Nat × Machine σ) := do
  let table ← w.tableAtPhys tablePhys
  let idx := P.vaddrPtIndex vaddr level
  let entry ← PageTable.read s.mem table idx
  if P.pteIsPresent entry then return (.ok (P.ptePhysAddr entry pageSize), s)
  else
    let (frame, s) ← w.allocTableFrame B s
    match frame with
    | none => return (.error .outOfFrames, s)
    | some frameVirt =>
      let framePhys ← checkedSub frameVirt w.hhdm
      let newEntry := P.pteEncode framePhys pageSize (P.flags.present ||| P.flags.writable)
      let mem ← PageTable.write s.mem table idx newEntry
      return (.ok framePhys, { s with mem })

def writeLeaf (s : Machine σ) (ptPhys vaddr phys : Nat) (prot : Protection) :
    Except Panic (Option Nat × Machine σ) := do
  let pt ← w.tableAtPhys ptPhys
  let idx := P.vaddrPtIndex vaddr 1
  let old ← PageTable.read s.mem pt idx
  let oldFrame := if P.pteIsPresent old then some (P.ptePhysAddr old pageSize) else none
  let leaf := P.pteEncode phys pageSize (P.flags.present ||| prot.bits)
  let mem ← PageTable.write s.mem pt idx leaf
  return (oldFrame, { s with mem })

def map (s : Machine σ) (vaddr phys : Nat) (prot : Protection) :
    Except Panic (Except MapError (Option Nat) × Machine σ) := do
  if vaddr &&& (pageSize - 1) ≠ 0 ∨ phys &&& (pageSize - 1) ≠ 0 then return (.error .misaligned, s)
  else
    let (pdptPhys, s) ← w.descendOrCreate P B s (pml4Phys s) vaddr 4
    match pdptPhys with
    | .error e => return (.error e, s)
    | .ok pdptPhys =>
      let (pdPhys, s) ← w.descendOrCreate P B s pdptPhys vaddr 3
      match pdPhys with
      | .error e => return (.error e, s)
      | .ok pdPhys =>
        let (ptPhys, s) ← w.descendOrCreate P B s pdPhys vaddr 2
        match ptPhys with
        | .error e => return (.error e, s)
        | .ok ptPhys =>
          let (oldFrame, s) ← w.writeLeaf P s ptPhys vaddr phys prot
          return (.ok oldFrame, s)

def walkExisting (s : Machine σ) (tablePhys vaddr level : Nat) : Except Panic (Option Nat) := do
  let table ← w.tableAtPhys tablePhys
  let entry ← PageTable.read s.mem table (P.vaddrPtIndex vaddr level)
  if P.pteIsPresent entry && !P.pteIsHuge entry then return some (P.ptePhysAddr entry pageSize)
  else return none

def unmap (s : Machine σ) (vaddr : Nat) : Except Panic (Machine σ) := do
  match ← w.walkExisting P s (pml4Phys s) vaddr 4 with
  | none => return s
  | some pdptPhys =>
    match ← w.walkExisting P s pdptPhys vaddr 3 with
    | none => return s
    | some pdPhys =>
      match ← w.walkExisting P s pdPhys vaddr 2 with
      | none => return s
      | some ptPhys =>
        let pt ← w.tableAtPhys ptPhys
        let mem ← PageTable.write s.mem pt (P.vaddrPtIndex vaddr 1) 0
        return { s with mem }

def translate (s : Machine σ) (vaddr : Nat) : Except Panic (Option Nat) := do
  let pml4 ← w.tableAtPhys (pml4Phys s)
  let pdptEntry ← PageTable.read s.mem pml4 (P.vaddrPtIndex vaddr 4)
  if !P.pteIsPresent pdptEntry then return none
  else
    let pdpt ← w.tableAtPhys (P.ptePhysAddr pdptEntry pageSize)
    let pdEntry ← PageTable.read s.mem pdpt (P.vaddrPtIndex vaddr 3)
    if !P.pteIsPresent pdEntry then return none
    else if P.pteIsHuge pdEntry then
      return some (P.ptePhysAddr pdEntry huge1G + (vaddr &&& 0x3FFFFFFF))
    else
      let pd ← w.tableAtPhys (P.ptePhysAddr pdEntry pageSize)
      let ptEntry ← PageTable.read s.mem pd (P.vaddrPtIndex vaddr 2)
      if !P.pteIsPresent ptEntry then return none
      else if P.pteIsHuge ptEntry then
        return some (P.ptePhysAddr ptEntry huge2M + (vaddr &&& 0x1FFFFF))
      else
        let pt ← w.tableAtPhys (P.ptePhysAddr ptEntry pageSize)
        let leaf ← PageTable.read s.mem pt (P.vaddrPtIndex vaddr 1)
        if !P.pteIsPresent leaf then return none
        else return some (P.ptePhysAddr leaf pageSize + (vaddr &&& (pageSize - 1)))

/-- The loop of `map_mmio`, which ends at the first page that `map` refuses. -/
def mapPages (virtStart physStart : Nat) (prot : Protection) :
    Nat → Machine σ → Except Panic (Except MapError Unit × Machine σ)
  | 0, s => return (.ok (), s)
  | i + 1, s => do
    let (done, s) ← mapPages virtStart physStart prot i s
    match done with
    | .error e => return (.error e, s)
    | .ok () =>
      let virt ← checkedAdd virtStart (i * pageSize)
      let phys ← checkedAdd physStart (i * pageSize)
      let (old, s) ← w.map P B s virt phys prot
      match old with
      | .error e => return (.error e, s)
      | .ok _ => return (.ok (), s)

def mapMmio (s : Machine σ) (virtStart physStart size : Nat) (prot : Protection) :
    Except Panic (Except MapError Unit × Machine σ) := do
  let padded ← checkedAdd size pageSize
  w.mapPages P B virtStart physStart prot ((padded - 1) / pageSize) s

end PageTableWalker
end CrustyOs.Mantle
