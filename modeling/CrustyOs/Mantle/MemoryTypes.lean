import CrustyOs.Mantle.KernelPml4

/-! What a leaf entry grants: its frame, its rights, and the memory type that it selects from the
page-attribute table. -/
namespace CrustyOs.Mantle
open Lib Pml4

inductive MemoryType where
  | uncacheable
  | writeCombining
  | writeThrough
  | writeProtected
  | writeBack
  | uncachedMinus
deriving DecidableEq, Repr

/-- The value that `init_pat` writes to `IA32_PAT`. -/
def patValue : Nat :=
  0x06 ||| 0x04 <<< 8 ||| 0x07 <<< 16 ||| 0x00 <<< 24 ||| 0x06 <<< 32 ||| 0x04 <<< 40 ||| 0x07 <<< 48 ||| 0x01 <<< 56

def patType (value index : Nat) : Option MemoryType :=
  match value / 2 ^ (8 * index) % 2 ^ 8 with
  | 0 => some .uncacheable
  | 1 => some .writeCombining
  | 4 => some .writeThrough
  | 5 => some .writeProtected
  | 6 => some .writeBack
  | 7 => some .uncachedMinus
  | _ => none

def patIndex (pat cacheDisable writeThrough : Bool) : Nat :=
  4 * pat.toNat + 2 * cacheDisable.toNat + writeThrough.toNat

/-- What the leaf for an address grants, with the table as `init_pat` leaves it. The tables above the
leaf can only take rights away. -/
structure Page where
  phys : Nat
  writable : Bool
  executable : Bool
  global : Bool
  memory : Option MemoryType
deriving DecidableEq, Repr

/-- A leaf as the processor reads it. In a huge page the third index bit is bit 12. -/
def pageOf (P : Paging) (vaddr : Nat) (leaf : Nat × Nat) : Page where
  phys := physOf P vaddr leaf
  writable := leaf.2.testBit 1
  executable := !leaf.2.testBit 63
  global := leaf.2.testBit 8
  memory := patType patValue
    (patIndex (leaf.2.testBit (if leaf.1 = 3 then 7 else 12)) (leaf.2.testBit 4) (leaf.2.testBit 3))

def Protection.page (prot : Protection) (phys : Nat) : Page where
  phys := phys
  writable := prot.bits.testBit 1
  executable := !prot.bits.testBit 63
  global := prot.bits.testBit 8
  memory := patType patValue (patIndex (prot.bits.testBit 7) (prot.bits.testBit 4) (prot.bits.testBit 3))

variable {P : Paging} {hhdm virtStart virtEnd physStart physMemSize phys u v i : Nat} {prot : Protection}

theorem X86.constants_page (x : X86 P) (phys : Nat) :
    (Protection.kernelRo P.flags).page phys = ⟨phys, false, false, true, some .writeBack⟩ ∧
      (Protection.kernelRw P.flags).page phys = ⟨phys, true, false, true, some .writeBack⟩ ∧
      (Protection.kernelRx P.flags).page phys = ⟨phys, false, true, true, some .writeBack⟩ ∧
      (Protection.kernelRwxBoot P.flags).page phys = ⟨phys, true, true, true, some .writeBack⟩ ∧
      (Protection.kernelRwx P.flags).page phys = ⟨phys, true, true, false, some .writeBack⟩ ∧
      (Protection.mmioUc P.flags).page phys = ⟨phys, true, false, false, some .uncacheable⟩ ∧
      (Protection.mmioWc P.flags).page phys = ⟨phys, true, false, false, some .writeCombining⟩ := by
  rw [x.flags]
  exact ⟨rfl, rfl, rfl, rfl, rfl, rfl, rfl⟩

theorem X86.leaf_rights (x : X86 P) (known : prot ∈ Protection.constants P.flags) (phys u : Nat) :
    pageOf P u (3, leafEntry P (phys, prot)) = prot.page (physOf P u (3, leafEntry P (phys, prot))) := by
  obtain ⟨outside, _⟩ := x.leaf_flags (x.policy known)
  obtain ⟨_, bits⟩ := x.encode_spec (Or.inl rfl) outside phys
  have bit : ∀ j, j < 12 ∨ 52 ≤ j → j ≠ 0 → (leafEntry P (phys, prot)).testBit j = prot.bits.testBit j := by
    intro j place other
    have flag : (P.flags.present ||| prot.bits).testBit j = prot.bits.testBit j := by
      rw [x.flags, Nat.testBit_or, Nat.testBit_two_pow_of_ne (Ne.symm other), Bool.false_or]
    exact (bits j place).trans flag
  unfold pageOf Protection.page
  simp only [if_true]
  rw [bit 1 (by decide) (by decide), bit 63 (by decide) (by decide), bit 8 (by decide) (by decide),
    bit 7 (by decide) (by decide), bit 4 (by decide) (by decide), bit 3 (by decide) (by decide)]

theorem X86.leaf_page (x : X86 P) (known : prot ∈ Protection.constants P.flags) (aligned : pageSize ∣ phys)
    (small : phys < 2 ^ 52) (u : Nat) :
    pageOf P u (3, leafEntry P (phys, prot)) = prot.page (phys + u % pageSize) := by
  obtain ⟨_, at_phys⟩ := x.leaf_entry (x.policy known)
  have frame : physOf P u (3, leafEntry P (phys, prot)) = phys + u % pageSize := by
    rw [physOf, leafEntry, at_phys, addressBits_of_dvd aligned small]
    · rintro ⟨⟩
    · rintro ⟨⟩
  rw [x.leaf_rights known, frame]

/-- What the kernel's own tables grant. The HHDM window is write-back throughout, whatever lies in it. -/
def kernelPage (hhdm virtStart virtEnd physStart physMemSize v : Nat) : Option Page :=
  (kernelTranslate hhdm virtStart virtEnd physStart physMemSize v).map fun phys =>
    if hhdm ≤ v ∧ v < hhdm + hugePages physMemSize * huge2M then ⟨phys, true, false, true, some .writeBack⟩
    else ⟨phys, true, true, true, some .writeBack⟩

theorem pde_page (x : X86 P) (small : i * huge2M < 2 ^ 52) (v : Nat) :
    pageOf P v (2, pde P i) = ⟨i * huge2M + v % huge2M, true, false, true, some .writeBack⟩ := by
  have sized : PageSize huge2M := Or.inr (Or.inl rfl)
  have word : pde P i = addressBits (i * huge2M) huge2M ||| hugeFlags P.flags := x.encode _ _ _ sized
  have flags : hugeFlags P.flags = hugeFlags ⟨2 ^ 0, 2 ^ 1, 2 ^ 3, 2 ^ 4, 2 ^ 7, 2 ^ 7, 2 ^ 8, 2 ^ 63⟩ := by
    rw [x.flags]
  have bit : ∀ j, j < 21 ∨ 52 ≤ j → (pde P i).testBit j = (hugeFlags P.flags).testBit j := by
    intro j place
    rw [word, Nat.testBit_or, show huge2M = 2 ^ 21 from rfl, testBit_addressBits]
    cases place with
    | inl low => simp [Nat.not_le_of_lt low]
    | inr high => simp [Nat.not_lt_of_le high]
  have frame : physOf P v (2, pde P i) = i * huge2M + v % huge2M := by
    rw [physOf, (pde_spec x small).2.1]
  unfold pageOf
  rw [frame]
  simp only [show (2 : Nat) ≠ 3 by decide, if_false]
  rw [bit 1 (by decide), bit 63 (by decide), bit 8 (by decide), bit 12 (by decide), bit 4 (by decide),
    bit 3 (by decide), flags]
  rfl

theorem kernelLeaf_page (x : X86 P) (place : Placement hhdm virtStart virtEnd physStart physMemSize) (v : Nat) :
    (kernelLeaf P hhdm virtStart virtEnd physStart physMemSize v).map (pageOf P v) =
      kernelPage hhdm virtStart virtEnd physStart physMemSize v := by
  have fits := window_small place.window
  by_cases window : hhdm ≤ v ∧ v < hhdm + hugePages physMemSize * huge2M
  · have unit := unit_offset place.hhdm_aligned window.1
    have small : (v - hhdm) / huge2M * huge2M < 2 ^ 52 := by omega
    rw [kernelPage, kernelTranslate, if_pos window, Option.map_some, if_pos window, kernelLeaf, hhdmLeaf,
      if_pos window, Option.some_or, Option.map_some, pde_page x small, unit]
  · have known : Protection.kernelRwxBoot P.flags ∈ Protection.constants P.flags := by
      simp [Protection.constants]
    have boot : ∀ phys, (Protection.kernelRwxBoot P.flags).page phys = ⟨phys, true, true, true, some .writeBack⟩ :=
      fun phys => (x.constants_page phys).2.2.2.1
    rw [kernelPage, ← kernelLeaf_phys x place, kernelLeaf, hhdmLeaf, if_neg window, Option.none_or, Option.map_map]
    unfold rangeLeaf
    split
    · rw [Option.map_some, Option.map_some, x.leaf_rights known, boot, Function.comp_apply]
    · rfl

end CrustyOs.Mantle
