import CrustyOs.Lib.Bits

/-! `bitwise::paging`, whose source is not here: its functions and flags are
parameters, and `X86` is the meaning that the x86-64 manuals give them. -/
namespace CrustyOs.Mantle
open Lib

def pageSize : Nat := 0x1000
def huge2M : Nat := 0x200000
def huge1G : Nat := 0x40000000

structure PteFlags where
  present : Nat
  writable : Nat
  writeThrough : Nat
  cacheDisable : Nat
  hugePage : Nat
  pat : Nat
  global : Nat
  noExecute : Nat

structure Paging where
  vaddrPtIndex : Nat → Nat → Nat
  pteIsPresent : Nat → Bool
  pteIsHuge : Nat → Bool
  ptePhysAddr : Nat → Nat → Nat
  pteEncode : Nat → Nat → Nat → Nat
  flags : PteFlags

/-- Address bits 12 to 51 of a word, down to the page size. -/
def addressBits (x size : Nat) : Nat := x % 2 ^ 52 / size * size

def PageSize (size : Nat) : Prop := size = pageSize ∨ size = huge2M ∨ size = huge1G

structure X86 (P : Paging) : Prop where
  index : ∀ vaddr level, 1 ≤ level → level ≤ 4 →
    P.vaddrPtIndex vaddr level = vaddr / 2 ^ (12 + 9 * (level - 1)) % 512
  present : ∀ entry, P.pteIsPresent entry = entry.testBit 0
  huge : ∀ entry, P.pteIsHuge entry = entry.testBit 7
  physAddr : ∀ entry size, PageSize size → P.ptePhysAddr entry size = addressBits entry size
  encode : ∀ phys size flags, PageSize size → P.pteEncode phys size flags = addressBits phys size ||| flags
  flags : P.flags = ⟨2 ^ 0, 2 ^ 1, 2 ^ 3, 2 ^ 4, 2 ^ 7, 2 ^ 7, 2 ^ 8, 2 ^ 63⟩

def FlagBits (f : Nat) : Prop := ∀ i < 52, 12 ≤ i → f.testBit i = false

variable {P : Paging} {phys size flags : Nat}

theorem PageSize.pow (h : PageSize size) : ∃ k, 12 ≤ k ∧ k ≤ 52 ∧ size = 2 ^ k := by
  rcases h with rfl | rfl | rfl
  · exact ⟨12, by decide, by decide, rfl⟩
  · exact ⟨21, by decide, by decide, rfl⟩
  · exact ⟨30, by decide, by decide, rfl⟩

theorem testBit_addressBits (x k i : Nat) :
    (addressBits x (2 ^ k)).testBit i = (decide (k ≤ i) && (decide (i < 52) && x.testBit i)) := by
  rw [addressBits, Nat.testBit_mul_two_pow, Nat.testBit_div_two_pow, Nat.testBit_mod_two_pow]
  by_cases low : k ≤ i
  · rw [Nat.sub_add_cancel low]
  · simp [low]

theorem addressBits_of_dvd (aligned : size ∣ phys) (small : phys < 2 ^ 52) :
    addressBits phys size = phys := by
  rw [addressBits, Nat.mod_eq_of_lt small]
  exact Nat.div_mul_cancel aligned

theorem addressBits_or (sized : PageSize size) (outside : FlagBits flags) (phys : Nat) :
    addressBits (addressBits phys size ||| flags) size = addressBits phys size := by
  obtain ⟨k, low, high, rfl⟩ := sized.pow
  apply Nat.eq_of_testBit_eq
  intro i
  rw [testBit_addressBits, Nat.testBit_or, testBit_addressBits]
  by_cases above : k ≤ i
  · by_cases within : i < 52
    · simp [above, within, outside i within (by omega)]
    · simp [within]
  · simp [above]

theorem X86.encode_spec (x : X86 P) (sized : PageSize size) (outside : FlagBits flags) (phys : Nat) :
    P.ptePhysAddr (P.pteEncode phys size flags) size = addressBits phys size ∧
      (∀ i, i < 12 ∨ 52 ≤ i → (P.pteEncode phys size flags).testBit i = flags.testBit i) := by
  rw [x.encode phys size flags sized]
  refine ⟨?_, fun i out => ?_⟩
  · rw [x.physAddr _ size sized, addressBits_or sized outside]
  · have clear : (addressBits phys size).testBit i = false := by
      obtain ⟨k, low, high, rfl⟩ := sized.pow
      rw [testBit_addressBits]
      cases out with
      | inl below => simp [Nat.not_le_of_lt (Nat.lt_of_lt_of_le below low)]
      | inr above => simp [Nat.not_lt_of_le above]
    rw [Nat.testBit_or, clear, Bool.false_or]

/-! `prot.rs`. -/

structure Protection where
  bits : Nat
  deriving DecidableEq, Repr

namespace Protection

def kernelRo (F : PteFlags) : Protection := ⟨F.noExecute ||| F.global⟩
def kernelRw (F : PteFlags) : Protection := ⟨F.writable ||| F.noExecute ||| F.global⟩
def kernelRx (F : PteFlags) : Protection := ⟨F.global⟩
def kernelRwxBoot (F : PteFlags) : Protection := ⟨F.writable ||| F.global⟩
def kernelRwx (F : PteFlags) : Protection := ⟨F.writable⟩
def mmioUc (F : PteFlags) : Protection :=
  ⟨F.writable ||| F.noExecute ||| F.cacheDisable ||| F.writeThrough⟩
def mmioWc (F : PteFlags) : Protection :=
  ⟨F.writable ||| F.noExecute ||| F.cacheDisable ||| F.writeThrough ||| F.pat⟩

def constants (F : PteFlags) : List Protection :=
  [kernelRo F, kernelRw F, kernelRx F, kernelRwxBoot F, kernelRwx F, mmioUc F, mmioWc F]

end Protection

theorem X86.policy (x : X86 P) {prot : Protection} (known : prot ∈ Protection.constants P.flags) :
    FlagBits prot.bits := by
  rw [x.flags] at known
  have all : ∀ q ∈ Protection.constants ⟨2 ^ 0, 2 ^ 1, 2 ^ 3, 2 ^ 4, 2 ^ 7, 2 ^ 7, 2 ^ 8, 2 ^ 63⟩,
      ∀ i < 52, 12 ≤ i → q.bits.testBit i = false := by decide
  exact all prot known

theorem X86.leaf_flags (x : X86 P) {prot : Protection} (policy : FlagBits prot.bits) :
    FlagBits (P.flags.present ||| prot.bits) ∧ (P.flags.present ||| prot.bits).testBit 0 = true := by
  rw [x.flags]
  refine ⟨fun i within above => ?_, ?_⟩
  · rw [Nat.testBit_or, policy i within above, Nat.testBit_two_pow_of_ne (by omega)]
    rfl
  · rw [Nat.testBit_or, Nat.testBit_two_pow_self, Bool.true_or]

def amd64 : Paging where
  vaddrPtIndex vaddr level := vaddr / 2 ^ (12 + 9 * (level - 1)) % 512
  pteIsPresent entry := entry.testBit 0
  pteIsHuge entry := entry.testBit 7
  ptePhysAddr := addressBits
  pteEncode phys size flags := addressBits phys size ||| flags
  flags := ⟨2 ^ 0, 2 ^ 1, 2 ^ 3, 2 ^ 4, 2 ^ 7, 2 ^ 7, 2 ^ 8, 2 ^ 63⟩

theorem amd64_x86 : X86 amd64 :=
  ⟨fun _ _ _ _ => rfl, fun _ => rfl, fun _ => rfl, fun _ _ _ => rfl, fun _ _ _ _ => rfl, rfl⟩

end CrustyOs.Mantle
