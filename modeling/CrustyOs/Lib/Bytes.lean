import Mathlib.Algebra.Group.Nat.Defs
import Mathlib.Tactic.Common

/-! A byte memory that keeps the ranges its operations touched. -/
namespace CrustyOs.Lib

/-- Bytes by address, with the ranges touched so far by address and length, latest first. -/
structure Bytes where
  byte : Nat → UInt8
  touched : List (Nat × Nat)

namespace Bytes

def blank : Bytes := ⟨fun _ => 0, []⟩

def load32 (m : Bytes) (a : Nat) : UInt32 :=
  UInt32.ofNat ((m.byte a).toNat + 2 ^ 8 * (m.byte (a + 1)).toNat + 2 ^ 16 * (m.byte (a + 2)).toNat +
    2 ^ 24 * (m.byte (a + 3)).toNat)

def store32 (m : Bytes) (a : Nat) (v : UInt32) : Bytes where
  byte x := if a ≤ x ∧ x < a + 4 then UInt8.ofNat (v.toNat / 2 ^ (8 * (x - a))) else m.byte x
  touched := (a, 4) :: m.touched

def fill (m : Bytes) (a : Nat) (v : UInt8) (n : Nat) : Bytes where
  byte x := if a ≤ x ∧ x < a + n then v else m.byte x
  touched := (a, n) :: m.touched

/-- `n` bytes read from `src` on and then stored from `dst` on. -/
def copy (m : Bytes) (src dst n : Nat) : Bytes where
  byte x := if dst ≤ x ∧ x < dst + n then m.byte (src + (x - dst)) else m.byte x
  touched := (dst, n) :: (src, n) :: m.touched

section Load

variable {m m' : Bytes} {a b src dst n : Nat}

theorem load32_congr (same : ∀ i < 4, m'.byte (b + i) = m.byte (a + i)) : m'.load32 b = m.load32 a := by
  have zero : m'.byte b = m.byte a := same 0 (by omega)
  unfold load32
  rw [zero, same 1 (by omega), same 2 (by omega), same 3 (by omega)]

theorem load32_store32_same (m : Bytes) (a : Nat) (v : UInt32) : (m.store32 a v).load32 a = v := by
  have low := v.toNat_lt
  apply UInt32.toNat_inj.mp
  simp [load32, store32]
  omega

theorem load32_store32_apart (m : Bytes) (v : UInt32) (apart : a + 4 ≤ b ∨ b + 4 ≤ a) :
    (m.store32 a v).load32 b = m.load32 b :=
  load32_congr fun i hi => if_neg (by omega)

theorem load32_fill_zero (m : Bytes) (within : a ≤ b ∧ b + 4 ≤ a + n) : (m.fill a 0 n).load32 b = 0 := by
  have zero : ∀ i < 4, (m.fill a 0 n).byte (b + i) = blank.byte (b + i) := fun i hi => if_pos (by omega)
  rw [load32_congr zero]
  rfl

theorem load32_fill_apart (m : Bytes) (v : UInt8) (apart : a + n ≤ b ∨ b + 4 ≤ a) :
    (m.fill a v n).load32 b = m.load32 b :=
  load32_congr fun i hi => if_neg (by omega)

theorem load32_copy (m : Bytes) (within : dst ≤ b ∧ b + 4 ≤ dst + n) :
    (m.copy src dst n).load32 b = m.load32 (src + (b - dst)) := by
  refine load32_congr fun i hi => ?_
  have inside : (m.copy src dst n).byte (b + i) = m.byte (src + (b + i - dst)) := if_pos (by omega)
  rw [inside]
  congr 1
  omega

theorem load32_copy_apart (m : Bytes) (apart : dst + n ≤ b ∨ b + 4 ≤ dst) :
    (m.copy src dst n).load32 b = m.load32 b :=
  load32_congr fun i hi => if_neg (by omega)

end Load

def Confined (lo hi : Nat) (m m' : Bytes) : Prop :=
  ∃ new, m'.touched = new ++ m.touched ∧ ∀ r ∈ new, lo ≤ r.1 ∧ r.1 + r.2 ≤ hi

namespace Confined

variable {lo hi a src dst n : Nat} {m m₁ m₂ : Bytes}

theorem refl (lo hi : Nat) (m : Bytes) : Confined lo hi m m := ⟨[], rfl, by simp⟩

theorem trans (first : Confined lo hi m m₁) (second : Confined lo hi m₁ m₂) : Confined lo hi m m₂ := by
  obtain ⟨new₁, e₁, in₁⟩ := first
  obtain ⟨new₂, e₂, in₂⟩ := second
  refine ⟨new₂ ++ new₁, by rw [e₂, e₁, List.append_assoc], fun r hr => ?_⟩
  cases List.mem_append.mp hr with
  | inl late => exact in₂ r late
  | inr early => exact in₁ r early

theorem store32 (m : Bytes) (v : UInt32) (within : lo ≤ a ∧ a + 4 ≤ hi) :
    Confined lo hi m (m.store32 a v) := ⟨[(a, 4)], rfl, by simpa using within⟩

theorem fill (m : Bytes) (v : UInt8) (within : lo ≤ a ∧ a + n ≤ hi) :
    Confined lo hi m (m.fill a v n) := ⟨[(a, n)], rfl, by simpa using within⟩

theorem copy (m : Bytes) (source : lo ≤ src ∧ src + n ≤ hi) (target : lo ≤ dst ∧ dst + n ≤ hi) :
    Confined lo hi m (m.copy src dst n) := ⟨[(dst, n), (src, n)], rfl, by simp [source, target]⟩

end Confined
end Bytes
end CrustyOs.Lib
