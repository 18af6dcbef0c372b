import Mathlib.Algebra.Group.Nat.Defs
import Mathlib.Tactic.Common

/-! Shared constants of the allocator crate, and its ways to stop.
Addresses, counts and counters are natural numbers. The kernel is built with
overflow checks, so a sum or difference that may leave the word is a checked one and a
panic there. Plain sums are those that cannot while the memory registered lies in the
address space and fewer than 2^64 calls are made: node addresses, page counts and the
counters of calls and bytes. -/
namespace CrustyOs.Abalone

def pageSize : Nat := 4096
def buddyMaxOrder : Nat := 17

inductive Panic where
  | assertion (message : String)
  | expect (message : String)
  | indexOutOfBounds
  | subtractOverflow
  | addOverflow
  deriving DecidableEq, Repr

def require (c : Bool) (message : String) : Except Panic Unit :=
  if c then .ok () else .error (.assertion message)

def checkedSub (a b : Nat) : Except Panic Nat :=
  if b ≤ a then .ok (a - b) else .error .subtractOverflow

def checkedAdd (a b : Nat) : Except Panic Nat :=
  if a + b < 2 ^ 64 then .ok (a + b) else .error .addOverflow

structure AllocStats where
  totalBytes : Nat
  usedBytes : Nat
  freeBytes : Nat
  allocCount : Nat
  deallocCount : Nat
  peakBytes : Nat
  deriving DecidableEq, Repr

def AllocStats.zero : AllocStats := ⟨0, 0, 0, 0, 0, 0⟩

theorem require_true (message : String) {c : Bool} (h : c = true) :
    require c message = .ok () := if_pos h

theorem of_require {message : String} {c : Bool} {u : Unit} (h : require c message = .ok u) : c = true := by
  unfold require at h
  split at h
  · assumption
  · cases h

theorem checkedSub_le {a b : Nat} (h : b ≤ a) : checkedSub a b = .ok (a - b) := if_pos h

theorem checkedAdd_lt {a b : Nat} (h : a + b < 2 ^ 64) : checkedAdd a b = .ok (a + b) := if_pos h

theorem checkedAdd_spec {a b c : Nat} (h : checkedAdd a b = .ok c) : c = a + b ∧ a + b < 2 ^ 64 := by
  unfold checkedAdd at h
  split at h
  · rename_i small
    exact ⟨(Except.ok.inj h).symm, small⟩
  · cases h

theorem checkedAdd_eq {a b c : Nat} (h : checkedAdd a b = .ok c) : c = a + b := (checkedAdd_spec h).1

theorem checkedSub_eq {a b c : Nat} (h : checkedSub a b = .ok c) : b ≤ a ∧ c = a - b := by
  unfold checkedSub at h
  split at h
  · rename_i le
    exact ⟨le, (Except.ok.inj h).symm⟩
  · cases h

end CrustyOs.Abalone
