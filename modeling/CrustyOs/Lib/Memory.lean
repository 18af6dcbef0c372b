import Mathlib.Tactic.Common

/-! A word memory that keeps the trace of its own stores.
Contents alone cannot tell a store that leaves a word as it was from no store
at all, so a footprint is stated on the trace and contents follow from it. -/
namespace CrustyOs.Lib

/-- Words by byte address, with the addresses stored to so far, latest first. -/
structure Memory where
  word : Nat → Nat
  stores : List Nat

namespace Memory

def blank : Memory := ⟨fun _ => 0, []⟩

def read (m : Memory) (a : Nat) : Nat := m.word a

def write (m : Memory) (a v : Nat) : Memory :=
  ⟨fun x => if x = a then v else m.word x, a :: m.stores⟩

def fill (m : Memory) (a v : Nat) : Nat → Memory
  | 0 => m
  | n + 1 => (fill m a v n).write (a + 8 * n) v

@[simp] theorem read_write_same (m : Memory) (a v : Nat) : (m.write a v).read a = v := by
  simp [read, write]

theorem read_write_other (m : Memory) {a x : Nat} (v : Nat) (h : x ≠ a) :
    (m.write a v).read x = m.read x := by
  simp [read, write, h]

theorem read_write (m : Memory) (a v x : Nat) :
    (m.write a v).read x = if x = a then v else m.read x := rfl

theorem read_fill (m : Memory) (a v n x : Nat) :
    (m.fill a v n).read x = if ∃ i < n, x = a + 8 * i then v else m.read x := by
  induction n with
  | zero => simp [fill]
  | succ n ih =>
    rw [fill, read_write, ih]
    by_cases here : x = a + 8 * n
    · have hit : ∃ i < n + 1, x = a + 8 * i := ⟨n, Nat.lt_succ_self n, here⟩
      rw [if_pos here, if_pos hit]
    · rw [if_neg here]
      have same : (∃ i < n + 1, x = a + 8 * i) ↔ ∃ i < n, x = a + 8 * i := by
        constructor
        · rintro ⟨i, hi, rfl⟩
          have hne : i ≠ n := fun h => here (by rw [h])
          exact ⟨i, by omega, rfl⟩
        · rintro ⟨i, hi, rfl⟩
          exact ⟨i, by omega, rfl⟩
      simp only [same]

def StoresIn (P : Nat → Prop) (m m' : Memory) : Prop :=
  ∃ new, m'.stores = new ++ m.stores ∧ (∀ a ∈ new, P a) ∧ ∀ a, a ∉ new → m'.read a = m.read a

namespace StoresIn

variable {P Q : Nat → Prop} {m m₁ m₂ : Memory}

theorem refl (P : Nat → Prop) (m : Memory) : StoresIn P m m :=
  ⟨[], rfl, by simp, fun _ _ => rfl⟩

theorem trans (h₁ : StoresIn P m m₁) (h₂ : StoresIn P m₁ m₂) : StoresIn P m m₂ := by
  obtain ⟨new₁, e₁, p₁, r₁⟩ := h₁
  obtain ⟨new₂, e₂, p₂, r₂⟩ := h₂
  refine ⟨new₂ ++ new₁, by rw [e₂, e₁, List.append_assoc], ?_, ?_⟩
  · intro a ha
    rcases List.mem_append.mp ha with ha | ha
    · exact p₂ a ha
    · exact p₁ a ha
  · intro a ha
    have h₁ : a ∉ new₁ := fun h => ha (List.mem_append_right _ h)
    have h₂ : a ∉ new₂ := fun h => ha (List.mem_append_left _ h)
    rw [r₂ a h₂, r₁ a h₁]

theorem mono (h : StoresIn P m m₁) (sub : ∀ a, P a → Q a) : StoresIn Q m m₁ := by
  obtain ⟨new, e, p, r⟩ := h
  exact ⟨new, e, fun a ha => sub a (p a ha), r⟩

theorem write {a : Nat} (v : Nat) (h : StoresIn P m m₁) (ha : P a) :
    StoresIn P m (m₁.write a v) := by
  refine h.trans ⟨[a], rfl, by simpa using ha, ?_⟩
  intro x hx
  exact read_write_other m₁ v (by simpa using hx)

theorem fill {a n : Nat} (v : Nat) (h : StoresIn P m m₁) (ha : ∀ i < n, P (a + 8 * i)) :
    StoresIn P m (m₁.fill a v n) := by
  induction n with
  | zero => exact h
  | succ n ih =>
    have tail := ih (fun i hi => ha i (by omega))
    exact tail.write v (ha n (Nat.lt_succ_self n))

theorem read_eq (h : StoresIn P m m₁) {a : Nat} (ha : ¬ P a) : m₁.read a = m.read a := by
  obtain ⟨new, _, p, r⟩ := h
  exact r a (fun hn => ha (p a hn))

end StoresIn
end Memory
end CrustyOs.Lib
