import Mathlib.Data.List.Pairwise
import Mathlib.Tactic.Common

/-! Runs of pieces laid end to end: each piece starts where the previous one
stops. Positions and lengths are read through functions, so a piece may carry
anything else beside them. -/
namespace CrustyOs.Lib

/-- The pieces `xs` fill the interval from `a` to `b`. -/
def Tiles {α : Type} (start len : α → Nat) : Nat → List α → Nat → Prop
  | a, [], b => a = b
  | a, x :: xs, b => start x = a ∧ Tiles start len (a + len x) xs b

namespace Tiles

variable {α : Type} {start len : α → Nat} {a b : Nat} {x y : α} {xs ys : List α}

theorem append : Tiles start len a (xs ++ ys) b ↔
    ∃ c, Tiles start len a xs c ∧ Tiles start len c ys b := by
  induction xs generalizing a with
  | nil => simp [Tiles]
  | cons x xs ih =>
    constructor
    · rintro ⟨first, rest⟩
      obtain ⟨c, left, right⟩ := ih.mp rest
      exact ⟨c, ⟨first, left⟩, right⟩
    · rintro ⟨c, ⟨first, left⟩, right⟩
      exact ⟨first, ih.mpr ⟨c, left, right⟩⟩

theorem le (h : Tiles start len a xs b) : a ≤ b := by
  induction xs generalizing a with
  | nil => exact Nat.le_of_eq h
  | cons x xs ih => exact Nat.le_trans (Nat.le_add_right a (len x)) (ih h.2)

theorem bounds (h : Tiles start len a xs b) (hx : x ∈ xs) : a ≤ start x ∧ start x + len x ≤ b := by
  induction xs generalizing a with
  | nil => exact absurd hx List.not_mem_nil
  | cons y ys ih =>
    obtain ⟨first, rest⟩ := h
    cases List.mem_cons.mp hx with
    | inl e =>
      have last := rest.le
      subst e
      omega
    | inr hx =>
      have inside := ih rest hx
      omega

theorem ordered (h : Tiles start len a xs b) :
    xs.Pairwise fun x y => start x + len x ≤ start y := by
  induction xs generalizing a with
  | nil => exact List.Pairwise.nil
  | cons x xs ih =>
    obtain ⟨first, rest⟩ := h
    refine List.Pairwise.cons (fun y hy => ?_) (ih rest)
    rw [first]
    exact (rest.bounds hy).1

theorem apart (h : Tiles start len a xs b) (hx : x ∈ xs) (hy : y ∈ xs) (ne : x ≠ y) :
    start x + len x ≤ start y ∨ start y + len y ≤ start x := by
  obtain ⟨l, r, rfl⟩ := List.append_of_mem hx
  have order := List.pairwise_append.mp h.ordered
  cases List.mem_append.mp hy with
  | inl before => exact Or.inr (order.2.2 y before x (by simp))
  | inr after =>
    have later : y ∈ r := (List.mem_cons.mp after).resolve_left (Ne.symm ne)
    exact Or.inl ((List.pairwise_cons.mp order.2.1).1 y later)

theorem start_inj (h : Tiles start len a xs b) (hx : x ∈ xs) (hy : y ∈ xs)
    (pos : 0 < len x ∧ 0 < len y) (same : start x = start y) : x = y := by
  by_contra ne
  have apart := h.apart hx hy ne
  omega

theorem covers {z : Nat} (h : Tiles start len a xs b) (low : a ≤ z) (high : z < b) :
    ∃ x ∈ xs, start x ≤ z ∧ z < start x + len x := by
  induction xs generalizing a with
  | nil =>
    have empty : a = b := h
    omega
  | cons y ys ih =>
    obtain ⟨first, rest⟩ := h
    cases Nat.lt_or_ge z (a + len y) with
    | inl inside => exact ⟨y, by simp, by omega, by omega⟩
    | inr later =>
      obtain ⟨x, hx, hit⟩ := ih rest later
      exact ⟨x, by simp [hx], hit⟩

theorem dvd_start {d : Nat} (h : Tiles start len a xs b) (first : d ∣ a) (whole : ∀ x ∈ xs, d ∣ len x)
    (hx : x ∈ xs) : d ∣ start x := by
  induction xs generalizing a with
  | nil => exact absurd hx List.not_mem_nil
  | cons y ys ih =>
    obtain ⟨here, rest⟩ := h
    cases List.mem_cons.mp hx with
    | inl e => exact e ▸ here ▸ first
    | inr hx =>
      exact ih rest (Nat.dvd_add first (whole y List.mem_cons_self))
        (fun z hz => whole z (List.mem_cons_of_mem _ hz)) hx

theorem exchange {mid mid' : List α} (h : Tiles start len a (xs ++ (mid ++ ys)) b)
    (same : ∀ p q, Tiles start len p mid q → Tiles start len p mid' q) :
    Tiles start len a (xs ++ (mid' ++ ys)) b := by
  obtain ⟨p, left, rest⟩ := append.mp h
  obtain ⟨q, inner, right⟩ := append.mp rest
  exact append.mpr ⟨p, left, append.mpr ⟨q, same p q inner, right⟩⟩

end Tiles
end CrustyOs.Lib
