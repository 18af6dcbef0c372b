import Mathlib.Data.List.Basic
import Mathlib.Tactic.Common

/-! Intrusive doubly linked lists, read through two link functions.
Nodes are non-null addresses and the null link is 0. Nothing here says where
the links are stored: `next` and `prev` read them, and each edit is described by
what the new link functions answer on the nodes concerned. -/
namespace CrustyOs.Lib

/-- The nodes `xs` are linked in order, entered from `p` and left towards `q`. -/
def Segment (next prev : Nat → Nat) : Nat → List Nat → Nat → Prop
  | _, [], _ => True
  | p, x :: xs, q => prev x = p ∧ next x = xs.headD q ∧ Segment next prev x xs q

/-- The list a head pointer stands for: null-terminated, without repetition. -/
structure Linked (next prev : Nat → Nat) (head : Nat) (xs : List Nat) : Prop where
  head_eq : head = xs.headD 0
  nonnull : 0 ∉ xs
  nodup : xs.Nodup
  links : Segment next prev 0 xs 0

namespace Segment

variable {next prev next' prev' : Nat → Nat}

theorem congr {xs : List Nat} {p q : Nat} (h : Segment next prev p xs q)
    (hn : ∀ x ∈ xs, next' x = next x) (hp : ∀ x ∈ xs, prev' x = prev x) :
    Segment next' prev' p xs q := by
  induction xs generalizing p with
  | nil => trivial
  | cons x xs ih =>
    obtain ⟨h₁, h₂, h₃⟩ := h
    refine ⟨(hp x (by simp)).trans h₁, (hn x (by simp)).trans h₂, ?_⟩
    exact ih h₃ (fun y hy => hn y (by simp [hy])) (fun y hy => hp y (by simp [hy]))

theorem append {l r : List Nat} {p q : Nat} :
    Segment next prev p (l ++ r) q ↔
      Segment next prev p l (r.headD q) ∧ Segment next prev (l.getLastD p) r q := by
  induction l generalizing p with
  | nil => simp [Segment]
  | cons x l ih =>
    have head : (l ++ r).headD q = l.headD (r.headD q) := by cases l <;> rfl
    rw [List.getLastD_cons, List.cons_append, Segment, Segment, ih, head]
    constructor
    · rintro ⟨h₁, h₂, h₃, h₄⟩; exact ⟨⟨h₁, h₂, h₃⟩, h₄⟩
    · rintro ⟨⟨h₁, h₂, h₃⟩, h₄⟩; exact ⟨h₁, h₂, h₃, h₄⟩

theorem reenter {xs : List Nat} {p p' q : Nat} (h : Segment next prev p xs q)
    (nodup : xs.Nodup) (hn : ∀ x ∈ xs, next' x = next x)
    (hp : ∀ x ∈ xs, x ≠ xs.headD 0 → prev' x = prev x)
    (entry : xs ≠ [] → prev' (xs.headD 0) = p') : Segment next' prev' p' xs q := by
  cases xs with
  | nil => trivial
  | cons x xs =>
    obtain ⟨h₁, h₂, h₃⟩ := h
    have fresh := (List.nodup_cons.mp nodup).1
    refine ⟨entry (by simp), (hn x (by simp)).trans h₂, ?_⟩
    apply h₃.congr (fun y hy => hn y (by simp [hy]))
    intro y hy
    exact hp y (by simp [hy]) (fun e => fresh (by simpa [e] using hy))

theorem releave {xs : List Nat} {p q q' : Nat} (h : Segment next prev p xs q)
    (nodup : xs.Nodup) (hp : ∀ x ∈ xs, prev' x = prev x)
    (hn : ∀ x ∈ xs, x ≠ xs.getLastD 0 → next' x = next x)
    (exit : xs ≠ [] → next' (xs.getLastD 0) = q') : Segment next' prev' p xs q' := by
  induction xs generalizing p with
  | nil => trivial
  | cons x xs ih =>
    obtain ⟨h₁, h₂, h₃⟩ := h
    obtain ⟨fresh, nodup'⟩ := List.nodup_cons.mp nodup
    refine ⟨(hp x (by simp)).trans h₁, ?_, ?_⟩
    · cases xs with
      | nil => simpa using exit (by simp)
      | cons y ys =>
        have inner : x ≠ (x :: y :: ys).getLastD 0 := by
          intro e
          have mem : (y :: ys).getLast (by simp) ∈ y :: ys := List.getLast_mem _
          apply fresh
          rw [List.getLastD_cons, List.getLastD_cons, ← List.getLast_eq_getLastD] at e
          · rw [e]; exact mem
        simpa using (hn x (by simp) inner).trans h₂
    · cases xs with
      | nil => trivial
      | cons y ys =>
        apply ih h₃ nodup' (fun z hz => hp z (by simp [hz]))
        · intro z hz hne
          exact hn z (by simp [hz]) (by simpa using hne)
        · intro _
          simpa using exit (by simp)

end Segment

namespace Linked

variable {next prev next' prev' : Nat → Nat} {head : Nat} {xs : List Nat}

theorem nil : Linked next prev 0 [] := ⟨rfl, by simp, .nil, trivial⟩

theorem congr (h : Linked next prev head xs) (hn : ∀ x ∈ xs, next' x = next x)
    (hp : ∀ x ∈ xs, prev' x = prev x) : Linked next' prev' head xs :=
  ⟨h.head_eq, h.nonnull, h.nodup, h.links.congr hn hp⟩

theorem head_zero_iff (h : Linked next prev head xs) : head = 0 ↔ xs = [] := by
  cases xs with
  | nil => simp [h.head_eq]
  | cons x xs =>
    have hx : x ≠ 0 := fun e => h.nonnull (by simp [e])
    simp [h.head_eq, hx]

theorem unique {ys : List Nat} (h : Linked next prev head xs) (h' : Linked next prev head ys) :
    xs = ys := by
  have go : ∀ (xs ys : List Nat) (p : Nat), Segment next prev p xs 0 → Segment next prev p ys 0 →
      0 ∉ xs → 0 ∉ ys → xs.headD 0 = ys.headD 0 → xs = ys := by
    intro xs
    induction xs with
    | nil =>
      intro ys p _ _ _ hy e
      cases ys with
      | nil => rfl
      | cons y ys => exact absurd (by simpa using e) (fun h : 0 = y => hy (by simp [h]))
    | cons x xs ih =>
      intro ys p hx hy nx ny e
      cases ys with
      | nil => exact absurd (by simpa using e) (fun h : x = 0 => nx (by simp [h]))
      | cons y ys =>
        have same : x = y := by simpa using e
        subst same
        have tail : xs = ys := by
          apply ih ys x hx.2.2 hy.2.2 (fun h => nx (by simp [h])) (fun h => ny (by simp [h]))
          exact hx.2.1.symm.trans hy.2.1
        rw [tail]
  exact go xs ys 0 h.links h'.links h.nonnull h'.nonnull (h.head_eq.symm.trans h'.head_eq)

theorem push {x : Nat} (h : Linked next prev head xs) (hx : x ≠ 0) (fresh : x ∉ xs)
    (next_x : next' x = head) (prev_x : prev' x = 0)
    (hn : ∀ y ∈ xs, next' y = next y) (hp : ∀ y ∈ xs, y ≠ head → prev' y = prev y)
    (entry : head ≠ 0 → prev' head = x) : Linked next' prev' x (x :: xs) := by
  refine ⟨rfl, ?_, List.nodup_cons.mpr ⟨fresh, h.nodup⟩, prev_x, next_x.trans h.head_eq, ?_⟩
  · intro hz
    rcases List.mem_cons.mp hz with hz | hz
    · exact hx hz.symm
    · exact h.nonnull hz
  · apply h.links.reenter h.nodup hn
    · rw [← h.head_eq]; exact hp
    · intro hne
      rw [← h.head_eq]
      exact entry (fun hz => hne (h.head_zero_iff.mp hz))

theorem next_head (h : Linked next prev head xs) {x : Nat} {rest : List Nat} (e : xs = x :: rest) :
    next x = rest.headD 0 := by
  subst e; exact h.links.2.1

theorem split {x : Nat} (h : Linked next prev head xs) (hx : x ∈ xs) :
    ∃ l r, xs = l ++ x :: r ∧ xs.erase x = l ++ r ∧ prev x = l.getLastD 0 ∧ next x = r.headD 0 ∧
      Segment next prev 0 l x ∧ Segment next prev x r 0 := by
  obtain ⟨l, r, rfl⟩ := List.append_of_mem hx
  obtain ⟨hl, hprev, hnext, hr⟩ := Segment.append.mp h.links
  have fresh : x ∉ l := fun hl => (List.nodup_append.mp h.nodup).2.2 x hl x (by simp) rfl
  exact ⟨l, r, rfl, by rw [List.erase_append_right _ fresh, List.erase_cons_head], hprev, hnext, hl, hr⟩

theorem getLastD_mem {l : List Nat} (hne : l ≠ []) : l.getLastD 0 ∈ l := by
  cases l with
  | nil => exact absurd rfl hne
  | cons y l =>
    rw [List.getLastD_cons, ← List.getLast_eq_getLastD (List.cons_ne_nil y l)]
    exact List.getLast_mem _

theorem headD_mem {l : List Nat} (hne : l ≠ []) : l.headD 0 ∈ l := by
  cases l with
  | nil => exact absurd rfl hne
  | cons y l => simp

theorem neighbours {x : Nat} (h : Linked next prev head xs) (hx : x ∈ xs) :
    (prev x = 0 ∨ prev x ∈ xs.erase x) ∧ (next x = 0 ∨ next x ∈ xs.erase x) := by
  obtain ⟨l, r, _, erased, hprev, hnext, _, _⟩ := h.split hx
  rw [erased, hprev, hnext]
  constructor
  · rcases eq_or_ne l [] with rfl | ne
    · exact Or.inl rfl
    · exact Or.inr (List.mem_append_left _ (getLastD_mem ne))
  · rcases eq_or_ne r [] with rfl | ne
    · exact Or.inl rfl
    · exact Or.inr (List.mem_append_right _ (headD_mem ne))

/-- Unlink a node by the usual four-way update of its neighbours. -/
theorem unlink {x : Nat} (h : Linked next prev head xs) (hx : x ∈ xs)
    (hn : ∀ y ∈ xs, y ≠ x → next' y = if y = prev x then next x else next y)
    (hp : ∀ y ∈ xs, y ≠ x → prev' y = if y = next x then prev x else prev y) :
    Linked next' prev' (if prev x = 0 then next x else head) (xs.erase x) := by
  obtain ⟨l, r, e, erased, hprev, hnext, hl, hr⟩ := h.split hx
  have nodup := e ▸ h.nodup
  have nd := List.nodup_append.mp nodup
  have ndr := List.nodup_cons.mp nd.2.1
  have fresh : x ∉ l := fun hl => nd.2.2 x hl x (by simp) rfl
  subst e
  have nonnull : 0 ∉ l ++ r := fun hz => h.nonnull (by
    rcases List.mem_append.mp hz with hz | hz <;> simp [hz])
  have apart : ∀ y ∈ l, ∀ z ∈ r, y ≠ z := fun y hy z hz => nd.2.2 y hy z (by simp [hz])
  rw [erased]
  refine ⟨?_, nonnull, ?_, ?_⟩
  · cases l with
    | nil => simpa [hprev] using hnext
    | cons y l =>
      have hz : prev x ≠ 0 := by
        rw [hprev]
        exact fun hz => nonnull (List.mem_append_left _ (hz ▸ getLastD_mem (by simp)))
      rw [if_neg hz, h.head_eq]
      rfl
  · exact List.nodup_append.mpr ⟨nd.1, ndr.2, fun y hy z hz => apart y hy z hz⟩
  · have keep_next : ∀ y ∈ r, next' y = next y := by
      intro y hy
      have hne : y ≠ x := fun e => ndr.1 (e ▸ hy)
      rw [hn y (by simp [hy]) hne, if_neg]
      rw [hprev]
      cases l with
      | nil => exact fun e => nonnull (by simpa [e] using hy)
      | cons z l => exact fun e => apart _ (getLastD_mem (by simp)) y hy e.symm
    have keep_prev : ∀ y ∈ l, prev' y = prev y := by
      intro y hy
      have hne : y ≠ x := fun e => fresh (e ▸ hy)
      rw [hp y (by simp [hy]) hne, if_neg]
      rw [hnext]
      cases r with
      | nil => exact fun e => nonnull (by simpa [e] using hy)
      | cons z r => exact fun e => apart y hy _ (headD_mem (by simp)) e
    refine Segment.append.mpr ⟨?_, ?_⟩
    · apply hl.releave nd.1 keep_prev
      · intro y hy hne
        have hyx : y ≠ x := fun e => fresh (e ▸ hy)
        rw [hn y (by simp [hy]) hyx, if_neg (by rwa [hprev])]
      · intro hne
        have mem := getLastD_mem hne
        have hyx : l.getLastD 0 ≠ x := fun e => fresh (e ▸ mem)
        rw [hn _ (List.mem_append_left _ mem) hyx, if_pos hprev.symm, hnext]
    · apply hr.reenter ndr.2 keep_next
      · intro y hy hne
        have hyx : y ≠ x := fun e => ndr.1 (e ▸ hy)
        rw [hp y (by simp [hy]) hyx, if_neg (by rwa [hnext])]
      · intro hne
        have mem := headD_mem hne
        have hyx : r.headD 0 ≠ x := fun e => ndr.1 (e ▸ mem)
        rw [hp _ (List.mem_append_right _ (List.mem_cons_of_mem _ mem)) hyx, if_pos hnext.symm, hprev]

end Linked
end CrustyOs.Lib
