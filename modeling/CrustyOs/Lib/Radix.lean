import Mathlib.Tactic.Common

/-! Radix trees made of tables of words. A tree is read off a memory: a word at
some depth is empty, names a child table, or is a leaf. No table has two paths to it,
so a store to one word changes the lookups through that word and no others. -/
namespace CrustyOs.Lib

inductive Slot where
  | empty
  | child (table : Nat)
  | leaf
  deriving DecidableEq, Repr

/-- `slot` reads a word at a depth; `cell` is the address of a table's word. -/
structure Radix where
  width : Nat
  slot : Nat → Nat → Slot
  cell : Nat → Nat → Nat

namespace Radix

def tableAt (R : Radix) (read : Nat → Nat) : Nat → Nat → List Nat → Option Nat
  | _, t, [] => some t
  | d, t, i :: p =>
    match R.slot d (read (R.cell t i)) with
    | .child u => tableAt R read (d + 1) u p
    | _ => none

def find (R : Radix) (read : Nat → Nat) : Nat → Nat → List Nat → Option (Nat × Nat)
  | _, _, [] => none
  | d, t, i :: p =>
    match R.slot d (read (R.cell t i)) with
    | .empty => none
    | .child u => find R read (d + 1) u p
    | .leaf => some (d, read (R.cell t i))

def trail (R : Radix) (read : Nat → Nat) : Nat → Nat → List Nat → List Nat
  | _, _, [] => []
  | d, t, i :: p =>
    read (R.cell t i) :: match R.slot d (read (R.cell t i)) with
      | .child u => trail R read (d + 1) u p
      | _ => []

def Path (R : Radix) (p : List Nat) : Prop := ∀ i ∈ p, i < R.width

def Spaced (R : Radix) (Table : Nat → Prop) : Prop :=
  ∀ t u i j, Table t → Table u → i < R.width → j < R.width → R.cell t i = R.cell u j →
    t = u ∧ i = j

structure Tree (R : Radix) (read : Nat → Nat) (Table : Nat → Prop) (root : Nat) : Prop where
  table : ∀ p t, R.Path p → R.tableAt read 0 root p = some t → Table t
  single : ∀ p q t, R.Path p → R.Path q → R.tableAt read 0 root p = some t →
    R.tableAt read 0 root q = some t → p = q

def Blank (R : Radix) (read : Nat → Nat) (d t : Nat) : Prop :=
  ∀ i < R.width, R.slot d (read (R.cell t i)) = .empty

variable {R : Radix} {read read' : Nat → Nat} {Table Table' : Nat → Prop} {root d t u i w : Nat}
  {p q r : List Nat}

theorem path_append : R.Path (p ++ q) ↔ R.Path p ∧ R.Path q := List.forall_mem_append

theorem path_cons : R.Path (i :: p) ↔ i < R.width ∧ R.Path p := List.forall_mem_cons

theorem tableAt_append : R.tableAt read d t (p ++ q) =
    (R.tableAt read d t p).bind fun u => R.tableAt read (d + p.length) u q := by
  induction p generalizing d t with
  | nil => rfl
  | cons i p ih =>
    have depth : d + (i :: p).length = d + 1 + p.length := by
      rw [List.length_cons]
      omega
    rw [List.cons_append, tableAt, tableAt, depth]
    cases R.slot d (read (R.cell t i)) with
    | child u => exact ih
    | empty => rfl
    | leaf => rfl

theorem find_append (h : R.tableAt read d t p = some u) :
    R.find read d t (p ++ q) = R.find read (d + p.length) u q := by
  induction p generalizing d t with
  | nil =>
    obtain rfl := Option.some.inj h
    rfl
  | cons i p ih =>
    have depth : d + (i :: p).length = d + 1 + p.length := by
      rw [List.length_cons]
      omega
    rw [tableAt] at h
    rw [List.cons_append, find, depth]
    cases slot : R.slot d (read (R.cell t i)) with
    | child u =>
      rw [slot] at h
      exact ih h
    | empty =>
      rw [slot] at h
      cases h
    | leaf =>
      rw [slot] at h
      cases h

theorem congr_along (p : List Nat) : ∀ d t,
    (∀ q i r u, p = q ++ i :: r → R.tableAt read d t q = some u →
      read' (R.cell u i) = read (R.cell u i)) →
    R.tableAt read' d t p = R.tableAt read d t p ∧ R.find read' d t p = R.find read d t p := by
  induction p with
  | nil => exact fun _ _ _ => ⟨rfl, rfl⟩
  | cons i p ih =>
    intro d t along
    have here := along [] i p t rfl rfl
    rw [tableAt, tableAt, find, find, here]
    cases slot : R.slot d (read (R.cell t i)) with
    | empty => exact ⟨rfl, rfl⟩
    | leaf => exact ⟨rfl, rfl⟩
    | child u =>
      apply ih
      intro q j r v e hv
      apply along (i :: q) j r v (by rw [e]; rfl)
      rw [tableAt, slot]
      exact hv

theorem find_mem_trail {n e : Nat} (h : R.find read d t p = some (n, e)) :
    e ∈ R.trail read d t p := by
  induction p generalizing d t with
  | nil => cases h
  | cons i p ih =>
    rw [find] at h
    rw [trail]
    cases slot : R.slot d (read (R.cell t i)) with
    | empty =>
      rw [slot] at h
      cases h
    | leaf =>
      rw [slot] at h
      obtain ⟨_, rfl⟩ := Prod.mk.inj (Option.some.inj h)
      exact List.mem_cons_self ..
    | child u =>
      rw [slot] at h
      exact List.mem_cons_of_mem _ (ih h)

theorem find_depth {n e : Nat} (h : R.find read d t p = some (n, e)) : d ≤ n := by
  induction p generalizing d t with
  | nil => cases h
  | cons i p ih =>
    rw [find] at h
    cases slot : R.slot d (read (R.cell t i)) with
    | empty =>
      rw [slot] at h
      cases h
    | leaf =>
      rw [slot] at h
      exact Nat.le_of_eq (Prod.mk.inj (Option.some.inj h)).1
    | child u =>
      rw [slot] at h
      exact Nat.le_of_lt (ih h)

theorem Blank.nothing (h : R.Blank read d t) (hp : R.Path p) :
    R.find read d t p = none ∧ ∀ u, R.tableAt read d t p = some u → p = [] := by
  cases p with
  | nil => exact ⟨rfl, fun _ _ => rfl⟩
  | cons i p =>
    have empty := h i (path_cons.mp hp).1
    rw [find, tableAt, empty]
    exact ⟨rfl, fun _ h => nomatch h⟩

namespace Tree

theorem congr (h : R.Tree read Table root)
    (same : ∀ t i, Table t → i < R.width → read' (R.cell t i) = read (R.cell t i)) :
    R.Tree read' Table root ∧
      ∀ p, R.Path p → R.tableAt read' 0 root p = R.tableAt read 0 root p ∧
        R.find read' 0 root p = R.find read 0 root p := by
  have walks : ∀ p, R.Path p → R.tableAt read' 0 root p = R.tableAt read 0 root p ∧
      R.find read' 0 root p = R.find read 0 root p := by
    intro p hp
    apply congr_along
    rintro q i r u rfl hu
    obtain ⟨hq, rest⟩ := path_append.mp hp
    exact same u i (h.table q u hq hu) (path_cons.mp rest).1
  refine ⟨⟨fun p t hp ht => h.table p t hp ((walks p hp).1 ▸ ht), fun p q t hp hq ht ht' => ?_⟩, walks⟩
  exact h.single p q t hp hq ((walks p hp).1 ▸ ht) ((walks q hq).1 ▸ ht')

theorem mono (h : R.Tree read Table root) (sub : ∀ t, Table t → Table' t) :
    R.Tree read Table' root :=
  ⟨fun p t hp ht => sub t (h.table p t hp ht), h.single⟩

section Store

variable (h : R.Tree read Table root) (spaced : R.Spaced Table)
  (ht : R.tableAt read 0 root p = some t) (hp : R.Path (p ++ [i]))
  (off : ∀ x, x ≠ R.cell t i → read' x = read x)

include h spaced ht hp off

theorem store_other (hq : R.Path q) (apart : ¬ p ++ [i] <+: q) :
    R.tableAt read' 0 root q = R.tableAt read 0 root q ∧ R.find read' 0 root q = R.find read 0 root q := by
  apply congr_along
  rintro s j r u rfl hu
  apply off
  intro same
  obtain ⟨hp', hi⟩ := path_append.mp hp
  obtain ⟨hs, rest⟩ := path_append.mp hq
  obtain ⟨rfl, rfl⟩ := spaced u t j i (h.table s u hs hu) (h.table p t hp' ht)
    (path_cons.mp rest).1 (path_cons.mp hi).1 same
  obtain rfl := h.single s p u hs hp' hu ht
  exact apart ⟨r, by simp⟩

theorem store_here : R.tableAt read' 0 root p = some t := by
  rw [(h.store_other spaced ht hp off (path_append.mp hp).1 ?_).1, ht]
  intro prefixed
  have le := prefixed.length_le
  rw [List.length_append, List.length_singleton] at le
  omega

theorem store_through (stored : read' (R.cell t i) = w) (r : List Nat) :
    R.tableAt read' 0 root (p ++ i :: r) = (match R.slot p.length w with
      | .child u => R.tableAt read' (p.length + 1) u r
      | _ => none) ∧
    R.find read' 0 root (p ++ i :: r) = (match R.slot p.length w with
      | .empty => none
      | .child u => R.find read' (p.length + 1) u r
      | .leaf => some (p.length, w)) := by
  have here := h.store_here spaced ht hp off
  rw [tableAt_append, find_append here, here, Nat.zero_add, Option.bind_some, tableAt, find, stored]
  exact ⟨rfl, rfl⟩

theorem set (stored : read' (R.cell t i) = w) (none : ∀ u, R.slot p.length w ≠ .child u) :
    R.Tree read' Table root ∧
      (∀ q u, R.Path q → R.tableAt read' 0 root q = some u → R.tableAt read 0 root q = some u) ∧
      (∀ q, R.Path q → ¬ p ++ [i] <+: q → R.find read' 0 root q = R.find read 0 root q) ∧
      ∀ r, R.find read' 0 root (p ++ i :: r) =
        if R.slot p.length w = .leaf then some (p.length, w) else Option.none := by
  have through := h.store_through spaced ht hp off stored
  have kept : ∀ q u, R.Path q → R.tableAt read' 0 root q = some u →
      R.tableAt read 0 root q = some u := by
    intro q u hq hu
    rwa [(h.store_other spaced ht hp off hq ?_).1] at hu
    rintro ⟨r, rfl⟩
    rw [List.append_assoc, List.singleton_append, (through r).1] at hu
    cases slot : R.slot p.length w with
    | child v => exact none v slot
    | empty => rw [slot] at hu; cases hu
    | leaf => rw [slot] at hu; cases hu
  refine ⟨⟨fun q u hq hu => h.table q u hq (kept q u hq hu), fun q s u hq hs hu hu' => ?_⟩, kept,
    fun q hq apart => (h.store_other spaced ht hp off hq apart).2, fun r => ?_⟩
  · exact h.single q s u hq hs (kept q u hq hu) (kept s u hs hu')
  · rw [(through r).2]
    cases slot : R.slot p.length w with
    | child v => exact absurd slot (none v)
    | empty => rfl
    | leaf => rfl

theorem grow (stored : read' (R.cell t i) = w) (child : R.slot p.length w = .child u)
    (vacant : R.slot p.length (read (R.cell t i)) = .empty) (kind : Table u)
    (fresh : ∀ q, R.Path q → R.tableAt read 0 root q ≠ some u)
    (blank : R.Blank read' (p.length + 1) u) :
    R.Tree read' Table root ∧ R.tableAt read' 0 root (p ++ [i]) = some u ∧
      (∀ q v, R.Path q → R.tableAt read' 0 root q = some v → v = u ∨ R.tableAt read 0 root q = some v) ∧
      ∀ q, R.Path q → R.find read' 0 root q = R.find read 0 root q := by
  have through := h.store_through spaced ht hp off stored
  rw [child] at through
  simp only at through
  -- a path to a table is the new one or an old one
  have cases_of : ∀ q v, R.Path q → R.tableAt read' 0 root q = some v →
      (q = p ++ [i] ∧ v = u) ∨ R.tableAt read 0 root q = some v := by
    intro q v hq hv
    by_cases passes : p ++ [i] <+: q
    · left
      obtain ⟨r, rfl⟩ := passes
      rw [List.append_assoc, List.singleton_append, (through r).1] at hv
      obtain rfl := (blank.nothing (path_append.mp hq).2).2 v hv
      exact ⟨List.append_nil _, (Option.some.inj hv).symm⟩
    · right
      rwa [(h.store_other spaced ht hp off hq passes).1] at hv
  refine ⟨⟨fun q v hq hv => ?_, fun q s v hq hs hv hv' => ?_⟩, (through []).1,
    fun q v hq hv => (cases_of q v hq hv).imp_left And.right, fun q hq => ?_⟩
  · rcases cases_of q v hq hv with ⟨_, rfl⟩ | old
    · exact kind
    · exact h.table q v hq old
  · rcases cases_of q v hq hv with ⟨rfl, rfl⟩ | old
    · rcases cases_of s v hs hv' with ⟨rfl, _⟩ | old
      · rfl
      · exact absurd old (fresh s hs)
    · rcases cases_of s v hs hv' with ⟨_, rfl⟩ | old'
      · exact absurd old (fresh q hq)
      · exact h.single q s v hq hs old old'
  · by_cases passes : p ++ [i] <+: q
    · obtain ⟨r, rfl⟩ := passes
      have hr := (path_append.mp hq).2
      rw [List.append_assoc, List.singleton_append, (through r).2, (blank.nothing hr).1,
        find_append ht, Nat.zero_add, find, vacant]
    · exact (h.store_other spaced ht hp off hq passes).2

end Store
end Tree
end Radix
end CrustyOs.Lib
