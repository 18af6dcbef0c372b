import CrustyOs.Mantle.WalkerSpec

/-! Page tables with one table at each level. -/
namespace CrustyOs.Mantle
open Lib PageTableWalker

variable {P : Paging} {hhdm v : Nat} {word : Nat → Nat} {Held : Nat → Prop}

/-- One table at each level, and in each but the last one word that names the next. -/
structure Chain (P : Paging) (hhdm : Nat) (word : Nat → Nat) (Held : Nat → Prop) (table index : Nat → Nat) :
    Prop where
  frame : ∀ k < 4, Frame hhdm (table k) ∧ Held (table k)
  distinct : ∀ j < 4, ∀ k < 4, table j = table k → j = k
  down : ∀ k < 3, ∀ i < 512, slot P k (word (table k + hhdm + 8 * i)) =
    if i = index k then .child (table (k + 1)) else .empty

namespace Chain

variable {table index : Nat → Nat}

theorem tableAt_eq (h : Chain P hhdm word Held table index) (p : List Nat) : ∀ {k t},
    k < 4 → (radix P hhdm).Path p → (radix P hhdm).tableAt word k (table k) p = some t →
    k + p.length < 4 ∧ t = table (k + p.length) ∧ p = (List.range' k p.length).map index := by
  induction p with
  | nil =>
    intro k t hk _ ht
    exact ⟨hk, (Option.some.inj ht).symm, rfl⟩
  | cons i p ih =>
    intro k t hk hp ht
    obtain ⟨hi, hp⟩ := Radix.path_cons.mp hp
    rw [Radix.tableAt] at ht
    by_cases last : k = 3
    · subst last
      cases entry : (radix P hhdm).slot 3 (word ((radix P hhdm).cell (table 3) i)) with
      | child u => exact absurd entry (slot_three u)
      | empty =>
        rw [entry] at ht
        cases ht
      | leaf =>
        rw [entry] at ht
        cases ht
    · have step : (radix P hhdm).slot k (word ((radix P hhdm).cell (table k) i)) =
          if i = index k then .child (table (k + 1)) else .empty := h.down k (by omega) i hi
      rw [step] at ht
      by_cases here : i = index k
      · rw [if_pos here] at ht
        obtain ⟨low, same, rest⟩ := ih (by omega) hp ht
        refine ⟨by rw [List.length_cons]; omega, by rw [same, List.length_cons, Nat.add_right_comm]; rfl, ?_⟩
        rw [List.length_cons, List.range'_succ, List.map_cons, ← rest, here]
      · rw [if_neg here] at ht
        cases ht

theorem pages (h : Chain P hhdm word Held table index) : PageTree P hhdm word (table 0) Held := by
  refine ⟨⟨fun p t hp ht => ?_, fun p q t hp hq ht ht' => ?_⟩, fun p d e hp found top => ?_⟩
  · obtain ⟨low, rfl, _⟩ := h.tableAt_eq p (by decide) hp ht
    exact h.frame _ low
  · obtain ⟨low, same, left⟩ := h.tableAt_eq p (by decide) hp ht
    obtain ⟨low', same', right⟩ := h.tableAt_eq q (by decide) hq ht'
    have length := h.distinct _ low _ low' (same.symm.trans same')
    rw [left, right, show p.length = q.length by omega]
  · subst top
    cases p with
    | nil => cases found
    | cons i p =>
      have step : (radix P hhdm).slot 0 (word ((radix P hhdm).cell (table 0) i)) =
          if i = index 0 then .child (table 1) else .empty :=
        h.down 0 (by decide) i (Radix.path_cons.mp hp).1
      rw [Radix.find, step] at found
      by_cases here : i = index 0
      · rw [if_pos here] at found
        exact absurd (Radix.find_depth found) (by decide)
      · rw [if_neg here] at found
        cases found

theorem lookup_eq (h : Chain P hhdm word Held table index)
    (along : (path v).take 3 = [index 0, index 1, index 2]) :
    lookup P hhdm word (table 0) v =
      if P.pteIsPresent (word (table 3 + hhdm + 8 * (v / 2 ^ 12 % 512))) then
        some (3, word (table 3 + hhdm + 8 * (v / 2 ^ 12 % 512))) else none := by
  have step (k : Nat) (hk : k < 3) (i : Nat) (hi : i < 512) (e : i = index k) :
      (radix P hhdm).slot k (word ((radix P hhdm).cell (table k) i)) = .child (table (k + 1)) :=
    (h.down k hk i hi).trans (if_pos e)
  have inside : (radix P hhdm).Path ((path v).take 3) := path_take_path v 3
  rw [along] at inside
  have reached : (radix P hhdm).tableAt word 0 (table 0) ((path v).take 3) = some (table 3) := by
    rw [along]
    simp only [Radix.tableAt, step 0 (by decide) _ (inside _ (by simp)) rfl,
      step 1 (by decide) _ (inside _ (by simp)) rfl, step 2 (by decide) _ (inside _ (by simp)) rfl]
  exact last_lookup reached

end Chain

end CrustyOs.Mantle
