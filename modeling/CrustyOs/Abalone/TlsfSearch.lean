import CrustyOs.Abalone.TlsfLists

/-! The good-fit search: two bitmap scans find the least class that can serve. -/
namespace CrustyOs.Abalone.TlsfInner
open Lib Tlsf

variable {S : Nat → Prop} {t : TlsfInner} {m : Memory} {lists : Nat × Nat → List Nat}
  {block size : Nat} {c d : Nat × Nat}

/-- What the search needs of a table: lists of blocks of their own class, entered at the heads,
and bitmaps that mark the non-empty ones. -/
structure Indexed (t : TlsfInner) (m : Memory) (lists : Nat × Nat → List Nat) : Prop where
  head : ∀ c, t.freeLists c.1 c.2 = (lists c).headD 0
  nonnull : ∀ c, 0 ∉ lists c
  range : ∀ c, lists c ≠ [] → c.1 < flIndexCount ∧ c.2 < slCount
  classed : ∀ c, ∀ a ∈ lists c, mapping (blockSize m a) = .ok c
  marks : Marks t.flBitmap t.slBitmap fun c => lists c ≠ []

theorem ClassLists.indexed (h : ClassLists S t m lists) : Indexed t m lists where
  head c := (h.linked c).head_eq
  nonnull c := (h.linked c).nonnull
  range c some := h.range some
  classed c a ha := by
    obtain ⟨_, low, _, own⟩ := h.classed c a ha
    rw [mapping_eq low, own]
  marks := h.marks

structure LeastFrom (lists : Nat × Nat → List Nat) (c d : Nat × Nat) : Prop where
  later : ClassLe c d
  some : lists d ≠ []
  least : ∀ e, ClassLe c e → lists e ≠ [] → ClassLe d e

def FirstFrom (t : TlsfInner) (c : Nat × Nat) (block : Nat) : Prop :=
  ∃ d, ClassLe c d ∧ t.freeLists d.1 d.2 = block ∧ block ≠ 0 ∧
    ∀ e, ClassLe c e → t.freeLists e.1 e.2 ≠ 0 → ClassLe d e

theorem FirstFrom.unique {a b : Nat} (h : FirstFrom t c a) (h' : FirstFrom t c b) : a = b := by
  obtain ⟨d, later, rfl, some, least⟩ := h
  obtain ⟨e, later', rfl, some', least'⟩ := h'
  have le := least e later' some'
  have ge := least' d later some
  unfold ClassLe at le ge
  have same : d = e := Prod.ext (by omega) (by omega)
  rw [same]

namespace Indexed

theorem head_mem (h : Indexed t m lists) (some : lists c ≠ []) :
    t.freeLists c.1 c.2 ∈ lists c ∧ (lists c).head? = Option.some (t.freeLists c.1 c.2) := by
  rw [h.head c]
  cases e : lists c with
  | nil => exact absurd e some
  | cons a rest => exact ⟨List.mem_cons_self .., rfl⟩

theorem head_ne_zero (h : Indexed t m lists) : t.freeLists c.1 c.2 ≠ 0 ↔ lists c ≠ [] := by
  constructor
  · rintro nonzero empty
    rw [h.head c, empty] at nonzero
    exact nonzero rfl
  · intro some zero
    have here := (h.head_mem some).1
    rw [zero] at here
    exact h.nonnull c here

theorem firstFrom (h : Indexed t m lists) (first : LeastFrom lists c d) :
    FirstFrom t c (t.freeLists d.1 d.2) :=
  ⟨d, first.later, rfl, h.head_ne_zero.mpr first.some,
    fun e le head => first.least e le (h.head_ne_zero.mp head)⟩

theorem narrow (h : Indexed t m lists) : t.flBitmap < 2 ^ 32 ∧ ∀ i, t.slBitmap i < 2 ^ 32 := by
  apply h.marks.narrow
  intro c some
  obtain ⟨row, column⟩ := h.range c some
  have rows : flIndexCount = 30 := rfl
  have columns : slCount = 32 := rfl
  omega

theorem fits (h : Indexed t m lists) (hs : 32 ≤ size) (start : mappingSearch size = .ok c)
    (later : ClassLe c d) {a : Nat} (ha : a ∈ lists d) : size ≤ blockSize m a := by
  obtain ⟨rfl, above, _⟩ := mappingSearch_start hs start
  have row : 5 ≤ d.1 := by
    have first := (log2_bounds above).1
    unfold ClassLe classOf at later
    omega
  obtain ⟨low, own⟩ := mapping_ok (h.classed d a ha) row
  rw [← own] at later
  exact mappingSearch_fits hs start low later

theorem findFree_spec (h : Indexed t m lists) (start : mappingSearch size = .ok c)
    (row : c.1 < flIndexCount) :
    (t.findFree size = .ok none ∧ ∀ d, ClassLe c d → lists d = []) ∨
    ∃ d, t.findFree size = .ok (some (t.freeLists d.1 d.2)) ∧ LeastFrom lists c d := by
  obtain ⟨top_narrow, rows_narrow⟩ := h.narrow
  have slBits : t.slBits c.1 = .ok (t.slBitmap c.1) := if_pos row
  by_cases here : t.slBitmap c.1 >>> c.2 = 0
  · have row_empty := h.marks.none_in_row here
    by_cases above : t.flBitmap >>> (c.1 + 1) = 0
    · left
      refine ⟨?_, ?_⟩
      · simp only [findFree, start, bind, Except.bind, slBits, here, above]
        rfl
      · intro d later
        by_contra some
        cases later with
        | inl lt => exact h.marks.none_in_top above d.1 lt d.2 some
        | inr both =>
          have marked : lists (c.1, d.2) ≠ [] := by rw [both.1]; exact some
          exact row_empty d.2 both.2 marked
    · right
      obtain ⟨nonempty, rows_empty⟩ := h.marks.find_top top_narrow above
      set fl := c.1 + 1 + trailingZeros 32 (t.flBitmap >>> (c.1 + 1)) with fl_def
      obtain ⟨marked, below⟩ := h.marks.find_row (j := 0) (rows_narrow fl) nonempty
      rw [Nat.shiftRight_zero, Nat.zero_add] at marked below
      have least : ∀ e, ClassLe c e → lists e ≠ [] → ClassLe (fl, trailingZeros 32 (t.slBitmap fl)) e := by
        intro e later some
        by_contra before
        unfold ClassLe at later before
        rcases Nat.lt_trichotomy e.1 fl with lt | same | gt
        · rcases later with later | ⟨same, le⟩
          · exact rows_empty e.1 later lt e.2 some
          · exact row_empty e.2 le (by rw [same]; exact some)
        · exact below e.2 (Nat.zero_le _) (by simp only at before; omega) (by rw [← same]; exact some)
        · exact before (Or.inl gt)
      have bits : t.slBits fl = .ok (t.slBitmap fl) := if_pos (h.range _ marked).1
      have head : t.head fl (trailingZeros 32 (t.slBitmap fl)) = .ok _ := head_eq (h.range _ marked)
      refine ⟨(fl, trailingZeros 32 (t.slBitmap fl)), ?_, Or.inl (by simp only; omega), marked, least⟩
      simp only [findFree, start, bind, Except.bind, slBits, here, above, ← fl_def, bits, head]
      rfl
  · right
    obtain ⟨marked, below⟩ := h.marks.find_row (rows_narrow c.1) here
    have least : ∀ e, ClassLe c e → lists e ≠ [] →
        ClassLe (c.1, c.2 + trailingZeros 32 (t.slBitmap c.1 >>> c.2)) e := by
      intro e later some
      unfold ClassLe at later ⊢
      rcases later with later | ⟨same, le⟩
      · exact Or.inl later
      · refine Or.inr ⟨same, ?_⟩
        by_contra before
        exact below e.2 le (by simp only at before; omega) (by rw [same]; exact some)
    have head : t.head c.1 (c.2 + trailingZeros 32 (t.slBitmap c.1 >>> c.2)) = .ok _ :=
      head_eq (h.range _ marked)
    refine ⟨(c.1, c.2 + trailingZeros 32 (t.slBitmap c.1 >>> c.2)), ?_,
      Or.inr ⟨rfl, Nat.le_add_right _ _⟩, marked, least⟩
    simp only [findFree, start, bind, Except.bind, slBits, head]
    rw [if_pos here]
    rfl

end Indexed

/-- Within the class table the search answers with the head of the least list that can serve,
which is large enough, and with nothing exactly when there is no such list. -/
theorem find_free_good_fit (h : Indexed t m lists) (hs : 32 ≤ size)
    (start : mappingSearch size = .ok c) (row : c.1 < flIndexCount) :
    ∃ found, t.findFree size = .ok found ∧ (found = none ↔ ∀ d, ClassLe c d → lists d = []) ∧
      ∀ block, found = some block →
        (∃ d, LeastFrom lists c d ∧ (lists d).head? = some block) ∧ size ≤ blockSize m block := by
  rcases h.findFree_spec start row with ⟨none, empty⟩ | ⟨d, found, first⟩
  · exact ⟨_, none, iff_of_true rfl empty, fun block e => absurd e (by simp)⟩
  · refine ⟨_, found, iff_of_false (by simp) fun empty => first.some (empty d first.later), ?_⟩
    rintro block e
    obtain rfl := Option.some.inj e
    obtain ⟨listed, head⟩ := h.head_mem first.some
    exact ⟨⟨d, first, head⟩, h.fits hs start first.later listed⟩

/-- A table whose only list holds a block of 960 bytes. -/
theorem find_free_good_fit_small :
    ∃ t m, TlsfInner.new.insertFree (Memory.blank.write 4096 960) 4096 = .ok (t, m) ∧
      ∃ found, t.findFree 900 = .ok found ∧
        (found = none ↔ ∀ d, ClassLe (9, 25) d →
          Function.update (fun _ => []) (9, 28) [4096] d = ([] : List Nat)) ∧
        ∀ block, found = some block →
          (∃ d, LeastFrom (Function.update (fun _ => []) (9, 28) [4096]) (9, 25) d ∧
            (Function.update (fun _ => []) (9, 28) [4096] d : List Nat).head? = some block) ∧
          900 ≤ blockSize m block := by
  have spaced : Spaced fun a => a = 4096 := fun a b ha hb ne => absurd (ha.trans hb.symm) ne
  have empty : ClassLists (fun a => a = 4096) TlsfInner.new (Memory.blank.write 4096 960)
      fun _ => [] :=
    ⟨fun _ => .nil, fun _ a ha => absurd ha List.not_mem_nil, Marks.empty.congr fun c => by simp⟩
  have size : blockSize (Memory.blank.write 4096 960) 4096 = 960 := by decide
  obtain ⟨t, m, filed, lists, _⟩ := insertFree_spec (c := (9, 28)) spaced empty rfl (by decide)
    (fun _ => List.not_mem_nil) (by rw [size]; decide) (by rw [size]; decide) (by rw [size]; decide)
  exact ⟨t, m, filed, find_free_good_fit lists.indexed (by decide) (by decide) (by decide)⟩

end CrustyOs.Abalone.TlsfInner
