import CrustyOs.Abalone.BuddyOps

/-! `add_region`: its greedy decomposition, and what it does to the invariant. -/
namespace CrustyOs.Abalone.BuddyAllocator
open Lib

variable {s : BuddyAllocator} {m : Memory} {lists : Nat → List Nat} {held live : List Block}
  {pages : Finset Nat} {k p off rem : Nat}

/-- The chosen order is aligned and fits; if alignment did not decide it, size did. -/
theorem nextOrder_spec (off : Nat) (pos : 0 < rem) :
    nextOrder off rem < buddyMaxOrder ∧ 2 ^ nextOrder off rem ∣ off ∧ 2 ^ nextOrder off rem ≤ rem ∧
      (nextOrder off rem < buddyMaxOrder - 1 → 2 ^ (nextOrder off rem + 1) ∣ off →
        rem < 2 ^ (nextOrder off rem + 1)) := by
  set align := min (if off = 0 then buddyMaxOrder - 1 else trailingZeros 64 off)
    (buddyMaxOrder - 1) with align_def
  set size := min (Nat.log2 rem) (buddyMaxOrder - 1) with size_def
  have order : nextOrder off rem = min align size := rfl
  have top : buddyMaxOrder = 17 := rfl
  have aligned : 2 ^ align ∣ off := by
    by_cases zero : off = 0
    · rw [zero]; exact Nat.dvd_zero _
    · rw [align_def, if_neg zero]
      exact aligned_of_le (Nat.min_le_left _ _) (trailingZeros_dvd 64 off)
  have fits : 2 ^ size ≤ rem :=
    (Nat.pow_le_pow_right (by omega) (Nat.min_le_left _ _)).trans (Nat.log2_self_le (by omega))
  refine ⟨by omega, ?_, ?_, ?_⟩
  · exact aligned_of_le (by omega) aligned
  · exact (Nat.pow_le_pow_right (by omega) (by omega)).trans fits
  · intro low more
    have room : nextOrder off rem + 1 ≤ align := by
      by_cases zero : off = 0
      · rw [align_def, if_pos zero]; omega
      · have counted := le_trailingZeros (w := 64) (by omega) more
        rw [align_def, if_neg zero]; omega
    have log : Nat.log2 rem < nextOrder off rem + 1 := by omega
    exact (Nat.log2_lt (by omega)).mp log

theorem Inv.register (h : Inv s m lists held pages) (hk : k < buddyMaxOrder) (aligned : 2 ^ k ∣ p)
    (new : ∀ x, InBlock k p x → x ∉ pages) (based : s.base ≠ 0) :
    Inv s m lists (⟨k, p⟩ :: held) (pages ∪ Finset.Ico p (p + 2 ^ k)) := by
  refine ⟨h.linked, h.parity, h.listed_aligned, ?_, ?_, h.listed_range, fun _ _ => based⟩
  · intro b hb
    rcases List.mem_cons.mp hb with rfl | hb
    · exact ⟨hk, aligned⟩
    · exact h.held_aligned b hb
  · intro x
    have old := h.exact x
    have mem : x ∈ pages ∪ Finset.Ico p (p + 2 ^ k) ↔ x ∈ pages ∨ InBlock k p x := by
      simp [InBlock]
    rw [heldCover_cons]
    by_cases hx : InBlock k p x
    · have one : cover k p x = 1 := if_pos hx
      rw [if_neg (new x hx)] at old
      rw [if_pos (mem.mpr (Or.inr hx))]
      simp only
      omega
    · have zero : cover k p x = 0 := if_neg hx
      simp only [mem, hx, or_false, zero, ← old]
      omega

/-- Ahead of the loop: listed blocks end at `off`, and a lower half that ends
there leaves too few pages for its buddy to be emitted. -/
def Pending (lists : Nat → List Nat) (off rem : Nat) : Prop :=
  ∀ k < buddyMaxOrder, ∀ p ∈ lists k, p + 2 ^ k ≤ off ∧
    (k < buddyMaxOrder - 1 → p + 2 ^ k = off → 2 ^ (k + 1) ∣ p → rem < 2 ^ k)

theorem Pending.alone (h : Pending lists off rem) (pos : 0 < rem)
    (low : nextOrder off rem < buddyMaxOrder - 1) :
    off ^^^ 2 ^ nextOrder off rem ∉ lists (nextOrder off rem) := by
  obtain ⟨hk, aligned, fits, _⟩ := nextOrder_spec off pos
  have hpos := Nat.two_pow_pos (nextOrder off rem)
  intro listed
  obtain ⟨ends, pending⟩ := h _ hk _ listed
  rcases half_of_aligned aligned with lower | ⟨q, hq, e⟩
  · rw [buddy_lower lower] at ends
    omega
  · have buddy : off ^^^ 2 ^ nextOrder off rem = q := by
      have up := buddy_upper hq
      rwa [← e] at up
    rw [buddy] at pending
    have short := pending low e.symm hq
    omega

theorem Pending.emit (h : Pending lists off rem) (pos : 0 < rem) :
    Pending (Function.update lists (nextOrder off rem) (off :: lists (nextOrder off rem)))
      (off + 2 ^ nextOrder off rem) (rem - 2 ^ nextOrder off rem) := by
  obtain ⟨_, _, fits, decided⟩ := nextOrder_spec off pos
  have hpos := Nat.two_pow_pos (nextOrder off rem)
  have old : ∀ j < buddyMaxOrder, ∀ q ∈ lists j, q + 2 ^ j ≤ off + 2 ^ nextOrder off rem ∧
      (j < buddyMaxOrder - 1 → q + 2 ^ j = off + 2 ^ nextOrder off rem → 2 ^ (j + 1) ∣ q →
        rem - 2 ^ nextOrder off rem < 2 ^ j) := by
    intro j hj q hq
    have ends := (h j hj q hq).1
    exact ⟨by omega, fun _ e => by omega⟩
  intro j hj q hq
  by_cases e : j = nextOrder off rem
  · subst e
    rw [Function.update_self] at hq
    rcases List.mem_cons.mp hq with rfl | hq
    · refine ⟨Nat.le_refl _, fun low _ more => ?_⟩
      have short := decided low more
      rw [Nat.pow_succ] at short
      omega
    · exact old _ hj q hq
  · rw [Function.update_of_ne e] at hq
    exact old j hj q hq

/-- What `add_region` does to the lists: the blocks of the greedy decomposition, in order. -/
def emitted : Nat → (Nat → List Nat) → Nat → Nat → Nat → List Nat
  | 0, lists, _, _ => lists
  | rounds + 1, lists, off, rem =>
    if rem > 0 then
      emitted rounds (Function.update lists (nextOrder off rem) (off :: lists (nextOrder off rem)))
        (off + 2 ^ nextOrder off rem) (rem - 2 ^ nextOrder off rem)
    else lists

theorem mem_emitted {j q : Nat} (rounds : Nat) : ∀ (lists : Nat → List Nat) (off rem : Nat),
    q ∈ emitted rounds lists off rem j ↔ q ∈ lists j ∨ q ∈ emitted rounds (fun _ => []) off rem j := by
  induction rounds with
  | zero => simp [emitted]
  | succ rounds ih =>
    intro lists off rem
    unfold emitted
    split
    · rw [ih, ih (Function.update _ _ _)]
      by_cases e : j = nextOrder off rem
      · subst e
        simp only [Function.update_self, List.mem_cons, List.not_mem_nil, or_false]
        tauto
      · simp [Function.update_of_ne e]
    · simp

theorem addRegionLoop_spec (rounds : Nat) :
    ∀ {s : BuddyAllocator} {m : Memory} {lists : Nat → List Nat} {pages : Finset Nat} {off rem : Nat},
      Inv s m lists held pages → rem ≤ rounds → (∀ x ∈ Finset.Ico off (off + rem), x ∉ pages) →
      s.base ≠ 0 →
      (∃ s' m' lists', addRegionLoop rounds s m off rem = .ok (s', m') ∧
        Inv s' m' lists' held (pages ∪ Finset.Ico off (off + rem)) ∧ Frame held s m s' m' ∧
        lists' = emitted rounds lists off rem ∧
        (NoBuddies lists → Pending lists off rem → NoBuddies lists')) ∨
      addRegionLoop rounds s m off rem = .error .indexOutOfBounds ∧
        ∃ x ∈ Finset.Ico off (off + rem), Bitmap.capacity ≤ x := by
  have done : ∀ {s : BuddyAllocator} {m : Memory} {lists : Nat → List Nat} {pages : Finset Nat}
      {off : Nat}, Inv s m lists held pages →
      Inv s m lists held (pages ∪ Finset.Ico off (off + 0)) := by
    intro s m lists pages off h
    simpa using h
  induction rounds with
  | zero =>
    intro s m lists pages off rem h bound _ _
    obtain rfl : rem = 0 := by omega
    exact Or.inl ⟨s, m, lists, rfl, done h, .refl _ _ _, rfl, fun none _ => none⟩
  | succ rounds ih =>
    intro s m lists pages off rem h bound new based
    rcases Nat.eq_zero_or_pos rem with rfl | pos
    · exact Or.inl ⟨s, m, lists, rfl, done h, .refl _ _ _, rfl, fun none _ => none⟩
    obtain ⟨hk, aligned, fits, _⟩ := nextOrder_spec off pos
    have hpos := Nat.two_pow_pos (nextOrder off rem)
    by_cases range : Bitmap.InRange (nextOrder off rem) off
    · have fresh : ∀ x, InBlock (nextOrder off rem) off x → x ∉ pages := fun x hx =>
        new x (Finset.mem_Ico.mpr ⟨hx.1, by have := hx.2; omega⟩)
      have hand := h.register hk aligned fresh based
      obtain ⟨s₁, m₁, filed, inv₁, frame₁⟩ := freeBlock_spec hand range
      have ahead : ∀ x ∈ Finset.Ico (off + 2 ^ nextOrder off rem)
          (off + 2 ^ nextOrder off rem + (rem - 2 ^ nextOrder off rem)),
          x ∉ pages ∪ Finset.Ico off (off + 2 ^ nextOrder off rem) := by
        intro x hx
        rw [Finset.mem_Ico] at hx
        rw [Finset.mem_union, Finset.mem_Ico]
        rintro (hp | hp)
        · exact new x (Finset.mem_Ico.mpr (by omega)) hp
        · omega
      have step : addRegionLoop (rounds + 1) s m off rem = addRegionLoop rounds s₁ m₁
          (off + 2 ^ nextOrder off rem) (rem - 2 ^ nextOrder off rem) := by
        simp only [addRegionLoop, gt_iff_lt, pos, if_true, bind, Except.bind, filed,
          Nat.one_shiftLeft]
      rw [step]
      rcases ih inv₁ (by omega) ahead (by rw [frame₁.base]; exact based) with
        ⟨s₂, m₂, lists₂, run, inv₂, frame₂, same, keep⟩ | ⟨out, x, hx, far⟩
      · refine Or.inl ⟨s₂, m₂, lists₂, run, ?_, frame₁.trans frame₂, ?_, fun none pending => ?_⟩
        · have whole : pages ∪ Finset.Ico off (off + 2 ^ nextOrder off rem) ∪
              Finset.Ico (off + 2 ^ nextOrder off rem)
                (off + 2 ^ nextOrder off rem + (rem - 2 ^ nextOrder off rem)) =
              pages ∪ Finset.Ico off (off + rem) := by
            rw [Finset.union_assoc, Finset.Ico_union_Ico_eq_Ico (by omega) (by omega)]
            congr 2
            omega
          rwa [whole] at inv₂
        · rw [emitted, if_pos pos]
          exact same
        · exact keep (none.push fun low => pending.alone pos low) (pending.emit pos)
      · rw [Finset.mem_Ico] at hx
        exact Or.inr ⟨out, x, Finset.mem_Ico.mpr (by omega), far⟩
    · refine Or.inr ⟨?_, off, Finset.mem_Ico.mpr (by omega),
        Nat.le_of_not_lt fun lt => range (Bitmap.in_range lt _)⟩
      simp only [addRegionLoop, gt_iff_lt, pos, if_true, bind, Except.bind, freeBlock_out range]

def regionPages (base virtBase pageCount : Nat) : Finset Nat :=
  Finset.Ico ((virtBase - base) / pageSize) ((virtBase - base) / pageSize + pageCount)

/-- `add_region` on new pages. It stops only at a page beyond the bitmaps' capacity. -/
theorem addRegion_spec {virtBase pageCount : Nat} (h : Inv s m lists live pages)
    (acc : Accounts s live pages) (based : s.base ≠ 0) (above : s.base ≤ virtBase)
    (new : ∀ x ∈ regionPages s.base virtBase pageCount, x ∉ pages) :
    (∃ s' m' lists', s.addRegion m virtBase pageCount = .ok (s', m') ∧
      Inv s' m' lists' live (pages ∪ regionPages s.base virtBase pageCount) ∧
      Accounts s' live (pages ∪ regionPages s.base virtBase pageCount) ∧
      s'.base = s.base ∧ Memory.StoresIn (Apart s.base live) m m' ∧
      lists' = emitted pageCount lists ((virtBase - s.base) / pageSize) pageCount ∧
      (NoBuddies lists → Pending lists ((virtBase - s.base) / pageSize) pageCount →
        NoBuddies lists')) ∨
    s.addRegion m virtBase pageCount = .error .indexOutOfBounds ∧
      ∃ x ∈ regionPages s.base virtBase pageCount, Bitmap.capacity ≤ x := by
  have guard₁ : require (s.base != 0) "call set_base before add_region" = .ok () :=
    require_true _ (by simpa using based)
  have guard₂ := require_true "region base precedes allocator base"
    (decide_eq_true (p := virtBase ≥ s.base) above)
  rcases addRegionLoop_spec pageCount h (Nat.le_refl _) new based with
    ⟨s₁, m₁, lists₁, run, inv₁, frame, same, keep⟩ | ⟨out, far⟩
  · have size : (pages ∪ regionPages s.base virtBase pageCount).card = pages.card + pageCount := by
      have apart : Disjoint pages (regionPages s.base virtBase pageCount) :=
        Finset.disjoint_right.mpr new
      rw [Finset.card_union_of_disjoint apart, regionPages, Nat.card_Ico]
      omega
    have total := acc.freeBytes
    rw [acc.totalBytes] at total
    have sub := checkedSub_le (a := (s₁.totalPages + pageCount) * pageSize) (b := s₁.stats.usedBytes)
      (by rw [frame.totalPages, frame.stats, acc.totalPages, Nat.add_mul]; omega)
    obtain ⟨t, ran, total_t, used_t, free_t⟩ : ∃ t,
        s.addRegion m virtBase pageCount =
          .ok ({ s₁ with totalPages := s.totalPages + pageCount, stats := t }, m₁) ∧
        t.totalBytes = (s.totalPages + pageCount) * pageSize ∧ t.usedBytes = s.stats.usedBytes ∧
        t.freeBytes = (s.totalPages + pageCount) * pageSize - s.stats.usedBytes := by
      rw [← frame.stats, ← frame.totalPages]
      simp only [addRegion, guard₁, guard₂, bind, Except.bind, run, sub]
      exact ⟨_, rfl, rfl, rfl, rfl⟩
    refine Or.inl ⟨_, m₁, lists₁, ran, inv₁.recount, ?_, frame.base, frame.stores, same, keep⟩
    refine ⟨?_, ?_, used_t.trans acc.usedBytes, ?_⟩
    · rw [size, ← acc.totalPages]
    · simp only [total_t]; rw [size, acc.totalPages]
    · simp only [total_t, used_t, free_t, acc.totalPages, Nat.add_mul]; omega
  · refine Or.inr ⟨?_, far⟩
    simp only [addRegion, guard₁, guard₂, bind, Except.bind, out]

end CrustyOs.Abalone.BuddyAllocator
