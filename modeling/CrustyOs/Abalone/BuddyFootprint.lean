import CrustyOs.Abalone.BuddyRegion
import CrustyOs.Lib.Runs

/-! The allocator stores to link words of pages it manages, and nowhere else. -/
namespace CrustyOs.Abalone.BuddyAllocator
open Lib

variable {s s' : BuddyAllocator} {m m' : Memory} {lists : Nat → List Nat} {held live : List Block}
  {pages : Finset Nat} {k p a : Nat}

def LinkWordOf (base : Nat) (pages : Finset Nat) (a : Nat) : Prop :=
  ∃ x ∈ pages, a = node base x ∨ a = node base x + 8

theorem freeBlock_footprint (h : Inv s m lists (⟨k, p⟩ :: held) pages) (hk : k < buddyMaxOrder)
    (run : s.freeBlock m p k = .ok (s', m')) : Memory.StoresIn (LinkWordOf s.base pages) m m' := by
  have own : Memory.StoresIn (LinkWordOf s.base pages) m
      (setNext (setPrev m (node s.base p) 0) (node s.base p) (s.freeLists k)) :=
    ((Memory.StoresIn.refl _ m).write 0 ⟨p, h.start_mem, Or.inl rfl⟩).write _ ⟨p, h.start_mem, Or.inr rfl⟩
  obtain ⟨t, _, run⟩ := ok_of_bind run
  obtain ⟨_, rfl⟩ := Prod.mk.inj (Except.ok.inj run)
  split
  · next nonnull =>
    rcases h.head_cases hk with zero | ⟨q, hq, e⟩
    · exact absurd zero nonnull
    · have member : q ∈ pages := h.listed_mem hk hq (inBlock_self k q)
      exact own.write _ ⟨q, member, Or.inl e⟩
  · exact own

theorem splitLoop_footprint (steps : Nat) : ∀ {s : BuddyAllocator} {m : Memory} {lists : Nat → List Nat},
    Inv s m lists (⟨k + steps, p⟩ :: held) pages → splitLoop steps s m p k = .ok (s', m') →
    Memory.StoresIn (LinkWordOf s.base pages) m m' := by
  induction steps with
  | zero =>
    intro s m lists h run
    obtain ⟨_, rfl⟩ := Prod.mk.inj (Except.ok.inj run)
    exact .refl _ _
  | succ steps ih =>
    intro s m lists h run
    have halves : Inv s m lists
        (⟨k + steps, p + 2 ^ (k + steps)⟩ :: ⟨k + steps, p⟩ :: held) pages := h.split
    have order := (halves.held_aligned ⟨k + steps, p + 2 ^ (k + steps)⟩ (by simp)).1
    obtain ⟨⟨s₁, m₁⟩, filed, rest⟩ := ok_of_bind run
    rw [Nat.one_shiftLeft] at filed
    by_cases range : Bitmap.InRange (k + steps) (p + 2 ^ (k + steps))
    · obtain ⟨s₂, m₂, run₂, inv₂, frame₂⟩ := freeBlock_spec halves range
      obtain ⟨rfl, rfl⟩ := Prod.mk.inj (Except.ok.inj (filed.symm.trans run₂))
      have tail := ih inv₂ rest
      rw [frame₂.base] at tail
      exact (freeBlock_footprint halves order filed).trans tail
    · rw [freeBlock_out range] at filed
      cases filed

theorem pop_footprint (h : Inv s m lists held pages) (hk : k < buddyMaxOrder) {rest : List Nat}
    (e : lists k = p :: rest) : Memory.StoresIn (LinkWordOf s.base pages) m
      (if nextOf m (node s.base p) ≠ 0 then setPrev m (nextOf m (node s.base p)) 0 else m) := by
  have next : nextOf m (node s.base p) = (rest.map (node s.base)).headD 0 :=
    (h.linked k hk).next_head (by rw [e, List.map_cons])
  split
  · next nonnull =>
    cases rest with
    | nil => exact absurd next nonnull
    | cons q rest =>
      have member : q ∈ pages := h.listed_mem hk (by rw [e]; simp) (inBlock_self k q)
      exact (Memory.StoresIn.refl _ m).write 0 ⟨q, member, Or.inl next⟩
  · exact .refl _ _

theorem allocPages_footprint {found : Option Nat} (h : Inv s m lists live pages)
    (run : s.allocPages m k = .ok (found, s', m')) : Memory.StoresIn (LinkWordOf s.base pages) m m' := by
  obtain ⟨_, guard, run⟩ := ok_of_bind run
  cases first : s.findOrder k with
  | none =>
    rw [first] at run
    obtain ⟨_, run⟩ := Prod.mk.inj (Except.ok.inj run)
    obtain ⟨_, rfl⟩ := Prod.mk.inj run
    exact .refl _ _
  | some j =>
    rw [first] at run
    obtain ⟨hkj, hj, p, hp, head, start, _⟩ := findOrder_some h first
    obtain ⟨s₁, toggled, inv₁, frame₁⟩ := unlink_spec h hj hp
    obtain ⟨d, rfl⟩ := Nat.exists_eq_add_of_le hkj
    rw [pop_eq_unlink start] at toggled inv₁ frame₁
    simp only [head, setFreeList_base, node_page, Nat.add_sub_cancel_left] at run
    obtain ⟨s₂, again, run⟩ := ok_of_bind run
    obtain rfl := Except.ok.inj (again.symm.trans toggled)
    obtain ⟨⟨s₃, m₃⟩, split, run⟩ := ok_of_bind run
    obtain ⟨free, _, run⟩ := ok_of_bind run
    obtain ⟨_, run⟩ := Prod.mk.inj (Except.ok.inj run)
    obtain ⟨_, rfl⟩ := Prod.mk.inj run
    have links := splitLoop_footprint d inv₁ split
    rw [frame₁.base] at links
    cases e : lists (k + d) with
    | nil =>
      rw [e] at hp
      cases hp
    | cons q rest =>
      have same : q = p := by
        have top := (h.linked _ hj).head_eq
        rw [head, e] at top
        exact (node_inj.mp top).symm
      exact (pop_footprint h hj (same ▸ e)).trans links

theorem LinkWordOf.grow {base : Nat} {more : Finset Nat} (h : LinkWordOf base pages a) (sub : pages ⊆ more) :
    LinkWordOf base more a := by
  obtain ⟨x, hx, e⟩ := h
  exact ⟨x, sub hx, e⟩

theorem unlinkBuddy_footprint (h : Inv s m lists held pages) (hk : k < buddyMaxOrder) (hp : p ∈ lists k) :
    Memory.StoresIn (LinkWordOf s.base pages) m (s.unlinkBuddy m (node s.base p) k).2 := by
  obtain ⟨hprev, hnext⟩ := neighbours h hk hp
  have member : ∀ r ∈ lists k, r ∈ pages := fun r hr => h.listed_mem hk hr (inBlock_self k r)
  unfold unlinkBuddy
  cases hprev with
  | inl first =>
    rw [first]
    cases hnext with
    | inl last =>
      simp only [ne_eq, not_true_eq_false, if_false, last]
      exact .refl _ _
    | inr next =>
      obtain ⟨r, hr, _, er⟩ := next
      simp only [ne_eq, not_true_eq_false, if_false]
      split
      · exact (Memory.StoresIn.refl _ m).write _ ⟨r, member r hr, Or.inl er⟩
      · exact .refl _ _
  | inr prev =>
    obtain ⟨q, hq, ne, eq⟩ := prev
    have own : Memory.StoresIn (LinkWordOf s.base pages) m
        (if prevOf m (node s.base p) ≠ 0 then
          setNext m (prevOf m (node s.base p)) (nextOf m (node s.base p)) else m) := by
      split
      · exact (Memory.StoresIn.refl _ m).write _ ⟨q, member q hq, Or.inr (by rw [eq])⟩
      · exact .refl _ _
    have same : nextOf (if prevOf m (node s.base p) ≠ 0 then
        setNext m (prevOf m (node s.base p)) (nextOf m (node s.base p)) else m) (node s.base p) =
        nextOf m (node s.base p) := by
      split
      · rw [eq, nextOf_setNext, if_neg (Ne.symm ne)]
      · rfl
    simp only [same]
    split
    · next nonnull =>
      obtain ⟨r, hr, _, er⟩ := hnext.resolve_left nonnull
      exact own.write _ ⟨r, member r hr, Or.inl er⟩
    · exact own

theorem mergeLoop_footprint (left : Nat) : ∀ {s : BuddyAllocator} {m : Memory} {lists : Nat → List Nat} {k p p' k' : Nat},
    Inv s m lists (⟨k, p⟩ :: held) pages → Bitmap.InRange k p → k + left = buddyMaxOrder - 1 →
    mergeLoop left s m p k = .ok (s', m', p', k') → Memory.StoresIn (LinkWordOf s.base pages) m m' := by
  induction left with
  | zero =>
    intro s m lists k p p' k' _ _ _ run
    obtain ⟨_, rest⟩ := Prod.mk.inj (Except.ok.inj run)
    obtain ⟨rfl, _⟩ := Prod.mk.inj rest
    exact .refl _ _
  | succ left ih =>
    intro s m lists k p p' k' h range top run
    obtain ⟨hk, aligned⟩ := h.held_aligned ⟨k, p⟩ (by simp)
    have test := (Bitmap.test_eq (b := s.bitmaps k) range).trans (congrArg _ (pair_bit h))
    unfold mergeLoop at run
    rw [bind_of_ok test] at run
    by_cases mem : p ^^^ 2 ^ k ∈ lists k
    · rw [decide_eq_true mem, if_pos rfl, Nat.one_shiftLeft] at run
      obtain ⟨s₁, toggled, inv₁, frame₁⟩ := unlink_spec h hk mem
      have pair : (p ^^^ 2 ^ k) >>> (k + 1) = p >>> (k + 1) := by
        rw [Nat.shiftRight_eq_div_pow, Nat.shiftRight_eq_div_pow]
        exact pair_index_buddy aligned
      rw [pair] at toggled
      have below : k + 1 < buddyMaxOrder := by omega
      have rest : k + 1 + left = buddyMaxOrder - 1 := by omega
      have tail := ih (inv₁.merge below) (range.up (Nat.min_le_left p (p ^^^ 2 ^ k))) rest
        ((bind_of_ok toggled _).symm.trans run)
      rw [frame₁.base] at tail
      exact (unlinkBuddy_footprint h hk mem).trans tail
    · rw [decide_eq_false mem, if_neg Bool.false_ne_true] at run
      obtain ⟨_, rest⟩ := Prod.mk.inj (Except.ok.inj run)
      obtain ⟨rfl, _⟩ := Prod.mk.inj rest
      exact .refl _ _

theorem deallocPages_footprint {b : Block} (h : Inv s m lists live pages) (hb : b ∈ live)
    (range : Bitmap.InRange b.order b.page)
    (run : s.deallocPages m (b.start s.base) b.order = .ok (s', m')) :
    Memory.StoresIn (LinkWordOf s.base pages) m m' := by
  obtain ⟨hk, _⟩ := h.held_aligned b hb
  have hand := h.perm (List.perm_cons_erase hb)
  have page : (b.start s.base - s.base) / pageSize = b.page := node_page s.base b.page
  obtain ⟨_, _, run⟩ := ok_of_bind run
  obtain ⟨_, _, run⟩ := ok_of_bind run
  simp only [page] at run
  obtain ⟨s₁, m₁, lists₁, p', k', merged, inv₁, range₁, frame₁, _⟩ :=
    mergeLoop_spec (buddyMaxOrder - 1 - b.order) hand range (by omega)
  rw [bind_of_ok merged] at run
  obtain ⟨⟨s₂, m₂⟩, filed, run⟩ := ok_of_bind run
  obtain ⟨_, _, run⟩ := ok_of_bind run
  obtain ⟨_, rfl⟩ := Prod.mk.inj (Except.ok.inj run)
  have first := mergeLoop_footprint _ hand range (by omega) merged
  have second := freeBlock_footprint inv₁ (inv₁.held_aligned ⟨k', p'⟩ (by simp)).1 filed
  rw [frame₁.base] at second
  exact first.trans second

theorem addRegionLoop_footprint (rounds : Nat) :
    ∀ {s : BuddyAllocator} {m : Memory} {lists : Nat → List Nat} {pages : Finset Nat} {off rem : Nat},
      Inv s m lists held pages → (∀ x ∈ Finset.Ico off (off + rem), x ∉ pages) → s.base ≠ 0 →
      addRegionLoop rounds s m off rem = .ok (s', m') →
      Memory.StoresIn (LinkWordOf s.base (pages ∪ Finset.Ico off (off + rem))) m m' := by
  induction rounds with
  | zero =>
    intro s m lists pages off rem _ _ _ run
    obtain ⟨_, rfl⟩ := Prod.mk.inj (Except.ok.inj run)
    exact .refl _ _
  | succ rounds ih =>
    intro s m lists pages off rem h new based run
    rcases Nat.eq_zero_or_pos rem with rfl | pos
    · obtain ⟨_, rfl⟩ := Prod.mk.inj (Except.ok.inj run)
      exact .refl _ _
    obtain ⟨hk, aligned, fits, _⟩ := nextOrder_spec off pos
    unfold addRegionLoop at run
    rw [if_pos pos] at run
    dsimp only at run
    rw [Nat.one_shiftLeft] at run
    obtain ⟨⟨s₁, m₁⟩, filed, run⟩ := ok_of_bind run
    generalize nextOrder off rem = k at *
    have positive := Nat.two_pow_pos k
    have fresh : ∀ x, InBlock k off x → x ∉ pages := fun x hx =>
      new x (Finset.mem_Ico.mpr ⟨hx.1, by have := hx.2; omega⟩)
    have hand := h.register hk aligned fresh based
    by_cases range : Bitmap.InRange k off
    · obtain ⟨s₂, m₂, filed', inv₁, frame₁⟩ := freeBlock_spec hand range
      obtain ⟨rfl, rfl⟩ := Prod.mk.inj (Except.ok.inj (filed.symm.trans filed'))
      have ahead : ∀ x ∈ Finset.Ico (off + 2 ^ k) (off + 2 ^ k + (rem - 2 ^ k)),
          x ∉ pages ∪ Finset.Ico off (off + 2 ^ k) := by
        intro x hx
        rw [Finset.mem_Ico] at hx
        rw [Finset.mem_union, Finset.mem_Ico]
        rintro (old | inside)
        · exact new x (Finset.mem_Ico.mpr (by omega)) old
        · omega
      have tail := ih inv₁ ahead (by rw [frame₁.base]; exact based) run
      rw [frame₁.base] at tail
      have first : Finset.Ico off (off + 2 ^ k) ⊆ Finset.Ico off (off + rem) :=
        Finset.Ico_subset_Ico_right (by omega)
      have second : Finset.Ico (off + 2 ^ k) (off + 2 ^ k + (rem - 2 ^ k)) ⊆ Finset.Ico off (off + rem) :=
        Finset.Ico_subset_Ico (by omega) (by omega)
      have head := Finset.union_subset_union_right first (s := pages)
      exact ((freeBlock_footprint hand hk filed).mono fun a word => word.grow head).trans
        (tail.mono fun a word => word.grow (Finset.union_subset head
          (second.trans Finset.subset_union_right)))
    · rw [freeBlock_out range] at filed
      cases filed

theorem addRegion_footprint {virtBase pageCount : Nat} (h : Inv s m lists live pages) (based : s.base ≠ 0)
    (new : ∀ x ∈ regionPages s.base virtBase pageCount, x ∉ pages)
    (run : s.addRegion m virtBase pageCount = .ok (s', m')) :
    Memory.StoresIn (LinkWordOf s.base (pages ∪ regionPages s.base virtBase pageCount)) m m' := by
  obtain ⟨_, _, run⟩ := ok_of_bind run
  obtain ⟨_, _, run⟩ := ok_of_bind run
  obtain ⟨⟨s₁, m₁⟩, loop, run⟩ := ok_of_bind run
  obtain ⟨_, _, run⟩ := ok_of_bind run
  obtain ⟨_, rfl⟩ := Prod.mk.inj (Except.ok.inj run)
  exact addRegionLoop_footprint _ h new based loop

end CrustyOs.Abalone.BuddyAllocator
