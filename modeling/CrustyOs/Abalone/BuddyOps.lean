import CrustyOs.Abalone.BuddySpec

/-! The public buddy operations: each returns and keeps the invariant, or stops
because a pair bit is out of the bitmap's range. -/
namespace CrustyOs.Abalone.BuddyAllocator
open Lib

variable {s : BuddyAllocator} {m : Memory} {lists : Nat → List Nat} {held live : List Block}
  {pages : Finset Nat} {b : Block} {k j p q x : Nat}

/-! Ghost moves: the count does not see a block and its two halves apart. -/

namespace Inv

theorem rehold {held' : List Block} (h : Inv s m lists held pages)
    (aligned : ∀ b ∈ held', b.order < buddyMaxOrder ∧ 2 ^ b.order ∣ b.page)
    (same : ∀ x, heldCover held' x = heldCover held x) : Inv s m lists held' pages :=
  ⟨h.linked, h.parity, h.listed_aligned, aligned, fun x => by rw [same]; exact h.exact x,
    h.listed_range, h.based⟩

theorem recount {totalPages : Nat} {stats : AllocStats} (h : Inv s m lists held pages) :
    Inv { s with totalPages, stats } m lists held pages :=
  ⟨h.linked, h.parity, h.listed_aligned, h.held_aligned, h.exact, h.listed_range, h.based⟩

theorem perm {held' : List Block} (h : Inv s m lists held pages) (e : held.Perm held') :
    Inv s m lists held' pages :=
  h.rehold (fun b hb => h.held_aligned b (e.mem_iff.mpr hb))
    (fun x => ((e.map fun b : Block => cover b.order b.page x).sum_eq).symm)

theorem split (h : Inv s m lists (⟨k + 1, p⟩ :: held) pages) :
    Inv s m lists (⟨k, p + 2 ^ k⟩ :: ⟨k, p⟩ :: held) pages := by
  obtain ⟨order, aligned⟩ := h.held_aligned ⟨k + 1, p⟩ (by simp)
  have low := aligned_of_le (Nat.le_succ k) aligned
  apply h.rehold
  · intro b hb
    rcases List.mem_cons.mp hb with rfl | hb
    · exact ⟨Nat.lt_of_succ_lt order, Nat.dvd_add low (Nat.dvd_refl _)⟩
    · rcases List.mem_cons.mp hb with rfl | hb
      · exact ⟨Nat.lt_of_succ_lt order, low⟩
      · exact h.held_aligned b (List.mem_cons_of_mem _ hb)
  · intro x
    simp only [heldCover_cons, cover_split k p x]
    omega

theorem merge (h : Inv s m lists (⟨k, p ^^^ 2 ^ k⟩ :: ⟨k, p⟩ :: held) pages)
    (hk : k + 1 < buddyMaxOrder) : Inv s m lists (⟨k + 1, min p (p ^^^ 2 ^ k)⟩ :: held) pages := by
  have aligned := (h.held_aligned ⟨k, p⟩ (by simp)).2
  obtain ⟨whole, halves⟩ := min_buddy aligned
  apply h.rehold
  · intro b hb
    rcases List.mem_cons.mp hb with rfl | hb
    · exact ⟨hk, whole⟩
    · exact h.held_aligned b (by simp [hb])
  · intro x
    simp only [heldCover_cons, halves]
    omega

theorem nodup (h : Inv s m lists held pages) (hk : k < buddyMaxOrder) : (lists k).Nodup :=
  (h.linked k hk).nodup.of_map _

end Inv

/-! No mergeable pair on the lists: what coalescing maintains. -/

def NoBuddies (lists : Nat → List Nat) : Prop :=
  Coalesced (buddyMaxOrder - 1) fun k p => p ∈ lists k

theorem NoBuddies.push (h : NoBuddies lists)
    (alone : k < buddyMaxOrder - 1 → p ^^^ 2 ^ k ∉ lists k) :
    NoBuddies (Function.update lists k (p :: lists k)) := by
  intro j q hj hq hb
  by_cases e : j = k
  · subst e
    rw [Function.update_self] at hq hb
    rcases List.mem_cons.mp hq with rfl | hq
    · rcases List.mem_cons.mp hb with self | hb
      · exact buddy_ne j q self
      · exact alone hj hb
    · rcases List.mem_cons.mp hb with rfl | hb
      · exact alone hj (by rwa [buddy_buddy])
      · exact h j q hj hq hb
  · rw [Function.update_of_ne e] at hq hb
    exact h j q hj hq hb

theorem NoBuddies.sub {lists' : Nat → List Nat} (h : NoBuddies lists)
    (sub : ∀ k q, q ∈ lists' k → q ∈ lists k) : NoBuddies lists' :=
  fun k p hk hp hb => h k p hk (sub k p hp) (sub k _ hb)

/-! `alloc_pages`. -/

theorem splitLoop_spec (steps : Nat) :
    ∀ {s : BuddyAllocator} {m : Memory} {lists : Nat → List Nat},
      Inv s m lists (⟨k + steps, p⟩ :: held) pages →
      (∃ s' m' lists', splitLoop steps s m p k = .ok (s', m') ∧
        Inv s' m' lists' (⟨k, p⟩ :: held) pages ∧ Frame held s m s' m' ∧
        (Bitmap.InRange (k + steps) p → Bitmap.InRange k p) ∧
        (NoBuddies lists → NoBuddies lists')) ∨
      splitLoop steps s m p k = .error .indexOutOfBounds ∧ Bitmap.capacity ≤ p := by
  induction steps with
  | zero => exact fun {s m lists} h => Or.inl ⟨s, m, lists, rfl, h, .refl _ _ _, id, id⟩
  | succ steps ih =>
    intro s m lists h
    have halves : Inv s m lists
        (⟨k + steps, p + 2 ^ (k + steps)⟩ :: ⟨k + steps, p⟩ :: held) pages := h.split
    have order := (halves.held_aligned ⟨k + steps, p⟩ (by simp)).1
    have aligned : 2 ^ (k + steps + 1) ∣ p := (h.held_aligned ⟨k + (steps + 1), p⟩ (by simp)).2
    have pair : (p + 2 ^ (k + steps)) >>> (k + steps + 1) = p >>> (k + steps + 1) := by
      have same := pair_index_buddy (aligned_of_le (Nat.le_succ (k + steps)) aligned)
      rwa [buddy_lower aligned, ← Nat.shiftRight_eq_div_pow, ← Nat.shiftRight_eq_div_pow] at same
    by_cases range : Bitmap.InRange (k + steps) p
    · have range' : Bitmap.InRange (k + steps) (p + 2 ^ (k + steps)) := by
        rwa [Bitmap.InRange, pair]
      obtain ⟨s₁, m₁, run₁, inv₁, frame₁⟩ := freeBlock_spec halves range'
      have step : splitLoop (steps + 1) s m p k = splitLoop steps s₁ m₁ p k := by
        rw [splitLoop, Nat.one_shiftLeft]
        simp only [run₁]
        rfl
      rw [step]
      cases ih inv₁ with
      | inl returned =>
        obtain ⟨s₂, m₂, lists₂, run₂, inv₂, frame₂, low, keep⟩ := returned
        refine Or.inl ⟨s₂, m₂, lists₂, run₂, inv₂, frame₁.drop.trans frame₂, fun _ => low range,
          fun none => keep ?_⟩
        apply none.push
        intro _
        rw [buddy_upper aligned]
        have swap := halves.perm (List.Perm.swap _ _ _)
        exact swap.hand_not_listed order
      | inr stopped => exact Or.inr stopped
    · right
      have out : ¬ Bitmap.InRange (k + steps) (p + 2 ^ (k + steps)) := by
        rwa [Bitmap.InRange, pair]
      refine ⟨?_, Nat.le_of_not_lt fun lt => range (Bitmap.in_range lt _)⟩
      rw [splitLoop, Nat.one_shiftLeft]
      simp only [freeBlock_out out]
      rfl

theorem findOrder_none (h : Inv s m lists held pages) (none : s.findOrder k = none) :
    ∀ j, k ≤ j → j < buddyMaxOrder → lists j = [] := by
  intro j hkj hj
  have all := List.find?_eq_none.mp none j (List.mem_range'_1.mpr ⟨hkj, by omega⟩)
  have zero : s.freeLists j = 0 := by simpa using all
  simpa using ((h.linked j hj).head_zero_iff).mp zero

theorem findOrder_some (h : Inv s m lists held pages) (found : s.findOrder k = some j) :
    k ≤ j ∧ j < buddyMaxOrder ∧ ∃ p, p ∈ lists j ∧ s.freeLists j = node s.base p ∧
      prevOf m (node s.base p) = 0 ∧ (lists j).erase p = (lists j).tail := by
  have range := List.mem_range'_1.mp (List.mem_of_find?_eq_some found)
  have hit : s.freeLists j ≠ 0 := by simpa using List.find?_some found
  have hj : j < buddyMaxOrder := by omega
  have linked := h.linked j hj
  refine ⟨range.1, hj, ?_⟩
  cases e : lists j with
  | nil => exact absurd (linked.head_zero_iff.mpr (by rw [e]; rfl)) hit
  | cons p rest =>
    rw [e] at linked
    exact ⟨p, by simp, linked.head_eq, linked.links.1, by simp⟩

theorem pop_eq_unlink {base : Nat} (hp : prevOf m (node base p) = 0) :
    s.unlinkBuddy m (node base p) k = (s.setFreeList k (nextOf m (node base p)),
      if nextOf m (node base p) ≠ 0 then setPrev m (nextOf m (node base p)) 0 else m) := by
  simp [unlinkBuddy, hp]

/-! Accounting: the counters against the page count. -/

def heldPages (held : List Block) : Nat := (held.map fun b => 2 ^ b.order).sum

def freePages (lists : Nat → List Nat) : Nat := weight buddyMaxOrder (fun k _ => 2 ^ k) lists

structure Accounts (s : BuddyAllocator) (live : List Block) (pages : Finset Nat) : Prop where
  totalPages : s.totalPages = pages.card
  totalBytes : s.stats.totalBytes = pages.card * pageSize
  usedBytes : s.stats.usedBytes = heldPages live * pageSize
  freeBytes : s.stats.freeBytes + s.stats.usedBytes = s.stats.totalBytes

theorem sum_cover {n : Nat} (hk : p + 2 ^ k ≤ n) : ∑ x ∈ Finset.range n, cover k p x = 2 ^ k := by
  have inside : (Finset.range n).filter (InBlock k p) = Finset.Ico p (p + 2 ^ k) := by
    ext x
    simp only [Finset.mem_filter, Finset.mem_range, Finset.mem_Ico, InBlock]
    omega
  simp only [cover]
  rw [← Finset.sum_filter, inside, Finset.sum_const, Nat.card_Ico]
  simp

theorem Inv.page_count (h : Inv s m lists held pages) :
    freePages lists + heldPages held = pages.card := by
  obtain ⟨n, below⟩ : ∃ n, ∀ x ∈ pages, x < n :=
    ⟨pages.sup id + 1, fun x hx => Nat.lt_succ_of_le (Finset.le_sup (f := id) hx)⟩
  have top : ∀ k p, (∀ x, InBlock k p x → x ∈ pages) → p + 2 ^ k ≤ n := by
    intro k p sub
    have hpos := Nat.two_pow_pos k
    have last := below (p + (2 ^ k - 1)) (sub _ ⟨by omega, by omega⟩)
    omega
  have free : ∑ x ∈ Finset.range n, listed lists x = freePages lists := by
    unfold listed freePages
    rw [sum_weight]
    exact weight_congr fun k hk p hp => sum_cover (top k p fun x hx => h.listed_mem hk hp hx)
  have hand : ∑ x ∈ Finset.range n, heldCover held x = heldPages held := by
    unfold heldCover heldPages
    rw [sum_list_sum, List.map_congr_left]
    exact fun b hb => sum_cover (top b.order b.page fun x hx => h.held_mem hb hx)
  have all : ∑ x ∈ Finset.range n, (if x ∈ pages then 1 else 0) = pages.card := by
    have inside : (Finset.range n).filter (· ∈ pages) = pages := by
      ext x
      simp only [Finset.mem_filter, Finset.mem_range, and_iff_right_iff_imp]
      exact below x
    rw [← Finset.sum_filter, inside, Finset.sum_const, Nat.nsmul_eq_mul, Nat.mul_one]
  rw [← free, ← hand, ← all, ← Finset.sum_add_distrib]
  exact Finset.sum_congr rfl fun x _ => h.exact x

@[simp] theorem heldPages_cons (b : Block) (held : List Block) :
    heldPages (b :: held) = 2 ^ b.order + heldPages held := by simp [heldPages]

theorem heldPages_erase (hb : b ∈ live) : 2 ^ b.order + heldPages (live.erase b) = heldPages live :=
  List.sum_map_erase (fun b : Block => 2 ^ b.order) hb

@[simp] theorem setFreeList_base (s : BuddyAllocator) (k head : Nat) :
    (s.setFreeList k head).base = s.base := rfl

theorem node_page (base p : Nat) : (node base p - base) / pageSize = p := by
  unfold node pageSize; omega

theorem Accounts.free_covers (acc : Accounts s live pages) (h : Inv s m lists live pages)
    (hj : j < buddyMaxOrder) (hp : p ∈ lists j) (hkj : k ≤ j) :
    2 ^ k * pageSize ≤ s.stats.freeBytes := by
  have count := h.page_count
  have block : 2 ^ j ≤ freePages lists := weight_mem (f := fun k _ => 2 ^ k) hj hp
  have smaller : 2 ^ k ≤ 2 ^ j := Nat.pow_le_pow_right (by omega) hkj
  have total := acc.freeBytes
  rw [acc.usedBytes, acc.totalBytes, ← count, Nat.add_mul] at total
  have bytes := Nat.mul_le_mul_right pageSize (smaller.trans block)
  omega

/-- `alloc_pages` reports exhaustion with nothing changed, hands out a block, or
splits a block beyond the bitmaps' capacity and stops. -/
theorem allocPages_spec (h : Inv s m lists live pages) (acc : Accounts s live pages)
    (hk : k < buddyMaxOrder) :
    (s.allocPages m k = .ok (none, s, m) ∧ ∀ j, k ≤ j → j < buddyMaxOrder → lists j = []) ∨
    (∃ p s' m' lists', s.allocPages m k = .ok (some (node s.base p), s', m') ∧
      Inv s' m' lists' (⟨k, p⟩ :: live) pages ∧ Accounts s' (⟨k, p⟩ :: live) pages ∧
      s'.base = s.base ∧ Memory.StoresIn (Apart s.base live) m m' ∧ Bitmap.InRange k p ∧
      (NoBuddies lists → NoBuddies lists')) ∨
    s.allocPages m k = .error .indexOutOfBounds ∧ ∃ x ∈ pages, Bitmap.capacity ≤ x := by
  have guard := require_true "order exceeds BUDDY_MAX_ORDER" (decide_eq_true hk)
  cases found : s.findOrder k with
  | none =>
    left
    refine ⟨?_, findOrder_none h found⟩
    simp only [allocPages, guard, found]
    rfl
  | some j =>
    right
    obtain ⟨hkj, hj, p, hp, head, first, _⟩ := findOrder_some h found
    obtain ⟨s₁, toggled, inv₁, frame₁⟩ := unlink_spec h hj hp
    obtain ⟨d, rfl⟩ := Nat.exists_eq_add_of_le hkj
    rw [pop_eq_unlink first] at toggled inv₁ frame₁
    rcases splitLoop_spec d inv₁ with ⟨s₂, m₂, lists₂, split, inv₂, frame₂, low, keep⟩ | ⟨out, far⟩
    · left
      have frame := frame₁.trans frame₂
      have room := acc.free_covers h hj hp hkj
      have sub := checkedSub_le (a := s₂.stats.freeBytes) (b := (1 <<< k) * pageSize)
        (by rw [frame.stats, Nat.one_shiftLeft]; exact room)
      have base : s₂.base + p * pageSize = node s.base p := by rw [frame.base]; rfl
      obtain ⟨t, run, total_t, used_t, free_t⟩ : ∃ t,
          s.allocPages m k = .ok (some (node s.base p), { s₂ with stats := t }, m₂) ∧
          t.totalBytes = s.stats.totalBytes ∧ t.usedBytes = s.stats.usedBytes + 2 ^ k * pageSize ∧
          t.freeBytes = s.stats.freeBytes - 2 ^ k * pageSize := by
        rw [← frame.stats, ← Nat.one_shiftLeft]
        simp only [allocPages, guard, found, head, setFreeList_base, node_page,
          Nat.add_sub_cancel_left]
        simp only [bind, Except.bind, toggled, split, sub, base]
        exact ⟨_, rfl, rfl, rfl, rfl⟩
      refine ⟨p, _, m₂, lists₂, run, inv₂.recount, ?_, frame.base, frame.stores,
        low (h.listed_range _ hj p hp), fun none => keep ?_⟩
      · have total := acc.freeBytes
        have used := acc.usedBytes
        refine ⟨frame.totalPages.trans acc.totalPages, total_t.trans acc.totalBytes, ?_, ?_⟩
        · simp only [used_t, heldPages_cons, Nat.add_mul]
          omega
        · simp only [used_t, free_t, total_t]
          omega
      · exact none.sub (update_erase_sub lists _ p)
    · right
      refine ⟨?_, p, h.listed_mem hj hp (inBlock_self _ p), far⟩
      simp only [allocPages, guard, found, head, setFreeList_base, node_page,
        Nat.add_sub_cancel_left]
      simp only [bind, Except.bind, toggled, out]

/-! `dealloc_pages`. -/

/-- The pair bit of a block in hand tells whether its buddy is listed: the block
itself is on no list, so the parity counts the buddy alone. -/
theorem pair_bit (h : Inv s m lists (⟨k, p⟩ :: held) pages) :
    (s.bitmaps k).bit (p >>> (k + 1)) = decide (p ^^^ 2 ^ k ∈ lists k) := by
  obtain ⟨hk, aligned⟩ := h.held_aligned ⟨k, p⟩ (by simp)
  have only : ∀ q ∈ lists k, (decide (q >>> (k + 1) = p >>> (k + 1)) = true ↔
      (q == p ^^^ 2 ^ k) = true) := by
    intro q hq
    rw [decide_eq_true_eq, beq_iff_eq, Nat.shiftRight_eq_div_pow, Nat.shiftRight_eq_div_pow]
    constructor
    · intro same
      rcases pair_index_eq aligned (h.listed_aligned k hk q hq) same.symm with rfl | e
      · exact absurd hq (h.hand_not_listed hk)
      · exact e
    · rintro rfl
      exact pair_index_buddy aligned
  have count : (lists k).countP (fun q => q >>> (k + 1) = p >>> (k + 1)) =
      (lists k).count (p ^^^ 2 ^ k) := List.countP_congr only
  rw [h.parity k hk, count, (h.nodup hk).count]
  by_cases mem : p ^^^ 2 ^ k ∈ lists k <;> simp [mem]

theorem mergeLoop_spec (left : Nat) :
    ∀ {s : BuddyAllocator} {m : Memory} {lists : Nat → List Nat} {k p : Nat},
      Inv s m lists (⟨k, p⟩ :: held) pages → Bitmap.InRange k p → k + left = buddyMaxOrder - 1 →
      ∃ s' m' lists' p' k', mergeLoop left s m p k = .ok (s', m', p', k') ∧
        Inv s' m' lists' (⟨k', p'⟩ :: held) pages ∧ Bitmap.InRange k' p' ∧ Frame held s m s' m' ∧
        (∀ j q, q ∈ lists' j → q ∈ lists j) ∧
        (k' < buddyMaxOrder - 1 → p' ^^^ 2 ^ k' ∉ lists' k') := by
  induction left with
  | zero =>
    intro s m lists k p h range top
    exact ⟨s, m, lists, p, k, rfl, h, range, .refl _ _ _, fun _ _ hq => hq, fun lt => by omega⟩
  | succ left ih =>
    intro s m lists k p h range top
    obtain ⟨hk, aligned⟩ := h.held_aligned ⟨k, p⟩ (by simp)
    have test := Bitmap.test_eq (b := s.bitmaps k) range
    by_cases mem : p ^^^ 2 ^ k ∈ lists k
    · have bit : (s.bitmaps k).test (p >>> (k + 1)) = .ok true := by
        rw [test, pair_bit h, decide_eq_true mem]
      obtain ⟨s₁, toggled, inv₁, frame₁⟩ := unlink_spec h hk mem
      have pair : (p ^^^ 2 ^ k) >>> (k + 1) = p >>> (k + 1) := by
        rw [Nat.shiftRight_eq_div_pow, Nat.shiftRight_eq_div_pow]
        exact pair_index_buddy aligned
      rw [pair] at toggled
      have below : k + 1 < buddyMaxOrder := by omega
      have rest : k + 1 + left = buddyMaxOrder - 1 := by omega
      have range₁ := range.up (Nat.min_le_left p (p ^^^ 2 ^ k))
      obtain ⟨s₂, m₂, lists₂, p', k', run, inv₂, range₂, frame₂, sub, last⟩ :=
        ih (inv₁.merge below) range₁ rest
      refine ⟨s₂, m₂, lists₂, p', k', ?_, inv₂, range₂, frame₁.drop.trans frame₂, ?_, last⟩
      · simp only [mergeLoop, bind, Except.bind, bit, Nat.one_shiftLeft, if_true]
        have toggled' : ((s.unlinkBuddy m (s.base + (p ^^^ 2 ^ k) * pageSize) k).1).toggle k
            (p >>> (k + 1)) = .ok s₁ := toggled
        simp only [toggled']
        exact run
      · exact fun j q hq => update_erase_sub lists k _ j q (sub j q hq)
    · have bit : (s.bitmaps k).test (p >>> (k + 1)) = .ok false := by
        rw [test, pair_bit h, decide_eq_false mem]
      refine ⟨s, m, lists, p, k, ?_, h, range, .refl _ _ _, fun _ _ hq => hq, fun _ => mem⟩
      simp [mergeLoop, bind, Except.bind, bit]
      rfl

theorem deallocPages_spec (h : Inv s m lists live pages) (acc : Accounts s live pages)
    (hb : b ∈ live) (range : Bitmap.InRange b.order b.page) :
    ∃ s' m' lists', s.deallocPages m (b.start s.base) b.order = .ok (s', m') ∧
      Inv s' m' lists' (live.erase b) pages ∧ Accounts s' (live.erase b) pages ∧
      s'.base = s.base ∧ Memory.StoresIn (Apart s.base (live.erase b)) m m' ∧
      (NoBuddies lists → NoBuddies lists') := by
  obtain ⟨hk, aligned⟩ := h.held_aligned b hb
  have hand := h.perm (List.perm_cons_erase hb)
  obtain ⟨s₁, m₁, lists₁, p', k', merged, inv₁, range₁, frame₁, sub, last⟩ :=
    mergeLoop_spec (buddyMaxOrder - 1 - b.order) hand range (by omega)
  obtain ⟨s₂, m₂, filed, inv₂, frame₂⟩ := freeBlock_spec inv₁ range₁
  have frame := frame₁.trans frame₂
  have count := heldPages_erase hb
  have used := acc.usedBytes
  rw [← count, Nat.add_mul] at used
  have guard₁ : require (decide (b.start s.base ≥ s.base) &&
      (b.start s.base - s.base) % pageSize == 0) "dealloc_pages: address not from this allocator" =
      .ok () := by
    apply require_true
    have above : s.base ≤ b.start s.base := Nat.le_add_right _ _
    have page : (b.start s.base - s.base) % pageSize = 0 := by
      unfold Block.start pageSize; omega
    simp [above, page]
  have guard₂ := require_true "order exceeds BUDDY_MAX_ORDER" (decide_eq_true hk)
  have page : (b.start s.base - s.base) / pageSize = b.page := node_page s.base b.page
  have sub_used := checkedSub_le (a := s₂.stats.usedBytes) (b := (1 <<< b.order) * pageSize)
    (by rw [frame.stats, Nat.one_shiftLeft]; omega)
  obtain ⟨t, run, total_t, used_t, free_t⟩ : ∃ t,
      s.deallocPages m (b.start s.base) b.order = .ok ({ s₂ with stats := t }, m₂) ∧
      t.totalBytes = s.stats.totalBytes ∧ t.usedBytes = s.stats.usedBytes - 2 ^ b.order * pageSize ∧
      t.freeBytes = s.stats.freeBytes + 2 ^ b.order * pageSize := by
    rw [← frame.stats, ← Nat.one_shiftLeft]
    simp only [deallocPages, guard₁, guard₂, page, bind, Except.bind, merged, filed, sub_used]
    exact ⟨_, rfl, rfl, rfl, rfl⟩
  refine ⟨_, m₂, _, run, inv₂.recount, ?_, frame.base, frame.stores, fun none => ?_⟩
  · have total := acc.freeBytes
    refine ⟨frame.totalPages.trans acc.totalPages, total_t.trans acc.totalBytes, ?_, ?_⟩
    · simp only [used_t]; omega
    · simp only [used_t, free_t, total_t]; omega
  · exact (none.sub sub).push last

end CrustyOs.Abalone.BuddyAllocator
