import CrustyOs.Abalone.BuddySafety

/-! The free lists and the pair bits, in every reached state and at every moment at which
`dealloc_pages` takes a buddy off its list. -/
namespace CrustyOs.Abalone.BuddyAllocator
open Lib

variable {s : BuddyAllocator} {m : Memory} {lists : Nat → List Nat} {held : List Block}
  {pages : Finset Nat} {b : BuddyAllocator} {k p base : Nat}

def lowerOf (k i : Nat) : Nat := i * 2 ^ (k + 1)
def upperOf (k i : Nat) : Nat := i * 2 ^ (k + 1) + 2 ^ k

/-- The allocator's fields and its memory stand for these lists of start pages. -/
structure Represents (s : BuddyAllocator) (m : Memory) (lists : Nat → List Nat) : Prop where
  linked : ∀ k < buddyMaxOrder,
    Linked (nextOf m) (prevOf m) (s.freeLists k) ((lists k).map (node s.base))
  aligned : ∀ k < buddyMaxOrder, ∀ p ∈ lists k, 2 ^ k ∣ p
  once : ∀ j < buddyMaxOrder, ∀ k < buddyMaxOrder, ∀ p ∈ lists j, p ∈ lists k → j = k
  pair : ∀ k < buddyMaxOrder, ∀ i, (s.bitmaps k).bit i = true ↔
    Xor (lowerOf k i ∈ lists k) (upperOf k i ∈ lists k)

theorem pair_index_iff {i q : Nat} (aligned : 2 ^ k ∣ q) :
    q >>> (k + 1) = i ↔ q = lowerOf k i ∨ q = upperOf k i := by
  have whole : 2 ^ (k + 1) ∣ lowerOf k i := Nat.dvd_mul_left _ _
  have index : lowerOf k i / 2 ^ (k + 1) = i := Nat.mul_div_cancel i (Nat.two_pow_pos _)
  have upper : lowerOf k i ^^^ 2 ^ k = upperOf k i := buddy_lower whole
  rw [Nat.shiftRight_eq_div_pow]
  constructor
  · intro same
    rw [← upper]
    exact pair_index_eq (aligned_of_le (Nat.le_succ k) whole) aligned (index.trans same.symm)
  · rintro (rfl | rfl)
    · exact index
    · exact (pair_index_lower whole).trans index

/-- Two members at most lie under an index, so an odd count means one of them. -/
theorem odd_pair_iff {l : List Nat} (nodup : l.Nodup) (aligned : ∀ q ∈ l, 2 ^ k ∣ q) (i : Nat) :
    l.countP (fun q => q >>> (k + 1) = i) % 2 = 1 ↔ Xor (lowerOf k i ∈ l) (upperOf k i ∈ l) := by
  have ne : lowerOf k i ≠ upperOf k i := by
    have pos := Nat.two_pow_pos k
    unfold lowerOf upperOf
    omega
  have count : l.countP (fun q => q >>> (k + 1) = i) = l.count (lowerOf k i) + l.count (upperOf k i) := by
    clear nodup
    induction l with
    | nil => rfl
    | cons q l ih =>
      have here := pair_index_iff (i := i) (aligned q List.mem_cons_self)
      rw [List.countP_cons, List.count_cons, List.count_cons,
        ih fun r hr => aligned r (List.mem_cons_of_mem q hr)]
      simp only [decide_eq_true_eq, here, beq_iff_eq]
      split_ifs <;> omega
  rw [count, nodup.count, nodup.count]
  by_cases lower : lowerOf k i ∈ l <;> by_cases upper : upperOf k i ∈ l <;>
    simp [lower, upper, Xor]

theorem Inv.represents (h : Inv s m lists held pages) : Represents s m lists where
  linked := h.linked
  aligned := h.listed_aligned
  once j hj k hk p hp hp' :=
    (h.listed_single hj hk hp hp' (inBlock_self j p) (inBlock_self k p)).1.symm
  pair k hk i := by
    rw [h.parity k hk i, decide_eq_true_eq]
    exact odd_pair_iff (h.nodup hk) (h.listed_aligned k hk) i

structure Unlink where
  alloc : BuddyAllocator
  mem : Memory
  buddy : Nat
  order : Nat

/-- What `mergeLoop` takes off the lists, round by round. -/
def unlinks : Nat → BuddyAllocator → Memory → Nat → Nat → List Unlink
  | 0, _, _, _, _ => []
  | left + 1, s, m, pageIdx, ord =>
    let buddyIdx := pageIdx ^^^ (1 <<< ord)
    let pairBit := pageIdx >>> (ord + 1)
    match (s.bitmaps ord).test pairBit with
    | .ok true =>
      let r := s.unlinkBuddy m (s.base + buddyIdx * pageSize) ord
      ⟨s, m, buddyIdx, ord⟩ :: match r.1.toggle ord pairBit with
        | .ok s' => unlinks left s' r.2 (min pageIdx buddyIdx) (ord + 1)
        | .error _ => []
    | _ => []

/-- A merge takes its buddies off the lists one after the other, each at the moment recorded with it:
the first in the state that the merge starts from, the next in the one that this leaves. -/
inductive Merges : BuddyAllocator × Memory × Nat × Nat → List Unlink → BuddyAllocator × Memory × Nat × Nat → Prop where
  | stop (r : BuddyAllocator × Memory × Nat × Nat) : Merges r [] r
  | round {u : Unlink} {us : List Unlink} {p : Nat} {s : BuddyAllocator} {r : BuddyAllocator × Memory × Nat × Nat}
      (toggled : (u.alloc.unlinkBuddy u.mem (node u.alloc.base u.buddy) u.order).1.toggle u.order
        (p >>> (u.order + 1)) = .ok s)
      (rest : Merges (s, (u.alloc.unlinkBuddy u.mem (node u.alloc.base u.buddy) u.order).2, min p u.buddy,
        u.order + 1) us r) :
      Merges (u.alloc, u.mem, p, u.order) (u :: us) r

theorem mergeLoop_merges (left : Nat) : ∀ {s : BuddyAllocator} {m : Memory} {p k : Nat}
    {r : BuddyAllocator × Memory × Nat × Nat}, mergeLoop left s m p k = .ok r →
      Merges (s, m, p, k) (unlinks left s m p k) r := by
  induction left with
  | zero =>
    intro s m p k r run
    obtain rfl := Except.ok.inj run
    exact .stop _
  | succ left ih =>
    intro s m p k r run
    rw [mergeLoop] at run
    obtain ⟨set, test, run⟩ := ok_of_bind run
    rw [unlinks, test]
    cases set with
    | false =>
      obtain rfl := Except.ok.inj run
      exact .stop _
    | true =>
      obtain ⟨s₁, toggled, run⟩ := ok_of_bind run
      have toggled : (s.unlinkBuddy m (s.base + (p ^^^ (1 <<< k)) * pageSize) k).1.toggle k
          (p >>> (k + 1)) = .ok s₁ := toggled
      have rest : Merges (s₁, (s.unlinkBuddy m (s.base + (p ^^^ (1 <<< k)) * pageSize) k).2,
          min p (p ^^^ (1 <<< k)), k + 1) _ r := ih run
      simp only [toggled]
      exact Merges.round (u := ⟨s, m, p ^^^ (1 <<< k), k⟩) toggled rest

theorem unlinks_listed (left : Nat) :
    ∀ {s : BuddyAllocator} {m : Memory} {lists : Nat → List Nat} {k p : Nat},
      Inv s m lists (⟨k, p⟩ :: held) pages → Bitmap.InRange k p → k + left = buddyMaxOrder - 1 →
      ∀ u ∈ unlinks left s m p k, u.order < buddyMaxOrder ∧
        ∃ lists, Represents u.alloc u.mem lists ∧ u.buddy ∈ lists u.order := by
  induction left with
  | zero => exact fun _ _ _ u hu => absurd hu List.not_mem_nil
  | succ left ih =>
    intro s m lists k p h range top u hu
    obtain ⟨hk, aligned⟩ : k < buddyMaxOrder ∧ 2 ^ k ∣ p := h.held_aligned ⟨k, p⟩ (by simp)
    rw [unlinks, Bitmap.test_eq range, pair_bit h, Nat.one_shiftLeft] at hu
    by_cases mem : p ^^^ 2 ^ k ∈ lists k
    · rw [decide_eq_true mem] at hu
      obtain ⟨s₁, toggled, inv₁, _⟩ := unlink_spec h hk mem
      have pair : (p ^^^ 2 ^ k) >>> (k + 1) = p >>> (k + 1) := by
        rw [Nat.shiftRight_eq_div_pow, Nat.shiftRight_eq_div_pow]
        exact pair_index_buddy aligned
      rw [pair] at toggled
      have toggled : ((s.unlinkBuddy m (s.base + (p ^^^ 2 ^ k) * pageSize) k).1).toggle k
          (p >>> (k + 1)) = .ok s₁ := toggled
      simp only [toggled] at hu
      cases List.mem_cons.mp hu with
      | inl here =>
        rw [here]
        exact ⟨hk, lists, h.represents, mem⟩
      | inr later =>
        exact ih (inv₁.merge (by omega)) (range.up (Nat.min_le_left p (p ^^^ 2 ^ k))) (by omega) u later
    · rw [decide_eq_false mem] at hu
      cases hu

def deallocUnlinks (s : BuddyAllocator) (m : Memory) (ptr order : Nat) : List Unlink :=
  unlinks (buddyMaxOrder - 1 - order) s m ((ptr - s.base) / pageSize) order

/-- In every reached state the free lists are linked lists without a shared node, a pair bit
tells whether one of the pair is listed, and the merge of a valid deallocation unlinks listed
nodes only. -/
theorem representation_in_every_run {s : System} (set : BuddyAllocator.new.setBase base = .ok b)
    (run : Reach exec Valid (booted b m) s) :
    (∃ lists, Represents s.buddy s.mem lists) ∧
      ∀ ptr order, Valid s (.deallocPages ptr order) →
        (∃ r, mergeLoop (buddyMaxOrder - 1 - order) s.buddy s.mem ((ptr - s.buddy.base) / pageSize) order = .ok r ∧
          Merges (s.buddy, s.mem, (ptr - s.buddy.base) / pageSize, order)
            (deallocUnlinks s.buddy s.mem ptr order) r) ∧
        ∀ u ∈ deallocUnlinks s.buddy s.mem ptr order, u.order < buddyMaxOrder ∧
          ∃ lists, Represents u.alloc u.mem lists ∧ u.buddy ∈ lists u.order := by
  obtain ⟨_, lists, blocks, sound⟩ := run_sound set run
  refine ⟨⟨lists, sound.inv.represents⟩, fun ptr order valid => ?_⟩
  have mem : (⟨ptr, order⟩ : Allocation) ∈ blocks.map (Allocation.of s.buddy.base) := sound.live ▸ valid
  obtain ⟨c, hc, e⟩ := List.mem_map.mp mem
  obtain ⟨rfl, rfl⟩ := Allocation.mk.inj e
  have order := (sound.inv.held_aligned c hc).1
  have page : (c.start s.buddy.base - s.buddy.base) / pageSize = c.page := node_page s.buddy.base c.page
  have inv := sound.inv.perm (List.perm_cons_erase hc)
  have range := sound.range c hc
  obtain ⟨s', m', _, p', k', merged, _⟩ := mergeLoop_spec (buddyMaxOrder - 1 - c.order) inv range (by omega)
  rw [deallocUnlinks, page]
  exact ⟨⟨_, merged, mergeLoop_merges _ merged⟩, unlinks_listed _ inv range (by omega)⟩

theorem representation_in_low_run :
    ∃ s, trial exec Valid lowSystem lowOps = some s ∧ (∃ lists, Represents s.buddy s.mem lists) ∧
      ∀ ptr order, Valid s (.deallocPages ptr order) →
        (∃ r, mergeLoop (buddyMaxOrder - 1 - order) s.buddy s.mem ((ptr - s.buddy.base) / pageSize) order = .ok r ∧
          Merges (s.buddy, s.mem, (ptr - s.buddy.base) / pageSize, order)
            (deallocUnlinks s.buddy s.mem ptr order) r) ∧
        ∀ u ∈ deallocUnlinks s.buddy s.mem ptr order, u.order < buddyMaxOrder ∧
          ∃ lists, Represents u.alloc u.mem lists ∧ u.buddy ∈ lists u.order := by
  have returns : (trial exec Valid lowSystem lowOps).isSome := by decide
  obtain ⟨s, done⟩ := Option.isSome_iff_exists.mp returns
  have set : BuddyAllocator.new.setBase lowUsable = .ok { new with base := lowUsable } := rfl
  exact ⟨s, done, representation_in_every_run set (trial_reach lowOps .start done)⟩

end CrustyOs.Abalone.BuddyAllocator
