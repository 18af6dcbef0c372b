import CrustyOs.Abalone.BuddyInvariant

/-! What each buddy operation does to the invariant. -/
namespace CrustyOs.Abalone.BuddyAllocator
open Lib

variable {s : BuddyAllocator} {m : Memory} {lists : Nat → List Nat} {held : List Block}
  {pages : Finset Nat} {b : Block} {k j p q x : Nat}

/-! Moves between the two sides of the count. -/

theorem listed_push (hk : k < buddyMaxOrder) (p x : Nat) :
    listed (Function.update lists k (p :: lists k)) x = cover k p x + listed lists x :=
  weight_push (f := fun k p => cover k p x) hk p

theorem listed_erase (hk : k < buddyMaxOrder) (hp : p ∈ lists k) (x : Nat) :
    cover k p x + listed (Function.update lists k ((lists k).erase p)) x = listed lists x :=
  weight_erase (f := fun k p => cover k p x) hk hp

@[simp] theorem heldCover_cons (b : Block) (held : List Block) (x : Nat) :
    heldCover (b :: held) x = cover b.order b.page x + heldCover held x := by
  simp [heldCover]

theorem parity_cons (l : List Nat) (p k i : Nat) :
    decide ((p :: l).countP (fun q => q >>> (k + 1) = i) % 2 = 1) =
      if i = p >>> (k + 1) then !decide (l.countP (fun q => q >>> (k + 1) = i) % 2 = 1)
      else decide (l.countP (fun q => q >>> (k + 1) = i) % 2 = 1) := by
  rw [List.countP_cons]
  by_cases e : i = p >>> (k + 1)
  · have hit : decide (p >>> (k + 1) = i) = true := by simp [e]
    rw [if_pos e, if_pos hit, ← decide_not, decide_eq_decide]
    omega
  · have miss : ¬ decide (p >>> (k + 1) = i) = true := by simpa using fun h => e h.symm
    rw [if_neg e, if_neg miss, Nat.add_zero]

theorem parity_erase {l : List Nat} (hp : p ∈ l) (k i : Nat) :
    decide ((l.erase p).countP (fun q => q >>> (k + 1) = i) % 2 = 1) =
      if i = p >>> (k + 1) then !decide (l.countP (fun q => q >>> (k + 1) = i) % 2 = 1)
      else decide (l.countP (fun q => q >>> (k + 1) = i) % 2 = 1) := by
  have perm := (List.perm_cons_erase hp).countP_eq (fun q => decide (q >>> (k + 1) = i))
  have flip := parity_cons (l.erase p) p k i
  rw [perm, flip]
  split <;> simp

theorem update_push_all {Q : Nat → Nat → Prop} (all : ∀ j < buddyMaxOrder, ∀ q ∈ lists j, Q j q)
    (new : Q k p) : ∀ j < buddyMaxOrder, ∀ q ∈ Function.update lists k (p :: lists k) j, Q j q := by
  intro j hj q hq
  by_cases e : j = k
  · subst e
    rw [Function.update_self] at hq
    rcases List.mem_cons.mp hq with rfl | hq
    · exact new
    · exact all j hj q hq
  · rw [Function.update_of_ne e] at hq
    exact all j hj q hq

theorem update_erase_sub (lists : Nat → List Nat) (k p j q : Nat)
    (h : q ∈ Function.update lists k ((lists k).erase p) j) : q ∈ lists j := by
  by_cases e : j = k
  · subst e
    rw [Function.update_self] at h
    exact List.mem_of_mem_erase h
  · rwa [Function.update_of_ne e] at h

/-! `free_block`. -/

def linkFront (m : Memory) (node head : Nat) : Memory :=
  let m := setNext (setPrev m node 0) node head
  if head ≠ 0 then setPrev m head node else m

theorem next_linkFront (m : Memory) {base head : Nat} (q : Nat)
    (at_node : head = 0 ∨ ∃ r, head = node base r) :
    nextOf (linkFront m (node base p) head) (node base q) =
      if q = p then head else nextOf m (node base q) := by
  rcases at_node with rfl | ⟨r, rfl⟩
  · simp [linkFront]
  · unfold linkFront; split <;> simp

theorem prev_linkFront (m : Memory) {base head : Nat} (q : Nat)
    (at_node : head = 0 ∨ ∃ r, head = node base r) :
    prevOf (linkFront m (node base p) head) (node base q) =
      if head ≠ 0 ∧ node base q = head then node base p
      else if q = p then 0 else prevOf m (node base q) := by
  rcases at_node with rfl | ⟨r, rfl⟩
  · simp [linkFront]
  · unfold linkFront
    by_cases zero : node base r = 0 <;> simp [zero]

theorem freeBlock_eq {s' : BuddyAllocator}
    (h : (s.setFreeList k (node s.base p)).toggle k (p >>> (k + 1)) = .ok s') :
    s.freeBlock m p k = .ok (s', linkFront m (node s.base p) (s.freeLists k)) := by
  have e : (s.setFreeList k (s.base + p * pageSize)).toggle k (p >>> (k + 1)) = .ok s' := h
  simp only [freeBlock, e]
  rfl

theorem linkFront_stores (h : Inv s m lists (⟨k, p⟩ :: held) pages) (hk : k < buddyMaxOrder) :
    Memory.StoresIn (Apart s.base held) m (linkFront m (node s.base p) (s.freeLists k)) := by
  have out : ∀ c ∈ held, ¬ c.Has p := fun c hc => h.hand_apart hc (inBlock_self k p)
  have links : Memory.StoresIn (Apart s.base held) m
      (setNext (setPrev m (node s.base p) 0) (node s.base p) (s.freeLists k)) :=
    ((Memory.StoresIn.refl _ m).write 0 (node_apart out (Or.inl rfl))).write _
      (node_apart out (Or.inr rfl))
  unfold linkFront
  split
  · rename_i nonnull
    rcases h.head_cases hk with zero | ⟨q, hq, e⟩
    · exact absurd zero nonnull
    · apply links.write
      apply node_apart (p := q) _ (Or.inl e)
      exact fun c hc => h.listed_apart_held hk hq (List.mem_cons_of_mem _ hc) (inBlock_self k q)
  · exact links

theorem linkFront_linked (h : Inv s m lists (⟨k, p⟩ :: held) pages) (hk : k < buddyMaxOrder)
    (hj : j < buddyMaxOrder) :
    Linked (nextOf (linkFront m (node s.base p) (s.freeLists k)))
      (prevOf (linkFront m (node s.base p) (s.freeLists k)))
      ((s.setFreeList k (node s.base p)).freeLists j)
      ((Function.update lists k (p :: lists k) j).map (node s.base)) := by
  have at_node : s.freeLists k = 0 ∨ ∃ r, s.freeLists k = node s.base r :=
    (h.head_cases hk).imp_right fun ⟨q, _, e⟩ => ⟨q, e⟩
  have new : ∀ q ∈ lists j, q ≠ p := fun q hq e => h.hand_not_listed hj (e ▸ hq)
  have keep_next : ∀ y ∈ (lists j).map (node s.base),
      nextOf (linkFront m (node s.base p) (s.freeLists k)) y = nextOf m y := by
    intro y hy
    obtain ⟨q, hq, rfl⟩ := List.mem_map.mp hy
    rw [next_linkFront m q at_node, if_neg (new q hq)]
  have keep_prev : ∀ y ∈ (lists j).map (node s.base), y ≠ s.freeLists k →
      prevOf (linkFront m (node s.base p) (s.freeLists k)) y = prevOf m y := by
    intro y hy off
    obtain ⟨q, hq, rfl⟩ := List.mem_map.mp hy
    rw [prev_linkFront m q at_node, if_neg (fun hit => off hit.2), if_neg (new q hq)]
  by_cases e : j = k
  · subst e
    simp only [Function.update_self, List.map_cons, setFreeList, if_true]
    apply (h.linked j hj).push (h.node_ne_zero h.start_mem)
    · simpa using fun hq => new p hq rfl
    · rw [next_linkFront m p at_node, if_pos rfl]
    · rw [prev_linkFront m p at_node, if_neg, if_pos rfl]
      rintro ⟨_, hit⟩
      rcases h.head_cases hj with zero | ⟨q, hq, e⟩
      · exact h.node_ne_zero h.start_mem (hit.trans zero)
      · exact new q hq (node_inj.mp (hit.trans e)).symm
    · exact keep_next
    · exact keep_prev
    · intro nonnull
      obtain ⟨q, _, e⟩ := (h.head_cases hj).resolve_left nonnull
      rw [e, prev_linkFront m q (Or.inr ⟨q, rfl⟩), if_pos ⟨by rwa [← e], rfl⟩]
  · simp only [Function.update_of_ne e, setFreeList, if_neg e]
    apply (h.linked j hj).congr keep_next
    intro y hy
    apply keep_prev y hy
    obtain ⟨q, hq, rfl⟩ := List.mem_map.mp hy
    intro hit
    rcases h.head_cases hk with zero | ⟨r, hr, er⟩
    · exact h.node_ne_zero (h.listed_mem hj hq (inBlock_self j q)) (hit.trans zero)
    · have same : q = r := node_inj.mp (hit.trans er)
      subst same
      exact e (h.listed_single hk hj hr hq (inBlock_self k q) (inBlock_self j q)).1

theorem freeBlock_out (h : ¬ Bitmap.InRange k p) :
    s.freeBlock m p k = .error .indexOutOfBounds := by
  have out : (s.setFreeList k (s.base + p * pageSize)).toggle k (p >>> (k + 1)) =
      .error .indexOutOfBounds := toggle_out h
  simp only [freeBlock, out]
  rfl

theorem freeBlock_spec (h : Inv s m lists (⟨k, p⟩ :: held) pages) (range : Bitmap.InRange k p) :
    ∃ s' m', s.freeBlock m p k = .ok (s', m') ∧
      Inv s' m' (Function.update lists k (p :: lists k)) held pages ∧ Frame held s m s' m' := by
  have hk : k < buddyMaxOrder := (h.held_aligned ⟨k, p⟩ (by simp)).1
  obtain ⟨s', toggled, e_base, e_total, e_stats, e_lists, e_bit⟩ :=
    toggle_eq (s := s.setFreeList k (node s.base p)) (k := k) range
  refine ⟨s', _, freeBlock_eq toggled, ?_, e_base, e_total, e_stats, linkFront_stores h hk⟩
  refine ⟨?_, ?_, ?_, ?_, ?_, ?_, ?_⟩
  · intro j hj
    rw [e_base, e_lists]
    exact linkFront_linked h hk hj
  · intro j hj i
    rw [e_bit]
    have old := h.parity j hj i
    by_cases e : j = k
    · subst e
      rw [Function.update_self, parity_cons, ← old]
      by_cases hi : i = p >>> (j + 1)
      · subst hi; simp [setFreeList]
      · simp [hi, setFreeList]
    · rw [Function.update_of_ne e, ← old]
      simp [e, setFreeList]
  · exact update_push_all h.listed_aligned (h.held_aligned ⟨k, p⟩ (by simp)).2
  · exact fun b hb => h.held_aligned b (List.mem_cons_of_mem _ hb)
  · intro x
    have old := h.exact x
    rw [heldCover_cons] at old
    rw [listed_push hk, ← old]
    simp only
    omega
  · exact update_push_all h.listed_range range
  · rw [e_base]; exact h.based

/-! Taking a node out: `dealloc_pages` unlinks a buddy, `alloc_pages` pops a head. -/

theorem neighbours (h : Inv s m lists held pages) (hk : k < buddyMaxOrder) (hp : p ∈ lists k) :
    (prevOf m (node s.base p) = 0 ∨ ∃ r ∈ lists k, r ≠ p ∧ prevOf m (node s.base p) = node s.base r) ∧
      (nextOf m (node s.base p) = 0 ∨ ∃ r ∈ lists k, r ≠ p ∧ nextOf m (node s.base p) = node s.base r) := by
  have linked := h.linked k hk
  have mem : node s.base p ∈ (lists k).map (node s.base) := List.mem_map_of_mem hp
  have other : ∀ y ∈ ((lists k).map (node s.base)).erase (node s.base p),
      ∃ r ∈ lists k, r ≠ p ∧ y = node s.base r := by
    intro y hy
    obtain ⟨ne, hy⟩ := (linked.nodup.mem_erase_iff).mp hy
    obtain ⟨r, hr, rfl⟩ := List.mem_map.mp hy
    exact ⟨r, hr, fun e => ne (by rw [e]), rfl⟩
  obtain ⟨hprev, hnext⟩ := linked.neighbours mem
  exact ⟨hprev.imp_right (other _), hnext.imp_right (other _)⟩

theorem unlinkBuddy_links (h : Inv s m lists held pages) (hk : k < buddyMaxOrder)
    (hp : p ∈ lists k) (q : Nat) :
    nextOf (s.unlinkBuddy m (node s.base p) k).2 (node s.base q) =
        (if prevOf m (node s.base p) ≠ 0 ∧ node s.base q = prevOf m (node s.base p) then
          nextOf m (node s.base p) else nextOf m (node s.base q)) ∧
      prevOf (s.unlinkBuddy m (node s.base p) k).2 (node s.base q) =
        (if nextOf m (node s.base p) ≠ 0 ∧ node s.base q = nextOf m (node s.base p) then
          prevOf m (node s.base p) else prevOf m (node s.base q)) := by
  obtain ⟨hprev, hnext⟩ := neighbours h hk hp
  rcases hprev with ep | ⟨a, _, ap, ea⟩ <;> rcases hnext with en | ⟨c, _, cp, ec⟩
  · simp [unlinkBuddy, ep, en]
  · by_cases zero : node s.base c = 0 <;> simp [unlinkBuddy, ep, ec, zero]
  · by_cases zero : node s.base a = 0 <;> simp [unlinkBuddy, ea, en, zero, Ne.symm ap]
  · by_cases zero : node s.base a = 0 <;> by_cases zero' : node s.base c = 0 <;>
      simp [unlinkBuddy, ea, ec, zero, zero', Ne.symm ap]

theorem unlinkBuddy_lists (s : BuddyAllocator) (m : Memory) (p k j : Nat) :
    (s.unlinkBuddy m p k).1.freeLists j =
      if j = k ∧ prevOf m p = 0 then nextOf m p else s.freeLists j := by
  unfold unlinkBuddy
  by_cases zero : prevOf m p = 0
  · by_cases e : j = k <;> simp [zero, setFreeList, e]
  · simp [zero]

theorem unlinkBuddy_rest (s : BuddyAllocator) (m : Memory) (p k : Nat) :
    (s.unlinkBuddy m p k).1.base = s.base ∧ (s.unlinkBuddy m p k).1.totalPages = s.totalPages ∧
      (s.unlinkBuddy m p k).1.stats = s.stats ∧ (s.unlinkBuddy m p k).1.bitmaps = s.bitmaps := by
  unfold unlinkBuddy
  split <;> exact ⟨rfl, rfl, rfl, rfl⟩

theorem unlinkBuddy_linked (h : Inv s m lists held pages) (hk : k < buddyMaxOrder)
    (hp : p ∈ lists k) (hj : j < buddyMaxOrder) :
    Linked (nextOf (s.unlinkBuddy m (node s.base p) k).2)
      (prevOf (s.unlinkBuddy m (node s.base p) k).2)
      ((s.unlinkBuddy m (node s.base p) k).1.freeLists j)
      ((Function.update lists k ((lists k).erase p) j).map (node s.base)) := by
  rw [unlinkBuddy_lists]
  by_cases e : j = k
  · subst e
    have mem : node s.base p ∈ (lists j).map (node s.base) := List.mem_map_of_mem hp
    have erased : ((lists j).erase p).map (node s.base) =
        ((lists j).map (node s.base)).erase (node s.base p) :=
      List.map_erase (fun _ _ => node_inj.mp) _
    have linked := h.linked j hj
    rw [Function.update_self, erased]
    simp only [true_and]
    apply linked.unlink mem
    · intro y hy _
      obtain ⟨q, hq, rfl⟩ := List.mem_map.mp hy
      have nonnull := h.node_ne_zero (h.listed_mem hj hq (inBlock_self j q))
      rw [(unlinkBuddy_links h hj hp q).1]
      by_cases hit : node s.base q = prevOf m (node s.base p)
      · rw [if_pos ⟨hit ▸ nonnull, hit⟩, if_pos hit]
      · rw [if_neg (fun both => hit both.2), if_neg hit]
    · intro y hy _
      obtain ⟨q, hq, rfl⟩ := List.mem_map.mp hy
      have nonnull := h.node_ne_zero (h.listed_mem hj hq (inBlock_self j q))
      rw [(unlinkBuddy_links h hj hp q).2]
      by_cases hit : node s.base q = nextOf m (node s.base p)
      · rw [if_pos ⟨hit ▸ nonnull, hit⟩, if_pos hit]
      · rw [if_neg (fun both => hit both.2), if_neg hit]
  · -- the neighbours of `p` are on list `k`, so list `j` is not written
    rw [Function.update_of_ne e, if_neg (fun both => e both.1)]
    obtain ⟨hprev, hnext⟩ := neighbours h hk hp
    have off : ∀ q ∈ lists j, ∀ r ∈ lists k, node s.base q ≠ node s.base r := by
      intro q hq r hr same
      rw [node_inj] at same
      subst same
      exact e (h.listed_single hk hj hr hq (inBlock_self k q) (inBlock_self j q)).1
    apply (h.linked j hj).congr
    · intro y hy
      obtain ⟨q, hq, rfl⟩ := List.mem_map.mp hy
      rw [(unlinkBuddy_links h hk hp q).1, if_neg]
      rintro ⟨nonnull, hit⟩
      obtain ⟨r, hr, _, er⟩ := hprev.resolve_left nonnull
      exact off q hq r hr (hit.trans er)
    · intro y hy
      obtain ⟨q, hq, rfl⟩ := List.mem_map.mp hy
      rw [(unlinkBuddy_links h hk hp q).2, if_neg]
      rintro ⟨nonnull, hit⟩
      obtain ⟨r, hr, _, er⟩ := hnext.resolve_left nonnull
      exact off q hq r hr (hit.trans er)

theorem unlinkBuddy_stores (h : Inv s m lists held pages) (hk : k < buddyMaxOrder)
    (hp : p ∈ lists k) :
    Memory.StoresIn (Apart s.base held) m (s.unlinkBuddy m (node s.base p) k).2 := by
  obtain ⟨hprev, hnext⟩ := neighbours h hk hp
  have out : ∀ r ∈ lists k, ∀ c ∈ held, ¬ c.Has r := fun r hr c hc =>
    h.listed_apart_held hk hr hc (inBlock_self k r)
  have first : Memory.StoresIn (Apart s.base held) m
      (if prevOf m (node s.base p) ≠ 0 then
        setNext m (prevOf m (node s.base p)) (nextOf m (node s.base p)) else m) := by
    split
    · rename_i nonnull
      obtain ⟨r, hr, _, er⟩ := hprev.resolve_left nonnull
      rw [er]
      exact (Memory.StoresIn.refl _ m).write _ (node_apart (out r hr) (Or.inr rfl))
    · exact .refl _ m
  have same : nextOf (if prevOf m (node s.base p) ≠ 0 then
      setNext m (prevOf m (node s.base p)) (nextOf m (node s.base p)) else m) (node s.base p) =
      nextOf m (node s.base p) := by
    split
    · rename_i nonnull
      obtain ⟨r, _, ne, er⟩ := hprev.resolve_left nonnull
      rw [er, nextOf_setNext, if_neg (Ne.symm ne)]
    · rfl
  unfold unlinkBuddy
  simp only [same]
  split
  · rename_i nonnull
    obtain ⟨r, hr, _, er⟩ := hnext.resolve_left nonnull
    apply first.write
    exact node_apart (out r hr) (Or.inl er)
  · exact first

theorem unlink_spec (h : Inv s m lists held pages) (hk : k < buddyMaxOrder) (hp : p ∈ lists k) :
    ∃ s', (s.unlinkBuddy m (node s.base p) k).1.toggle k (p >>> (k + 1)) = .ok s' ∧
      Inv s' (s.unlinkBuddy m (node s.base p) k).2
        (Function.update lists k ((lists k).erase p)) (⟨k, p⟩ :: held) pages ∧
      Frame held s m s' (s.unlinkBuddy m (node s.base p) k).2 := by
  obtain ⟨s', toggled, e_base, e_total, e_stats, e_lists, e_bit⟩ :=
    toggle_eq (s := (s.unlinkBuddy m (node s.base p) k).1) (k := k)
      (h.listed_range k hk p hp)
  obtain ⟨u_base, u_total, u_stats, u_bitmaps⟩ := unlinkBuddy_rest s m (node s.base p) k
  rw [u_base] at e_base
  refine ⟨s', toggled, ?_, e_base, e_total.trans u_total, e_stats.trans u_stats,
    unlinkBuddy_stores h hk hp⟩
  refine ⟨?_, ?_, ?_, ?_, ?_, ?_, ?_⟩
  · intro j hj
    rw [e_base, e_lists]
    exact unlinkBuddy_linked h hk hp hj
  · intro j hj i
    rw [e_bit, u_bitmaps]
    have old := h.parity j hj i
    by_cases e : j = k
    · subst e
      rw [Function.update_self, parity_erase hp, ← old]
      by_cases hi : i = p >>> (j + 1)
      · subst hi; simp
      · simp [hi]
    · rw [Function.update_of_ne e, ← old]
      simp [e]
  · exact fun j hj q hq => h.listed_aligned j hj q (update_erase_sub lists k p j q hq)
  · intro b hb
    rcases List.mem_cons.mp hb with rfl | hb
    · exact ⟨hk, h.listed_aligned k hk p hp⟩
    · exact h.held_aligned b hb
  · intro x
    rw [heldCover_cons, ← h.exact x, ← listed_erase hk hp x]
    simp only
    omega
  · exact fun j hj q hq => h.listed_range j hj q (update_erase_sub lists k p j q hq)
  · rw [e_base]; exact h.based

end CrustyOs.Abalone.BuddyAllocator
