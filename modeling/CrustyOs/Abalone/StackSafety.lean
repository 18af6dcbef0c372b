import CrustyOs.Abalone.AllocatorStack

/-! The allocators together are safe: whatever the interleaving of the clients' calls, what
any two of them hold is apart, and no call changes what stays live. -/
namespace CrustyOs.Abalone.AllocatorStack
open Lib BuddyAllocator

variable {s s' : AllocatorStack} {c : Cache} {i : Nat}

/-! What each client holds, inside the blocks of the buddy allocator. -/

theorem Sound.payload_within (h : Sound s) {p : Nat} (hp : p ∈ s.objects) :
    (TlsfInner.payloadRange s.mem p).Within s.pool.range := by
  have tidy := h.tidy ⟨[s.pool.range], s.objects.map (TlsfInner.payloadRange s.mem)⟩ (by simp [owners])
  obtain ⟨q, hq, inside⟩ := tidy.inside _ (List.mem_map_of_mem hp)
  obtain rfl := List.mem_singleton.mp hq
  exact inside

theorem slot_within (h : c.Sound s) {p : Nat} (hp : p ∈ c.live) :
    ∃ b ∈ c.slabs, ByteRange.Within ⟨p, c.element.size⟩ b.range := by
  obtain ⟨q, hq, inside⟩ := h.owner.inside ⟨p, c.element.size⟩ (List.mem_map_of_mem hp)
  obtain ⟨b, hb, rfl⟩ := List.mem_map.mp hq
  exact ⟨b, hb, inside⟩

theorem Sound.pool_apart (h : Sound s) {b : Allocation} (hb : b ∈ s.blocks ++ s.caches.flatMap Cache.slabs) :
    s.pool.range.Apart b.range := by
  have apart := h.held_apart
  rw [holds_eq, allocations, List.map_append, List.map_cons, List.pairwise_append, List.pairwise_cons] at apart
  cases List.mem_append.mp hb with
  | inl block => exact (apart.2.2 _ (List.mem_map_of_mem block) _ List.mem_cons_self).symm
  | inr slab => exact apart.2.1.1 _ (List.mem_map_of_mem slab)

/-! Each allocator's invariant while the others store. -/

theorem Cache.Sound.kept (h : c.Sound s) (same : SameOn c.slabs s.mem s'.mem) : c.Sound s' := by
  obtain ⟨hk, fits, bases, free, parts, inv⟩ := h
  have slabs : c.slabs = bases.map fun x => ⟨x, c.order⟩ := inv.slabs_eq
  rw [slabs] at same
  refine ⟨hk, fits, bases, free, parts, inv.sourced fits (fun x hx a inside => ?_) trivial⟩
  have word := same _ (List.mem_map_of_mem hx) a
  rw [Slab.slab_range hk] at word
  exact word inside.1 inside.2

theorem heap_kept {m : Memory} {pool : Allocation} {t : TlsfInner.System}
    (h : ∃ lists cs, TlsfInner.Sound pool.ptr (pool.range.start + pool.range.len) t lists cs)
    (same : SameOn [pool] t.mem m) :
    ∃ lists cs, TlsfInner.Sound pool.ptr (pool.range.start + pool.range.len) { t with mem := m } lists cs := by
  obtain ⟨lists, cs, sound⟩ := h
  exact ⟨lists, cs, sound.kept (same pool (List.mem_singleton.mpr rfl))⟩

/-! One lemma for each client: its call returns, keeps every invariant, and changes nothing
that stays live. -/

theorem Sound.pages_step (h : Sound s) {op : BuddyAllocator.Op} (valid : BuddyAllocator.Valid s.pageClient op)
    (new : s.Registrable op) : ∃ s', exec s (.pages op) = .ok s' ∧ Sound s' ∧
      ((∀ addr value, op ≠ .store addr value) → Memory.StoresIn (OutsideLive s s') s.mem s'.mem) := by
  obtain ⟨lists, blocks, sound⟩ := h.whole
  obtain ⟨w, lists', blocks', done, sound', effect⟩ := sound.returns h.roomy
    valid.beside fun x hx => (new x hx).1
  obtain ⟨r, run, rfl⟩ := exec_beside valid done
  have off := sound.off_others valid effect run
  have slabs : ∀ c ∈ s.caches, ∀ b ∈ c.slabs, b ∈ s.pool :: s.caches.flatMap Cache.slabs :=
    fun c hc b hb => List.mem_cons_of_mem _ (List.mem_flatMap.mpr ⟨c, hc, hb⟩)
  refine ⟨_, bind_of_ok run _, ⟨⟨lists', blocks', sound'⟩, ?_, ?_, ?_⟩, ?_⟩
  · intro x hx
    have pages : r.pages = s.pages ∪ op.registers s.pageClient := effect.pages
    have base : r.buddy.base = s.buddy.base := effect.base
    have known : x ∈ s.pages ∪ op.registers s.pageClient := pages ▸ hx
    have fits : x < 2 ^ buddyMaxOrder ∧ s.buddy.base + (x + 1) * pageSize ≤ 2 ^ 64 :=
      (Finset.mem_union.mp known).elim (h.roomy x) (new x)
    exact ⟨fits.1, base ▸ fits.2⟩
  · exact heap_kept h.heap ((SameOn.of_stores off).sub (by simp))
  · intro c hc
    exact Cache.Sound.kept (h.caches c hc) ((SameOn.of_stores off).sub (slabs c hc))
  · intro not_store
    apply ((effect.stores not_store).both off).mono
    rintro a ⟨out, others⟩
    refine ⟨fun b hb hb' => out b (List.mem_append_left _ hb) (List.mem_append_left _ hb'), fun p hp _ => ?_,
      fun i c c' hc _ p hp _ => ?_⟩
    · exact (others s.pool List.mem_cons_self).sub (h.payload_within hp)
    · have member : c ∈ s.caches := List.mem_of_getElem? hc
      obtain ⟨b, hb, inside⟩ := slot_within (h.caches c member) hp
      exact (others b (slabs c member b hb)).sub inside

theorem Sound.heap_step (h : Sound s) {op : TlsfInner.Op} (valid : TlsfInner.Valid s.heapClient op)
    (follows : TlsfInner.FollowsPredecessor s.heapClient op) : ∃ s', exec s (.heap op) = .ok s' ∧ Sound s' ∧
      ((∀ addr value, op ≠ .store addr value) → Memory.StoresIn (OutsideLive s s') s.mem s'.mem) := by
  obtain ⟨lists, cs, sound⟩ := h.heap
  obtain ⟨r, lists', cs', run, sound', stores⟩ := TlsfInner.step_stores sound valid follows
  have inside := TlsfInner.stores_in_pool sound valid follows run
  have slabs : ∀ c ∈ s.caches, ∀ b ∈ c.slabs, b ∈ s.blocks ++ s.caches.flatMap Cache.slabs :=
    fun c hc b hb => List.mem_append_right _ (List.mem_flatMap.mpr ⟨c, hc, hb⟩)
  have apart : ∀ a, s.pool.ptr ≤ a ∧ a + 8 ≤ s.pool.range.start + s.pool.range.len →
      ∀ b ∈ s.blocks ++ s.caches.flatMap Cache.slabs, b.range.Off a :=
    fun a within b hb => (h.pool_apart hb).off within.1 within.2
  refine ⟨_, bind_of_ok run _, ⟨?_, h.roomy, ⟨lists', cs', sound'⟩, fun c hc => ?_⟩, fun not_store => ?_⟩
  · obtain ⟨free, blocks, whole⟩ := h.whole
    refine ⟨free, blocks, whole.stored fun a changed => ⟨s.pool, by simp [AllocatorStack.whole, allocations], ?_⟩⟩
    intro out
    apply changed
    apply inside.read_eq
    rintro ⟨low, high⟩
    unfold ByteRange.Off at out
    unfold Allocation.range at out high
    dsimp only at out high
    omega
  · exact Cache.Sound.kept (h.caches c hc)
      (SameOn.of_stores (inside.mono fun a within b hb => apart a within b (slabs c hc b hb)))
  · apply (stores not_store).mono
    rintro a ⟨within, live⟩
    refine ⟨fun b hb _ => apart a within b (List.mem_append_left _ hb), live, fun i c c' hc _ p hp _ => ?_⟩
    have member : c ∈ s.caches := List.mem_of_getElem? hc
    obtain ⟨b, hb, inner⟩ := slot_within (h.caches c member) hp
    exact (apart a within b (slabs c member b hb)).sub inner

/-! A cache's blocks and the others'. -/

def others (s : AllocatorStack) (i : Nat) : List Allocation :=
  s.blocks ++ s.pool :: (s.caches.eraseIdx i).flatMap Cache.slabs

theorem allocations_perm (s : AllocatorStack) {caches : List Cache} (split : caches.Perm (c :: s.caches.eraseIdx i)) :
    (s.blocks ++ s.pool :: caches.flatMap Cache.slabs).Perm (c.slabs ++ s.others i) := by
  have flat := split.flatMap_right Cache.slabs
  rw [List.flatMap_cons] at flat
  rw [List.perm_iff_count] at flat ⊢
  intro a
  have count := flat a
  simp only [others, List.count_append, List.count_cons] at count ⊢
  omega

theorem other_slabs {b : Allocation} (hc : c ∈ s.caches.eraseIdx i) (hb : b ∈ c.slabs) : b ∈ s.others i :=
  List.mem_append_right _ (List.mem_cons_of_mem _ (List.mem_flatMap.mpr ⟨c, hc, hb⟩))

theorem Sound.sharing (h : Sound s) (hi : s.caches[i]? = some c) :
    c.order < buddyMaxOrder ∧ Slab.Fits c.element c.order ∧ ∃ bases,
      Slab.Sound c.element c.order (Slab.Sharing s.buddy.base c.order (s.others i) s.pages s.mem) (c.client s) bases := by
  obtain ⟨hk, fits, bases, free, parts, inv⟩ := h.caches c (List.mem_of_getElem? hi)
  obtain ⟨lists, blocks, sound⟩ := h.whole
  obtain ⟨inside, here⟩ := List.getElem?_eq_some_iff.mp hi
  have split := (List.getElem_cons_eraseIdx_perm inside).symm
  rw [here] at split
  have slabs : c.slabs = bases.map fun x => ⟨x, c.order⟩ := inv.slabs_eq
  obtain ⟨blocks', sound'⟩ := sound.perm (allocations_perm s split)
  rw [slabs] at sound'
  exact ⟨hk, fits, bases, free, parts, inv.sourced fits (fun _ _ _ _ => rfl) ⟨⟨lists, blocks', sound'⟩, rfl, .refl _ _⟩⟩

theorem Sound.cache_runs (h : Sound s) (hi : s.caches[i]? = some c) {op : Slab.Op}
    (valid : Slab.Valid c.element (c.client s) op) :
    Slab.exec c.element Slab.buddySource (c.client s) op = .error .addOverflow ∨
    ∃ r bases, Slab.exec c.element Slab.buddySource (c.client s) op = .ok r ∧
      Slab.Sound c.element c.order (Slab.Sharing s.buddy.base c.order (s.others i) s.pages s.mem) r bases ∧
      ((∀ addr value, op ≠ .store addr value) →
        Memory.StoresIn (Slab.OutsideLive c.element (c.client s) r) s.mem r.cache.mem) := by
  obtain ⟨hk, fits, bases, own⟩ := h.sharing hi
  have backs : Slab.Backs Slab.buddySource c.order
      (Slab.Sharing s.buddy.base c.order (s.others i) s.pages s.mem) := Slab.buddy_backs_beside hk h.roomy
  rcases Slab.step_sound backs fits own valid with stop | ⟨r, bases', run, sound, stores, _⟩
  · exact Or.inl stop
  · exact Or.inr ⟨r, bases', run, sound, stores⟩

theorem Sound.cache_step (h : Sound s) (hi : s.caches[i]? = some c) {op : Slab.Op}
    (valid : Slab.Valid c.element (c.client s) op) : exec s (.cache i op) = .error .addOverflow ∨
      ∃ s', exec s (.cache i op) = .ok s' ∧ Sound s' ∧
        ((∀ addr value, op ≠ .store addr value) → Memory.StoresIn (OutsideLive s s') s.mem s'.mem) := by
  obtain ⟨hk, fits, _, _⟩ := h.sharing hi
  rcases h.cache_runs hi valid with stop | ⟨r, bases', run, ⟨free', parts', inv⟩, stores⟩
  · left
    simp only [exec, hi, stop, bind, Except.bind]
  obtain ⟨⟨lists, blocks, sound⟩, base, away⟩ := inv.ready
  have off := away.mono fun a out => out.1
  obtain ⟨c', fresh⟩ : ∃ c' : Cache, c' =
    { c with inner := r.cache.inner, calls := r.cache.calls, live := r.live } := ⟨_, rfl⟩
  have ran : exec s (.cache i op) =
      .ok { s with buddy := r.cache.pages, mem := r.cache.mem, caches := s.caches.set i c' } := by
    simp only [exec, hi, run, fresh, bind, Except.bind, pure, Except.pure]
  obtain ⟨inside, _⟩ := List.getElem?_eq_some_iff.mp hi
  have split := List.set_perm_cons_eraseIdx inside c'
  refine Or.inr ⟨_, ran, ⟨?_, fun x hx => base ▸ h.roomy x hx, ?_, fun d hd => ?_⟩, fun not_store => ?_⟩
  · have slabs : c'.slabs = bases'.map fun x => ⟨x, c.order⟩ := by
      rw [fresh]
      exact inv.slabs_eq
    rw [← slabs] at sound
    obtain ⟨blocks', sound'⟩ := sound.perm (allocations_perm s split).symm
    exact ⟨lists, blocks', sound'⟩
  · exact heap_kept h.heap ((SameOn.of_stores off).sub (by simp [others]))
  · cases List.mem_cons.mp (split.mem_iff.mp hd) with
    | inl own =>
      rw [own, fresh]
      exact ⟨hk, fits, bases', free', parts', inv.sourced fits (fun _ _ _ _ => rfl) trivial⟩
    | inr other =>
      exact Cache.Sound.kept (h.caches d (List.mem_of_mem_eraseIdx other))
        ((SameOn.of_stores off).sub fun b => other_slabs other)
  · apply ((stores not_store).both off).mono
    rintro a ⟨live, out⟩
    refine ⟨fun b hb _ => out b (List.mem_append_left _ hb), fun p hp _ => ?_, fun j d d' hd hd' p hp hp' => ?_⟩
    · exact (out s.pool (by simp [others])).sub (h.payload_within hp)
    · by_cases same : i = j
      · subst same
        obtain rfl := Option.some.inj (hi.symm.trans hd)
        have here := List.getElem?_set_self (a := c') inside
        obtain rfl := Option.some.inj (here.symm.trans hd')
        rw [fresh] at hp'
        exact live p hp hp'
      · have other : d ∈ s.caches.eraseIdx i := List.mem_eraseIdx_iff_getElem?.mpr ⟨j, Ne.symm same, hd⟩
        obtain ⟨b, hb, inner⟩ := slot_within (h.caches d (List.mem_of_mem_eraseIdx other)) hp
        exact (out b (other_slabs other hb)).sub inner

theorem Sound.new_cache_step (h : Sound s) {t : Slab.ElementLayout} {order : Nat}
    (valid : Valid s (.newCache t order)) : ∃ s', exec s (.newCache t order) = .ok s' ∧ Sound s' ∧
      s'.mem = s.mem := by
  obtain ⟨low, size, align, room⟩ := valid
  have word : order < 64 := Nat.lt_trans low (by decide)
  have made : Slab.SlabCacheInner.new t order = .ok ⟨order, Slab.capacityFor t order, 0, AllocStats.zero⟩ := by
    unfold Slab.SlabCacheInner.new
    rw [require_true _ (decide_eq_true size), require_true _ (decide_eq_true align),
      require_true _ (decide_eq_true word)]
    rfl
  refine ⟨_, bind_of_ok made _, ⟨?_, h.roomy, h.heap, fun c hc => ?_⟩, rfl⟩
  · -- a new cache has no slab yet
    obtain ⟨lists, blocks, sound⟩ := h.whole
    have none : ([⟨t, order, ⟨order, Slab.capacityFor t order, 0, AllocStats.zero⟩, [], []⟩] : List Cache).flatMap
        Cache.slabs = [] := rfl
    refine ⟨lists, blocks, ?_⟩
    unfold AllocatorStack.whole allocations
    dsimp only
    rw [List.flatMap_append, none, List.append_nil]
    exact sound
  · cases List.mem_append.mp hc with
    | inl old => exact h.caches c old
    | inr new =>
      obtain rfl := List.mem_singleton.mp new
      have fresh : Slab.Sound t order (fun _ _ _ => True)
        ⟨⟨⟨order, Slab.capacityFor t order, 0, AllocStats.zero⟩, s.mem, s.buddy, []⟩, []⟩ [] :=
        Slab.new_sound trivial
      exact ⟨low, ⟨size, align, room⟩, [], fresh⟩

/-! The run. -/

def Op.IsStore : Op → Prop
  | .pages op => ∃ addr value, op = .store addr value
  | .heap op => ∃ addr value, op = .store addr value
  | .newCache _ _ => False
  | .cache _ op => ∃ addr value, op = .store addr value

theorem Sound.step (h : Sound s) {op : Op} (valid : Valid s op) : exec s op = .error .addOverflow ∨
    ∃ s', exec s op = .ok s' ∧ Sound s' ∧
      (¬ op.IsStore → Memory.StoresIn (OutsideLive s s') s.mem s'.mem) := by
  have apart : ∀ {p : Nat → Nat → Prop}, ¬ (∃ addr value, p addr value) → ∀ addr value, ¬ p addr value :=
    fun none addr value here => none ⟨addr, value, here⟩
  cases op with
  | pages op =>
    obtain ⟨s', run, sound, stores⟩ := h.pages_step valid.1 valid.2
    exact Or.inr ⟨s', run, sound, fun quiet => stores (apart quiet)⟩
  | heap op =>
    obtain ⟨s', run, sound, stores⟩ := h.heap_step valid.1 valid.2
    exact Or.inr ⟨s', run, sound, fun quiet => stores (apart quiet)⟩
  | newCache t order =>
    obtain ⟨s', run, sound, same⟩ := h.new_cache_step valid
    exact Or.inr ⟨s', run, sound, fun _ => same ▸ .refl _ _⟩
  | cache i op =>
    obtain ⟨c, hi, valid⟩ := valid
    cases h.cache_step hi valid with
    | inl stop => exact Or.inl stop
    | inr returned =>
      obtain ⟨s', run, sound, stores⟩ := returned
      exact Or.inr ⟨s', run, sound, fun quiet => stores (apart quiet)⟩

/-- Another user of the buddy allocator may take blocks and store to blocks of whole pages, as
long as it leaves the pool and the slabs. -/
theorem Sound.adopt (h : Sound s) {b : BuddyAllocator} {m : Memory} {out : List Allocation}
    (whole : ∃ lists blocks,
      BuddyAllocator.Sound ⟨b, m, out ++ s.pool :: s.caches.flatMap Cache.slabs, s.pages⟩ lists blocks)
    (base : b.base = s.buddy.base) (same : SameOn (s.pool :: s.caches.flatMap Cache.slabs) s.mem m) :
    Sound { s with buddy := b, mem := m, blocks := out } := by
  refine ⟨whole, fun x hx => base ▸ h.roomy x hx, heap_kept h.heap (same.sub (by simp)), fun c hc => ?_⟩
  apply Cache.Sound.kept (h.caches c hc)
  apply same.sub
  intro b hb
  exact List.mem_cons_of_mem _ (List.mem_flatMap.mpr ⟨c, hc, hb⟩)

theorem Sound.run {s₀ : AllocatorStack} (h : Sound s₀) (run : Reach exec Valid s₀ s) : Sound s := by
  apply run.invariant h
  intro s op s' sound valid done
  cases sound.step valid with
  | inl stop => cases stop.symm.trans done
  | inr returned =>
    obtain ⟨s₁, ran, sound', _⟩ := returned
    obtain rfl := Except.ok.inj (ran.symm.trans done)
    exact sound'

structure Safe (s : AllocatorStack) : Prop where
  apart : (s.owners.flatMap Owner.hands).Pairwise ByteRange.Apart
  held : (s.owners.flatMap Owner.holds).Pairwise ByteRange.Apart
  owned : ∀ o ∈ s.owners, ∀ r ∈ o.hands, ∃ q ∈ o.holds, r.Within q
  registered : ∀ q ∈ s.owners.flatMap Owner.holds, ∃ p n, q = ⟨node s.buddy.base p, n * pageSize⟩ ∧
    ∀ x, p ≤ x → x < p + n → x ∈ s.pages

theorem Sound.safe (h : Sound s) : Safe s where
  apart := hands_apart h.tidy h.held_apart
  held := h.held_apart
  owned o ho := (h.tidy o ho).inside
  registered := by
    obtain ⟨lists, blocks, sound⟩ := h.whole
    intro q hq
    rw [holds_eq] at hq
    obtain ⟨a, ha, rfl⟩ := List.mem_map.mp hq
    obtain ⟨p, start, inside⟩ := sound.range_pages ha
    exact ⟨p, 2 ^ a.order, by rw [Allocation.range, start]; rfl, fun x low high => inside x ⟨low, high⟩⟩

end CrustyOs.Abalone.AllocatorStack
