import CrustyOs.Abalone.SlabSafety

/-! The partial list and the chains of free slots, told in terms of the slabs held and the
live objects, in every state of every run over the buddy allocator. -/
namespace CrustyOs.Abalone.Slab
open Lib

/-- The chain from `free_head` visits exactly the slots of the slab at `x` that are not live. -/
structure ChainOf (t : ElementLayout) (order : Nat) (m : Memory) (live : List Nat) (x : Nat)
    (f : List Nat) : Prop where
  head : freeHeadOf m x = f.headD usizeMax
  threaded : Threaded (fun i => m.read (slot t x i)) usizeMax f
  once : f.Nodup
  visits : ∀ i, i ∈ f ↔ i < capacityFor t order ∧ slot t x i ∉ live
  inner : ∀ i ∈ f, i ≠ usizeMax
  count : inUseOf m x + f.length = capacityFor t order

structure ListsOf {σ : Type} (t : ElementLayout) (order : Nat) (s : System σ) (slabs parts : List Nat) :
    Prop where
  held : outstanding s.cache.calls = some (slabs.map fun x => (x, order))
  distinct : slabs.Nodup
  linked : Linked (nextOf s.cache.mem) (prevOf s.cache.mem) s.cache.inner.partialHead parts
  once : parts.Nodup
  partials : ∀ x, x ∈ parts ↔ x ∈ slabs ∧ inUseOf s.cache.mem x < capacityFor t order
  chains : ∀ x ∈ slabs, ∃ f, ChainOf t order s.cache.mem s.live x f

section
variable {σ : Type} {t : ElementLayout} {order : Nat} {src : PageSource σ}
  {Ready : σ → Memory → List Nat → Prop} {s : System σ} {bases slabs parts live f : List Nat} {m : Memory}
  {free : Nat → List Nat} {x i : Nat}

theorem Slabs.dead_iff (h : Slabs t order m bases free live) (fits : Fits t order) (hx : x ∈ bases)
    (hi : i < capacityFor t order) : slot t x i ∉ live ↔ i ∈ free x := by
  constructor
  · intro dead
    by_contra missing
    exact dead ((h.live_iff _).mpr ⟨x, hx, i, hi, missing, rfl⟩)
  · intro listed old
    obtain ⟨y, hy, j, hj, missing, same⟩ := (h.live_iff _).mp old
    obtain ⟨rfl, rfl⟩ := h.slot_inj fits hx hy hi hj same
    exact missing listed

theorem Slabs.chain (h : Slabs t order m bases free live) (fits : Fits t order) (hx : x ∈ bases) :
    ChainOf t order m live x (free x) := by
  have slab := h.slab x hx
  refine ⟨slab.head, slab.threaded, slab.nodup, fun i => ?_, fun i hi => ?_, slab.count⟩
  · constructor
    · intro hi
      have low := slab.bound i hi
      exact ⟨low, (h.dead_iff fits hx low).mpr hi⟩
    · rintro ⟨low, dead⟩
      exact (h.dead_iff fits hx low).mp dead
  · exact Nat.ne_of_lt (fits.index_lt (slab.bound i hi))

theorem SlabOk.open_iff (h : SlabOk t order m x f) (fits : Fits t order) (narrow : capacityFor t order < 2 ^ 32) :
    Open m x ↔ inUseOf m x < capacityFor t order := by
  have pos := fits.capacity
  have stored : capacityOf m x = capacityFor t order := by
    rw [h.capacity, Nat.mod_eq_of_lt narrow]
  rw [Open, stored]
  constructor
  · rintro (zero | less)
    · omega
    · exact less
  · exact Or.inr

theorem Inv.lists (h : Inv t order Ready s.cache bases free parts s.live) (fits : Fits t order)
    (narrow : capacityFor t order < 2 ^ 32) : ListsOf t order s bases parts where
  held := h.log
  distinct := h.shape.slabs.placed.nodup fits.pos
  linked := h.shape.linked
  once := h.shape.linked.nodup
  partials x := by
    rw [h.shape.parts_iff]
    exact and_congr_right fun hx => (h.shape.slabs.slab x hx).open_iff fits narrow
  chains x hx := ⟨free x, h.shape.slabs.chain fits hx⟩

/-- With a slab on the partial list `alloc` makes no call to the page source: any source
at all gives the same result. -/
theorem ListsOf.alloc_local (h : ListsOf t order s slabs parts) (hx : x ∈ slabs)
    (spare : inUseOf s.cache.mem x < capacityFor t order) (src' : PageSource σ) :
    s.cache.alloc t src' = s.cache.alloc t src := by
  have listed := (h.partials x).mpr ⟨hx, spare⟩
  have some : s.cache.inner.partialHead ≠ 0 := by
    intro empty
    rw [h.linked.head_zero_iff.mp empty] at listed
    cases listed
  simp only [SlabCache.alloc, if_neg some]

theorem alloc_returns (backs : Backs src order Ready) (fits : Fits t order)
    (h : Inv t order Ready s.cache bases free parts s.live) :
    s.cache.alloc t src ≠ .error (.assertion "alloc called on full slab") := by
  rcases alloc_spec backs fits h with stop | ⟨c, run, _⟩ | ⟨y, i, c, _, _, _, run, _⟩
  · rw [stop]
    intro e
    cases e
  · rw [run]
    intro e
    cases e
  · rw [run]
    intro e
    cases e

end

section
variable {t : ElementLayout} {order : Nat} {mem : Memory} {pages : BuddyAllocator}
  {cache : SlabCache BuddyAllocator} {s : System BuddyAllocator}

theorem capacity_narrow (fits : Fits t order) (hk : order < buddyMaxOrder) : capacityFor t order < 2 ^ 32 := by
  have room := fits.room
  have least : capacityFor t order * 8 ≤ capacityFor t order * t.size := Nat.mul_le_mul_left _ fits.size
  have le : 2 ^ order ≤ 2 ^ 17 := Nat.pow_le_pow_right (by omega) (Nat.le_of_lt hk)
  rw [slabBytes_small hk] at room
  unfold pageSize at room
  omega

theorem alloc_no_order (made : SlabCache.new t order mem pages = .ok cache) (room : 0 < capacityFor t order)
    (high : buddyMaxOrder ≤ order) :
    cache.alloc t buddySource = .error (.assertion "order exceeds BUDDY_MAX_ORDER") := by
  obtain ⟨_, _, rfl⟩ := new_spec made
  have positive : require (capacityFor t order > 0) "SlabCache<T>: zero capacity (T too large for slab order?)" =
      .ok () := require_true _ (by simpa using room)
  have refused : require (order < buddyMaxOrder) "order exceeds BUDDY_MAX_ORDER" =
      .error (.assertion "order exceeds BUDDY_MAX_ORDER") := if_neg (by simpa using high)
  simp only [SlabCache.alloc, if_true, SlabCache.grow, positive, buddySource, BuddyAllocator.allocPages, refused,
    bind, Except.bind]

theorem run_no_order (made : SlabCache.new t order mem pages = .ok cache) (room : 0 < capacityFor t order)
    (high : buddyMaxOrder ≤ order) (run : Reach (exec t buddySource) (Valid t) ⟨cache, []⟩ s) :
    s = ⟨cache, []⟩ := by
  induction run with
  | start => rfl
  | @step s s' op _ valid done ih =>
    subst ih
    cases op with
    | alloc =>
      simp only [exec, alloc_no_order made room high, bind, Except.bind] at done
      cases done
    | dealloc ptr => cases valid
    | store addr value =>
      obtain ⟨p, hp, _⟩ := valid
      cases hp

/-- In every reached state the partial list holds the slabs with a slot to spare, each once,
and each slab's chain the slots that are not live. So `alloc` turns to the page source only
when every slab is full, and never takes the end of a chain for a slot. -/
theorem lists_in_every_run (ready : BuddyReady order pages mem [])
    (made : SlabCache.new t order mem pages = .ok cache) (room : 0 < capacityFor t order)
    (run : Reach (exec t buddySource) (Valid t) ⟨cache, []⟩ s) :
    ∃ slabs parts, ListsOf t order s slabs parts ∧
      ((∃ x ∈ slabs, inUseOf s.cache.mem x < capacityFor t order) →
        ∀ src, s.cache.alloc t src = s.cache.alloc t buddySource) ∧
      s.cache.alloc t buddySource ≠ .error (.assertion "alloc called on full slab") := by
  cases Nat.lt_or_ge order buddyMaxOrder with
  | inl hk =>
    have backs := buddy_backs hk
    obtain ⟨fits, bases, ⟨free, parts, inv⟩, _⟩ := run_sound backs ready made room run
    have lists := inv.lists fits (capacity_narrow fits hk)
    refine ⟨bases, parts, lists, ?_, alloc_returns backs fits inv⟩
    rintro ⟨x, hx, spare⟩ src
    exact lists.alloc_local hx spare src
  | inr high =>
    obtain rfl := run_no_order made room high run
    refine ⟨[], [], ?_, ?_, ?_⟩
    · obtain ⟨_, _, rfl⟩ := new_spec made
      exact ⟨rfl, List.nodup_nil, Linked.nil, List.nodup_nil, by simp, by simp⟩
    · rintro ⟨x, hx, _⟩
      cases hx
    · rw [alloc_no_order made room high]
      intro e
      exact absurd (Panic.assertion.inj (Except.error.inj e)) (by decide)

theorem lists_in_low_run : ∃ s : System BuddyAllocator, s.live = [0xFFFF800000057020] ∧
    ∃ slabs parts, ListsOf wide 0 s slabs parts ∧
      ((∃ x ∈ slabs, inUseOf s.cache.mem x < capacityFor wide 0) →
        ∀ src, s.cache.alloc wide src = s.cache.alloc wide buddySource) ∧
      s.cache.alloc wide buddySource ≠ .error (.assertion "alloc called on full slab") := by
  have returns : (lowRun wide [.alloc, .alloc, .dealloc 0xFFFF800000057408]).map (fun s => s.live) =
      some [0xFFFF800000057020] := by decide
  obtain ⟨mem, pages, cache, s, ready, made, run, live⟩ := lowRun_reach returns
  exact ⟨s, live, lists_in_every_run ready made (by decide) run⟩

end
end CrustyOs.Abalone.Slab
