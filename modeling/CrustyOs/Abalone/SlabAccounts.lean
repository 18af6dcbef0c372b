import CrustyOs.Abalone.SlabSafety

/-! The counters of a slab cache over whole runs. `alloc` leaves `free_bytes` as it is,
while `dealloc` gives the object's bytes back to it, so the free bytes run ahead of the free
slots by one object for each allocation served. -/
namespace CrustyOs.Abalone.Slab
open Lib

variable {σ : Type} {t : ElementLayout} {order : Nat} {src : PageSource σ}

section Cache

variable {s s' : SlabCache σ} {p x : Nat} {full : Bool} {r : Option Unit}

theorem grow_stats (done : s.grow t src = .ok (r, s')) :
    ∃ d, s'.inner.stats = { s.inner.stats with
      totalBytes := s.inner.stats.totalBytes + slabBytes s.inner.slabOrder * d
      freeBytes := s.inner.stats.freeBytes + s.inner.capacity * t.size * d } := by
  obtain ⟨_, _, done⟩ := ok_of_bind done
  obtain ⟨⟨raw, pages, mem⟩, _, done⟩ := ok_of_bind done
  cases raw with
  | none =>
    cases done
    exact ⟨0, rfl⟩
  | some x =>
    dsimp only at done
    split at done
    · obtain ⟨_, _, done⟩ := ok_of_bind done
      cases done
      exact ⟨0, rfl⟩
    · cases done
      refine ⟨1, ?_⟩
      rw [Nat.mul_one, Nat.mul_one]
      rfl

theorem takeSlot_stats (done : s.takeSlot t = .ok (p, s')) : ∃ peakBytes, s'.inner.stats =
    { s.inner.stats with
      allocCount := s.inner.stats.allocCount + 1
      usedBytes := s.inner.stats.usedBytes + t.size
      peakBytes } := by
  obtain ⟨_, _, done⟩ := ok_of_bind done
  obtain ⟨_, _, done⟩ := ok_of_bind done
  cases done
  dsimp only
  split
  · exact ⟨_, rfl⟩
  · exact ⟨_, rfl⟩

theorem alloc_steps {found : Option Nat} (done : s.alloc t src = .ok (found, s')) :
    ∃ ready s₁, (s.inner.partialHead = 0 ∧ s.grow t src = .ok (ready, s₁) ∨
        s.inner.partialHead ≠ 0 ∧ ready = some () ∧ s₁ = s) ∧
      (ready = none ∧ found = none ∧ s' = s₁ ∨ ∃ p, found = some p ∧ s₁.takeSlot t = .ok (p, s')) := by
  by_cases empty : s.inner.partialHead = 0
  · simp only [SlabCache.alloc, if_pos empty] at done
    obtain ⟨⟨ready, s₁⟩, grew, done⟩ := ok_of_bind done
    refine ⟨ready, s₁, Or.inl ⟨empty, grew⟩, ?_⟩
    cases ready with
    | none =>
      cases done
      exact Or.inl ⟨rfl, rfl, rfl⟩
    | some _ =>
      obtain ⟨⟨objPtr, s₂⟩, taken, done⟩ := ok_of_bind done
      cases done
      exact Or.inr ⟨objPtr, rfl, taken⟩
  · simp only [SlabCache.alloc, if_neg empty] at done
    obtain ⟨_, kept, done⟩ := ok_of_bind done
    obtain rfl := Except.ok.inj kept
    obtain ⟨⟨objPtr, s₂⟩, taken, done⟩ := ok_of_bind done
    cases done
    exact ⟨some (), s, Or.inr ⟨empty, rfl, rfl⟩, Or.inr ⟨objPtr, rfl, taken⟩⟩

theorem settleSlab_stats (done : s.settleSlab t src x full = .ok s') :
    s'.inner.stats = s.inner.stats ∨
      slabBytes s.inner.slabOrder ≤ s.inner.stats.totalBytes ∧
      s.inner.capacity * t.size ≤ s.inner.stats.freeBytes ∧
      s'.inner.stats = { s.inner.stats with
        totalBytes := s.inner.stats.totalBytes - slabBytes s.inner.slabOrder
        freeBytes := s.inner.stats.freeBytes - s.inner.capacity * t.size } := by
  unfold SlabCache.settleSlab at done
  split at done
  · cases done
    exact Or.inl rfl
  · split at done
    · obtain ⟨⟨pages, mem⟩, _, done⟩ := ok_of_bind done
      obtain ⟨total, subTotal, done⟩ := ok_of_bind done
      obtain ⟨free, subFree, done⟩ := ok_of_bind done
      cases done
      obtain ⟨le, rfl⟩ := checkedSub_eq subTotal
      obtain ⟨le', rfl⟩ := checkedSub_eq subFree
      exact Or.inr ⟨le, le', rfl⟩
    · cases done
      exact Or.inl rfl

/-- The free bytes count the slots of the slabs held, and one more for each object freed. -/
def Tally (t : ElementLayout) (order : Nat) (stats : AllocStats) : Prop :=
  ∃ n, stats.totalBytes = slabBytes order * n ∧
    stats.freeBytes = t.size * (capacityFor t order * n + stats.deallocCount)

variable (slabOrder : s.inner.slabOrder = order) (capacity : s.inner.capacity = capacityFor t order)

include slabOrder capacity

theorem grow_tally (h : Tally t order s.inner.stats) (done : s.grow t src = .ok (r, s')) :
    Tally t order s'.inner.stats ∧ s'.inner.stats.deallocCount = s.inner.stats.deallocCount := by
  obtain ⟨n, total, free⟩ := h
  obtain ⟨d, stats⟩ := grow_stats done
  rw [stats, slabOrder, capacity]
  refine ⟨⟨n + d, ?_, ?_⟩, rfl⟩
  · simp only
    rw [total, Nat.mul_add]
  · simp only
    rw [free]
    ring

theorem alloc_tally {found : Option Nat} (h : Tally t order s.inner.stats)
    (done : s.alloc t src = .ok (found, s')) :
    Tally t order s'.inner.stats ∧ s'.inner.stats.deallocCount = s.inner.stats.deallocCount := by
  obtain ⟨ready, s₁, first, last⟩ := alloc_steps done
  have grown : Tally t order s₁.inner.stats ∧ s₁.inner.stats.deallocCount = s.inner.stats.deallocCount := by
    cases first with
    | inl grew => exact grow_tally slabOrder capacity h grew.2
    | inr kept =>
      obtain ⟨_, _, rfl⟩ := kept
      exact ⟨h, rfl⟩
  rcases last with ⟨_, _, rfl⟩ | ⟨p, _, taken⟩
  · exact grown
  · obtain ⟨peak, stats⟩ := takeSlot_stats taken
    rw [stats]
    exact grown

theorem dealloc_tally (pos : 0 < slabBytes order) (h : Tally t order s.inner.stats)
    (done : s.dealloc t src p = .ok s') :
    Tally t order s'.inner.stats ∧ s'.inner.stats.deallocCount = s.inner.stats.deallocCount + 1 := by
  obtain ⟨n, total, free⟩ := h
  obtain ⟨_, _, done⟩ := ok_of_bind done
  obtain ⟨_, _, done⟩ := ok_of_bind done
  obtain ⟨_, _, done⟩ := ok_of_bind done
  obtain ⟨s₁, settled, done⟩ := ok_of_bind done
  obtain ⟨used, _, done⟩ := ok_of_bind done
  cases done
  have kept := settleSlab_stats settled
  simp only [SlabCache.withStats]
  rcases kept with same | ⟨le, le', stats⟩
  · rw [same]
    refine ⟨⟨n, total, ?_⟩, rfl⟩
    simp only
    rw [free]
    ring
  · simp only [slabOrder, capacity] at le le' stats
    rw [stats]
    -- a slab was held, since its bytes are part of the total
    rw [total] at le
    obtain ⟨k, rfl⟩ : ∃ k, n = k + 1 := by
      cases n with
      | zero =>
        rw [Nat.mul_zero] at le
        omega
      | succ k => exact ⟨k, rfl⟩
    have split : t.size * (capacityFor t order * (k + 1) + s.inner.stats.deallocCount) =
        t.size * (capacityFor t order * k + s.inner.stats.deallocCount) + capacityFor t order * t.size := by
      ring
    refine ⟨⟨k, ?_, ?_⟩, rfl⟩
    · simp only
      rw [total, Nat.mul_succ, Nat.add_sub_cancel]
    · simp only
      rw [free, split, Nat.add_sub_cancel]
      ring

end Cache

variable {Ready : σ → Memory → List Nat → Prop} {s s' : System σ} {mem : Memory} {pages : σ}
  {cache : SlabCache σ} {past : List (System σ)} {op : Op}

def handedOut (s : System σ) : Nat := s.live.length + s.cache.inner.stats.deallocCount

theorem exec_tally (slabOrder : s.cache.inner.slabOrder = order)
    (capacity : s.cache.inner.capacity = capacityFor t order) (pos : 0 < slabBytes order)
    (h : Tally t order s.cache.inner.stats) (valid : Valid t s op) (done : exec t src s op = .ok s') :
    Tally t order s'.cache.inner.stats ∧
      (handedOut s' = handedOut s ∨ handedOut s' = handedOut s + 1 ∧ s'.live ≠ []) := by
  unfold handedOut
  cases op with
  | alloc =>
    obtain ⟨⟨found, c⟩, ran, done⟩ := ok_of_bind done
    obtain ⟨tally, count⟩ := alloc_tally slabOrder capacity h ran
    cases found with
    | none =>
      cases done
      exact ⟨tally, Or.inl (by rw [count])⟩
    | some p =>
      cases done
      refine ⟨tally, Or.inr ⟨?_, List.cons_ne_nil _ _⟩⟩
      simp only [List.length_cons, count]
      omega
  | dealloc p =>
    obtain ⟨c, ran, done⟩ := ok_of_bind done
    cases done
    obtain ⟨tally, count⟩ := dealloc_tally slabOrder capacity pos h ran
    have mem : p ∈ s.live := valid
    have positive := List.length_pos_of_mem mem
    refine ⟨tally, Or.inl ?_⟩
    simp only [List.length_erase_of_mem mem, count]
    omega
  | store addr value =>
    cases done
    exact ⟨h, Or.inl rfl⟩

theorem handedOut_zero_iff
    (step : ∀ s op s', Reach (exec t src) (Valid t) ⟨cache, []⟩ s → Valid t s op → exec t src s op = .ok s' →
      handedOut s' = handedOut s ∨ handedOut s' = handedOut s + 1 ∧ s'.live ≠ [])
    (fresh : cache.inner.stats.deallocCount = 0)
    (run : History (exec t src) (Valid t) ⟨cache, []⟩ (s :: past)) :
    handedOut s = 0 ↔ ∀ u ∈ s :: past, u.live = [] := by
  generalize e : s :: past = states at run ⊢
  induction run generalizing s past with
  | start =>
    obtain ⟨rfl, rfl⟩ := List.cons.inj e
    simp [handedOut, fresh]
  | @step s₁ s₂ earlier op run valid done ih =>
    obtain ⟨rfl, rfl⟩ := List.cons.inj e
    have before := ih rfl
    rw [List.forall_mem_cons, ← before]
    rcases step s₁ op s run.reach valid done with same | ⟨more, some⟩
    · rw [same]
      constructor
      · intro zero
        have none : s.live.length = 0 := by
          unfold handedOut at same zero
          omega
        exact ⟨List.length_eq_zero_iff.mp none, zero⟩
      · exact And.right
    · constructor
      · intro zero
        omega
      · rintro ⟨none, _⟩
        exact absurd none some

theorem tally_in_every_run (backs : Backs src order Ready) (ready : Ready pages mem [])
    (made : SlabCache.new t order mem pages = .ok cache) (room : 0 < capacityFor t order)
    (run : Reach (exec t src) (Valid t) ⟨cache, []⟩ s) : Tally t order s.cache.inner.stats := by
  have start := (new_spec made).2.2
  induction run with
  | start =>
    rw [start]
    exact ⟨0, rfl, rfl⟩
  | step run valid done ih =>
    obtain ⟨fits, bases, ⟨free, parts, inv⟩, _⟩ := run_sound backs ready made room run
    exact (exec_tally inv.slabOrder inv.capacity fits.pos ih valid done).1

/-- In every reached state the used and the total bytes are those of the live objects and of
the slabs held, and no subtraction underflows. The free bytes count the free slots only as
long as no object has ever been handed out. -/
theorem slab_accounts_iff (backs : Backs src order Ready) (ready : Ready pages mem [])
    (made : SlabCache.new t order mem pages = .ok cache) (room : 0 < capacityFor t order)
    (run : History (exec t src) (Valid t) ⟨cache, []⟩ (s :: past)) :
    ∃ out, outstanding s.cache.calls = some out ∧
      s.cache.inner.stats.usedBytes = s.live.length * t.size ∧
      s.cache.inner.stats.totalBytes = out.length * slabBytes order ∧
      (∀ op, Valid t s op → exec t src s op ≠ .error .subtractOverflow) ∧
      (s.cache.inner.stats.usedBytes + s.cache.inner.stats.freeBytes =
          out.length * capacityFor t order * t.size ↔ ∀ u ∈ s :: past, u.live = []) := by
  obtain ⟨fits, bases, sound, _⟩ := run_sound backs ready made room run.reach
  obtain ⟨free, parts, inv⟩ := sound
  have pos := fits.pos
  have size := fits.size
  have used := inv.accounts.used
  have total := inv.accounts.total
  obtain ⟨n, total', freeBytes⟩ := tally_in_every_run backs ready made room run.reach
  obtain rfl : bases.length = n := Nat.eq_of_mul_eq_mul_left pos (total.symm.trans total')
  have never := handedOut_zero_iff (fun s op s' run valid done => by
    obtain ⟨_, _, ⟨_, _, inv⟩, _⟩ := run_sound backs ready made room run
    exact (exec_tally inv.slabOrder inv.capacity pos (tally_in_every_run backs ready made room run)
      valid done).2) (by rw [(new_spec made).2.2]; rfl) run
  refine ⟨_, inv.log, by rw [used, Nat.mul_comm], by rw [total, List.length_map, Nat.mul_comm], ?_, ?_⟩
  · intro op valid stops
    rcases step_sound backs fits ⟨free, parts, inv⟩ valid with stop | ⟨_, _, done, _⟩
    · rw [stop] at stops
      cases stops
    · rw [done] at stops
      cases stops
  · rw [← never, used, freeBytes, List.length_map]
    have sum : t.size * s.live.length +
        t.size * (capacityFor t order * bases.length + s.cache.inner.stats.deallocCount) =
        bases.length * capacityFor t order * t.size + t.size * handedOut s := by
      unfold handedOut
      ring
    rw [sum, Nat.add_eq_left, Nat.mul_eq_zero]
    constructor
    · intro zero
      exact zero.resolve_left (by omega)
    · exact Or.inr

theorem slab_accounts_iff_wide : ∃ (cache : SlabCache BuddyAllocator) (s : System BuddyAllocator)
    (past : List (System BuddyAllocator)),
    History (exec wide buddySource) (Valid wide) ⟨cache, []⟩ (s :: past) ∧ s.live = [0xFFFF800000057020] ∧
    ∃ out, outstanding s.cache.calls = some out ∧
      s.cache.inner.stats.usedBytes = s.live.length * wide.size ∧
      s.cache.inner.stats.totalBytes = out.length * slabBytes 0 ∧
      (∀ op, Valid wide s op → exec wide buddySource s op ≠ .error .subtractOverflow) ∧
      (s.cache.inner.stats.usedBytes + s.cache.inner.stats.freeBytes =
          out.length * capacityFor wide 0 * wide.size ↔ ∀ u ∈ s :: past, u.live = []) := by
  have returns : (lowRun wide [.alloc]).map (fun s => s.live) = some [0xFFFF800000057020] := by decide
  obtain ⟨mem, pages, cache, s, ready, made, run, live⟩ := lowRun_reach returns
  obtain ⟨past, history⟩ := History.of_reach run
  exact ⟨cache, s, past, history, live,
    slab_accounts_iff (buddy_backs (by decide)) ready made (by decide) history⟩

/-- One object allocated: its bytes are counted as used and still as free. -/
theorem allocated_bytes_still_free :
    ¬ ∀ (t : ElementLayout) (order : Nat) (mem : Memory) (pages : BuddyAllocator)
      (cache : SlabCache BuddyAllocator) (s : System BuddyAllocator), BuddyReady order pages mem [] →
      SlabCache.new t order mem pages = .ok cache → 1 < capacityFor t order →
      Reach (exec t buddySource) (Valid t) ⟨cache, []⟩ s →
      ∃ out, outstanding s.cache.calls = some out ∧
        s.cache.inner.stats.usedBytes + s.cache.inner.stats.freeBytes =
          out.length * capacityFor t order * t.size := by
  intro claim
  have returns : (lowRun wide [.alloc]).map (fun s => (s.cache.inner.stats.usedBytes,
      s.cache.inner.stats.freeBytes, outstanding s.cache.calls)) =
      some (1000, 4000, some [(0xFFFF800000057000, 0)]) := by decide
  obtain ⟨mem, pages, cache, s, ready, made, run, seen⟩ := lowRun_reach returns
  obtain ⟨used, free, calls⟩ : _ ∧ _ ∧ _ := by simpa only [Prod.mk.injEq] using seen
  obtain ⟨out, log, balance⟩ := claim wide 0 mem pages cache s ready made (by decide) run
  obtain rfl := Option.some.inj (calls.symm.trans log)
  rw [used, free] at balance
  exact absurd balance (by decide)

end CrustyOs.Abalone.Slab
