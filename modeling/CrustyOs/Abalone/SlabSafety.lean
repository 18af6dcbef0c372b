import CrustyOs.Abalone.SlabBuddy
import CrustyOs.Abalone.SlabRuns

/-! Slab safety and page conservation over whole runs, over any page source that
backs the cache. -/
namespace CrustyOs.Abalone.Slab
open Lib

variable {σ : Type} {t : ElementLayout} {order : Nat} {src : PageSource σ}
  {Ready : σ → Memory → List Nat → Prop} {s s' : System σ} {bases : List Nat} {mem : Memory} {pages : σ}
  {cache : SlabCache σ}

/-- Where the live objects are, given the blocks out at the page source: each in a slot
of one of them, apart from each other and from every slab header. -/
structure Safe (t : ElementLayout) (order : Nat) (out : List (Nat × Nat)) (live : List Nat) : Prop where
  slots : ∀ p ∈ live, ∃ x, (x, order) ∈ out ∧ (∃ i < capacityFor t order, p = slot t x i) ∧
    x ≤ p ∧ p + t.size ≤ x + slabBytes order
  headers : ∀ p ∈ live, ∀ c ∈ out, p + t.size ≤ c.1 ∨ c.1 + headerSize ≤ p
  apart : live.Pairwise fun p q => p + t.size ≤ q ∨ q + t.size ≤ p

theorem Slabs.safe {m : Memory} {free : Nat → List Nat} {live : List Nat} (h : Slabs t order m bases free live)
    (fits : Fits t order) : Safe t order (bases.map fun x => (x, order)) live where
  slots p hp := by
    obtain ⟨x, hx, i, hi, _, rfl⟩ := (h.live_iff p).mp hp
    have within := fits.slot_within (x := x) hi
    exact ⟨x, List.mem_map_of_mem hx, ⟨i, hi, rfl⟩, by omega, within.2.2⟩
  headers p hp c hc := by
    obtain ⟨y, hy, rfl⟩ := List.mem_map.mp hc
    obtain ⟨x, hx, i, hi, _, rfl⟩ := (h.live_iff p).mp hp
    have within := fits.slot_within (x := x) hi
    have room := fits.header_room
    unfold headerSize at *
    by_cases e : x = y
    · subst e
      exact Or.inr within.1
    · have far := h.placed.far hx hy e
      unfold Beside at far
      omega
  apart := by
    apply h.live_nodup.imp_of_mem
    intro p q hp hq ne
    obtain ⟨x, hx, i, hi, _, rfl⟩ := (h.live_iff p).mp hp
    obtain ⟨y, hy, j, hj, _, rfl⟩ := (h.live_iff q).mp hq
    by_cases e : x = y
    · subst e
      exact slot_apart t x fun same => ne (by rw [same])
    · exact h.slots_apart fits hx hy e hi hj

def lowRun (t : ElementLayout) (ops : List Op) : Option (System BuddyAllocator) :=
  (trial BuddyAllocator.exec (BuddyAllocator.ValidWithin (2 ^ buddyMaxOrder)) BuddyAllocator.lowSystem
    [.addRegion BuddyAllocator.lowUsable 5]).bind fun b =>
      (SlabCache.new t 0 b.mem b.buddy).toOption.bind fun c => trial (exec t buddySource) (Valid t) ⟨c, []⟩ ops

theorem lowRun_reach {α : Type} {f : System BuddyAllocator → α} {v : α} {t : ElementLayout} {ops : List Op}
    (returns : (lowRun t ops).map f = some v) : ∃ mem pages cache s,
      BuddyReady 0 pages mem [] ∧ SlabCache.new t 0 mem pages = .ok cache ∧
      Reach (exec t buddySource) (Valid t) ⟨cache, []⟩ s ∧ f s = v := by
  obtain ⟨s, done, seen⟩ := Option.map_eq_some_iff.mp returns
  obtain ⟨b, booted, rest⟩ := Option.bind_eq_some_iff.mp done
  obtain ⟨c, made, last⟩ := Option.bind_eq_some_iff.mp rest
  have set : BuddyAllocator.new.setBase BuddyAllocator.lowUsable =
      .ok { BuddyAllocator.new with base := BuddyAllocator.lowUsable } := rfl
  have ready : BuddyReady 0 b.buddy b.mem [] := buddy_ready set (trial_reach _ .start booted) (by decide)
  refine ⟨b.mem, b.buddy, c, s, ready, ?_, trial_reach ops .start last, seen⟩
  cases e : SlabCache.new t 0 b.mem b.buddy with
  | error stop => simp [e, Except.toOption] at made
  | ok c' => simpa [e, Except.toOption] using made

/-- In every reached state the objects are apart, inside slabs held from the page source
and outside the headers; the next operation returns (or stops at the 2^32nd object of
one slab) without a store to an object that stays live. -/
theorem objects_safe_in_every_run (backs : Backs src order Ready) (ready : Ready pages mem [])
    (made : SlabCache.new t order mem pages = .ok cache) (room : 0 < capacityFor t order)
    (run : Reach (exec t src) (Valid t) ⟨cache, []⟩ s) :
    (∃ out, outstanding s.cache.calls = some out ∧ Safe t order out s.live) ∧
      ∀ op, Valid t s op → exec t src s op = .error .addOverflow ∨
        ∃ s', exec t src s op = .ok s' ∧ ((∀ addr value, op ≠ .store addr value) →
          Memory.StoresIn (OutsideLive t s s') s.cache.mem s'.cache.mem) := by
  obtain ⟨fits, bases, sound, _⟩ := run_sound backs ready made room run
  refine ⟨?_, fun op valid => ?_⟩
  · obtain ⟨free, parts, inv⟩ := sound
    exact ⟨_, inv.log, inv.shape.slabs.safe fits⟩
  · rcases step_sound backs fits sound valid with stop | ⟨s', _, done, _, stores, _⟩
    · exact Or.inl stop
    · exact Or.inr ⟨s', done, stores⟩

/-- An element type of 1000 bytes: four slots to a page. -/
def wide : ElementLayout := ⟨1000, 8, ⟨3, rfl⟩, by decide⟩

theorem objects_safe_in_low_run : ∃ s : System BuddyAllocator, s.live.length = 5 ∧
    (∃ out, outstanding s.cache.calls = some out ∧ Safe wide 0 out s.live) ∧
      ∀ op, Valid wide s op → exec wide buddySource s op = .error .addOverflow ∨
        ∃ s', exec wide buddySource s op = .ok s' ∧ ((∀ addr value, op ≠ .store addr value) →
          Memory.StoresIn (OutsideLive wide s s') s.cache.mem s'.cache.mem) := by
  have returns : (lowRun wide [.alloc, .alloc, .alloc, .alloc, .alloc, .dealloc 0xFFFF800000057020, .alloc]).map
      (fun s => s.live.length) = some 5 := by decide
  obtain ⟨mem, pages, cache, s, ready, made, run, length⟩ := lowRun_reach returns
  exact ⟨s, length, objects_safe_in_every_run (buddy_backs (by decide)) ready made (by decide) run⟩

def slabOf (order p : Nat) : Nat := p &&& wordNot 64 (slabBytes order - 1)

/-- The blocks obtained and not handed back are the slabs that hold an object; what was
handed back was out. -/
def Conserved (order : Nat) (s : System σ) : Prop :=
  ∃ out, outstanding s.cache.calls = some out ∧ out.Nodup ∧
    ∀ c, c ∈ out ↔ ∃ p ∈ s.live, c = (slabOf order p, order)

theorem Inv.live_base (fits : Fits t order) {c : SlabCache σ} {free : Nat → List Nat} {parts live : List Nat}
    (h : Inv t order Ready c bases free parts live) {p : Nat} (hp : p ∈ live) :
    ∃ x ∈ bases, ∃ i < capacityFor t order, i ∉ free x ∧ p = slot t x i ∧ slabOf order p = x := by
  obtain ⟨x, hx, i, hi, missing, rfl⟩ := (h.shape.slabs.live_iff p).mp hp
  exact ⟨x, hx, i, hi, missing, rfl,
    fits.slot_base (h.shape.slabs.aligned x hx) (h.shape.slabs.placed.range x hx).2 hi⟩

theorem conserved_iff (fits : Fits t order) (sound : Sound t order Ready s bases) :
    Conserved order s ↔ AllUsed t order bases s.live := by
  obtain ⟨free, parts, inv⟩ := sound
  have inj : Function.Injective fun x : Nat => (x, order) := fun a b e => congrArg Prod.fst e
  constructor
  · rintro ⟨out, log, _, exact_⟩ x hx
    obtain rfl := Option.some.inj (inv.log.symm.trans log)
    obtain ⟨p, hp, e⟩ := (exact_ (x, order)).mp (List.mem_map_of_mem hx)
    obtain ⟨y, _, i, hi, _, place, base⟩ := inv.live_base fits hp
    have same : x = y := (Prod.mk.inj e).1.trans base
    exact ⟨i, hi, by rw [same, ← place]; exact hp⟩
  · intro used
    refine ⟨_, inv.log, (List.nodup_map_iff inj).mpr (inv.shape.slabs.placed.nodup fits.pos), fun c => ?_⟩
    constructor
    · intro hc
      obtain ⟨x, hx, rfl⟩ := List.mem_map.mp hc
      obtain ⟨i, hi, hp⟩ := used x hx
      exact ⟨_, hp, by rw [slabOf, fits.slot_base (inv.shape.slabs.aligned x hx)
        (inv.shape.slabs.placed.range x hx).2 hi]⟩
    · rintro ⟨p, hp, rfl⟩
      obtain ⟨x, hx, _, _, _, _, base⟩ := inv.live_base fits hp
      rw [base]
      exact List.mem_map_of_mem hx

/-- With one slot to a slab, a freed object leaves its slab behind. -/
theorem dealloc_keeps_single (backs : Backs src order Ready) (fits : Fits t order)
    (single : capacityFor t order % 2 ^ 32 = 1) (sound : Sound t order Ready s bases) {p : Nat}
    (hp : p ∈ s.live) : ∃ s', exec t src s (.dealloc p) = .ok s' ∧ ¬ Conserved order s' := by
  obtain ⟨free, parts, inv⟩ := sound
  obtain ⟨x, hx, i, hi, missing, rfl, _⟩ := inv.live_base fits hp
  have slab := inv.shape.slabs.slab x hx
  have positive := slab.used.mpr ⟨i, hi, missing⟩
  have capacity := slab.capacity
  have limit := slab.limit
  have level : inUseOf s.cache.mem x = capacityOf s.cache.mem x := by omega
  have full : isFull s.cache.mem x = true := beq_iff_eq.mpr level
  obtain ⟨c, bases', free', parts', run, inv', _, fate⟩ := dealloc_spec backs fits inv hx hi missing
  have same : bases' = bases := by
    rcases fate with ⟨same, _⟩ | ⟨_, not_full, _⟩
    · exact same
    · rw [full] at not_full
      cases not_full
  refine ⟨⟨c, s.live.erase (slot t x i)⟩, ?_, fun conserved => ?_⟩
  · simp only [exec, run, bind, Except.bind, pure, Except.pure]
  · have used := (conserved_iff fits ⟨free', parts', inv'⟩).mp conserved
    obtain ⟨j, hj, mem⟩ := used x (same ▸ hx)
    obtain ⟨ne, old⟩ := inv.shape.slabs.live_nodup.mem_erase_iff.mp mem
    obtain ⟨y, hy, k, hk, out, e⟩ := (inv.shape.slabs.live_iff _).mp old
    obtain ⟨rfl, rfl⟩ := inv.shape.slabs.slot_inj fits hx hy hj hk e
    have short : (i :: free x).length < _ := length_lt_of_missing (List.nodup_cons.mpr ⟨missing, slab.nodup⟩)
      (by
        intro k hk
        cases hk with
        | head => exact hi
        | tail _ hk => exact slab.bound k hk) hj
      (fun here => (List.mem_cons.mp here).elim (fun e => ne (by rw [e])) out)
    have count := slab.count
    rw [List.length_cons] at short
    omega

/-- Pages are conserved in every reached state unless the header counts exactly one slot,
and then no freed object's slab is handed back. -/
theorem pages_conserved_iff (backs : Backs src order Ready) (ready : Ready pages mem [])
    (made : SlabCache.new t order mem pages = .ok cache) (room : 0 < capacityFor t order)
    (run : Reach (exec t src) (Valid t) ⟨cache, []⟩ s) :
    (capacityFor t order % 2 ^ 32 ≠ 1 → Conserved order s) ∧
      (capacityFor t order % 2 ^ 32 = 1 → ∀ p ∈ s.live,
        ∃ s', exec t src s (.dealloc p) = .ok s' ∧ ¬ Conserved order s') := by
  obtain ⟨fits, bases, sound, used⟩ := run_sound backs ready made room run
  refine ⟨fun plural => ?_, fun single p hp => dealloc_keeps_single backs fits single sound hp⟩
  exact (conserved_iff fits sound).mpr (used plural)

theorem pages_conserved_wide : ∃ s : System BuddyAllocator, s.live = [] ∧
    (capacityFor wide 0 % 2 ^ 32 ≠ 1 → Conserved 0 s) ∧
      (capacityFor wide 0 % 2 ^ 32 = 1 → ∀ p ∈ s.live,
        ∃ s', exec wide buddySource s (.dealloc p) = .ok s' ∧ ¬ Conserved 0 s') := by
  have returns : (lowRun wide [.alloc, .dealloc 0xFFFF800000057020]).map (fun s => s.live) = some [] := by decide
  obtain ⟨mem, pages, cache, s, ready, made, run, live⟩ := lowRun_reach returns
  exact ⟨s, live, pages_conserved_iff (buddy_backs (by decide)) ready made (by decide) run⟩

def pageFiller : ElementLayout := ⟨2400, 8, ⟨3, rfl⟩, by decide⟩

/-- One object allocated and freed leaves its page with the cache. -/
theorem single_slot_not_conserved :
    ¬ ∀ (t : ElementLayout) (order : Nat) (mem : Memory) (pages : BuddyAllocator)
      (cache : SlabCache BuddyAllocator) (s : System BuddyAllocator), BuddyReady order pages mem [] →
      SlabCache.new t order mem pages = .ok cache → 0 < capacityFor t order →
      Reach (exec t buddySource) (Valid t) ⟨cache, []⟩ s → Conserved order s := by
  intro claim
  have returns : (lowRun pageFiller [.alloc, .dealloc 0xFFFF800000057020]).map
      (fun s => (s.live, outstanding s.cache.calls)) = some ([], some [(0xFFFF800000057000, 0)]) := by decide
  obtain ⟨mem, pages, cache, s, ready, made, run, seen⟩ := lowRun_reach returns
  obtain ⟨live, calls⟩ := Prod.mk.inj seen
  obtain ⟨out, log, _, exact_⟩ := claim pageFiller 0 mem pages cache s ready made (by decide) run
  obtain rfl := Option.some.inj (calls.symm.trans log)
  obtain ⟨p, hp, _⟩ := (exact_ (0xFFFF800000057000, 0)).mp List.mem_cons_self
  rw [live] at hp
  cases hp

end CrustyOs.Abalone.Slab
