import CrustyOs.Abalone.BuddyCanonical

/-! Several `add_region` calls over one set of pages. Each call files the blocks of its own
greedy decomposition; nothing merges across calls. -/
namespace CrustyOs.Abalone.BuddyAllocator
open Lib

abbrev Calls := List (Nat × Nat)

def callPages (base : Nat) (c : Nat × Nat) : Finset Nat := regionPages base c.1 c.2

def Registered (base : Nat) (calls : Calls) (x : Nat) : Prop := ∃ c ∈ calls, x ∈ callPages base c

/-- Page-aligned calls with pages of their own, at most `2 ^ 17` pages above the base. -/
structure Cuts (base : Nat) (calls : Calls) : Prop where
  above : ∀ c ∈ calls, base ≤ c.1 ∧ c.1 % pageSize = 0
  within : ∀ c ∈ calls, ∀ x ∈ callPages base c, x < 2 ^ buddyMaxOrder
  apart : calls.Pairwise fun c d => ∀ x ∈ callPages base c, x ∉ callPages base d

def registerAll : System → Calls → Except Panic System
  | s, [] => .ok s
  | s, c :: calls => do
    let s ← exec s (.addRegion c.1 c.2)
    registerAll s calls

/-- An allocation of order `k` would succeed. -/
def Serves (s : System) (k : Nat) : Prop :=
  ∃ ptr b m, s.buddy.allocPages s.mem k = .ok (some ptr, b, m)

def callLists (base : Nat) (c : Nat × Nat) : Nat → List Nat :=
  emitted c.2 (fun _ => []) ((c.1 - base) / pageSize) c.2

variable {s : System} {base k p : Nat} {m : Memory} {c : Nat × Nat} {calls done : Calls}
  {lists : Nat → List Nat} {b : BuddyAllocator}

theorem findOrder_eq_none {held : List Block} {pages : Finset Nat} (h : Inv b m lists held pages)
    (empty : ∀ j, k ≤ j → j < buddyMaxOrder → lists j = []) : b.findOrder k = none := by
  apply List.find?_eq_none.mpr
  intro j hj
  obtain ⟨low, high⟩ := List.mem_range'_1.mp hj
  have zero : b.freeLists j = 0 := by
    apply (h.linked j (by omega)).head_zero_iff.mpr
    rw [empty j low (by omega)]
    rfl
  simp [zero]

theorem Sound.serves_iff {blocks : List Block} (h : Sound s lists blocks)
    (within : ∀ x ∈ s.pages, x < Bitmap.capacity) (hk : k < buddyMaxOrder) :
    Serves s k ↔ ∃ j, k ≤ j ∧ j < buddyMaxOrder ∧ lists j ≠ [] := by
  constructor
  · rintro ⟨ptr, b', m', served⟩
    by_contra none
    have guard := require_true "order exceeds BUDDY_MAX_ORDER" (decide_eq_true hk)
    have search := findOrder_eq_none h.inv (k := k) fun j le lt => by
      by_contra some
      exact none ⟨j, le, lt, some⟩
    simp [allocPages, guard, search, bind, Except.bind, pure, Except.pure] at served
  · rintro ⟨j, le, lt, some⟩
    rcases allocPages_spec h.inv h.accounts hk with
      ⟨_, empty⟩ | ⟨p, b', m', _, run, _⟩ | ⟨_, x, hx, far⟩
    · exact absurd (empty j le lt) some
    · exact ⟨_, b', m', run⟩
    · exact absurd (within x hx) (Nat.not_lt_of_le far)

structure After (base : Nat) (s : System) (done : Calls) (lists : Nat → List Nat) : Prop where
  sound : Sound s lists []
  from_base : s.buddy.base = base
  listed : ∀ j q, q ∈ lists j ↔ ∃ c ∈ done, q ∈ callLists base c j
  pages : ∀ x, x ∈ s.pages ↔ Registered base done x

theorem After.call (h : After base s done lists) (based : base ≠ 0) (above : base ≤ c.1)
    (within : ∀ x ∈ callPages base c, x < 2 ^ buddyMaxOrder)
    (apart : ∀ d ∈ done, ∀ x ∈ callPages base d, x ∉ callPages base c) :
    ∃ s' lists', exec s (.addRegion c.1 c.2) = .ok s' ∧ After base s' (c :: done) lists' := by
  obtain ⟨sound, rfl, listed, pages⟩ := h
  have new : ∀ x ∈ regionPages s.buddy.base c.1 c.2, x ∉ s.pages := by
    intro x hx old
    obtain ⟨d, hd, at_d⟩ := (pages x).mp old
    exact apart d hd x at_d hx
  rcases addRegion_spec sound.inv sound.accounts based above new with
    ⟨b', m', lists', run, inv, acc, same, _, filed, _⟩ | ⟨_, x, hx, far⟩
  · refine ⟨⟨b', m', s.live, s.pages ∪ regionPages s.buddy.base c.1 c.2⟩, lists',
      by simp only [exec, bind, Except.bind, run]; rfl, ⟨inv, acc, ?_, by simp⟩, same,
      fun j q => ?_, fun x => ?_⟩
    · rw [sound.live]
      rfl
    · rw [filed, mem_emitted, listed]
      simp only [List.mem_cons, exists_eq_or_imp]
      exact or_comm
    · simp only [Finset.mem_union, pages x, Registered, List.mem_cons, exists_eq_or_imp]
      exact or_comm
  · have room : 2 ^ buddyMaxOrder ≤ Bitmap.capacity := by decide
    exact absurd (within x hx) (Nat.not_lt_of_le (room.trans far))

theorem After.all (based : base ≠ 0) (calls : Calls) : ∀ {s : System} {done : Calls}
    {lists : Nat → List Nat}, After base s done lists → Cuts base calls →
    (∀ d ∈ done, ∀ c ∈ calls, ∀ x ∈ callPages base d, x ∉ callPages base c) →
    ∃ s' done' lists', registerAll s calls = .ok s' ∧ After base s' done' lists' ∧
      ∀ c, c ∈ done' ↔ c ∈ done ∨ c ∈ calls := by
  induction calls with
  | nil => exact fun {s done lists} h _ _ => ⟨s, done, lists, rfl, h, by simp⟩
  | cons c calls ih =>
    intro s done lists h cuts apart
    obtain ⟨first, rest⟩ := List.pairwise_cons.mp cuts.apart
    obtain ⟨s₁, lists₁, run, h₁⟩ := h.call based (cuts.above c (List.mem_cons_self ..)).1
      (cuts.within c (List.mem_cons_self ..)) fun d hd => apart d hd c (List.mem_cons_self ..)
    have later : Cuts base calls := ⟨fun d hd => cuts.above d (List.mem_cons_of_mem _ hd),
      fun d hd => cuts.within d (List.mem_cons_of_mem _ hd), rest⟩
    obtain ⟨s', done', lists', run', h', same⟩ := ih h₁ later fun d hd e he => by
      cases List.mem_cons.mp hd with
      | inl here => rw [here]; exact first e he
      | inr hd => exact apart d hd e (List.mem_cons_of_mem _ he)
    refine ⟨s', done', lists', ?_, h', fun d => ?_⟩
    · simp only [registerAll, run, bind, Except.bind]
      exact run'
    · rw [same, List.mem_cons, List.mem_cons]
      tauto

theorem callLists_partition (based : base ≠ 0) (aligned : base % pageSize = 0) (above : base ≤ c.1)
    (within : ∀ x ∈ callPages base c, x < 2 ^ buddyMaxOrder) :
    Partition (buddyMaxOrder - 1) (fun x => x ∈ callPages base c)
        (fun k p => k < buddyMaxOrder ∧ p ∈ callLists base c k) ∧
      Coalesced (buddyMaxOrder - 1) fun k p => k < buddyMaxOrder ∧ p ∈ callLists base c k := by
  have set : BuddyAllocator.new.setBase base = .ok { BuddyAllocator.new with base } := by
    simp [setBase, require, new, aligned, bind, Except.bind, pure, Except.pure]
  have sound := booted_sound Memory.blank set
  have new : ∀ x ∈ regionPages base c.1 c.2, x ∉ (∅ : Finset Nat) := fun x _ => Finset.notMem_empty x
  rcases addRegion_spec sound.inv sound.accounts based above new with
    ⟨b', m', lists', run, inv, acc, same, _, filed, keep⟩ | ⟨_, x, hx, far⟩
  · have filed : lists' = callLists base c := filed
    have alone : Sound ⟨b', m', [], ∅ ∪ regionPages base c.1 c.2⟩ lists' [] := ⟨inv, acc, rfl, by simp⟩
    have pages : FreePage ⟨b', m', [], ∅ ∪ regionPages base c.1 c.2⟩ = fun x => x ∈ callPages base c := by
      funext x
      simp [FreePage, LivePage, callPages]
    have partition := alone.partition
    rw [pages, filed] at partition
    refine ⟨partition, fun k p top hB hB' => ?_⟩
    have none := keep no_buddies_empty fun _ _ _ hp => absurd hp List.not_mem_nil
    rw [filed] at none
    exact none k p top hB.2 hB'.2
  · have room : 2 ^ buddyMaxOrder ≤ Bitmap.capacity := by decide
    exact absurd (within x hx) (Nat.not_lt_of_le (room.trans far))

/-- After the calls an order is served exactly when one call alone has an aligned run for it. -/
theorem After.serves_iff (h : After base s done lists) (based : base ≠ 0)
    (aligned : base % pageSize = 0) (above : ∀ c ∈ done, base ≤ c.1)
    (within : ∀ c ∈ done, ∀ x ∈ callPages base c, x < 2 ^ buddyMaxOrder) (hk : k < buddyMaxOrder) :
    Serves s k ↔ ∃ c ∈ done, ∃ p, Fits (buddyMaxOrder - 1) (fun x => x ∈ callPages base c) k p := by
  have room : 2 ^ buddyMaxOrder ≤ Bitmap.capacity := by decide
  have inside : ∀ x ∈ s.pages, x < Bitmap.capacity := by
    intro x hx
    obtain ⟨c, hc, at_c⟩ := (h.pages x).mp hx
    exact Nat.lt_of_lt_of_le (within c hc x at_c) room
  rw [h.sound.serves_iff inside hk]
  constructor
  · rintro ⟨j, le, lt, some⟩
    obtain ⟨p, hp⟩ := List.exists_mem_of_ne_nil _ some
    obtain ⟨c, hc, at_c⟩ := (h.listed j p).mp hp
    obtain ⟨partition, _⟩ := callLists_partition based aligned (above c hc) (within c hc)
    have fits := partition.fits j p ⟨lt, at_c⟩
    refine ⟨c, hc, p, by omega, aligned_of_le le fits.aligned, fun x hx => fits.inside x ?_⟩
    have grow : 2 ^ k ≤ 2 ^ j := Nat.pow_le_pow_right (by omega) le
    exact ⟨hx.1, Nat.lt_of_lt_of_le hx.2 (by omega)⟩
  · rintro ⟨c, hc, p, fit⟩
    obtain ⟨partition, coalesced⟩ := callLists_partition based aligned (above c hc) (within c hc)
    obtain ⟨j, q, ⟨lt, at_c⟩, le, _⟩ := partition.fit_in_block coalesced fit
    exact ⟨j, le, lt, List.ne_nil_of_mem ((h.listed j q).mpr ⟨c, hc, at_c⟩)⟩

/-- Every aligned run of registered pages has an equal one inside a single call. -/
def RunsWithinCalls (base : Nat) (calls : Calls) : Prop :=
  ∀ k p, Fits (buddyMaxOrder - 1) (Registered base calls) k p →
    ∃ c ∈ calls, ∃ q, Fits (buddyMaxOrder - 1) (fun x => x ∈ callPages base c) k q

/-- The calls return, and then the orders that are served are those with an aligned run of
registered pages exactly when no cut goes through all the runs of an order. -/
theorem cuts_served_iff (set : BuddyAllocator.new.setBase base = .ok b) (based : base ≠ 0)
    (cuts : Cuts base calls) :
    ∃ s, registerAll (booted b m) calls = .ok s ∧ s.live = [] ∧
      ((∀ k < buddyMaxOrder, Serves s k ↔ ∃ p, Fits (buddyMaxOrder - 1) (Registered base calls) k p) ↔
        RunsWithinCalls base calls) := by
  have start : After base (booted b m) [] fun _ => [] :=
    ⟨booted_sound m set, by rw [setBase_ok set]; rfl, by simp, by simp [booted, Registered]⟩
  have aligned : base % pageSize = 0 := by
    by_contra off
    simp [setBase, require, new, off, bind, Except.bind] at set
  obtain ⟨s, done, lists, run, after, same⟩ := After.all based calls start cuts (by simp)
  have same : ∀ c, c ∈ done ↔ c ∈ calls := by simpa using same
  have serves : ∀ k < buddyMaxOrder, Serves s k ↔
      ∃ c ∈ calls, ∃ p, Fits (buddyMaxOrder - 1) (fun x => x ∈ callPages base c) k p := by
    intro k hk
    rw [after.serves_iff based aligned (fun c hc => (cuts.above c ((same c).mp hc)).1)
      (fun c hc => cuts.within c ((same c).mp hc)) hk]
    simp only [same]
  refine ⟨s, run, after.sound.live, ?_⟩
  constructor
  · intro exact_orders k p fit
    have hk : k < buddyMaxOrder := Nat.lt_of_le_of_lt fit.order (by decide)
    exact (serves k hk).mp ((exact_orders k hk).mpr ⟨p, fit⟩)
  · intro within k hk
    rw [serves k hk]
    constructor
    · rintro ⟨c, hc, p, fit⟩
      exact ⟨p, fit.order, fit.aligned, fun x hx => ⟨c, hc, fit.inside x hx⟩⟩
    · rintro ⟨p, fit⟩
      exact within k p fit

theorem cuts_served_iff_low :
    ∃ s, registerAll lowSystem [(lowUsable + 0x4000, 4), (lowUsable, 2)] = .ok s ∧ s.live = [] ∧
      ((∀ k < buddyMaxOrder, Serves s k ↔ ∃ p, Fits (buddyMaxOrder - 1)
          (Registered lowUsable [(lowUsable + 0x4000, 4), (lowUsable, 2)]) k p) ↔
        RunsWithinCalls lowUsable [(lowUsable + 0x4000, 4), (lowUsable, 2)]) := by
  have set : BuddyAllocator.new.setBase lowUsable = .ok { new with base := lowUsable } := rfl
  exact cuts_served_iff set (by decide) ⟨by decide, by decide, by decide⟩

/-- Two adjacent pages from two calls stay two blocks. -/
theorem adjacent_calls_not_merged :
    ¬ ∀ (base : Nat) (b : BuddyAllocator) (m : Memory) (calls : Calls) (s : System),
      BuddyAllocator.new.setBase base = .ok b → base ≠ 0 → Cuts base calls →
      registerAll (booted b m) calls = .ok s → ∀ k < buddyMaxOrder,
        Serves s k ↔ ∃ p, Fits (buddyMaxOrder - 1) (Registered base calls) k p := by
  intro claim
  have answer : (registerAll lowSystem [(lowUsable, 1), (lowUsable + 0x1000, 1)]).toOption.bind
      (fun s => (s.buddy.allocPages s.mem 1).toOption.map Prod.fst) = some none := by decide
  obtain ⟨s, returned, refused⟩ := Option.bind_eq_some_iff.mp answer
  have run : registerAll lowSystem [(lowUsable, 1), (lowUsable + 0x1000, 1)] = .ok s := by
    cases all : registerAll lowSystem [(lowUsable, 1), (lowUsable + 0x1000, 1)] with
    | error e => simp [all, Except.toOption] at returned
    | ok r => simpa [all, Except.toOption] using returned
  have set : BuddyAllocator.new.setBase lowUsable = .ok { new with base := lowUsable } := rfl
  have both : ∀ x, InBlock 1 0 x →
      Registered lowUsable [(lowUsable, 1), (lowUsable + 0x1000, 1)] x := by
    rintro x ⟨_, high⟩
    rcases (by omega : x = 0 ∨ x = 1) with rfl | rfl
    · exact ⟨(lowUsable, 1), by simp, by decide⟩
    · exact ⟨(lowUsable + 0x1000, 1), by simp, by decide⟩
  obtain ⟨ptr, b, m, served⟩ := (claim lowUsable _ Memory.blank _ s set (by decide)
    ⟨by decide, by decide, by decide⟩ run 1 (by decide)).mpr ⟨0, by decide, by decide, both⟩
  simp [served, Except.toOption] at refused

end CrustyOs.Abalone.BuddyAllocator
