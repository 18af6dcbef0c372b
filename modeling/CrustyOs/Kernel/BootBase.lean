import CrustyOs.Kernel.BootSpec

/-! The base assertion of `add_region` against the calls of `release` and
`kernel_main_continue`: a fixed 1 MiB cutoff there, the lowest usable base in `heap::init`. -/
namespace CrustyOs.Kernel.LimineData
open Lib Abalone

variable {A : AlignOps} {d : LimineData} {c : Nat × Nat} {r : MemoryRegion} {base mainSp releaseSp : Nat}

def UsableBelow (A : AlignOps) (d : LimineData) (r : MemoryRegion) : Prop :=
  ∃ u ∈ d.regions, u.regionType.isImmediatelyUsable = true ∧ u.alignedBase A ≤ r.alignedBase A

/-- The calls that come after `heap::init`, with the stack offsets `kernel_main` and
`release` see. -/
def lateCalls (A : AlignOps) (d : LimineData) (mainSp releaseSp : Nat) : Calls :=
  releaseCalls A d (spPhysPage (releaseSp - d.hhdmOffset)) ++
    (bootStackRegion A d (spPhysPage (mainSp - d.hhdmOffset))).toList

def LateAbove (A : AlignOps) (d : LimineData) (mainSp releaseSp : Nat) : Prop :=
  ∀ r, Late A d r → (HoldsPage A r (spPhysPage (releaseSp - d.hhdmOffset)) →
    HoldsPage A r (spPhysPage (mainSp - d.hhdmOffset))) → UsableBelow A d r

theorem minVirt_le_iff (set : minVirt A d = some base) (r : MemoryRegion) :
    base ≤ d.hhdmOffset + r.alignedBase A ↔ UsableBelow A d r := by
  obtain ⟨mem, least⟩ := List.min?_eq_some_iff.mp set
  obtain ⟨u, hu, rfl⟩ := List.mem_map.mp mem
  obtain ⟨member, usable⟩ := List.mem_filter.mp hu
  constructor
  · intro le
    exact ⟨u, member, usable, by omega⟩
  · rintro ⟨v, hv, usable', le⟩
    have low := least _ (List.mem_map_of_mem (List.mem_filter.mpr ⟨hv, usable'⟩))
    omega

theorem mem_lateCalls (lawful : A.Lawful) (apart : d.regions.Pairwise MemoryRegion.Apart) :
    c ∈ lateCalls A d mainSp releaseSp ↔ ∃ r, Late A d r ∧
      (HoldsPage A r (spPhysPage (releaseSp - d.hhdmOffset)) →
        HoldsPage A r (spPhysPage (mainSp - d.hhdmOffset))) ∧ c = regionCall A d r := by
  rw [lateCalls, List.mem_append, mem_releaseCalls lawful, mem_bootStackRegion lawful apart]
  constructor
  · rintro (⟨r, late, off, e⟩ | ⟨r, late, on, e⟩)
    · exact ⟨r, late, fun on => absurd on off, e⟩
    · exact ⟨r, late, fun _ => on, e⟩
  · rintro ⟨r, late, follows, e⟩
    by_cases on : HoldsPage A r (spPhysPage (mainSp - d.hhdmOffset))
    · exact Or.inr ⟨r, late, on, e⟩
    · exact Or.inl ⟨r, late, fun release => on (follows release), e⟩

def baseAssertion : Panic := .assertion "region base precedes allocator base"

/-! `add_region` leaves the base as it is, and stops at the base assertion only below it. -/

theorem toggle_cases (b : BuddyAllocator) (order bit : Nat) :
    (∃ b', b.toggle order bit = .ok b' ∧ b'.base = b.base) ∨ b.toggle order bit = .error .indexOutOfBounds := by
  unfold BuddyAllocator.toggle Bitmap.toggle
  split
  · exact Or.inl ⟨_, rfl, rfl⟩
  · exact Or.inr rfl

theorem freeBlock_cases (b : BuddyAllocator) (m : Memory) (page order : Nat) :
    (∃ b' m', b.freeBlock m page order = .ok (b', m') ∧ b'.base = b.base) ∨
      b.freeBlock m page order = .error .indexOutOfBounds := by
  unfold BuddyAllocator.freeBlock
  dsimp only
  rcases toggle_cases (b.setFreeList order (b.base + page * pageSize)) order (page >>> (order + 1)) with
    ⟨b', toggled, same⟩ | stop
  · simp only [toggled, bind, Except.bind, pure, Except.pure]
    exact Or.inl ⟨_, _, rfl, same⟩
  · simp only [stop, bind, Except.bind]
    exact Or.inr trivial

theorem addRegionLoop_cases (rounds : Nat) : ∀ (b : BuddyAllocator) (m : Memory) (offset remaining : Nat),
    (∃ b' m', BuddyAllocator.addRegionLoop rounds b m offset remaining = .ok (b', m') ∧ b'.base = b.base) ∨
      BuddyAllocator.addRegionLoop rounds b m offset remaining = .error .indexOutOfBounds := by
  induction rounds with
  | zero => exact fun b m _ _ => Or.inl ⟨b, m, rfl, rfl⟩
  | succ rounds ih =>
    intro b m offset remaining
    unfold BuddyAllocator.addRegionLoop
    split
    · dsimp only
      rcases freeBlock_cases b m offset (BuddyAllocator.nextOrder offset remaining) with
        ⟨b₁, m₁, freed, same⟩ | stop
      · simp only [freed, bind, Except.bind]
        rw [← same]
        exact ih b₁ m₁ _ _
      · simp only [stop, bind, Except.bind]
        exact Or.inr trivial
    · exact Or.inl ⟨b, m, rfl, rfl⟩

theorem addRegion_cases {s : BuddyAllocator.System} (count : Nat) {virt : Nat} (above : s.buddy.base ≤ virt) :
    (∃ s', BuddyAllocator.exec s (.addRegion virt count) = .ok s' ∧ s'.buddy.base = s.buddy.base) ∨
      ∃ e, BuddyAllocator.exec s (.addRegion virt count) = .error e ∧ e ≠ baseAssertion := by
  have guard : require (virt ≥ s.buddy.base) "region base precedes allocator base" = .ok () :=
    require_true _ (decide_eq_true above)
  unfold BuddyAllocator.exec BuddyAllocator.addRegion
  by_cases set : (s.buddy.base != 0) = true
  · have first : require (s.buddy.base != 0) "call set_base before add_region" = .ok () := require_true _ set
    simp only [first, guard, bind, Except.bind]
    rcases addRegionLoop_cases count s.buddy s.mem ((virt - s.buddy.base) / pageSize) count with
      ⟨b', m', run, same⟩ | stop
    · rw [run]
      dsimp only
      cases free : checkedSub ((b'.totalPages + count) * pageSize) b'.stats.usedBytes with
      | error e =>
        refine Or.inr ⟨e, rfl, ?_⟩
        rintro rfl
        unfold checkedSub at free
        split at free
        · cases free
        · cases free
      | ok bytes => exact Or.inl ⟨_, rfl, same⟩
    · rw [stop]
      exact Or.inr ⟨_, rfl, by decide⟩
  · have first : require (s.buddy.base != 0) "call set_base before add_region" =
        .error (.assertion "call set_base before add_region") := if_neg set
    simp only [first, bind, Except.bind]
    exact Or.inr ⟨_, rfl, by decide⟩

theorem addRegion_below {s : BuddyAllocator.System} (based : s.buddy.base ≠ 0) (count : Nat) {virt : Nat}
    (below : virt < s.buddy.base) : BuddyAllocator.exec s (.addRegion virt count) = .error baseAssertion := by
  have set : require (s.buddy.base != 0) "call set_base before add_region" = .ok () :=
    require_true _ (bne_iff_ne.mpr based)
  have guard : require (virt ≥ s.buddy.base) "region base precedes allocator base" = .error baseAssertion :=
    if_neg fun above => absurd (of_decide_eq_true above) (Nat.not_le_of_lt below)
  have stop : s.buddy.addRegion s.mem virt count = .error baseAssertion := by
    unfold BuddyAllocator.addRegion
    rw [bind_of_ok set]
    exact bind_of_error guard _
  exact bind_of_error stop _

theorem registerAll_cases (calls : Calls) : ∀ {s : BuddyAllocator.System}, (∀ c ∈ calls, s.buddy.base ≤ c.1) →
    (∃ s', BuddyAllocator.registerAll s calls = .ok s' ∧ s'.buddy.base = s.buddy.base) ∨
      ∃ e, BuddyAllocator.registerAll s calls = .error e ∧ e ≠ baseAssertion := by
  induction calls with
  | nil => exact fun {s} _ => Or.inl ⟨s, rfl, rfl⟩
  | cons c calls ih =>
    intro s above
    unfold BuddyAllocator.registerAll
    rcases addRegion_cases c.2 (above c List.mem_cons_self) with ⟨s₁, run, same⟩ | ⟨e, stop, other⟩
    · simp only [run, bind, Except.bind]
      rw [← same]
      exact ih fun c hc => by rw [same]; exact above c (List.mem_cons_of_mem _ hc)
    · simp only [stop, bind, Except.bind]
      exact Or.inr ⟨e, rfl, other⟩

def NeverBelowBase (A : AlignOps) (d : LimineData) (mainSp releaseSp : Nat) (s : BuddyAllocator.System) : Prop :=
  release A d releaseSp s ≠ .error baseAssertion ∧ ∀ s', release A d releaseSp s = .ok s' →
    kernelMainContinue (bootStackRegion A d (spPhysPage (mainSp - d.hhdmOffset))) s' ≠ .error baseAssertion

theorem never_below_base {s : BuddyAllocator.System}
    (calls : ∀ c ∈ lateCalls A d mainSp releaseSp, s.buddy.base ≤ c.1) :
    NeverBelowBase A d mainSp releaseSp s := by
  by_cases inside : d.hhdmOffset ≤ releaseSp
  · have run : release A d releaseSp s =
        BuddyAllocator.registerAll s (releaseCalls A d (spPhysPage (releaseSp - d.hhdmOffset))) := by
      simp only [release, checkedSub_le inside, bind, Except.bind]
    rcases registerAll_cases (s := s) (releaseCalls A d (spPhysPage (releaseSp - d.hhdmOffset)))
      fun c hc => calls c (List.mem_append_left _ hc) with ⟨s₁, done, same⟩ | ⟨e, stop, other⟩
    · refine ⟨by rw [run, done]; exact nofun, fun s' returned => ?_⟩
      rw [run, done] at returned
      obtain rfl := Except.ok.inj returned
      rcases registerAll_cases (s := s₁) (bootStackRegion A d (spPhysPage (mainSp - d.hhdmOffset))).toList
        (fun c hc => by rw [same]; exact calls c (List.mem_append_right _ hc)) with ⟨s₂, last, _⟩ | ⟨e, stop, other⟩
      · rw [kernelMainContinue, last]
        exact nofun
      · rw [kernelMainContinue, stop]
        exact fun e => other (Except.error.inj e)
    · refine ⟨by rw [run, stop]; exact fun e => other (Except.error.inj e), fun s' returned => ?_⟩
      rw [run, stop] at returned
      cases returned
  · have stop : release A d releaseSp s = .error .subtractOverflow := by
      simp only [release, checkedSub, if_neg inside, bind, Except.bind]
    refine ⟨by rw [stop]; exact fun e => absurd (Except.error.inj e) (by decide), fun s' returned => ?_⟩
    rw [stop] at returned
    cases returned

/-- With the base that `heap::init` sets, every later call is at or above it, and the boot
never stops at the base, exactly when usable memory starts at or below each late region. -/
theorem late_calls_above_base_iff (lawful : A.Lawful) (apart : d.regions.Pairwise MemoryRegion.Apart)
    {s : BuddyAllocator.System} (set : minVirt A d = some s.buddy.base) :
    ((∀ c ∈ lateCalls A d mainSp releaseSp, s.buddy.base ≤ c.1) ∧ NeverBelowBase A d mainSp releaseSp s) ↔
      LateAbove A d mainSp releaseSp := by
  constructor
  · rintro ⟨above, _⟩ r late follows
    exact (minVirt_le_iff set r).mp (above _ ((mem_lateCalls lawful apart).mpr ⟨r, late, follows, rfl⟩))
  · intro above
    have calls : ∀ c ∈ lateCalls A d mainSp releaseSp, s.buddy.base ≤ c.1 := by
      intro c hc
      obtain ⟨r, late, follows, rfl⟩ := (mem_lateCalls lawful apart).mp hc
      exact (minVirt_le_iff set r).mpr (above r late follows)
    exact ⟨calls, never_below_base calls⟩

/-! A map with usable memory from 2 MiB on, a reclaimable region just below it, and the boot
stack in a reclaimable region above. -/

def highUsable : LimineData where
  hhdmOffset := 0xFFFF800000000000
  kernelPhysStart := 0x400000
  kernelPhysEnd := 0x500000
  kernelVirtStart := 0xFFFFFFFF80000000
  kernelVirtEnd := 0xFFFFFFFF80100000
  regions := [⟨0x100000, 0x100000, .bootloaderReclaimable, by decide, MemoryRegion.rounds_megabyte⟩,
    ⟨0x200000, 0x2000000, .usable, by decide, by decide⟩,
    ⟨0x2200000, 0x10000, .bootloaderReclaimable, by decide, by decide⟩]
  framebuffer := none
  image := by decide
  rounds := by decide

def bootStack : Nat := 0xFFFF800002208000

def unbooted : BuddyAllocator.System := ⟨BuddyAllocator.new, Memory.blank, [], ∅⟩

theorem heapInit_returns {α : Type} {f : BuddyAllocator.System → α} {v : α}
    (returns : (heapInit AlignOps.exact highUsable unbooted).toOption.map (fun r => f r.1) = some v) :
    ∃ s heap, heapInit AlignOps.exact highUsable unbooted = .ok (s, heap) ∧ f s = v := by
  cases run : heapInit AlignOps.exact highUsable unbooted with
  | error e => simp [run, Except.toOption] at returns
  | ok r => exact ⟨r.1, r.2, rfl, by simpa [run, Except.toOption] using returns⟩

def lowReserved : LimineData :=
  { highUsable with regions := [⟨0x100000, 0x100000, .reserved, by decide, by decide⟩,
    ⟨0x200000, 0x2000000, .usable, by decide, by decide⟩,
    ⟨0x2200000, 0x10000, .bootloaderReclaimable, by decide, by decide⟩] }

theorem late_calls_above_base_lowReserved : ∃ s : BuddyAllocator.System,
    minVirt AlignOps.exact lowReserved = some s.buddy.base ∧
    (((∀ c ∈ lateCalls AlignOps.exact lowReserved bootStack bootStack, s.buddy.base ≤ c.1) ∧
      NeverBelowBase AlignOps.exact lowReserved bootStack bootStack s) ↔
      LateAbove AlignOps.exact lowReserved bootStack bootStack) := by
  have sorted : lowReserved.regions.Pairwise fun r r' => r.endAddr ≤ r'.base := by decide
  have set : minVirt AlignOps.exact lowReserved =
      some ({ unbooted with buddy := { unbooted.buddy with base := 0xFFFF800000200000 } } :
        BuddyAllocator.System).buddy.base := by decide
  exact ⟨_, set, late_calls_above_base_iff AlignOps.exact_lawful (sorted.imp MemoryRegion.apart_of_le) set⟩

/-- `heap::init` returns, and `release` stops at the base. -/
theorem release_stops_below_base :
    ¬ ∀ (A : AlignOps) (d : LimineData) (s₀ s : BuddyAllocator.System) (heap : TlsfInner) (mainSp releaseSp : Nat),
      A.Lawful → d.regions.Pairwise MemoryRegion.Apart → heapInit A d s₀ = .ok (s, heap) →
      minVirt A d = some s.buddy.base →
      (∀ c ∈ lateCalls A d mainSp releaseSp, s.buddy.base ≤ c.1) ∧ NeverBelowBase A d mainSp releaseSp s := by
  intro claim
  have returns : (heapInit AlignOps.exact highUsable unbooted).toOption.map (fun r => (r.1.buddy.base,
      match release AlignOps.exact highUsable bootStack r.1 with
      | .ok _ => none
      | .error e => some e)) = some (0xFFFF800000200000, some baseAssertion) := by decide
  obtain ⟨s, heap, run, seen⟩ := heapInit_returns (f := fun s => (s.buddy.base,
    match release AlignOps.exact highUsable bootStack s with
    | .ok _ => none
    | .error e => some e)) returns
  obtain ⟨base, stops⟩ := Prod.mk.inj seen
  have set : minVirt AlignOps.exact highUsable = some s.buddy.base := by
    rw [base]
    decide
  have sorted : highUsable.regions.Pairwise fun r r' => r.endAddr ≤ r'.base := by decide
  obtain ⟨_, never, _⟩ := claim AlignOps.exact highUsable unbooted s heap bootStack bootStack
    AlignOps.exact_lawful (sorted.imp MemoryRegion.apart_of_le) run set
  cases released : release AlignOps.exact highUsable bootStack s with
  | ok s' => simp [released] at stops
  | error e =>
    simp only [released, Option.some.injEq] at stops
    rw [stops] at released
    exact never released

end CrustyOs.Kernel.LimineData
