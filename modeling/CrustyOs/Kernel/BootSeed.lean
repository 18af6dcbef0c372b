import CrustyOs.Kernel.BootPages

/-! The pages that are free once `heap::init` has registered the memory map: the full pages
of usable regions that are not the kernel's, each in one block. -/
namespace CrustyOs.Kernel.LimineData
open Lib Abalone BuddyAllocator

variable {A : AlignOps} {d : LimineData} {r : MemoryRegion} {c : Nat × Nat} {base hhdm lo hi p x : Nat}

def seed (A : AlignOps) (d : LimineData) (s : BuddyAllocator.System) : Except Panic BuddyAllocator.System :=
  match minVirt A d with
  | none => .error (.expect "no usable memory")
  | some minVirt => do
    let buddy ← s.buddy.setBase minVirt
    registerAll { s with buddy } (initCalls A d)

/-- The rest of `heap::init`: 4 MiB for the TLSF heap. -/
def carve (s : BuddyAllocator.System) : Except Panic (BuddyAllocator.System × TlsfInner) := do
  let (mem, buddy, m) ← s.buddy.allocPages s.mem 10
  match mem with
  | none => .error (.expect "TLSF init: buddy OOM")
  | some mem =>
    let (heap, m) ← TlsfInner.new.addPool m mem (4096 <<< 10)
    return ({ s with buddy, mem := m, live := ⟨mem, 10⟩ :: s.live }, heap)

theorem heapInit_eq (s : BuddyAllocator.System) : heapInit A d s = seed A d s >>= carve := by
  unfold heapInit seed
  cases minVirt A d with
  | none => rfl
  | some minVirt =>
    simp only
    cases s.buddy.setBase minVirt with
    | error e => rfl
    | ok buddy => rfl

/-! What one region adds. -/

theorem part_passes_iff {cond : Prop} [Decidable cond] (low : 4096 ∣ lo) (high : 4096 ∣ hi)
    (none : ¬ cond → hi ≤ lo) : (∃ c ∈ (if cond then
      if (hi - lo) / 4096 > 0 then [(hhdm + lo, (hi - lo) / 4096)] else [] else []), Passes hhdm c p) ↔
    4096 ∣ p ∧ lo ≤ p ∧ p < hi := by
  have passes : Passes hhdm (span hhdm lo hi) p ↔ 4096 ∣ p ∧ lo ≤ p ∧ p < hi := passes_span low high
  rw [← passes]
  have empty : (hi - lo) / 4096 = 0 → ¬ Passes hhdm (span hhdm lo hi) p := by
    rintro zero ⟨i, below, _⟩
    unfold span at below
    omega
  split
  · split
    · simp [span]
    · next few => simp [empty (by omega)]
  · next off =>
    have less := none off
    simp [empty (by omega)]

theorem punchOut_passes_iff (lawful : A.Lawful) (usable : r.regionType = .usable) :
    (∃ c ∈ punchOut A d r, Passes d.hhdmOffset c p) ↔
      (4096 ∣ p ∧ r.alignedBase A ≤ p ∧ p < r.alignedEnd A) ∧
        ¬ (A.alignDown d.kernelPhysStart 4096 ≤ p ∧ p < A.alignUp d.kernelPhysEnd 4096) := by
  obtain ⟨base, stop⟩ := r.aligned_dvd lawful
  obtain ⟨start_eq, end_eq⟩ := kernel_rounded lawful d
  have start : 4096 ∣ A.alignDown d.kernelPhysStart 4096 := start_eq ▸ Nat.dvd_mul_left _ _
  have end_ : 4096 ∣ A.alignUp d.kernelPhysEnd 4096 := end_eq ▸ Nat.dvd_mul_left _ _
  have image := d.image
  have lower : (∃ c ∈ lowerPart A d (r.alignedBase A) (r.alignedEnd A), Passes d.hhdmOffset c p) ↔
      4096 ∣ p ∧ r.alignedBase A ≤ p ∧ p < min (r.alignedEnd A) (A.alignDown d.kernelPhysStart 4096) :=
    part_passes_iff base (min_rec' (4096 ∣ ·) stop start) (by omega)
  have upper : (∃ c ∈ upperPart A d (r.alignedBase A) (r.alignedEnd A), Passes d.hhdmOffset c p) ↔
      4096 ∣ p ∧ max (r.alignedBase A) (A.alignUp d.kernelPhysEnd 4096) ≤ p ∧ p < r.alignedEnd A :=
    part_passes_iff (max_rec' (4096 ∣ ·) base end_) stop (by omega)
  unfold punchOut
  dsimp only
  rw [if_neg (not_not.mpr usable)]
  split
  · constructor
    · rintro ⟨c, hc, _⟩
      cases hc
    · omega
  · simp only [List.mem_append, or_and_right, exists_or, lower, upper]
    omega

def Usable (d : LimineData) (p : Nat) : Prop :=
  (∃ r ∈ d.regions, r.regionType = .usable ∧ r.base ≤ p ∧ p + 4096 ≤ r.endAddr) ∧
    ¬ (d.kernelPhysStart / 4096 * 4096 ≤ p ∧ p < (d.kernelPhysEnd + 4095) / 4096 * 4096)

instance (d : LimineData) (p : Nat) : Decidable (Usable d p) := inferInstanceAs (Decidable (_ ∧ _))

theorem initCalls_passes_iff (lawful : A.Lawful) :
    (∃ c ∈ initCalls A d, Passes d.hhdmOffset c p) ↔ 4096 ∣ p ∧ Usable d p := by
  obtain ⟨start, end_⟩ := kernel_rounded lawful d
  unfold Usable
  rw [← start, ← end_]
  constructor
  · rintro ⟨c, hc, pass⟩
    obtain ⟨r, hr, hc⟩ := List.mem_flatMap.mp hc
    have usable := ((punchOut_spec lawful d r).1 c hc).1
    obtain ⟨⟨page, low, high⟩, off⟩ := (punchOut_passes_iff lawful usable).mp ⟨c, hc, pass⟩
    obtain ⟨below, above⟩ := r.full_page_iff lawful page
    exact ⟨page, ⟨r, hr, usable, below.mp low, above.mp high⟩, off⟩
  · rintro ⟨page, ⟨r, hr, usable, low, high⟩, off⟩
    obtain ⟨below, above⟩ := r.full_page_iff lawful page
    obtain ⟨c, hc, pass⟩ := (punchOut_passes_iff lawful usable).mpr
      ⟨⟨page, below.mpr low, above.mpr high⟩, off⟩
    exact ⟨c, List.mem_flatMap.mpr ⟨r, hr, hc⟩, pass⟩

/-! The calls over the base of the allocator. -/

/-- A memory map that fits the allocator: disjoint regions with some usable memory, whose
full pages lie within 2^17 pages of the lowest ones, under a window of whole pages. -/
structure Seedable (A : AlignOps) (d : LimineData) : Prop where
  apart : d.regions.Pairwise MemoryRegion.Apart
  some : ∃ r ∈ d.regions, r.regionType = .usable
  window : d.hhdmOffset ≠ 0 ∧ 4096 ∣ d.hhdmOffset
  words : ∀ r ∈ d.regions, d.hhdmOffset + r.endAddr < 2 ^ 64 ∧ d.hhdmOffset + r.base + 4095 < 2 ^ 64
  near : ∀ r ∈ d.regions, ∀ u ∈ d.regions, r.regionType = .usable → u.regionType = .usable →
    r.alignedEnd A ≤ u.alignedBase A + 2 ^ buddyMaxOrder * 4096

theorem usable_iff (t : MemoryRegionType) : t.isImmediatelyUsable = true ↔ t = .usable := by
  cases t <;> decide

theorem minVirt_spec (seedable : Seedable A d) : ∃ u ∈ d.regions, u.regionType = .usable ∧
    minVirt A d = some (d.hhdmOffset + u.alignedBase A) ∧
    ∀ r ∈ d.regions, r.regionType = .usable → u.alignedBase A ≤ r.alignedBase A := by
  obtain ⟨r₀, hr₀, usable₀⟩ := seedable.some
  cases set : minVirt A d with
  | none =>
    have listed : d.hhdmOffset + r₀.alignedBase A ∈ (d.regions.filter fun r =>
        r.regionType.isImmediatelyUsable).map fun r => d.hhdmOffset + r.alignedBase A :=
      List.mem_map_of_mem (List.mem_filter.mpr ⟨hr₀, (usable_iff _).mpr usable₀⟩)
    rw [List.min?_eq_none_iff.mp set] at listed
    cases listed
  | some base =>
    obtain ⟨mem, least⟩ := List.min?_eq_some_iff.mp set
    obtain ⟨u, hu, rfl⟩ := List.mem_map.mp mem
    obtain ⟨member, usable⟩ := List.mem_filter.mp hu
    refine ⟨u, member, (usable_iff _).mp usable, rfl, fun r hr usable => ?_⟩
    have low := least _ (List.mem_map_of_mem (List.mem_filter.mpr ⟨hr, (usable_iff _).mpr usable⟩))
    omega

theorem mem_callPages_iff (above : base ≤ c.1) (whole : 4096 ∣ base ∧ 4096 ∣ c.1)
    (place : hhdm + p = node base x) : x ∈ callPages base c ↔ Passes hhdm c p := by
  obtain ⟨⟨b, rfl⟩, a, first⟩ := whole
  unfold callPages regionPages Passes
  rw [Finset.mem_Ico, place, first]
  unfold node pageSize
  constructor
  · rintro ⟨low, high⟩
    exact ⟨x - (4096 * a - 4096 * b) / 4096, by omega, by omega⟩
  · rintro ⟨i, hi, e⟩
    omega

theorem initCalls_pos (hc : c ∈ initCalls A d) : 0 < c.2 := by
  have optional : ∀ {q : Prop} [Decidable q] {a n : Nat},
      c ∈ (if q then if n > 0 then [(a, n)] else [] else []) → 0 < c.2 := by
    intro q _ a n hc
    split at hc
    · split at hc
      · next pos => exact List.mem_singleton.mp hc ▸ pos
      · cases hc
    · cases hc
  obtain ⟨r, _, hc⟩ := List.mem_flatMap.mp hc
  unfold punchOut at hc
  dsimp only at hc
  split at hc
  · cases hc
  · split at hc
    · cases hc
    · cases List.mem_append.mp hc with
      | inl lower => exact optional lower
      | inr upper => exact optional upper

theorem initCall_placed (lawful : A.Lawful) (seedable : Seedable A d) {u : MemoryRegion}
    (hu : u ∈ d.regions) (usable : u.regionType = .usable)
    (least : ∀ r ∈ d.regions, r.regionType = .usable → u.alignedBase A ≤ r.alignedBase A)
    (hc : c ∈ initCalls A d) : (d.hhdmOffset + u.alignedBase A ≤ c.1 ∧ 4096 ∣ c.1 ∧
      c.1 + c.2 * 4096 < 2 ^ 64) ∧ ∀ p, Passes d.hhdmOffset c p → p < u.alignedBase A + 2 ^ buddyMaxOrder * 4096 := by
  obtain ⟨r, hr, kind, lo, hi, call⟩ := mem_initCalls lawful hc
  have first : c.1 = d.hhdmOffset + lo := by rw [call.call]; rfl
  have count : c.2 = (hi - lo) / 4096 := by rw [call.call]; rfl
  have some := initCalls_pos hc
  have low := least r hr kind
  have inside := call.inside
  have near := seedable.near r hr u hu kind usable
  have words := (seedable.words r hr).1
  have rounded : r.alignedEnd A ≤ r.endAddr := by
    rw [MemoryRegion.alignedEnd_eq lawful]
    exact Nat.div_mul_le_self ..
  refine ⟨⟨by omega, ?_, by omega⟩, fun p pass => ?_⟩
  · rw [first]
    exact Nat.dvd_add seedable.window.2 call.pages.1
  · have passed := call.passes pass
    omega

theorem initCalls_cuts (lawful : A.Lawful) (seedable : Seedable A d) {u : MemoryRegion}
    (hu : u ∈ d.regions) (usable : u.regionType = .usable)
    (least : ∀ r ∈ d.regions, r.regionType = .usable → u.alignedBase A ≤ r.alignedBase A) :
    Cuts (d.hhdmOffset + u.alignedBase A) (initCalls A d) := by
  have whole : 4096 ∣ d.hhdmOffset + u.alignedBase A :=
    Nat.dvd_add seedable.window.2 (u.aligned_dvd lawful).1
  have placed := fun c hc => initCall_placed (c := c) lawful seedable hu usable least hc
  have passes : ∀ c ∈ initCalls A d, ∀ x, x ∈ callPages (d.hhdmOffset + u.alignedBase A) c ↔
      Passes d.hhdmOffset c (u.alignedBase A + x * 4096) := by
    intro c hc x
    obtain ⟨⟨above, page, _⟩, _⟩ := placed c hc
    exact mem_callPages_iff above ⟨whole, page⟩ (Nat.add_assoc _ _ _).symm
  refine ⟨fun c hc => ?_, fun c hc x hx => ?_, ?_⟩
  · obtain ⟨⟨above, page, _⟩, _⟩ := placed c hc
    exact ⟨above, Nat.mod_eq_zero_of_dvd page⟩
  · have near := (placed c hc).2 _ ((passes c hc x).mp hx)
    omega
  · apply (initCalls_apart lawful seedable.apart).imp_of_mem
    intro c c' hc hc' apart x hx hx'
    exact apart _ ((passes c hc x).mp hx) ((passes c' hc' x).mp hx')

/-! The free lists afterwards. -/

def freeCount (nodes : Nat → List Nat) (a : Nat) : Nat :=
  weight buddyMaxOrder (fun k n => if n ≤ a ∧ a < n + 2 ^ k * pageSize then 1 else 0) nodes

theorem freeCount_node (lists : Nat → List Nat) (base x : Nat) :
    freeCount (fun k => (lists k).map (node base)) (node base x) = listed lists x := by
  unfold freeCount listed weight
  refine Finset.sum_congr rfl fun k _ => congrArg List.sum ?_
  rw [List.map_map]
  refine List.map_congr_left fun q _ => if_congr ?_ rfl rfl
  unfold node pageSize InBlock
  generalize 2 ^ k = n
  omega

theorem freeCount_below {lists : Nat → List Nat} {a : Nat} (below : a < base) :
    freeCount (fun k => (lists k).map (node base)) a = 0 := by
  by_contra some
  obtain ⟨k, _, n, hn, hit⟩ := weight_pos (Nat.pos_of_ne_zero some)
  obtain ⟨q, _, rfl⟩ := List.mem_map.mp hn
  have miss : ¬ (node base q ≤ a ∧ a < node base q + 2 ^ k * pageSize) := by
    unfold node
    omega
  rw [if_neg miss] at hit
  omega

theorem freeCount_sound {s : BuddyAllocator.System} {lists : Nat → List Nat} (sound : Sound s lists []) (x : Nat) :
    freeCount (fun k => (lists k).map (node s.buddy.base)) (node s.buddy.base x) = if x ∈ s.pages then 1 else 0 := by
  have cover := sound.inv.exact x
  rw [show heldCover [] x = 0 from rfl, Nat.add_zero] at cover
  rw [freeCount_node, cover]

theorem base_le_usable (lawful : A.Lawful) (window : 4096 ∣ d.hhdmOffset) {u : MemoryRegion}
    (least : ∀ r ∈ d.regions, r.regionType = .usable → u.alignedBase A ≤ r.alignedBase A) {a : Nat}
    (page : 4096 ∣ a) (seeded : d.hhdmOffset ≤ a ∧ Usable d (a - d.hhdmOffset)) :
    d.hhdmOffset + u.alignedBase A ≤ a := by
  obtain ⟨high, ⟨r, hr, kind, low, stop⟩, _⟩ := seeded
  have above := (r.full_page_iff lawful (Nat.dvd_sub page window)).1.mpr low
  have lowest := least r hr kind
  omega

theorem seed_sound (lawful : A.Lawful) (seedable : Seedable A d) {u : MemoryRegion} (hu : u ∈ d.regions)
    (usable : u.regionType = .usable) (place : d.hhdmOffset + u.alignedBase A = base)
    (least_base : minVirt A d = some base)
    (least : ∀ r ∈ d.regions, r.regionType = .usable → u.alignedBase A ≤ r.alignedBase A) (m : Memory) :
    ∃ s lists, seed A d (booted BuddyAllocator.new m) = .ok s ∧ s.buddy.base = base ∧ Sound s lists [] ∧
      ∀ x p, d.hhdmOffset + p = node base x → (x ∈ s.pages ↔ 4096 ∣ p ∧ Usable d p) := by
  have window := seedable.window
  have whole : 4096 ∣ base := place ▸ Nat.dvd_add window.2 (u.aligned_dvd lawful).1
  have based : base ≠ 0 := by omega
  have set : BuddyAllocator.new.setBase base = .ok { BuddyAllocator.new with base } := by
    have aligned : base % pageSize = 0 := Nat.mod_eq_zero_of_dvd whole
    simp [setBase, require, new, aligned, bind, Except.bind, pure, Except.pure]
  have start : After base (booted { BuddyAllocator.new with base } m) [] fun _ => [] :=
    ⟨booted_sound m set, rfl, by simp, by simp [booted, Registered]⟩
  have cuts : Cuts base (initCalls A d) := place ▸ initCalls_cuts lawful seedable hu usable least
  obtain ⟨s, done, lists, run, after, same⟩ := After.all based (initCalls A d) start cuts (by simp)
  refine ⟨s, lists, ?_, after.from_base, after.sound, fun x p here => ?_⟩
  · unfold seed
    rw [least_base]
    exact (bind_of_ok set _).trans run
  · rw [after.pages, ← initCalls_passes_iff lawful]
    have passes : ∀ c ∈ initCalls A d, (x ∈ callPages base c ↔ Passes d.hhdmOffset c p) := by
      intro c hc
      obtain ⟨⟨above, page, _⟩, _⟩ := initCall_placed lawful seedable hu usable least hc
      exact mem_callPages_iff (place ▸ above) ⟨whole, page⟩ here
    constructor
    · rintro ⟨c, hc, hx⟩
      have hc : c ∈ initCalls A d := by simpa using (same c).mp hc
      exact ⟨c, hc, (passes c hc).mp hx⟩
    · rintro ⟨c, hc, pass⟩
      exact ⟨c, (same c).mpr (.inr hc), (passes c hc).mpr pass⟩

/-- The seeding of `heap::init` fails no assertion, and then the full pages of usable
regions without a byte of the kernel's pages are free, each in one block, and no others. -/
theorem seeds_usable_pages (lawful : A.Lawful) (seedable : Seedable A d) (m : Memory) :
    ∃ base s nodes, minVirt A d = some base ∧ 0 < base ∧ base < 2 ^ 64 ∧
      (∀ c ∈ initCalls A d, base ≤ c.1 ∧ 4096 ∣ c.1 ∧ c.1 + c.2 * 4096 < 2 ^ 64) ∧
      seed A d (booted BuddyAllocator.new m) = .ok s ∧ s.buddy.base = base ∧
      (∀ k < buddyMaxOrder, Linked (nextOf s.mem) (prevOf s.mem) (s.buddy.freeLists k) (nodes k)) ∧
      ∀ a, 4096 ∣ a →
        freeCount nodes a = if d.hhdmOffset ≤ a ∧ Usable d (a - d.hhdmOffset) then 1 else 0 := by
  obtain ⟨u, hu, usable, least_base, least⟩ := minVirt_spec seedable
  have window := seedable.window
  have words := (seedable.words u hu).2
  have rounded : u.alignedBase A ≤ u.base + 4095 := by
    rw [MemoryRegion.alignedBase_eq lawful]
    exact Nat.div_mul_le_self ..
  obtain ⟨s, lists, run, from_base, sound, registered⟩ :=
    seed_sound lawful seedable hu usable rfl least_base least m
  rw [← from_base] at least_base registered
  refine ⟨s.buddy.base, s, fun k => (lists k).map (node s.buddy.base), least_base, by omega, by omega,
    fun c hc => ?_, run, rfl, sound.inv.linked, fun a page => ?_⟩
  · rw [from_base]
    exact (initCall_placed lawful seedable hu usable least hc).1
  · cases Nat.lt_or_ge a s.buddy.base with
    | inl below =>
      rw [freeCount_below below, if_neg]
      intro seeded
      have above := base_le_usable lawful window.2 least page seeded
      omega
    | inr above =>
      have whole : 4096 ∣ s.buddy.base := from_base ▸ Nat.dvd_add window.2 (u.aligned_dvd lawful).1
      obtain ⟨x, rfl⟩ : ∃ x, a = node s.buddy.base x := by
        refine ⟨(a - s.buddy.base) / 4096, ?_⟩
        unfold node pageSize
        omega
      have high : d.hhdmOffset ≤ node s.buddy.base x := by omega
      have full : 4096 ∣ node s.buddy.base x - d.hhdmOffset := Nat.dvd_sub page window.2
      rw [freeCount_sound sound]
      refine if_congr ?_ rfl rfl
      rw [registered x _ (Nat.add_sub_of_le high)]
      exact ⟨fun h => ⟨high, h.2⟩, fun h => ⟨full, h.2⟩⟩

theorem sampleMap_seedable : Seedable AlignOps.exact sampleMap where
  apart := sampleMap_fromLimine.apart
  some := ⟨_, List.mem_cons_of_mem _ (List.mem_cons_self ..), rfl⟩
  window := by decide
  words := by decide
  near := by decide

theorem seeds_usable_pages_sample : ∃ base s nodes, minVirt AlignOps.exact sampleMap = some base ∧
    0 < base ∧ base < 2 ^ 64 ∧
    (∀ c ∈ initCalls AlignOps.exact sampleMap, base ≤ c.1 ∧ 4096 ∣ c.1 ∧ c.1 + c.2 * 4096 < 2 ^ 64) ∧
    seed AlignOps.exact sampleMap (booted BuddyAllocator.new Memory.blank) = .ok s ∧ s.buddy.base = base ∧
    (∀ k < buddyMaxOrder, Linked (nextOf s.mem) (prevOf s.mem) (s.buddy.freeLists k) (nodes k)) ∧
    ∀ a, 4096 ∣ a → freeCount nodes a =
      if sampleMap.hhdmOffset ≤ a ∧ Usable sampleMap (a - sampleMap.hhdmOffset) then 1 else 0 :=
  seeds_usable_pages AlignOps.exact_lawful sampleMap_seedable Memory.blank

end CrustyOs.Kernel.LimineData
