import CrustyOs.Kernel.Boot

/-! What the registering passes of the boot pass to `add_region`, in terms of the memory
map: every call is a run of full pages of one region. -/
namespace CrustyOs.Kernel
open Lib Abalone

def Passes (hhdm : Nat) (c : Nat × Nat) (p : Nat) : Prop := ∃ i < c.2, hhdm + p = c.1 + i * 4096

instance (hhdm : Nat) (c : Nat × Nat) (p : Nat) : Decidable (Passes hhdm c p) :=
  inferInstanceAs (Decidable (∃ i < c.2, hhdm + p = c.1 + i * 4096))

def PagesApart (hhdm : Nat) (c c' : Nat × Nat) : Prop := ∀ p, Passes hhdm c p → ¬ Passes hhdm c' p

def span (hhdm lo hi : Nat) : Nat × Nat := (hhdm + lo, (hi - lo) / 4096)

theorem passes_span {hhdm lo hi p : Nat} (low : 4096 ∣ lo) (high : 4096 ∣ hi) :
    Passes hhdm (span hhdm lo hi) p ↔ 4096 ∣ p ∧ lo ≤ p ∧ p < hi := by
  obtain ⟨a, rfl⟩ := low
  obtain ⟨b, rfl⟩ := high
  unfold Passes span
  constructor
  · rintro ⟨i, hi, e⟩
    simp only at hi e
    exact ⟨⟨a + i, by omega⟩, by omega, by omega⟩
  · rintro ⟨⟨q, rfl⟩, le, lt⟩
    exact ⟨q - a, by simp only; omega, by simp only; omega⟩

theorem countP_eq_one {α : Type} {P : α → Prop} [DecidablePred P] {l : List α}
    (apart : l.Pairwise fun a b => P a → ¬ P b) (hit : ∃ a ∈ l, P a) :
    l.countP (fun a => decide (P a)) = 1 := by
  induction l with
  | nil =>
    obtain ⟨a, ha, _⟩ := hit
    cases ha
  | cons b l ih =>
    obtain ⟨others, tail⟩ := List.pairwise_cons.mp apart
    by_cases here : P b
    · have none : l.countP (fun a => decide (P a)) = 0 := by
        rw [List.countP_eq_zero]
        intro a ha
        simpa using others a ha here
      rw [List.countP_cons_of_pos (by simpa using here), none]
    · rw [List.countP_cons_of_neg (by simpa using here)]
      apply ih tail
      obtain ⟨a, ha, hp⟩ := hit
      cases ha with
      | head => exact absurd hp here
      | tail _ ha => exact ⟨a, ha, hp⟩

namespace MemoryRegion

def Holds (r : MemoryRegion) (a : Nat) : Prop := r.base ≤ a ∧ a < r.endAddr

instance (r : MemoryRegion) (a : Nat) : Decidable (r.Holds a) := inferInstanceAs (Decidable (_ ∧ _))

def Apart (r r' : MemoryRegion) : Prop := ∀ a, r.Holds a → ¬ r'.Holds a

instance : Std.Symm Apart := ⟨fun _ _ h a ha hb => h a hb ha⟩

theorem apart_of_le {r r' : MemoryRegion} (le : r.endAddr ≤ r'.base) : r.Apart r' := by
  intro a ha hb
  unfold Holds at ha hb
  omega

variable {A : AlignOps}

theorem alignedBase_eq (lawful : A.Lawful) (r : MemoryRegion) :
    r.alignedBase A = (r.base + 4095) / 4096 * 4096 := lawful.up r.base 12 r.rounds

theorem alignedEnd_eq (lawful : A.Lawful) (r : MemoryRegion) :
    r.alignedEnd A = r.endAddr / 4096 * 4096 := lawful.down r.endAddr 12 r.ends (by decide)

theorem full_page_iff (lawful : A.Lawful) (r : MemoryRegion) {p : Nat} (page : 4096 ∣ p) :
    (r.alignedBase A ≤ p ↔ r.base ≤ p) ∧ (p < r.alignedEnd A ↔ p + 4096 ≤ r.endAddr) := by
  rw [alignedBase_eq lawful, alignedEnd_eq lawful]
  omega

theorem aligned_dvd (lawful : A.Lawful) (r : MemoryRegion) :
    4096 ∣ r.alignedBase A ∧ 4096 ∣ r.alignedEnd A := by
  rw [alignedBase_eq lawful, alignedEnd_eq lawful]
  exact ⟨Nat.dvd_mul_left _ _, Nat.dvd_mul_left _ _⟩

theorem holds_of_aligned (lawful : A.Lawful) {r : MemoryRegion} {a : Nat} (low : r.alignedBase A ≤ a)
    (high : a < r.alignedEnd A) : r.Holds a := by
  rw [alignedBase_eq lawful] at low
  rw [alignedEnd_eq lawful] at high
  unfold Holds
  omega

end MemoryRegion

namespace LimineData

variable {A : AlignOps} {d : LimineData} {c : Nat × Nat} {r : MemoryRegion} {sp lo hi : Nat}

theorem mem_reclaimable : r ∈ d.reclaimableRegions ↔ r ∈ d.regions ∧ r.regionType.isReclaimable = true :=
  List.mem_filter

/-- A call of `heap::init` on a region: some of its full pages, on one side of the kernel. -/
structure InitCall (A : AlignOps) (d : LimineData) (r : MemoryRegion) (c : Nat × Nat) (lo hi : Nat) : Prop where
  call : c = span d.hhdmOffset lo hi
  pages : 4096 ∣ lo ∧ 4096 ∣ hi
  inside : r.alignedBase A ≤ lo ∧ hi ≤ r.alignedEnd A
  side : hi ≤ A.alignDown d.kernelPhysStart 4096 ∨ A.alignUp d.kernelPhysEnd 4096 ≤ lo

theorem kernel_rounded (lawful : A.Lawful) (d : LimineData) :
    A.alignDown d.kernelPhysStart 4096 = d.kernelPhysStart / 4096 * 4096 ∧
      A.alignUp d.kernelPhysEnd 4096 = (d.kernelPhysEnd + 4095) / 4096 * 4096 := by
  have image := d.image
  have rounds := d.rounds
  exact ⟨lawful.down _ 12 (by omega) (by decide), lawful.up _ 12 rounds⟩

theorem InitCall.passes (h : InitCall A d r c lo hi) {p : Nat} (pass : Passes d.hhdmOffset c p) :
    4096 ∣ p ∧ lo ≤ p ∧ p < hi :=
  (passes_span h.pages.1 h.pages.2).mp (h.call ▸ pass)

theorem lower_call (lawful : A.Lawful) (d : LimineData) (r : MemoryRegion)
    (hc : c ∈ lowerPart A d (r.alignedBase A) (r.alignedEnd A)) :
    InitCall A d r c (r.alignedBase A) (min (r.alignedEnd A) (A.alignDown d.kernelPhysStart 4096)) := by
  obtain ⟨base, stop⟩ := r.aligned_dvd lawful
  have start : 4096 ∣ A.alignDown d.kernelPhysStart 4096 := by
    rw [(kernel_rounded lawful d).1]
    exact Nat.dvd_mul_left _ _
  unfold lowerPart at hc
  dsimp only at hc
  split at hc
  · split at hc
    · refine ⟨List.mem_singleton.mp hc, ⟨base, ?_⟩, ⟨Nat.le_refl _, Nat.min_le_left _ _⟩,
        Or.inl (Nat.min_le_right _ _)⟩
      rcases Nat.le_total (r.alignedEnd A) (A.alignDown d.kernelPhysStart 4096) with le | le
      · rwa [Nat.min_eq_left le]
      · rwa [Nat.min_eq_right le]
    · cases hc
  · cases hc

theorem upper_call (lawful : A.Lawful) (d : LimineData) (r : MemoryRegion)
    (hc : c ∈ upperPart A d (r.alignedBase A) (r.alignedEnd A)) :
    InitCall A d r c (max (r.alignedBase A) (A.alignUp d.kernelPhysEnd 4096)) (r.alignedEnd A) := by
  obtain ⟨base, stop⟩ := r.aligned_dvd lawful
  have end_ : 4096 ∣ A.alignUp d.kernelPhysEnd 4096 := by
    rw [(kernel_rounded lawful d).2]
    exact Nat.dvd_mul_left _ _
  unfold upperPart at hc
  dsimp only at hc
  split at hc
  · split at hc
    · refine ⟨List.mem_singleton.mp hc, ⟨?_, stop⟩, ⟨Nat.le_max_left _ _, Nat.le_refl _⟩,
        Or.inr (Nat.le_max_right _ _)⟩
      rcases Nat.le_total (r.alignedBase A) (A.alignUp d.kernelPhysEnd 4096) with le | le
      · rwa [Nat.max_eq_right le]
      · rwa [Nat.max_eq_left le]
    · cases hc
  · cases hc

theorem pairwise_optional {α : Type} {R : α → α → Prop} {p : Prop} [Decidable p] (a : α) :
    (if p then [a] else []).Pairwise R := by
  split
  · exact List.pairwise_singleton R a
  · exact List.Pairwise.nil

theorem punchOut_spec (lawful : A.Lawful) (d : LimineData) (r : MemoryRegion) :
    (∀ c ∈ punchOut A d r, r.regionType = .usable ∧ ∃ lo hi, InitCall A d r c lo hi) ∧
      (punchOut A d r).Pairwise (PagesApart d.hhdmOffset) := by
  have lower : (lowerPart A d (r.alignedBase A) (r.alignedEnd A)).Pairwise (PagesApart d.hhdmOffset) := by
    unfold lowerPart
    dsimp only
    split
    · exact pairwise_optional _
    · exact List.Pairwise.nil
  have upper : (upperPart A d (r.alignedBase A) (r.alignedEnd A)).Pairwise (PagesApart d.hhdmOffset) := by
    unfold upperPart
    dsimp only
    split
    · exact pairwise_optional _
    · exact List.Pairwise.nil
  unfold punchOut
  dsimp only
  split
  · exact ⟨by simp, List.Pairwise.nil⟩
  · rename_i usable
    split
    · exact ⟨by simp, List.Pairwise.nil⟩
    · refine ⟨fun c hc => ⟨not_not.mp usable, ?_⟩, List.pairwise_append.mpr ⟨lower, upper, ?_⟩⟩
      · cases List.mem_append.mp hc with
        | inl hc => exact ⟨_, _, lower_call lawful d r hc⟩
        | inr hc => exact ⟨_, _, upper_call lawful d r hc⟩
      · intro c hc c' hc' p pass pass'
        have below := (lower_call lawful d r hc).passes pass
        have above := (upper_call lawful d r hc').passes pass'
        have image := d.image
        have kernel := kernel_rounded lawful d
        omega

/-- The region `release` or `kernel_main_continue` passes whole: reclaimable, with pages,
from 1 MiB on. -/
structure Late (A : AlignOps) (d : LimineData) (r : MemoryRegion) : Prop where
  mem : r ∈ d.regions
  reclaimable : r.regionType.isReclaimable = true
  pages : r.alignedBase A < r.alignedEnd A
  above : 0x100000 ≤ r.alignedBase A

def HoldsPage (A : AlignOps) (r : MemoryRegion) (sp : Nat) : Prop :=
  r.alignedBase A ≤ sp ∧ sp < r.alignedEnd A

def regionCall (A : AlignOps) (d : LimineData) (r : MemoryRegion) : Nat × Nat :=
  span d.hhdmOffset (r.alignedBase A) (r.alignedEnd A)

theorem Late.count_pos (lawful : A.Lawful) (late : Late A d r) :
    0 < (r.alignedEnd A - r.alignedBase A) / 4096 := by
  obtain ⟨base, stop⟩ := r.aligned_dvd lawful
  have pages := late.pages
  omega

instance (A : AlignOps) (r : MemoryRegion) (sp : Nat) : Decidable (HoldsPage A r sp) :=
  inferInstanceAs (Decidable (_ ∧ _))

theorem releaseRegion_eq (lawful : A.Lawful) (d : LimineData) (sp : Nat) (mem : r ∈ d.reclaimableRegions) :
    releaseRegion A d sp r =
      if (r.alignedBase A < r.alignedEnd A ∧ 0x100000 ≤ r.alignedBase A) ∧ ¬ HoldsPage A r sp
      then [regionCall A d r] else [] := by
  unfold releaseRegion
  dsimp only
  by_cases pages : r.alignedBase A < r.alignedEnd A
  · by_cases above : 0x100000 ≤ r.alignedBase A
    · have late : Late A d r := ⟨(mem_reclaimable.mp mem).1, (mem_reclaimable.mp mem).2, pages, above⟩
      have count := late.count_pos lawful
      by_cases holds : HoldsPage A r sp
      · rw [if_neg (by omega), if_neg (by omega), if_pos (show sp ≥ _ ∧ sp < _ from holds),
          if_neg fun h => h.2 holds]
      · rw [if_neg (by omega), if_neg (by omega), if_neg (show ¬ (sp ≥ _ ∧ sp < _) from holds),
          if_neg (by omega), if_pos ⟨⟨pages, above⟩, holds⟩]
        rfl
    · rw [if_neg (by omega), if_pos (by omega), if_neg fun h => above h.1.2]
  · rw [if_pos (by omega), if_neg fun h => pages h.1.1]

theorem mem_releaseCalls (lawful : A.Lawful) :
    c ∈ releaseCalls A d sp ↔ ∃ r, Late A d r ∧ ¬ HoldsPage A r sp ∧ c = regionCall A d r := by
  unfold releaseCalls
  rw [List.mem_flatMap]
  constructor
  · rintro ⟨r, hr, hc⟩
    rw [releaseRegion_eq lawful d sp hr, List.mem_ite_nil_right] at hc
    obtain ⟨⟨⟨pages, above⟩, off⟩, hc⟩ := hc
    obtain ⟨mem, reclaimable⟩ := mem_reclaimable.mp hr
    exact ⟨r, ⟨mem, reclaimable, pages, above⟩, off, List.mem_singleton.mp hc⟩
  · rintro ⟨r, late, off, rfl⟩
    have hr := mem_reclaimable.mpr ⟨late.mem, late.reclaimable⟩
    refine ⟨r, hr, ?_⟩
    rw [releaseRegion_eq lawful d sp hr, if_pos ⟨⟨late.pages, late.above⟩, off⟩]
    exact List.mem_singleton_self _

theorem holdsPage_unique (lawful : A.Lawful) (apart : d.regions.Pairwise MemoryRegion.Apart) {r' : MemoryRegion}
    (mem : r ∈ d.regions) (mem' : r' ∈ d.regions) (holds : HoldsPage A r sp) (holds' : HoldsPage A r' sp) :
    r = r' := by
  by_contra ne
  exact apart.forall mem mem' ne sp (MemoryRegion.holds_of_aligned lawful holds.1 holds.2)
    (MemoryRegion.holds_of_aligned lawful holds'.1 holds'.2)

theorem mem_bootStackRegion (lawful : A.Lawful) (apart : d.regions.Pairwise MemoryRegion.Apart) :
    c ∈ (bootStackRegion A d sp).toList ↔ ∃ r, Late A d r ∧ HoldsPage A r sp ∧ c = regionCall A d r := by
  unfold bootStackRegion
  cases found : d.reclaimableRegions.find? fun r =>
      let base := r.alignedBase A
      let stop := r.alignedEnd A
      base ≥ 0x100000 ∧ base < stop ∧ sp ≥ base ∧ sp < stop with
  | none =>
    simp only [Option.bind_none, Option.toList_none, List.not_mem_nil, false_iff]
    rintro ⟨r, late, holds, _⟩
    have miss := List.find?_eq_none.mp found r (mem_reclaimable.mpr ⟨late.mem, late.reclaimable⟩)
    exact miss (decide_eq_true ⟨late.above, late.pages, holds⟩)
  | some r =>
    have chosen := List.find?_some found
    obtain ⟨above, pages, holds⟩ := of_decide_eq_true chosen
    obtain ⟨mem, reclaimable⟩ := mem_reclaimable.mp (List.mem_of_find?_eq_some found)
    have late : Late A d r := ⟨mem, reclaimable, pages, above⟩
    simp only [Option.bind_some, if_pos (late.count_pos lawful), Option.toList_some, List.mem_singleton]
    constructor
    · intro e
      exact ⟨r, late, holds, e⟩
    · rintro ⟨r', late', holds', rfl⟩
      rw [holdsPage_unique lawful apart mem late'.mem holds holds']
      rfl

/-! The whole boot. -/

/-- All calls of the boot, with the stack offsets `kernel_main` and `release` see. -/
def allCalls (A : AlignOps) (d : LimineData) (mainSp releaseSp : Nat) : Calls :=
  initCalls A d ++ (releaseCalls A d (spPhysPage (releaseSp - d.hhdmOffset)) ++
    (bootStackRegion A d (spPhysPage (mainSp - d.hhdmOffset))).toList)

/-- What Limine promises of a map. -/
structure FromLimine (d : LimineData) : Prop where
  apart : d.regions.Pairwise MemoryRegion.Apart
  aligned : ∀ r ∈ d.reclaimableRegions, 4096 ∣ r.base ∧ 4096 ∣ r.length
  image : ∀ r ∈ d.reclaimableRegions, ∀ a, r.Holds a → ¬ (d.kernelPhysStart ≤ a ∧ a < d.kernelPhysEnd)

/-- Two stack pointers into the HHDM with the same regions around them. -/
structure SameRegion (d : LimineData) (mainSp releaseSp : Nat) : Prop where
  main : d.hhdmOffset ≤ mainSp ∧ mainSp < 2 ^ 64
  release : d.hhdmOffset ≤ releaseSp ∧ releaseSp < 2 ^ 64
  same : ∀ r ∈ d.regions, r.Holds (mainSp - d.hhdmOffset) ↔ r.Holds (releaseSp - d.hhdmOffset)

theorem holdsPage_iff (lawful : A.Lawful) (aligned : 4096 ∣ r.base ∧ 4096 ∣ r.length) {offset : Nat}
    (small : offset < 2 ^ 64) : HoldsPage A r (spPhysPage offset) ↔ r.Holds offset := by
  have page : spPhysPage offset = offset / 4096 * 4096 := and_wordNot_low (k := 12) small (by decide)
  obtain ⟨base, length⟩ := aligned
  unfold HoldsPage MemoryRegion.Holds
  rw [page, MemoryRegion.alignedBase_eq lawful, MemoryRegion.alignedEnd_eq lawful]
  unfold MemoryRegion.endAddr
  omega

end LimineData
end CrustyOs.Kernel
