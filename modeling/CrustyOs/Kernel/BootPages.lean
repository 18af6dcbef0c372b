import CrustyOs.Kernel.BootBase

/-! No page is registered twice during the boot, and what the base of the buddy
allocator asks of the late calls. -/
namespace CrustyOs.Kernel.LimineData
open Lib Abalone

variable {A : AlignOps} {d : LimineData} {c c' : Nat × Nat} {r r' : MemoryRegion}
  {sp mainSp releaseSp p : Nat}

def Within (d : LimineData) (r : MemoryRegion) (c : Nat × Nat) : Prop :=
  ∀ p, Passes d.hhdmOffset c p → r.Holds p

theorem Within.apart (h : Within d r c) (h' : Within d r' c') (apart : r.Apart r') :
    PagesApart d.hhdmOffset c c' := fun p pass pass' => apart p (h p pass) (h' p pass')

theorem InitCall.within {lo hi : Nat} (lawful : A.Lawful) (h : InitCall A d r c lo hi) : Within d r c := by
  intro p pass
  obtain ⟨_, low, high⟩ := h.passes pass
  have inside := h.inside
  exact MemoryRegion.holds_of_aligned lawful (by omega) (by omega)

theorem passes_regionCall (lawful : A.Lawful) :
    Passes d.hhdmOffset (regionCall A d r) p ↔ 4096 ∣ p ∧ r.alignedBase A ≤ p ∧ p < r.alignedEnd A :=
  passes_span (r.aligned_dvd lawful).1 (r.aligned_dvd lawful).2

theorem regionCall_within (lawful : A.Lawful) : Within d r (regionCall A d r) := by
  intro p pass
  obtain ⟨_, low, high⟩ := (passes_regionCall lawful).mp pass
  exact MemoryRegion.holds_of_aligned lawful low high

theorem mem_initCalls (lawful : A.Lawful) (hc : c ∈ initCalls A d) :
    ∃ r ∈ d.regions, r.regionType = .usable ∧ ∃ lo hi, InitCall A d r c lo hi := by
  obtain ⟨r, hr, hc⟩ := List.mem_flatMap.mp hc
  exact ⟨r, hr, (punchOut_spec lawful d r).1 c hc⟩

theorem initCalls_apart (lawful : A.Lawful) (apart : d.regions.Pairwise MemoryRegion.Apart) :
    (initCalls A d).Pairwise (PagesApart d.hhdmOffset) := by
  refine List.pairwise_flatMap.mpr ⟨fun r _ => (punchOut_spec lawful d r).2, apart.imp fun regions c hc c' hc' => ?_⟩
  obtain ⟨_, lo, hi, call⟩ := (punchOut_spec lawful d _).1 c hc
  obtain ⟨_, lo', hi', call'⟩ := (punchOut_spec lawful d _).1 c' hc'
  exact (call.within lawful).apart (call'.within lawful) regions

theorem releaseCalls_apart (lawful : A.Lawful) (apart : d.regions.Pairwise MemoryRegion.Apart) :
    (releaseCalls A d sp).Pairwise (PagesApart d.hhdmOffset) := by
  have late : d.reclaimableRegions.Pairwise MemoryRegion.Apart := apart.sublist List.filter_sublist
  refine List.pairwise_flatMap.mpr ⟨fun r hr => ?_, late.imp_of_mem fun hr hr' regions c hc c' hc' => ?_⟩
  · rw [releaseRegion_eq lawful d sp hr]
    exact pairwise_optional _
  · rw [releaseRegion_eq lawful d sp hr, List.mem_ite_nil_right] at hc
    rw [releaseRegion_eq lawful d sp hr', List.mem_ite_nil_right] at hc'
    obtain rfl := List.mem_singleton.mp hc.2
    obtain rfl := List.mem_singleton.mp hc'.2
    exact (regionCall_within lawful).apart (regionCall_within lawful) regions

theorem SameRegion.holds_iff (lawful : A.Lawful) (limine : FromLimine d) (same : SameRegion d mainSp releaseSp)
    (late : Late A d r) : HoldsPage A r (spPhysPage (mainSp - d.hhdmOffset)) ↔
      HoldsPage A r (spPhysPage (releaseSp - d.hhdmOffset)) := by
  have aligned := limine.aligned r (mem_reclaimable.mpr ⟨late.mem, late.reclaimable⟩)
  have main := same.main
  have release := same.release
  rw [holdsPage_iff lawful aligned (by omega), holdsPage_iff lawful aligned (by omega)]
  exact same.same r late.mem

theorem allCalls_apart (lawful : A.Lawful) (limine : FromLimine d) (same : SameRegion d mainSp releaseSp) :
    (allCalls A d mainSp releaseSp).Pairwise (PagesApart d.hhdmOffset) := by
  have ne_apart : ∀ r ∈ d.regions, ∀ r' ∈ d.regions, r ≠ r' → r.Apart r' :=
    fun r hr r' hr' => limine.apart.forall hr hr'
  refine List.pairwise_append.mpr ⟨initCalls_apart lawful limine.apart, List.pairwise_append.mpr
    ⟨releaseCalls_apart lawful limine.apart, ?_, fun c hc c' hc' => ?_⟩, fun c hc c' hc' => ?_⟩
  · cases bootStackRegion A d (spPhysPage (mainSp - d.hhdmOffset)) with
    | none => exact List.Pairwise.nil
    | some c => exact List.pairwise_singleton _ c
  · obtain ⟨r, late, off, rfl⟩ := (mem_releaseCalls lawful).mp hc
    obtain ⟨r', late', on, rfl⟩ := (mem_bootStackRegion lawful limine.apart).mp hc'
    have ne : r ≠ r' := by
      rintro rfl
      exact off ((same.holds_iff lawful limine late).mp on)
    exact (regionCall_within lawful).apart (regionCall_within lawful) (ne_apart r late.mem r' late'.mem ne)
  · obtain ⟨r, hr, usable, lo, hi, call⟩ := mem_initCalls lawful hc
    have later : ∃ r', Late A d r' ∧ c' = regionCall A d r' := by
      cases List.mem_append.mp hc' with
      | inl hc' =>
        obtain ⟨r', late, _, e⟩ := (mem_releaseCalls lawful).mp hc'
        exact ⟨r', late, e⟩
      | inr hc' =>
        obtain ⟨r', late, _, e⟩ := (mem_bootStackRegion lawful limine.apart).mp hc'
        exact ⟨r', late, e⟩
    obtain ⟨r', late, rfl⟩ := later
    have ne : r ≠ r' := by
      rintro rfl
      have reclaimable := late.reclaimable
      rw [usable] at reclaimable
      cases reclaimable
    exact (call.within lawful).apart (regionCall_within lawful) (ne_apart r hr r' late.mem ne)

def KernelPage (d : LimineData) (p : Nat) : Prop :=
  ∃ a, p ≤ a ∧ a < p + 4096 ∧ d.kernelPhysStart ≤ a ∧ a < d.kernelPhysEnd

theorem allCalls_off_kernel (lawful : A.Lawful) (limine : FromLimine d)
    (hc : c ∈ allCalls A d mainSp releaseSp) (pass : Passes d.hhdmOffset c p) : ¬ KernelPage d p := by
  rintro ⟨a, low, high, start, stop⟩
  have late_off : ∀ r, Late A d r → Passes d.hhdmOffset (regionCall A d r) p → False := by
    intro r late pass
    obtain ⟨page, below, above⟩ := (passes_regionCall lawful).mp pass
    have full := r.full_page_iff lawful page
    have inside : r.Holds a := by
      unfold MemoryRegion.Holds
      omega
    exact limine.image r (mem_reclaimable.mpr ⟨late.mem, late.reclaimable⟩) a inside ⟨start, stop⟩
  cases List.mem_append.mp hc with
  | inl hc =>
    obtain ⟨r, hr, usable, lo, hi, call⟩ := mem_initCalls lawful hc
    obtain ⟨page, below, above⟩ := call.passes pass
    have kernel := kernel_rounded lawful d
    have pages := call.pages
    have side := call.side
    omega
  | inr hc =>
    cases List.mem_append.mp hc with
    | inl hc =>
      obtain ⟨r, late, _, rfl⟩ := (mem_releaseCalls lawful).mp hc
      exact late_off r late pass
    | inr hc =>
      obtain ⟨r, late, _, rfl⟩ := (mem_bootStackRegion lawful limine.apart).mp hc
      exact late_off r late pass

theorem late_passed (lawful : A.Lawful) (limine : FromLimine d) (same : SameRegion d mainSp releaseSp)
    (late : Late A d r) : regionCall A d r ∈ allCalls A d mainSp releaseSp := by
  apply List.mem_append_right
  by_cases holds : HoldsPage A r (spPhysPage (releaseSp - d.hhdmOffset))
  · apply List.mem_append_right
    exact (mem_bootStackRegion lawful limine.apart).mpr ⟨r, late, (same.holds_iff lawful limine late).mpr holds, rfl⟩
  · exact List.mem_append_left _ ((mem_releaseCalls lawful).mpr ⟨r, late, holds, rfl⟩)

/-- The pages of all calls are disjoint and free of the kernel, each full page of a
reclaimable region from 1 MiB on is passed exactly once, and `release` leaves the region
of its stack pointer alone. -/
theorem boot_registers_once (lawful : A.Lawful) (limine : FromLimine d)
    (same : SameRegion d mainSp releaseSp) :
    (allCalls A d mainSp releaseSp).Pairwise (PagesApart d.hhdmOffset) ∧
      (∀ c ∈ allCalls A d mainSp releaseSp, ∀ p, Passes d.hhdmOffset c p → ¬ KernelPage d p) ∧
      (∀ r ∈ d.reclaimableRegions, 0x100000 ≤ r.alignedBase A → ∀ p, 4096 ∣ p → r.base ≤ p →
        p + 4096 ≤ r.endAddr →
        (allCalls A d mainSp releaseSp).countP (fun c => decide (Passes d.hhdmOffset c p)) = 1) ∧
      ∀ r ∈ d.regions, r.Holds (releaseSp - d.hhdmOffset) →
        ∀ c ∈ releaseCalls A d (spPhysPage (releaseSp - d.hhdmOffset)), ∀ p,
          Passes d.hhdmOffset c p → ¬ r.Holds p := by
  have apart := allCalls_apart lawful limine same
  refine ⟨apart, fun c hc p => allCalls_off_kernel lawful limine hc, ?_, ?_⟩
  · intro r hr above p page low high
    obtain ⟨mem, reclaimable⟩ := mem_reclaimable.mp hr
    have full := r.full_page_iff lawful page
    have late : Late A d r := ⟨mem, reclaimable, by omega, above⟩
    apply countP_eq_one (apart.imp fun pages => pages p)
    exact ⟨_, late_passed lawful limine same late, (passes_regionCall lawful).mpr ⟨page, by omega, by omega⟩⟩
  · intro r hr holds c hc p pass inside
    obtain ⟨r', late, off, rfl⟩ := (mem_releaseCalls lawful).mp hc
    have release := same.release
    have aligned := limine.aligned r' (mem_reclaimable.mpr ⟨late.mem, late.reclaimable⟩)
    have ne : r ≠ r' := by
      rintro rfl
      exact off ((holdsPage_iff lawful aligned (by omega)).mpr holds)
    exact limine.apart.forall hr late.mem ne p inside (regionCall_within lawful p pass)

/-- Low memory with the bootloader, the kernel in the middle of usable memory, and the boot
stack in the reclaimable region at its end. -/
def sampleMap : LimineData where
  hhdmOffset := 0xFFFF800000000000
  kernelPhysStart := 0x400000
  kernelPhysEnd := 0x500000
  kernelVirtStart := 0xFFFFFFFF80000000
  kernelVirtEnd := 0xFFFFFFFF80100000
  regions := [⟨0x1000, 0x52000, .bootloaderReclaimable, by decide, MemoryRegion.rounds_page⟩,
    ⟨0x53000, 0x4CC00, .usable, by decide, by decide⟩,
    ⟨0x100000, 0x2000000, .usable, by decide, MemoryRegion.rounds_megabyte⟩,
    ⟨0x2100000, 0x10000, .bootloaderReclaimable, by decide, by decide⟩,
    ⟨0x2110000, 0x4000, .acpiReclaimable, by decide, by decide⟩]
  framebuffer := none
  image := highUsable.image
  rounds := highUsable.rounds

def sampleStack : Nat := 0xFFFF800002108000

theorem sampleMap_fromLimine : FromLimine sampleMap where
  apart := by
    have sorted : sampleMap.regions.Pairwise fun r r' => r.endAddr ≤ r'.base := by decide
    exact sorted.imp MemoryRegion.apart_of_le
  aligned := by decide
  image := by
    have beside : ∀ r ∈ sampleMap.reclaimableRegions,
        r.endAddr ≤ sampleMap.kernelPhysStart ∨ sampleMap.kernelPhysEnd ≤ r.base := by decide
    intro r hr a holds inside
    have side := beside r hr
    unfold MemoryRegion.Holds at holds
    omega

theorem boot_registers_once_sample :
    (allCalls AlignOps.exact sampleMap sampleStack sampleStack).Pairwise (PagesApart sampleMap.hhdmOffset) ∧
      (∀ c ∈ allCalls AlignOps.exact sampleMap sampleStack sampleStack, ∀ p,
        Passes sampleMap.hhdmOffset c p → ¬ KernelPage sampleMap p) ∧
      (∀ r ∈ sampleMap.reclaimableRegions, 0x100000 ≤ r.alignedBase AlignOps.exact → ∀ p, 4096 ∣ p →
        r.base ≤ p → p + 4096 ≤ r.endAddr →
        (allCalls AlignOps.exact sampleMap sampleStack sampleStack).countP
          (fun c => decide (Passes sampleMap.hhdmOffset c p)) = 1) ∧
      ∀ r ∈ sampleMap.regions, r.Holds (sampleStack - sampleMap.hhdmOffset) →
        ∀ c ∈ releaseCalls AlignOps.exact sampleMap (spPhysPage (sampleStack - sampleMap.hhdmOffset)), ∀ p,
          Passes sampleMap.hhdmOffset c p → ¬ r.Holds p := by
  have same : SameRegion sampleMap sampleStack sampleStack :=
    ⟨by decide, by decide, fun _ _ => Iff.rfl⟩
  exact boot_registers_once AlignOps.exact_lawful sampleMap_fromLimine same

end CrustyOs.Kernel.LimineData
