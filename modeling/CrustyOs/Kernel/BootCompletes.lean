import CrustyOs.Kernel.BootSupply
import CrustyOs.Kernel.KernelRuns

/-! Whether the boot completes. With memory to spare only two things stop `kernel_main`: a
framebuffer off its page, and reclaimable memory below the base of the allocator. -/
namespace CrustyOs.Kernel.LimineData
open Lib Abalone Abalone.BuddyAllocator Mantle PageTableWalker Pml4

variable {A : AlignOps} {P : Paging} {d : LimineData} {apic : Bool} {mainSp releaseSp cr3 : Nat} {m : Memory}
  {Limine : Nat → Prop} {processInit : AllocatorStack → Except Panic AllocatorStack} {k : KernelStack}
  {sys : BuddyAllocator.System} {heap : TlsfInner} {s : AllocatorStack} {lists : Nat → List Nat}
  {t t₁ t₂ : Machine BuddyAllocator}

/-- `process::init` makes an empty table over a cache without slabs. -/
def TakesNoPages (processInit : AllocatorStack → Except Panic AllocatorStack) : Prop :=
  ∀ s, ∃ s', processInit s = .ok s' ∧ s'.buddy = s.buddy ∧ s'.mem = s.mem

/-- Memory for the heap, for three tables a device page and the stack, and for the kernel's
own tables. The heap takes 1024 pages, which are 64 runs of 16. -/
structure EnoughMemory (A : AlignOps) (d : LimineData) (apic : Bool) : Prop where
  heap : 0 < usableRuns A d 10
  stack : 3 * d.devicePages apic + 1024 < 16 * usableRuns A d 4
  tables : 3 * d.devicePages apic + 16 + framesNeeded d.kernelVirtStart d.kernelVirtEnd d.physMemSize + 1024 ≤
    usableRuns A d 0

/-! The steps up to the switch. -/

theorem allocators_return (lawful : A.Lawful) (h : Bootable A P d apic mainSp releaseSp cr3 m Limine)
    (process : UsesAllocators processInit) (idle : TakesNoPages processInit) (free : 0 < usableRuns A d 10) :
    ∃ sys heap s lists, heapInit A d (booted BuddyAllocator.new m) = .ok (sys, heap) ∧
      processInit (afterInit sys heap) = .ok s ∧ AllocatorStack.Sound s ∧ minVirt A d = some s.buddy.base ∧
      Managed d s.buddy.base s.pages ∧ Keeps d.hhdmOffset Limine m.word s.mem.word ∧
      BuddyAllocator.Represents s.buddy s.mem lists ∧ ∀ k ≤ 10, usableRuns A d k = reserve k lists + spend k 10 := by
  obtain ⟨sys, heap, lists, seeded, represents, counts⟩ := heapInit_supplies lawful h.seedable m free
  obtain ⟨s, processed, buddy, mem⟩ := idle (afterInit sys heap)
  have init := heapInit_spec lawful h.seedable m seeded
  obtain ⟨sound, lowest, managed, keeps⟩ := init.processed lawful h (process _ _ processed)
  refine ⟨sys, heap, s, lists, seeded, processed, sound, lowest, managed, keeps, ?_, counts⟩
  rw [buddy, mem]
  exact represents

theorem physMemSize_word (seedable : Seedable A d) : d.hhdmOffset + d.physMemSize < 2 ^ 64 := by
  obtain ⟨r, hr, _⟩ := seedable.some
  unfold physMemSize
  cases found : (d.regions.map MemoryRegion.endAddr).max? with
  | none =>
    have empty := List.max?_eq_none_iff.mp found
    rw [List.map_eq_nil_iff.mp empty] at hr
    cases hr
  | some top =>
    obtain ⟨u, hu, rfl⟩ := List.mem_map.mp (List.max?_mem found)
    exact (seedable.words u hu).1

theorem tables_return (x : X86 P) (h : Bootable A P d apic mainSp releaseSp cr3 m Limine)
    (sound : AllocatorStack.Sound s) (managed : Managed d s.buddy.base s.pages)
    (keeps : Keeps d.hhdmOffset Limine m.word s.mem.word) (represents : BuddyAllocator.Represents s.buddy s.mem lists)
    (stack : 3 * d.devicePages apic < 16 * reserve 4 lists)
    (tables : 3 * d.devicePages apic + 16 + framesNeeded d.kernelVirtStart d.kernelVirtEnd d.physMemSize ≤
      reserve 0 lists) :
    (d.FramebufferAligned → ∃ t₁ k t₂ t,
      d.mapDevices P (buddyFrames 0) apic ⟨cr3, ⟨s.mem.word, []⟩, s.buddy, []⟩ = .ok t₁ ∧
      allocKernelStack P buddyFrames ⟨d.hhdmOffset⟩ 8 t₁ = .ok (k, t₂) ∧
      d.installKernelPml4 P (buddyFrames 0) t₂ = .ok t) ∧
    (¬ d.FramebufferAligned →
      d.mapDevices P (buddyFrames 0) apic ⟨cr3, ⟨s.mem.word, []⟩, s.buddy, []⟩ = .error framebufferRefused) := by
  obtain ⟨lists₀, old, whole⟩ := sound.whole
  rw [represents.reserve_eq whole.represents] at stack tables
  obtain ⟨small, fits⟩ := h.layout.fits
  have outside := h.handover.outside managed
  have low : ∀ x ∈ s.pages, x < Bitmap.capacity :=
    fun x hx => Nat.lt_of_lt_of_le (sound.roomy x hx).1 (by decide)
  obtain ⟨shared, tree, clear⟩ := h.handover.start h.layout managed whole keeps
  have left₀ := shared.stocked.left_eq
  -- the tables of the devices come out of the pages beyond the runs of 16 first
  obtain ⟨c, spare⟩ : ∃ c, c = max 15 (reserve 0 lists₀ - 16 * reserve 4 lists₀) := ⟨_, rfl⟩
  have sound₀ : Mantle.Sound P d.hhdmOffset
      (FrugalReady d.hhdmOffset d.physMemSize s.buddy.base s.pages old s.mem.word Limine 4 c)
      (pml4Phys (⟨cr3, ⟨s.mem.word, []⟩, s.buddy, []⟩ : Machine BuddyAllocator))
      ⟨cr3, ⟨s.mem.word, []⟩, s.buddy, []⟩ Limine := ⟨tree, lists₀, [], shared, by omega⟩
  have supply : Supplies d.hhdmOffset (buddyFrames 0)
      (FrugalReady d.hhdmOffset d.physMemSize s.buddy.base s.pages old s.mem.word Limine 4 c) :=
    frugal_supplies small fits outside (by omega)
  obtain ⟨mapped, refused⟩ := mapDevices_iff x supply (frugal_returns low) (frugal_budget small fits) h.layout h.listed
    sound₀ clear (by dsimp only; omega)
  refine ⟨fun aligned => ?_, refused⟩
  obtain ⟨t₁, devices, spent⟩ := mapped aligned
  obtain ⟨Held₁, sound₁⟩ := mapDevices_kept x supply h.layout h.listed sound₀ clear devices
  obtain ⟨lists₁, blocks₁, shared₁, frugal₁⟩ := sound₁.ready
  have left₁ := shared₁.stocked.left_eq
  dsimp only at spent
  have run : 0 < reserve 4 lists₁ := by omega
  obtain ⟨k, t₂, stacked, paid⟩ :=
    allocKernelStack_returns x small (physMemSize_word h.seedable) outside low sound₁.pages shared₁ run
  have beside : Mantle.Sound P d.hhdmOffset
      (SharedReady d.hhdmOffset d.physMemSize s.buddy.base s.pages old s.mem.word Limine) (pml4Phys t₁) t₁ Held₁ :=
    ⟨sound₁.pages, lists₁, blocks₁, shared₁⟩
  obtain ⟨p, word₁, Held₂, _, _, ready₂⟩ := allocKernelStack_shared small fits outside x beside stacked
  obtain ⟨t, install⟩ := installs x (shared_supplies small fits outside) h.layout (shared_returns low)
    (shared_budget small fits) ready₂ (by omega)
  exact ⟨t₁, k, t₂, t, devices, stacked, install⟩

/-! The late calls. -/

theorem kernelMain_late (same : SameRegion d mainSp releaseSp)
    (seeded : heapInit A d (booted BuddyAllocator.new m) = .ok (sys, heap))
    (processed : processInit (afterInit sys heap) = .ok s)
    (devices : d.mapDevices P (buddyFrames 0) apic ⟨cr3, ⟨s.mem.word, []⟩, s.buddy, []⟩ = .ok t₁)
    (stack : allocKernelStack P buddyFrames ⟨d.hhdmOffset⟩ 8 t₁ = .ok (k, t₂))
    (install : d.installKernelPml4 P (buddyFrames 0) t₂ = .ok t) :
    kernelMain A P d apic mainSp releaseSp processInit cr3 m =
      registerAll { s.pageClient with buddy := t.buddy, mem := t.mem } (lateCalls A d mainSp releaseSp) >>=
        fun r => .ok ⟨t.cr3, k, s.withPages r⟩ := by
  have main := checkedSub_le same.main.1
  have offset := checkedSub_le same.release.1
  unfold kernelMain
  rw [bind_of_ok seeded]
  dsimp only
  rw [bind_of_ok processed, bind_of_ok devices, bind_of_ok main, bind_of_ok stack]
  dsimp only
  rw [bind_of_ok install, release, bind_of_ok offset, lateCalls, registerAll_append, bind_assoc]
  rfl

section Late

variable (lawful : A.Lawful) (h : Bootable A P d apic mainSp releaseSp cr3 m Limine)
  (sound : AllocatorStack.Sound s) (managed : Managed d s.buddy.base s.pages) (lowest : minVirt A d = some s.buddy.base)
  (live : List Allocation)

include lawful h sound managed lowest

theorem late_returns {calls : Calls} (sub : calls.Sublist (lateCalls A d mainSp releaseSp))
    (above : ∀ c ∈ calls, s.buddy.base ≤ c.1) :
    ∃ r, registerAll { s.pageClient with live } calls = .ok r ∧ r.buddy.base = s.buddy.base := by
  have based : s.buddy.base ≠ 0 := by
    have window := h.seedable.window
    have low := managed.window.1
    omega
  obtain ⟨lists, blocks, whole⟩ := sound.whole
  have fresh : Fresh s.whole calls := late_fresh lawful h.limine h.stack managed sub above based
  have room := late_room lawful h.limine managed sub above h.seedable h.near lowest
  have bitmaps : 2 ^ buddyMaxOrder ≤ Bitmap.capacity := by decide
  obtain ⟨r, run⟩ := registerAll_returns calls whole fresh fun c hc x hx =>
    Nat.lt_of_lt_of_le (room c hc x hx).1 bitmaps
  have again := registerAll_live calls live run
  rcases registerAll_cases (s := s.whole) calls above with ⟨r', run', base⟩ | ⟨e, stop, _⟩
  · obtain rfl := Except.ok.inj (run'.symm.trans run)
    exact ⟨_, again, base⟩
  · cases stop.symm.trans run

/-- They all return when usable memory starts at or below each late region; otherwise the first
one below the base stops the boot. -/
theorem late_decided :
    (LateAbove A d mainSp releaseSp →
      ∃ r, registerAll { s.pageClient with live } (lateCalls A d mainSp releaseSp) = .ok r) ∧
    (¬ LateAbove A d mainSp releaseSp →
      registerAll { s.pageClient with live } (lateCalls A d mainSp releaseSp) = .error baseAssertion) := by
  have known (c : Nat × Nat) : c ∈ lateCalls A d mainSp releaseSp ↔ _ := mem_lateCalls lawful h.limine.apart
  constructor
  · intro late
    obtain ⟨r, run, _⟩ := late_returns lawful h sound managed lowest live (.refl _) fun c hc => by
      obtain ⟨region, mem, follows, rfl⟩ := (known c).mp hc
      exact (minVirt_le_iff lowest region).mpr (late region mem follows)
    exact ⟨r, run⟩
  · intro below
    have first : ((lateCalls A d mainSp releaseSp).find? fun c => c.1 < s.buddy.base).isSome := by
      rw [List.find?_isSome]
      by_contra none
      apply below
      intro region late follows
      apply (minVirt_le_iff lowest region).mp
      by_contra low
      exact none ⟨_, (known _).mpr ⟨region, late, follows, rfl⟩, decide_eq_true (Nat.lt_of_not_le low)⟩
    obtain ⟨c, found⟩ := Option.isSome_iff_exists.mp first
    obtain ⟨low, before, after, calls, above⟩ := List.find?_eq_some_iff_append.mp found
    have sub : before.Sublist (lateCalls A d mainSp releaseSp) := by
      rw [calls]
      exact List.sublist_append_left _ _
    obtain ⟨r, run, base⟩ := late_returns lawful h sound managed lowest live sub fun e he => by
      simpa using above e he
    have based : r.buddy.base ≠ 0 := by
      have window := h.seedable.window
      have start := managed.window.1
      omega
    have stop := addRegion_below based c.2 (base ▸ of_decide_eq_true low)
    rw [calls, registerAll_append, bind_of_ok run]
    exact bind_of_error stop _

end Late

/-! The boot. -/

/-- With memory to spare the map decides: the boot stops at a framebuffer off its page, or at
late memory below the base, and otherwise completes. -/
theorem boot_completes_iff (lawful : A.Lawful) (x : X86 P)
    (h : Bootable A P d apic mainSp releaseSp cr3 m Limine) (process : UsesAllocators processInit)
    (idle : TakesNoPages processInit) (enough : EnoughMemory A d apic) :
    ((∃ k, kernelMain A P d apic mainSp releaseSp processInit cr3 m = .ok k) ↔
      d.FramebufferAligned ∧ LateAbove A d mainSp releaseSp) ∧
    (¬ d.FramebufferAligned → kernelMain A P d apic mainSp releaseSp processInit cr3 m = .error framebufferRefused) ∧
    (d.FramebufferAligned → ¬ LateAbove A d mainSp releaseSp →
      kernelMain A P d apic mainSp releaseSp processInit cr3 m = .error baseAssertion) := by
  obtain ⟨sys, heap, s, lists, seeded, processed, sound, lowest, managed, keeps, represents, counts⟩ :=
    allocators_return lawful h process idle enough.heap
  have pages := counts 0 (by decide)
  have runs := counts 4 (by decide)
  have heapPages : spend 0 10 = 1024 := by decide
  have heapRuns : spend 4 10 = 64 := by decide
  have stack := enough.stack
  have tables := enough.tables
  obtain ⟨mapped, refused⟩ := tables_return x h sound managed keeps represents (by omega) (by omega)
  by_cases aligned : d.FramebufferAligned
  · obtain ⟨t₁, k, t₂, t, devices, stacked, install⟩ := mapped aligned
    obtain ⟨taken, owned, same, _⟩ :=
      switch_tables x h.layout h.listed h.handover sound managed keeps devices stacked install
    rw [← same] at lowest managed
    obtain ⟨all, stops⟩ := late_decided lawful h owned managed lowest s.blocks
    rw [kernelMain_late h.stack seeded processed devices stacked install]
    refine ⟨⟨?_, ?_⟩, fun off => absurd aligned off, fun _ below => bind_of_error (stops below) _⟩
    · rintro ⟨kernel, boot⟩
      refine ⟨aligned, Classical.byContradiction fun below => ?_⟩
      cases (bind_of_error (stops below) _).symm.trans boot
    · rintro ⟨_, late⟩
      obtain ⟨r, run⟩ := all late
      exact ⟨_, bind_of_ok run _⟩
  · have stop : kernelMain A P d apic mainSp releaseSp processInit cr3 m = .error framebufferRefused := by
      unfold kernelMain
      rw [bind_of_ok seeded]
      dsimp only
      rw [bind_of_ok processed]
      exact bind_of_error (refused aligned) _
    refine ⟨iff_of_false ?_ fun both => aligned both.1, fun _ => stop, fun on => absurd on aligned⟩
    rintro ⟨kernel, boot⟩
    cases stop.symm.trans boot

theorem oneCache_takes_no_pages : TakesNoPages oneCache := fun _ => ⟨_, rfl, rfl, rfl⟩

theorem bootMap_enough : EnoughMemory AlignOps.exact bootMap true where
  heap := by decide +kernel
  stack := by decide +kernel
  tables := by decide +kernel

theorem bootMap_aligned : bootMap.FramebufferAligned := by
  intro fb found _
  obtain rfl := Option.some.inj found
  decide

theorem bootMap_above : LateAbove AlignOps.exact bootMap bootSp bootSp := by
  intro r late _
  have start : 0x100000 ≤ r.alignedBase AlignOps.exact := late.above
  exact ⟨_, List.mem_cons_of_mem _ (List.mem_cons_self ..), rfl, start⟩

theorem boot_completes_sample : bootMap.FramebufferAligned ∧ LateAbove AlignOps.exact bootMap bootSp bootSp ∧
    ∃ k, bootRun = .ok k :=
  ⟨bootMap_aligned, bootMap_above,
    (boot_completes_iff AlignOps.exact_lawful amd64_x86 bootMap_bootable oneCache_uses oneCache_takes_no_pages
      bootMap_enough).1.mpr ⟨bootMap_aligned, bootMap_above⟩⟩

end CrustyOs.Kernel.LimineData
