import CrustyOs.Kernel.BootBase
import CrustyOs.Kernel.BootPages
import CrustyOs.Kernel.KernelHeap
import CrustyOs.Kernel.KernelTables

/-! `kernel_main` and `kernel_main_continue`, from the memory that Limine hands over to the
running kernel: what the kernel's own tables translate, and which pages its allocator manages. -/
namespace CrustyOs.Kernel
open Lib Abalone Abalone.BuddyAllocator Mantle PageTableWalker Pml4

/-- The running kernel: its tables, its stack and its allocators. -/
structure RunningKernel where
  cr3 : Nat
  kstack : KernelStack
  allocators : AllocatorStack

def RunningKernel.owning (k : RunningKernel) (taken : List Allocation) : AllocatorStack :=
  { k.allocators with blocks := taken ++ k.allocators.blocks }

namespace LimineData

/-- The steps of `kernel_main` that use memory, and then `kernel_main_continue`. `mainSp` and
`releaseSp` are the stack pointers read on the way, `processInit` is `process::init`. -/
def kernelMain (A : AlignOps) (P : Paging) (d : LimineData) (apicSupported : Bool) (mainSp releaseSp : Nat)
    (processInit : AllocatorStack → Except Panic AllocatorStack) (cr3 : Nat) (m : Memory) :
    Except Panic RunningKernel := do
  let (sys, heap) ← heapInit A d (booted BuddyAllocator.new m)
  let s ← processInit (afterInit sys heap)
  let t ← d.mapDevices P (buddyFrames 0) apicSupported ⟨cr3, ⟨s.mem.word, []⟩, s.buddy, []⟩
  let offset ← checkedSub mainSp d.hhdmOffset
  let bootStack := bootStackRegion A d (spPhysPage offset)
  let (kstack, t) ← allocKernelStack P buddyFrames ⟨d.hhdmOffset⟩ 8 t
  let t ← d.installKernelPml4 P (buddyFrames 0) t
  let r ← release A d releaseSp { s.pageClient with buddy := t.buddy, mem := t.mem }
  -- from here on `kernel_main_continue`, on the new stack
  let r ← kernelMainContinue bootStack r
  return ⟨t.cr3, kstack, s.withPages r⟩

variable {A : AlignOps} {P : Paging} {d : LimineData} {apic : Bool} {mainSp releaseSp cr3 base : Nat} {m : Memory}
  {Limine : Nat → Prop} {s : AllocatorStack} {sys : BuddyAllocator.System} {heap : TlsfInner}

/-- What Limine hands over: tables in frames of their own, which are no usable memory, and no
huge page over a device. -/
structure Handover (P : Paging) (d : LimineData) (apic : Bool) (cr3 : Nat) (m : Memory) (Limine : Nat → Prop) :
    Prop where
  tables : PageTree P d.hhdmOffset m.word (cr3 &&& wordNot 64 0xFFF) Limine
  frames : ∀ f, Limine f → Frame d.hhdmOffset f ∧ ¬ Usable d f
  clear : ∀ v p, DeviceMapped d apic v p →
    Clear P d.hhdmOffset m.word (cr3 &&& wordNot 64 0xFFF) v 3

/-! Before the switch of tables. -/

structure Managed (d : LimineData) (base : Nat) (pages : Finset Nat) : Prop where
  window : d.hhdmOffset ≤ base ∧ 4096 ∣ d.hhdmOffset ∧ 4096 ∣ base
  usable : ∀ x p, d.hhdmOffset + p = node base x → (x ∈ pages ↔ 4096 ∣ p ∧ Usable d p)

theorem Inited.managed (h : Inited A d m sys heap) (lawful : A.Lawful) (seedable : Seedable A d) :
    Managed d sys.buddy.base sys.pages := by
  obtain ⟨u, _, _, lowest, _⟩ := minVirt_spec seedable
  have window := seedable.window
  have base := Option.some.inj (h.base.symm.trans lowest)
  refine ⟨⟨by omega, window.2, ?_⟩, h.pages⟩
  rw [base]
  exact Nat.dvd_add window.2 (u.aligned_dvd lawful).1

theorem Managed.page {pages : Finset Nat} (h : Managed d base pages) {x : Nat} (hx : x ∈ pages) :
    ∃ p, d.hhdmOffset + p = node base x ∧ 4096 ∣ p ∧ Usable d p := by
  have above : d.hhdmOffset ≤ node base x := Nat.le_trans h.window.1 (Nat.le_add_right _ _)
  have place := Nat.add_sub_of_le above
  exact ⟨_, place, (h.usable x _ place).mp hx⟩

theorem Managed.within {pages : Finset Nat} (h : Managed d base pages) :
    ∀ x ∈ pages, base + (x + 1) * Mantle.pageSize ≤ d.hhdmOffset + d.physMemSize := by
  intro x hx
  obtain ⟨p, place, _, ⟨r, hr, _, _, stop⟩, _⟩ := h.page hx
  have top := endAddr_le_physMemSize hr
  unfold node Abalone.pageSize at place
  unfold Mantle.pageSize
  omega

theorem Handover.outside {pages : Finset Nat} (h : Handover P d apic cr3 m Limine) (managed : Managed d base pages) :
    ∀ f, Limine f → Frame d.hhdmOffset f ∧ ∀ x ∈ pages, node base x ≠ f + d.hhdmOffset := by
  intro f hf
  obtain ⟨frame, reserved⟩ := h.frames f hf
  refine ⟨frame, fun x hx e => reserved ?_⟩
  exact ((managed.usable x f (by rw [e, Nat.add_comm])).mp hx).2

theorem Handover.keeps {pages : Finset Nat} {m' : Memory} (h : Handover P d apic cr3 m Limine)
    (managed : Managed d base pages) (stores : Memory.StoresIn (OnPage base pages) m m') :
    Keeps d.hhdmOffset Limine m.word m'.word := by
  intro f a hf ha
  apply stores.read_eq
  rintro ⟨x, hx, low, high⟩
  obtain ⟨frame, apart⟩ := h.outside managed f hf
  apply apart x hx
  obtain ⟨_, ⟨i, hhdm⟩, j, from_base⟩ := managed.window
  obtain ⟨g, place⟩ := frame.aligned
  unfold InFrame at ha
  unfold node Abalone.pageSize Mantle.pageSize at *
  omega

theorem Layout.fits (layout : Layout d) : d.physMemSize ≤ 2 ^ 52 ∧ d.hhdmOffset + d.physMemSize ≤ 2 ^ 64 := by
  have room := physMemSize_le_window d
  have size := window_small layout.placement.window
  have last := layout.window (d.hhdmOffset + d.windowSize - 1)
  unfold windowSize Mantle.Canonical at last
  omega

/-- The allocators share their pages with Limine's tables, which are as Limine left them. -/
theorem Handover.start {lists : Nat → List Nat} {old : List Block} (h : Handover P d apic cr3 m Limine)
    (layout : Layout d) (managed : Managed d s.buddy.base s.pages) (whole : BuddyAllocator.Sound s.whole lists old)
    (keeps : Keeps d.hhdmOffset Limine m.word s.mem.word) :
    Shared d.hhdmOffset d.physMemSize s.buddy.base s.pages old s.mem.word Limine s.buddy s.mem.word Limine lists [] ∧
      PageTree P d.hhdmOffset s.mem.word (cr3 &&& wordNot 64 0xFFF) Limine ∧
      ∀ v p, DeviceMapped d apic v p → Clear P d.hhdmOffset s.mem.word (cr3 &&& wordNot 64 0xFFF) v 3 := by
  obtain ⟨small, fits⟩ := layout.fits
  obtain ⟨above, hhdm, from_base⟩ := managed.window
  have shared : Shared d.hhdmOffset d.physMemSize s.buddy.base s.pages old s.mem.word Limine s.buddy s.mem.word
      Limine lists [] :=
    .of_sound whole ⟨above, Nat.dvd_sub from_base hhdm⟩ managed.within small fits (h.outside managed) fun _ => Or.inl
  obtain ⟨tree, walks⟩ := h.tables.kept keeps
  refine ⟨shared, tree, fun v p device depth e found => ?_⟩
  exact h.clear v p device depth e ((walks _ (path_path v)).2.symm.trans found)

theorem switch_tables {t₁ t₂ t : Machine BuddyAllocator} {k : KernelStack} (x : X86 P) (layout : Layout d)
    (listed : ∀ fb, d.framebuffer = some fb → Listed d fb) (handover : Handover P d apic cr3 m Limine)
    (sound : AllocatorStack.Sound s) (managed : Managed d s.buddy.base s.pages)
    (keeps : Keeps d.hhdmOffset Limine m.word s.mem.word)
    (devices : d.mapDevices P (buddyFrames 0) apic ⟨cr3, ⟨s.mem.word, []⟩, s.buddy, []⟩ = .ok t₁)
    (stack : allocKernelStack P buddyFrames ⟨d.hhdmOffset⟩ 8 t₁ = .ok (k, t₂))
    (install : d.installKernelPml4 P (buddyFrames 0) t₂ = .ok t) :
    ∃ taken, AllocatorStack.Sound { s with buddy := t.buddy, mem := t.mem, blocks := taken ++ s.blocks } ∧
      t.buddy.base = s.buddy.base ∧ TablesIn P d taken t.mem.word (pml4Phys t) ∧
      (⟨k.guardVirt, 4⟩ : Allocation) ∈ taken ∧ k.top = k.guardVirt + 16 * 0x1000 := by
  obtain ⟨lists, old, whole⟩ := sound.whole
  obtain ⟨small, fits⟩ := layout.fits
  have above := managed.window.1
  have outside := handover.outside managed
  obtain ⟨shared, tree, clear⟩ := handover.start layout managed whole keeps
  have sound₀ : Mantle.Sound P d.hhdmOffset
      (SharedReady d.hhdmOffset d.physMemSize s.buddy.base s.pages old s.mem.word Limine)
      (pml4Phys (⟨cr3, ⟨s.mem.word, []⟩, s.buddy, []⟩ : Machine BuddyAllocator))
      ⟨cr3, ⟨s.mem.word, []⟩, s.buddy, []⟩ Limine := ⟨tree, lists, [], shared⟩
  obtain ⟨Held₁, sound₁⟩ := mapDevices_kept x (shared_supplies small fits outside) layout listed sound₀ clear devices
  obtain ⟨p, word₁, Held₂, rfl, same₁, ready₂⟩ := allocKernelStack_shared small fits outside x sound₁ stack
  obtain ⟨Held₃, lists₃, blocks₃, shared₃, tables⟩ := install_shared x layout small fits ready₂ install
  have live : s.allocations = old.map (Allocation.of s.buddy.base) := whole.live
  have all : blocks₃.map (Allocation.of s.buddy.base) ++ [Allocation.of s.buddy.base ⟨4, p⟩] ++ s.allocations =
      (blocks₃ ++ ⟨4, p⟩ :: old).map (Allocation.of s.buddy.base) := by
    rw [live, List.map_append, List.map_cons, List.append_assoc]
    rfl
  have low : ∀ x ∈ s.pages, x < Bitmap.capacity :=
    fun x hx => Nat.lt_of_lt_of_le (sound.roomy x hx).1 (by decide)
  refine ⟨blocks₃.map (Allocation.of s.buddy.base) ++ [Allocation.of s.buddy.base ⟨4, p⟩],
    sound.adopt ⟨lists₃, blocks₃ ++ ⟨4, p⟩ :: old, ?_⟩ shared₃.from_base ?_, shared₃.from_base, ?_,
    List.mem_append_right _ (List.mem_singleton.mpr rfl), rfl⟩
  · rw [List.append_assoc, ← AllocatorStack.allocations, all]
    exact shared₃.sound rfl low
  · have same : SameOn s.allocations s.mem t.mem := by
      rw [live]
      refine sameOn_of_frames above fun f a hf ha => ?_
      obtain ⟨c, hc, x, has, e⟩ := hf
      exact (shared₃.same f a ⟨c, List.mem_cons_of_mem _ hc, x, has, e⟩ ha).trans (same₁ f a ⟨c, hc, x, has, e⟩ ha)
    exact same.sub fun b hb => List.mem_append_right _ hb
  · obtain ⟨⟨Held, tree, placed⟩, leaves⟩ := tables
    refine ⟨⟨Held, tree, fun f hf => ?_⟩, leaves⟩
    obtain ⟨b, hb, inside⟩ := placed f hf
    exact ⟨b, List.mem_append_left _ hb, inside⟩

/-! After the switch: reclaimable memory. -/

def Reclaimed (A : AlignOps) (d : LimineData) (p : Nat) : Prop :=
  ∃ r, Late A d r ∧ r.base ≤ p ∧ p + 4096 ≤ r.endAddr

theorem reclaimed_iff {p : Nat} : (∃ r ∈ d.regions, (r.regionType.isReclaimable = true ∧
    r.alignedBase A < r.alignedEnd A ∧ 0x100000 ≤ r.alignedBase A) ∧ r.base ≤ p ∧ p + 4096 ≤ r.endAddr) ↔
    Reclaimed A d p := by
  constructor
  · rintro ⟨r, mem, ⟨reclaimable, pages, above⟩, inside⟩
    exact ⟨r, ⟨mem, reclaimable, pages, above⟩, inside⟩
  · rintro ⟨r, ⟨mem, reclaimable, pages, above⟩, inside⟩
    exact ⟨r, mem, ⟨reclaimable, pages, above⟩, inside⟩

instance (A : AlignOps) (d : LimineData) (p : Nat) : Decidable (Reclaimed A d p) := decidable_of_iff _ reclaimed_iff

def LateNear (A : AlignOps) (d : LimineData) : Prop :=
  ∀ r, Late A d r → ∀ u ∈ d.regions, u.regionType = .usable →
    r.alignedEnd A ≤ u.alignedBase A + 2 ^ buddyMaxOrder * 4096

theorem registerAll_above (calls : Calls) : ∀ {s r : BuddyAllocator.System}, registerAll s calls = .ok r →
    ∀ c ∈ calls, s.buddy.base ≤ c.1 := by
  induction calls with
  | nil => exact fun {s r} _ c hc => absurd hc List.not_mem_nil
  | cons c calls ih =>
    intro s r run
    obtain ⟨s₁, first, rest⟩ := ok_of_bind run
    have above : s.buddy.base ≤ c.1 := by
      obtain ⟨_, answer, _⟩ := ok_of_bind first
      obtain ⟨_, _, answer⟩ := ok_of_bind answer
      obtain ⟨_, checked, _⟩ := ok_of_bind answer
      exact of_decide_eq_true (of_require checked)
    rcases addRegion_cases c.2 above with ⟨s₂, again, same⟩ | ⟨e, stop, _⟩
    · obtain rfl := Except.ok.inj (again.symm.trans first)
      intro e he
      cases List.mem_cons.mp he with
      | inl here => exact here ▸ above
      | inr later => exact same ▸ ih rest e later
    · cases stop.symm.trans first

theorem late_call (lawful : A.Lawful) (limine : FromLimine d) {c : Nat × Nat}
    (hc : c ∈ lateCalls A d mainSp releaseSp) : ∃ r, Late A d r ∧ c = regionCall A d r := by
  obtain ⟨r, late, _, e⟩ := (mem_lateCalls lawful limine.apart).mp hc
  exact ⟨r, late, e⟩

section Late

variable {b : BuddyAllocator} {live : List Allocation} {pages : Finset Nat} (lawful : A.Lawful)
  (limine : FromLimine d) (same : SameRegion d mainSp releaseSp) (managed : Managed d b.base pages)

include lawful limine managed

theorem late_pages_iff {c : Nat × Nat} (hc : c ∈ lateCalls A d mainSp releaseSp) (above : b.base ≤ c.1) {x p : Nat}
    (place : d.hhdmOffset + p = node b.base x) : x ∈ callPages b.base c ↔ Passes d.hhdmOffset c p := by
  obtain ⟨r, _, rfl⟩ := late_call lawful limine hc
  exact mem_callPages_iff above
    ⟨managed.window.2.2, Nat.dvd_add managed.window.2.1 (r.aligned_dvd lawful).1⟩ place

omit limine lawful in
theorem place_of (x : Nat) : ∃ p, d.hhdmOffset + p = node b.base x :=
  ⟨_, Nat.add_sub_of_le (Nat.le_trans managed.window.1 (Nat.le_add_right _ _))⟩

section Sub

variable {calls : Calls} (sub : calls.Sublist (lateCalls A d mainSp releaseSp)) (above : ∀ c ∈ calls, b.base ≤ c.1)

include sub above

include same in
theorem late_fresh (based : b.base ≠ 0) : Fresh ⟨b, m, live, pages⟩ calls := by
  have apart := allCalls_apart lawful limine same
  unfold allCalls at apart
  obtain ⟨_, late, across⟩ := List.pairwise_append.mp apart
  refine ⟨based, fun c hc => ⟨above c hc, ?_⟩, fun c hc x hx old => ?_, ?_⟩
  · obtain ⟨r, _, rfl⟩ := late_call lawful limine (sub.subset hc)
    exact Nat.mod_eq_zero_of_dvd (Nat.dvd_add managed.window.2.1 (r.aligned_dvd lawful).1)
  · obtain ⟨p, place⟩ := place_of managed x
    have pass := (late_pages_iff lawful limine managed (sub.subset hc) (above c hc) place).mp hx
    obtain ⟨e, he, first⟩ := (initCalls_passes_iff lawful).mpr ((managed.usable x p place).mp old)
    exact across e he c (sub.subset hc) p first pass
  · apply (late.sublist sub).imp_of_mem
    intro c e hc he far x hx hx'
    obtain ⟨p, place⟩ := place_of managed x
    exact far p ((late_pages_iff lawful limine managed (sub.subset hc) (above c hc) place).mp hx)
      ((late_pages_iff lawful limine managed (sub.subset he) (above e he) place).mp hx')

theorem late_room (seedable : Seedable A d) (near : LateNear A d) (lowest : minVirt A d = some b.base) :
    ∀ c ∈ calls, ∀ x ∈ callPages b.base c,
      x < 2 ^ buddyMaxOrder ∧ b.base + (x + 1) * Abalone.pageSize ≤ 2 ^ 64 := by
  intro c hc x hx
  obtain ⟨p, place⟩ := place_of managed x
  have pass := (late_pages_iff lawful limine managed (sub.subset hc) (above c hc) place).mp hx
  obtain ⟨r, late, rfl⟩ := late_call lawful limine (sub.subset hc)
  obtain ⟨page, _, high⟩ := (passes_regionCall lawful).mp pass
  have stop := (r.full_page_iff lawful page).2.mp high
  obtain ⟨u, hu, usable, first, _⟩ := minVirt_spec seedable
  have base := Option.some.inj (lowest.symm.trans first)
  have reach := near r late u hu usable
  have word := (seedable.words r late.mem).1
  unfold node at place
  unfold Abalone.pageSize at *
  omega

end Sub

variable (above : ∀ c ∈ lateCalls A d mainSp releaseSp, b.base ≤ c.1)

include above same

theorem late_managed {x p : Nat} (place : d.hhdmOffset + p = node b.base x) :
    x ∈ pages ∪ allPages b.base (lateCalls A d mainSp releaseSp) ↔ 4096 ∣ p ∧ (Usable d p ∨ Reclaimed A d p) := by
  rw [Finset.mem_union, managed.usable x p place, mem_allPages]
  constructor
  · rintro (⟨page, usable⟩ | ⟨c, hc, hx⟩)
    · exact ⟨page, Or.inl usable⟩
    · have pass := (late_pages_iff lawful limine managed hc (above c hc) place).mp hx
      obtain ⟨r, late, rfl⟩ := late_call lawful limine hc
      obtain ⟨page, low, high⟩ := (passes_regionCall lawful).mp pass
      obtain ⟨below, stop⟩ := r.full_page_iff lawful page
      exact ⟨page, Or.inr ⟨r, late, below.mp low, stop.mp high⟩⟩
  · rintro ⟨page, usable | ⟨r, late, low, stop⟩⟩
    · exact Or.inl ⟨page, usable⟩
    · obtain ⟨below, high⟩ := r.full_page_iff lawful page
      have pass : Passes d.hhdmOffset (regionCall A d r) p :=
        (passes_regionCall lawful).mpr ⟨page, below.mpr low, high.mpr stop⟩
      have passed := late_passed lawful limine same late
      unfold allCalls at passed
      cases List.mem_append.mp passed with
      | inl first => exact Or.inl ((initCalls_passes_iff lawful).mp ⟨_, first, pass⟩)
      | inr hc => exact Or.inr ⟨_, hc, (late_pages_iff lawful limine managed hc (above _ hc) place).mpr pass⟩

omit managed in
theorem late_above (seedable : Seedable A d) (lowest : minVirt A d = some b.base) {p : Nat} (page : 4096 ∣ p)
    (free : Usable d p ∨ Reclaimed A d p) : b.base ≤ d.hhdmOffset + p := by
  cases free with
  | inl usable =>
    obtain ⟨u, hu, kind, first, least⟩ := minVirt_spec seedable
    rw [← Option.some.inj (first.symm.trans lowest)]
    apply base_le_usable lawful seedable.window.2 least (Nat.dvd_add seedable.window.2 page)
    rw [Nat.add_sub_cancel_left]
    exact ⟨Nat.le_add_right _ _, usable⟩
  | inr reclaimed =>
    obtain ⟨r, late, low, stop⟩ := reclaimed
    obtain ⟨below, high⟩ := r.full_page_iff lawful page
    have passed := late_passed lawful limine same late
    unfold allCalls at passed
    cases List.mem_append.mp passed with
    | inl first =>
      obtain ⟨r', hr, kind, lo, hi, call⟩ := mem_initCalls lawful first
      obtain ⟨u, hu, usable, lowest', least⟩ := minVirt_spec seedable
      have placed := (initCall_placed lawful seedable hu usable least first).1.1
      have start := below.mpr low
      have base := Option.some.inj (lowest'.symm.trans lowest)
      unfold regionCall span at placed
      dsimp only at placed
      omega
    | inr later =>
      have start := above _ later
      have first := below.mpr low
      unfold regionCall span at start
      dsimp only at start
      omega

end Late

/-! The boot as a whole. -/

/-- `process::init` works through the allocators and registers no memory. -/
def UsesAllocators (processInit : AllocatorStack → Except Panic AllocatorStack) : Prop :=
  ∀ s s', processInit s = .ok s' → Reach AllocatorStack.exec AllocatorStack.Settled s s'

/-- What the boot may rely on. -/
structure Bootable (A : AlignOps) (P : Paging) (d : LimineData) (apic : Bool) (mainSp releaseSp cr3 : Nat)
    (m : Memory) (Limine : Nat → Prop) : Prop where
  limine : FromLimine d
  seedable : Seedable A d
  near : LateNear A d
  layout : Layout d
  listed : ∀ fb, d.framebuffer = some fb → Listed d fb
  stack : SameRegion d mainSp releaseSp
  handover : Handover P d apic cr3 m Limine

variable {processInit : AllocatorStack → Except Panic AllocatorStack} {k : RunningKernel}

/-- The running kernel: sound allocators, its tables and its stack in blocks of their own, and
the usable and reclaimed pages under management. -/
structure Booted (A : AlignOps) (P : Paging) (d : LimineData) (k : RunningKernel) (taken : List Allocation) :
    Prop where
  sound : AllocatorStack.Sound (k.owning taken)
  tables : TablesIn P d taken k.allocators.mem.word (k.cr3 &&& wordNot 64 0xFFF)
  stack : (⟨k.kstack.guardVirt, 4⟩ : Allocation) ∈ taken ∧ k.kstack.top = k.kstack.guardVirt + 16 * 0x1000
  window : d.hhdmOffset ≤ k.allocators.buddy.base ∧ 4096 ∣ d.hhdmOffset ∧ 4096 ∣ k.allocators.buddy.base
  pages : ∀ p, (∃ x ∈ k.allocators.pages, d.hhdmOffset + p = node k.allocators.buddy.base x) ↔
    4096 ∣ p ∧ (Usable d p ∨ Reclaimed A d p)

theorem Inited.processed (lawful : A.Lawful) (h : Bootable A P d apic mainSp releaseSp cr3 m Limine)
    (init : Inited A d m sys heap) (run : Reach AllocatorStack.exec AllocatorStack.Settled (afterInit sys heap) s) :
    AllocatorStack.Sound s ∧ minVirt A d = some s.buddy.base ∧ Managed d s.buddy.base s.pages ∧
      Keeps d.hhdmOffset Limine m.word s.mem.word := by
  obtain ⟨sound, base, pages, stores⟩ := init.sound.run_settled run
  have base : s.buddy.base = sys.buddy.base := base
  have pages : s.pages = sys.pages := pages
  have managed : Managed d s.buddy.base s.pages := by
    rw [base, pages]
    exact init.managed lawful h.seedable
  have written : Memory.StoresIn (OnPage s.buddy.base s.pages) m s.mem := by
    rw [base, pages]
    exact init.stores.trans stores
  exact ⟨sound, by rw [base, init.base], managed, h.handover.keeps managed written⟩

theorem boot_spec (lawful : A.Lawful) (x : X86 P) (h : Bootable A P d apic mainSp releaseSp cr3 m Limine)
    (process : UsesAllocators processInit)
    (boot : kernelMain A P d apic mainSp releaseSp processInit cr3 m = .ok k) : ∃ taken, Booted A P d k taken := by
  obtain ⟨⟨sys, heap⟩, seeded, boot⟩ := ok_of_bind boot
  obtain ⟨s, processed, boot⟩ := ok_of_bind boot
  obtain ⟨t₁, devices, boot⟩ := ok_of_bind boot
  obtain ⟨mainOffset, main, boot⟩ := ok_of_bind boot
  obtain ⟨⟨kstack, t₂⟩, stack, boot⟩ := ok_of_bind boot
  obtain ⟨t, install, boot⟩ := ok_of_bind boot
  obtain ⟨r₁, released, boot⟩ := ok_of_bind boot
  obtain ⟨r, continued, boot⟩ := ok_of_bind boot
  obtain rfl := Except.ok.inj boot
  -- the allocators up to the switch
  have init := heapInit_spec lawful h.seedable m seeded
  obtain ⟨sound, lowest, managed, keeps⟩ := init.processed lawful h (process _ _ processed)
  obtain ⟨taken, owned, same, tables, block, top⟩ := switch_tables x h.layout h.listed h.handover sound managed keeps
    devices stack install
  -- the late calls, one list over the allocators
  obtain ⟨_, rfl⟩ := checkedSub_eq main
  obtain ⟨releaseOffset, offset, released⟩ := ok_of_bind released
  obtain ⟨_, rfl⟩ := checkedSub_eq offset
  have all : registerAll { s.pageClient with buddy := t.buddy, mem := t.mem } (lateCalls A d mainSp releaseSp) = .ok r := by
    rw [lateCalls, registerAll_append, bind_of_ok released]
    exact continued
  have above := registerAll_above _ all
  have run := registerAll_live _ (taken ++ s.blocks) all
  have managed' : Managed d t.buddy.base s.pages := by
    rw [same]
    exact managed
  have based : t.buddy.base ≠ 0 := by
    have window := h.seedable.window
    have low := managed'.window.1
    omega
  rw [← same] at lowest
  obtain ⟨reached, from_base, grown⟩ := owned.register taken _
    (late_fresh lawful h.limine h.stack managed' (.refl _) above based)
    (late_room lawful h.limine managed' (.refl _) above h.seedable h.near lowest) run
  obtain ⟨_, kept⟩ := owned.run_spares (fun b hb => List.mem_append_left _ hb) reached
  have from_base : r.buddy.base = t.buddy.base := from_base
  refine ⟨taken, owned.run (reached.mono fun _ _ both => both.1), tables.kept kept, ⟨block, top⟩, ?_, ?_⟩
  · show d.hhdmOffset ≤ r.buddy.base ∧ 4096 ∣ d.hhdmOffset ∧ 4096 ∣ r.buddy.base
    rw [from_base]
    exact managed'.window
  intro p
  have grown : r.pages = s.pages ∪ allPages t.buddy.base (lateCalls A d mainSp releaseSp) := grown
  show (∃ y ∈ r.pages, d.hhdmOffset + p = node r.buddy.base y) ↔ _
  rw [from_base, grown]
  constructor
  · rintro ⟨y, hy, place⟩
    exact (late_managed lawful h.limine h.stack managed' above place).mp hy
  · rintro ⟨page, free⟩
    have low : t.buddy.base ≤ d.hhdmOffset + p := late_above lawful h.limine h.stack above h.seedable lowest page free
    obtain ⟨_, hhdm, whole⟩ := managed'.window
    have place : d.hhdmOffset + p = node t.buddy.base ((d.hhdmOffset + p - t.buddy.base) / 4096) := by
      unfold node Abalone.pageSize
      omega
    exact ⟨_, (late_managed lawful h.limine h.stack managed' above place).mpr ⟨page, free⟩, place⟩

end LimineData
end CrustyOs.Kernel
