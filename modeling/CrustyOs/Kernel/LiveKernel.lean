import CrustyOs.Kernel.KernelRuns
import CrustyOs.Mantle.LiveTables

/-! The kernel at work on its own page tables: calls of the walker and calls of the allocators,
in any order, from the end of the boot on. -/
namespace CrustyOs.Kernel
open Lib Abalone Abalone.BuddyAllocator Mantle PageTableWalker Pml4

/-- The running kernel with the blocks that its tables and its stack have taken. -/
structure LiveKernel where
  cr3 : Nat
  allocators : AllocatorStack
  taken : List Allocation

inductive KernelOp where
  | allocators (op : AllocatorStack.Op)
  | tables (op : WalkerOp)

def RunningKernel.live (k : RunningKernel) (taken : List Allocation) : LiveKernel := ⟨k.cr3, k.owning taken, taken⟩

def LimineData.InWindow (d : LimineData) (v : Nat) : Prop :=
  d.hhdmOffset ≤ v ∧ v < d.hhdmOffset + hugePages d.physMemSize * huge2M

namespace LiveKernel

def machine (k : LiveKernel) : Machine (BuddyAllocator × List Nat) :=
  ⟨k.cr3, ⟨k.allocators.mem.word, []⟩, (k.allocators.buddy, []), []⟩

/-- The state after a call of the walker: the frames it was given stay with the tables. -/
def walked (k : LiveKernel) (t : Machine (BuddyAllocator × List Nat)) : LiveKernel :=
  let given := t.buddy.2.map fun virt => (⟨virt, 0⟩ : Allocation)
  ⟨t.cr3, { k.allocators with buddy := t.buddy.1, mem := t.mem, blocks := given ++ k.allocators.blocks },
    given ++ k.taken⟩

def walk (P : Paging) (d : LimineData) (k : LiveKernel) (op : WalkerOp) : Except Panic (WalkerOut × LiveKernel) := do
  let (out, t) ← op.exec P (recorded (buddyFrames 0)) ⟨d.hhdmOffset⟩ k.machine
  return (out, k.walked t)

def exec (P : Paging) (d : LimineData) (k : LiveKernel) : KernelOp → Except Panic LiveKernel
  | .allocators op => do
    let allocators ← AllocatorStack.exec k.allocators op
    return { k with allocators }
  | .tables op => do
    let (_, k) ← k.walk P d op
    return k

/-- The callers leave the tables and the stack alone, new regions are in the window, and nothing
is mapped there. -/
def Valid (P : Paging) (d : LimineData) (k : LiveKernel) : KernelOp → Prop
  | .allocators op => AllocatorStack.Sparing k.taken k.allocators op ∧ ∀ x ∈ op.registers k.allocators,
      k.allocators.buddy.base + (x + 1) * Mantle.pageSize ≤ d.hhdmOffset + d.physMemSize
  | .tables op => op.Outside P d.InWindow

end LiveKernel

namespace LimineData

variable {P : Paging} {d : LimineData} {k k' : LiveKernel} {T : Nat → Option Page} {op : WalkerOp}

/-- The invariant: sound allocators with their pages in the window, and tables in taken blocks
with the pages of `T`. -/
structure Live (P : Paging) (d : LimineData) (k : LiveKernel) (T : Nat → Option Page) : Prop where
  sound : AllocatorStack.Sound k.allocators
  once : k.taken.Nodup
  held : ∀ b ∈ k.taken, b ∈ k.allocators.blocks
  based : d.hhdmOffset ≤ k.allocators.buddy.base ∧ Mantle.pageSize ∣ k.allocators.buddy.base - d.hhdmOffset
  within : ∀ x ∈ k.allocators.pages,
    k.allocators.buddy.base + (x + 1) * Mantle.pageSize ≤ d.hhdmOffset + d.physMemSize
  tables : ∃ Held, Translates P ⟨d.hhdmOffset⟩ (fun _ _ _ => True) d.InWindow k.machine Held T ∧
    ∀ f, Held f → ∃ b ∈ k.taken, b.range.start ≤ f + d.hhdmOffset ∧
      f + d.hhdmOffset + Mantle.pageSize ≤ b.range.start + b.range.len

/-! The calls of the allocators. -/

theorem Live.allocated {op : AllocatorStack.Op} {s : AllocatorStack} (h : Live P d k T)
    (valid : LiveKernel.Valid P d k (.allocators op)) (done : AllocatorStack.exec k.allocators op = .ok s) :
    Live P d { k with allocators := s } T := by
  obtain ⟨sparing, inside⟩ := valid
  obtain ⟨held, stores⟩ := h.sound.step_spares h.held sparing done
  obtain ⟨base, pages, _⟩ := h.sound.stores_on_pages sparing.1 done
  obtain ⟨Held, tables, placed⟩ := h.tables
  refine ⟨h.sound.run (Reach.start.step sparing.1 done), h.once, held, base ▸ h.based, fun x hx => ?_, Held, ?_, placed⟩
  · dsimp only at hx ⊢
    rw [base]
    rw [pages] at hx
    exact (Finset.mem_union.mp hx).elim (h.within x) (inside x)
  · refine tables.kept rfl (fun f a hf ha => ?_) trivial
    apply stores.read_eq
    intro off
    obtain ⟨b, hb, low, high⟩ := placed f hf
    have out := off b hb
    unfold ByteRange.Off at out
    unfold InFrame at ha
    dsimp only at ha
    omega

/-! The calls of the walker. -/

def others (k : LiveKernel) : List Allocation :=
  k.allocators.blocks.diff k.taken ++ k.allocators.pool :: k.allocators.caches.flatMap Cache.slabs

theorem Live.split (h : Live P d k T) : (k.taken ++ others k).Perm k.allocators.allocations := by
  have parted : (k.taken ++ k.allocators.blocks.diff k.taken).Perm k.allocators.blocks :=
    List.subperm_append_diff_self_of_count_le fun b _ => (List.subperm_of_subset h.once h.held).count_le b
  unfold others AllocatorStack.allocations
  rw [← List.append_assoc]
  exact parted.append_right _

theorem Live.shared (h : Live P d k T) (small : d.physMemSize ≤ 2 ^ 52) (fits : d.hhdmOffset + d.physMemSize ≤ 2 ^ 64) :
    ∃ old Held, others k = old.map (Allocation.of k.allocators.buddy.base) ∧
      Translates P ⟨d.hhdmOffset⟩ (RecordedReady d.hhdmOffset d.physMemSize k.allocators.buddy.base k.allocators.pages old
        k.allocators.mem.word k.taken) d.InWindow k.machine Held T := by
  obtain ⟨lists, _, whole⟩ := h.sound.whole
  obtain ⟨all, sound⟩ := whole.perm h.split.symm
  have live : k.taken ++ others k = all.map (Allocation.of k.allocators.buddy.base) := sound.live
  obtain ⟨blocks, old, rfl, taken, rest⟩ := List.map_eq_append_iff.mp live.symm
  obtain ⟨Held, tables, placed⟩ := h.tables
  have shared : Shared d.hhdmOffset d.physMemSize k.allocators.buddy.base k.allocators.pages old k.allocators.mem.word
      (fun _ => False) k.allocators.buddy k.allocators.mem.word
      (BlockFrame d.hhdmOffset k.allocators.buddy.base blocks) lists blocks :=
    .of_sound sound h.based h.within small fits (fun _ none => none.elim) fun _ => Or.inr
  refine ⟨old, _, rest.symm, tables.held ⟨lists, blocks, shared, taken⟩ fun f frame hf => ?_⟩
  obtain ⟨b, hb, low, high⟩ := placed f hf
  rw [← taken] at hb
  obtain ⟨c, hc, rfl⟩ := List.mem_map.mp hb
  obtain ⟨start, stop⟩ := Allocation.range_of k.allocators.buddy.base c
  rw [start] at low
  rw [stop] at high
  -- the page of the frame, counted from the base
  obtain ⟨above, whole⟩ := h.based
  obtain ⟨i, base⟩ := whole
  obtain ⟨j, place⟩ := frame.aligned
  refine ⟨c, hc, j - i, ?_, ?_⟩
  · unfold Block.Has InBlock
    unfold Block.start at low
    unfold Block.stop at high
    unfold Abalone.pageSize Mantle.pageSize at *
    omega
  · unfold Block.start at low
    unfold node
    unfold Abalone.pageSize Mantle.pageSize at *
    omega

theorem inWindow_page (layout : Layout d) (u v : Nat) (same : u / Mantle.pageSize = v / Mantle.pageSize)
    (inside : d.InWindow u) : d.InWindow v := by
  obtain ⟨i, hhdm⟩ := layout.hhdm_aligned
  unfold InWindow at *
  unfold huge2M Mantle.pageSize at *
  omega

/-- A call of the walker keeps the invariant, with the pages that its account gives, and
changes no word of the others' blocks. -/
theorem Live.walked (h : Live P d k T) (x : X86 P) (layout : Layout d) (valid : op.Outside P d.InWindow) :
    ∃ out k' T', k.walk P d op = .ok (out, k') ∧ Effect d.InWindow T op out T' ∧ Live P d k' T' ∧
      SameOn (others k) k.allocators.mem k'.allocators.mem := by
  obtain ⟨small, fits⟩ := layout.fits
  obtain ⟨old, Held, rest, ready⟩ := h.shared small fits
  have low : ∀ x ∈ k.allocators.pages, x < Bitmap.capacity :=
    fun x hx => Nat.lt_of_lt_of_le (h.sound.roomy x hx).1 (by decide)
  obtain ⟨out, t, Held', T', run, cr3, effect, after⟩ := live_step x (recorded_supplies small fits)
    (recorded_returns low) (inWindow_page layout) ready valid
  obtain ⟨lists, blocks, shared, given⟩ := after.sound.ready
  obtain ⟨fresh, fresh_def⟩ : ∃ fresh, fresh = t.buddy.2.map fun virt => (⟨virt, 0⟩ : Allocation) := ⟨_, rfl⟩
  rw [← fresh_def] at given
  have same : SameOn (others k) k.allocators.mem t.mem := by
    rw [rest]
    exact sameOn_of_frames h.based.1 fun f a hf ha => shared.same f a hf ha
  have sound : BuddyAllocator.Sound ⟨t.buddy.1, t.mem, (fresh ++ k.taken) ++ others k, k.allocators.pages⟩ lists
      (blocks ++ old) := by
    rw [← given, rest, ← List.map_append]
    exact shared.sound rfl low
  have all : ((fresh ++ k.taken) ++ others k).Perm
      ((fresh ++ k.allocators.blocks) ++ k.allocators.pool :: k.allocators.caches.flatMap Cache.slabs) := by
    rw [List.append_assoc, List.append_assoc]
    exact h.split.append_left _
  obtain ⟨blocks', sound'⟩ := sound.perm all
  have next : k.walked t = ⟨t.cr3,
      { k.allocators with buddy := t.buddy.1, mem := t.mem, blocks := fresh ++ k.allocators.blocks }, fresh ++ k.taken⟩ := by
    rw [fresh_def]
    rfl
  refine ⟨out, k.walked t, T', bind_of_ok run _, effect, ?_, same⟩
  rw [next]
  have base : t.buddy.1.base = k.allocators.buddy.base := shared.from_base
  refine ⟨h.sound.adopt ⟨lists, blocks', sound'⟩ base (same.sub fun b hb => List.mem_append_right _ hb), ?_,
    fun b hb => ?_, base ▸ h.based, base ▸ h.within, Held', ?_, fun f hf => ?_⟩
  · exact (List.nodup_append.mp sound.live_nodup).1
  · exact List.mem_append.mpr ((List.mem_append.mp hb).imp_right (h.held b))
  · exact after.kept rfl (fun _ _ _ _ => rfl) trivial
  · have within := ((shared.placed f hf).resolve_left id).within
    rwa [given] at within

/-- The pages of an address space: what the processor's walk ends in, and what `translate` answers. -/
def Reads (P : Paging) (d : LimineData) (k : LiveKernel) (T : Nat → Option Page) : Prop :=
  ∀ v, Mantle.Canonical v →
    (lookup P d.hhdmOffset k.allocators.mem.word (pml4Phys k.machine) v).map (pageOf P v) = T v ∧
      PageTableWalker.translate P ⟨d.hhdmOffset⟩ k.machine v = .ok ((T v).map Page.phys)

theorem Live.reads (h : Live P d k T) (x : X86 P) : Reads P d k T := by
  intro v hv
  obtain ⟨Held, tables, _⟩ := h.tables
  exact ⟨tables.reads v hv, tables.translate x hv⟩

theorem Live.run (h : Live P d k T) (x : X86 P) (layout : Layout d)
    (run : Reach (LiveKernel.exec P d) (LiveKernel.Valid P d) k k') :
    ∃ T', Live P d k' T' ∧ ∀ v, d.InWindow v → T' v = T v := by
  induction run with
  | start => exact ⟨T, h, fun _ _ => rfl⟩
  | @step k₁ k₂ op run valid done ih =>
    obtain ⟨T₁, live, window⟩ := ih
    cases op with
    | allocators op =>
      obtain ⟨s, ran, rest⟩ := ok_of_bind done
      obtain rfl := Except.ok.inj rest
      exact ⟨T₁, live.allocated valid ran, window⟩
    | tables op =>
      obtain ⟨out, k', T', ran, effect, after, _⟩ := live.walked x layout valid
      obtain ⟨⟨out', k₃⟩, walked, rest⟩ := ok_of_bind done
      obtain rfl := Except.ok.inj rest
      obtain ⟨rfl, rfl⟩ := Prod.mk.inj (Except.ok.inj (ran.symm.trans walked))
      exact ⟨T', after, fun v inside => (effect.window (inWindow_page layout) valid inside).trans (window v inside)⟩

def windowPage (d : LimineData) (v : Nat) : Page := ⟨v - d.hhdmOffset, true, false, true, some .writeBack⟩

/-- What holds of the kernel at work: what is handed out is apart, the tables and the stack
are among it, the window is whole, no call of an allocator stores to them or changes a
page, and a call of the walker does what its account says and leaves the others' words. -/
structure AtWork (P : Paging) (d : LimineData) (k : LiveKernel) (T : Nat → Option Page) : Prop where
  safe : AllocatorStack.Safe k.allocators
  held : ∀ a ∈ k.taken, a ∈ k.allocators.blocks
  reads : Reads P d k T
  window : ∀ v, d.InWindow v → T v = some (windowPage d v)
  allocators : ∀ op, LiveKernel.Valid P d k (.allocators op) → AllocatorStack.exec k.allocators op = .error .addOverflow ∨
    ∃ s, AllocatorStack.exec k.allocators op = .ok s ∧ Memory.StoresIn (OffBlocks k.taken) k.allocators.mem s.mem ∧
      Reads P d { k with allocators := s } T
  tables : ∀ op, LiveKernel.Valid P d k (.tables op) → ∃ out k' T', k.walk P d op = .ok (out, k') ∧
    Effect d.InWindow T op out T' ∧ Reads P d k' T' ∧ SameOn (others k) k.allocators.mem k'.allocators.mem

theorem Live.atWork (h : Live P d k T) (x : X86 P) (layout : Layout d)
    (window : ∀ v, d.InWindow v → T v = some (windowPage d v)) : AtWork P d k T where
  safe := h.sound.safe
  held := h.held
  reads := h.reads x
  window := window
  allocators op valid := by
    cases h.sound.step valid.1.1 with
    | inl stop => exact Or.inl stop
    | inr returned =>
      obtain ⟨s, done, _, _⟩ := returned
      exact Or.inr ⟨s, done, (h.sound.step_spares h.held valid.1 done).2, (h.allocated valid done).reads x⟩
  tables op valid := by
    obtain ⟨out, k', T', ran, effect, after, same⟩ := h.walked x layout valid
    exact ⟨out, k', T', ran, effect, after.reads x, same⟩

section Boot

variable {A : AlignOps} {apic : Bool} {mainSp releaseSp cr3 : Nat} {m : Memory} {Limine : Nat → Prop}
  {processInit : AllocatorStack → Except Panic AllocatorStack} {b : RunningKernel} {taken : List Allocation}

theorem Booted.live (h : Booted A P d b taken) (x : X86 P) (layout : Layout d) :
    Live P d (b.live taken) (kernelPage d.hhdmOffset d.kernelVirtStart d.kernelVirtEnd d.kernelPhysStart d.physMemSize) := by
  obtain ⟨above, hhdm, whole⟩ := h.window
  obtain ⟨lists, blocks, sound⟩ := h.sound.whole
  have once : (b.owning taken).allocations.Nodup := sound.live_nodup
  unfold AllocatorStack.allocations RunningKernel.owning at once
  obtain ⟨⟨Held, tree, placed⟩, leaves⟩ := h.tables
  refine ⟨h.sound, (List.nodup_append.mp (List.nodup_append.mp once).1).1, fun a ha => List.mem_append_left _ ha,
    ⟨above, Nat.dvd_sub whole hhdm⟩, fun y hy => ?_, Held, ⟨⟨tree, trivial⟩, fun v hv => ?_, fun v hv inside => ?_,
      fun v hv outside e entry found => ?_⟩, placed⟩
  · obtain ⟨p, place⟩ : ∃ p, d.hhdmOffset + p = node b.allocators.buddy.base y :=
      ⟨_, Nat.add_sub_of_le (Nat.le_trans above (Nat.le_add_right _ _))⟩
    obtain ⟨_, free⟩ := (h.pages p).mp ⟨y, hy, place⟩
    obtain ⟨r, hr, stop⟩ : ∃ r ∈ d.regions, p + 4096 ≤ r.endAddr := by
      cases free with
      | inl usable =>
        obtain ⟨⟨r, hr, _, _, stop⟩, _⟩ := usable
        exact ⟨r, hr, stop⟩
      | inr reclaimed =>
        obtain ⟨r, late, _, stop⟩ := reclaimed
        exact ⟨r, late.mem, stop⟩
    have top := endAddr_le_physMemSize hr
    show b.allocators.buddy.base + (y + 1) * Mantle.pageSize ≤ _
    unfold node Abalone.pageSize at place
    unfold Mantle.pageSize
    omega
  · rw [← kernelLeaf_page x layout.placement]
    exact congrArg _ (leaves v hv)
  · have huge : hhdmLeaf P d.hhdmOffset (hugePages d.physMemSize) v = some (2, pde P ((v - d.hhdmOffset) / huge2M)) :=
      if_pos inside
    refine ⟨2, pde P ((v - d.hhdmOffset) / huge2M), (leaves v hv).trans ?_, by decide⟩
    rw [kernelLeaf, huge, Option.some_or]
  · have none : hhdmLeaf P d.hhdmOffset (hugePages d.physMemSize) v = none := if_neg outside
    have found := (leaves v hv).symm.trans found
    rw [kernelLeaf, none, Option.none_or, rangeLeaf] at found
    split at found
    · exact (Prod.mk.inj (Option.some.inj found)).1.symm
    · cases found

theorem kernelPage_window {v : Nat} (inside : d.InWindow v) :
    kernelPage d.hhdmOffset d.kernelVirtStart d.kernelVirtEnd d.kernelPhysStart d.physMemSize v =
      some (windowPage d v) := by
  unfold InWindow at inside
  rw [kernelPage, kernelTranslate, if_pos inside, Option.map_some, if_pos inside]
  rfl

/-- From the end of the boot on, calls of the walker and calls of the allocators in any order
keep what is handed out apart, the tables and the stack out of it, and the HHDM window whole,
write-back and never executable. -/
theorem address_space_in_every_run (lawful : A.Lawful) (x : X86 P)
    (h : Bootable A P d apic mainSp releaseSp cr3 m Limine) (process : UsesAllocators processInit)
    (boot : kernelMain A P d apic mainSp releaseSp processInit cr3 m = .ok b) :
    ∃ taken, (⟨b.kstack.guardVirt, 4⟩ : Allocation) ∈ taken ∧
      AtWork P d (b.live taken) (kernelPage d.hhdmOffset d.kernelVirtStart d.kernelVirtEnd d.kernelPhysStart
        d.physMemSize) ∧
      ∀ k, Reach (LiveKernel.exec P d) (LiveKernel.Valid P d) (b.live taken) k → ∃ T, AtWork P d k T := by
  obtain ⟨taken, booted⟩ := boot_spec lawful x h process boot
  have start := booted.live x h.layout
  refine ⟨taken, booted.stack.1, start.atWork x h.layout fun v inside => kernelPage_window inside, fun k run => ?_⟩
  obtain ⟨T, live, window⟩ := start.run x h.layout run
  exact ⟨T, live.atWork x h.layout fun v inside => (window v inside).trans (kernelPage_window inside)⟩

end Boot

theorem address_space_in_every_run_sample : ∃ b, bootRun = .ok b ∧
    ∃ taken, (⟨b.kstack.guardVirt, 4⟩ : Allocation) ∈ taken ∧
      AtWork amd64 bootMap (b.live taken) (kernelPage bootMap.hhdmOffset bootMap.kernelVirtStart
        bootMap.kernelVirtEnd bootMap.kernelPhysStart bootMap.physMemSize) ∧
      ∀ k, Reach (LiveKernel.exec amd64 bootMap) (LiveKernel.Valid amd64 bootMap) (b.live taken) k →
        ∃ T, AtWork amd64 bootMap k T := by
  obtain ⟨b, boot⟩ := bootRun_ok
  exact ⟨b, boot, address_space_in_every_run AlignOps.exact_lawful amd64_x86 bootMap_bootable oneCache_uses boot⟩

end LimineData
end CrustyOs.Kernel
