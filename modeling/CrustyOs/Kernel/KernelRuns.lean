import CrustyOs.Kernel.KernelMain

/-! The running kernel, whatever its allocators do next: every page of usable or reclaimed memory
is free or held, once. -/
namespace CrustyOs.Kernel.LimineData
open Lib Abalone Abalone.BuddyAllocator Mantle Pml4

variable {A : AlignOps} {P : Paging} {d : LimineData} {apic : Bool} {mainSp releaseSp cr3 : Nat} {m : Memory}
  {Limine : Nat → Prop} {processInit : AllocatorStack → Except Panic AllocatorStack} {k : RunningKernel}

/-! The pages of a sound stack. -/

def outCount (out : List Allocation) (a : Nat) : Nat :=
  out.countP fun b => decide (b.range.start ≤ a ∧ a < b.range.start + b.range.len)

theorem outCount_node (base x : Nat) (blocks : List Block) :
    outCount (blocks.map (Allocation.of base)) (node base x) = heldCover blocks x := by
  induction blocks with
  | nil => rfl
  | cons c blocks ih =>
    have hit : ((Allocation.of base c).range.start ≤ node base x ∧
        node base x < (Allocation.of base c).range.start + (Allocation.of base c).range.len) ↔
        InBlock c.order c.page x := by
      unfold Allocation.of Allocation.range Block.start node InBlock Abalone.pageSize
      dsimp only
      generalize 2 ^ c.order = n
      omega
    unfold outCount at ih ⊢
    rw [List.map_cons, List.countP_cons, ih, heldCover_cons, Nat.add_comm]
    congr 1
    simp only [hit, decide_eq_true_eq]
    rfl

theorem outCount_below {out : List Allocation} {base a : Nat} (above : ∀ b ∈ out, base ≤ b.ptr) (below : a < base) :
    outCount out a = 0 := by
  apply List.countP_eq_zero.mpr
  intro b hb
  have start := above b hb
  unfold Allocation.range
  simp only [decide_eq_true_eq]
  omega

theorem counted {s : AllocatorStack} (sound : AllocatorStack.Sound s) :
    ∃ nodes : Nat → List Nat, (∀ o < buddyMaxOrder, Linked (nextOf s.mem) (prevOf s.mem) (s.buddy.freeLists o) (nodes o)) ∧
      (∀ x, freeCount nodes (node s.buddy.base x) + outCount s.allocations (node s.buddy.base x) =
        if x ∈ s.pages then 1 else 0) ∧
      ∀ a < s.buddy.base, freeCount nodes a + outCount s.allocations a = 0 := by
  obtain ⟨lists, blocks, whole⟩ := sound.whole
  have live : s.allocations = blocks.map (Allocation.of s.buddy.base) := whole.live
  refine ⟨fun o => (lists o).map (node s.buddy.base), whole.inv.linked, fun x => ?_, fun a below => ?_⟩
  · rw [live, freeCount_node, outCount_node]
    exact whole.inv.exact x
  · rw [freeCount_below below, live, outCount_below _ below]
    intro b hb
    obtain ⟨c, _, rfl⟩ := List.mem_map.mp hb
    exact Nat.le_add_right _ _

/-! A boot. -/

theorem tables_end : 0x1000 + 0x4000 < 2 ^ 64 := by decide

/-- 16 MiB of usable memory around the kernel, Limine's tables below 1 MiB, its stack above the
usable memory, and a small framebuffer. -/
def bootMap : LimineData where
  hhdmOffset := 0xFFFF800000000000
  kernelPhysStart := 0x200000
  kernelPhysEnd := 0x201000
  kernelVirtStart := 0xFFFFFFFF80000000
  kernelVirtEnd := 0xFFFFFFFF80001000
  regions := [⟨0x1000, 0x4000, .bootloaderReclaimable, tables_end, MemoryRegion.rounds_page⟩,
    ⟨0x100000, 0x1000000, .usable, by decide, MemoryRegion.rounds_megabyte⟩,
    ⟨0x1100000, 0x10000, .bootloaderReclaimable, by decide, by decide⟩,
    ⟨0x1110000, 0x4000, .acpiReclaimable, by decide, by decide⟩,
    ⟨0x1200000, 0x10000, .framebuffer, by decide, by decide⟩]
  framebuffer := some ⟨0xFFFF800001200000, 0x1200000, 0x3000⟩
  image := framebufferMap.image
  rounds := framebufferMap.rounds

def bootSp : Nat := 0xFFFF800001108000

def oneCache (s : AllocatorStack) : Except Panic AllocatorStack := AllocatorStack.exec s (.newCache Slab.wide 0)

def bootRun : Except Panic RunningKernel :=
  kernelMain AlignOps.exact amd64 bootMap true bootSp bootSp oneCache 0x1000 Memory.blank

theorem bootRun_ok : ∃ k, bootRun = .ok k := by
  have returns : bootRun.toOption.isSome = true := by decide +kernel
  cases run : bootRun with
  | error e =>
    rw [run] at returns
    cases returns
  | ok k => exact ⟨k, rfl⟩

theorem oneCache_uses : UsesAllocators oneCache := by
  intro s s' done
  refine Reach.start.step ⟨?_, rfl⟩ done
  exact ⟨by decide, by decide, by decide, by decide⟩

theorem bootMap_fromLimine : FromLimine bootMap where
  apart := by
    have sorted : bootMap.regions.Pairwise fun r r' => r.endAddr ≤ r'.base := by decide
    exact sorted.imp MemoryRegion.apart_of_le
  aligned := by decide
  image := by
    have beside : ∀ r ∈ bootMap.reclaimableRegions,
        r.endAddr ≤ bootMap.kernelPhysStart ∨ bootMap.kernelPhysEnd ≤ r.base := by decide
    intro r hr a holds inside
    have side := beside r hr
    unfold MemoryRegion.Holds at holds
    omega

theorem bootMap_handover : Handover amd64 bootMap true 0x1000 Memory.blank fun f => f = 0x1000 := by
  have root : 0x1000 &&& wordNot 64 0xFFF = 0x1000 := by decide
  have frame : Frame bootMap.hhdmOffset 0x1000 := ⟨by decide, by decide, by decide⟩
  have zero : ∀ i < 512, Memory.blank.word (0x1000 + bootMap.hhdmOffset + 8 * i) = 0 := fun _ _ => rfl
  obtain ⟨tree, _, finds⟩ := PageTree.empty amd64_x86 frame (fun f => f = 0x1000) rfl zero
  refine ⟨root.symm ▸ tree, ?_, fun v p _ depth e found => ?_⟩
  · rintro f rfl
    exact ⟨frame, by decide⟩
  · rw [root] at found
    cases (finds _ (path_path v)).symm.trans found

theorem bootMap_bootable : Bootable AlignOps.exact amd64 bootMap true bootSp bootSp 0x1000 Memory.blank
    fun f => f = 0x1000 where
  limine := bootMap_fromLimine
  seedable := ⟨bootMap_fromLimine.apart, ⟨_, List.mem_cons_of_mem _ (List.mem_cons_self ..), rfl⟩, by decide, by decide,
    by decide⟩
  near r late := by
    have near : ∀ r ∈ bootMap.regions, ∀ u ∈ bootMap.regions, u.regionType = .usable →
        r.alignedEnd AlignOps.exact ≤ u.alignedBase AlignOps.exact + 2 ^ buddyMaxOrder * 4096 := by decide
    exact near r late.mem
  layout := .common rfl rfl rfl (by decide) (by decide) (by decide)
  listed fb found := by
    obtain rfl := Option.some.inj found
    have last : bootMap.regions[4]? = some ⟨0x1200000, 0x10000, .framebuffer, by decide, by decide⟩ := rfl
    exact ⟨rfl, _, List.mem_of_getElem? last, by decide, by decide⟩
  stack := ⟨by decide, by decide, fun _ _ => Iff.rfl⟩
  handover := bootMap_handover

end CrustyOs.Kernel.LimineData
