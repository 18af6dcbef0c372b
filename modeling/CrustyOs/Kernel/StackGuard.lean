import CrustyOs.Kernel.AddressSpace
import CrustyOs.Kernel.BootSpec
import CrustyOs.Kernel.MmioSwitch
import CrustyOs.Mantle.BuddyFrames
import CrustyOs.Mantle.TableChain

/-! The kernel stack's guard page across the switch to the kernel's own tables. -/
namespace CrustyOs.Kernel
open Lib Abalone Abalone.BuddyAllocator Mantle PageTableWalker Pml4

variable {P : Paging} {A : AlignOps} {d : LimineData} {w : PageTableWalker} {base limit minPages v : Nat}
  {b : BuddyAllocator} {m : Memory} {sys : System} {k : KernelStack} {Held : Nat → Prop}
  {s s₁ s₂ : Machine BuddyAllocator}

namespace LimineData

/-- What runs between `heap::init` and the allocation of the stack: regions come from `heap::init`. -/
def Booting (A : AlignOps) (d : LimineData) (s : System) (op : Op) : Prop :=
  Valid s op ∧ ∀ virtBase n, op = .addRegion virtBase n → (virtBase, n) ∈ initCalls A d

theorem initCalls_below (lawful : A.Lawful) {virtBase n : Nat} (h : (virtBase, n) ∈ initCalls A d)
    (some : 0 < n) : virtBase + n * 4096 ≤ d.hhdmOffset + d.physMemSize := by
  obtain ⟨r, hr, hc⟩ := List.mem_flatMap.mp h
  obtain ⟨_, lo, hi, call⟩ := (punchOut_spec lawful d r).1 _ hc
  have within : hi ≤ r.endAddr := by
    have aligned := call.inside.2
    rw [MemoryRegion.alignedEnd_eq lawful] at aligned
    omega
  have top := endAddr_le_physMemSize hr
  obtain ⟨rfl, rfl⟩ := Prod.mk.inj call.call
  omega

theorem booting_pages (lawful : A.Lawful) (set : BuddyAllocator.new.setBase base = .ok b)
    (run : Reach exec (Booting A d) (booted b m) sys) :
    ∀ x ∈ sys.pages, base + (x + 1) * 4096 ≤ d.hhdmOffset + d.physMemSize := by
  induction run with
  | start => exact fun x hx => absurd hx (Finset.notMem_empty x)
  | @step s s' op run valid done ih =>
    obtain ⟨same, lists, blocks, sound⟩ := run_sound set (run.mono fun _ _ valid => valid.1)
    obtain ⟨_, _, _, effect⟩ := step_kept sound valid.1 done
    intro x hx
    rw [effect.pages] at hx
    cases Finset.mem_union.mp hx with
    | inl old => exact ih x old
    | inr new =>
      cases op with
      | addRegion virtBase n =>
        obtain ⟨low, high⟩ := Finset.mem_Ico.mp new
        have below := initCalls_below lawful (valid.2 virtBase n rfl) (by omega)
        have above := valid.1.2.1
        rw [same] at low high above
        unfold Abalone.pageSize at low high
        omega
      | allocPages order => exact absurd new (Finset.notMem_empty x)
      | deallocPages ptr order => exact absurd new (Finset.notMem_empty x)
      | store addr value => exact absurd new (Finset.notMem_empty x)

theorem boot_ready (lawful : A.Lawful) (lowest : minVirt A d = some base)
    (set : BuddyAllocator.new.setBase base = .ok b)
    (run : Reach exec (Booting A d) (booted b m) sys)
    (outside : ∀ f, Held f → Frame d.hhdmOffset f ∧ ∀ x ∈ sys.pages, node base x ≠ f + d.hhdmOffset) :
    BuddyReady d.hhdmOffset d.physMemSize sys.buddy sys.mem.word Held := by
  obtain ⟨same, lists, blocks, sound⟩ := run_sound set (run.mono fun _ _ valid => valid.1)
  have within := booting_pages lawful set run
  obtain ⟨r, _, e⟩ := List.mem_map.mp (List.min?_eq_some_iff.mp lowest).1
  have inv := sound.inv
  refine ⟨lists, blocks, sys.pages, ⟨⟨inv.linked, inv.parity, inv.listed_aligned, inv.held_aligned,
    inv.exact, inv.listed_range, inv.based⟩, sound.accounts, ?_, fun x hx => same ▸ within x hx,
    fun f hf => ⟨(outside f hf).1, fun x hx e => absurd (same ▸ e) ((outside f hf).2 x hx)⟩⟩⟩
  rw [same, ← e, Nat.add_sub_cancel_left]
  exact ⟨Nat.le_add_right _ _, (r.aligned_dvd lawful).1⟩

end LimineData

theorem allocKernelStack_spec (x : X86 P) (small : limit ≤ 2 ^ 52) (fits : w.hhdm + limit ≤ 2 ^ 64)
    (sound : Sound P w.hhdm (BuddyReady w.hhdm limit) (pml4Phys s) s Held)
    (run : allocKernelStack P buddyFrames w minPages s = .ok (k, s₁)) :
    (∃ Held₁, BuddyReady w.hhdm limit s₁.buddy s₁.mem.word Held₁) ∧
      w.hhdm ≤ k.guardVirt ∧ k.guardVirt < k.top ∧ k.top ≤ w.hhdm + limit := by
  obtain ⟨lists, blocks, pages, stocked⟩ := sound.ready
  obtain ⟨count, _, run⟩ := ok_of_bind run
  obtain ⟨order, order_eq⟩ : ∃ order, order = count.nextPowerOfTwo.log2 := ⟨_, rfl⟩
  simp only [← order_eq] at run
  obtain ⟨⟨found, b', word'⟩, answer, run⟩ := ok_of_bind run
  rcases stocked.alloc small fits answer with
    ⟨rfl, _⟩ | ⟨p, lists', rfl, base, member, keeps, _, stocked'⟩
  · cases run
  obtain ⟨s₂, punched, run⟩ := ok_of_bind run
  obtain ⟨top, top_eq, run⟩ := ok_of_bind run
  obtain ⟨rfl, rfl⟩ := Prod.mk.inj (Except.ok.inj run)
  refine ⟨?_, ?_⟩
  · -- the old tables survive the request, so `unmap` walks them
    have pages : PageTree P w.hhdm word' (pml4Phys s) Held := (sound.pages.kept keeps).1
    have sound' : Sound P w.hhdm (BuddyReady w.hhdm limit) (pml4Phys s)
        { s with buddy := b', mem := ⟨word', s.mem.stores⟩ } _ :=
      ⟨pages.mono fun f hf => Or.inl hf, _, _, _, stocked'⟩
    rcases unmap_spec (s := { s with buddy := b', mem := ⟨word', s.mem.stores⟩ }) x
      (buddy_supplies small fits) sound' (node s.buddy.base p) with
      ⟨same, _⟩ | ⟨s₃, cleared, stored⟩
    · obtain rfl := Except.ok.inj (punched.symm.trans same)
      exact ⟨_, sound'.ready⟩
    · obtain rfl := Except.ok.inj (punched.symm.trans cleared)
      exact ⟨_, stored.sound.ready⟩
  · have positive := Nat.two_pow_pos order
    have last := stocked.within (p + 2 ^ order - 1) (member _ ⟨by omega, by omega⟩)
    have above := stocked.based.1
    have up : p + 2 ^ order - 1 + 1 = p + 2 ^ order := by omega
    rw [up, Nat.add_mul] at last
    rw [checkedAdd_eq top_eq, Nat.one_shiftLeft]
    unfold node Abalone.pageSize
    unfold Mantle.pageSize at last
    dsimp only
    omega

namespace LimineData

/-- What the guard page is for: nothing is mapped below the stack, and the stack is. -/
def GuardSurvives (P : Paging) (d : LimineData) (k : KernelStack) (s : Machine BuddyAllocator) : Prop :=
  PageTableWalker.translate P ⟨d.hhdmOffset⟩ s k.guardVirt = .ok none ∧
    ∀ v, k.guardVirt + 0x1000 ≤ v → v < k.top →
      PageTableWalker.translate P ⟨d.hhdmOffset⟩ s v = .ok (some (v - d.hhdmOffset))

section Switch

variable (x : X86 P) (layout : Layout d)
  (sound : Sound P d.hhdmOffset (BuddyReady d.hhdmOffset d.physMemSize) (pml4Phys s) s Held)
  (stack : allocKernelStack P buddyFrames ⟨d.hhdmOffset⟩ minPages s = .ok (k, s₁))
  (install : d.installKernelPml4 P (buddyFrames 0) s₁ = .ok s₂)

include x layout sound stack

theorem stack_window : d.physMemSize ≤ 2 ^ 52 ∧ d.hhdmOffset + d.physMemSize ≤ 2 ^ 64 ∧
    (∃ Held₁, BuddyReady d.hhdmOffset d.physMemSize s₁.buddy s₁.mem.word Held₁) ∧
    d.hhdmOffset ≤ k.guardVirt ∧ k.guardVirt < k.top ∧ k.top ≤ d.hhdmOffset + d.physMemSize := by
  have room := physMemSize_le_window d
  have size := window_small layout.placement.window
  have fits : d.hhdmOffset + d.physMemSize ≤ 2 ^ 64 := by
    have last := layout.window (d.hhdmOffset + d.windowSize - 1)
    unfold windowSize Mantle.Canonical at last
    omega
  have small : d.physMemSize ≤ 2 ^ 52 := by omega
  exact ⟨small, fits, allocKernelStack_spec (w := ⟨d.hhdmOffset⟩) x small fits sound stack⟩

include install

/-- The kernel's tables map the whole stack allocation, its guard page with it. -/
theorem stack_mapped (above : k.guardVirt ≤ v) (below : v < k.top) :
    PageTableWalker.translate P ⟨d.hhdmOffset⟩ s₂ v = .ok (some (v - d.hhdmOffset)) := by
  have room := physMemSize_le_window d
  obtain ⟨small, fits, ⟨Held₁, ready⟩, low, _, high⟩ := stack_window x layout sound stack
  have installed := Installed.of_run x (buddy_supplies small fits) layout.placement ready install
  have canonical : Mantle.Canonical v := layout.placement.window v (by omega) (by omega)
  rw [installed.translate x layout.placement canonical, kernelTranslate, if_pos ⟨by omega, by omega⟩]

/-- No boot keeps the guard page: its entry is cleared in the tables that the switch drops. -/
theorem guard_never_survives : ¬ GuardSurvives P d k s₂ ∧
    ∀ v, k.guardVirt ≤ v → v < k.top →
      PageTableWalker.translate P ⟨d.hhdmOffset⟩ s₂ v = .ok (some (v - d.hhdmOffset)) := by
  refine ⟨fun survives => ?_, fun v => stack_mapped x layout sound stack install⟩
  have guard := stack_mapped x layout sound stack install (Nat.le_refl _)
    (stack_window x layout sound stack).2.2.2.2.1
  rw [survives.1] at guard
  cases guard

end Switch

/-- 128 KiB of usable memory, and tables that map two MiB of HHDM with small pages. -/
def smallPagesMap : LimineData where
  hhdmOffset := 0xFFFF800000000000
  kernelPhysStart := 0x10000
  kernelPhysEnd := 0x11000
  kernelVirtStart := 0xFFFFFFFF80000000
  kernelVirtEnd := 0xFFFFFFFF80001000
  regions := [⟨0x1000, 0x4000, .bootloaderReclaimable, by decide, MemoryRegion.rounds_page⟩,
    ⟨0x10000, 0x1000, .executableAndModules, by decide, by decide⟩,
    ⟨0x100000, 0x20000, .usable, by decide, MemoryRegion.rounds_megabyte⟩]
  framebuffer := none
  image := by decide
  rounds := by decide

def smallPagesTables (a : Nat) : Nat :=
  if a = 0xFFFF800000001000 + 8 * 256 then 0x2003
  else if a = 0xFFFF800000002000 then 0x3003
  else if a = 0xFFFF800000003000 then 0x4003
  else if 0xFFFF800000004000 ≤ a ∧ a < 0xFFFF800000005000 then
    (a - 0xFFFF800000004000) / 8 * 0x1000 ||| 3
  else 0

def smallPagesBase : Nat := 0xFFFF800000100000

def smallPagesBoot : Except Panic System :=
  exec (booted { new with base := smallPagesBase } ⟨smallPagesTables, []⟩) (.addRegion smallPagesBase 32)

def smallPagesMachine (sys : System) : Machine BuddyAllocator := ⟨0x1000, ⟨sys.mem.word, []⟩, sys.buddy, []⟩

/-- The frames of the tables: they are reclaimable, so the allocator has none of them yet. -/
def smallPagesHeld (f : Nat) : Prop := f ∈ [0x1000, 0x2000, 0x3000, 0x4000]

def smallPagesRun : Except Panic (System × KernelStack × Machine BuddyAllocator ×
    Machine BuddyAllocator) := do
  let sys ← smallPagesBoot
  let (k, s₁) ← allocKernelStack amd64 buddyFrames ⟨smallPagesMap.hhdmOffset⟩ 1 (smallPagesMachine sys)
  let s₂ ← smallPagesMap.installKernelPml4 amd64 (buddyFrames 0) s₁
  return (sys, k, s₁, s₂)

theorem smallPagesRun_ok : ∃ sys k s₁ s₂, smallPagesBoot = .ok sys ∧
    allocKernelStack amd64 buddyFrames ⟨smallPagesMap.hhdmOffset⟩ 1 (smallPagesMachine sys) = .ok (k, s₁) ∧
    smallPagesMap.installKernelPml4 amd64 (buddyFrames 0) s₁ = .ok s₂ ∧
    PageTableWalker.translate amd64 ⟨smallPagesMap.hhdmOffset⟩ s₁ k.guardVirt = .ok none := by
  have returns : (smallPagesRun.toOption.map fun r => (PageTableWalker.translate amd64
      ⟨smallPagesMap.hhdmOffset⟩ r.2.2.1 r.2.1.guardVirt).toOption) = some (some none) := by
    decide +kernel
  cases run : smallPagesRun with
  | error e =>
    rw [run] at returns
    cases returns
  | ok r =>
    obtain ⟨sys, boot, rest⟩ := ok_of_bind run
    obtain ⟨⟨k, s₁⟩, stack, rest⟩ := ok_of_bind rest
    obtain ⟨s₂, install, rest⟩ := ok_of_bind rest
    obtain rfl := Except.ok.inj rest
    rw [run] at returns
    have cleared := Option.some.inj returns
    refine ⟨sys, k, s₁, s₂, boot, stack, install, ?_⟩
    cases read : PageTableWalker.translate amd64 ⟨smallPagesMap.hhdmOffset⟩ s₁ k.guardVirt with
    | error e =>
      simp only [read] at cleared
      cases cleared
    | ok answer =>
      simp only [read] at cleared
      exact congrArg Except.ok (Option.some.inj cleared)

theorem smallPages_root : pml4Phys (smallPagesMachine sys) = 0x1000 := by
  have masked : 0x1000 &&& wordNot 64 0xFFF = 0x1000 := by decide
  exact masked

section Boot

variable (boot : smallPagesBoot = .ok sys)

include boot

theorem smallPages_word {a : Nat} (low : a < smallPagesBase) : sys.mem.word a = smallPagesTables a := by
  have mem : smallPagesBoot = .ok ⟨_, ((Memory.mk smallPagesTables []).write smallPagesBase 0).write
      (smallPagesBase + 8) 0, _, _⟩ := rfl
  obtain rfl := Except.ok.inj (boot.symm.trans mem)
  have first : ¬ a = smallPagesBase := by omega
  have second : ¬ a = smallPagesBase + 8 := by omega
  simp only [Memory.write, if_neg first, if_neg second]

theorem smallPages_chain : Chain amd64 0xFFFF800000000000 sys.mem.word smallPagesHeld
    (fun k => 0x1000 * (k + 1)) (fun k => if k = 0 then 256 else 0) where
  frame k hk := by
    match k, hk with
    | 0, _ | 1, _ | 2, _ | 3, _ => exact ⟨⟨by decide, by decide, by decide⟩, by simp [smallPagesHeld]⟩
  distinct j _ k _ same := by omega
  down k hk i hi := by
    have value : sys.mem.word (0x1000 * (k + 1) + 0xFFFF800000000000 + 8 * i) =
        if i = (if k = 0 then 256 else 0) then 0x1000 * (k + 2) + 3 else 0 := by
      rw [smallPages_word boot (by unfold smallPagesBase; omega)]
      unfold smallPagesTables
      match k, hk with
      | 0, _ | 1, _ | 2, _ => split_ifs <;> omega
    rw [value]
    by_cases here : i = (if k = 0 then 256 else 0)
    · rw [if_pos here, if_pos here]
      match k, hk with
      | 0, _ | 1, _ | 2, _ => decide
    · rw [if_neg here, if_neg here]
      exact slot_absent (by decide)

theorem smallPages_sound : Mantle.Sound amd64 smallPagesMap.hhdmOffset
    (BuddyReady smallPagesMap.hhdmOffset smallPagesMap.physMemSize) (pml4Phys (smallPagesMachine sys))
    (smallPagesMachine sys) smallPagesHeld := by
  rw [smallPages_root]
  have set : BuddyAllocator.new.setBase smallPagesBase = .ok { new with base := smallPagesBase } := rfl
  have valid : Booting AlignOps.exact smallPagesMap (booted { new with base := smallPagesBase }
      ⟨smallPagesTables, []⟩) (.addRegion smallPagesBase 32) := by
    refine ⟨⟨by decide, by decide, by decide, fun _ _ => Finset.notMem_empty _⟩, fun virtBase n e => ?_⟩
    obtain ⟨rfl, rfl⟩ := Op.addRegion.inj e
    decide
  refine ⟨(smallPages_chain boot).pages, boot_ready AlignOps.exact_lawful (by decide) set
    (.step .start valid boot) fun f hf => ?_⟩
  have known : f = 0x1000 ∨ f = 0x2000 ∨ f = 0x3000 ∨ f = 0x4000 := by simpa [smallPagesHeld] using hf
  refine ⟨?_, fun x _ e => ?_⟩
  · rcases known with rfl | rfl | rfl | rfl <;> exact ⟨by decide, by decide, by decide⟩
  · have above : smallPagesMap.hhdmOffset = 0xFFFF800000000000 := rfl
    rw [above] at e
    unfold node smallPagesBase Abalone.pageSize at e
    omega

theorem smallPages_cover {i : Nat} (hi : i < 0x200000) :
    PageTableWalker.translate amd64 ⟨smallPagesMap.hhdmOffset⟩ (smallPagesMachine sys)
      (0xFFFF800000000000 + i) = .ok (some i) := by
  have pages : PageTree amd64 0xFFFF800000000000 sys.mem.word (pml4Phys (smallPagesMachine sys))
      smallPagesHeld := by
    rw [smallPages_root]
    exact (smallPages_chain boot).pages
  have read := translate_eq (s := smallPagesMachine sys) amd64_x86 ⟨smallPagesMap.hhdmOffset⟩ pages
    (0xFFFF800000000000 + i)
  have along : (path (0xFFFF800000000000 + i)).take 3 = [256, 0, 0] := by
    simp only [path, List.take, List.cons.injEq, and_true]
    omega
  have found := (smallPages_chain boot).lookup_eq along
  have index : (0xFFFF800000000000 + i) / 2 ^ 12 % 512 = i / 0x1000 := by omega
  have entry : sys.mem.word (0x1000 * (3 + 1) + 0xFFFF800000000000 + 8 * (i / 0x1000)) =
      i / 0x1000 * 0x1000 ||| 3 := by
    rw [smallPages_word boot (by unfold smallPagesBase; omega)]
    unfold smallPagesTables
    split_ifs
    · omega
    · omega
    · omega
    · have offset : (0x1000 * (3 + 1) + 0xFFFF800000000000 + 8 * (i / 0x1000) - 0xFFFF800000004000) / 8 =
          i / 0x1000 := by omega
      rw [offset]
    · omega
  rw [index, entry] at found
  have phys : addressBits (i / 0x1000 * 0x1000 ||| 3) Mantle.pageSize = i / 0x1000 * 0x1000 := by
    have own : addressBits (i / 0x1000 * 0x1000) Mantle.pageSize = i / 0x1000 * 0x1000 :=
      addressBits_of_dvd (Nat.dvd_mul_left _ _) (by omega)
    have outside : FlagBits 3 := by
      unfold FlagBits
      decide
    have flags := addressBits_or (Or.inl rfl) outside (i / 0x1000 * 0x1000)
    rwa [own] at flags
  have present : amd64.pteIsPresent (i / 0x1000 * 0x1000 ||| 3) = true := by
    show (i / 0x1000 * 0x1000 ||| 3).testBit 0 = true
    rw [Nat.testBit_or]
    simp
  rw [if_pos present] at found
  have leaf : lookup amd64 smallPagesMap.hhdmOffset (smallPagesMachine sys).mem.word
      (pml4Phys (smallPagesMachine sys)) (0xFFFF800000000000 + i) = some (3, i / 0x1000 * 0x1000 ||| 3) := by
    rw [smallPages_root]
    exact found
  have sum : addressBits (i / 0x1000 * 0x1000 ||| 3) Mantle.pageSize +
      (0xFFFF800000000000 + i) % Mantle.pageSize = i := by
    rw [phys]
    unfold Mantle.pageSize
    omega
  rw [leaf] at read
  exact read.trans (congrArg (fun p => Except.ok (some p)) sum)

end Boot

theorem smallPagesMap_layout : Layout smallPagesMap :=
  .common rfl rfl rfl (by decide) (by decide) (by decide)

/-- Tables that cover the window, a guard page cleared in them, and mapped again by the
kernel's own. -/
theorem guard_page_mapped_again : ∃ sys k s₁ s₂, smallPagesBoot = .ok sys ∧
    (∀ i < 0x200000, PageTableWalker.translate amd64 ⟨smallPagesMap.hhdmOffset⟩ (smallPagesMachine sys)
      (0xFFFF800000000000 + i) = .ok (some i)) ∧
    allocKernelStack amd64 buddyFrames ⟨smallPagesMap.hhdmOffset⟩ 1 (smallPagesMachine sys) = .ok (k, s₁) ∧
    PageTableWalker.translate amd64 ⟨smallPagesMap.hhdmOffset⟩ s₁ k.guardVirt = .ok none ∧
    smallPagesMap.installKernelPml4 amd64 (buddyFrames 0) s₁ = .ok s₂ ∧
    ¬ GuardSurvives amd64 smallPagesMap k s₂ := by
  obtain ⟨sys, k, s₁, s₂, boot, stack, install, cleared⟩ := smallPagesRun_ok
  refine ⟨sys, k, s₁, s₂, boot, fun i hi => smallPages_cover boot hi, stack, cleared, install, ?_⟩
  intro survives
  have guard := stack_mapped amd64_x86 smallPagesMap_layout (smallPages_sound boot) stack install
    (Nat.le_refl _) (stack_window amd64_x86 smallPagesMap_layout (smallPages_sound boot) stack).2.2.2.2.1
  rw [survives.1] at guard
  cases guard

theorem guard_never_survives_small : ∃ sys k s₁ s₂, smallPagesBoot = .ok sys ∧
    allocKernelStack amd64 buddyFrames ⟨smallPagesMap.hhdmOffset⟩ 1 (smallPagesMachine sys) = .ok (k, s₁) ∧
    smallPagesMap.installKernelPml4 amd64 (buddyFrames 0) s₁ = .ok s₂ ∧
    ¬ GuardSurvives amd64 smallPagesMap k s₂ ∧ ∀ v, k.guardVirt ≤ v → v < k.top →
      PageTableWalker.translate amd64 ⟨smallPagesMap.hhdmOffset⟩ s₂ v =
        .ok (some (v - smallPagesMap.hhdmOffset)) := by
  obtain ⟨sys, k, s₁, s₂, boot, stack, install, _⟩ := smallPagesRun_ok
  exact ⟨sys, k, s₁, s₂, boot, stack, install,
    guard_never_survives amd64_x86 smallPagesMap_layout (smallPages_sound boot) stack install⟩

end LimineData
end CrustyOs.Kernel
