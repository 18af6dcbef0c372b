import CrustyOs.Kernel.StackGuard
import CrustyOs.Mantle.FramesBeside

/-! The page-table steps of `kernel_main` beside the other users of the buddy allocator: what
the tables and the kernel stack take is apart from what is out already, none of which is stored to. -/
namespace CrustyOs.Kernel
open Lib Abalone Abalone.BuddyAllocator Mantle PageTableWalker Pml4

variable {P : Paging} {d : LimineData} {apic : Bool} {base minPages : Nat} {pages : Finset Nat} {old : List Block}
  {word₀ : Nat → Nat} {Out Held : Nat → Prop} {s s₁ s' : Machine BuddyAllocator} {k : KernelStack}

namespace LimineData

section Devices

variable {σ : Type} {B : FrameSource σ} {Ready : σ → (Nat → Nat) → (Nat → Prop) → Prop} {s s' : Machine σ}

theorem mapDevices_kept (x : X86 P) (supply : Supplies d.hhdmOffset B Ready) (layout : Layout d)
    (listed : ∀ fb, d.framebuffer = some fb → Listed d fb)
    (sound : Sound P d.hhdmOffset Ready (pml4Phys s) s Held)
    (clear : ∀ v p, DeviceMapped d apic v p → Clear P d.hhdmOffset s.mem.word (pml4Phys s) v 3)
    (run : d.mapDevices P B apic s = .ok s') : ∃ Held', Sound P d.hhdmOffset Ready (pml4Phys s') s' Held' := by
  have canonical (v p : Nat) (h : DeviceMapped d apic v p) : Mantle.Canonical v := (layout.device h listed).2.2
  obtain ⟨s₁, first, run⟩ := ok_of_bind run
  have lapic : (∃ Held₁, Sound P d.hhdmOffset Ready (pml4Phys s₁) s₁ Held₁) ∧
      ∀ v, Mantle.Canonical v → Clear P d.hhdmOffset s.mem.word (pml4Phys s) v 3 →
        Clear P d.hhdmOffset s₁.mem.word (pml4Phys s₁) v 3 := by
    cases apic with
    | false =>
      obtain rfl := Except.ok.inj first
      exact ⟨⟨Held, sound⟩, fun _ _ => id⟩
    | true =>
      have device (i : Nat) (hi : i < lapicSize) :
          DeviceMapped d true (d.hhdmOffset + lapicPhys + i) (lapicPhys + i) := Or.inl ⟨rfl, i, hi, rfl, rfl⟩
      obtain ⟨virt, virt_eq, first⟩ := ok_of_bind first
      obtain ⟨mapped, mapped_eq, first⟩ := ok_of_bind first
      rw [Abalone.checkedAdd_eq virt_eq, expectMapped_ok first] at mapped_eq
      obtain ⟨sound₁, clear₁, _⟩ := mapMmio_window (w := ⟨d.hhdmOffset⟩) x supply (by simp [Protection.constants])
        sound (fun i hi => canonical _ _ (device i hi)) (fun i hi => clear _ _ (device i hi)) mapped_eq
      exact ⟨sound₁, clear₁⟩
  obtain ⟨⟨Held₁, sound₁⟩, clear₁⟩ := lapic
  cases found : d.framebuffer with
  | none =>
    rw [found] at run
    obtain rfl := Except.ok.inj run
    exact ⟨Held₁, sound₁⟩
  | some fb =>
    rw [found] at run
    obtain ⟨mapped, mapped_eq, run⟩ := ok_of_bind run
    have virt := (listed fb found).harvested
    have device (i : Nat) (hi : i < fb.byteSize) :
        DeviceMapped d apic (d.hhdmOffset + fb.physAddr + i) (fb.physAddr + i) :=
      Or.inr ⟨fb, found, i, hi, by rw [virt], rfl⟩
    rw [virt, expectMapped_ok run] at mapped_eq
    exact (mapMmio_window (w := ⟨d.hhdmOffset⟩) x supply (by simp [Protection.constants]) sound₁
      (fun i hi => canonical _ _ (device i hi))
      (fun i hi => clear₁ _ (canonical _ _ (device i hi)) (clear _ _ (device i hi))) mapped_eq).1

end Devices

section Window

variable {limit : Nat} (small : limit ≤ 2 ^ 52) (fits : d.hhdmOffset + limit ≤ 2 ^ 64)
  (outside : ∀ f, Out f → Frame d.hhdmOffset f ∧ ∀ x ∈ pages, node base x ≠ f + d.hhdmOffset)

include small fits outside

theorem allocKernelStack_shared (x : X86 P)
    (sound : Sound P d.hhdmOffset (SharedReady d.hhdmOffset limit base pages old word₀ Out) (pml4Phys s) s Held)
    (run : allocKernelStack P buddyFrames ⟨d.hhdmOffset⟩ 8 s = .ok (k, s₁)) :
    ∃ p word₁ Held₁, k = ⟨node base p + 16 * 0x1000, node base p⟩ ∧
      (∀ f a, BlockFrame d.hhdmOffset base old f → InFrame d.hhdmOffset f a → word₁ a = word₀ a) ∧
      SharedReady d.hhdmOffset limit base pages (⟨4, p⟩ :: old) word₁ Out s₁.buddy s₁.mem.word Held₁ := by
  obtain ⟨lists, blocks, shared⟩ := sound.ready
  have room : checkedAdd 8 1 = .ok 9 := by decide
  have order : (9 : Nat).nextPowerOfTwo.log2 = 4 := by decide +kernel
  unfold allocKernelStack at run
  rw [bind_of_ok room] at run
  simp only [order] at run
  obtain ⟨⟨found, b', word'⟩, answer, run⟩ := ok_of_bind run
  rcases shared.give small fits answer with ⟨rfl, _⟩ | ⟨p, lists', rfl, keeps, same, shared'⟩
  · cases run
  obtain ⟨s₂, punched, run⟩ := ok_of_bind run
  obtain ⟨top, top_eq, run⟩ := ok_of_bind run
  obtain ⟨rfl, rfl⟩ := Prod.mk.inj (Except.ok.inj run)
  refine ⟨p, word', Held, ?_, same, ?_⟩
  · rw [Abalone.checkedAdd_eq top_eq]
    rfl
  · -- the old tables survive the request, so `unmap` walks them
    have pages : PageTree P d.hhdmOffset word' (pml4Phys s) Held := (sound.pages.kept keeps).1
    have sound' : Sound P d.hhdmOffset (SharedReady d.hhdmOffset limit base _ (⟨4, p⟩ :: old) word' Out) (pml4Phys s)
        { s with buddy := b', mem := ⟨word', s.mem.stores⟩ } Held := ⟨pages, lists', blocks, shared'⟩
    rcases unmap_spec (w := ⟨d.hhdmOffset⟩) (s := { s with buddy := b', mem := ⟨word', s.mem.stores⟩ }) x
      (shared_supplies small fits outside) sound' (node base p) with ⟨same, _⟩ | ⟨s₃, cleared, stored⟩
    · obtain rfl := Except.ok.inj (punched.symm.trans same)
      exact sound'.ready
    · obtain rfl := Except.ok.inj (punched.symm.trans cleared)
      exact stored.sound.ready

end Window

/-! The kernel's tables. -/

structure TablesIn (P : Paging) (d : LimineData) (taken : List Allocation) (word : Nat → Nat) (root : Nat) :
    Prop where
  tree : ∃ Held, PageTree P d.hhdmOffset word root Held ∧
    ∀ f, Held f → ∃ b ∈ taken, b.range.start ≤ f + d.hhdmOffset ∧
      f + d.hhdmOffset + Mantle.pageSize ≤ b.range.start + b.range.len
  leaves : ∀ v, Mantle.Canonical v → lookup P d.hhdmOffset word root v =
    kernelLeaf P d.hhdmOffset d.kernelVirtStart d.kernelVirtEnd d.kernelPhysStart d.physMemSize v

theorem TablesIn.kept {taken : List Allocation} {m m' : Memory} {root : Nat}
    (h : TablesIn P d taken m.word root) (stores : Memory.StoresIn (OffBlocks taken) m m') :
    TablesIn P d taken m'.word root := by
  obtain ⟨⟨Held, tree, placed⟩, leaves⟩ := h
  have keeps : Keeps d.hhdmOffset Held m.word m'.word := by
    intro f a hf ha
    apply stores.read_eq
    intro off
    obtain ⟨b, hb, low, high⟩ := placed f hf
    have out := off b hb
    unfold ByteRange.Off at out
    unfold InFrame at ha
    omega
  obtain ⟨tree', walks⟩ := tree.kept keeps
  exact ⟨⟨Held, tree', placed⟩, fun v hv => (walks _ (path_path v)).2.trans (leaves v hv)⟩

theorem install_shared {limit : Nat} (x : X86 P) (layout : Layout d) (small : limit ≤ 2 ^ 52)
    (fits : d.hhdmOffset + limit ≤ 2 ^ 64)
    (ready : SharedReady d.hhdmOffset limit base pages old word₀ Out s.buddy s.mem.word Held)
    (run : d.installKernelPml4 P (buddyFrames 0) s = .ok s') :
    ∃ Held' lists blocks, Shared d.hhdmOffset limit base pages old word₀ (fun _ => False) s'.buddy s'.mem.word Held'
      lists blocks ∧ TablesIn P d (blocks.map (Allocation.of base)) s'.mem.word (pml4Phys s') := by
  obtain ⟨lists, blocks, shared⟩ := ready
  -- the old tables are not needed any more
  have alone : SharedReady d.hhdmOffset limit base pages old word₀ (fun _ => False) s.buddy s.mem.word fun _ => False :=
    ⟨lists, blocks, (shared.sub fun _ none => none.elim).stocked, shared.from_base, fun _ none => none.elim, shared.same⟩
  have installed := Installed.of_run x (shared_supplies small fits fun _ none => none.elim) layout.placement alone run
  obtain ⟨Held', sound⟩ := installed.sound
  obtain ⟨lists', blocks', shared'⟩ := sound.ready
  refine ⟨Held', lists', blocks', shared', ⟨Held', sound.pages, fun f hf => ?_⟩, installed.leaves⟩
  exact ((shared'.placed f hf).resolve_left id).within

end LimineData
end CrustyOs.Kernel
