import CrustyOs.Kernel.KernelTables
import CrustyOs.Mantle.FrugalFrames
import CrustyOs.Mantle.MapProgress

/-! The page-table steps of `kernel_main` with memory to spare: which of them return, and how
many pages each takes. -/
namespace CrustyOs.Kernel
open Lib Abalone Abalone.BuddyAllocator Mantle PageTableWalker Pml4

variable {P : Paging} {d : LimineData} {apic : Bool}

namespace LimineData

def FramebufferAligned (d : LimineData) : Prop :=
  ∀ fb, d.framebuffer = some fb → fb.byteSize ≠ 0 → Mantle.pageSize ∣ fb.physAddr

def devicePages (d : LimineData) (apic : Bool) : Nat :=
  (if apic then 1 else 0) + match d.framebuffer with
    | none => 0
    | some fb => wholePages fb.byteSize

def framebufferRefused : Panic := .expect "fb MMIO map failed"

section Devices

variable {σ : Type} {B : FrameSource σ} {Ready : σ → (Nat → Nat) → (Nat → Prop) → Prop} {left : σ → Nat}
  {Held : Nat → Prop} {s s' s₁ : Machine σ} {fb : FramebufferInfo} (x : X86 P) (supply : Supplies d.hhdmOffset B Ready)
  (returns : ¬ Fails B Ready) (budget : Budget B Ready left) (layout : Layout d)

include x supply returns budget layout

theorem mapLapic_returns (sound : Sound P d.hhdmOffset Ready (pml4Phys s) s Held)
    (canonical : ∀ i < lapicSize, Mantle.Canonical (d.hhdmOffset + lapicPhys + i))
    (clear : ∀ i < lapicSize, Clear P d.hhdmOffset s.mem.word (pml4Phys s) (d.hhdmOffset + lapicPhys + i) 3)
    (paid : 3 ≤ left s.buddy) :
    ∃ s₁, d.mapLapic P B s = .ok s₁ ∧ (∃ Held₁, Sound P d.hhdmOffset Ready (pml4Phys s₁) s₁ Held₁) ∧
      (∀ v, Mantle.Canonical v → Clear P d.hhdmOffset s.mem.word (pml4Phys s) v 3 →
        Clear P d.hhdmOffset s₁.mem.word (pml4Phys s₁) v 3) ∧ left s.buddy ≤ left s₁.buddy + 3 := by
  have known : Protection.mmioUc P.flags ∈ Protection.constants P.flags := by simp [Protection.constants]
  have window : Mantle.pageSize ∣ d.hhdmOffset := Nat.dvd_trans (by decide) layout.hhdm_aligned
  have lapic : Mantle.pageSize ∣ lapicPhys := by decide
  have one : wholePages lapicSize = 1 := by decide
  obtain ⟨s₁, run, spent⟩ := mapMmio_returns (w := ⟨d.hhdmOffset⟩) x supply returns budget sound
    (x.policy known) (fun _ => ⟨Nat.dvd_add window lapic, lapic⟩) canonical (by decide) clear (by rw [one]; exact paid)
  have virt : checkedAdd d.hhdmOffset lapicPhys = .ok (d.hhdmOffset + lapicPhys) := by
    have first := canonical 0 (by decide)
    apply checkedAdd_lt
    unfold Mantle.Canonical at first
    omega
  obtain ⟨sound₁, clear₁, _⟩ := mapMmio_window (w := ⟨d.hhdmOffset⟩) x supply known sound canonical clear run
  refine ⟨s₁, ?_, sound₁, clear₁, by rw [one] at spent; omega⟩
  unfold mapLapic
  rw [bind_of_ok virt, bind_of_ok run]
  rfl

theorem mapFramebuffer_iff (sound : Sound P d.hhdmOffset Ready (pml4Phys s) s Held)
    (virt : fb.virtAddr = d.hhdmOffset + fb.physAddr) (small : fb.physAddr + fb.byteSize ≤ 2 ^ 52)
    (canonical : ∀ i < fb.byteSize, Mantle.Canonical (d.hhdmOffset + fb.physAddr + i))
    (clear : ∀ i < fb.byteSize, Clear P d.hhdmOffset s.mem.word (pml4Phys s) (d.hhdmOffset + fb.physAddr + i) 3)
    (paid : 3 * wholePages fb.byteSize ≤ left s.buddy) :
    ((fb.byteSize ≠ 0 → Mantle.pageSize ∣ fb.physAddr) → ∃ s', d.mapFramebuffer P B fb s = .ok s' ∧
      left s.buddy ≤ left s'.buddy + 3 * wholePages fb.byteSize) ∧
    (¬ (fb.byteSize ≠ 0 → Mantle.pageSize ∣ fb.physAddr) → d.mapFramebuffer P B fb s = .error framebufferRefused) := by
  have known : Protection.mmioWc P.flags ∈ Protection.constants P.flags := by simp [Protection.constants]
  have window : Mantle.pageSize ∣ d.hhdmOffset := Nat.dvd_trans (by decide) layout.hhdm_aligned
  unfold mapFramebuffer
  rw [virt]
  constructor
  · intro aligned
    obtain ⟨s', run, spent⟩ := mapMmio_returns (w := ⟨d.hhdmOffset⟩) x supply returns budget sound
      (x.policy known) (fun some => ⟨Nat.dvd_add window (aligned some), aligned some⟩) canonical
      (by unfold Mantle.pageSize; omega) clear paid
    exact ⟨s', bind_of_ok run _, spent⟩
  · intro bad
    obtain ⟨some, misaligned⟩ := Classical.not_imp.mp bad
    have first := canonical 0 (Nat.pos_of_ne_zero some)
    have refused : mapMmio P B ⟨d.hhdmOffset⟩ s (d.hhdmOffset + fb.physAddr) fb.physAddr fb.byteSize
        (Protection.mmioWc P.flags) = .ok (.error .misaligned, s) := by
      apply mapMmio_misaligned
      · exact fun aligned => misaligned aligned.2
      · unfold Mantle.Canonical at first
        omega
      · exact Nat.pos_of_ne_zero some
      · unfold Mantle.pageSize
        omega
    rw [bind_of_ok refused]
    rfl

variable (listed : ∀ fb, d.framebuffer = some fb → Listed d fb)

include listed

theorem mapDevices_iff (sound : Sound P d.hhdmOffset Ready (pml4Phys s) s Held)
    (clear : ∀ v p, DeviceMapped d apic v p → Clear P d.hhdmOffset s.mem.word (pml4Phys s) v 3)
    (paid : 3 * d.devicePages apic ≤ left s.buddy) :
    (d.FramebufferAligned → ∃ s', d.mapDevices P B apic s = .ok s' ∧
      left s.buddy ≤ left s'.buddy + 3 * d.devicePages apic) ∧
    (¬ d.FramebufferAligned → d.mapDevices P B apic s = .error framebufferRefused) := by
  have canonical (v p : Nat) (h : DeviceMapped d apic v p) : Mantle.Canonical v := (layout.device h listed).2.2
  have lapic : ∃ s₁, (if apic then d.mapLapic P B s else .ok s) = .ok s₁ ∧
      (∃ Held₁, Sound P d.hhdmOffset Ready (pml4Phys s₁) s₁ Held₁) ∧
      (∀ v, Mantle.Canonical v → Clear P d.hhdmOffset s.mem.word (pml4Phys s) v 3 →
        Clear P d.hhdmOffset s₁.mem.word (pml4Phys s₁) v 3) ∧
      left s.buddy ≤ left s₁.buddy + 3 * (if apic then 1 else 0) := by
    cases apic with
    | false => exact ⟨s, rfl, ⟨Held, sound⟩, fun _ _ => id, Nat.le_add_right _ _⟩
    | true =>
      have device (i : Nat) (hi : i < lapicSize) :
          DeviceMapped d true (d.hhdmOffset + lapicPhys + i) (lapicPhys + i) := Or.inl ⟨rfl, i, hi, rfl, rfl⟩
      unfold devicePages at paid
      rw [if_pos rfl] at paid
      exact mapLapic_returns x supply returns budget layout sound (fun i hi => canonical _ _ (device i hi))
        (fun i hi => clear _ _ (device i hi)) (by omega)
  obtain ⟨s₁, first, ⟨Held₁, sound₁⟩, clear₁, spent⟩ := lapic
  unfold mapDevices
  rw [bind_of_ok first]
  cases found : d.framebuffer with
  | none =>
    have aligned : d.FramebufferAligned := by
      intro fb some
      rw [found] at some
      cases some
    refine ⟨fun _ => ⟨s₁, rfl, ?_⟩, fun bad => absurd aligned bad⟩
    rw [devicePages, found]
    exact spent
  | some fb =>
    obtain ⟨virt, r, hr, _, within⟩ := listed fb found
    have top := endAddr_le_physMemSize hr
    have room := physMemSize_le_window d
    have size := window_small layout.placement.window
    have device (i : Nat) (hi : i < fb.byteSize) :
        DeviceMapped d apic (d.hhdmOffset + fb.physAddr + i) (fb.physAddr + i) :=
      Or.inr ⟨fb, found, i, hi, by rw [virt], rfl⟩
    have aligned : d.FramebufferAligned ↔ (fb.byteSize ≠ 0 → Mantle.pageSize ∣ fb.physAddr) := by
      constructor
      · exact fun all => all fb found
      · intro one fb' found'
        obtain rfl := Option.some.inj (found.symm.trans found')
        exact one
    have pages : d.devicePages apic = (if apic then 1 else 0) + wholePages fb.byteSize := by rw [devicePages, found]
    rw [pages] at paid ⊢
    rw [aligned]
    obtain ⟨mapped, refused⟩ := mapFramebuffer_iff x supply returns budget layout sound₁ virt (by omega)
      (fun i hi => canonical _ _ (device i hi))
      (fun i hi => clear₁ _ (canonical _ _ (device i hi)) (clear _ _ (device i hi))) (by omega)
    refine ⟨fun start => ?_, refused⟩
    obtain ⟨s', run, spent'⟩ := mapped start
    exact ⟨s', run, by omega⟩

end Devices

/-! The stack. -/

theorem unmap_buddy {σ : Type} {w : PageTableWalker} {s s' : Machine σ} {v : Nat} (run : w.unmap P s v = .ok s') :
    s'.buddy = s.buddy := by
  obtain ⟨pdpt, _, run⟩ := ok_of_bind run
  cases pdpt with
  | none => exact congrArg Machine.buddy (Except.ok.inj run).symm
  | some pdptPhys =>
    obtain ⟨pd, _, run⟩ := ok_of_bind run
    cases pd with
    | none => exact congrArg Machine.buddy (Except.ok.inj run).symm
    | some pdPhys =>
      obtain ⟨pt, _, run⟩ := ok_of_bind run
      cases pt with
      | none => exact congrArg Machine.buddy (Except.ok.inj run).symm
      | some ptPhys =>
        obtain ⟨_, _, run⟩ := ok_of_bind run
        obtain ⟨_, _, run⟩ := ok_of_bind run
        obtain rfl := Except.ok.inj run
        rfl

section Stack

variable {limit base : Nat} {pages : Finset Nat} {old : List Block} {word₀ : Nat → Nat} {Out Held : Nat → Prop}
  {lists : Nat → List Nat} {blocks : List Block} {s : Machine BuddyAllocator}

theorem allocKernelStack_returns (x : X86 P) (small : limit ≤ 2 ^ 52) (fits : d.hhdmOffset + limit < 2 ^ 64)
    (outside : ∀ f, Out f → Frame d.hhdmOffset f ∧ ∀ x ∈ pages, node base x ≠ f + d.hhdmOffset)
    (low : ∀ x ∈ pages, x < Bitmap.capacity) (tree : PageTree P d.hhdmOffset s.mem.word (pml4Phys s) Held)
    (shared : Shared d.hhdmOffset limit base pages old word₀ Out s.buddy s.mem.word Held lists blocks)
    (some : 0 < reserve 4 lists) :
    ∃ k s₁, allocKernelStack P buddyFrames ⟨d.hhdmOffset⟩ 8 s = .ok (k, s₁) ∧
      buddyLeft s.buddy = buddyLeft s₁.buddy + 16 := by
  have room : checkedAdd 8 1 = .ok 9 := by decide
  have order : (9 : Nat).nextPowerOfTwo.log2 = 4 := by decide +kernel
  have fits' : d.hhdmOffset + limit ≤ 2 ^ 64 := Nat.le_of_lt fits
  rcases shared.stocked.answers low (k := 4) (by decide) with ⟨virt, b', word', answer⟩ | ⟨_, empty⟩
  · rcases shared.give small fits' answer with ⟨no, _⟩ | ⟨p, lists', place, keeps, _, shared'⟩
    · cases no
    obtain rfl := Option.some.inj place
    have sound' : Sound P d.hhdmOffset (SharedReady d.hhdmOffset limit base pages (⟨4, p⟩ :: old) word' Out) (pml4Phys s)
        { s with buddy := b', mem := ⟨word', s.mem.stores⟩ } Held := ⟨(tree.kept keeps).1, lists', blocks, shared'⟩
    have punched : ∃ s₁, PageTableWalker.unmap P ⟨d.hhdmOffset⟩
        { s with buddy := b', mem := ⟨word', s.mem.stores⟩ } (node base p) = .ok s₁ := by
      rcases unmap_spec (w := ⟨d.hhdmOffset⟩) (s := { s with buddy := b', mem := ⟨word', s.mem.stores⟩ }) x
        (shared_supplies small fits' outside) sound' (node base p) with ⟨same, _⟩ | ⟨s₁, cleared, _⟩
      · exact ⟨_, same⟩
      · exact ⟨s₁, cleared⟩
    obtain ⟨s₁, punched⟩ := punched
    have top : checkedAdd (node base p) ((1 <<< 4) * 0x1000) = .ok (node base p + (1 <<< 4) * 0x1000) := by
      have last : p + 15 ∈ pages := shared'.stocked.inv.held_mem
        (List.mem_append_right blocks List.mem_cons_self) (show InBlock 4 p (p + 15) by unfold InBlock; omega)
      have stop := shared'.stocked.within _ last
      rw [shared'.from_base] at stop
      apply checkedAdd_lt
      unfold node Abalone.pageSize
      unfold Mantle.pageSize at stop
      omega
    refine ⟨⟨node base p + (1 <<< 4) * 0x1000, node base p⟩, s₁, ?_, ?_⟩
    · unfold allocKernelStack
      rw [bind_of_ok room]
      simp only [order]
      rw [bind_of_ok answer]
      dsimp only
      rw [bind_of_ok punched, bind_of_ok top]
      rfl
    · rw [unmap_buddy punched]
      exact shared.give_left shared'
  · obtain ⟨j, le, hj, listed⟩ := reserve_listed some
    exact absurd (empty j le hj) listed

end Stack

end LimineData
end CrustyOs.Kernel
