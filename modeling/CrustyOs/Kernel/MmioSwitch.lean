import CrustyOs.Kernel.AddressSpace
import CrustyOs.Mantle.KernelPml4
import CrustyOs.Mantle.MapMmio

/-! Device mappings across the switch to the kernel's own tables. -/
namespace CrustyOs.Kernel
open Lib Mantle PageTableWalker Pml4

variable {σ : Type} {P : Paging} {B : FrameSource σ} {d : LimineData} {apic : Bool} {s s₁ s' : Machine σ}
  {Ready : σ → (Nat → Nat) → (Nat → Prop) → Prop} {Held : Nat → Prop} {v p : Nat}

namespace LimineData

/-- The bytes of the HHDM window: under base revision 2 the first 4 GiB, and all of the map. -/
def windowSize (d : LimineData) : Nat := max (2 ^ 32) (hugePages d.physMemSize * huge2M)

/-- Where Limine and the linker script put the HHDM window and the image. -/
structure Layout (d : LimineData) : Prop where
  hhdm_aligned : huge2M ∣ d.hhdmOffset
  virt_aligned : pageSize ∣ d.kernelVirtStart
  phys_aligned : pageSize ∣ d.kernelPhysStart
  ordered : d.kernelVirtStart ≤ d.kernelVirtEnd
  window : ∀ v, d.hhdmOffset ≤ v → v < d.hhdmOffset + d.windowSize → Canonical v
  image : ∀ v, d.kernelVirtStart ≤ v →
    v < d.kernelVirtStart + kernelPages d.kernelVirtStart d.kernelVirtEnd * pageSize → Canonical v
  phys : d.kernelPhysStart + kernelPages d.kernelVirtStart d.kernelVirtEnd * pageSize ≤ 2 ^ 64
  slots : ∀ u v, d.hhdmOffset ≤ u → u < d.hhdmOffset + d.windowSize → d.kernelVirtStart ≤ v →
    v < d.kernelVirtStart + kernelPages d.kernelVirtStart d.kernelVirtEnd * pageSize →
    u / 2 ^ 39 % 512 ≠ v / 2 ^ 39 % 512

theorem Layout.placement (h : Layout d) :
    Placement d.hhdmOffset d.kernelVirtStart d.kernelVirtEnd d.kernelPhysStart d.physMemSize where
  hhdm_aligned := h.hhdm_aligned
  virt_aligned := h.virt_aligned
  phys_aligned := h.phys_aligned
  ordered := h.ordered
  window v low high := h.window v low (Nat.lt_of_lt_of_le high (Nat.add_le_add_left (Nat.le_max_right ..) _))
  image := h.image
  phys := h.phys
  slots u v low high := h.slots u v low (Nat.lt_of_lt_of_le high (Nat.add_le_add_left (Nat.le_max_right ..) _))

/-- A framebuffer as `harvest` derives it, which the map lists. -/
structure Listed (d : LimineData) (fb : FramebufferInfo) : Prop where
  harvested : fb.virtAddr = d.hhdmOffset + fb.physAddr
  listed : ∃ r ∈ d.regions, r.base ≤ fb.physAddr ∧ fb.physAddr + fb.byteSize ≤ r.endAddr

def DeviceMapped (d : LimineData) (apic : Bool) (v p : Nat) : Prop :=
  (apic = true ∧ ∃ i < lapicSize, v = d.hhdmOffset + lapicPhys + i ∧ p = lapicPhys + i) ∨
  ∃ fb, d.framebuffer = some fb ∧ ∃ i < fb.byteSize, v = fb.virtAddr + i ∧ p = fb.physAddr + i

theorem endAddr_le_physMemSize {r : MemoryRegion} (h : r ∈ d.regions) : r.endAddr ≤ d.physMemSize := by
  have mem : r.endAddr ∈ d.regions.map MemoryRegion.endAddr := List.mem_map_of_mem h
  unfold physMemSize
  cases top : (d.regions.map MemoryRegion.endAddr).max? with
  | none =>
    rw [List.max?_eq_none_iff.mp top] at mem
    cases mem
  | some m => exact (List.max?_eq_some_iff.mp top).2 _ mem

theorem physMemSize_le_window (d : LimineData) : d.physMemSize ≤ hugePages d.physMemSize * huge2M := by
  unfold hugePages huge2M
  omega

theorem DeviceMapped.linear (h : DeviceMapped d apic v p)
    (listed : ∀ fb, d.framebuffer = some fb → Listed d fb) :
    v = d.hhdmOffset + p ∧ p < d.windowSize := by
  have room := physMemSize_le_window d
  unfold windowSize
  rcases h with ⟨_, i, hi, rfl, rfl⟩ | ⟨fb, found, i, hi, rfl, rfl⟩
  · unfold lapicPhys lapicSize at *
    exact ⟨by omega, by omega⟩
  · obtain ⟨harvested, r, hr, _, within⟩ := listed fb found
    have top := endAddr_le_physMemSize hr
    exact ⟨by omega, by omega⟩

theorem Layout.device (layout : Layout d) (h : DeviceMapped d apic v p)
    (listed : ∀ fb, d.framebuffer = some fb → Listed d fb) :
    v = d.hhdmOffset + p ∧ p < 2 ^ 52 ∧ Canonical v := by
  obtain ⟨rfl, within⟩ := h.linear listed
  have small := window_small layout.window
  exact ⟨rfl, by omega, layout.window _ (by omega) (by omega)⟩

theorem expectMapped_ok {message : String} {r : Except MapError Unit × Machine σ}
    (h : expectMapped message r = .ok s') : r = (.ok (), s') := by
  obtain ⟨result, s₁⟩ := r
  cases result with
  | error e => cases h
  | ok _ =>
    cases h
    rfl

section Devices

variable (x : X86 P) (supply : Supplies d.hhdmOffset B Ready) (layout : Layout d)
  (listed : ∀ fb, d.framebuffer = some fb → Listed d fb)

include x supply layout listed

/-- Under Limine's tables, where no huge page lies over the devices, the mappings hold once
`kernel_main` is past them. -/
theorem mapDevices_spec (sound : Sound P d.hhdmOffset Ready (pml4Phys s) s Held)
    (clear : ∀ v p, DeviceMapped d apic v p → Clear P d.hhdmOffset s.mem.word (pml4Phys s) v 3)
    (run : d.mapDevices P B apic s = .ok s') (h : DeviceMapped d apic v p) :
    PageTableWalker.translate P ⟨d.hhdmOffset⟩ s' v = .ok (some p) := by
  have small (v p : Nat) (h : DeviceMapped d apic v p) := layout.device h listed
  have uncached : Protection.mmioUc P.flags ∈ Protection.constants P.flags := by simp [Protection.constants]
  have combining : Protection.mmioWc P.flags ∈ Protection.constants P.flags := by simp [Protection.constants]
  obtain ⟨s₁, first, run⟩ := ok_of_bind run
  -- the LAPIC page, where there is one
  have lapic : (∃ Held₁, Sound P d.hhdmOffset Ready (pml4Phys s₁) s₁ Held₁) ∧
      (∀ v, Canonical v → Clear P d.hhdmOffset s.mem.word (pml4Phys s) v 3 →
        Clear P d.hhdmOffset s₁.mem.word (pml4Phys s₁) v 3) ∧
      (apic = true → ∀ i < lapicSize, PageTableWalker.translate P ⟨d.hhdmOffset⟩ s₁
        (d.hhdmOffset + (lapicPhys + i)) = .ok (some (lapicPhys + i))) := by
    cases apic with
    | false =>
      obtain rfl := Except.ok.inj first
      exact ⟨⟨Held, sound⟩, fun _ _ => id, fun on => absurd on Bool.false_ne_true⟩
    | true =>
      have device (i : Nat) (hi : i < lapicSize) :
          DeviceMapped d true (d.hhdmOffset + lapicPhys + i) (lapicPhys + i) := Or.inl ⟨rfl, i, hi, rfl, rfl⟩
      obtain ⟨virt, virt_eq, first⟩ := ok_of_bind first
      obtain ⟨mapped, mapped_eq, first⟩ := ok_of_bind first
      rw [Abalone.checkedAdd_eq virt_eq, expectMapped_ok first] at mapped_eq
      obtain ⟨sound₁, clear₁, here⟩ := mapMmio_window (w := ⟨d.hhdmOffset⟩) x supply uncached sound
        (fun i hi => (small _ _ (device i hi)).2.2) (fun i hi => clear _ _ (device i hi)) mapped_eq
      refine ⟨sound₁, clear₁, fun _ i hi => ?_⟩
      obtain ⟨_, low, canonical⟩ := small _ _ (device i hi)
      rw [Nat.add_assoc] at canonical
      exact here _ low canonical (Or.inl ⟨Nat.le_add_right _ _, by omega⟩)
  obtain ⟨⟨Held₁, sound₁⟩, clear₁, lapic⟩ := lapic
  obtain ⟨v_eq, low, canonical⟩ := small v p h
  subst v_eq
  cases found : d.framebuffer with
  | none =>
    rw [found] at run
    obtain rfl := Except.ok.inj run
    rcases h with ⟨on, i, hi, _, rfl⟩ | ⟨fb, some, _⟩
    · exact lapic on i hi
    · rw [found] at some
      cases some
  | some fb =>
    rw [found] at run
    obtain ⟨mapped, mapped_eq, run⟩ := ok_of_bind run
    have virt := (listed fb found).harvested
    have device (i : Nat) (hi : i < fb.byteSize) :
        DeviceMapped d apic (d.hhdmOffset + fb.physAddr + i) (fb.physAddr + i) :=
      Or.inr ⟨fb, found, i, hi, by rw [virt], rfl⟩
    rw [virt, expectMapped_ok run] at mapped_eq
    obtain ⟨_, _, here⟩ := mapMmio_window (w := ⟨d.hhdmOffset⟩) x supply combining sound₁
      (fun i hi => (small _ _ (device i hi)).2.2)
      (fun i hi => clear₁ _ (small _ _ (device i hi)).2.2 (clear _ _ (device i hi))) mapped_eq
    apply here p low canonical
    rcases h with ⟨on, i, hi, _, rfl⟩ | ⟨fb', some, i, hi, _, rfl⟩
    · exact Or.inr (lapic on i hi)
    · rw [found] at some
      obtain rfl := Option.some.inj some
      exact Or.inl ⟨Nat.le_add_right _ _, by omega⟩

omit listed in
theorem installs (returns : ¬ Fails B Ready) {left : σ → Nat} (budget : Budget B Ready left)
    (ready : Ready s.buddy s.mem.word Held)
    (enough : framesNeeded d.kernelVirtStart d.kernelVirtEnd d.physMemSize ≤ left s.buddy) :
    ∃ s', d.installKernelPml4 P B s = .ok s' := by
  rcases install_spec x supply budget layout.placement ready with ⟨e, _, stops⟩ | ⟨s', run, _⟩
  · cases stops with
    | inl fails => exact absurd fails returns
    | inr short => omega
  · exact ⟨s', run⟩

/-- The kernel's tables keep the device mappings exactly where the map ends above the LAPIC
page; `map_mmio` had established them. -/
theorem mmio_survives_switch_iff (ready : Ready s.buddy s.mem.word Held)
    (run : d.installKernelPml4 P B s = .ok s') :
    ((∀ v p, DeviceMapped d apic v p → PageTableWalker.translate P ⟨d.hhdmOffset⟩ s' v = .ok (some p)) ↔
      (apic = true → lapicPhys < d.physMemSize)) ∧
    ∀ s₀ Held₀ s₁, Sound P d.hhdmOffset Ready (pml4Phys s₀) s₀ Held₀ →
      (∀ v p, DeviceMapped d apic v p → Clear P d.hhdmOffset s₀.mem.word (pml4Phys s₀) v 3) →
      d.mapDevices P B apic s₀ = .ok s₁ →
      ∀ v p, DeviceMapped d apic v p → PageTableWalker.translate P ⟨d.hhdmOffset⟩ s₁ v = .ok (some p) := by
  have installed := Installed.of_run x supply layout.placement ready run
  have translated (v : Nat) (hv : Canonical v) := installed.translate x layout.placement hv
  refine ⟨⟨fun survive on => ?_, fun above v p h => ?_⟩, fun s₀ Held₀ s₁ sound clear mapped v p h =>
    mapDevices_spec x supply layout listed sound clear mapped h⟩
  · have device : DeviceMapped d apic (d.hhdmOffset + lapicPhys) lapicPhys :=
      Or.inl ⟨on, 0, by decide, rfl, rfl⟩
    obtain ⟨_, within⟩ := device.linear listed
    obtain ⟨_, _, canonical⟩ := layout.device device listed
    have kept := survive _ _ device
    rw [translated _ canonical, kernelTranslate] at kept
    split at kept
    · next inside =>
      unfold hugePages huge2M lapicPhys at inside
      unfold lapicPhys
      omega
    · split at kept
      · next image => exact absurd rfl (layout.slots _ _ (Nat.le_add_right _ _) (by omega) image.1 image.2)
      · cases kept
  · obtain ⟨rfl, small, canonical⟩ := layout.device h listed
    have room := physMemSize_le_window d
    have inside : p < hugePages d.physMemSize * huge2M := by
      rcases h with ⟨on, i, hi, _, rfl⟩ | ⟨fb, found, i, hi, _, rfl⟩
      · have low := above on
        unfold hugePages huge2M lapicPhys lapicSize at *
        omega
      · obtain ⟨_, r, hr, _, within⟩ := listed fb found
        have top := endAddr_le_physMemSize hr
        omega
    rw [translated _ canonical, kernelTranslate, if_pos ⟨Nat.le_add_right _ _, by omega⟩,
      Nat.add_sub_cancel_left]

end Devices

theorem Layout.common (hhdm : d.hhdmOffset = 0xFFFF800000000000)
    (virtStart : d.kernelVirtStart = 0xFFFFFFFF80000000) (virtEnd : d.kernelVirtEnd = 0xFFFFFFFF80001000)
    (phys : pageSize ∣ d.kernelPhysStart) (low : d.kernelPhysStart < 2 ^ 32)
    (memory : d.physMemSize ≤ 2 ^ 32) : Layout d := by
  have window : d.windowSize = 2 ^ 32 := by
    unfold windowSize hugePages huge2M
    omega
  have pages : kernelPages 0xFFFFFFFF80000000 0xFFFFFFFF80001000 = 1 := by decide
  refine ⟨?_, ?_, phys, ?_, ?_, ?_, ?_, ?_⟩
  · rw [hhdm]
    decide
  · rw [virtStart]
    decide
  · rw [virtStart, virtEnd]
    decide
  · rw [hhdm, window]
    intro v low high
    unfold Canonical
    omega
  · rw [virtStart, virtEnd, pages]
    intro v low high
    unfold pageSize at high
    unfold Canonical
    omega
  · rw [virtStart, virtEnd, pages]
    unfold pageSize
    omega
  · rw [hhdm, virtStart, virtEnd, window, pages]
    intro u v low high low' high'
    unfold pageSize at high'
    omega

def framebufferMap : LimineData where
  hhdmOffset := 0xFFFF800000000000
  kernelPhysStart := 0x200000
  kernelPhysEnd := 0x201000
  kernelVirtStart := 0xFFFFFFFF80000000
  kernelVirtEnd := 0xFFFFFFFF80001000
  regions := [⟨0x100000, 0x7F00000, .usable, by decide, MemoryRegion.rounds_megabyte⟩,
    ⟨0xFD000000, 0x1000000, .framebuffer, by decide, by decide⟩]
  framebuffer := some ⟨0xFFFF8000FD000000, 0xFD000000, 0x300000⟩
  image := by decide
  rounds := by decide

theorem framebufferMap_layout : Layout framebufferMap :=
  .common rfl rfl rfl (by decide) (by decide) (by decide)

theorem framebufferMap_listed (fb : FramebufferInfo) (found : framebufferMap.framebuffer = some fb) :
    Listed framebufferMap fb := by
  obtain rfl := Option.some.inj found
  exact ⟨rfl, _, List.mem_cons_of_mem _ (List.mem_cons_self ..), by decide, by decide⟩

theorem framebufferMap_installs :
    ∃ s', framebufferMap.installKernelPml4 amd64 listSource (frameMachine 5000) = .ok s' := by
  apply installs amd64_x86 (listSource_supplies _) framebufferMap_layout (listSource_returns _)
    (listSource_budget _) (frameMachine_ready (n := 5000) (by decide))
  rw [frameMachine_left]
  decide

/-- The same machine with the firmware at the end of the first 4 GiB in the map. -/
def firmwareMap : LimineData :=
  { framebufferMap with
    regions := framebufferMap.regions ++ [⟨0xFFFC0000, 0x40000, .reserved, by decide, by decide⟩]
    rounds := by decide }

theorem firmwareMap_layout : Layout firmwareMap :=
  .common rfl rfl rfl (by decide) (by decide) (by decide)

theorem firmwareMap_listed (fb : FramebufferInfo) (found : firmwareMap.framebuffer = some fb) :
    Listed firmwareMap fb := by
  obtain ⟨harvested, r, hr, within⟩ := framebufferMap_listed fb found
  exact ⟨harvested, r, List.mem_append_left _ hr, within⟩

theorem firmwareMap_installs :
    ∃ s', firmwareMap.installKernelPml4 amd64 listSource (frameMachine 5000) = .ok s' := by
  apply installs amd64_x86 (listSource_supplies _) firmwareMap_layout (listSource_returns _)
    (listSource_budget _) (frameMachine_ready (n := 5000) (by decide))
  rw [frameMachine_left]
  decide

/-- Without a LAPIC, and with one that the map reaches beyond. -/
theorem mmio_survives_switch_samples :
    (∃ s', framebufferMap.installKernelPml4 amd64 listSource (frameMachine 5000) = .ok s' ∧
      ((∀ v p, DeviceMapped framebufferMap false v p →
        PageTableWalker.translate amd64 ⟨framebufferMap.hhdmOffset⟩ s' v = .ok (some p)) ↔
          (false = true → lapicPhys < framebufferMap.physMemSize))) ∧
    ∃ s', firmwareMap.installKernelPml4 amd64 listSource (frameMachine 5000) = .ok s' ∧
      ∀ v p, DeviceMapped firmwareMap true v p →
        PageTableWalker.translate amd64 ⟨firmwareMap.hhdmOffset⟩ s' v = .ok (some p) := by
  constructor
  · obtain ⟨s', run⟩ := framebufferMap_installs
    exact ⟨s', run, (mmio_survives_switch_iff amd64_x86 (listSource_supplies _) framebufferMap_layout
      framebufferMap_listed (frameMachine_ready (n := 5000) (by decide)) run).1⟩
  · obtain ⟨s', run⟩ := firmwareMap_installs
    have reaches : true = true → lapicPhys < firmwareMap.physMemSize := fun _ => by decide
    exact ⟨s', run, (mmio_survives_switch_iff amd64_x86 (listSource_supplies _) firmwareMap_layout
      firmwareMap_listed (frameMachine_ready (n := 5000) (by decide)) run).1.mpr reaches⟩

/-- The map ends at 0xFE000000: the LAPIC page is gone after the switch. -/
theorem lapic_unmapped_after_switch :
    ∃ s', framebufferMap.installKernelPml4 amd64 listSource (frameMachine 5000) = .ok s' ∧
      DeviceMapped framebufferMap true 0xFFFF8000FEE00000 0xFEE00000 ∧
      PageTableWalker.translate amd64 ⟨framebufferMap.hhdmOffset⟩ s' 0xFFFF8000FEE00000 = .ok none := by
  obtain ⟨s', run⟩ := framebufferMap_installs
  have installed := Installed.of_run amd64_x86 (listSource_supplies _) framebufferMap_layout.placement
    (frameMachine_ready (n := 5000) (by decide)) run
  have canonical : Canonical 0xFFFF8000FEE00000 := by
    unfold Canonical
    omega
  refine ⟨s', run, Or.inl ⟨rfl, 0, by decide, rfl, rfl⟩, ?_⟩
  rw [installed.translate amd64_x86 framebufferMap_layout.placement canonical]
  decide

end LimineData
end CrustyOs.Kernel
