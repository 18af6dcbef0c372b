import Mathlib.Data.List.TakeWhile
import CrustyOs.Mantle.Pml4Spec

/-! The address space that `install_kernel_pml4` leaves. -/
namespace CrustyOs.Mantle.Pml4
open Lib Abalone PageTableWalker

variable {σ : Type} {P : Paging} {B : FrameSource σ} {hhdm root start needed u v : Nat} {s s₁ s' : Machine σ}
  {Ready : σ → (Nat → Nat) → (Nat → Prop) → Prop} {Held : Nat → Prop} {left : σ → Nat}
  {virtStart virtEnd physStart physMemSize : Nat}

structure Installed (P : Paging) (hhdm : Nat) (Ready : σ → (Nat → Nat) → (Nat → Prop) → Prop)
    (virtStart virtEnd physStart physMemSize : Nat) (s' : Machine σ) : Prop where
  sound : ∃ Held, Sound P hhdm Ready (pml4Phys s') s' Held
  leaves : ∀ v, Canonical v → lookup P hhdm s'.mem.word (pml4Phys s') v =
    kernelLeaf P hhdm virtStart virtEnd physStart physMemSize v

theorem pml4Phys_frame (frame : Frame hhdm s.cr3) : pml4Phys s = s.cr3 := by
  have small : s.cr3 < 2 ^ 64 := Nat.lt_of_lt_of_le frame.small (by decide)
  have masked : pml4Phys s = s.cr3 / 2 ^ 12 * 2 ^ 12 := and_wordNot_low (k := 12) small (by decide)
  rw [masked]
  exact Nat.div_mul_cancel frame.aligned

theorem Zeroed.built (h : Zeroed hhdm Ready Held s root s₁) (x : X86 P)
    (paid : start ≤ left s₁.buddy + 1) :
    Built P hhdm Ready left root start 1 (hhdmLeaf P hhdm 0) s₁ := by
  obtain ⟨pages, _, finds⟩ := PageTree.empty x h.frame (Holding root Held) (Or.inl rfl) h.blank
  refine ⟨_, ⟨pages, h.ready⟩, fun v _ => ?_, paid⟩
  have nothing : hhdmLeaf P hhdm 0 v = none := if_neg (by omega)
  rw [nothing]
  exact finds _ (path_path v)

theorem Placement.apart (place : Placement hhdm virtStart virtEnd physStart physMemSize)
    (low : virtStart ≤ v) (high : v < virtStart + Pml4.kernelPages virtStart virtEnd * pageSize) :
    hhdmLeaf P hhdm (hugePages physMemSize) v = none := by
  apply if_neg
  rintro ⟨above, below⟩
  exact place.slots v v above below low high rfl

theorem install_spec (x : X86 P) (supply : Supplies hhdm B Ready) (budget : Budget B Ready left)
    (place : Placement hhdm virtStart virtEnd physStart physMemSize)
    (ready : Ready s.buddy s.mem.word Held) :
    (∃ e, installKernelPml4 P B hhdm s virtStart virtEnd physStart physMemSize = .error e ∧
      Stops B Ready (left s.buddy) (framesNeeded virtStart virtEnd physMemSize) e) ∨
    ∃ s', installKernelPml4 P B hhdm s virtStart virtEnd physStart physMemSize = .ok s' ∧
      Installed P hhdm Ready virtStart virtEnd physStart physMemSize s' := by
  have all : 1 + 2 * hugePages physMemSize + 3 * Pml4.kernelPages virtStart virtEnd ≤
      framesNeeded virtStart virtEnd physMemSize := Nat.le_refl _
  have known : Protection.kernelRwxBoot P.flags ∈ Protection.constants P.flags := by
    simp [Protection.constants]
  have fits := window_small place.image
  have padded : checkedAdd (virtEnd - virtStart) pageSize = .ok (virtEnd - virtStart + pageSize) := by
    apply checkedAdd_lt
    unfold Pml4.kernelPages pageSize at fits
    unfold pageSize
    omega
  have span : checkedSub virtEnd virtStart = .ok (virtEnd - virtStart) := checkedSub_le place.ordered
  rcases allocZeroFrame_spec (n := 0) supply budget (Nat.lt_of_lt_of_le (by omega) all) ready
    (Nat.le_refl (left s.buddy)) with ⟨e, stopped, stops⟩ | ⟨root, s₁, run₁, zeroed, paid⟩
  · exact Or.inl ⟨e, bind_of_error stopped _, stops⟩
  -- the HHDM pass
  rcases mapHhdm2m_spec x supply budget place.hhdm_aligned place.window (Nat.le_trans (by omega) all)
    (Zeroed.built zeroed x paid) with ⟨e, stopped, stops⟩ | ⟨s₂, run₂, built₂⟩
  · exact Or.inl ⟨e, (bind_of_ok run₁ _).trans (bind_of_error stopped _), stops⟩
  have passed : installKernelPml4 P B hhdm s virtStart virtEnd physStart physMemSize =
      (mapRange4k P B hhdm s₂ root virtStart physStart (Pml4.kernelPages virtStart virtEnd)
        (Protection.kernelRwxBoot P.flags) >>= fun s => .ok { s with cr3 := root }) :=
    (bind_of_ok run₁ _).trans ((bind_of_ok run₂ _).trans ((bind_of_ok span _).trans
      (bind_of_ok padded _)))
  -- the image pass
  rcases mapRange4k_spec x supply budget place.virt_aligned place.phys place.image known
    (fun v low high => place.apart low high) all built₂ with
    ⟨e, stopped, stops⟩ | ⟨s₃, run₃, Held₃, sound, leaves, _⟩
  · exact Or.inl ⟨e, passed.trans (bind_of_error stopped _), stops⟩
  · have cr3 : pml4Phys { s₃ with cr3 := root } = root := pml4Phys_frame sound.pages.root_frame
    refine Or.inr ⟨{ s₃ with cr3 := root }, passed.trans (bind_of_ok run₃ _), ⟨Held₃, ?_⟩,
      fun v hv => ?_⟩
    · rw [cr3]
      exact ⟨sound.pages, sound.ready⟩
    · rw [cr3]
      exact leaves v hv

theorem Budget.none : Budget B Ready fun _ => 0 := ⟨fun _ _ _ _ _ _ _ _ => Nat.zero_le _, fun _ _ _ _ _ _ _ => rfl⟩

theorem Installed.of_run (x : X86 P) (supply : Supplies hhdm B Ready)
    (place : Placement hhdm virtStart virtEnd physStart physMemSize)
    (ready : Ready s.buddy s.mem.word Held)
    (run : installKernelPml4 P B hhdm s virtStart virtEnd physStart physMemSize = .ok s') :
    Installed P hhdm Ready virtStart virtEnd physStart physMemSize s' := by
  have spec := install_spec x supply .none place ready
  rw [run] at spec
  rcases spec with ⟨e, stopped, _⟩ | ⟨s₁, returned, installed⟩
  · cases stopped
  · exact Except.ok.inj returned ▸ installed

/-- Where the kernel's tables send an address: the address field of an entry has 52 bits. -/
def kernelTranslate (hhdm virtStart virtEnd physStart physMemSize v : Nat) : Option Nat :=
  if hhdm ≤ v ∧ v < hhdm + hugePages physMemSize * huge2M then some (v - hhdm)
  else if virtStart ≤ v ∧ v < virtStart + Pml4.kernelPages virtStart virtEnd * pageSize then
    some ((physStart + (v - virtStart)) % 2 ^ 52)
  else none

def Executable (P : Paging) (hhdm : Nat) (s : Machine σ) (v : Nat) : Prop :=
  (lookup P hhdm s.mem.word (pml4Phys s) v).isSome ∧
    ∀ e ∈ (radix P hhdm).trail s.mem.word 0 (pml4Phys s) (path v), e.testBit 63 = false

theorem kernelLeaf_phys (x : X86 P)
    (place : Placement hhdm virtStart virtEnd physStart physMemSize) (v : Nat) :
    (kernelLeaf P hhdm virtStart virtEnd physStart physMemSize v).map (physOf P v) =
      kernelTranslate hhdm virtStart virtEnd physStart physMemSize v := by
  have fits := window_small place.window
  by_cases window : hhdm ≤ v ∧ v < hhdm + hugePages physMemSize * huge2M
  · have unit := unit_offset place.hhdm_aligned window.1
    have small : (v - hhdm) / huge2M * huge2M < 2 ^ 52 := by omega
    have huge : P.ptePhysAddr (pde P ((v - hhdm) / huge2M)) huge2M = (v - hhdm) / huge2M * huge2M :=
      (pde_spec x small).2.1
    rw [kernelTranslate, if_pos window, kernelLeaf, hhdmLeaf, if_pos window, Option.some_or, Option.map_some,
      physOf, huge, unit]
  · have known : Protection.kernelRwxBoot P.flags ∈ Protection.constants P.flags := by
      simp [Protection.constants]
    rw [kernelTranslate, if_neg window, kernelLeaf, hhdmLeaf, if_neg window, Option.none_or,
      rangeLeaf_phys x (x.policy known) place.virt_aligned place.phys_aligned]

theorem Installed.translate (h : Installed P hhdm Ready virtStart virtEnd physStart physMemSize s')
    (x : X86 P) (place : Placement hhdm virtStart virtEnd physStart physMemSize) (hv : Canonical v) :
    PageTableWalker.translate P ⟨hhdm⟩ s' v =
      .ok (kernelTranslate hhdm virtStart virtEnd physStart physMemSize v) := by
  obtain ⟨Held, sound⟩ := h.sound
  have read := translate_eq x ⟨hhdm⟩ sound.pages v
  rw [h.leaves v hv, kernelLeaf_phys x place] at read
  exact read

theorem Installed.not_executable
    (h : Installed P hhdm Ready virtStart virtEnd physStart physMemSize s') (x : X86 P)
    (place : Placement hhdm virtStart virtEnd physStart physMemSize) (above : hhdm ≤ v)
    (below : v < hhdm + hugePages physMemSize * huge2M) : ¬ Executable P hhdm s' v := by
  rintro ⟨_, fetch⟩
  have found := h.leaves v (place.window v above below)
  rw [kernelLeaf, hhdmLeaf, if_pos ⟨above, below⟩, Option.some_or] at found
  have fits := window_small place.window
  have unit := unit_offset place.hhdm_aligned above
  have never : (pde P ((v - hhdm) / huge2M)).testBit 63 = true := (pde_spec x (by omega)).2.2
  rw [fetch _ (Radix.find_mem_trail found)] at never
  cases never

def listLeft (answers : List (Option Nat)) : Nat := (answers.takeWhile Option.isSome).length

theorem listSource_budget (hhdm : Nat) : Budget listSource (ListReady hhdm) listLeft where
  granted answers word Held virt rest word' _ answered := by
    cases answers with
    | nil => cases answered
    | cons answer answers =>
      cases answered
      exact Nat.le_refl _
  refused answers word Held rest word' _ answered := by
    cases answers with
    | nil => rfl
    | cons answer answers =>
      cases answered
      rfl

def frameMachine (frames : Nat) : Machine (List (Option Nat)) :=
  ⟨0, Memory.blank, (List.range frames).map fun i => some (pageSize * (i + 1) + 0xFFFF800000000000), []⟩

theorem frameMachine_ready {n : Nat} (h : n < 2 ^ 20) :
    ListReady 0xFFFF800000000000 (frameMachine n).buddy (frameMachine n).mem.word fun _ => False := by
  refine ⟨fun _ => False.elim, fun virt hv => ?_, ?_⟩
  · obtain ⟨i, hi, e⟩ := List.mem_map.mp hv
    have small := List.mem_range.mp hi
    refine ⟨pageSize * (i + 1), (Option.some.inj e).symm, ⟨Nat.dvd_mul_right _ _, ?_, ?_⟩, id⟩
    · unfold pageSize
      omega
    · unfold pageSize
      omega
  · refine List.Pairwise.map _ (fun i j ne same => ?_) List.nodup_range
    have eq := Option.some.inj same
    unfold pageSize at eq
    omega


theorem frameMachine_left (n : Nat) : listLeft (frameMachine n).buddy = n := by
  unfold listLeft frameMachine
  rw [List.takeWhile_eq_self_iff.mpr, List.length_map, List.length_range]
  intro answer h
  obtain ⟨i, _, rfl⟩ := List.mem_map.mp h
  rfl

theorem small_placement {physStart : Nat} (aligned : pageSize ∣ physStart)
    (fits : physStart + pageSize ≤ 2 ^ 64) :
    Placement 0xFFFF800000000000 0xFFFFFFFF80000000 0xFFFFFFFF80000001 physStart 0x400000 := by
  have huge : hugePages 0x400000 = 2 := by decide
  have pages : Pml4.kernelPages 0xFFFFFFFF80000000 0xFFFFFFFF80000001 = 1 := by decide
  refine ⟨by decide, by decide, aligned, by decide, ?_, ?_, ?_, ?_⟩
  · rw [huge]
    intro v low high
    unfold Canonical
    unfold huge2M at high
    omega
  · rw [pages]
    intro v low high
    unfold Canonical
    unfold pageSize at high
    omega
  · rw [pages, Nat.one_mul]
    exact fits
  · rw [huge, pages]
    intro u v low high low' high'
    unfold huge2M at high
    unfold pageSize at high'
    omega

/-- The tables that `install_kernel_pml4` leaves translate the HHDM window, the image and
nothing else, and nothing in the window can be executed. Enough frames let it return. -/
theorem kernel_pml4_exact (x : X86 P) (supply : Supplies hhdm B Ready) (budget : Budget B Ready left)
    (place : Placement hhdm virtStart virtEnd physStart physMemSize)
    (ready : Ready s.buddy s.mem.word Held) :
    (∀ s', installKernelPml4 P B hhdm s virtStart virtEnd physStart physMemSize = .ok s' →
      (∀ v, Canonical v → PageTableWalker.translate P ⟨hhdm⟩ s' v =
        .ok (kernelTranslate hhdm virtStart virtEnd physStart physMemSize v)) ∧
      ∀ v, hhdm ≤ v → v < hhdm + hugePages physMemSize * huge2M → ¬ Executable P hhdm s' v) ∧
    (¬ Fails B Ready → framesNeeded virtStart virtEnd physMemSize ≤ left s.buddy →
      ∃ s', installKernelPml4 P B hhdm s virtStart virtEnd physStart physMemSize = .ok s') := by
  constructor
  · intro s' run
    have installed := Installed.of_run x supply place ready run
    exact ⟨fun v hv => installed.translate x place hv,
      fun v above below => installed.not_executable x place above below⟩
  · intro returns enough
    rcases install_spec x supply budget place ready with ⟨e, _, stops⟩ | ⟨s₁, returned, _⟩
    · cases stops with
      | inl fails => exact absurd fails returns
      | inr short => omega
    · exact ⟨s₁, returned⟩

theorem kernel_pml4_exact_small :
    (∀ s', installKernelPml4 amd64 listSource 0xFFFF800000000000 (frameMachine 8)
        0xFFFFFFFF80000000 0xFFFFFFFF80000001 0x200000 0x400000 = .ok s' →
      (∀ v, Canonical v → PageTableWalker.translate amd64 ⟨0xFFFF800000000000⟩ s' v =
        .ok (kernelTranslate 0xFFFF800000000000 0xFFFFFFFF80000000 0xFFFFFFFF80000001 0x200000 0x400000 v)) ∧
      ∀ v, 0xFFFF800000000000 ≤ v → v < 0xFFFF800000000000 + hugePages 0x400000 * huge2M →
        ¬ Executable amd64 0xFFFF800000000000 s' v) ∧
    ∃ s', installKernelPml4 amd64 listSource 0xFFFF800000000000 (frameMachine 8)
      0xFFFFFFFF80000000 0xFFFFFFFF80000001 0x200000 0x400000 = .ok s' := by
  have aligned_image : pageSize ∣ 0x200000 := by decide
  have spec := kernel_pml4_exact amd64_x86 (listSource_supplies _) (listSource_budget _)
    (small_placement aligned_image (by decide))
    (frameMachine_ready (n := 8) (by decide))
  exact ⟨spec.1, spec.2 (listSource_returns _) (by decide)⟩

/-- An image at 2^52 is mapped, but to physical zero: the bit is outside the address field. -/
theorem image_above_address_field :
    Placement 0xFFFF800000000000 0xFFFFFFFF80000000 0xFFFFFFFF80000001 (2 ^ 52) 0x400000 ∧
    ∃ s', installKernelPml4 amd64 listSource 0xFFFF800000000000 (frameMachine 8)
        0xFFFFFFFF80000000 0xFFFFFFFF80000001 (2 ^ 52) 0x400000 = .ok s' ∧
      PageTableWalker.translate amd64 ⟨0xFFFF800000000000⟩ s' 0xFFFFFFFF80000000 ≠ .ok (some (2 ^ 52)) := by
  have aligned : pageSize ∣ 2 ^ 52 := by decide
  have place := small_placement aligned (by decide)
  refine ⟨place, ?_⟩
  rcases install_spec amd64_x86 (listSource_supplies _) (listSource_budget _) place
    (frameMachine_ready (n := 8) (by decide)) with ⟨e, _, stops⟩ | ⟨s', run, installed⟩
  · cases stops with
    | inl fails => exact absurd fails (listSource_returns _)
    | inr short => exact absurd short.2 (by decide)
  · refine ⟨s', run, ?_⟩
    have canonical : Canonical 0xFFFFFFFF80000000 := by
      unfold Canonical
      omega
    rw [installed.translate amd64_x86 place canonical]
    decide

end CrustyOs.Mantle.Pml4
