import CrustyOs.Mantle.Pml4Spec

/-! What a successful `map_mmio` leaves, where no huge page lies over the range. -/
namespace CrustyOs.Mantle.PageTableWalker
open Lib Abalone Pml4

variable {σ : Type} {P : Paging} {B : FrameSource σ} {w : PageTableWalker} {s s₁ s' : Machine σ}
  {Ready : σ → (Nat → Nat) → (Nat → Prop) → Prop} {Held : Nat → Prop} {n v virtStart physStart size : Nat}
  {prot : Protection} {leaf leaf' : Nat → Option (Nat × Nat)}

/-- Leaves have been laid over those of a tree, under the same root. -/
structure Overlaid (P : Paging) (w : PageTableWalker) (Ready : σ → (Nat → Nat) → (Nat → Prop) → Prop)
    (s : Machine σ) (Held : Nat → Prop) (leaf : Nat → Option (Nat × Nat)) (s' : Machine σ) : Prop where
  cr3 : s'.cr3 = s.cr3
  sound : ∃ Held', (∀ f, Held f → Held' f) ∧ Sound P w.hhdm Ready (pml4Phys s') s' Held'
  leaves : ∀ v, Canonical v → lookup P w.hhdm s'.mem.word (pml4Phys s') v =
    (leaf v).or (lookup P w.hhdm s.mem.word (pml4Phys s) v)

theorem map_overlaid {phys : Nat} {old : Option Nat} (x : X86 P) (supply : Supplies w.hhdm B Ready)
    (sound : Sound P w.hhdm Ready (pml4Phys s) s Held)
    (clear : Clear P w.hhdm s.mem.word (pml4Phys s) v 3) (hv : Canonical v)
    (policy : FlagBits prot.bits)
    (run : w.map P B s v phys prot = .ok (.ok old, s')) :
    (pageSize ∣ v ∧ pageSize ∣ phys) ∧ Overlaid P w Ready s Held
      (fun u => if u / pageSize = v / pageSize then some (3, leafEntry P (phys, prot)) else none) s' := by
  have aligned : pageSize ∣ v ∧ pageSize ∣ phys := by
    by_contra bad
    have guard : v &&& (pageSize - 1) ≠ 0 ∨ phys &&& (pageSize - 1) ≠ 0 := by
      rw [and_page_zero, and_page_zero]
      tauto
    rw [map, if_pos guard] at run
    cases run
  refine ⟨aligned, ?_⟩
  rcases map_spec x supply phys prot sound aligned clear with
    ⟨e, panics, _⟩ | ⟨s₁, Held₁, refused, _, _⟩ | ⟨s₁, Held₁, s₂, mapped, grown, stored⟩
  · rw [run] at panics
    cases panics
  · rw [run] at refused
    cases refused
  · rw [run] at mapped
    obtain ⟨_, rfl⟩ := Prod.mk.inj (Except.ok.inj mapped)
    have cr3 : s'.cr3 = s.cr3 := stored.cr3.trans grown.cr3
    have root : pml4Phys s' = pml4Phys s := by rw [pml4Phys, cr3, pml4Phys]
    refine ⟨cr3, ⟨Held₁, grown.held, root ▸ stored.sound⟩, fun u hu => ?_⟩
    have leaf : slot P 3 (leafEntry P (phys, prot)) = .leaf := (x.leaf_entry policy).1
    rw [root]
    by_cases same : u / pageSize = v / pageSize
    · have here := stored.here u ((path_eq_iff hu hv).mpr same)
      rw [if_pos same, Option.some_or]
      exact here.trans (if_pos leaf)
    · have apart := stored.other u fun e => same ((path_eq_iff hu hv).mp e)
      rw [if_neg same, Option.none_or]
      exact apart.trans (grown.finds _ (path_path u))

theorem Overlaid.trans (h : Overlaid P w Ready s Held leaf s₁)
    (next : ∀ Held₁, (∀ f, Held f → Held₁ f) → Sound P w.hhdm Ready (pml4Phys s₁) s₁ Held₁ →
      Overlaid P w Ready s₁ Held₁ leaf' s') :
    Overlaid P w Ready s Held (fun v => (leaf' v).or (leaf v)) s' := by
  obtain ⟨Held₁, sub, sound⟩ := h.sound
  have h' := next Held₁ sub sound
  obtain ⟨Held', sub', sound'⟩ := h'.sound
  refine ⟨h'.cr3.trans h.cr3, ⟨Held', fun f hf => sub' f (sub f hf), sound'⟩, fun v hv => ?_⟩
  rw [h'.leaves v hv, h.leaves v hv, Option.or_assoc]

theorem Overlaid.clear (h : Overlaid P w Ready s Held leaf s') (last : ∀ v d e, leaf v = some (d, e) → d = 3)
    (hv : Canonical v) (clear : Clear P w.hhdm s.mem.word (pml4Phys s) v 3) :
    Clear P w.hhdm s'.mem.word (pml4Phys s') v 3 := by
  intro d e found
  rw [h.leaves v hv] at found
  cases new : leaf v with
  | none =>
    rw [new, Option.none_or] at found
    exact clear d e found
  | some l =>
    rw [new, Option.some_or] at found
    rw [Option.some.inj found] at new
    exact Nat.le_of_eq (last v d e new).symm

def wholePages (size : Nat) : Nat := (size + pageSize - 1) / pageSize

theorem le_wholePages (size : Nat) : size ≤ wholePages size * pageSize := by
  unfold wholePages pageSize
  omega

theorem rangeLeaf_last {d e : Nat} (h : rangeLeaf P virtStart physStart prot n v = some (d, e)) : d = 3 := by
  unfold rangeLeaf at h
  split at h
  · exact (Prod.mk.inj (Option.some.inj h)).1.symm
  · cases h

section Range

variable (x : X86 P) (supply : Supplies w.hhdm B Ready) (policy : FlagBits prot.bits)

include x supply policy

theorem mapPages_overlaid (sound : Sound P w.hhdm Ready (pml4Phys s) s Held)
    (n : Nat) : ∀ {s'}, (∀ i < n, Canonical (virtStart + i * pageSize)) →
    (∀ i < n, Clear P w.hhdm s.mem.word (pml4Phys s) (virtStart + i * pageSize) 3) →
    w.mapPages P B virtStart physStart prot n s = .ok (.ok (), s') →
    (n ≠ 0 → pageSize ∣ virtStart ∧ pageSize ∣ physStart) ∧
      Overlaid P w Ready s Held (rangeLeaf P virtStart physStart prot n) s' := by
  induction n with
  | zero =>
    intro s' _ _ run
    obtain ⟨_, rfl⟩ := Prod.mk.inj (Except.ok.inj run)
    refine ⟨fun ne => absurd rfl ne, rfl, ⟨Held, fun _ => id, sound⟩, fun v _ => ?_⟩
    have nothing : rangeLeaf P virtStart physStart prot 0 v = none := if_neg (by omega)
    rw [nothing, Option.none_or]
  | succ i ih =>
    intro s' canonical clear run
    obtain ⟨⟨done, s₁⟩, before, run⟩ := ok_of_bind run
    cases done with
    | error e => cases run
    | ok _ =>
      have laid := (ih (fun j hj => canonical j (Nat.lt_succ_of_lt hj))
        (fun j hj => clear j (Nat.lt_succ_of_lt hj)) before).2
      have hv := canonical i (Nat.lt_succ_self i)
      have clear₁ := laid.clear (fun _ _ _ => rangeLeaf_last) hv (clear i (Nat.lt_succ_self i))
      obtain ⟨virt, virt_eq, run⟩ := ok_of_bind run
      obtain ⟨phys, phys_eq, run⟩ := ok_of_bind run
      obtain rfl := checkedAdd_eq virt_eq
      obtain rfl := checkedAdd_eq phys_eq
      obtain ⟨⟨old, s₂⟩, mapped, run⟩ := ok_of_bind run
      cases old with
      | error e => cases run
      | ok old =>
        obtain ⟨_, rfl⟩ := Prod.mk.inj (Except.ok.inj run)
        obtain ⟨Held₁, _, sound₁⟩ := laid.sound
        have aligned := (map_overlaid x supply sound₁ clear₁ hv policy mapped).1
        have multiple : pageSize ∣ i * pageSize := Nat.dvd_mul_left _ _
        have virt : pageSize ∣ virtStart := (Nat.dvd_add_left multiple).mp aligned.1
        have phys : pageSize ∣ physStart := (Nat.dvd_add_left multiple).mp aligned.2
        have both := laid.trans fun Held₂ _ sound₂ =>
          (map_overlaid x supply sound₂ clear₁ hv policy mapped).2
        refine ⟨fun _ => ⟨virt, phys⟩, both.cr3, both.sound, fun u hu => ?_⟩
        rw [both.leaves u hu]
        by_cases same : u / pageSize = (virtStart + i * pageSize) / pageSize
        · rw [if_pos same, rangeLeaf_page virt same, Option.some_or]
        · rw [if_neg same, rangeLeaf_other virt same, Option.none_or]

theorem mapMmio_overlaid (sound : Sound P w.hhdm Ready (pml4Phys s) s Held)
    (canonical : ∀ j < size, Canonical (virtStart + j))
    (clear : ∀ j < size, Clear P w.hhdm s.mem.word (pml4Phys s) (virtStart + j) 3)
    (run : w.mapMmio P B s virtStart physStart size prot = .ok (.ok (), s')) :
    (wholePages size ≠ 0 → pageSize ∣ virtStart ∧ pageSize ∣ physStart) ∧
      Overlaid P w Ready s Held (rangeLeaf P virtStart physStart prot (wholePages size)) s' := by
  obtain ⟨padded, padded_eq, run⟩ := ok_of_bind run
  obtain rfl := checkedAdd_eq padded_eq
  rw [← wholePages] at run
  have starts : ∀ i < wholePages size, i * pageSize < size := by
    intro i hi
    unfold wholePages pageSize at *
    omega
  exact mapPages_overlaid x supply policy sound _
    (fun i hi => canonical _ (starts i hi)) (fun i hi => clear _ (starts i hi)) run

end Range

theorem Overlaid.translate {physStart pages : Nat} (x : X86 P) (policy : FlagBits prot.bits)
    (h : Overlaid P w Ready s Held (rangeLeaf P virtStart physStart prot pages) s')
    (sound : Sound P w.hhdm Ready (pml4Phys s) s Held)
    (aligned : pages ≠ 0 → pageSize ∣ virtStart ∧ pageSize ∣ physStart) (hv : Canonical v) :
    w.translate P s' v = if virtStart ≤ v ∧ v < virtStart + pages * pageSize then
      .ok (some ((physStart + (v - virtStart)) % 2 ^ 52)) else w.translate P s v := by
  obtain ⟨Held', _, sound'⟩ := h.sound
  rw [translate_eq x w sound'.pages, translate_eq x w sound.pages, h.leaves v hv]
  by_cases inside : virtStart ≤ v ∧ v < virtStart + pages * pageSize
  · have some : pages ≠ 0 := by
      rintro rfl
      omega
    have new := rangeLeaf_phys (n := pages) (v := v) x policy (aligned some).1 (aligned some).2
    rw [if_pos inside] at new ⊢
    cases leaf : rangeLeaf P virtStart physStart prot pages v with
    | none =>
      rw [leaf] at new
      cases new
    | some l =>
      rw [leaf] at new
      rw [Option.some_or, new]
  · have none : rangeLeaf P virtStart physStart prot pages v = none := if_neg inside
    rw [if_neg inside, none, Option.none_or]

theorem mapMmio_window {phys : Nat} (x : X86 P) (supply : Supplies w.hhdm B Ready)
    (known : prot ∈ Protection.constants P.flags) (sound : Sound P w.hhdm Ready (pml4Phys s) s Held)
    (canonical : ∀ j < size, Canonical (w.hhdm + phys + j))
    (clear : ∀ j < size, Clear P w.hhdm s.mem.word (pml4Phys s) (w.hhdm + phys + j) 3)
    (run : w.mapMmio P B s (w.hhdm + phys) phys size prot = .ok (.ok (), s')) :
    (∃ Held', Sound P w.hhdm Ready (pml4Phys s') s' Held') ∧
      (∀ v, Canonical v → Clear P w.hhdm s.mem.word (pml4Phys s) v 3 →
        Clear P w.hhdm s'.mem.word (pml4Phys s') v 3) ∧
      ∀ p < 2 ^ 52, Canonical (w.hhdm + p) →
        phys ≤ p ∧ p < phys + size ∨ w.translate P s (w.hhdm + p) = .ok (some p) →
          w.translate P s' (w.hhdm + p) = .ok (some p) := by
  obtain ⟨aligned, laid⟩ := mapMmio_overlaid x supply (x.policy known) sound canonical clear run
  obtain ⟨Held', _, sound'⟩ := laid.sound
  refine ⟨⟨Held', sound'⟩, fun v hv => laid.clear (fun _ _ _ => rangeLeaf_last) hv, fun p small hv here => ?_⟩
  rw [laid.translate x (x.policy known) sound aligned hv]
  split
  · next inside =>
    have same : phys + (w.hhdm + p - (w.hhdm + phys)) = p := by omega
    rw [same, Nat.mod_eq_of_lt small]
  · next outside =>
    have covers := le_wholePages size
    exact here.resolve_left fun within => outside ⟨by omega, by omega⟩

/-- A `map_mmio` that succeeds maps the bytes of its range, and no canonical address
beyond the range's last page. -/
theorem mmio_mapped_exactly (x : X86 P) (supply : Supplies w.hhdm B Ready) (policy : FlagBits prot.bits)
    (sound : Sound P w.hhdm Ready (pml4Phys s) s Held)
    (canonical : ∀ j < size, Canonical (virtStart + j)) (physical : physStart + size ≤ 2 ^ 52)
    (clear : ∀ j < size, Clear P w.hhdm s.mem.word (pml4Phys s) (virtStart + j) 3)
    (run : w.mapMmio P B s virtStart physStart size prot = .ok (.ok (), s')) :
    (∀ o < size, w.translate P s' (virtStart + o) = .ok (some (physStart + o))) ∧
      ∀ v, Canonical v → ¬ (virtStart ≤ v ∧ v < virtStart + wholePages size * pageSize) →
        w.translate P s' v = w.translate P s v := by
  obtain ⟨aligned, laid⟩ := mapMmio_overlaid x supply policy sound canonical clear run
  have covers := le_wholePages size
  refine ⟨fun o inside => ?_, fun v hv outside => ?_⟩
  · rw [laid.translate x policy sound aligned (canonical o inside), if_pos ⟨by omega, by omega⟩,
      Nat.add_sub_cancel_left, Nat.mod_eq_of_lt (by omega)]
  · rw [laid.translate x policy sound aligned hv, if_neg outside]

/-- Two pages, the second of them partly used, where nothing was mapped. -/
theorem mmio_mapped_exactly_small : ∃ s', PageTableWalker.mapMmio amd64 listSource ⟨0⟩ smallMachine 0x400000 0x7000
      0x1234 (Protection.mmioUc amd64.flags) = .ok (.ok (), s') ∧
    (∀ o < 0x1234, PageTableWalker.translate amd64 ⟨0⟩ s' (0x400000 + o) = .ok (some (0x7000 + o))) ∧
      ∀ v, Canonical v → ¬ (0x400000 ≤ v ∧ v < 0x400000 + wholePages 0x1234 * pageSize) →
        PageTableWalker.translate amd64 ⟨0⟩ s' v = PageTableWalker.translate amd64 ⟨0⟩ smallMachine v := by
  have empty := smallMachine_empty.represents amd64_x86
  have done : (PageTableWalker.mapMmio amd64 listSource ⟨0⟩ smallMachine 0x400000 0x7000 0x1234
      (Protection.mmioUc amd64.flags)).map Prod.fst = .ok (.ok ()) := by decide +kernel
  obtain ⟨⟨r, s'⟩, run, rfl⟩ := ok_of_map done
  have low : ∀ j < 0x1234, Canonical (0x400000 + j) := by
    intro j hj
    exact Or.inl (by omega)
  exact ⟨s', run, mmio_mapped_exactly amd64_x86 (listSource_supplies 0) (amd64_x86.policy (by decide)) empty.sound low
    (by decide) (fun j hj => empty.clear (low j hj)) run⟩

end CrustyOs.Mantle.PageTableWalker
