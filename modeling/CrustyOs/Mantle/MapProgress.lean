import CrustyOs.Mantle.MapMmio

/-! `map` and `map_mmio` over an allocator with frames to spare: a page takes three frames at
most, and with three for each page the loop reaches its end. -/
namespace CrustyOs.Mantle.PageTableWalker
open Lib Abalone Pml4

variable {σ : Type} {P : Paging} {B : FrameSource σ} {w : PageTableWalker} {s s' s₁ : Machine σ}
  {Ready : σ → (Nat → Nat) → (Nat → Prop) → Prop} {Held : Nat → Prop} {left : σ → Nat}
  {n k t v phys virtStart physStart size : Nat} {prot : Protection}

section Spent

variable (budget : Budget B Ready left)

include budget

theorem request_spent {found : Option Nat} (ready : Ready s.buddy s.mem.word Held)
    (run : s.request B = .ok (found, s')) :
    (found = none → left s.buddy = 0) ∧ left s.buddy ≤ left s'.buddy + 1 := by
  obtain ⟨⟨answer, b, word⟩, asked, run⟩ := ok_of_bind run
  cases answer with
  | none =>
    obtain ⟨rfl, rfl⟩ := Prod.mk.inj (Except.ok.inj run)
    have empty := budget.refused _ _ Held _ _ ready asked
    exact ⟨fun _ => empty, by omega⟩
  | some virt =>
    obtain ⟨rfl, rfl⟩ := Prod.mk.inj (Except.ok.inj run)
    exact ⟨fun none => absurd none (Option.some_ne_none virt), budget.granted _ _ Held _ _ _ ready asked⟩

theorem allocTableFrame_spent {found : Option Nat} (ready : Ready s.buddy s.mem.word Held)
    (run : w.allocTableFrame B s = .ok (found, s')) :
    (found = none → left s.buddy = 0) ∧ left s.buddy ≤ left s'.buddy + 1 := by
  obtain ⟨⟨answer, s₁⟩, asked, run⟩ := ok_of_bind run
  have spent := request_spent budget ready asked
  cases answer with
  | none =>
    obtain ⟨rfl, rfl⟩ := Prod.mk.inj (Except.ok.inj run)
    exact spent
  | some virt =>
    obtain ⟨_, _, run⟩ := ok_of_bind run
    obtain ⟨rfl, rfl⟩ := Prod.mk.inj (Except.ok.inj run)
    exact spent

theorem descendOrCreate_spent {e : Except MapError Nat} (ready : Ready s.buddy s.mem.word Held)
    (run : w.descendOrCreate P B s t v k = .ok (e, s')) :
    (e = .error .outOfFrames → left s.buddy = 0) ∧ left s.buddy ≤ left s'.buddy + 1 := by
  obtain ⟨table, _, run⟩ := ok_of_bind run
  obtain ⟨entry, _, run⟩ := ok_of_bind run
  split at run
  · obtain ⟨rfl, rfl⟩ := Prod.mk.inj (Except.ok.inj run)
    refine ⟨fun none => ?_, Nat.le_succ _⟩
    cases none
  · obtain ⟨⟨frame, s₁⟩, asked, run⟩ := ok_of_bind run
    have spent := allocTableFrame_spent budget ready asked
    cases frame with
    | none =>
      obtain ⟨rfl, rfl⟩ := Prod.mk.inj (Except.ok.inj run)
      exact ⟨fun _ => spent.1 rfl, spent.2⟩
    | some virt =>
      obtain ⟨_, _, run⟩ := ok_of_bind run
      obtain ⟨_, _, run⟩ := ok_of_bind run
      obtain ⟨rfl, rfl⟩ := Prod.mk.inj (Except.ok.inj run)
      refine ⟨fun none => ?_, spent.2⟩
      cases none

end Spent

section Progress

variable (x : X86 P) (supply : Supplies w.hhdm B Ready) (returns : ¬ Fails B Ready)
  (budget : Budget B Ready left)

include x supply returns budget

theorem descendOrCreate_returns (h : Descends P w.hhdm Ready (pml4Phys s) s Held v k t s₁) (hk : k < 3)
    (clear : Clear P w.hhdm s.mem.word (pml4Phys s) v (k + 1)) (paid : 0 < left s₁.buddy) :
    ∃ u s₂, w.descendOrCreate P B s₁ t v (4 - k) = .ok (.ok u, s₂) ∧
      Descends P w.hhdm Ready (pml4Phys s) s Held v (k + 1) u s₂ ∧ left s₁.buddy ≤ left s₂.buddy + 1 := by
  have reached := h
  obtain ⟨Held₁, grown, _⟩ := reached
  rcases descendOrCreate_spec x supply h hk clear with
    ⟨e, _, fails⟩ | ⟨s₂, Held₂, refused, _⟩ | ⟨u, s₂, run, down⟩
  · exact absurd fails returns
  · have none := (descendOrCreate_spent budget grown.sound.ready refused).1 rfl
    omega
  · exact ⟨u, s₂, run, down, (descendOrCreate_spent budget grown.sound.ready run).2⟩

theorem map_returns (prot : Protection) (sound : Sound P w.hhdm Ready (pml4Phys s) s Held)
    (aligned : pageSize ∣ v ∧ pageSize ∣ phys) (clear : Clear P w.hhdm s.mem.word (pml4Phys s) v 3)
    (paid : 3 ≤ left s.buddy) :
    ∃ old s', w.map P B s v phys prot = .ok (.ok old, s') ∧ left s.buddy ≤ left s'.buddy + 3 := by
  have guard : ¬ (v &&& (pageSize - 1) ≠ 0 ∨ phys &&& (pageSize - 1) ≠ 0) := by
    rw [and_page_zero, and_page_zero]
    tauto
  have clear₁ : ∀ n ≤ 3, Clear P w.hhdm s.mem.word (pml4Phys s) v n :=
    fun n hn d e he => hn.trans (clear d e he)
  obtain ⟨t₃, s₃, run₃, down₃, left₃⟩ := descendOrCreate_returns x supply returns budget (.start sound v)
    (by decide) (clear₁ 1 (by decide)) (by omega)
  obtain ⟨t₂, s₂, run₂, down₂, left₂⟩ := descendOrCreate_returns x supply returns budget down₃
    (by decide) (clear₁ 2 (by decide)) (by omega)
  obtain ⟨t₁, s₁, run₁, ⟨Held₁, grown, ht⟩, left₁⟩ := descendOrCreate_returns x supply returns budget down₂
    (by decide) clear (by omega)
  have frame := tableAtPhys_frame w (grown.sound.pages.frame (path_take_path v 3) ht)
  have index := x.level_index v (k := 3) (by decide)
  have hi := path_getD_lt v (k := 3) (by decide)
  have read : PageTable.read s₁.mem (t₁ + w.hhdm) ((path v).getD 3 0) =
      .ok (s₁.mem.word (t₁ + w.hhdm + 8 * (path v).getD 3 0)) := if_pos hi
  have store (entry : Nat) : PageTable.write s₁.mem (t₁ + w.hhdm) ((path v).getD 3 0) entry =
      .ok (s₁.mem.write (t₁ + w.hhdm + 8 * (path v).getD 3 0) entry) := if_pos hi
  have leaf : ∃ old m, w.writeLeaf P s₁ t₁ v phys prot = .ok (old, { s₁ with mem := m }) := by
    simp only [writeLeaf, frame, index, read, store, bind, Except.bind]
    exact ⟨_, _, rfl⟩
  obtain ⟨old, m, last⟩ := leaf
  refine ⟨old, { s₁ with mem := m }, ?_, show left s.buddy ≤ left s₁.buddy + 3 by omega⟩
  simp only [map, guard, if_false, run₃, run₂, run₁, last, bind, Except.bind]
  rfl

theorem mapPages_returns (sound : Sound P w.hhdm Ready (pml4Phys s) s Held) (policy : FlagBits prot.bits)
    (virt : pageSize ∣ virtStart) (phys : pageSize ∣ physStart) (n : Nat) :
    (∀ i < n, Canonical (virtStart + i * pageSize)) →
    (∀ i < n, Clear P w.hhdm s.mem.word (pml4Phys s) (virtStart + i * pageSize) 3) →
    (∀ i < n, physStart + i * pageSize < 2 ^ 64) → 3 * n ≤ left s.buddy →
    ∃ s', w.mapPages P B virtStart physStart prot n s = .ok (.ok (), s') ∧
      left s.buddy ≤ left s'.buddy + 3 * n := by
  induction n with
  | zero => exact fun _ _ _ _ => ⟨s, rfl, Nat.le_add_right _ _⟩
  | succ i ih =>
    intro canonical clear word paid
    have hv := canonical i (Nat.lt_succ_self i)
    obtain ⟨s₁, before, left₁⟩ := ih (fun j hj => canonical j (Nat.lt_succ_of_lt hj))
      (fun j hj => clear j (Nat.lt_succ_of_lt hj)) (fun j hj => word j (Nat.lt_succ_of_lt hj)) (by omega)
    have laid := (mapPages_overlaid x supply policy sound i (fun j hj => canonical j (Nat.lt_succ_of_lt hj))
      (fun j hj => clear j (Nat.lt_succ_of_lt hj)) before).2
    obtain ⟨Held₁, _, sound₁⟩ := laid.sound
    have clear₁ := laid.clear (fun _ _ _ => rangeLeaf_last) hv (clear i (Nat.lt_succ_self i))
    have multiple : pageSize ∣ i * pageSize := Nat.dvd_mul_left _ _
    obtain ⟨old, s₂, mapped, left₂⟩ := map_returns x supply returns budget prot sound₁
      ⟨Nat.dvd_add virt multiple, Nat.dvd_add phys multiple⟩ clear₁ (by omega)
    have virt_eq : checkedAdd virtStart (i * pageSize) = .ok (virtStart + i * pageSize) := by
      apply checkedAdd_lt
      unfold Canonical at hv
      omega
    have phys_eq := checkedAdd_lt (word i (Nat.lt_succ_self i))
    refine ⟨s₂, ?_, by omega⟩
    simp only [mapPages, before, virt_eq, phys_eq, mapped, bind, Except.bind]
    rfl

theorem mapMmio_returns (sound : Sound P w.hhdm Ready (pml4Phys s) s Held) (policy : FlagBits prot.bits)
    (aligned : size ≠ 0 → pageSize ∣ virtStart ∧ pageSize ∣ physStart)
    (canonical : ∀ j < size, Canonical (virtStart + j)) (word : physStart + size + pageSize < 2 ^ 64)
    (clear : ∀ j < size, Clear P w.hhdm s.mem.word (pml4Phys s) (virtStart + j) 3)
    (paid : 3 * wholePages size ≤ left s.buddy) :
    ∃ s', w.mapMmio P B s virtStart physStart size prot = .ok (.ok (), s') ∧
      left s.buddy ≤ left s'.buddy + 3 * wholePages size := by
  have starts : ∀ i < wholePages size, i * pageSize < size := by
    intro i hi
    unfold wholePages pageSize at *
    omega
  have padded : checkedAdd size pageSize = .ok (size + pageSize) := checkedAdd_lt (by omega)
  have loop : w.mapMmio P B s virtStart physStart size prot =
      w.mapPages P B virtStart physStart prot (wholePages size) s := bind_of_ok padded _
  rw [loop]
  by_cases none : size = 0
  · have pages : wholePages size = 0 := by
      rw [none]
      decide
    rw [pages]
    exact ⟨s, rfl, Nat.le_add_right _ _⟩
  · exact mapPages_returns x supply returns budget sound policy (aligned none).1 (aligned none).2 (wholePages size)
      (fun i hi => canonical _ (starts i hi)) (fun i hi => clear _ (starts i hi))
      (fun i hi => Nat.lt_of_le_of_lt (Nat.add_le_add_left (Nat.le_of_lt (starts i hi)) _) (by omega)) paid

end Progress

/-! A start that is no page's: the first page is refused, and with it the range. -/

theorem mapPages_misaligned (bad : ¬ (pageSize ∣ virtStart ∧ pageSize ∣ physStart))
    (word : virtStart < 2 ^ 64 ∧ physStart < 2 ^ 64) (n : Nat) :
    w.mapPages P B virtStart physStart prot (n + 1) s = .ok (.error .misaligned, s) := by
  have guard : virtStart &&& (pageSize - 1) ≠ 0 ∨ physStart &&& (pageSize - 1) ≠ 0 := by
    rw [and_page_zero, and_page_zero]
    tauto
  induction n with
  | zero =>
    have virt : checkedAdd virtStart (0 * pageSize) = .ok virtStart := by
      rw [Nat.zero_mul]
      exact checkedAdd_lt word.1
    have phys : checkedAdd physStart (0 * pageSize) = .ok physStart := by
      rw [Nat.zero_mul]
      exact checkedAdd_lt word.2
    simp only [mapPages, virt, phys, map, guard, if_true, bind, Except.bind]
    rfl
  | succ n ih =>
    rw [mapPages, bind_of_ok ih]
    rfl

theorem mapMmio_misaligned (bad : ¬ (pageSize ∣ virtStart ∧ pageSize ∣ physStart))
    (word : virtStart < 2 ^ 64 ∧ physStart < 2 ^ 64) (some : 0 < size) (room : size + pageSize < 2 ^ 64) :
    w.mapMmio P B s virtStart physStart size prot = .ok (.error .misaligned, s) := by
  obtain ⟨n, pages⟩ : ∃ n, wholePages size = n + 1 := by
    refine ⟨wholePages size - 1, ?_⟩
    unfold wholePages pageSize
    omega
  have padded : checkedAdd size pageSize = .ok (size + pageSize) := checkedAdd_lt room
  rw [mapMmio, bind_of_ok padded, ← wholePages, pages]
  exact mapPages_misaligned bad word n

end CrustyOs.Mantle.PageTableWalker
