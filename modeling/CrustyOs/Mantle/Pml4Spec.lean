import CrustyOs.Mantle.Pml4
import CrustyOs.Mantle.WalkerRefines

/-! The tables that `install_kernel_pml4` builds: loop invariants of both passes. -/
namespace CrustyOs.Mantle.Pml4
open Lib Abalone PageTableWalker

variable {σ : Type}

/-- A lower bound on the frames the allocator still has. -/
structure Budget (B : FrameSource σ) (Ready : σ → (Nat → Nat) → (Nat → Prop) → Prop) (left : σ → Nat) :
    Prop where
  granted : ∀ b word Held virt b' word', Ready b word Held → B b word = .ok (some virt, b', word') →
    left b ≤ left b' + 1
  refused : ∀ b word Held b' word', Ready b word Held → B b word = .ok (none, b', word') → left b = 0

def Stops (B : FrameSource σ) (Ready : σ → (Nat → Nat) → (Nat → Prop) → Prop) (start needed : Nat)
    (e : Panic) : Prop :=
  Fails B Ready ∨ e = outOfMemory ∧ start < needed

variable {P : Paging} {B : FrameSource σ} {hhdm root start needed n k t u v i : Nat} {s s₁ s' : Machine σ}
  {Ready : σ → (Nat → Nat) → (Nat → Prop) → Prop} {Held : Nat → Prop} {left : σ → Nat}

section Descent

variable (x : X86 P) (supply : Supplies hhdm B Ready) (budget : Budget B Ready left) (more : n < needed)

include supply budget more in
theorem allocZeroFrame_spec (ready : Ready s.buddy s.mem.word Held)
    (paid : start ≤ left s.buddy + n) :
    (∃ e, allocZeroFrame B hhdm s = .error e ∧ Stops B Ready start needed e) ∨
    ∃ f s', allocZeroFrame B hhdm s = .ok (f, s') ∧ Zeroed hhdm Ready Held s f s' ∧
      start ≤ left s'.buddy + (n + 1) := by
  cases answer : B s.buddy s.mem.word with
  | error e =>
    refine Or.inl ⟨e, ?_, Or.inl ⟨_, _, Held, e, ready, answer⟩⟩
    simp only [allocZeroFrame, Machine.request, answer, bind, Except.bind]
  | ok r =>
    obtain ⟨found, b', word'⟩ := r
    rcases request_spec supply ready with
      ⟨e, panics, _⟩ | ⟨s', refused, _, _⟩ | ⟨f, s', granted, zeroed⟩
    · simp only [Machine.request, answer, bind, Except.bind] at panics
      cases found <;> cases panics
    · have empty : left s.buddy = 0 := by
        simp only [Machine.request, answer, bind, Except.bind] at refused
        cases found with
        | none => exact budget.refused _ _ Held _ _ ready answer
        | some virt => cases refused
      refine Or.inl ⟨outOfMemory, ?_, Or.inr ⟨rfl, by omega⟩⟩
      simp only [allocZeroFrame, refused, bind, Except.bind]
    · have spent : left s.buddy ≤ left s'.buddy + 1 := by
        simp only [Machine.request, answer, bind, Except.bind] at granted
        cases found with
        | none => cases granted
        | some virt =>
          obtain ⟨_, rfl⟩ := Prod.mk.inj (Except.ok.inj granted)
          exact budget.granted _ _ Held _ _ _ ready answer
      refine Or.inr ⟨f, _, ?_, zeroed, by simp only; omega⟩
      have phys : checkedSub (f + hhdm) hhdm = .ok f := by
        rw [checkedSub_le (Nat.le_add_left _ _), Nat.add_sub_cancel]
      simp only [allocZeroFrame, granted, phys, bind, Except.bind]
      rfl

include x supply budget more in
theorem descendOrCreate_spec (h : Descends P hhdm Ready root s Held v k t s₁) (hk : k < 3)
    (clear : Clear P hhdm s.mem.word root v (k + 1)) (paid : start ≤ left s₁.buddy + n) :
    (∃ e, descendOrCreate P B hhdm s₁ t v (4 - k) = .error e ∧ Stops B Ready start needed e) ∨
    ∃ u s₂, descendOrCreate P B hhdm s₁ t v (4 - k) = .ok (u, s₂) ∧
      Descends P hhdm Ready root s Held v (k + 1) u s₂ ∧ start ≤ left s₂.buddy + (n + 1) := by
  obtain ⟨Held₁, grown, frame, next⟩ := h.next x supply hk clear
  have index := x.level_index v (k := k) (by omega)
  have hi := path_getD_lt v (k := k) (by omega)
  generalize (path v).getD k 0 = i at *
  have table : checkedAdd t hhdm = .ok (t + hhdm) := tableAtPhys_frame ⟨hhdm⟩ frame
  have read : PageTable.read s₁.mem (t + hhdm) i = .ok (s₁.mem.word (t + hhdm + 8 * i)) := if_pos hi
  rcases next with ⟨absent, _, linked⟩ | ⟨present, below⟩
  · rcases allocZeroFrame_spec supply budget more grown.sound.ready paid with
      ⟨e, stopped, stops⟩ | ⟨f, s₂, run, zeroed, paid'⟩
    · refine Or.inl ⟨e, ?_, stops⟩
      simp only [descendOrCreate, table, index, read, absent, stopped, bind, Except.bind,
        Bool.false_eq_true, if_false]
    · have store (value : Nat) : PageTable.write s₂.mem (t + hhdm) i value =
          .ok (s₂.mem.write (t + hhdm + 8 * i) value) := if_pos hi
      refine Or.inr ⟨f, _, ?_, linked f _ zeroed, paid'⟩
      simp only [descendOrCreate, table, index, read, absent, run, store, bind, Except.bind,
        Bool.false_eq_true, if_false]
      rfl
  · refine Or.inr ⟨_, s₁, ?_, below, by omega⟩
    simp only [descendOrCreate, table, index, read, present, bind, Except.bind, if_true]
    rfl

end Descent

def pde (P : Paging) (i : Nat) : Nat := P.pteEncode (i * huge2M) huge2M (hugeFlags P.flags)

/-- The leaves after `n` rounds of `map_hhdm_2m`. -/
def hhdmLeaf (P : Paging) (hhdm n v : Nat) : Option (Nat × Nat) :=
  if hhdm ≤ v ∧ v < hhdm + n * huge2M then some (2, pde P ((v - hhdm) / huge2M)) else none

/-- The leaves after `n` rounds of `map_range_4k`. -/
def rangeLeaf (P : Paging) (virtStart physStart : Nat) (prot : Protection) (n v : Nat) :
    Option (Nat × Nat) :=
  if virtStart ≤ v ∧ v < virtStart + n * pageSize then
    some (3, leafEntry P (physStart + (v - virtStart) / pageSize * pageSize, prot)) else none

def Built (P : Paging) (hhdm : Nat) (Ready : σ → (Nat → Nat) → (Nat → Prop) → Prop) (left : σ → Nat)
    (root start n : Nat) (leaf : Nat → Option (Nat × Nat)) (s : Machine σ) : Prop :=
  ∃ Held, Sound P hhdm Ready root s Held ∧
    (∀ v, Canonical v → lookup P hhdm s.mem.word root v = leaf v) ∧ start ≤ left s.buddy + n

theorem hhdmPage_eq (virt : checkedAdd hhdm (i * huge2M) = .ok v) :
    hhdmPage P B hhdm root i s = (do
      let (pdptPhys, s) ← descendOrCreate P B hhdm s root v 4
      let (pdPhys, s) ← descendOrCreate P B hhdm s pdptPhys v 3
      let pd ← checkedAdd pdPhys hhdm
      let mem ← PageTable.write s.mem pd (P.vaddrPtIndex v 2) (pde P i)
      return { s with mem }) := by
  unfold hhdmPage
  dsimp only
  rw [virt]
  rfl

theorem pde_spec (x : X86 P) (small : i * huge2M < 2 ^ 52) :
    slot P 2 (pde P i) = .leaf ∧ P.ptePhysAddr (pde P i) huge2M = i * huge2M ∧
      (pde P i).testBit 63 = true := by
  have outside : FlagBits (hugeFlags P.flags) := by
    rw [x.flags]
    unfold FlagBits
    decide
  obtain ⟨phys, bits⟩ := x.encode_spec (Or.inr (Or.inl rfl)) outside (i * huge2M)
  rw [addressBits_of_dvd (Nat.dvd_mul_left _ _) small] at phys
  have bit (j : Nat) (hj : j < 12 ∨ 52 ≤ j) : (pde P i).testBit j = (hugeFlags P.flags).testBit j :=
    bits j hj
  have flags : hugeFlags P.flags = hugeFlags ⟨2 ^ 0, 2 ^ 1, 2 ^ 3, 2 ^ 4, 2 ^ 7, 2 ^ 7, 2 ^ 8, 2 ^ 63⟩ := by
    rw [x.flags]
  refine ⟨slot_huge ?_ ?_, phys, ?_⟩
  · rw [x.present, bit 0 (by decide), flags]
    decide
  · rw [x.huge, bit 7 (by decide), flags]
    decide
  · rw [bit 63 (by decide), flags]
    decide

theorem path_take_iff (hu : Canonical u) (hv : Canonical v) :
    (path u).take 3 = (path v).take 3 ↔ u / huge2M = v / huge2M := by
  simp only [path, List.take, List.cons.injEq, and_true]
  unfold Canonical at hu hv
  unfold huge2M
  constructor
  · rintro ⟨four, three, two⟩
    omega
  · intro same
    omega

theorem window_page {base size : Nat} (positive : 0 < size) (aligned : size ∣ base)
    (same : u / size = (base + i * size) / size) :
    (base ≤ u ∧ u < base + (i + 1) * size) ∧ (u - base) / size = i := by
  obtain ⟨a, rfl⟩ := aligned
  have unit : (size * a + i * size) / size = a + i := by
    rw [Nat.mul_comm i, ← Nat.mul_add, Nat.mul_div_cancel_left _ positive]
  rw [unit] at same
  have lower : size * (a + i) ≤ u := same ▸ Nat.mul_div_le u size
  have upper : u < size * (a + i) + size := same ▸ Nat.lt_mul_div_succ u positive
  rw [Nat.mul_add] at lower upper
  rw [Nat.add_mul, Nat.one_mul, Nat.mul_comm i]
  refine ⟨⟨by omega, by omega⟩, ?_⟩
  rw [Nat.sub_mul_div, same, Nat.add_sub_cancel_left]

theorem window_other {base size : Nat} (positive : 0 < size) (aligned : size ∣ base)
    (other : u / size ≠ (base + i * size) / size) :
    (base ≤ u ∧ u < base + i * size) ↔ base ≤ u ∧ u < base + (i + 1) * size := by
  obtain ⟨a, rfl⟩ := aligned
  have unit : (size * a + i * size) / size = a + i := by
    rw [Nat.mul_comm i, ← Nat.mul_add, Nat.mul_div_cancel_left _ positive]
  rw [unit] at other
  have lower : ¬ (size * (a + i) ≤ u ∧ u < size * (a + i) + size) := by
    rintro ⟨above, below⟩
    exact other (Nat.div_eq_of_lt_le (by rw [Nat.mul_comm]; omega)
      (by rw [Nat.succ_mul, Nat.mul_comm]; omega))
  rw [Nat.mul_add] at lower
  rw [Nat.add_mul, Nat.one_mul, Nat.mul_comm i]
  omega

theorem hhdmLeaf_page (aligned : huge2M ∣ hhdm) (same : u / huge2M = (hhdm + i * huge2M) / huge2M) :
    hhdmLeaf P hhdm (i + 1) u = some (2, pde P i) := by
  obtain ⟨inside, round⟩ := window_page (by decide) aligned same
  rw [hhdmLeaf, if_pos inside, round]

theorem hhdmLeaf_other (aligned : huge2M ∣ hhdm) (other : u / huge2M ≠ (hhdm + i * huge2M) / huge2M) :
    hhdmLeaf P hhdm (i + 1) u = hhdmLeaf P hhdm i u :=
  if_congr (window_other (by decide) aligned other).symm rfl rfl

theorem rangeLeaf_page {virtStart physStart : Nat} {prot : Protection} (aligned : pageSize ∣ virtStart)
    (same : u / pageSize = (virtStart + i * pageSize) / pageSize) :
    rangeLeaf P virtStart physStart prot (i + 1) u =
      some (3, leafEntry P (physStart + i * pageSize, prot)) := by
  obtain ⟨inside, round⟩ := window_page (by decide) aligned same
  rw [rangeLeaf, if_pos inside, round]

theorem rangeLeaf_other {virtStart physStart : Nat} {prot : Protection} (aligned : pageSize ∣ virtStart)
    (other : u / pageSize ≠ (virtStart + i * pageSize) / pageSize) :
    rangeLeaf P virtStart physStart prot (i + 1) u = rangeLeaf P virtStart physStart prot i u :=
  if_congr (window_other (by decide) aligned other).symm rfl rfl

theorem unit_offset {base size : Nat} (aligned : size ∣ base) (above : base ≤ v) :
    (v - base) / size * size + v % size = v - base := by
  obtain ⟨a, rfl⟩ := aligned
  have same : (v - size * a) % size = v % size := by
    conv_rhs => rw [← Nat.sub_add_cancel above, Nat.add_mul_mod_self_left]
  rw [← same, Nat.mul_comm]
  exact Nat.div_add_mod _ _

theorem addressBits_page {phys offset : Nat} (aligned : pageSize ∣ phys) (low : offset < pageSize) :
    addressBits phys pageSize + offset = (phys + offset) % 2 ^ 52 := by
  obtain ⟨a, rfl⟩ := aligned
  unfold addressBits pageSize at *
  omega

/-- Where the leaves of a range send an address: the address field of an entry has 52 bits. -/
theorem rangeLeaf_phys {virtStart physStart : Nat} {prot : Protection} (x : X86 P)
    (policy : FlagBits prot.bits) (virt : pageSize ∣ virtStart) (phys : pageSize ∣ physStart) :
    (rangeLeaf P virtStart physStart prot n v).map (physOf P v) =
      if virtStart ≤ v ∧ v < virtStart + n * pageSize then some ((physStart + (v - virtStart)) % 2 ^ 52)
      else none := by
  unfold rangeLeaf
  split
  · next inside =>
    have unit := unit_offset virt inside.1
    have page : P.ptePhysAddr (leafEntry P (physStart + (v - virtStart) / pageSize * pageSize, prot))
        pageSize = addressBits (physStart + (v - virtStart) / pageSize * pageSize) pageSize :=
      (x.leaf_entry policy).2
    have aligned : pageSize ∣ physStart + (v - virtStart) / pageSize * pageSize :=
      Nat.dvd_add phys (Nat.dvd_mul_left _ _)
    have low : v % pageSize < pageSize := Nat.mod_lt _ (by decide)
    rw [Option.map_some, physOf, page, addressBits_page aligned low, Nat.add_assoc, unit]
    · nofun
    · nofun
  · rfl

section Rounds

variable (x : X86 P) (supply : Supplies hhdm B Ready) (budget : Budget B Ready left)

include x supply budget

theorem hhdmPage_spec (aligned : huge2M ∣ hhdm) (canonical : Canonical (hhdm + i * huge2M))
    (small : i * huge2M < 2 ^ 52) (more : n + 1 < needed)
    (h : Built P hhdm Ready left root start n (hhdmLeaf P hhdm i) s) :
    (∃ e, hhdmPage P B hhdm root i s = .error e ∧ Stops B Ready start needed e) ∨
    ∃ s', hhdmPage P B hhdm root i s = .ok s' ∧
      Built P hhdm Ready left root start (n + 2) (hhdmLeaf P hhdm (i + 1)) s' := by
  obtain ⟨Held, sound, leaves, paid⟩ := h
  have vacant : lookup P hhdm s.mem.word root (hhdm + i * huge2M) = none := by
    rw [leaves _ canonical]
    exact if_neg (by omega)
  have clear (m : Nat) : Clear P hhdm s.mem.word root (hhdm + i * huge2M) m := by
    intro d e he
    rw [vacant] at he
    cases he
  have virt : checkedAdd hhdm (i * huge2M) = .ok (hhdm + i * huge2M) := by
    apply checkedAdd_lt
    unfold Canonical at canonical
    omega
  obtain ⟨v, v_def⟩ : ∃ v, v = hhdm + i * huge2M := ⟨_, rfl⟩
  rw [← v_def] at canonical clear virt
  rcases descendOrCreate_spec x supply budget (Nat.lt_of_succ_lt more) (.start sound v) (by decide)
    (clear 1) paid with ⟨e, stopped, stops⟩ | ⟨t₁, s₁, run₁, down₁, paid₁⟩
  · exact Or.inl ⟨e, by simp only [hhdmPage_eq virt, stopped, bind, Except.bind], stops⟩
  rcases descendOrCreate_spec x supply budget more down₁ (by decide) (clear 2) paid₁ with
    ⟨e, stopped, stops⟩ | ⟨t₂, s₂, run₂, ⟨Held₂, grown, ht⟩, paid₂⟩
  · exact Or.inl ⟨e, by simp only [hhdmPage_eq virt, run₁, stopped, bind, Except.bind], stops⟩
  obtain ⟨leaf, _, _⟩ := pde_spec x small
  have stored := store_spec (pde P i) supply grown.sound (by decide) (by decide) ht
    (by rw [leaf]; simp)
  have frame := tableAtPhys_frame ⟨hhdm⟩ (grown.sound.pages.frame (path_take_path v 2) ht)
  have table : checkedAdd t₂ hhdm = .ok (t₂ + hhdm) := frame
  have index := x.level_index v (k := 2) (by decide)
  have store (value : Nat) : PageTable.write s₂.mem (t₂ + hhdm) ((path v).getD 2 0) value =
      .ok (s₂.mem.write (t₂ + hhdm + 8 * (path v).getD 2 0) value) := if_pos (path_getD_lt v (by decide))
  refine Or.inr ⟨_, ?_, Held₂, stored.sound, fun u hu => ?_, by simp only; omega⟩
  · simp only [hhdmPage_eq virt, run₁, run₂, table, index, store, bind, Except.bind]
    rfl
  · by_cases same : u / huge2M = v / huge2M
    · rw [stored.here u ((path_take_iff hu canonical).mpr same), if_pos leaf,
        hhdmLeaf_page aligned (v_def ▸ same)]
    · have before : lookup P hhdm s₂.mem.word root u = lookup P hhdm s.mem.word root u :=
        grown.finds _ (path_path u)
      rw [stored.other u fun e => same ((path_take_iff hu canonical).mp e), before, leaves u hu,
        hhdmLeaf_other aligned (v_def ▸ same)]

theorem rangePage_spec {virtStart physStart : Nat} {prot : Protection} {other : Nat → Option (Nat × Nat)}
    (aligned : pageSize ∣ virtStart)
    (canonical : Canonical (virtStart + i * pageSize)) (small : physStart + i * pageSize < 2 ^ 64)
    (known : prot ∈ Protection.constants P.flags)
    (free : ∀ u, u / pageSize = (virtStart + i * pageSize) / pageSize → other u = none)
    (more : n + 2 < needed)
    (h : Built P hhdm Ready left root start n
      (fun u => (other u).or (rangeLeaf P virtStart physStart prot i u)) s) :
    (∃ e, rangePage P B hhdm root virtStart physStart prot i s = .error e ∧
      Stops B Ready start needed e) ∨
    ∃ s', rangePage P B hhdm root virtStart physStart prot i s = .ok s' ∧
      Built P hhdm Ready left root start (n + 3)
        (fun u => (other u).or (rangeLeaf P virtStart physStart prot (i + 1) u)) s' := by
  obtain ⟨Held, sound, leaves, paid⟩ := h
  have leaves : ∀ v, Canonical v → lookup P hhdm s.mem.word root v =
      (other v).or (rangeLeaf P virtStart physStart prot i v) := leaves
  have vacant : lookup P hhdm s.mem.word root (virtStart + i * pageSize) = none := by
    rw [leaves _ canonical, free _ rfl, Option.none_or]
    exact if_neg (by omega)
  have clear (m : Nat) : Clear P hhdm s.mem.word root (virtStart + i * pageSize) m := by
    intro d e he
    rw [vacant] at he
    cases he
  have virt : checkedAdd virtStart (i * pageSize) = .ok (virtStart + i * pageSize) := by
    apply checkedAdd_lt
    unfold Canonical at canonical
    omega
  have phys : checkedAdd physStart (i * pageSize) = .ok (physStart + i * pageSize) :=
    checkedAdd_lt small
  obtain ⟨v, v_def⟩ : ∃ v, v = virtStart + i * pageSize := ⟨_, rfl⟩
  rw [← v_def] at canonical clear virt free
  rcases descendOrCreate_spec x supply budget (Nat.lt_of_succ_lt (Nat.lt_of_succ_lt more))
    (.start sound v) (by decide) (clear 1) paid with
    ⟨e, stopped, stops⟩ | ⟨t₁, s₁, run₁, down₁, paid₁⟩
  · exact Or.inl ⟨e, by simp only [rangePage, virt, phys, stopped, bind, Except.bind], stops⟩
  rcases descendOrCreate_spec x supply budget (Nat.lt_of_succ_lt more) down₁ (by decide)
    (clear 2) paid₁ with
    ⟨e, stopped, stops⟩ | ⟨t₂, s₂, run₂, down₂, paid₂⟩
  · exact Or.inl ⟨e, by simp only [rangePage, virt, phys, run₁, stopped, bind, Except.bind], stops⟩
  rcases descendOrCreate_spec x supply budget more down₂ (by decide) (clear 3) paid₂ with
    ⟨e, stopped, stops⟩ | ⟨t₃, s₃, run₃, ⟨Held₃, grown, ht⟩, paid₃⟩
  · exact Or.inl ⟨e, by simp only [rangePage, virt, phys, run₁, run₂, stopped, bind, Except.bind], stops⟩
  have stored : Stored P hhdm Ready root s₃ Held₃ v 3 (leafEntry P (physStart + i * pageSize, prot)) _ :=
    store_spec _ supply grown.sound (by decide) (by decide) ht slot_three
  have frame := tableAtPhys_frame ⟨hhdm⟩ (grown.sound.pages.frame (path_take_path v 3) ht)
  have table : checkedAdd t₃ hhdm = .ok (t₃ + hhdm) := frame
  have index := x.level_index v (k := 3) (by decide)
  have store (value : Nat) : PageTable.write s₃.mem (t₃ + hhdm) ((path v).getD 3 0) value =
      .ok (s₃.mem.write (t₃ + hhdm + 8 * (path v).getD 3 0) value) := if_pos (path_getD_lt v (by decide))
  refine Or.inr ⟨_, ?_, Held₃, stored.sound, fun u hu => ?_, by simp only; omega⟩
  · simp only [rangePage, virt, phys, run₁, run₂, run₃, table, index, store, bind, Except.bind]
    rfl
  · by_cases same : u / pageSize = v / pageSize
    · have leaf : slot P 3 (leafEntry P (physStart + i * pageSize, prot)) = .leaf :=
        (x.leaf_entry (x.policy known)).1
      simp only [stored.here u ((path_eq_iff hu canonical).mpr same), leaf, if_true, free u same,
        Option.none_or, rangeLeaf_page aligned (v_def ▸ same)]
    · have before : lookup P hhdm s₃.mem.word root u = lookup P hhdm s.mem.word root u :=
        grown.finds _ (path_path u)
      simp only [stored.other u fun e => same ((path_eq_iff hu canonical).mp e), before, leaves u hu,
        rangeLeaf_other aligned (v_def ▸ same)]

end Rounds

def hugePages (physMemSize : Nat) : Nat := (physMemSize + huge2M - 1) / huge2M

def kernelPages (virtStart virtEnd : Nat) : Nat := (virtEnd - virtStart + pageSize - 1) / pageSize

/-- The address ranges the kernel is told: aligned, canonical, and the image in no top-level
slot of the HHDM window. -/
structure Placement (hhdm virtStart virtEnd physStart physMemSize : Nat) : Prop where
  hhdm_aligned : huge2M ∣ hhdm
  virt_aligned : pageSize ∣ virtStart
  phys_aligned : pageSize ∣ physStart
  ordered : virtStart ≤ virtEnd
  window : ∀ v, hhdm ≤ v → v < hhdm + hugePages physMemSize * huge2M → Canonical v
  image : ∀ v, virtStart ≤ v → v < virtStart + kernelPages virtStart virtEnd * pageSize → Canonical v
  phys : physStart + kernelPages virtStart virtEnd * pageSize ≤ 2 ^ 64
  slots : ∀ u v, hhdm ≤ u → u < hhdm + hugePages physMemSize * huge2M → virtStart ≤ v →
    v < virtStart + kernelPages virtStart virtEnd * pageSize → u / 2 ^ 39 % 512 ≠ v / 2 ^ 39 % 512

theorem window_small {a size : Nat} (h : ∀ v, a ≤ v → v < a + size → Canonical v) : size ≤ 2 ^ 47 := by
  by_contra large
  have first := h a (Nat.le_refl a) (by omega)
  cases first with
  | inl low =>
    have hole := h (2 ^ 47) (by omega) (by omega)
    unfold Canonical at hole
    omega
  | inr high =>
    have past := h (a + 2 ^ 47) (by omega) (by omega)
    unfold Canonical at past
    omega

def kernelLeaf (P : Paging) (hhdm virtStart virtEnd physStart physMemSize v : Nat) : Option (Nat × Nat) :=
  (hhdmLeaf P hhdm (hugePages physMemSize) v).or (rangeLeaf P virtStart physStart
    (Protection.kernelRwxBoot P.flags) (kernelPages virtStart virtEnd) v)

/-- Frames that are enough: a root, and a path for each page. -/
def framesNeeded (virtStart virtEnd physMemSize : Nat) : Nat :=
  1 + 2 * hugePages physMemSize + 3 * kernelPages virtStart virtEnd

variable {virtStart virtEnd physStart physMemSize : Nat}

section Passes

variable (x : X86 P) (supply : Supplies hhdm B Ready) (budget : Budget B Ready left)

include x supply budget

omit x supply budget in
theorem mapHhdm2m_eq {padded : Nat} (h : checkedAdd physMemSize huge2M = .ok padded) :
    mapHhdm2m P B hhdm s root physMemSize =
      forRange (hhdmPage P B hhdm root) ((padded - 1) / huge2M) s := by
  unfold mapHhdm2m
  rw [h]
  rfl

theorem mapHhdm2m_spec (aligned : huge2M ∣ hhdm)
    (window : ∀ v, hhdm ≤ v → v < hhdm + hugePages physMemSize * huge2M → Canonical v)
    (more : 1 + 2 * hugePages physMemSize ≤ needed)
    (h : Built P hhdm Ready left root start 1 (hhdmLeaf P hhdm 0) s) :
    (∃ e, mapHhdm2m P B hhdm s root physMemSize = .error e ∧ Stops B Ready start needed e) ∨
    ∃ s', mapHhdm2m P B hhdm s root physMemSize = .ok s' ∧
      Built P hhdm Ready left root start (1 + 2 * hugePages physMemSize)
        (hhdmLeaf P hhdm (hugePages physMemSize)) s' := by
  have size := window_small window
  have padded : checkedAdd physMemSize huge2M = .ok (physMemSize + huge2M) := by
    apply checkedAdd_lt
    unfold hugePages huge2M at size
    unfold huge2M
    omega
  have loop : mapHhdm2m P B hhdm s root physMemSize =
      forRange (hhdmPage P B hhdm root) (hugePages physMemSize) s := mapHhdm2m_eq padded
  rw [loop]
  refine forRange_spec (I := fun i => Built P hhdm Ready left root start (1 + 2 * i) (hhdmLeaf P hhdm i))
    _ h fun i hi s₁ inv => ?_
  have below : i * huge2M + huge2M ≤ hugePages physMemSize * huge2M := by
    rw [← Nat.succ_mul]
    exact Nat.mul_le_mul_right _ hi
  have positive : 0 < huge2M := by decide
  have more' : 1 + 2 * i + 1 < needed := by omega
  have next : 1 + 2 * (i + 1) = 1 + 2 * i + 2 := by omega
  rw [next]
  exact hhdmPage_spec x supply budget aligned (window _ (by omega) (by omega)) (by omega) more' inv

theorem mapRange4k_spec {pages : Nat} {prot : Protection} {other : Nat → Option (Nat × Nat)}
    (aligned : pageSize ∣ virtStart) (phys : physStart + pages * pageSize ≤ 2 ^ 64)
    (image : ∀ v, virtStart ≤ v → v < virtStart + pages * pageSize → Canonical v)
    (known : prot ∈ Protection.constants P.flags)
    (free : ∀ v, virtStart ≤ v → v < virtStart + pages * pageSize → other v = none)
    (more : n + 3 * pages ≤ needed) (h : Built P hhdm Ready left root start n other s) :
    (∃ e, mapRange4k P B hhdm s root virtStart physStart pages prot = .error e ∧
      Stops B Ready start needed e) ∨
    ∃ s', mapRange4k P B hhdm s root virtStart physStart pages prot = .ok s' ∧
      Built P hhdm Ready left root start (n + 3 * pages)
        (fun v => (other v).or (rangeLeaf P virtStart physStart prot pages v)) s' := by
  have first : Built P hhdm Ready left root start (n + 3 * 0)
      (fun v => (other v).or (rangeLeaf P virtStart physStart prot 0 v)) s := by
    obtain ⟨Held, sound, leaves, paid⟩ := h
    refine ⟨Held, sound, fun v hv => ?_, paid⟩
    have nothing : rangeLeaf P virtStart physStart prot 0 v = none := if_neg (by omega)
    simp only [leaves v hv, nothing, Option.or_none]
  refine forRange_spec (I := fun i => Built P hhdm Ready left root start (n + 3 * i)
    fun v => (other v).or (rangeLeaf P virtStart physStart prot i v)) _ first fun i hi s₁ inv => ?_
  have below : i * pageSize + pageSize ≤ pages * pageSize := by
    rw [← Nat.succ_mul]
    exact Nat.mul_le_mul_right _ hi
  have positive : 0 < pageSize := by decide
  have more' : n + 3 * i + 2 < needed := by omega
  have next : n + 3 * (i + 1) = n + 3 * i + 3 := by omega
  rw [next]
  refine rangePage_spec x supply budget aligned (image _ (by omega) (by omega)) (by omega) known
    (fun u same => ?_) more' inv
  obtain ⟨a, rfl⟩ := aligned
  apply free
  · unfold pageSize at *
    omega
  · unfold pageSize at *
    omega

end Passes

end CrustyOs.Mantle.Pml4
