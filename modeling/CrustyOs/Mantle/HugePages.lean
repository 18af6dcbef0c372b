import CrustyOs.Mantle.KernelPml4

/-! `map` under a huge page. `descend_or_create` follows a present entry whether or not its
huge bit is set, so the walk goes on into the memory that the huge page maps. -/
namespace CrustyOs.Mantle
open Lib Abalone PageTableWalker

variable {σ : Type} {P : Paging} {B : FrameSource σ} {hhdm root t u k d e v phys : Nat} {word : Nat → Nat}
  {Ready : σ → (Nat → Nat) → (Nat → Prop) → Prop} {Held : Nat → Prop} {s s₁ s' : Machine σ}
  {prot : Protection} {old : Option Nat}

/-- The page that a walk takes for a page table below a huge leaf, and whether it hangs a
new table there. -/
structure Stray where
  page : Nat
  grows : Bool
  deriving DecidableEq, Repr

def stray (P : Paging) (hhdm : Nat) (word : Nat → Nat) (root v : Nat) : Option Stray :=
  match lookup P hhdm word root v with
  | some (1, e) =>
    let pd := P.ptePhysAddr e pageSize
    let entry := word (pd + hhdm + 8 * P.vaddrPtIndex v 2)
    if P.pteIsPresent entry then some ⟨P.ptePhysAddr entry pageSize, false⟩ else some ⟨pd, true⟩
  | some (2, e) => some ⟨P.ptePhysAddr e pageSize, false⟩
  | _ => none

/-- Every store since `s` went to a table of its tree or to a frame obtained since. -/
def StoresRespect (P : Paging) (hhdm root : Nat) (s s' : Machine σ) : Prop :=
  ∃ stores new, s'.mem.stores = stores ++ s.mem.stores ∧ s'.granted = new ++ s.granted ∧
    ∀ a ∈ stores, ∃ f, (IsTable P hhdm s.mem.word root f ∨ f + hhdm ∈ new) ∧ InFrame hhdm f a

structure Respects (P : Paging) (w : PageTableWalker) (s : Machine σ) (v phys : Nat)
    (s' : Machine σ) : Prop where
  translated : w.translate P s' v = .ok (some phys)
  stores : StoresRespect P w.hhdm (pml4Phys s) s s'

theorem Footprint.respects (h : Footprint P hhdm root Held s s') : StoresRespect P hhdm root s s' := by
  obtain ⟨stores, new, e, g, _, inside, _⟩ := h
  exact ⟨stores, new, e, g, inside⟩

theorem stray_none (pages : PageTree P hhdm word root Held) (none : stray P hhdm word root v = none) :
    Clear P hhdm word root v 3 := by
  intro d e found
  unfold stray at none
  rw [found] at none
  match d with
  | 0 => exact absurd rfl (pages.top _ _ _ (path_path v) found)
  | 1 =>
    simp only at none
    split at none
    · cases none
    · cases none
  | 2 => cases none
  | d + 3 => omega

theorem IsTable.of_inFrame {f : Nat} (pages : PageTree P hhdm word root Held)
    (h : IsTable P hhdm word root f) (aligned : pageSize ∣ t) (hk : k < 512)
    (inside : InFrame hhdm f (t + hhdm + 8 * k)) : IsTable P hhdm word root t := by
  by_cases same : f = t
  · exact same ▸ h
  · obtain ⟨p, hp, hf⟩ := h
    exact absurd (word_inFrame hk) (frames_apart (pages.frame hp hf).aligned aligned same inside)

theorem addressBits_aligned (x : X86 P) (e : Nat) : pageSize ∣ P.ptePhysAddr e pageSize := by
  rw [x.physAddr e pageSize (Or.inl rfl)]
  exact Nat.dvd_mul_left _ _

section Descent

variable {w : PageTableWalker}

theorem descend_follows (x : X86 P) (hk : k < 4)
    (run : w.descendOrCreate P B s t v (4 - k) = .ok (.ok u, s'))
    (present : P.pteIsPresent (s.mem.word (t + w.hhdm + 8 * (path v).getD k 0)) = true) :
    u = P.ptePhysAddr (s.mem.word (t + w.hhdm + 8 * (path v).getD k 0)) pageSize ∧ s' = s := by
  have index := x.level_index v hk
  have hi := path_getD_lt v hk
  unfold descendOrCreate at run
  obtain ⟨table, at_, run⟩ := ok_of_bind run
  obtain rfl := checkedAdd_eq at_
  have read : PageTable.read s.mem (t + w.hhdm) ((path v).getD k 0) = .ok _ := if_pos hi
  rw [index, bind_of_ok read, Memory.read, if_pos present] at run
  cases run
  exact ⟨rfl, rfl⟩

theorem allocTableFrame_granted {virt : Nat} (supply : Supplies w.hhdm B Ready)
    (ready : Ready s.buddy s.mem.word Held) (run : w.allocTableFrame B s = .ok (some virt, s')) :
    ∃ f b word new, virt = f + w.hhdm ∧ B s.buddy s.mem.word = .ok (some (f + w.hhdm), b, word) ∧
      Frame w.hhdm f ∧ s'.granted = (f + w.hhdm) :: s.granted ∧ s'.mem.stores = new ++ s.mem.stores ∧
      ∀ a ∈ new, InFrame w.hhdm f a := by
  unfold allocTableFrame at run
  obtain ⟨⟨found, s₂⟩, requested, run⟩ := ok_of_bind run
  unfold Machine.request at requested
  obtain ⟨⟨answer, b, word⟩, answered, requested⟩ := ok_of_bind requested
  cases answer with
  | none =>
    cases requested
    cases run
  | some granted =>
    cases requested
    obtain ⟨f, rfl, isFrame, _⟩ := supply.granted _ _ _ _ _ _ ready answered
    obtain ⟨_, _, run⟩ := ok_of_bind run
    cases run
    obtain ⟨_, _, new, stores, inside⟩ := zero_spec ⟨word, s.mem.stores⟩ w.hhdm f
    exact ⟨f, b, word, new, rfl, answered, isFrame, rfl, stores, inside⟩

theorem descend_links (x : X86 P) (supply : Supplies w.hhdm B Ready) (ready : Ready s.buddy s.mem.word Held)
    (hk : k < 4) (run : w.descendOrCreate P B s t v (4 - k) = .ok (.ok u, s'))
    (absent : P.pteIsPresent (s.mem.word (t + w.hhdm + 8 * (path v).getD k 0)) = false) :
    ∃ b word new, B s.buddy s.mem.word = .ok (some (u + w.hhdm), b, word) ∧ Frame w.hhdm u ∧
      s'.granted = (u + w.hhdm) :: s.granted ∧
      s'.mem.stores = (t + w.hhdm + 8 * (path v).getD k 0) :: new ++ s.mem.stores ∧
      ∀ a ∈ new, InFrame w.hhdm u a := by
  have index := x.level_index v hk
  have hi := path_getD_lt v hk
  unfold descendOrCreate at run
  obtain ⟨table, at_, run⟩ := ok_of_bind run
  obtain rfl := checkedAdd_eq at_
  have read : PageTable.read s.mem (t + w.hhdm) ((path v).getD k 0) = .ok _ := if_pos hi
  rw [index, bind_of_ok read, Memory.read, if_neg (by rw [absent]; decide)] at run
  obtain ⟨⟨frame, s₁⟩, allocated, run⟩ := ok_of_bind run
  cases frame with
  | none => cases run
  | some virt =>
    obtain ⟨f, b, word, new, rfl, answered, isFrame, granted, stores, inside⟩ :=
      allocTableFrame_granted supply ready allocated
    obtain ⟨framePhys, phys, run⟩ := ok_of_bind run
    rw [checkedSub_le (Nat.le_add_left _ _), Nat.add_sub_cancel] at phys
    obtain same : f = framePhys := Except.ok.inj phys
    obtain ⟨mem, store, run⟩ := ok_of_bind run
    obtain rfl : _ = mem := Except.ok.inj ((if_pos hi).symm.trans store)
    obtain rfl : framePhys = u := Except.ok.inj (Prod.mk.inj (Except.ok.inj run)).1
    obtain rfl := (Prod.mk.inj (Except.ok.inj run)).2
    subst same
    refine ⟨b, word, new, answered, isFrame, granted, ?_, inside⟩
    rw [Memory.write, stores]
    rfl

theorem writeLeaf_stores (x : X86 P) (run : w.writeLeaf P s t v phys prot = .ok (old, s')) :
    s'.granted = s.granted ∧ s'.mem.stores = (t + w.hhdm + 8 * (path v).getD 3 0) :: s.mem.stores := by
  have index := x.level_index v (k := 3) (by decide)
  have hi := path_getD_lt v (k := 3) (by decide)
  unfold writeLeaf at run
  obtain ⟨pt, at_, run⟩ := ok_of_bind run
  obtain rfl := checkedAdd_eq at_
  obtain ⟨_, _, run⟩ := ok_of_bind run
  obtain ⟨mem, store, run⟩ := ok_of_bind run
  rw [index] at store
  obtain rfl : _ = mem := Except.ok.inj ((if_pos hi).symm.trans store)
  cases run
  exact ⟨rfl, rfl⟩

theorem map_steps (run : w.map P B s v phys prot = .ok (.ok old, s')) :
    (pageSize ∣ v ∧ pageSize ∣ phys) ∧ ∃ t₃ s₃ t₂ s₂ t₁ s₁,
      w.descendOrCreate P B s (pml4Phys s) v 4 = .ok (.ok t₃, s₃) ∧
      w.descendOrCreate P B s₃ t₃ v 3 = .ok (.ok t₂, s₂) ∧
      w.descendOrCreate P B s₂ t₂ v 2 = .ok (.ok t₁, s₁) ∧
      w.writeLeaf P s₁ t₁ v phys prot = .ok (old, s') := by
  unfold map at run
  split at run
  · cases run
  · rename_i guard
    rw [and_page_zero, and_page_zero] at guard
    obtain ⟨⟨pdpt, s₃⟩, run₄, run⟩ := ok_of_bind run
    cases pdpt with
    | error _ => cases run
    | ok t₃ =>
      obtain ⟨⟨pd, s₂⟩, run₃, run⟩ := ok_of_bind run
      cases pd with
      | error _ => cases run
      | ok t₂ =>
        obtain ⟨⟨pt, s₁⟩, run₂, run⟩ := ok_of_bind run
        cases pt with
        | error _ => cases run
        | ok t₁ =>
          obtain ⟨⟨_, s₀⟩, run₁, run⟩ := ok_of_bind run
          cases run
          exact ⟨by tauto, t₃, s₃, t₂, s₂, t₁, s₁, run₄, run₃, run₂, run₁⟩

theorem on_the_way (ht : (radix P hhdm).tableAt word 0 root ((path v).take k) = some t) (hk : k < 4)
    (found : lookup P hhdm word root v = some (d, e)) (above : k ≤ d) :
    P.pteIsPresent (word (t + hhdm + 8 * (path v).getD k 0)) = true ∧
      (k = d → word (t + hhdm + 8 * (path v).getD k 0) = e) ∧
      (k < d → (radix P hhdm).tableAt word 0 root ((path v).take (k + 1)) =
        some (P.ptePhysAddr (word (t + hhdm + 8 * (path v).getD k 0)) pageSize)) := by
  obtain ⟨whole, snoc, length⟩ := path_split v hk
  rw [lookup, whole, Radix.find_append ht, length, Nat.zero_add] at found
  rw [snoc]
  generalize (path v).getD k 0 = i at found ⊢
  obtain ⟨w, entry⟩ : ∃ w, w = word (t + hhdm + 8 * i) := ⟨_, rfl⟩
  rw [← entry]
  cases present : P.pteIsPresent w with
  | false =>
    rw [find_absent entry present] at found
    cases found
  | true =>
    by_cases leaf : k = 3 ∨ P.pteIsHuge w = true
    · have slot : slot P k w = .leaf := by
        rw [slot, if_pos present, if_pos leaf]
      rw [find_leaf entry slot] at found
      obtain ⟨rfl, rfl⟩ := Prod.mk.inj (Option.some.inj found)
      exact ⟨rfl, fun _ => rfl, fun lt => absurd lt (Nat.lt_irrefl _)⟩
    · obtain ⟨inner, small⟩ := not_or.mp leaf
      have small : P.pteIsHuge w = false := by simpa using small
      rw [find_child entry present small inner] at found
      have below := Radix.find_depth found
      exact ⟨rfl, fun same => by omega, fun _ => tableAt_snoc entry ht present small (by omega)⟩

theorem single_store (pages : PageTree P hhdm s.mem.word root Held) (aligned : pageSize ∣ t) (hk : k < 512)
    (granted : s'.granted = s.granted) (stores : s'.mem.stores = (t + hhdm + 8 * k) :: s.mem.stores) :
    StoresRespect P hhdm root s s' ↔ IsTable P hhdm s.mem.word root t := by
  constructor
  · rintro ⟨since, new, e, g, inside⟩
    obtain rfl : [] = new := List.append_cancel_right (granted.symm.trans g)
    obtain rfl : [t + hhdm + 8 * k] = since := List.append_cancel_right (stores.symm.trans e)
    obtain ⟨f, table | fresh, frame⟩ := inside _ (List.mem_singleton_self _)
    · exact table.of_inFrame pages aligned hk frame
    · exact absurd fresh List.not_mem_nil
  · intro table
    refine ⟨[_], [], stores, granted, fun a ha => ?_⟩
    rw [List.mem_singleton.mp ha]
    exact ⟨t, Or.inl table, word_inFrame hk⟩

theorem linked_stores {new : List Nat} {i j : Nat} (pages : PageTree P hhdm s.mem.word root Held)
    (aligned : pageSize ∣ t) (frame : Frame hhdm u) (hi : i < 512) (hj : j < 512)
    (granted : s'.granted = (u + hhdm) :: s.granted)
    (stores : s'.mem.stores = (u + hhdm + 8 * j) :: (t + hhdm + 8 * i) :: new ++ s.mem.stores)
    (inside : ∀ a ∈ new, InFrame hhdm u a) :
    StoresRespect P hhdm root s s' ↔ IsTable P hhdm s.mem.word root t ∨ u = t := by
  constructor
  · rintro ⟨since, grants, e, g, within⟩
    obtain rfl : [u + hhdm] = grants := List.append_cancel_right (granted.symm.trans g)
    obtain rfl : (u + hhdm + 8 * j) :: (t + hhdm + 8 * i) :: new = since :=
      List.append_cancel_right (stores.symm.trans e)
    obtain ⟨f, table | fresh, here⟩ := within (t + hhdm + 8 * i) (by simp)
    · exact Or.inl (table.of_inFrame pages aligned hi here)
    · right
      obtain rfl : f = u := Nat.add_right_cancel (List.mem_singleton.mp fresh)
      by_contra ne
      exact frames_apart frame.aligned aligned ne here (word_inFrame hi)
  · intro inOrder
    refine ⟨_, [u + hhdm], stores, granted, fun a ha => ?_⟩
    have hung : InFrame hhdm u a → ∃ f, (IsTable P hhdm s.mem.word root f ∨ f + hhdm ∈ [u + hhdm]) ∧
        InFrame hhdm f a := fun here => ⟨u, Or.inr (List.mem_singleton_self _), here⟩
    cases List.mem_cons.mp ha with
    | inl leaf => exact hung (leaf ▸ word_inFrame hj)
    | inr ha =>
      cases List.mem_cons.mp ha with
      | inl link =>
        cases inOrder with
        | inl table => exact ⟨t, Or.inl table, link ▸ word_inFrame hi⟩
        | inr same => exact hung (link ▸ same ▸ word_inFrame hi)
      | inr zeroing => exact hung (inside a zeroing)

section Map

variable (x : X86 P) (supply : Supplies w.hhdm B Ready) (sound : Sound P w.hhdm Ready (pml4Phys s) s Held)

include x supply sound

/-- Under a huge page the stores are in order only if the stray page is. -/
theorem stray_stores {y : Stray} (run : w.map P B s v phys prot = .ok (.ok old, s'))
    (strays : stray P w.hhdm s.mem.word (pml4Phys s) v = some y) :
    StoresRespect P w.hhdm (pml4Phys s) s s' ↔ IsTable P w.hhdm s.mem.word (pml4Phys s) y.page ∨
      y.grows = true ∧ ∃ b word, B s.buddy s.mem.word = .ok (some (y.page + w.hhdm), b, word) := by
  obtain ⟨_, t₃, s₃, t₂, s₂, t₁, s₁, run₄, run₃, run₂, run₁⟩ := map_steps run
  have top : (radix P w.hhdm).tableAt s.mem.word 0 (pml4Phys s) ((path v).take 0) = some (pml4Phys s) := rfl
  have last := path_getD_lt v (k := 3) (by decide)
  unfold stray at strays
  split at strays
  · rename_i e found
    -- a 1 GiB leaf: its page is read as a page directory
    obtain ⟨present, _, down⟩ := on_the_way top (by decide) found (by decide)
    obtain ⟨rfl, rfl⟩ := descend_follows x (k := 0) (by decide) run₄ present
    obtain ⟨present, leaf, _⟩ := on_the_way (down (by decide)) (by decide) found (by decide)
    obtain ⟨at₂, rfl⟩ := descend_follows x (k := 1) (by decide) run₃ present
    rw [leaf rfl] at at₂
    subst at₂
    have index := x.level_index v (k := 2) (by decide)
    simp only [index] at strays
    split at strays
    · rename_i present
      obtain rfl := Option.some.inj strays
      obtain ⟨rfl, rfl⟩ := descend_follows x (k := 2) (by decide) run₂ present
      obtain ⟨granted, stores⟩ := writeLeaf_stores x run₁
      rw [single_store sound.pages (addressBits_aligned x _) last granted stores]
      simp
    · rename_i absent
      obtain rfl := Option.some.inj strays
      obtain ⟨b, word, new, answered, frame, granted, stores, inside⟩ := descend_links x supply sound.ready
        (k := 2) (by decide) run₂ (by simpa using absent)
      obtain ⟨granted', stores'⟩ := writeLeaf_stores x run₁
      rw [linked_stores sound.pages (addressBits_aligned x _) frame (path_getD_lt v (k := 2) (by decide)) last
        (granted'.trans granted) (by rw [stores', stores]; rfl) inside, answered]
      simp
  · rename_i e found
    -- a 2 MiB leaf: its page is read as a page table
    obtain rfl := Option.some.inj strays
    obtain ⟨present, _, down⟩ := on_the_way top (by decide) found (by decide)
    obtain ⟨rfl, rfl⟩ := descend_follows x (k := 0) (by decide) run₄ present
    obtain ⟨present, _, down⟩ := on_the_way (down (by decide)) (by decide) found (by decide)
    obtain ⟨rfl, rfl⟩ := descend_follows x (k := 1) (by decide) run₃ present
    obtain ⟨present, leaf, _⟩ := on_the_way (down (by decide)) (by decide) found (by decide)
    obtain ⟨at₁, rfl⟩ := descend_follows x (k := 2) (by decide) run₂ present
    rw [leaf rfl] at at₁
    subst at₁
    obtain ⟨granted, stores⟩ := writeLeaf_stores x run₁
    rw [single_store sound.pages (addressBits_aligned x _) last granted stores]
    simp
  · cases strays

theorem map_respects (known : prot ∈ Protection.constants P.flags) (small : phys < 2 ^ 52)
    (run : w.map P B s v phys prot = .ok (.ok old, s'))
    (none : stray P w.hhdm s.mem.word (pml4Phys s) v = none) : Respects P w s v phys s' := by
  obtain ⟨aligned, _⟩ := map_steps run
  rcases map_spec x supply phys prot sound aligned (stray_none sound.pages none) with
    ⟨e, stopped, _⟩ | ⟨s₁, _, refused, _⟩ | ⟨s₁, Held₁, s₂, returned, grown, stored⟩
  · rw [run] at stopped
    cases stopped
  · rw [run] at refused
    cases refused
  · rw [run] at returned
    obtain rfl : s' = s₂ := (Prod.mk.inj (Except.ok.inj returned)).2
    obtain ⟨leaf, entry⟩ : _ ∧ P.ptePhysAddr (P.pteEncode phys pageSize _) pageSize = _ := x.leaf_entry (x.policy known)
    have here := stored.here v rfl
    rw [if_pos leaf] at here
    have cr3 : pml4Phys s' = pml4Phys s := by
      unfold pml4Phys
      rw [stored.cr3, grown.cr3]
    have pages : PageTree P w.hhdm s'.mem.word (pml4Phys s') Held₁ := by
      rw [cr3]
      exact stored.sound.pages
    have read := translate_eq x w pages v
    have offset : v % pageSize = 0 := Nat.mod_eq_zero_of_dvd aligned.1
    rw [cr3, here, Option.map_some, physOf, entry, addressBits_of_dvd aligned.2 small, offset, Nat.add_zero] at read
    · exact ⟨read, (grown.footprint.trans grown.held stored.footprint).respects⟩
    · intro other
      cases other
    · intro other
      cases other

end Map
end Descent

/-- `map` keeps its promise on every address without a huge page over it. On the others it
stores to the stray page, which is in order only if that is a table by chance, or the very
frame that the allocator hands out. -/
theorem map_respects_huge_pages {w : PageTableWalker} (x : X86 P) (supply : Supplies w.hhdm B Ready)
    (sound : Sound P w.hhdm Ready (pml4Phys s) s Held) (known : prot ∈ Protection.constants P.flags)
    (small : phys < 2 ^ 52) (run : w.map P B s v phys prot = .ok (.ok old, s')) :
    (stray P w.hhdm s.mem.word (pml4Phys s) v = none → Respects P w s v phys s') ∧
    ∀ y, stray P w.hhdm s.mem.word (pml4Phys s) v = some y →
      (StoresRespect P w.hhdm (pml4Phys s) s s' ↔ IsTable P w.hhdm s.mem.word (pml4Phys s) y.page ∨
        y.grows = true ∧ ∃ b word, B s.buddy s.mem.word = .ok (some (y.page + w.hhdm), b, word)) :=
  ⟨map_respects x supply sound known small run, fun _ strays => stray_stores x supply sound run strays⟩

/-! The kernel's own tables: an HHDM of 2 MiB pages, and one page of image. -/

def window : Nat := 0xFFFF800000000000

def kernelTables : Except Panic (Machine (List (Option Nat))) :=
  Pml4.installKernelPml4 amd64 listSource window (Pml4.frameMachine 8)
    0xFFFFFFFF80000000 0xFFFFFFFF80000001 0x200000 0x400000

def mapped (v : Nat) : Except Panic (Machine (List (Option Nat)) ×
    Except MapError (Option Nat) × Machine (List (Option Nat))) := do
  let s ← kernelTables
  let (r, s') ← PageTableWalker.map amd64 listSource ⟨window⟩ s v 0x9000 (Protection.kernelRw amd64.flags)
  return (s, r, s')

theorem kernelTables_sound {s : Machine (List (Option Nat))} (run : kernelTables = .ok s) :
    ∃ Held, Sound amd64 window (ListReady window) (pml4Phys s) s Held := by
  have aligned : pageSize ∣ 0x200000 := by decide
  exact (Pml4.Installed.of_run amd64_x86 (listSource_supplies _) (Pml4.small_placement aligned (by decide))
    (Pml4.frameMachine_ready (n := 8) (by decide)) run).sound

theorem mapped_ok {α : Type} {v : Nat} {a : α}
    (view : Machine (List (Option Nat)) × Except MapError (Option Nat) × Machine (List (Option Nat)) → α)
    (returns : (mapped v).toOption.map (fun r => (r.2.1.toOption.isSome, view r)) = some (true, a)) :
    ∃ s old s', kernelTables = .ok s ∧ PageTableWalker.map amd64 listSource ⟨window⟩ s v 0x9000
      (Protection.kernelRw amd64.flags) = .ok (.ok old, s') ∧ view (s, .ok old, s') = a := by
  cases run : mapped v with
  | error e =>
    rw [run] at returns
    cases returns
  | ok r =>
    obtain ⟨s, tables, rest⟩ := ok_of_bind run
    obtain ⟨⟨answer, s'⟩, stores, rest⟩ := ok_of_bind rest
    obtain rfl := Except.ok.inj rest
    rw [run] at returns
    obtain ⟨some_, seen⟩ := Prod.mk.inj (Option.some.inj returns)
    cases answer with
    | error e => cases some_
    | ok old => exact ⟨s, old, s', tables, stores, seen⟩

theorem map_respects_huge_pages_image : ∃ s old s', kernelTables = .ok s ∧
    PageTableWalker.map amd64 listSource ⟨window⟩ s 0xFFFFFFFF80001000 0x9000
      (Protection.kernelRw amd64.flags) = .ok (.ok old, s') ∧
    Respects amd64 ⟨window⟩ s 0xFFFFFFFF80001000 0x9000 s' := by
  obtain ⟨s, old, s', tables, run, clear⟩ := mapped_ok (v := 0xFFFFFFFF80001000) (a := none)
    (fun r => stray amd64 window r.1.mem.word (pml4Phys r.1) 0xFFFFFFFF80001000) (by decide +kernel)
  obtain ⟨Held, sound⟩ := kernelTables_sound tables
  have spec := map_respects_huge_pages amd64_x86 (listSource_supplies _) sound
    (by simp [Protection.constants]) (by decide) run
  exact ⟨s, old, s', tables, run, spec.1 clear⟩

/-- Inside the HHDM `map` reports success, writes its entry over the word at physical 0x28,
and the address keeps its old translation. -/
theorem huge_page_overwritten : ∃ s old s', kernelTables = .ok s ∧
    (∃ Held, Sound amd64 window (ListReady window) (pml4Phys s) s Held) ∧
    PageTableWalker.map amd64 listSource ⟨window⟩ s (window + 0x5000) 0x9000
      (Protection.kernelRw amd64.flags) = .ok (.ok old, s') ∧
    s'.mem.stores = (window + 0x28) :: s.mem.stores ∧
    PageTableWalker.translate amd64 ⟨window⟩ s' (window + 0x28) = .ok (some 0x28) ∧
    ¬ Respects amd64 ⟨window⟩ s (window + 0x5000) 0x9000 s' := by
  obtain ⟨s, old, s', tables, run, seen⟩ := mapped_ok (v := window + 0x5000)
    (a := (true, some (some 0x28), some (some 0x5000)))
    (fun r => (decide (r.2.2.mem.stores = (window + 0x28) :: r.1.mem.stores),
      (PageTableWalker.translate amd64 ⟨window⟩ r.2.2 (window + 0x28)).toOption,
      (PageTableWalker.translate amd64 ⟨window⟩ r.2.2 (window + 0x5000)).toOption)) (by decide +kernel)
  obtain ⟨stored, low, kept⟩ : _ ∧ _ ∧ _ := by simpa only [Prod.mk.injEq] using seen
  have answer {v p : Nat} (h : (PageTableWalker.translate amd64 ⟨window⟩ s' v).toOption = some (some p)) :
      PageTableWalker.translate amd64 ⟨window⟩ s' v = .ok (some p) := by
    cases read : PageTableWalker.translate amd64 ⟨window⟩ s' v with
    | error e =>
      rw [read] at h
      cases h
    | ok r =>
      rw [read] at h
      exact congrArg Except.ok (Option.some.inj h)
  refine ⟨s, old, s', tables, kernelTables_sound tables, run, of_decide_eq_true stored, answer low, ?_⟩
  intro respects
  have moved := respects.translated
  rw [answer kept] at moved
  cases moved

end CrustyOs.Mantle
