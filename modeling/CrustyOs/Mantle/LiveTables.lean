import CrustyOs.Mantle.MemoryTypes

/-! The walker on tables with a window of huge pages, as the kernel's own are: what each call
does to the page of every address, its frame, its rights and its memory type. -/
namespace CrustyOs.Mantle
open Lib Abalone PageTableWalker

def Page.reach (page : Page) (u : Nat) : Page := { page with phys := page.phys + u % pageSize }

def setPage (T : Nat → Option Page) (v : Nat) (page : Option Page) (u : Nat) : Option Page :=
  if u / pageSize = v / pageSize then page.map (·.reach u) else T u

/-- The account of one call, over the pages before and after it. In the window a page cannot be
taken out. -/
inductive Effect (Window : Nat → Prop) (T : Nat → Option Page) : WalkerOp → WalkerOut → (Nat → Option Page) → Prop where
  | misaligned {v phys prot} (bad : ¬ (pageSize ∣ v ∧ pageSize ∣ phys)) :
      Effect Window T (.map v phys prot) (.mapped (.error .misaligned)) T
  | outOfFrames {v phys prot} (aligned : pageSize ∣ v ∧ pageSize ∣ phys) :
      Effect Window T (.map v phys prot) (.mapped (.error .outOfFrames)) T
  | map {v phys prot} (aligned : pageSize ∣ v ∧ pageSize ∣ phys) :
      Effect Window T (.map v phys prot) (.mapped (.ok ((T v).map Page.phys))) (setPage T v (some (prot.page phys)))
  | unmap {v} (outside : ¬ Window v) : Effect Window T (.unmap v) .unmapped (setPage T v none)
  | windowed {v} (inside : Window v) : Effect Window T (.unmap v) .unmapped T
  | translate {v} : Effect Window T (.translate v) (.translated ((T v).map Page.phys)) T

variable {σ : Type} {P : Paging} {B : FrameSource σ} {w : PageTableWalker} {s s' : Machine σ}
  {Ready : σ → (Nat → Nat) → (Nat → Prop) → Prop} {Held : Nat → Prop} {Window : Nat → Prop} {T : Nat → Option Page}
  {u v : Nat}

def WalkerOp.Outside (P : Paging) (Window : Nat → Prop) (op : WalkerOp) : Prop :=
  op.Valid P ∧ ∀ v phys prot, op = .map v phys prot → ¬ Window v

theorem Effect.window {op : WalkerOp} {out : WalkerOut} {T' : Nat → Option Page} (h : Effect Window T op out T')
    (whole : ∀ u v, u / pageSize = v / pageSize → Window u → Window v) (low : op.Outside P Window) (inside : Window v) :
    T' v = T v := by
  cases h with
  | misaligned _ => rfl
  | outOfFrames _ => rfl
  | map _ => exact if_neg fun same => low.2 _ _ _ rfl (whole _ _ same inside)
  | unmap outside => exact if_neg fun same => outside (whole _ _ same inside)
  | windowed _ => rfl
  | translate => rfl

/-- Tables with the pages of `T`, huge ones in the window and small ones elsewhere. -/
structure Translates (P : Paging) (w : PageTableWalker) (Ready : σ → (Nat → Nat) → (Nat → Prop) → Prop)
    (Window : Nat → Prop) (s : Machine σ) (Held : Nat → Prop) (T : Nat → Option Page) : Prop where
  sound : Sound P w.hhdm Ready (pml4Phys s) s Held
  reads : ∀ v, Canonical v → (lookup P w.hhdm s.mem.word (pml4Phys s) v).map (pageOf P v) = T v
  huge : ∀ v, Canonical v → Window v → ∃ d e, lookup P w.hhdm s.mem.word (pml4Phys s) v = some (d, e) ∧ d < 3
  small : ∀ v, Canonical v → ¬ Window v → ∀ d e, lookup P w.hhdm s.mem.word (pml4Phys s) v = some (d, e) → d = 3

namespace Translates

theorem clear (h : Translates P w Ready Window s Held T) (hv : Canonical v) (outside : ¬ Window v) :
    Clear P w.hhdm s.mem.word (pml4Phys s) v 3 :=
  fun d e found => (h.small v hv outside d e found).ge

theorem translate (h : Translates P w Ready Window s Held T) (x : X86 P) (hv : Canonical v) :
    w.translate P s v = .ok ((T v).map Page.phys) := by
  rw [translate_eq x w h.sound.pages v, ← h.reads v hv, Option.map_map]
  rfl

theorem frame (h : Translates P w Ready Window s Held T) (hv : Canonical v) (outside : ¬ Window v)
    (aligned : pageSize ∣ v) :
    ((lookup P w.hhdm s.mem.word (pml4Phys s) v).map fun leaf => P.ptePhysAddr leaf.2 pageSize) =
      (T v).map Page.phys := by
  rw [← h.reads v hv]
  cases found : lookup P w.hhdm s.mem.word (pml4Phys s) v with
  | none => rfl
  | some leaf =>
    obtain ⟨d, e⟩ := leaf
    obtain rfl := h.small v hv outside d e found
    rw [Option.map_some, Option.map_some, Option.map_some, pageOf, physOf, Nat.mod_eq_zero_of_dvd aligned, Nat.add_zero]
    · rintro ⟨⟩
    · rintro ⟨⟩

theorem grown {Held' : Nat → Prop} (h : Translates P w Ready Window s Held T)
    (grown : Grown P w.hhdm Ready (pml4Phys s) s Held s' Held') : Translates P w Ready Window s' Held' T := by
  have root := pml4Phys_congr grown.cr3
  have same : ∀ v, lookup P w.hhdm s'.mem.word (pml4Phys s') v = lookup P w.hhdm s.mem.word (pml4Phys s) v :=
    fun v => root ▸ grown.finds _ (path_path v)
  refine ⟨root ▸ grown.sound, fun v hv => ?_, fun v hv inside => ?_, fun v hv outside => ?_⟩
  · rw [same v]
    exact h.reads v hv
  · rw [same v]
    exact h.huge v hv inside
  · rw [same v]
    exact h.small v hv outside

theorem stored {entry : Nat} {page : Option Page} (h : Translates P w Ready Window s Held T) (hv : Canonical v)
    (whole : ∀ u, u / pageSize = v / pageSize → ¬ Window u)
    (leaf : ∀ u, (if slot P 3 entry = .leaf then some ((3, entry) : Nat × Nat) else none).map (pageOf P u) =
      page.map (·.reach u))
    (stored : Stored P w.hhdm Ready (pml4Phys s) s Held v 3 entry s') :
    Translates P w Ready Window s' Held (setPage T v page) := by
  have root := pml4Phys_congr stored.cr3
  have here : ∀ u, Canonical u → u / pageSize = v / pageSize →
      lookup P w.hhdm s'.mem.word (pml4Phys s') u = if slot P 3 entry = .leaf then some (3, entry) else none := by
    intro u hu same
    rw [root]
    exact stored.here u ((path_eq_iff hu hv).mpr same)
  have other : ∀ u, Canonical u → u / pageSize ≠ v / pageSize →
      lookup P w.hhdm s'.mem.word (pml4Phys s') u = lookup P w.hhdm s.mem.word (pml4Phys s) u := by
    intro u hu ne
    rw [root]
    exact stored.other u fun e => ne ((path_eq_iff hu hv).mp e)
  refine ⟨root ▸ stored.sound, fun u hu => ?_, fun u hu inside => ?_, fun u hu out d e found => ?_⟩
  · unfold setPage
    by_cases same : u / pageSize = v / pageSize
    · rw [here u hu same, if_pos same]
      exact leaf u
    · rw [other u hu same, if_neg same]
      exact h.reads u hu
  · rw [other u hu fun same => whole u same inside]
    exact h.huge u hu inside
  · by_cases same : u / pageSize = v / pageSize
    · rw [here u hu same] at found
      split at found
      · exact (Prod.mk.inj (Option.some.inj found)).1.symm
      · cases found
    · rw [other u hu same] at found
      exact h.small u hu out d e found

theorem kept {τ : Type} {Ready' : τ → (Nat → Nat) → (Nat → Prop) → Prop} {s' : Machine τ}
    (h : Translates P w Ready Window s Held T) (root : s'.cr3 = s.cr3)
    (keeps : Keeps w.hhdm Held s.mem.word s'.mem.word) (ready : Ready' s'.buddy s'.mem.word Held) :
    Translates P w Ready' Window s' Held T := by
  have root : pml4Phys s' = pml4Phys s := by
    unfold pml4Phys
    rw [root]
  obtain ⟨tree, walks⟩ := h.sound.pages.kept keeps
  have same : ∀ v, lookup P w.hhdm s'.mem.word (pml4Phys s') v = lookup P w.hhdm s.mem.word (pml4Phys s) v :=
    fun v => root ▸ (walks _ (path_path v)).2
  refine ⟨root ▸ ⟨tree, ready⟩, fun v hv => ?_, fun v hv inside => ?_, fun v hv outside => ?_⟩
  · rw [same v]
    exact h.reads v hv
  · rw [same v]
    exact h.huge v hv inside
  · rw [same v]
    exact h.small v hv outside

theorem held {Ready' : σ → (Nat → Nat) → (Nat → Prop) → Prop} {Held' : Nat → Prop}
    (h : Translates P w Ready Window s Held T) (ready : Ready' s.buddy s.mem.word Held')
    (sub : ∀ f, Frame w.hhdm f → Held f → Held' f) : Translates P w Ready' Window s Held' T :=
  ⟨⟨⟨h.sound.pages.tree.mono fun f hf => ⟨hf.1, sub f hf.1 hf.2⟩, h.sound.pages.top⟩, ready⟩, h.reads, h.huge, h.small⟩

theorem unmap_huge (h : Translates P w Ready Window s Held T) (x : X86 P) (hv : Canonical v) (inside : Window v) :
    w.unmap P s v = .ok s := by
  obtain ⟨d, e, found, above⟩ := h.huge v hv inside
  rcases walkExisting_spec x h.sound.pages (k := 0) (v := v) (by decide) rfl with ⟨run₄, _⟩ | ⟨t₃, run₄, ht₃⟩
  · simp only [unmap, run₄, bind, Except.bind]
    rfl
  rcases walkExisting_spec x h.sound.pages (by decide) ht₃ with ⟨run₃, _⟩ | ⟨t₂, run₃, ht₂⟩
  · simp only [unmap, run₄, run₃, bind, Except.bind]
    rfl
  rcases walkExisting_spec x h.sound.pages (by decide) ht₂ with ⟨run₂, _⟩ | ⟨t₁, run₂, ht₁⟩
  · simp only [unmap, run₄, run₃, run₂, bind, Except.bind]
    rfl
  -- a table at the last level would have the leaf below it
  obtain ⟨whole, _, length⟩ := path_split v (k := 3) (by decide)
  have split := Radix.find_append (q := (path v).getD 3 0 :: (path v).drop 4) ht₁
  rw [← whole, length] at split
  have depth := Radix.find_depth (split.symm.trans found)
  omega

end Translates

theorem live_step {op : WalkerOp} (x : X86 P) (supply : Supplies w.hhdm B Ready) (returns : ¬ Fails B Ready)
    (whole : ∀ u v, u / pageSize = v / pageSize → Window u → Window v) (h : Translates P w Ready Window s Held T)
    (valid : op.Outside P Window) :
    ∃ out s' Held' T', op.exec P B w s = .ok (out, s') ∧ s'.cr3 = s.cr3 ∧ Effect Window T op out T' ∧
      Translates P w Ready Window s' Held' T' := by
  obtain ⟨valid, low⟩ := valid
  cases op with
  | map v phys prot =>
    obtain ⟨hv, small, known⟩ := valid
    have outside := low v phys prot rfl
    by_cases aligned : pageSize ∣ v ∧ pageSize ∣ phys
    · rcases map_spec x supply phys prot h.sound aligned (h.clear hv outside) with
        ⟨_, _, fails⟩ | ⟨s', Held', run, grown, _⟩ | ⟨s₁, Held₁, s', run, grown, stored⟩
      · exact absurd fails returns
      · exact ⟨_, s', Held', T, by simp only [WalkerOp.exec, run, bind, Except.bind]; rfl, grown.cr3,
          .outOfFrames aligned, h.grown grown⟩
      · have root := pml4Phys_congr grown.cr3
        rw [← root] at stored
        rw [h.frame hv outside aligned.1] at run
        have leaf : slot P 3 (P.pteEncode phys pageSize (P.flags.present ||| prot.bits)) = .leaf :=
          (x.leaf_entry (x.policy known)).1
        refine ⟨_, s', Held₁, _, by simp only [WalkerOp.exec, run, bind, Except.bind]; rfl,
          stored.cr3.trans grown.cr3, .map aligned, (h.grown grown).stored hv
            (fun u same inside => outside (whole u v same inside)) (fun u => ?_) stored⟩
        rw [if_pos leaf, Option.map_some, Option.map_some]
        exact congrArg some (x.leaf_page known aligned.2 small u)
    · have guard : v &&& (pageSize - 1) ≠ 0 ∨ phys &&& (pageSize - 1) ≠ 0 := by
        rw [and_page_zero, and_page_zero]
        tauto
      exact ⟨_, s, Held, T, by simp only [WalkerOp.exec, PageTableWalker.map, guard, if_true, bind, Except.bind]; rfl, rfl,
        .misaligned aligned, h⟩
  | unmap v =>
    by_cases inside : Window v
    · exact ⟨_, s, Held, T, by simp only [WalkerOp.exec, h.unmap_huge x valid inside, bind, Except.bind]; rfl, rfl,
        .windowed inside, h⟩
    · rcases unmap_spec x supply h.sound v with ⟨run, high⟩ | ⟨s', run, stored⟩
      · -- nothing was mapped
        refine ⟨_, s, Held, _, by simp only [WalkerOp.exec, run, bind, Except.bind]; rfl, rfl, .unmap inside, ?_⟩
        have absent : ∀ u, Canonical u → u / pageSize = v / pageSize →
            lookup P w.hhdm s.mem.word (pml4Phys s) u = none := by
          intro u hu same
          have along : path u = path v := (path_eq_iff hu valid).mpr same
          unfold lookup
          rw [along]
          cases found : (radix P w.hhdm).find s.mem.word 0 (pml4Phys s) (path v) with
          | none => rfl
          | some leaf =>
            have deep := h.small v valid inside _ _ found
            exact absurd (high _ _ found) (by omega)
        refine ⟨h.sound, fun u hu => ?_, h.huge, h.small⟩
        unfold setPage
        by_cases same : u / pageSize = v / pageSize
        · rw [if_pos same, absent u hu same]
          rfl
        · rw [if_neg same]
          exact h.reads u hu
      · have empty : slot P 3 0 = .empty := slot_absent (by rw [x.present, Nat.zero_testBit])
        refine ⟨_, s', Held, _, by simp only [WalkerOp.exec, run, bind, Except.bind]; rfl, stored.cr3,
          .unmap inside, h.stored valid (fun u same within => inside (whole u v same within)) (fun u => ?_) stored⟩
        rw [empty]
        rfl
  | translate v =>
    have run := h.translate x valid
    exact ⟨_, s, Held, T, by simp only [WalkerOp.exec, run, bind, Except.bind]; rfl, rfl, .translate, h⟩

end CrustyOs.Mantle
