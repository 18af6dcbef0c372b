import CrustyOs.Mantle.Frames

/-! A page-table tree that gains tables and nothing else: what `descend_or_create` does on
the way down, whichever of the two it is. -/
namespace CrustyOs.Mantle
open Lib Abalone

variable {σ : Type}

/-- The tables at `root` are a tree in held frames, and the allocator may be called. -/
structure Sound (P : Paging) (hhdm : Nat) (Ready : σ → (Nat → Nat) → (Nat → Prop) → Prop) (root : Nat)
    (s : Machine σ) (Held : Nat → Prop) : Prop where
  pages : PageTree P hhdm s.mem.word root Held
  ready : Ready s.buddy s.mem.word Held

/-- Every store went to a table of the tree or to a frame just obtained, which was not in
use; every new table is in such a frame. -/
def Footprint (P : Paging) (hhdm root : Nat) (Held : Nat → Prop) (s s' : Machine σ) : Prop :=
  ∃ stores new, s'.mem.stores = stores ++ s.mem.stores ∧ s'.granted = new ++ s.granted ∧
    (∀ f, f + hhdm ∈ new → ¬ Held f) ∧
    (∀ a ∈ stores, ∃ f, (IsTable P hhdm s.mem.word root f ∨ f + hhdm ∈ new) ∧ InFrame hhdm f a) ∧
    ∀ f, IsTable P hhdm s'.mem.word root f → IsTable P hhdm s.mem.word root f ∨ f + hhdm ∈ new

structure Grown (P : Paging) (hhdm : Nat) (Ready : σ → (Nat → Nat) → (Nat → Prop) → Prop) (root : Nat)
    (s : Machine σ) (Held : Nat → Prop) (s' : Machine σ) (Held' : Nat → Prop) : Prop where
  cr3 : s'.cr3 = s.cr3
  sound : Sound P hhdm Ready root s' Held'
  held : ∀ f, Held f → Held' f
  finds : ∀ p, (radix P hhdm).Path p →
    (radix P hhdm).find s'.mem.word 0 root p = (radix P hhdm).find s.mem.word 0 root p
  footprint : Footprint P hhdm root Held s s'

variable {P : Paging} {hhdm root f t i w : Nat} {B : FrameSource σ} {s s₁ s₂ s' : Machine σ}
  {Ready : σ → (Nat → Nat) → (Nat → Prop) → Prop} {Held Held₁ Held₂ : Nat → Prop} {p : List Nat}
  {word word' : Nat → Nat}

theorem Footprint.refl (s : Machine σ) : Footprint P hhdm root Held s s :=
  ⟨[], [], rfl, rfl, by simp, by simp, fun _ h => Or.inl h⟩

theorem Footprint.trans (h : Footprint P hhdm root Held s s₁) (sub : ∀ f, Held f → Held₁ f)
    (h' : Footprint P hhdm root Held₁ s₁ s₂) : Footprint P hhdm root Held s s₂ := by
  obtain ⟨stores, new, e, g, fresh, inside, tables⟩ := h
  obtain ⟨stores', new', e', g', fresh', inside', tables'⟩ := h'
  have widen : ∀ f, IsTable P hhdm s₁.mem.word root f ∨ f + hhdm ∈ new' →
      IsTable P hhdm s.mem.word root f ∨ f + hhdm ∈ new' ++ new := by
    rintro f (old | fresh)
    · exact (tables f old).imp_right (List.mem_append_right _)
    · exact Or.inr (List.mem_append_left _ fresh)
  refine ⟨stores' ++ stores, new' ++ new, by rw [e', e, List.append_assoc],
    by rw [g', g, List.append_assoc], fun f hf => ?_, fun a ha => ?_, fun f hf => widen f (tables' f hf)⟩
  · cases List.mem_append.mp hf with
    | inl hf => exact fun old => fresh' f hf (sub f old)
    | inr hf => exact fresh f hf
  cases List.mem_append.mp ha with
  | inl ha =>
    obtain ⟨f, from_, frame⟩ := inside' a ha
    exact ⟨f, widen f from_, frame⟩
  | inr ha =>
    obtain ⟨f, from_, frame⟩ := inside a ha
    exact ⟨f, from_.imp_right (List.mem_append_right _), frame⟩

theorem Grown.refl (h : Sound P hhdm Ready root s Held) : Grown P hhdm Ready root s Held s Held :=
  ⟨rfl, h, fun _ => id, fun _ _ => rfl, .refl s⟩

theorem Grown.trans (h : Grown P hhdm Ready root s Held s₁ Held₁)
    (h' : Grown P hhdm Ready root s₁ Held₁ s₂ Held₂) : Grown P hhdm Ready root s Held s₂ Held₂ :=
  ⟨h'.cr3.trans h.cr3, h'.sound, fun f hf => h'.held f (h.held f hf),
    fun p hp => (h'.finds p hp).trans (h.finds p hp), h.footprint.trans h.held h'.footprint⟩

theorem PageTree.kept (h : PageTree P hhdm word root Held) (keeps : Keeps hhdm Held word word') :
    PageTree P hhdm word' root Held ∧ ∀ p, (radix P hhdm).Path p →
      (radix P hhdm).tableAt word' 0 root p = (radix P hhdm).tableAt word 0 root p ∧
        (radix P hhdm).find word' 0 root p = (radix P hhdm).find word 0 root p := by
  obtain ⟨tree, walks⟩ := h.tree.congr fun t i ht hi => keeps t _ ht.2 (word_inFrame hi)
  exact ⟨⟨tree, fun p d e hp he => h.top p d e hp ((walks p hp).2 ▸ he)⟩, walks⟩

theorem PageTree.mono (h : PageTree P hhdm word root Held) (sub : ∀ f, Held f → Held₁ f) :
    PageTree P hhdm word root Held₁ :=
  ⟨h.tree.mono fun f hf => ⟨hf.1, sub f hf.2⟩, h.top⟩

theorem PageTree.empty (x : X86 P) (frame : Frame hhdm root) (Held : Nat → Prop) (held : Held root)
    (zero : ∀ i < 512, word (root + hhdm + 8 * i) = 0) :
    PageTree P hhdm word root Held ∧ (∀ f, IsTable P hhdm word root f → f = root) ∧
      ∀ p, (radix P hhdm).Path p → (radix P hhdm).find word 0 root p = none := by
  have blank : (radix P hhdm).Blank word 0 root := by
    intro i hi
    show slot P 0 (word (root + hhdm + 8 * i)) = .empty
    rw [zero i hi]
    exact slot_absent (by rw [x.present, Nat.zero_testBit])
  have only : ∀ p t, (radix P hhdm).Path p → (radix P hhdm).tableAt word 0 root p = some t →
      p = [] ∧ t = root := by
    intro p t hp ht
    obtain rfl := (blank.nothing hp).2 t ht
    exact ⟨rfl, (Option.some.inj ht).symm⟩
  refine ⟨⟨⟨fun p t hp ht => ?_, fun p q t hp hq ht ht' => ?_⟩, fun p d e hp he => ?_⟩, ?_,
    fun p hp => (blank.nothing hp).1⟩
  · rw [(only p t hp ht).2]
    exact ⟨frame, held⟩
  · rw [(only p t hp ht).1, (only q t hq ht').1]
  · rw [(blank.nothing hp).1] at he
    cases he
  · rintro f ⟨p, hp, hf⟩
    exact (only p f hp hf).2

theorem Refused.grown (h : Refused hhdm Ready Held s s') (sound : Sound P hhdm Ready root s Held) :
    Grown P hhdm Ready root s Held s' Held := by
  obtain ⟨pages, walks⟩ := sound.pages.kept h.keeps
  refine ⟨h.cr3, ⟨pages, h.ready⟩, fun _ => id, fun p hp => (walks p hp).2, [], [], h.stores, h.granted,
    by simp, by simp, ?_⟩
  rintro f ⟨p, hp, hf⟩
  exact Or.inl ⟨p, hp, (walks p hp).1 ▸ hf⟩

theorem Zeroed.link (h : Zeroed hhdm Ready Held s f s') (x : X86 P)
    (supply : Supplies hhdm B Ready) (sound : Sound P hhdm Ready root s Held)
    (hp : (radix P hhdm).Path (p ++ [i]))
    (ht : (radix P hhdm).tableAt s.mem.word 0 root p = some t)
    (vacant : slot P p.length (s.mem.word (t + hhdm + 8 * i)) = .empty)
    (child : slot P p.length w = .child f) :
    Grown P hhdm Ready root s Held { s' with mem := s'.mem.write (t + hhdm + 8 * i) w } (Holding f Held) ∧
      (radix P hhdm).tableAt (s'.mem.write (t + hhdm + 8 * i) w).word 0 root (p ++ [i]) = some f := by
  obtain ⟨hp₀, hi⟩ := Radix.path_append.mp hp
  have hi : i < 512 := (Radix.path_cons.mp hi).1
  have ht_held : Frame hhdm t ∧ Held t := sound.pages.tree.table p t hp₀ ht
  obtain ⟨pages, walks⟩ := sound.pages.kept h.keeps
  have pages := pages.mono fun g hg => (Or.inr hg : Holding f Held g)
  have here : s'.mem.word (t + hhdm + 8 * i) = s.mem.word (t + hhdm + 8 * i) :=
    h.keeps t _ ht_held.2 (word_inFrame hi)
  have off : ∀ a, a ≠ t + hhdm + 8 * i →
      (s'.mem.write (t + hhdm + 8 * i) w).word a = s'.mem.word a :=
    fun a ne => Memory.read_write_other _ _ ne
  have stored : (s'.mem.write (t + hhdm + 8 * i) w).word (t + hhdm + 8 * i) = w :=
    Memory.read_write_same _ _ _
  have fresh : ∀ q, (radix P hhdm).Path q → (radix P hhdm).tableAt s'.mem.word 0 root q ≠ some f := by
    intro q hq hf
    rw [(walks q hq).1] at hf
    exact h.fresh (sound.pages.tree.table q f hq hf).2
  have ne : t ≠ f := by
    rintro rfl
    exact h.fresh ht_held.2
  have blank : (radix P hhdm).Blank (s'.mem.write (t + hhdm + 8 * i) w).word (p.length + 1) f := by
    intro j hj
    have apart : f + hhdm + 8 * j ≠ t + hhdm + 8 * i := by
      intro same
      have both : InFrame hhdm f (f + hhdm + 8 * j) := word_inFrame hj
      rw [same] at both
      exact frames_apart ht_held.1.aligned h.frame.aligned ne (word_inFrame hi) both
    have zero : (s'.mem.write (t + hhdm + 8 * i) w).word (f + hhdm + 8 * j) = 0 :=
      (off _ apart).trans (h.blank j hj)
    show slot P (p.length + 1) ((s'.mem.write (t + hhdm + 8 * i) w).word (f + hhdm + 8 * j)) = .empty
    rw [zero]
    exact slot_absent (by rw [x.present, Nat.zero_testBit])
  have vacant' : (radix P hhdm).slot p.length (s'.mem.word ((radix P hhdm).cell t i)) = .empty := by
    show slot P p.length (s'.mem.word (t + hhdm + 8 * i)) = .empty
    rw [here, vacant]
  obtain ⟨tree, at_new, tables, finds⟩ := pages.tree.grow frames_spaced
    ((walks p hp₀).1.trans ht) hp off stored child vacant' ⟨h.frame, Or.inl rfl⟩ fresh blank
  refine ⟨⟨h.cr3, ⟨⟨tree, fun q d e hq he => ?_⟩, ?_⟩, fun g hg => Or.inr hg, fun q hq => ?_, ?_⟩, at_new⟩
  · exact pages.top q d e hq ((finds q hq) ▸ he)
  · apply supply.stored _ _ _ _ h.ready
    intro a changed
    by_contra outside
    apply changed
    apply off
    rintro rfl
    exact outside ⟨t, Or.inr ht_held.2, word_inFrame hi⟩
  · exact (finds q hq).trans (walks q hq).2
  · obtain ⟨new, stores, inside⟩ := h.stores
    refine ⟨(t + hhdm + 8 * i) :: new, [f + hhdm], by rw [Memory.write, stores]; rfl, h.granted,
      fun g hg => ?_, fun a ha => ?_, ?_⟩
    · have same : g = f := Nat.add_right_cancel (List.mem_singleton.mp hg)
      exact same ▸ h.fresh
    · cases List.mem_cons.mp ha with
      | inl here => exact ⟨t, Or.inl ⟨p, hp₀, ht⟩, here ▸ word_inFrame hi⟩
      | inr ha => exact ⟨f, Or.inr (List.mem_singleton.mpr rfl), inside a ha⟩
    · rintro g ⟨q, hq, hg⟩
      rcases tables q g hq hg with rfl | old
      · exact Or.inr (List.mem_singleton.mpr rfl)
      · exact Or.inl ⟨q, hq, (walks q hq).1 ▸ old⟩

end CrustyOs.Mantle
