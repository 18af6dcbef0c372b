import CrustyOs.Mantle.PageTree

/-! The allocator behind page-table code: what it promises about the frames it hands
out, and what a zeroed frame leaves untouched. -/
namespace CrustyOs.Mantle
open Lib Abalone

def InFrame (hhdm f a : Nat) : Prop := f + hhdm ≤ a ∧ a < f + hhdm + pageSize

def Keeps (hhdm : Nat) (Held : Nat → Prop) (word word' : Nat → Nat) : Prop :=
  ∀ f a, Held f → InFrame hhdm f a → word' a = word a

def Holding (f : Nat) (Held : Nat → Prop) (g : Nat) : Prop := g = f ∨ Held g

/-- `Ready b word Held`: the allocator may be called while the frames `Held` are in use. It
hands out frames that are not, and neither side touches the other's words. -/
structure Supplies {σ : Type} (hhdm : Nat) (B : FrameSource σ)
    (Ready : σ → (Nat → Nat) → (Nat → Prop) → Prop) : Prop where
  held : ∀ b word Held f, Ready b word Held → Held f → Frame hhdm f
  granted : ∀ b word Held virt b' word', Ready b word Held → B b word = .ok (some virt, b', word') →
    ∃ f, virt = f + hhdm ∧ Frame hhdm f ∧ ¬ Held f ∧ Ready b' word' (Holding f Held) ∧
      Keeps hhdm Held word word'
  refused : ∀ b word Held b' word', Ready b word Held → B b word = .ok (none, b', word') →
    Ready b' word' Held ∧ Keeps hhdm Held word word'
  stored : ∀ b word Held word', Ready b word Held →
    (∀ a, word' a ≠ word a → ∃ f, Held f ∧ InFrame hhdm f a) → Ready b word' Held

def Fails {σ : Type} (B : FrameSource σ) (Ready : σ → (Nat → Nat) → (Nat → Prop) → Prop) : Prop :=
  ∃ b word Held e, Ready b word Held ∧ B b word = .error e

/-- The last thing that happened on the way to `s` is that the allocator refused a frame. -/
def Refuses {σ : Type} (B : FrameSource σ) (Ready : σ → (Nat → Nat) → (Nat → Prop) → Prop)
    (s : Machine σ) : Prop :=
  ∃ b word Held, Ready b word Held ∧ B b word = .ok (none, s.buddy, s.mem.word)

variable {σ : Type} {hhdm f g a i : Nat} {B : FrameSource σ} {s s' : Machine σ} {P : Paging}
  {Ready : σ → (Nat → Nat) → (Nat → Prop) → Prop} {Held : Nat → Prop} {word word₁ word₂ : Nat → Nat}

theorem word_inFrame (hi : i < 512) : InFrame hhdm f (f + hhdm + 8 * i) := by
  unfold InFrame pageSize
  omega

theorem frames_apart (hf : pageSize ∣ f) (hg : pageSize ∣ g) (ne : f ≠ g) (ha : InFrame hhdm f a) :
    ¬ InFrame hhdm g a := by
  obtain ⟨k, rfl⟩ := hf
  obtain ⟨l, rfl⟩ := hg
  unfold InFrame pageSize at *
  omega

theorem Keeps.refl (word : Nat → Nat) : Keeps hhdm Held word word := fun _ _ _ _ => rfl

theorem Keeps.trans (h : Keeps hhdm Held word word₁) (h' : Keeps hhdm Held word₁ word₂) :
    Keeps hhdm Held word word₂ :=
  fun f a hf ha => (h' f a hf ha).trans (h f a hf ha)

structure Zeroed (hhdm : Nat) (Ready : σ → (Nat → Nat) → (Nat → Prop) → Prop) (Held : Nat → Prop)
    (s : Machine σ) (f : Nat) (s' : Machine σ) : Prop where
  cr3 : s'.cr3 = s.cr3
  granted : s'.granted = (f + hhdm) :: s.granted
  frame : Frame hhdm f
  fresh : ¬ Held f
  ready : Ready s'.buddy s'.mem.word (Holding f Held)
  keeps : Keeps hhdm Held s.mem.word s'.mem.word
  blank : ∀ i < 512, s'.mem.word (f + hhdm + 8 * i) = 0
  stores : ∃ new, s'.mem.stores = new ++ s.mem.stores ∧ ∀ a ∈ new, InFrame hhdm f a

structure Refused (hhdm : Nat) (Ready : σ → (Nat → Nat) → (Nat → Prop) → Prop) (Held : Nat → Prop)
    (s s' : Machine σ) : Prop where
  cr3 : s'.cr3 = s.cr3
  granted : s'.granted = s.granted
  ready : Ready s'.buddy s'.mem.word Held
  keeps : Keeps hhdm Held s.mem.word s'.mem.word
  stores : s'.mem.stores = s.mem.stores

theorem fill_zero (m : Memory) (table n : Nat) :
    (∀ i < n, (m.fill table 0 n).word (table + 8 * i) = 0) ∧
      (∀ a, (∃ i < n, a = table + 8 * i) ∨ (m.fill table 0 n).word a = m.word a) ∧
      ∃ new, (m.fill table 0 n).stores = new ++ m.stores ∧ ∀ a ∈ new, ∃ i < n, a = table + 8 * i := by
  have filled := m.read_fill table 0 n
  refine ⟨fun i hi => (filled _).trans (if_pos ⟨i, hi, rfl⟩), fun a => ?_, ?_⟩
  · by_cases here : ∃ i < n, a = table + 8 * i
    · exact Or.inl here
    · exact Or.inr ((filled a).trans (if_neg here))
  · clear filled
    induction n with
    | zero => exact ⟨[], rfl, by simp⟩
    | succ n ih =>
      obtain ⟨new, stores, inside⟩ := ih
      refine ⟨(table + 8 * n) :: new, by rw [Memory.fill, Memory.write, stores]; rfl, fun a ha => ?_⟩
      cases List.mem_cons.mp ha with
      | inl here => exact ⟨n, Nat.lt_succ_self n, here⟩
      | inr ha =>
        obtain ⟨i, hi, e⟩ := inside a ha
        exact ⟨i, Nat.lt_succ_of_lt hi, e⟩

theorem zero_spec (m : Memory) (hhdm f : Nat) :
    (∀ i < 512, (PageTable.zero m (f + hhdm)).word (f + hhdm + 8 * i) = 0) ∧
      (∀ a, InFrame hhdm f a ∨ (PageTable.zero m (f + hhdm)).word a = m.word a) ∧
      ∃ new, (PageTable.zero m (f + hhdm)).stores = new ++ m.stores ∧ ∀ a ∈ new, InFrame hhdm f a := by
  unfold PageTable.zero
  obtain ⟨zero, same, new, stores, inside⟩ := fill_zero m (f + hhdm) 512
  refine ⟨zero, fun a => (same a).imp_left ?_, new, stores, fun a ha => ?_⟩
  · rintro ⟨i, hi, rfl⟩
    exact word_inFrame hi
  · obtain ⟨i, hi, rfl⟩ := inside a ha
    exact word_inFrame hi

theorem zeroed {b' : σ} {word' : Nat → Nat} {m' : Memory} (supply : Supplies hhdm B Ready)
    (ready : Ready s.buddy s.mem.word Held) (frame : Frame hhdm f) (fresh : ¬ Held f)
    (ready' : Ready b' word' (Holding f Held)) (keeps : Keeps hhdm Held s.mem.word word')
    (zero : ∀ i < 512, m'.word (f + hhdm + 8 * i) = 0)
    (same : ∀ a, InFrame hhdm f a ∨ m'.word a = word' a)
    (stores : ∃ new, m'.stores = new ++ s.mem.stores ∧ ∀ a ∈ new, InFrame hhdm f a) :
    Zeroed hhdm Ready Held s f ⟨s.cr3, m', b', (f + hhdm) :: s.granted⟩ := by
  refine ⟨rfl, rfl, frame, fresh, ?_, ?_, zero, stores⟩
  · exact supply.stored _ _ _ _ ready' fun a changed => ⟨f, Or.inl rfl, (same a).resolve_right changed⟩
  · intro g a hg ha
    have ne : f ≠ g := by
      rintro rfl
      exact fresh hg
    have apart : ¬ InFrame hhdm f a := frames_apart (supply.held _ _ _ g ready hg).aligned frame.aligned ne.symm ha
    exact ((same a).resolve_left apart).trans (keeps g a hg ha)

theorem request_spec (supply : Supplies hhdm B Ready) (ready : Ready s.buddy s.mem.word Held) :
    (∃ e, s.request B = .error e ∧ Fails B Ready) ∨
    (∃ s', s.request B = .ok (none, s') ∧ Refused hhdm Ready Held s s' ∧ Refuses B Ready s') ∨
    ∃ f s', s.request B = .ok (some (f + hhdm), s') ∧
      Zeroed hhdm Ready Held s f { s' with mem := PageTable.zero s'.mem (f + hhdm) } := by
  cases run : B s.buddy s.mem.word with
  | error e =>
    refine Or.inl ⟨e, ?_, s.buddy, s.mem.word, Held, e, ready, run⟩
    simp only [Machine.request, run, bind, Except.bind]
  | ok r =>
    obtain ⟨found, b', word'⟩ := r
    cases found with
    | none =>
      obtain ⟨ready', keeps⟩ := supply.refused _ _ _ _ _ ready run
      have answer : s.request B = .ok (none, ⟨s.cr3, ⟨word', s.mem.stores⟩, b', s.granted⟩) := by
        simp only [Machine.request, run, bind, Except.bind]
        rfl
      exact Or.inr (Or.inl ⟨_, answer, ⟨rfl, rfl, ready', keeps, rfl⟩, _, _, Held, ready, run⟩)
    | some virt =>
      obtain ⟨f, rfl, frame, fresh, ready', keeps⟩ := supply.granted _ _ _ _ _ _ ready run
      obtain ⟨zero, same, stores⟩ := zero_spec ⟨word', s.mem.stores⟩ hhdm f
      obtain ⟨m', e⟩ : ∃ m', m' = PageTable.zero ⟨word', s.mem.stores⟩ (f + hhdm) := ⟨_, rfl⟩
      rw [← e] at zero same stores
      have answer : s.request B = .ok (some (f + hhdm),
          ⟨s.cr3, ⟨word', s.mem.stores⟩, b', (f + hhdm) :: s.granted⟩) := by
        simp only [Machine.request, run, bind, Except.bind]
        rfl
      refine Or.inr (Or.inr ⟨f, _, answer, ?_⟩)
      rw [← e]
      exact zeroed supply ready frame fresh ready' keeps zero same stores

/-- An allocator that gives its answers from a list, then has nothing left. -/
def listSource : FrameSource (List (Option Nat))
  | [], word => .ok (none, [], word)
  | answer :: rest, word => .ok (answer, rest, word)

structure ListReady (hhdm : Nat) (answers : List (Option Nat)) (_word : Nat → Nat) (Held : Nat → Prop) :
    Prop where
  held : ∀ f, Held f → Frame hhdm f
  fresh : ∀ virt, some virt ∈ answers → ∃ f, virt = f + hhdm ∧ Frame hhdm f ∧ ¬ Held f
  distinct : answers.Pairwise fun a b => a = b → a = none

theorem listSource_supplies (hhdm : Nat) : Supplies hhdm listSource (ListReady hhdm) where
  held _ _ _ f ready := ready.held f
  granted answers word Held virt rest word' ready answered := by
    cases answers with
    | nil => cases answered
    | cons answer answers =>
      cases answered
      obtain ⟨f, rfl, frame, free⟩ := ready.fresh virt (List.mem_cons_self ..)
      obtain ⟨apart, distinct⟩ := List.pairwise_cons.mp ready.distinct
      refine ⟨f, rfl, frame, free, ⟨fun g hg => ?_, fun other later => ?_, distinct⟩, .refl word⟩
      · cases hg with
        | inl here => exact here ▸ frame
        | inr hg => exact ready.held g hg
      · obtain ⟨g, rfl, frame', free'⟩ := ready.fresh other (List.mem_cons_of_mem _ later)
        refine ⟨g, rfl, frame', fun hg => ?_⟩
        cases hg with
        | inl here => cases apart _ later (by rw [here])
        | inr hg => exact free' hg
  refused answers word Held rest word' ready answered := by
    cases answers with
    | nil =>
      cases answered
      exact ⟨ready, .refl word⟩
    | cons answer answers =>
      cases answered
      exact ⟨⟨ready.held, fun virt later => ready.fresh virt (List.mem_cons_of_mem _ later),
        (List.pairwise_cons.mp ready.distinct).2⟩, .refl word⟩
  stored _ _ _ _ ready _ := ⟨ready.held, ready.fresh, ready.distinct⟩

theorem listSource_returns (hhdm : Nat) : ¬ Fails listSource (ListReady hhdm) := by
  rintro ⟨answers, word, Held, e, _, failed⟩
  cases answers with
  | nil => cases failed
  | cons answer answers => cases failed

end CrustyOs.Mantle
