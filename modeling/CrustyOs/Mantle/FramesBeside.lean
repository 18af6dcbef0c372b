import CrustyOs.Abalone.BuddyClients
import CrustyOs.Mantle.BuddyFrames

/-! Page tables in the frames of a buddy allocator that others use as well: building tables
takes new blocks, and leaves the blocks of the others and their words alone. -/
namespace CrustyOs.Mantle
open Lib Abalone Abalone.BuddyAllocator

def BlockFrame (hhdm base : Nat) (blocks : List Block) (f : Nat) : Prop :=
  ∃ c ∈ blocks, ∃ x, c.Has x ∧ node base x = f + hhdm

/-- The allocator while `blocks` are out for the tables and `old` for others, whose words are
those of `word₀`. The frames in use are in `blocks`, or known to be outside the pages. -/
structure Shared (hhdm limit base : Nat) (pages : Finset Nat) (old : List Block) (word₀ : Nat → Nat)
    (Out : Nat → Prop) (b : BuddyAllocator) (word : Nat → Nat) (Held : Nat → Prop)
    (lists : Nat → List Nat) (blocks : List Block) : Prop where
  stocked : Stocked hhdm limit b word (fun f => Held f ∨ BlockFrame hhdm base old f) lists (blocks ++ old) pages
  from_base : b.base = base
  placed : ∀ f, Held f → Out f ∨ BlockFrame hhdm base blocks f
  same : ∀ f a, BlockFrame hhdm base old f → InFrame hhdm f a → word a = word₀ a

def SharedReady (hhdm limit base : Nat) (pages : Finset Nat) (old : List Block) (word₀ : Nat → Nat)
    (Out : Nat → Prop) (b : BuddyAllocator) (word : Nat → Nat) (Held : Nat → Prop) : Prop :=
  ∃ lists blocks, Shared hhdm limit base pages old word₀ Out b word Held lists blocks

variable {hhdm limit base f a k p : Nat} {b b' : BuddyAllocator} {word word' word₀ : Nat → Nat}
  {Held Held' Out : Nat → Prop} {lists : Nat → List Nat} {blocks old : List Block} {pages : Finset Nat}
  {found : Option Nat}

theorem BlockFrame.within (h : BlockFrame hhdm base blocks f) :
    ∃ b ∈ blocks.map (Allocation.of base), b.range.start ≤ f + hhdm ∧
      f + hhdm + pageSize ≤ b.range.start + b.range.len := by
  obtain ⟨c, hc, x, has, e⟩ := h
  obtain ⟨start, stop⟩ := Allocation.range_of base c
  refine ⟨_, List.mem_map_of_mem hc, ?_⟩
  rw [stop, start, ← e]
  unfold Block.Has InBlock at has
  have low := Nat.mul_le_mul_right Abalone.pageSize has.1
  have high := Nat.mul_le_mul_right Abalone.pageSize has.2
  unfold Block.start Block.stop node
  unfold Abalone.pageSize pageSize at *
  omega

theorem sameOn_of_frames {m m' : Memory} (above : hhdm ≤ base)
    (same : ∀ f a, BlockFrame hhdm base old f → InFrame hhdm f a → m'.word a = m.word a) :
    SameOn (old.map (Allocation.of base)) m m' := by
  intro c hc a low high
  obtain ⟨d, hd, rfl⟩ := List.mem_map.mp hc
  obtain ⟨start, stop⟩ := Allocation.range_of base d
  rw [start] at low
  rw [stop] at high
  unfold Block.start at low
  unfold Block.stop at high
  -- the page of the word
  obtain ⟨x, x_def⟩ : ∃ x, x = (a - base) / Abalone.pageSize := ⟨_, rfl⟩
  have page : node base x ≤ a ∧ a < node base x + Abalone.pageSize := by
    unfold node Abalone.pageSize at *
    omega
  have reached : hhdm ≤ node base x := Nat.le_trans above (Nat.le_add_right _ _)
  have has : d.Has x := by
    unfold Block.Has InBlock
    unfold node Abalone.pageSize at *
    omega
  refine same (node base x - hhdm) a ⟨d, hd, x, has, (Nat.sub_add_cancel reached).symm⟩ ?_
  unfold InFrame
  rw [Nat.sub_add_cancel reached]
  exact page

theorem Stocked.perm {blocks' : List Block} (h : Stocked hhdm limit b word Held lists blocks pages)
    (e : blocks.Perm blocks') : Stocked hhdm limit b word Held lists blocks' pages := by
  have count : heldPages blocks' = heldPages blocks := (e.symm.map fun c : Block => 2 ^ c.order).sum_eq
  refine ⟨h.inv.perm e, ⟨h.accounts.totalPages, h.accounts.totalBytes, count ▸ h.accounts.usedBytes,
    h.accounts.freeBytes⟩, h.based, h.within, fun f hf => ?_⟩
  obtain ⟨frame, blocked⟩ := h.held f hf
  refine ⟨frame, fun x hx here => ?_⟩
  obtain ⟨c, hc, has⟩ := blocked x hx here
  exact ⟨c, e.mem_iff.mp hc, has⟩

theorem Stocked.apart (h : Stocked hhdm limit b word Held lists (blocks ++ old) pages) {c d : Block} {x : Nat}
    (hc : c ∈ blocks) (hd : d ∈ old) (has : c.Has x) : ¬ d.Has x := by
  have single : ∀ x, heldCover (blocks ++ old) x ≤ 1 := by
    intro x
    have total := h.inv.exact x
    split at total <;> omega
  exact (List.pairwise_append.mp (pairwise_of_cover single)).2.2 c hc d hd x has

namespace Shared

theorem sub (h : Shared hhdm limit base pages old word₀ Out b word Held lists blocks)
    (sub : ∀ f, Held' f → Held f) : Shared hhdm limit base pages old word₀ Out b word Held' lists blocks :=
  ⟨h.stocked.sub fun f hf => hf.imp (sub f) id, h.from_base, fun f hf => h.placed f (sub f hf), h.same⟩

theorem request (h : Shared hhdm limit base pages old word₀ Out b word Held lists blocks) (small : limit ≤ 2 ^ 52)
    (fits : hhdm + limit ≤ 2 ^ 64) (run : buddyFrames k b word = .ok (found, b', word')) :
    (found = none ∧ b' = b ∧ word' = word) ∨
    ∃ p lists', found = some (node base p) ∧ b'.base = base ∧ (∀ x, InBlock k p x → x ∈ pages) ∧
      Keeps hhdm (fun f => Held f ∨ BlockFrame hhdm base old f) word word' ∧
      (∀ f, BlockFrame hhdm base [⟨k, p⟩] f → ¬ Held f) ∧
      Stocked hhdm limit b' word' (fun f => (Held f ∨ BlockFrame hhdm base old f) ∨ BlockFrame hhdm base [⟨k, p⟩] f)
        lists' (⟨k, p⟩ :: (blocks ++ old)) pages := by
  rcases h.stocked.alloc small fits run with
    ⟨none, same, word, _⟩ | ⟨p, lists', some, same_base, member, keeps, fresh, after⟩
  · exact Or.inl ⟨none, same, word⟩
  · rw [h.from_base] at some same_base fresh after
    have block : ∀ f, BlockFrame hhdm base [⟨k, p⟩] f → ∃ x, InBlock k p x ∧ node base x = f + hhdm := by
      rintro f ⟨c, hc, x, has, e⟩
      obtain rfl := List.mem_singleton.mp hc
      exact ⟨x, has, e⟩
    refine Or.inr ⟨p, lists', some, same_base, member, keeps, fun f hf held => ?_, after.sub fun f hf => ?_⟩
    · obtain ⟨x, hx, e⟩ := block f hf
      exact fresh f x hx e (Or.inl held)
    · exact hf.imp id (block f)

theorem give (h : Shared hhdm limit base pages old word₀ Out b word Held lists blocks) (small : limit ≤ 2 ^ 52)
    (fits : hhdm + limit ≤ 2 ^ 64) (run : buddyFrames k b word = .ok (found, b', word')) :
    (found = none ∧ b' = b ∧ word' = word) ∨
    ∃ p lists', found = some (node base p) ∧ Keeps hhdm Held word word' ∧
      (∀ f a, BlockFrame hhdm base old f → InFrame hhdm f a → word' a = word₀ a) ∧
      Shared hhdm limit base pages (⟨k, p⟩ :: old) word' Out b' word' Held lists' blocks := by
  rcases h.request small fits run with none | ⟨p, lists', some, same_base, _, keeps, _, after⟩
  · exact Or.inl none
  · refine Or.inr ⟨p, lists', some, fun f a hf => keeps f a (Or.inl hf), fun f a hf ha => ?_,
      (after.perm List.perm_middle.symm).sub ?_, same_base, h.placed, fun _ _ _ _ => rfl⟩
    · exact (keeps f a (Or.inr hf) ha).trans (h.same f a hf ha)
    · rintro f (hf | ⟨c, hc, x, has, e⟩)
      · exact Or.inl (Or.inl hf)
      · cases List.mem_cons.mp hc with
        | inl new => exact Or.inr ⟨c, new ▸ List.mem_singleton.mpr rfl, x, has, e⟩
        | inr here => exact Or.inl (Or.inr ⟨c, here, x, has, e⟩)

theorem stored (h : Shared hhdm limit base pages old word₀ Out b word Held lists blocks)
    (outside : ∀ f, Out f → Frame hhdm f ∧ ∀ x ∈ pages, node base x ≠ f + hhdm)
    (inside : ∀ a, word' a ≠ word a → ∃ f, Held f ∧ InFrame hhdm f a) :
    Shared hhdm limit base pages old word₀ Out b word' Held lists blocks := by
  refine ⟨h.stocked.stored fun a changed => ?_, h.from_base, h.placed, fun g a hg ha => ?_⟩
  · obtain ⟨f, hf, here⟩ := inside a changed
    exact ⟨f, Or.inl hf, here⟩
  · have theirs := h.same g a hg ha
    by_contra changed
    obtain ⟨f, hf, here⟩ := inside a fun e => changed (e.trans theirs)
    have frame := (h.stocked.held f (Or.inl hf)).1
    have frame' := (h.stocked.held g (Or.inr hg)).1
    obtain ⟨d, hd, y, hasd, e'⟩ := hg
    have equal : f = g := by
      by_contra ne
      exact frames_apart frame.aligned frame'.aligned ne here ha
    subst equal
    rcases h.placed f hf with out | ⟨c, hc, x, hasc, e⟩
    · exact (outside f out).2 y (h.stocked.inv.held_mem (List.mem_append_right _ hd) hasd) e'
    · obtain rfl := node_inj.mp (e.trans e'.symm)
      exact h.stocked.apart hc hd hasc hasd

theorem grant {virt : Nat} (h : Shared hhdm limit base pages old word₀ Out b word Held lists blocks)
    (small : limit ≤ 2 ^ 52) (fits : hhdm + limit ≤ 2 ^ 64)
    (run : buddyFrames 0 b word = .ok (some virt, b', word')) :
    ∃ p lists' f, virt = node base p ∧ virt = f + hhdm ∧ Frame hhdm f ∧ ¬ Held f ∧
      Shared hhdm limit base pages old word₀ Out b' word' (Holding f Held) lists' (⟨0, p⟩ :: blocks) ∧
      Keeps hhdm Held word word' := by
  rcases h.request small fits run with ⟨none, _⟩ | ⟨p, lists', some, same_base, member, keeps, fresh, after⟩
  · cases none
  obtain rfl := Option.some.inj some
  have based := h.stocked.based
  rw [h.from_base] at based
  have above : hhdm ≤ node base p := Nat.le_trans based.1 (Nat.le_add_right _ _)
  have e : node base p = node base p - hhdm + hhdm := (Nat.sub_add_cancel above).symm
  have block : BlockFrame hhdm base [⟨0, p⟩] (node base p - hhdm) :=
    ⟨_, List.mem_singleton.mpr rfl, p, inBlock_self 0 p, e⟩
  refine ⟨p, lists', node base p - hhdm, rfl, e, (after.held _ (Or.inr block)).1, fresh _ block,
    ⟨after.sub ?_, same_base, ?_, fun f a hf ha => ?_⟩, fun f a hf => keeps f a (Or.inl hf)⟩
  · rintro f ((here | hf) | hf)
    · exact here ▸ Or.inr block
    · exact Or.inl (Or.inl hf)
    · exact Or.inl (Or.inr hf)
  · rintro f (here | hf)
    · obtain ⟨c, hc, x, has, e⟩ := block
      exact Or.inr ⟨c, List.mem_cons.mpr (Or.inl (List.mem_singleton.mp hc)), x, has, here ▸ e⟩
    · rcases h.placed f hf with out | ⟨c, hc, x, has, e⟩
      · exact Or.inl out
      · exact Or.inr ⟨c, List.mem_cons_of_mem _ hc, x, has, e⟩
  · exact (keeps f a (Or.inr hf) ha).trans (h.same f a hf ha)

theorem refuse (h : Shared hhdm limit base pages old word₀ Out b word Held lists blocks) (small : limit ≤ 2 ^ 52)
    (fits : hhdm + limit ≤ 2 ^ 64) (run : buddyFrames k b word = .ok (none, b', word')) : b' = b ∧ word' = word := by
  rcases h.request small fits run with ⟨_, same⟩ | ⟨p, lists', some, _⟩
  · exact same
  · cases some

theorem of_sound {m : Memory} {live : List Allocation}
    (sound : BuddyAllocator.Sound ⟨b, m, live, pages⟩ lists (blocks ++ old))
    (based : hhdm ≤ b.base ∧ pageSize ∣ b.base - hhdm)
    (within : ∀ x ∈ pages, b.base + (x + 1) * pageSize ≤ hhdm + limit) (small : limit ≤ 2 ^ 52)
    (fits : hhdm + limit ≤ 2 ^ 64)
    (outside : ∀ f, Out f → Frame hhdm f ∧ ∀ x ∈ pages, node b.base x ≠ f + hhdm)
    (held : ∀ f, Held f → Out f ∨ BlockFrame hhdm b.base blocks f) :
    Shared hhdm limit b.base pages old m.word Out b m.word Held lists blocks := by
  have inv := sound.inv
  have alone : Stocked hhdm limit b m.word (fun _ => False) lists (blocks ++ old) pages :=
    ⟨⟨inv.linked, inv.parity, inv.listed_aligned, inv.held_aligned, inv.exact, inv.listed_range, inv.based⟩,
      sound.accounts, based, within, fun _ none => none.elim⟩
  have blocked : ∀ f, BlockFrame hhdm b.base (blocks ++ old) f →
      Frame hhdm f ∧ ∀ x ∈ pages, node b.base x = f + hhdm → ∃ c ∈ blocks ++ old, c.Has x := by
    rintro f ⟨c, hc, x, has, e⟩
    refine ⟨(alone.page_frame small fits (inv.held_mem hc has) e).1, fun y _ e' => ⟨c, hc, ?_⟩⟩
    obtain rfl := node_inj.mp (e'.trans e.symm)
    exact has
  refine ⟨⟨alone.inv, alone.accounts, alone.based, alone.within, ?_⟩, rfl, held, fun _ _ _ _ => rfl⟩
  rintro f (hf | ⟨c, hc, has⟩)
  · rcases held f hf with out | ⟨c, hc, has⟩
    · obtain ⟨frame, off⟩ := outside f out
      exact ⟨frame, fun x hx e => absurd e (off x hx)⟩
    · exact blocked f ⟨c, List.mem_append_left _ hc, has⟩
  · exact blocked f ⟨c, List.mem_append_right _ hc, has⟩

theorem sound (h : Shared hhdm limit base pages old word₀ Out b word Held lists blocks) {m : Memory}
    (read : m.word = word) (low : ∀ x ∈ pages, x < Bitmap.capacity) :
    BuddyAllocator.Sound ⟨b, m, (blocks ++ old).map (Allocation.of base), pages⟩ lists (blocks ++ old) := by
  subst read
  have inv := h.stocked.inv
  refine ⟨⟨inv.linked, inv.parity, inv.listed_aligned, inv.held_aligned, inv.exact, inv.listed_range, inv.based⟩,
    h.stocked.accounts, by rw [h.from_base], fun c hc => ?_⟩
  exact Bitmap.in_range (low c.page (inv.held_mem hc (inBlock_self _ _))) _

end Shared

section Source

variable (small : limit ≤ 2 ^ 52) (fits : hhdm + limit ≤ 2 ^ 64)
  (outside : ∀ f, Out f → Frame hhdm f ∧ ∀ x ∈ pages, node base x ≠ f + hhdm)

include small fits outside

theorem shared_supplies : Supplies hhdm (buddyFrames 0) (SharedReady hhdm limit base pages old word₀ Out) where
  held b word Held f ready hf := by
    obtain ⟨lists, blocks, h⟩ := ready
    exact (h.stocked.held f (Or.inl hf)).1
  granted b word Held virt b' word' ready run := by
    obtain ⟨lists, blocks, h⟩ := ready
    obtain ⟨p, lists', f, _, e, frame, fresh, after, keeps⟩ := h.grant small fits run
    exact ⟨f, e, frame, fresh, ⟨lists', _, after⟩, keeps⟩
  refused b word Held b' word' ready run := by
    obtain ⟨lists, blocks, h⟩ := ready
    obtain ⟨rfl, rfl⟩ := h.refuse small fits run
    exact ⟨⟨lists, blocks, h⟩, .refl _⟩
  stored b word Held word' ready inside := by
    obtain ⟨lists, blocks, h⟩ := ready
    exact ⟨lists, blocks, h.stored outside inside⟩

end Source

/-! A source with a record of what it gave. -/

def recorded {σ : Type} (B : FrameSource σ) : FrameSource (σ × List Nat) := fun s word => do
  let (found, b, word) ← B s.1 word
  return (found, (b, found.toList ++ s.2), word)

/-- The blocks of the tables: those there at the start, and one page for each frame given. -/
def RecordedReady (hhdm limit base : Nat) (pages : Finset Nat) (old : List Block) (word₀ : Nat → Nat)
    (start : List Allocation) (s : BuddyAllocator × List Nat) (word : Nat → Nat) (Held : Nat → Prop) : Prop :=
  ∃ lists blocks, Shared hhdm limit base pages old word₀ (fun _ => False) s.1 word Held lists blocks ∧
    blocks.map (Allocation.of base) = s.2.map (fun virt => ⟨virt, 0⟩) ++ start

section Recorded

variable {start : List Allocation}

theorem recorded_supplies (small : limit ≤ 2 ^ 52) (fits : hhdm + limit ≤ 2 ^ 64) :
    Supplies hhdm (recorded (buddyFrames 0)) (RecordedReady hhdm limit base pages old word₀ start) where
  held s word Held f ready hf := by
    obtain ⟨lists, blocks, h, _⟩ := ready
    exact (h.stocked.held f (Or.inl hf)).1
  granted s word Held virt s' word' ready run := by
    obtain ⟨lists, blocks, h, known⟩ := ready
    obtain ⟨⟨found, b', word₁⟩, given, last⟩ := ok_of_bind run
    obtain ⟨rfl, rest⟩ := Prod.mk.inj (Except.ok.inj last)
    obtain ⟨rfl, rfl⟩ := Prod.mk.inj rest
    obtain ⟨p, lists', f, place, e, frame, fresh, after, keeps⟩ := h.grant small fits given
    refine ⟨f, e, frame, fresh, ⟨lists', _, after, ?_⟩, keeps⟩
    rw [List.map_cons, known, place]
    rfl
  refused s word Held s' word' ready run := by
    obtain ⟨lists, blocks, h, known⟩ := ready
    obtain ⟨⟨found, b', word₁⟩, given, last⟩ := ok_of_bind run
    obtain ⟨rfl, rest⟩ := Prod.mk.inj (Except.ok.inj last)
    obtain ⟨rfl, rfl⟩ := Prod.mk.inj rest
    obtain ⟨rfl, rfl⟩ := h.refuse small fits given
    exact ⟨⟨lists, blocks, h, known⟩, .refl _⟩
  stored s word Held word' ready inside := by
    obtain ⟨lists, blocks, h, known⟩ := ready
    exact ⟨lists, blocks, h.stored (fun _ none => none.elim) inside, known⟩

theorem recorded_returns (low : ∀ x ∈ pages, x < Bitmap.capacity) :
    ¬ Fails (recorded (buddyFrames 0)) (RecordedReady hhdm limit base pages old word₀ start) := by
  rintro ⟨s, word, Held, e, ⟨lists, blocks, h, _⟩, failed⟩
  have stops : ∀ r, buddyFrames 0 s.1 word ≠ .ok r := by
    intro r run
    unfold recorded at failed
    rw [bind_of_ok run] at failed
    cases failed
  rcases allocPages_spec (k := 0) h.stocked.inv h.stocked.accounts (by decide) with
    ⟨run, _⟩ | ⟨p, b', m', lists', run, _⟩ | ⟨_, x, hx, far⟩
  · exact stops _ (bind_of_ok run _)
  · exact stops _ (bind_of_ok run _)
  · exact absurd (low x hx) (by omega)

end Recorded

end CrustyOs.Mantle
