import CrustyOs.Abalone.BuddyReserve
import CrustyOs.Mantle.FramesBeside

/-! Frames out of a shared allocator that splits no large block while it has small ones: tables
can take many pages and leave the runs that the kernel stack needs. -/
namespace CrustyOs.Mantle
open Lib Abalone Abalone.BuddyAllocator

variable {hhdm limit base k c : Nat} {b b' : BuddyAllocator} {word word' word₀ : Nat → Nat} {Held Out : Nat → Prop}
  {lists lists' : Nat → List Nat} {blocks old : List Block} {pages : Finset Nat} {found : Option Nat}

/-- A shared allocator with at most `c` free pages beyond its blocks of order `k`. -/
def FrugalReady (hhdm limit base : Nat) (pages : Finset Nat) (old : List Block) (word₀ : Nat → Nat)
    (Out : Nat → Prop) (k c : Nat) (b : BuddyAllocator) (word : Nat → Nat) (Held : Nat → Prop) : Prop :=
  ∃ lists blocks, Shared hhdm limit base pages old word₀ Out b word Held lists blocks ∧
    reserve 0 lists ≤ 2 ^ k * reserve k lists + c

theorem FrugalReady.shared (h : FrugalReady hhdm limit base pages old word₀ Out k c b word Held) :
    SharedReady hhdm limit base pages old word₀ Out b word Held := by
  obtain ⟨lists, blocks, shared, _⟩ := h
  exact ⟨lists, blocks, shared⟩

theorem represents_word {m : Memory} (h : BuddyAllocator.Represents b m lists) :
    BuddyAllocator.Represents b ⟨m.word, []⟩ lists :=
  ⟨h.linked, h.aligned, h.once, h.pair⟩

theorem Stocked.left_eq (h : Stocked hhdm limit b word Held lists blocks pages) : buddyLeft b = reserve 0 lists := by
  have whole : freePages lists = reserve 0 lists := by
    apply weight_congr
    intro j _ p _
    rw [parts_eq_spend (Nat.zero_le j), spend, Nat.sub_zero]
  rw [buddyLeft, h.page_count_le, whole, Nat.mul_div_cancel _ (by decide)]

theorem Shared.frugal {virt : Nat} (h : Shared hhdm limit base pages old word₀ Out b word Held lists blocks)
    (room : 2 ^ k ≤ c + 1) (small : reserve 0 lists ≤ 2 ^ k * reserve k lists + c)
    (run : buddyFrames 0 b word = .ok (some virt, b', word'))
    (after : BuddyAllocator.Represents b' ⟨word', []⟩ lists') : reserve 0 lists' ≤ 2 ^ k * reserve k lists' + c := by
  obtain ⟨⟨found, b₁, m₁⟩, answer, run⟩ := ok_of_bind run
  obtain ⟨rfl, rest⟩ := Prod.mk.inj (Except.ok.inj run)
  obtain ⟨rfl, rfl⟩ := Prod.mk.inj rest
  obtain ⟨p, lists₁, inv, _, kept⟩ := allocPages_frugal h.stocked.inv room small answer
  have same := represents_word inv.represents
  rw [after.reserve_eq same, after.reserve_eq same]
  exact kept

section Source

variable (small : limit ≤ 2 ^ 52) (fits : hhdm + limit ≤ 2 ^ 64)

include small fits

theorem shared_budget : Pml4.Budget (buddyFrames 0) (SharedReady hhdm limit base pages old word₀ Out) buddyLeft where
  granted b word Held virt b' word' ready run := by
    obtain ⟨lists, blocks, h⟩ := ready
    exact (buddy_budget small fits).granted _ _ _ _ _ _ ⟨_, _, _, h.stocked⟩ run
  refused b word Held b' word' ready run := by
    obtain ⟨lists, blocks, h⟩ := ready
    exact (buddy_budget small fits).refused _ _ _ _ _ ⟨_, _, _, h.stocked⟩ run

theorem frugal_budget :
    Pml4.Budget (buddyFrames 0) (FrugalReady hhdm limit base pages old word₀ Out k c) buddyLeft where
  granted b word Held _ _ _ ready run := (shared_budget small fits).granted b word Held _ _ _ ready.shared run
  refused b word Held _ _ ready run := (shared_budget small fits).refused b word Held _ _ ready.shared run

variable (outside : ∀ f, Out f → Frame hhdm f ∧ ∀ x ∈ pages, node base x ≠ f + hhdm) (room : 2 ^ k ≤ c + 1)

include outside room

theorem frugal_supplies : Supplies hhdm (buddyFrames 0) (FrugalReady hhdm limit base pages old word₀ Out k c) where
  held b word Held f ready hf := by
    obtain ⟨lists, blocks, h, _⟩ := ready
    exact (h.stocked.held f (Or.inl hf)).1
  granted b word Held virt b' word' ready run := by
    obtain ⟨lists, blocks, h, frugal⟩ := ready
    obtain ⟨p, lists', f, _, e, frame, fresh, after, keeps⟩ := h.grant small fits run
    exact ⟨f, e, frame, fresh, ⟨lists', _, after, h.frugal room frugal run after.stocked.inv.represents⟩, keeps⟩
  refused b word Held b' word' ready run := by
    obtain ⟨lists, blocks, h, frugal⟩ := ready
    obtain ⟨rfl, rfl⟩ := h.refuse small fits run
    exact ⟨⟨lists, blocks, h, frugal⟩, .refl _⟩
  stored b word Held word' ready inside := by
    obtain ⟨lists, blocks, h, frugal⟩ := ready
    exact ⟨lists, blocks, h.stored outside inside, frugal⟩

end Source

theorem shared_returns (low : ∀ x ∈ pages, x < Bitmap.capacity) :
    ¬ Fails (buddyFrames 0) (SharedReady hhdm limit base pages old word₀ Out) := by
  rintro ⟨b, word, Held, e, ⟨lists, blocks, h⟩, failed⟩
  rcases h.stocked.answers low (k := 0) (by decide) with ⟨virt, b', word', run⟩ | ⟨run, _⟩
  · cases failed.symm.trans run
  · cases failed.symm.trans run

theorem frugal_returns (low : ∀ x ∈ pages, x < Bitmap.capacity) :
    ¬ Fails (buddyFrames 0) (FrugalReady hhdm limit base pages old word₀ Out k c) := by
  rintro ⟨b, word, Held, e, ready, failed⟩
  exact shared_returns low ⟨b, word, Held, e, ready.shared, failed⟩

theorem Shared.give_left (h : Shared hhdm limit base pages old word₀ Out b word Held lists blocks) {p : Nat}
    (after : Shared hhdm limit base pages (⟨k, p⟩ :: old) word' Out b' word' Held lists' blocks) :
    buddyLeft b = buddyLeft b' + 2 ^ k := by
  have before := h.stocked.inv.page_count
  have later := (after.stocked.perm List.perm_middle).inv.page_count
  rw [heldPages_cons] at later
  unfold buddyLeft
  rw [h.stocked.page_count_le, after.stocked.page_count_le, Nat.mul_div_cancel _ (by decide),
    Nat.mul_div_cancel _ (by decide)]
  dsimp only at later
  omega

end CrustyOs.Mantle
