import CrustyOs.Abalone.BuddyFootprint
import CrustyOs.Mantle.Pml4Spec

/-! The buddy allocator as the source of page-table frames and of the kernel stack. Its
pages lie in an HHDM window of `limit` bytes; frames in use are in live blocks or outside
its pages. -/
namespace CrustyOs.Mantle
open Lib Abalone Abalone.BuddyAllocator

/-- `buddy::alloc_pages(order)`, over the words of memory. -/
def buddyFrames (order : Nat) : FrameSource BuddyAllocator := fun b word => do
  let (found, b, m) ← b.allocPages ⟨word, []⟩ order
  return (found, b, m.word)

structure Stocked (hhdm limit : Nat) (b : BuddyAllocator) (word : Nat → Nat) (Held : Nat → Prop)
    (lists : Nat → List Nat) (blocks : List Block) (pages : Finset Nat) : Prop where
  inv : BuddyAllocator.Inv b ⟨word, []⟩ lists blocks pages
  accounts : Accounts b blocks pages
  based : hhdm ≤ b.base ∧ pageSize ∣ b.base - hhdm
  within : ∀ x ∈ pages, b.base + (x + 1) * pageSize ≤ hhdm + limit
  held : ∀ f, Held f → Frame hhdm f ∧ ∀ x ∈ pages, node b.base x = f + hhdm → ∃ c ∈ blocks, c.Has x

def BuddyReady (hhdm limit : Nat) (b : BuddyAllocator) (word : Nat → Nat) (Held : Nat → Prop) : Prop :=
  ∃ lists blocks pages, Stocked hhdm limit b word Held lists blocks pages

variable {hhdm limit f a k p : Nat} {b b' : BuddyAllocator} {word word' : Nat → Nat}
  {Held Held' : Nat → Prop} {lists : Nat → List Nat} {blocks : List Block} {pages : Finset Nat}
  {found : Option Nat}

namespace Stocked

theorem sub (h : Stocked hhdm limit b word Held lists blocks pages) (sub : ∀ f, Held' f → Held f) :
    Stocked hhdm limit b word Held' lists blocks pages :=
  ⟨h.inv, h.accounts, h.based, h.within, fun f hf => h.held f (sub f hf)⟩

theorem page_eq (h : Stocked hhdm limit b word Held lists blocks pages) {x o : Nat} (aligned : pageSize ∣ f)
    (low : o < pageSize) (ha : InFrame hhdm f (node b.base x + o)) : node b.base x = f + hhdm := by
  obtain ⟨above, n, e⟩ := h.based
  obtain ⟨g, rfl⟩ := aligned
  unfold InFrame at ha
  unfold node Abalone.pageSize pageSize at *
  omega

theorem page_frame (h : Stocked hhdm limit b word Held lists blocks pages) (small : limit ≤ 2 ^ 52)
    (fits : hhdm + limit ≤ 2 ^ 64) {x : Nat} (hx : x ∈ pages) (e : node b.base x = f + hhdm) :
    Frame hhdm f ∧ f + pageSize ≤ limit := by
  obtain ⟨above, n, base⟩ := h.based
  have top := h.within x hx
  unfold node Abalone.pageSize at e
  unfold pageSize at *
  refine ⟨⟨⟨n + x, by unfold pageSize; omega⟩, by omega, by unfold pageSize; omega⟩, by omega⟩

theorem stored (h : Stocked hhdm limit b word Held lists blocks pages)
    (inside : ∀ a, word' a ≠ word a → ∃ f, Held f ∧ InFrame hhdm f a) :
    Stocked hhdm limit b word' Held lists blocks pages := by
  have same : ∀ k < buddyMaxOrder, ∀ p ∈ lists k, ∀ o < pageSize,
      word' (node b.base p + o) = word (node b.base p + o) := by
    intro k hk p hp o low
    by_contra changed
    obtain ⟨f, hf, ha⟩ := inside _ changed
    obtain ⟨frame, blocked⟩ := h.held f hf
    have member : p ∈ pages := h.inv.listed_mem hk hp (inBlock_self k p)
    obtain ⟨c, hc, has⟩ := blocked p member (h.page_eq frame.aligned low ha)
    exact h.inv.listed_apart_held hk hp hc (inBlock_self k p) has
  refine ⟨⟨fun k hk => ?_, h.inv.parity, h.inv.listed_aligned, h.inv.held_aligned, h.inv.exact,
    h.inv.listed_range, h.inv.based⟩, h.accounts, h.based, h.within, h.held⟩
  apply (h.inv.linked k hk).congr
  · intro y hy
    obtain ⟨p, hp, rfl⟩ := List.mem_map.mp hy
    exact same k hk p hp 8 (by decide)
  · intro y hy
    obtain ⟨p, hp, rfl⟩ := List.mem_map.mp hy
    exact same k hk p hp 0 (by decide)

theorem alloc (h : Stocked hhdm limit b word Held lists blocks pages) (small : limit ≤ 2 ^ 52)
    (fits : hhdm + limit ≤ 2 ^ 64) (run : buddyFrames k b word = .ok (found, b', word')) :
    (found = none ∧ b' = b ∧ word' = word ∧ ∀ j, k ≤ j → j < buddyMaxOrder → lists j = []) ∨
    ∃ p lists', found = some (node b.base p) ∧ b'.base = b.base ∧ (∀ x, InBlock k p x → x ∈ pages) ∧
      Keeps hhdm Held word word' ∧
      (∀ f x, InBlock k p x → node b.base x = f + hhdm → ¬ Held f) ∧
      Stocked hhdm limit b' word' (fun f => Held f ∨ ∃ x, InBlock k p x ∧ node b.base x = f + hhdm)
        lists' (⟨k, p⟩ :: blocks) pages := by
  obtain ⟨⟨found₁, b₁, m₁⟩, answer, run⟩ := ok_of_bind run
  obtain ⟨rfl, rest⟩ := Prod.mk.inj (Except.ok.inj run)
  obtain ⟨rfl, rfl⟩ := Prod.mk.inj rest
  have hk : k < buddyMaxOrder := by
    by_contra out
    obtain ⟨_, guard, _⟩ := ok_of_bind answer
    rw [require, if_neg (by simpa using out)] at guard
    cases guard
  rcases allocPages_spec h.inv h.accounts hk with
    ⟨none, empty⟩ | ⟨p, b₂, m₂, lists', some, inv, accounts, base, apart, _⟩ | ⟨out, _⟩
  · obtain ⟨rfl, e⟩ := Prod.mk.inj (Except.ok.inj (answer.symm.trans none))
    obtain ⟨rfl, rfl⟩ := Prod.mk.inj e
    exact Or.inl ⟨rfl, rfl, rfl, empty⟩
  · obtain ⟨rfl, e⟩ := Prod.mk.inj (Except.ok.inj (answer.symm.trans some))
    obtain ⟨rfl, rfl⟩ := Prod.mk.inj e
    have links := allocPages_footprint h.inv answer
    have member : ∀ x, InBlock k p x → x ∈ pages := fun x hx => inv.held_mem (by simp : (⟨k, p⟩ : Block) ∈ _) hx
    refine Or.inr ⟨p, lists', rfl, base, member, fun f a hf ha => ?_, fun f x hx e hf => ?_, ?_⟩
    · obtain ⟨frame, blocked⟩ := h.held f hf
      by_cases ours : ∃ x ∈ pages, node b.base x = f + hhdm
      · -- a frame in a live block
        obtain ⟨x, hx, e⟩ := ours
        obtain ⟨c, hc, has⟩ := blocked x hx e
        apply apart.read_eq
        intro off
        have side := off c hc
        unfold Block.Has InBlock at has
        unfold Block.start Block.stop at side
        unfold InFrame at ha
        have lower := Nat.mul_le_mul_right Abalone.pageSize has.1
        have upper := Nat.mul_le_mul_right Abalone.pageSize has.2
        rw [Nat.add_mul] at upper
        unfold node at e
        unfold pageSize at ha
        unfold Abalone.pageSize at *
        omega
      · -- a frame that the allocator does not manage
        apply links.read_eq
        rintro ⟨x, hx, here | here⟩
        · rw [here, ← Nat.add_zero (node _ _)] at ha
          exact ours ⟨x, hx, h.page_eq frame.aligned (by decide) ha⟩
        · rw [here] at ha
          exact ours ⟨x, hx, h.page_eq frame.aligned (by decide) ha⟩
    · obtain ⟨c, hc, has⟩ := (h.held f hf).2 x (member x hx) e
      exact inv.hand_apart hc hx has
    · refine ⟨⟨inv.linked, inv.parity, inv.listed_aligned, inv.held_aligned, inv.exact, inv.listed_range,
        inv.based⟩, accounts, base ▸ h.based, base ▸ h.within, fun f hf => ?_⟩
      rw [base]
      rcases hf with hf | ⟨x, hx, e⟩
      · obtain ⟨frame, blocked⟩ := h.held f hf
        refine ⟨frame, fun x hx e => ?_⟩
        obtain ⟨c, hc, has⟩ := blocked x hx e
        exact ⟨c, List.mem_cons_of_mem _ hc, has⟩
      · refine ⟨(h.page_frame small fits (member x hx) e).1, fun y hy e' => ⟨⟨k, p⟩, by simp, ?_⟩⟩
        obtain rfl := node_inj.mp (e'.trans e.symm)
        exact hx
  · cases answer.symm.trans out

theorem page_count_le (h : Stocked hhdm limit b word Held lists blocks pages) :
    b.stats.freeBytes = freePages lists * Abalone.pageSize := by
  have count := h.inv.page_count
  have total := h.accounts.freeBytes
  rw [h.accounts.usedBytes, h.accounts.totalBytes, ← count, Nat.add_mul] at total
  omega

end Stocked

def buddyLeft (b : BuddyAllocator) : Nat := b.stats.freeBytes / Abalone.pageSize

section Source

variable (small : limit ≤ 2 ^ 52) (fits : hhdm + limit ≤ 2 ^ 64)

include small fits

theorem buddy_supplies : Supplies hhdm (buddyFrames 0) (BuddyReady hhdm limit) where
  held b word Held f ready hf := by
    obtain ⟨lists, blocks, pages, h⟩ := ready
    exact (h.held f hf).1
  granted b word Held virt b' word' ready run := by
    obtain ⟨lists, blocks, pages, h⟩ := ready
    rcases h.alloc small fits run with ⟨none, _⟩ | ⟨p, lists', some, base, member, keeps, fresh, h'⟩
    · cases none
    · obtain rfl := Option.some.inj some
      have self : InBlock 0 p p := inBlock_self 0 p
      have above : hhdm ≤ node b.base p := Nat.le_trans h.based.1 (Nat.le_add_right _ _)
      have e : node b.base p = node b.base p - hhdm + hhdm := (Nat.sub_add_cancel above).symm
      refine ⟨node b.base p - hhdm, e, (h.page_frame small fits (member p self) e).1, fresh _ p self e,
        ⟨lists', _, pages, h'.sub fun f hf => ?_⟩, keeps⟩
      cases hf with
      | inl here => exact Or.inr ⟨p, self, here ▸ e⟩
      | inr hf => exact Or.inl hf
  refused b word Held b' word' ready run := by
    obtain ⟨lists, blocks, pages, h⟩ := ready
    rcases h.alloc small fits run with ⟨_, rfl, rfl, _⟩ | ⟨p, lists', some, _⟩
    · exact ⟨⟨lists, blocks, pages, h⟩, .refl _⟩
    · cases some
  stored b word Held word' ready inside := by
    obtain ⟨lists, blocks, pages, h⟩ := ready
    exact ⟨lists, blocks, pages, h.stored inside⟩

theorem buddy_budget : Pml4.Budget (buddyFrames 0) (BuddyReady hhdm limit) buddyLeft where
  granted b word Held virt b' word' ready run := by
    obtain ⟨lists, blocks, pages, h⟩ := ready
    rcases h.alloc small fits run with ⟨none, _⟩ | ⟨p, lists', _, _, _, _, _, h'⟩
    · cases none
    · have before := h.inv.page_count
      have after := h'.inv.page_count
      rw [heldPages_cons] at after
      unfold buddyLeft
      rw [h.page_count_le, h'.page_count_le]
      unfold Abalone.pageSize
      simp only [Nat.pow_zero] at after
      omega
  refused b word Held b' word' ready run := by
    obtain ⟨lists, blocks, pages, h⟩ := ready
    rcases h.alloc small fits run with ⟨_, _, _, empty⟩ | ⟨p, lists', some, _⟩
    · have none : freePages lists = 0 := by
        unfold freePages weight
        apply Finset.sum_eq_zero
        intro j hj
        rw [empty j (Nat.zero_le j) (Finset.mem_range.mp hj)]
        rfl
      rw [buddyLeft, h.page_count_le, none]
      decide
    · cases some

end Source

theorem Stocked.answers {k : Nat} (h : Stocked hhdm limit b word Held lists blocks pages)
    (low : ∀ x ∈ pages, x < Bitmap.capacity) (hk : k < buddyMaxOrder) :
    (∃ virt b' word', buddyFrames k b word = .ok (some virt, b', word')) ∨
      buddyFrames k b word = .ok (none, b, word) ∧ ∀ j, k ≤ j → j < buddyMaxOrder → lists j = [] := by
  rcases allocPages_spec (k := k) h.inv h.accounts hk with ⟨run, empty⟩ | ⟨p, b', m', _, run, _⟩ | ⟨_, x, hx, far⟩
  · exact Or.inr ⟨bind_of_ok run _, empty⟩
  · exact Or.inl ⟨_, b', m'.word, bind_of_ok run _⟩
  · exact absurd (low x hx) (Nat.not_lt_of_le far)

theorem buddy_returns (covered : limit ≤ Bitmap.capacity * Abalone.pageSize) :
    ¬ Fails (buddyFrames 0) (BuddyReady hhdm limit) := by
  rintro ⟨b, word, Held, e, ⟨lists, blocks, pages, h⟩, failed⟩
  have low : ∀ x ∈ pages, x < Bitmap.capacity := by
    intro x hx
    have top := h.within x hx
    have base := h.based.1
    unfold Abalone.pageSize at covered
    unfold pageSize at top
    omega
  rcases h.answers low (k := 0) (by decide) with ⟨virt, b', word', run⟩ | ⟨run, _⟩
  · cases failed.symm.trans run
  · cases failed.symm.trans run

/-- Over the kernel's own allocator the walker refines the finite map in every run. -/
theorem walker_over_buddy {P : Paging} {w : PageTableWalker} {s : Machine BuddyAllocator} (x : X86 P)
    (small : limit ≤ 2 ^ 52) (fits : w.hhdm + limit ≤ 2 ^ 64)
    (covered : limit ≤ Bitmap.capacity * Abalone.pageSize) (start : EmptyRoot w (BuddyReady w.hhdm limit) s)
    (ops : List WalkerOp) (valid : ∀ op ∈ ops, op.Valid P) :
    ∃ outs s' Held pages, WalkerOp.execAll P (buddyFrames 0) w s ops = .ok (outs, s') ∧
      Steps P (buddyFrames 0) w (BuddyReady w.hhdm limit) s ∅ ops outs s' pages ∧
      Represents P w (BuddyReady w.hhdm limit) s' Held pages :=
  run_refines x (buddy_supplies small fits) (buddy_returns covered) ops (start.represents x) valid

end CrustyOs.Mantle
