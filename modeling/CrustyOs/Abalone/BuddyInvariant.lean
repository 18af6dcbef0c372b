import CrustyOs.Abalone.Buddy
import CrustyOs.Lib.Dyadic
import CrustyOs.Lib.Family
import CrustyOs.Lib.Intrusive
import Mathlib.Order.Interval.Finset.Nat
import Mathlib.Tactic.Ring

/-! The buddy allocator's representation invariant.
The free lists are read as lists of start pages, and every page of the
registered set is counted once, either in a listed block or in a held one. A held
block is live, or in hand in the middle of an operation: splitting, merging and
filing a block then only move it between the two sides of the count. -/
namespace CrustyOs.Abalone
open Lib

/-! Bitmaps. -/

namespace Bitmap

def bit (b : Bitmap) (i : Nat) : Bool := (b.words (i / 64)).testBit (i % 64)

/-- Pages below this bound have an in-range bit at every order. -/
def capacity : Nat := 2 * 64 * wordCount

def InRange (k p : Nat) : Prop := (p >>> (k + 1)) / 64 < wordCount

instance (k p : Nat) : Decidable (InRange k p) := inferInstanceAs (Decidable (_ < _))

theorem in_range {p : Nat} (h : p < capacity) (k : Nat) : InRange k p := by
  have two : 2 ≤ 2 ^ (k + 1) := by
    have := Nat.two_pow_pos k
    rw [Nat.pow_succ]; omega
  have le : p / 2 ^ (k + 1) ≤ p / 2 := Nat.div_le_div_left two (by omega)
  rw [InRange, Nat.shiftRight_eq_div_pow]
  unfold capacity at h
  omega

theorem InRange.order_zero {p : Nat} (h : InRange 0 p) : p < capacity := by
  rw [InRange, Nat.shiftRight_eq_div_pow] at h
  unfold capacity
  omega

theorem InRange.up {k p q : Nat} (h : InRange k p) (le : q ≤ p) : InRange (k + 1) q := by
  have two : 2 ^ (k + 1) ≤ 2 ^ (k + 1 + 1) := Nat.pow_le_pow_right (by omega) (by omega)
  have lower : q / 2 ^ (k + 1 + 1) ≤ p / 2 ^ (k + 1) :=
    (Nat.div_le_div_right le).trans (Nat.div_le_div_left two (Nat.two_pow_pos _))
  rw [InRange, Nat.shiftRight_eq_div_pow] at *
  omega

theorem toggle_out {b : Bitmap} {i : Nat} (h : ¬ i / 64 < wordCount) :
    b.toggle i = .error .indexOutOfBounds := if_neg h

theorem test_eq {b : Bitmap} {i : Nat} (h : i / 64 < wordCount) : b.test i = .ok (b.bit i) := by
  have mod : ((b.words (i / 64) >>> (i % 64)) &&& 1 == 1) = b.bit i := by
    rw [bit, Nat.testBit_eq_decide_div_mod_eq, Nat.and_one_is_mod, Nat.shiftRight_eq_div_pow]
    rfl
  rw [test, if_pos h, mod]

theorem toggle_eq {b : Bitmap} {i : Nat} (h : i / 64 < wordCount) :
    ∃ b', b.toggle i = .ok b' ∧ ∀ j, b'.bit j = if j = i then !b.bit i else b.bit j := by
  refine ⟨_, if_pos h, fun j => ?_⟩
  by_cases word : j / 64 = i / 64
  · simp only [bit, word, if_true, Nat.testBit_xor, Nat.one_shiftLeft, Nat.testBit_two_pow]
    by_cases e : j = i
    · subst e; simp
    · have off : i % 64 ≠ j % 64 := by omega
      simp [e, off]
  · have e : j ≠ i := fun e => word (by rw [e])
    simp [bit, word, e]

end Bitmap

/-- A run of `2 ^ order` pages from `page` on, counted from the allocator base. -/
structure Block where
  order : Nat
  page : Nat
  deriving DecidableEq, Repr

namespace Block

def Has (b : Block) (x : Nat) : Prop := InBlock b.order b.page x

def start (base : Nat) (b : Block) : Nat := base + b.page * pageSize
def stop (base : Nat) (b : Block) : Nat := base + (b.page + 2 ^ b.order) * pageSize

end Block

/-- An 8-byte store at `a` leaves every block of the list alone. -/
def Apart (base : Nat) (blocks : List Block) (a : Nat) : Prop :=
  ∀ b ∈ blocks, a + 8 ≤ b.start base ∨ b.stop base ≤ a

namespace BuddyAllocator

def node (base page : Nat) : Nat := base + page * pageSize

@[simp] theorem node_inj {base p q : Nat} : node base p = node base q ↔ p = q := by
  unfold node pageSize; omega

/-! The link words of different pages do not overlap. -/

section
variable (m : Memory) (base p q v : Nat)

@[simp] theorem nextOf_setNext : nextOf (setNext m (node base p) v) (node base q) =
    if q = p then v else nextOf m (node base q) := by
  simp [nextOf, setNext, Memory.read_write]

@[simp] theorem nextOf_setPrev :
    nextOf (setPrev m (node base p) v) (node base q) = nextOf m (node base q) := by
  have far : node base q + 8 ≠ node base p := by unfold node pageSize; omega
  simp [nextOf, setPrev, Memory.read_write, far]

@[simp] theorem prevOf_setPrev : prevOf (setPrev m (node base p) v) (node base q) =
    if q = p then v else prevOf m (node base q) := by
  simp [prevOf, setPrev, Memory.read_write]

@[simp] theorem prevOf_setNext :
    prevOf (setNext m (node base p) v) (node base q) = prevOf m (node base q) := by
  have far : node base q ≠ node base p + 8 := by unfold node pageSize; omega
  simp [prevOf, setNext, Memory.read_write, far]

end

theorem node_apart {base p a : Nat} {held : List Block} (out : ∀ b ∈ held, ¬ b.Has p)
    (ha : a = node base p ∨ a = node base p + 8) : Apart base held a := by
  intro b hb
  have hn := out b hb
  unfold Block.Has InBlock at hn
  unfold Block.start Block.stop
  unfold node pageSize at *
  have cases : p < b.page ∨ b.page + 2 ^ b.order ≤ p := by omega
  rcases cases with lt | ge
  · left; omega
  · right
    have := Nat.mul_le_mul_right 4096 ge
    omega

def listed (lists : Nat → List Nat) (x : Nat) : Nat :=
  weight buddyMaxOrder (fun k p => cover k p x) lists

def heldCover (held : List Block) (x : Nat) : Nat :=
  (held.map fun b => cover b.order b.page x).sum

structure Inv (s : BuddyAllocator) (m : Memory) (lists : Nat → List Nat) (held : List Block)
    (pages : Finset Nat) : Prop where
  linked : ∀ k < buddyMaxOrder,
    Linked (nextOf m) (prevOf m) (s.freeLists k) ((lists k).map (node s.base))
  parity : ∀ k < buddyMaxOrder, ∀ i, (s.bitmaps k).bit i =
    decide ((lists k).countP (fun p => p >>> (k + 1) = i) % 2 = 1)
  listed_aligned : ∀ k < buddyMaxOrder, ∀ p ∈ lists k, 2 ^ k ∣ p
  held_aligned : ∀ b ∈ held, b.order < buddyMaxOrder ∧ 2 ^ b.order ∣ b.page
  exact : ∀ x, listed lists x + heldCover held x = if x ∈ pages then 1 else 0
  listed_range : ∀ k < buddyMaxOrder, ∀ p ∈ lists k, Bitmap.InRange k p
  based : ∀ x ∈ pages, s.base ≠ 0

namespace Inv

variable {s : BuddyAllocator} {m : Memory} {lists : Nat → List Nat} {held : List Block}
  {pages : Finset Nat} {b : Block} {k j p q x : Nat}

theorem listed_mem (h : Inv s m lists held pages) (hk : k < buddyMaxOrder) (hp : p ∈ lists k)
    (hx : InBlock k p x) : x ∈ pages := by
  have hit := weight_mem (f := fun k p => cover k p x) hk hp
  have one : cover k p x = 1 := if_pos hx
  have total := h.exact x
  by_contra out
  rw [if_neg out] at total
  unfold listed at total
  omega

theorem held_mem (h : Inv s m lists held pages) (hb : b ∈ held) (hx : b.Has x) : x ∈ pages := by
  have hit : cover b.order b.page x ≤ heldCover held x :=
    List.single_le_sum (by simp) _ (List.mem_map_of_mem hb)
  have one : cover b.order b.page x = 1 := if_pos hx
  have total := h.exact x
  by_contra out
  rw [if_neg out] at total
  omega

theorem listed_single (h : Inv s m lists held pages) (hk : k < buddyMaxOrder)
    (hj : j < buddyMaxOrder) (hp : p ∈ lists k) (hq : q ∈ lists j) (xp : InBlock k p x)
    (xq : InBlock j q x) : j = k ∧ q = p := by
  by_contra ne
  have two := weight_two (f := fun k p => cover k p x) hk hj hp hq ne
  have e₁ : cover k p x = 1 := if_pos xp
  have e₂ : cover j q x = 1 := if_pos xq
  have total := h.exact x
  unfold listed at total
  split at total <;> omega

theorem listed_apart_held (h : Inv s m lists held pages) (hk : k < buddyMaxOrder)
    (hp : p ∈ lists k) (hb : b ∈ held) (xp : InBlock k p x) : ¬ b.Has x := by
  intro xb
  have hit := weight_mem (f := fun k p => cover k p x) hk hp
  have hit' : cover b.order b.page x ≤ heldCover held x :=
    List.single_le_sum (by simp) _ (List.mem_map_of_mem hb)
  have e₁ : cover k p x = 1 := if_pos xp
  have e₂ : cover b.order b.page x = 1 := if_pos xb
  have total := h.exact x
  unfold listed at total
  split at total <;> omega

theorem hand_apart (h : Inv s m lists (⟨k, p⟩ :: held) pages) (hb : b ∈ held)
    (xp : InBlock k p x) : ¬ b.Has x := by
  intro xb
  have hit' : cover b.order b.page x ≤ heldCover held x :=
    List.single_le_sum (by simp) _ (List.mem_map_of_mem hb)
  have e₁ : cover k p x = 1 := if_pos xp
  have e₂ : cover b.order b.page x = 1 := if_pos xb
  have total := h.exact x
  simp only [heldCover, List.map_cons, List.sum_cons] at total
  unfold heldCover at hit'
  split at total <;> omega

theorem hand_not_listed (h : Inv s m lists (⟨k, p⟩ :: held) pages) (hj : j < buddyMaxOrder) :
    p ∉ lists j := fun hp =>
  h.listed_apart_held hj hp (by simp : (⟨k, p⟩ : Block) ∈ _) (inBlock_self j p) (inBlock_self k p)

theorem start_mem (h : Inv s m lists (⟨k, p⟩ :: held) pages) : p ∈ pages :=
  h.held_mem (by simp : (⟨k, p⟩ : Block) ∈ _) (inBlock_self k p)

theorem node_ne_zero (h : Inv s m lists held pages) (hp : p ∈ pages) : node s.base p ≠ 0 := by
  have := h.based p hp
  unfold node; omega

theorem head_cases (h : Inv s m lists held pages) (hk : k < buddyMaxOrder) :
    s.freeLists k = 0 ∨ ∃ q ∈ lists k, s.freeLists k = node s.base q := by
  have he := (h.linked k hk).head_eq
  cases e : lists k with
  | nil => left; rw [he, e]; rfl
  | cons q rest => right; exact ⟨q, by simp, by rw [he, e]; rfl⟩

end Inv

/-- An operation's effect besides lists and bitmaps: counters kept, and stores
only apart from `held`. -/
structure Frame (held : List Block) (s : BuddyAllocator) (m : Memory) (s' : BuddyAllocator)
    (m' : Memory) : Prop where
  base : s'.base = s.base
  totalPages : s'.totalPages = s.totalPages
  stats : s'.stats = s.stats
  stores : Memory.StoresIn (Apart s.base held) m m'

namespace Frame

variable {held : List Block} {s s₁ s₂ : BuddyAllocator} {m m₁ m₂ : Memory}

theorem refl (held : List Block) (s : BuddyAllocator) (m : Memory) : Frame held s m s m :=
  ⟨rfl, rfl, rfl, .refl _ m⟩

theorem trans (h₁ : Frame held s m s₁ m₁) (h₂ : Frame held s₁ m₁ s₂ m₂) : Frame held s m s₂ m₂ :=
  ⟨h₂.base.trans h₁.base, h₂.totalPages.trans h₁.totalPages, h₂.stats.trans h₁.stats,
    h₁.stores.trans (h₁.base ▸ h₂.stores)⟩

theorem drop {b : Block} (h : Frame (b :: held) s m s₁ m₁) : Frame held s m s₁ m₁ :=
  ⟨h.base, h.totalPages, h.stats, h.stores.mono fun _ ha c hc => ha c (List.mem_cons_of_mem b hc)⟩

end Frame

theorem toggle_out {s : BuddyAllocator} {k i : Nat} (h : ¬ i / 64 < Bitmap.wordCount) :
    s.toggle k i = .error .indexOutOfBounds := by
  rw [toggle, Bitmap.toggle_out h]; rfl

theorem toggle_eq {s : BuddyAllocator} {k i : Nat} (h : i / 64 < Bitmap.wordCount) :
    ∃ s', s.toggle k i = .ok s' ∧ s'.base = s.base ∧ s'.totalPages = s.totalPages ∧
      s'.stats = s.stats ∧ s'.freeLists = s.freeLists ∧
      ∀ j l, (s'.bitmaps j).bit l =
        if j = k ∧ l = i then !(s.bitmaps k).bit i else (s.bitmaps j).bit l := by
  obtain ⟨b', e, hb⟩ := Bitmap.toggle_eq (b := s.bitmaps k) h
  refine ⟨{ s with bitmaps := fun j => if j = k then b' else s.bitmaps j },
    by rw [toggle, e]; rfl, rfl, rfl, rfl, rfl, fun j l => ?_⟩
  by_cases hj : j = k
  · subst hj; simp [hb]
  · simp [hj]

end BuddyAllocator
end CrustyOs.Abalone
