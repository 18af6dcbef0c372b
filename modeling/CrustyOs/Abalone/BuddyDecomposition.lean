import CrustyOs.Abalone.BuddyRegion
import CrustyOs.Lib.Runs
import CrustyOs.Lib.Tiling

/-! The blocks of a region. The loop of `add_region` finds them from its two counters
alone; what `free_block` does with them has no part in it. -/
namespace CrustyOs.Abalone.BuddyAllocator
open Lib

/-- The rounds of `while remaining > 0` from its two counters on, with the blocks passed to
`free_block`. No round takes more than remains, and the loop leaves nothing. -/
inductive Countdown : Nat → Nat → List Block → Prop where
  | exit (off : Nat) : Countdown off 0 []
  | round {off rem : Nat} {blocks : List Block} (pos : 0 < rem) (room : 1 <<< nextOrder off rem ≤ rem)
      (rest : Countdown (off + 1 <<< nextOrder off rem) (rem - 1 <<< nextOrder off rem) blocks) :
      Countdown off rem (⟨nextOrder off rem, off⟩ :: blocks)

theorem nextOrder_room (off : Nat) {rem : Nat} (pos : 0 < rem) :
    0 < 1 <<< nextOrder off rem ∧ 1 <<< nextOrder off rem ≤ rem := by
  obtain ⟨_, _, room, _⟩ := nextOrder_spec off pos
  rw [Nat.one_shiftLeft]
  exact ⟨Nat.two_pow_pos _, room⟩

namespace Countdown

variable {off rem : Nat} {blocks : List Block} {b c : Block}

theorem tiles (h : Countdown off rem blocks) :
    Tiles Block.page (fun b => 2 ^ b.order) off blocks (off + rem) := by
  induction h with
  | exit off => exact rfl
  | @round off rem blocks pos room rest ih =>
    have stop : off + 1 <<< nextOrder off rem + (rem - 1 <<< nextOrder off rem) = off + rem := by omega
    rw [stop, Nat.one_shiftLeft] at ih
    exact ⟨rfl, ih⟩

theorem aligned (h : Countdown off rem blocks) (hb : b ∈ blocks) :
    b.order < buddyMaxOrder ∧ 2 ^ b.order ∣ b.page := by
  induction h with
  | exit off => exact absurd hb List.not_mem_nil
  | @round off rem blocks pos room rest ih =>
    cases List.mem_cons.mp hb with
    | inl now =>
      obtain ⟨top, multiple, _⟩ := nextOrder_spec off pos
      rw [now]
      exact ⟨top, multiple⟩
    | inr later => exact ih later

/-- Where the alignment allowed a larger block, the region ends before it would have. -/
theorem decided (h : Countdown off rem blocks) (hb : b ∈ blocks) (low : b.order < buddyMaxOrder - 1)
    (lower : 2 ^ (b.order + 1) ∣ b.page) : off + rem < b.page + 2 ^ (b.order + 1) := by
  induction h with
  | exit off => exact absurd hb List.not_mem_nil
  | @round off rem blocks pos room rest ih =>
    cases List.mem_cons.mp hb with
    | inl now =>
      obtain ⟨_, _, _, size⟩ := nextOrder_spec off pos
      subst now
      exact Nat.add_lt_add_left (size low lower) off
    | inr later =>
      have before := ih later
      omega

end Countdown

/-! The run of `free_block` over a list of blocks. -/

def freeBlocks (s : BuddyAllocator) (m : Memory) : List Block → Except Panic (BuddyAllocator × Memory)
  | [] => .ok (s, m)
  | b :: blocks => do
    let (s, m) ← s.freeBlock m b.page b.order
    freeBlocks s m blocks

theorem freeBlock_returns_iff {s : BuddyAllocator} {m : Memory} {k p : Nat} :
    (∃ r, s.freeBlock m p k = .ok r) ↔ Bitmap.InRange k p := by
  constructor
  · rintro ⟨r, done⟩
    by_contra out
    rw [freeBlock_out out] at done
    cases done
  · intro range
    obtain ⟨s', toggled, _⟩ := toggle_eq (s := s.setFreeList k (node s.base p)) (k := k) range
    exact ⟨_, freeBlock_eq toggled⟩

/-- However many rounds are allowed beyond the pages to register, the loop files these blocks
and returns. -/
theorem Countdown.loop {off rem : Nat} {blocks : List Block} (h : Countdown off rem blocks) :
    ∀ {rounds : Nat} (s : BuddyAllocator) (m : Memory), rem ≤ rounds →
      addRegionLoop rounds s m off rem = freeBlocks s m blocks := by
  induction h with
  | exit off =>
    intro rounds s m _
    cases rounds with
    | zero => rfl
    | succ rounds => rfl
  | @round off rem blocks pos room rest ih =>
    intro rounds s m enough
    obtain ⟨takes, _⟩ := nextOrder_room off pos
    cases rounds with
    | zero => exact absurd pos (Nat.not_lt_of_le enough)
    | succ rounds =>
      rw [addRegionLoop, if_pos pos, freeBlocks]
      refine bind_congr fun filed => ?_
      exact ih filed.1 filed.2 (by omega)

end CrustyOs.Abalone.BuddyAllocator
