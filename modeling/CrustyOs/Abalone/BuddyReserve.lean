import CrustyOs.Abalone.BuddyCuts
import CrustyOs.Abalone.BuddyDecomposition
import CrustyOs.Abalone.BuddyLists

/-! How many blocks of an order the free lists still have in them. A split leaves all of a
larger block but the part that was asked for, so few allocations cannot use up many runs. -/
namespace CrustyOs.Abalone.BuddyAllocator
open Lib

variable {s s' : BuddyAllocator} {m m' : Memory} {lists lists' : Nat → List Nat} {held live : List Block}
  {pages : Finset Nat} {b : Block} {i j k p off rem ptr : Nat}

/-- The blocks of order `k` in one of order `j`. -/
def parts (k j : Nat) : Nat := if k ≤ j then 2 ^ (j - k) else 0

/-- The blocks of order `k` in the listed blocks. -/
def reserve (k : Nat) (lists : Nat → List Nat) : Nat := weight buddyMaxOrder (fun j _ => parts k j) lists

/-- The blocks of order `k` that a block of order `j` costs when it is split off. -/
def spend (k j : Nat) : Nat := 2 ^ (j - k)

theorem parts_self (k : Nat) : parts k k = 1 := by
  rw [parts, if_pos (Nat.le_refl k), Nat.sub_self, Nat.pow_zero]

theorem parts_of_lt (h : j < k) : parts k j = 0 := if_neg (Nat.not_le_of_lt h)

theorem parts_eq_spend (h : k ≤ j) : parts k j = spend k j := if_pos h

theorem parts_succ (h : k ≤ j) : parts k (j + 1) = 2 * parts k j := by
  rw [parts, parts, if_pos h, if_pos (Nat.le_succ_of_le h), Nat.succ_sub h, Nat.pow_succ, Nat.mul_comm]

theorem two_parts_le (k j : Nat) : 2 * parts k j ≤ parts k (j + 1) := by
  by_cases h : k ≤ j
  · exact Nat.le_of_eq (parts_succ h).symm
  · rw [parts_of_lt (Nat.lt_of_not_le h)]
    exact Nat.zero_le _

theorem reserve_push (hj : j < buddyMaxOrder) (k p : Nat) (lists : Nat → List Nat) :
    reserve k (Function.update lists j (p :: lists j)) = parts k j + reserve k lists :=
  weight_push (f := fun j _ => parts k j) hj p

theorem reserve_erase (hj : j < buddyMaxOrder) (hp : p ∈ lists j) (k : Nat) :
    parts k j + reserve k (Function.update lists j ((lists j).erase p)) = reserve k lists :=
  weight_erase (f := fun j _ => parts k j) hj hp

theorem Represents.reserve_eq (h : Represents s m lists) (h' : Represents s m lists') (k : Nat) :
    reserve k lists = reserve k lists' := by
  unfold reserve weight
  apply Finset.sum_congr rfl
  intro j hj
  have same := (h.linked j (Finset.mem_range.mp hj)).unique (h'.linked j (Finset.mem_range.mp hj))
  rw [List.map_injective_iff.mpr (fun p q => node_inj.mp) same]

/-! `alloc_pages`. -/

/-- Each upper half goes back; what the block loses is one block of its order. -/
theorem splitLoop_reserve (steps : Nat) : ∀ {s : BuddyAllocator} {m : Memory} {lists : Nat → List Nat},
    Inv s m lists (⟨j + steps, p⟩ :: held) pages → splitLoop steps s m p j = .ok (s', m') →
    ∃ lists', Inv s' m' lists' (⟨j, p⟩ :: held) pages ∧ ∀ k, reserve k lists' +
      (if k ≤ j + steps then spend k j else 0) = reserve k lists + parts k (j + steps) := by
  induction steps with
  | zero =>
    intro s m lists h run
    obtain ⟨rfl, rfl⟩ := Prod.mk.inj (Except.ok.inj run)
    refine ⟨lists, h, fun k => ?_⟩
    rfl
  | succ steps ih =>
    intro s m lists h run
    obtain ⟨⟨s₁, m₁⟩, filed, rest⟩ := ok_of_bind run
    have halves : Inv s m lists (⟨j + steps, p + 2 ^ (j + steps)⟩ :: ⟨j + steps, p⟩ :: held) pages := h.split
    have order : j + steps < buddyMaxOrder := (halves.held_aligned ⟨j + steps, _⟩ List.mem_cons_self).1
    rw [Nat.one_shiftLeft] at filed
    obtain ⟨s₂, m₂, filed', inv, _⟩ := freeBlock_spec halves (freeBlock_returns_iff.mp ⟨_, filed⟩)
    obtain ⟨rfl, rfl⟩ := Prod.mk.inj (Except.ok.inj (filed.symm.trans filed'))
    obtain ⟨lists', inv', count⟩ := ih inv rest
    refine ⟨lists', inv', fun k => ?_⟩
    have below := count k
    rw [reserve_push order] at below
    rw [← Nat.add_assoc]
    by_cases low : k ≤ j + steps
    · rw [if_pos low] at below
      rw [if_pos (Nat.le_succ_of_le low), parts_succ low]
      omega
    · rw [if_neg low, parts_of_lt (Nat.lt_of_not_le low)] at below
      by_cases top : k = j + steps + 1
      · have one : spend k j = 1 := by
          unfold spend
          rw [Nat.sub_eq_zero_of_le (by omega), Nat.pow_zero]
        rw [if_pos (Nat.le_of_eq top), one, ← top, parts_self]
        omega
      · rw [if_neg (by omega), parts_of_lt (by omega)]
        omega

theorem findOrder_least (h : Inv s m lists live pages) (found : s.findOrder j = some k) :
    ∀ i, j ≤ i → i < k → lists i = [] := by
  intro i le lt
  obtain ⟨_, range, before⟩ := List.find?_range'_eq_some.mp found
  have top := (List.mem_range'_1.mp range).2
  have zero : s.freeLists i = 0 := by simpa using before i le lt
  have none := (h.linked i (by omega)).head_zero_iff.mp zero
  exact List.map_eq_nil_iff.mp none

/-- The block comes out of the first list that has one. A block of each order up to that one is
gone with it, and its own parts of each smaller one. -/
theorem allocPages_reserve (h : Inv s m lists live pages)
    (run : s.allocPages m j = .ok (some ptr, s', m')) :
    ∃ p top lists', ptr = node s.base p ∧ Inv s' m' lists' (⟨j, p⟩ :: live) pages ∧
      (j ≤ top ∧ top < buddyMaxOrder ∧ ∀ i, j ≤ i → i < top → lists i = []) ∧
      ∀ k, reserve k lists' + (if k ≤ top then spend k j else 0) = reserve k lists := by
  obtain ⟨_, guard, run⟩ := ok_of_bind run
  cases found : s.findOrder j with
  | none =>
    rw [found] at run
    cases run
  | some top =>
    rw [found] at run
    have least := findOrder_least h found
    obtain ⟨hjt, ht, p, hp, head, first, _⟩ := findOrder_some h found
    obtain ⟨s₁, toggled, inv₁, frame₁⟩ := unlink_spec h ht hp
    obtain ⟨d, rfl⟩ := Nat.exists_eq_add_of_le hjt
    rw [pop_eq_unlink first] at toggled inv₁ frame₁
    simp only [head, setFreeList_base, node_page, Nat.add_sub_cancel_left] at run
    obtain ⟨s₂, again, run⟩ := ok_of_bind run
    obtain rfl := Except.ok.inj (again.symm.trans toggled)
    obtain ⟨⟨s₃, m₃⟩, split, run⟩ := ok_of_bind run
    obtain ⟨_, _, run⟩ := ok_of_bind run
    obtain ⟨lists', inv', count⟩ := splitLoop_reserve d inv₁ split
    obtain ⟨answer, rest⟩ := Prod.mk.inj (Except.ok.inj run)
    obtain ⟨rfl, rfl⟩ := Prod.mk.inj rest
    obtain rfl := Option.some.inj answer
    have base : s₃.base = s.base := by
      obtain ⟨_, _, _, split', _, frame, _⟩ :=
        (splitLoop_spec d inv₁).resolve_right fun stopped => by rw [split] at stopped; cases stopped.1
      obtain ⟨rfl, rfl⟩ := Prod.mk.inj (Except.ok.inj (split.symm.trans split'))
      exact (frame₁.trans frame).base
    refine ⟨p, j + d, lists', by rw [base]; rfl, inv'.recount, ⟨hjt, ht, least⟩, fun k => ?_⟩
    have taken := reserve_erase ht hp k
    have after := count k
    omega

theorem allocPages_reserve_le (h : Inv s m lists live pages) (run : s.allocPages m j = .ok (some ptr, s', m')) :
    ∃ p lists', ptr = node s.base p ∧ Inv s' m' lists' (⟨j, p⟩ :: live) pages ∧
      ∀ k, reserve k lists ≤ reserve k lists' + spend k j ∧
        (k ≤ j → reserve k lists = reserve k lists' + spend k j) := by
  obtain ⟨p, top, lists', place, inv, ⟨le, _, _⟩, count⟩ := allocPages_reserve h run
  refine ⟨p, lists', place, inv, fun k => ?_⟩
  have lost := count k
  split at lost
  · exact ⟨Nat.le_of_eq lost.symm, fun _ => lost.symm⟩
  · exact ⟨by omega, fun low => by omega⟩

theorem reserve_listed (some : 0 < reserve k lists) : ∃ j, k ≤ j ∧ j < buddyMaxOrder ∧ lists j ≠ [] := by
  obtain ⟨j, hj, p, hp, positive⟩ := weight_pos some
  refine ⟨j, ?_, hj, List.ne_nil_of_mem hp⟩
  by_contra smaller
  rw [parts_of_lt (Nat.lt_of_not_le smaller)] at positive
  exact absurd positive (Nat.lt_irrefl 0)

theorem reserve_whole (empty : ∀ i < k, lists i = []) : reserve 0 lists = 2 ^ k * reserve k lists := by
  unfold reserve
  rw [← weight_scale]
  apply weight_congr
  intro j _ p hp
  have le : k ≤ j := by
    by_contra low
    rw [empty j (Nat.lt_of_not_le low)] at hp
    cases hp
  obtain ⟨d, rfl⟩ := Nat.exists_eq_add_of_le le
  rw [parts_eq_spend (Nat.zero_le _), parts_eq_spend le, spend, spend, Nat.add_sub_cancel_left, Nat.sub_zero,
    Nat.pow_add]

/-- Single pages come out of the small blocks first: as long as those have any, no larger one
is split. -/
theorem allocPages_frugal {c : Nat} (h : Inv s m lists live pages) (room : 2 ^ k ≤ c + 1)
    (small : reserve 0 lists ≤ 2 ^ k * reserve k lists + c)
    (run : s.allocPages m 0 = .ok (some ptr, s', m')) :
    ∃ p lists', Inv s' m' lists' (⟨0, p⟩ :: live) pages ∧ reserve 0 lists' + 1 = reserve 0 lists ∧
      reserve 0 lists' ≤ 2 ^ k * reserve k lists' + c := by
  obtain ⟨p, top, lists', _, inv, ⟨_, _, least⟩, count⟩ := allocPages_reserve h run
  have one : reserve 0 lists' + 1 = reserve 0 lists := by
    rw [← count 0, if_pos (Nat.zero_le top)]
    rfl
  refine ⟨p, lists', inv, one, ?_⟩
  have lost := count k
  by_cases reached : k ≤ top
  · -- every listed block is a whole number of blocks of order `k`
    have whole := reserve_whole fun i hi => least i (Nat.zero_le i) (Nat.lt_of_lt_of_le hi reached)
    have unit : spend k 0 = 1 := by rw [spend, Nat.zero_sub, Nat.pow_zero]
    rw [if_pos reached, unit] at lost
    rw [whole, ← lost, Nat.mul_add, Nat.mul_one] at one
    omega
  · rw [if_neg reached, Nat.add_zero] at lost
    rw [lost]
    omega

/-! `dealloc_pages`. -/

theorem mergeLoop_reserve (left : Nat) : ∀ {s : BuddyAllocator} {m : Memory} {lists : Nat → List Nat} {j p p' j' : Nat},
    Inv s m lists (⟨j, p⟩ :: held) pages → j + left = buddyMaxOrder - 1 →
    mergeLoop left s m p j = .ok (s', m', p', j') →
    ∃ lists', Inv s' m' lists' (⟨j', p'⟩ :: held) pages ∧
      ∀ k, reserve k lists + parts k j ≤ reserve k lists' + parts k j' := by
  induction left with
  | zero =>
    intro s m lists j p p' j' h _ run
    cases run
    exact ⟨lists, h, fun k => Nat.le_refl _⟩
  | succ left ih =>
    intro s m lists j p p' j' h top run
    have hj : j < buddyMaxOrder := (h.held_aligned ⟨j, p⟩ List.mem_cons_self).1
    have aligned : 2 ^ j ∣ p := (h.held_aligned ⟨j, p⟩ List.mem_cons_self).2
    rw [mergeLoop] at run
    obtain ⟨set, tested, run⟩ := ok_of_bind run
    cases set with
    | false =>
      cases run
      exact ⟨lists, h, fun k => Nat.le_refl _⟩
    | true =>
      have range : (p >>> (j + 1)) / 64 < Bitmap.wordCount := by
        by_contra out
        rw [Bitmap.test, if_neg out] at tested
        cases tested
      rw [Bitmap.test_eq range, pair_bit h] at tested
      have mem : p ^^^ 2 ^ j ∈ lists j := of_decide_eq_true (Except.ok.inj tested)
      obtain ⟨s₁, toggled, inv₁, _⟩ := unlink_spec h hj mem
      have pair : (p ^^^ 2 ^ j) >>> (j + 1) = p >>> (j + 1) := by
        rw [Nat.shiftRight_eq_div_pow, Nat.shiftRight_eq_div_pow]
        exact pair_index_buddy aligned
      rw [pair] at toggled
      simp only [if_true, Nat.one_shiftLeft] at run
      obtain ⟨s₂, again, run⟩ := ok_of_bind run
      obtain rfl := Except.ok.inj (again.symm.trans toggled)
      obtain ⟨lists', inv', count⟩ := ih (inv₁.merge (by omega)) (by omega) run
      refine ⟨lists', inv', fun k => ?_⟩
      have taken := reserve_erase hj mem k
      have whole := two_parts_le k j
      have after := count k
      omega

theorem deallocPages_reserve (h : Inv s m lists live pages) (hb : b ∈ live)
    (run : s.deallocPages m (b.start s.base) b.order = .ok (s', m')) :
    ∃ lists', Inv s' m' lists' (live.erase b) pages ∧
      ∀ k, reserve k lists + parts k b.order ≤ reserve k lists' := by
  have hk := (h.held_aligned b hb).1
  have page : (b.start s.base - s.base) / pageSize = b.page := node_page s.base b.page
  obtain ⟨_, _, run⟩ := ok_of_bind run
  obtain ⟨_, _, run⟩ := ok_of_bind run
  dsimp only at run
  rw [page] at run
  obtain ⟨⟨s₁, m₁, p', j'⟩, merged, run⟩ := ok_of_bind run
  obtain ⟨⟨s₂, m₂⟩, filed, run⟩ := ok_of_bind run
  obtain ⟨_, _, run⟩ := ok_of_bind run
  obtain ⟨rfl, rfl⟩ := Prod.mk.inj (Except.ok.inj run)
  obtain ⟨lists₁, inv₁, count⟩ := mergeLoop_reserve _ (h.perm (List.perm_cons_erase hb)) (by omega) merged
  have order := (inv₁.held_aligned ⟨j', p'⟩ (by simp)).1
  obtain ⟨s₃, m₃, filed', inv₂, _⟩ := freeBlock_spec inv₁ (freeBlock_returns_iff.mp ⟨_, filed⟩)
  obtain ⟨rfl, rfl⟩ := Prod.mk.inj (Except.ok.inj (filed.symm.trans filed'))
  refine ⟨_, inv₂.recount, fun k => ?_⟩
  rw [reserve_push order, Nat.add_comm (parts k j')]
  exact count k

/-! `add_region`. -/

/-- The aligned runs of `2 ^ k` pages in a region, by index. -/
def runs (k off rem : Nat) : Finset Nat := Finset.Ico ((off + 2 ^ k - 1) / 2 ^ k) ((off + rem) / 2 ^ k)

theorem mem_runs : i ∈ runs k off rem ↔ off ≤ i * 2 ^ k ∧ (i + 1) * 2 ^ k ≤ off + rem := by
  have pos := Nat.two_pow_pos k
  unfold runs
  rw [Finset.mem_Ico, Nat.lt_iff_add_one_le, Nat.le_div_iff_mul_le pos]
  apply and_congr_left'
  rw [← Nat.lt_succ_iff, Nat.div_lt_iff_lt_mul pos, Nat.succ_mul]
  omega

theorem round_up (k c : Nat) : (2 ^ k * c + 2 ^ k - 1) / 2 ^ k = c := by
  have pos := Nat.two_pow_pos k
  rw [Nat.add_sub_assoc pos, Nat.mul_add_div pos, Nat.div_eq_of_lt (Nat.sub_lt pos (by decide)), Nat.add_zero]

theorem runs_block (le : k ≤ j) (aligned : 2 ^ j ∣ off) (fits : 2 ^ j ≤ rem) :
    (runs k off rem).card = parts k j + (runs k (off + 2 ^ j) (rem - 2 ^ j)).card := by
  have pos := Nat.two_pow_pos k
  have last : off + 2 ^ j + (rem - 2 ^ j) = off + rem := by omega
  obtain ⟨d, rfl⟩ := Nat.exists_eq_add_of_le le
  obtain ⟨a, rfl⟩ := aligned
  rw [parts_eq_spend le, spend, Nat.add_sub_cancel_left, runs, runs, Nat.card_Ico, Nat.card_Ico, last]
  have first : 2 ^ (k + d) * a = 2 ^ k * (2 ^ d * a) := by rw [Nat.pow_add, Nat.mul_assoc]
  have second : 2 ^ (k + d) * a + 2 ^ (k + d) = 2 ^ k * (2 ^ d * a + 2 ^ d) := by
    rw [first, Nat.mul_add, Nat.pow_add]
  have room : 2 ^ d * a + 2 ^ d ≤ (2 ^ (k + d) * a + rem) / 2 ^ k := by
    rw [Nat.le_div_iff_mul_le pos, Nat.mul_comm, ← second]
    exact Nat.add_le_add_left fits _
  have some := Nat.two_pow_pos d
  rw [second, first, round_up, round_up, ← first]
  omega

/-- A smaller block has none of the runs: it ends before the first one starts, or the region
is too short for one. -/
theorem runs_smaller (lt : j < k) (aligned : 2 ^ j ∣ off) (fits : 2 ^ j ≤ rem)
    (decided : 2 ^ (j + 1) ∣ off → rem < 2 ^ (j + 1)) :
    runs k off rem = runs k (off + 2 ^ j) (rem - 2 ^ j) := by
  have last : off + 2 ^ j + (rem - 2 ^ j) = off + rem := by omega
  have whole : 2 ^ (j + 1) ∣ 2 ^ k := Nat.pow_dvd_pow 2 lt
  have size := Nat.le_of_dvd (Nat.two_pow_pos k) whole
  ext i
  rw [mem_runs, mem_runs, last, Nat.succ_mul]
  by_cases lower : 2 ^ (j + 1) ∣ off
  · have short := decided lower
    omega
  · apply and_congr_left'
    obtain ⟨a, rfl⟩ := aligned
    obtain ⟨c, unit⟩ := whole
    have odd : a % 2 ≠ 0 := by
      intro even
      obtain ⟨e, rfl⟩ := Nat.dvd_of_mod_eq_zero even
      exact lower ⟨e, by rw [Nat.pow_succ, Nat.mul_assoc]⟩
    have start : i * 2 ^ k = 2 ^ j * (2 * (c * i)) := by
      rw [unit, Nat.pow_succ]
      ring
    have next : 2 ^ j * a + 2 ^ j = 2 ^ j * (a + 1) := (Nat.mul_succ _ _).symm
    rw [start, next, Nat.mul_le_mul_left_iff (Nat.two_pow_pos j), Nat.mul_le_mul_left_iff (Nat.two_pow_pos j)]
    omega

theorem runs_next (hk : k < buddyMaxOrder) (off : Nat) (pos : 0 < rem) :
    (runs k off rem).card = parts k (nextOrder off rem) +
      (runs k (off + 2 ^ nextOrder off rem) (rem - 2 ^ nextOrder off rem)).card := by
  obtain ⟨low, aligned, fits, decided⟩ := nextOrder_spec off pos
  by_cases le : k ≤ nextOrder off rem
  · exact runs_block le aligned fits
  · have lt := Nat.lt_of_not_le le
    rw [parts_of_lt lt, Nat.zero_add, runs_smaller lt aligned fits (decided (by omega))]

theorem runs_zero (k off : Nat) : (runs k off 0).card = 0 := by
  rw [runs, Nat.card_Ico]
  apply Nat.sub_eq_zero_of_le
  apply Nat.div_le_div_right
  have pos := Nat.two_pow_pos k
  omega

theorem reserve_emitted (hk : k < buddyMaxOrder) (rounds : Nat) :
    ∀ (lists : Nat → List Nat) (off rem : Nat), rem ≤ rounds →
      reserve k (emitted rounds lists off rem) = reserve k lists + (runs k off rem).card := by
  induction rounds with
  | zero =>
    intro lists off rem bound
    obtain rfl := Nat.le_zero.mp bound
    rw [runs_zero, Nat.add_zero, emitted]
  | succ rounds ih =>
    intro lists off rem bound
    cases Nat.eq_zero_or_pos rem with
    | inl none =>
      rw [none, runs_zero, emitted, if_neg (Nat.lt_irrefl 0), Nat.add_zero]
    | inr pos =>
      obtain ⟨order, _⟩ := nextOrder_spec off pos
      have takes := Nat.two_pow_pos (nextOrder off rem)
      rw [emitted, if_pos pos, ih _ _ _ (by omega), reserve_push order, runs_next hk off pos]
      omega

/-! Whole systems. -/

variable {t t' : System} {blocks blocks' : List Block} {n base : Nat} {op : Op} {ops : List Op} {c : Nat × Nat}

theorem Sound.represents (h : Sound t lists blocks) : Represents t.buddy t.mem lists := h.inv.represents

def callRuns (base k : Nat) (c : Nat × Nat) : Nat := (runs k ((c.1 - base) / pageSize) c.2).card

def Op.brings (base k : Nat) : Op → Nat
  | .addRegion virtBase pageCount => callRuns base k (virtBase, pageCount)
  | .deallocPages _ order => parts k order
  | _ => 0

def Op.costs (k : Nat) : Op → Nat
  | .allocPages order => spend k order
  | _ => 0

theorem Sound.reserve_region (h : Sound t lists blocks) (hk : k < buddyMaxOrder) (valid : Valid t (.addRegion c.1 c.2))
    (done : exec t (.addRegion c.1 c.2) = .ok t') (h' : Represents t'.buddy t'.mem lists') :
    reserve k lists' = reserve k lists + callRuns t.buddy.base k c := by
  obtain ⟨based, above, _, new⟩ := valid
  obtain ⟨⟨b, m⟩, run, done⟩ := ok_of_bind done
  obtain rfl := Except.ok.inj done
  rcases addRegion_spec h.inv h.accounts based above new with
    ⟨b', m', filed, run', inv, _, _, _, same, _⟩ | ⟨out, _⟩
  · obtain ⟨rfl, rfl⟩ := Prod.mk.inj (Except.ok.inj (run.symm.trans run'))
    rw [h'.reserve_eq inv.represents, same, reserve_emitted hk _ _ _ _ (Nat.le_refl _)]
    rfl
  · cases run.symm.trans out

theorem Sound.reserve_alloc (h : Sound t lists blocks) (valid : j < buddyMaxOrder)
    (done : exec t (.allocPages j) = .ok t') (h' : Represents t'.buddy t'.mem lists') :
    reserve k lists ≤ reserve k lists' + spend k j := by
  obtain ⟨⟨found, b, m⟩, run, done⟩ := ok_of_bind done
  cases found with
  | none =>
    obtain rfl := Except.ok.inj done
    rcases allocPages_spec h.inv h.accounts valid with ⟨run', _⟩ | ⟨p, b', m', _, run', _⟩ | ⟨out, _⟩
    · obtain ⟨_, rest⟩ := Prod.mk.inj (Except.ok.inj (run.symm.trans run'))
      obtain ⟨rfl, rfl⟩ := Prod.mk.inj rest
      rw [Represents.reserve_eq h' h.represents]
      exact Nat.le_add_right _ _
    · cases run.symm.trans run'
    · cases run.symm.trans out
  | some ptr =>
    obtain rfl := Except.ok.inj done
    obtain ⟨_, lists₁, _, inv, count⟩ := allocPages_reserve_le h.inv run
    rw [Represents.reserve_eq h' inv.represents]
    exact (count k).1

theorem Sound.reserve_dealloc (h : Sound t lists blocks) (valid : Valid t (.deallocPages ptr j))
    (done : exec t (.deallocPages ptr j) = .ok t') (h' : Represents t'.buddy t'.mem lists') :
    reserve k lists + parts k j ≤ reserve k lists' := by
  have mem : (⟨ptr, j⟩ : Allocation) ∈ blocks.map (Allocation.of t.buddy.base) := h.live ▸ valid
  obtain ⟨c, hc, e⟩ := List.mem_map.mp mem
  obtain ⟨rfl, rfl⟩ := Allocation.mk.inj e
  obtain ⟨⟨b, m⟩, run, done⟩ := ok_of_bind done
  obtain rfl := Except.ok.inj done
  obtain ⟨lists₁, inv, count⟩ := deallocPages_reserve h.inv hc run
  rw [Represents.reserve_eq h' inv.represents]
  exact count k

/-- One operation: what it brings is there afterwards, but for what it costs. -/
theorem Sound.reserve_step (h : Sound t lists blocks) (hk : k < buddyMaxOrder) (valid : Valid t op)
    (done : exec t op = .ok t') (h' : Represents t'.buddy t'.mem lists') :
    reserve k lists + op.brings t.buddy.base k ≤ reserve k lists' + op.costs k := by
  cases op with
  | addRegion virtBase pageCount =>
    have grown := h.reserve_region (c := (virtBase, pageCount)) hk valid done h'
    show reserve k lists + callRuns t.buddy.base k (virtBase, pageCount) ≤ reserve k lists' + 0
    rw [grown, Nat.add_zero]
  | allocPages order =>
    show reserve k lists + 0 ≤ reserve k lists' + spend k order
    rw [Nat.add_zero]
    exact h.reserve_alloc valid done h'
  | deallocPages ptr order =>
    show reserve k lists + parts k order ≤ reserve k lists' + 0
    rw [Nat.add_zero]
    exact h.reserve_dealloc valid done h'
  | store addr value =>
    obtain rfl := Except.ok.inj done
    have kept := (store_sound h valid).represents
    show reserve k lists + 0 ≤ reserve k lists' + 0
    rw [Represents.reserve_eq h' kept]

/-- `n` requests of order `k`, one after the other, are all served. -/
def ServesAll (k : Nat) : Nat → System → Prop
  | 0, _ => True
  | n + 1, t => ∃ ptr b m, t.buddy.allocPages t.mem k = .ok (some ptr, b, m) ∧
      ServesAll k n { t with buddy := b, mem := m, live := ⟨ptr, k⟩ :: t.live }

theorem Sound.servesAll_iff (hk : k < buddyMaxOrder) (n : Nat) : ∀ {t : System} {lists : Nat → List Nat}
    {blocks : List Block}, Sound t lists blocks → (∀ x ∈ t.pages, x < Bitmap.capacity) →
    (ServesAll k n t ↔ n ≤ reserve k lists) := by
  have one : spend k k = 1 := by rw [spend, Nat.sub_self, Nat.pow_zero]
  induction n with
  | zero => exact fun {t lists blocks} _ _ => iff_of_true trivial (Nat.zero_le _)
  | succ n ih =>
    intro t lists blocks h within
    -- what is left after a request that is served
    have later : ∀ {ptr b m}, t.buddy.allocPages t.mem k = .ok (some ptr, b, m) →
        (ServesAll k n { t with buddy := b, mem := m, live := ⟨ptr, k⟩ :: t.live } ↔ n + 1 ≤ reserve k lists) := by
      intro ptr b m run
      obtain ⟨p, lists', rfl, inv, count⟩ := allocPages_reserve_le h.inv run
      have done : exec t (.allocPages k) = .ok { t with buddy := b, mem := m, live := ⟨_, k⟩ :: t.live } :=
        bind_of_ok run _
      have valid : Valid t (.allocPages k) := hk
      obtain ⟨lists₁, blocks₁, sound, _⟩ := step_kept h valid done
      rw [ih sound within, sound.represents.reserve_eq inv.represents, (count k).2 (Nat.le_refl k), one]
      omega
    constructor
    · rintro ⟨ptr, b, m, run, rest⟩
      exact (later run).mp rest
    · intro enough
      have some : 0 < reserve k lists := Nat.lt_of_lt_of_le (Nat.succ_pos n) enough
      obtain ⟨ptr, b, m, run⟩ := (h.serves_iff within hk).mpr (reserve_listed some)
      exact ⟨ptr, b, m, run, (later run).mpr enough⟩

theorem reserve_nil (k : Nat) : reserve k (fun _ => []) = 0 := weight_empty fun _ _ => rfl

/-- In every run: `n` more requests of order `k` are served exactly when the free lists have
`n` blocks of it, and they have what the regions and the blocks given back brought, but for one
block for each request made so far that was no larger, and its own parts for each larger one. -/
theorem supply_in_every_run {b : BuddyAllocator} (set : BuddyAllocator.new.setBase base = .ok b)
    (run : Trace exec (ValidWithin Bitmap.capacity) (booted b m) ops t) (hk : k < buddyMaxOrder) :
    ∃ lists, Represents t.buddy t.mem lists ∧ (∀ n, ServesAll k n t ↔ n ≤ reserve k lists) ∧
      (ops.map (Op.brings base k)).sum ≤ reserve k lists + (ops.map (Op.costs k)).sum := by
  have initial := booted_sound m set
  have stock := run.stock (P := fun t n => ∃ lists, Represents t.buddy t.mem lists ∧ reserve k lists = n)
    (f := Op.brings base k) (g := Op.costs k) (n := 0) ⟨_, initial.represents, reserve_nil k⟩ ?_
  · obtain ⟨n, ⟨lists, represents, rfl⟩, total⟩ := stock
    obtain ⟨_, lists', blocks, sound⟩ := run_sound set (run.reach.mono fun _ _ valid => valid.1)
    have within := pages_within set run.reach
    refine ⟨lists, represents, fun n => ?_, by omega⟩
    rw [sound.servesAll_iff hk n within, sound.represents.reserve_eq represents]
  · rintro t op t' n reached valid done ⟨lists, represents, rfl⟩
    obtain ⟨from_base, lists₁, blocks, sound⟩ := run_sound set (reached.mono fun _ _ valid => valid.1)
    obtain ⟨lists', blocks', sound', _⟩ := step_kept sound valid.1 done
    have step := sound.reserve_step hk valid.1 done sound'.represents
    rw [from_base, sound.represents.reserve_eq represents] at step
    exact ⟨_, ⟨lists', sound'.represents, rfl⟩, step⟩

def pairOps : List Op := [.addRegion lowUsable 5, .allocPages 0]

theorem supply_in_low_run : ∃ t lists, Trace exec (ValidWithin Bitmap.capacity) lowSystem pairOps.reverse t ∧
    Represents t.buddy t.mem lists ∧ (∀ n, ServesAll 1 n t ↔ n ≤ reserve 1 lists) ∧ 2 ≤ reserve 1 lists + 1 := by
  have set : BuddyAllocator.new.setBase lowUsable = .ok { new with base := lowUsable } := rfl
  have returns : (trial exec (ValidWithin Bitmap.capacity) lowSystem pairOps).isSome := by decide
  obtain ⟨t, ran⟩ := Option.isSome_iff_exists.mp returns
  have run := trial_trace pairOps .start ran
  rw [List.append_nil] at run
  obtain ⟨lists, represents, serves, total⟩ := supply_in_every_run (k := 1) set run (by decide)
  have brought : (pairOps.reverse.map (Op.brings lowUsable 1)).sum = 2 := by decide
  have spent : (pairOps.reverse.map (Op.costs 1)).sum = 1 := by decide
  rw [brought, spent] at total
  exact ⟨t, lists, run, represents, serves, total⟩

end CrustyOs.Abalone.BuddyAllocator
