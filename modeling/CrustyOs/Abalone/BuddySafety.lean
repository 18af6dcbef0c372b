import CrustyOs.Abalone.BuddyRuns

/-! Buddy safety over whole runs: the blocks stay apart and cover the registered
pages, what is live is not stored to, and the alignment of what is handed out is
the alignment of the base. -/
namespace CrustyOs.Abalone.BuddyAllocator
open Lib

variable {s : System} {b : BuddyAllocator} {m : Memory} {base : Nat} {lists : Nat → List Nat}
  {blocks : List Block}

def allBlocks (lists : Nat → List Nat) (live : List Block) : List Block :=
  (List.range buddyMaxOrder).flatMap (fun k => (lists k).map (Block.mk k)) ++ live

theorem mem_allBlocks {c : Block} :
    c ∈ allBlocks lists blocks ↔ (c.order < buddyMaxOrder ∧ c.page ∈ lists c.order) ∨ c ∈ blocks := by
  rw [allBlocks, List.mem_append, List.mem_flatMap]
  apply or_congr_left
  constructor
  · rintro ⟨k, hk, hc⟩
    obtain ⟨p, hp, rfl⟩ := List.mem_map.mp hc
    exact ⟨List.mem_range.mp hk, hp⟩
  · rintro ⟨hk, hp⟩
    exact ⟨c.order, List.mem_range.mpr hk, List.mem_map.mpr ⟨c.page, hp, rfl⟩⟩

theorem heldCover_append (l₁ l₂ : List Block) (x : Nat) :
    heldCover (l₁ ++ l₂) x = heldCover l₁ x + heldCover l₂ x := by
  simp [heldCover]

theorem heldCover_flatMap (n : Nat) (lists : Nat → List Nat) (x : Nat) :
    heldCover ((List.range n).flatMap (fun k => (lists k).map (Block.mk k))) x =
      weight n (fun k p => cover k p x) lists := by
  induction n with
  | zero => rfl
  | succ n ih =>
    have last : heldCover ((lists n).map (Block.mk n)) x =
        ((lists n).map fun p => cover n p x).sum := by
      simp [heldCover, Function.comp_def]
    rw [List.range_succ, List.flatMap_append, heldCover_append, ih, weight, weight,
      Finset.sum_range_succ]
    simp [last]

theorem pairwise_of_cover {l : List Block} (single : ∀ x, heldCover l x ≤ 1) :
    l.Pairwise fun c d => ∀ x, c.Has x → ¬ d.Has x := by
  induction l with
  | nil => exact List.Pairwise.nil
  | cons c l ih =>
    refine List.Pairwise.cons ?_ (ih fun x => ?_)
    · intro d hd x xc xd
      have hit : cover d.order d.page x ≤ heldCover l x :=
        List.single_le_sum (by simp) _ (List.mem_map_of_mem hd)
      have one : cover c.order c.page x = 1 := if_pos xc
      have one' : cover d.order d.page x = 1 := if_pos xd
      have total := single x
      rw [heldCover_cons] at total
      omega
    · have total := single x
      rw [heldCover_cons] at total
      omega

/-- What a reader of the memory sees: the free lists as linked lists, and with the
live blocks a partition of the registered pages into aligned blocks. -/
structure Layout (s : System) (lists : Nat → List Nat) (blocks : List Block) : Prop where
  linked : ∀ k < buddyMaxOrder, Linked (nextOf s.mem) (prevOf s.mem) (s.buddy.freeLists k)
    ((lists k).map (node s.buddy.base))
  live : s.live = blocks.map (Allocation.of s.buddy.base)
  aligned : ∀ c ∈ allBlocks lists blocks, c.order < buddyMaxOrder ∧ 2 ^ c.order ∣ c.page
  apart : (allBlocks lists blocks).Pairwise fun c d => ∀ x, c.Has x → ¬ d.Has x
  covers : ∀ x, x ∈ s.pages ↔ ∃ c ∈ allBlocks lists blocks, c.Has x

theorem Sound.cover_all (h : Sound s lists blocks) (x : Nat) :
    heldCover (allBlocks lists blocks) x = if x ∈ s.pages then 1 else 0 := by
  rw [allBlocks, heldCover_append, heldCover_flatMap]
  exact h.inv.exact x

theorem Sound.layout (h : Sound s lists blocks) : Layout s lists blocks where
  linked := h.inv.linked
  live := h.live
  aligned c hc := by
    rcases mem_allBlocks.mp hc with ⟨hk, hp⟩ | hc
    · exact ⟨hk, h.inv.listed_aligned _ hk _ hp⟩
    · exact h.inv.held_aligned c hc
  apart := pairwise_of_cover fun x => by rw [h.cover_all x]; split <;> omega
  covers x := by
    constructor
    · intro hx
      have one := h.inv.exact x
      rw [if_pos hx] at one
      have some : 0 < heldCover (allBlocks lists blocks) x := by rw [h.cover_all x, if_pos hx]; omega
      by_contra none
      have zero : heldCover (allBlocks lists blocks) x = 0 := by
        apply List.sum_eq_zero
        intro v hv
        obtain ⟨c, hc, rfl⟩ := List.mem_map.mp hv
        exact if_neg fun has => none ⟨c, hc, has⟩
      omega
    · rintro ⟨c, hc, has⟩
      rcases mem_allBlocks.mp hc with ⟨hk, hp⟩ | hc
      · exact h.inv.listed_mem hk hp has
      · exact h.inv.held_mem hc has

theorem pages_within {limit : Nat} (set : BuddyAllocator.new.setBase base = .ok b)
    (run : Reach exec (ValidWithin limit) (booted b m) s) : ∀ x ∈ s.pages, x < limit := by
  induction run with
  | start => exact fun x hx => absurd hx (Finset.notMem_empty x)
  | step run valid done ih =>
    obtain ⟨_, lists, blocks, sound⟩ := run_sound set (run.mono fun _ _ valid => valid.1)
    obtain ⟨_, _, _, effect⟩ := step_kept sound valid.1 done
    intro x hx
    rw [effect.pages] at hx
    exact (Finset.mem_union.mp hx).elim (ih x) (valid.2 x)

/-- In every reached state the listed and the live blocks are disjoint aligned
blocks that cover exactly the registered pages, and the next valid operation
returns without a store to a block that stays live. -/
theorem blocks_apart_in_every_run (set : BuddyAllocator.new.setBase base = .ok b)
    (run : Reach exec (ValidWithin (2 ^ buddyMaxOrder)) (booted b m) s) :
    (∃ lists blocks, Layout s lists blocks) ∧
      ∀ op, ValidWithin (2 ^ buddyMaxOrder) s op → ∃ s', exec s op = .ok s' ∧
        ((∀ addr value, op ≠ .store addr value) →
          Memory.StoresIn (OutsideLive s s') s.mem s'.mem) := by
  have below := pages_within set run
  obtain ⟨_, lists, blocks, sound⟩ := run_sound set (run.mono fun _ _ valid => valid.1)
  refine ⟨⟨lists, blocks, sound.layout⟩, fun op valid => ?_⟩
  rcases step_sound sound valid.1 with ⟨s', _, _, done, _, effect⟩ | ⟨_, x, hx, far⟩
  · exact ⟨s', done, effect.stores⟩
  · have room : 2 ^ buddyMaxOrder ≤ Bitmap.capacity := by decide
    have lt : x < 2 ^ buddyMaxOrder := by
      cases op with
      | addRegion virtBase pageCount => exact valid.2 x hx
      | allocPages order => exact below x hx
      | deallocPages ptr order => exact absurd hx (Finset.notMem_empty x)
      | store addr value => exact absurd hx (Finset.notMem_empty x)
    omega

/-- The HHDM address of physical `0x53000`, where the low usable memory of a common
memory map begins: page-aligned and no more. -/
def lowUsable : Nat := 0xFFFF800000053000

def lowSystem : System := booted { new with base := lowUsable } Memory.blank

def lowOps : List Op :=
  [.addRegion lowUsable 5, .allocPages 0, .allocPages 1, .store (node lowUsable 4) 7,
    .deallocPages (node lowUsable 4) 0]

theorem blocks_apart_in_low_run :
    ∃ s, trial exec (ValidWithin (2 ^ buddyMaxOrder)) lowSystem lowOps = some s ∧
      (∃ lists blocks, Layout s lists blocks) ∧
      ∀ op, ValidWithin (2 ^ buddyMaxOrder) s op → ∃ s', exec s op = .ok s' ∧
        ((∀ addr value, op ≠ .store addr value) →
          Memory.StoresIn (OutsideLive s s') s.mem s'.mem) := by
  have returns : (trial exec (ValidWithin (2 ^ buddyMaxOrder)) lowSystem lowOps).isSome := by decide
  obtain ⟨s, done⟩ := Option.isSome_iff_exists.mp returns
  have set : BuddyAllocator.new.setBase lowUsable = .ok { new with base := lowUsable } := rfl
  exact ⟨s, done, blocks_apart_in_every_run set (trial_reach lowOps .start done)⟩

/-- The alignment handed out is the alignment of the base: everything below it is
aligned relative to the base only. -/
theorem alloc_pages_aligned_iff {k ptr : Nat} {b' : BuddyAllocator} {m' : Memory}
    (set : BuddyAllocator.new.setBase base = .ok b) (run : Reach exec Valid (booted b m) s)
    (done : s.buddy.allocPages s.mem k = .ok (some ptr, b', m')) :
    pageSize * 2 ^ k ∣ ptr ↔ pageSize * 2 ^ k ∣ base := by
  obtain ⟨same, lists, blocks, sound⟩ := run_sound set run
  have hk : k < buddyMaxOrder := by
    by_contra out
    have stop : s.buddy.allocPages s.mem k =
        .error (.assertion "order exceeds BUDDY_MAX_ORDER") := by
      simp [allocPages, require, out, bind, Except.bind]
    rw [stop] at done
    cases done
  rcases allocPages_spec sound.inv sound.accounts hk with
    ⟨run, _⟩ | ⟨p, s', m₁, lists', run, inv, _⟩ | ⟨run, _⟩
  · cases run.symm.trans done
  · obtain ⟨e, _⟩ := Prod.mk.inj (Except.ok.inj (run.symm.trans done))
    obtain rfl := Option.some.inj e
    have aligned := (inv.held_aligned ⟨k, p⟩ (by simp)).2
    have bytes : pageSize * 2 ^ k ∣ p * pageSize := by
      rw [Nat.mul_comm p]
      exact Nat.mul_dvd_mul_left pageSize aligned
    rw [node, same]
    exact (Nat.dvd_add_iff_left bytes).symm
  · cases run.symm.trans done

theorem low_answer {ops : List Op} {k ptr : Nat}
    (returns : ((trial exec Valid lowSystem ops).map fun s =>
      (s.buddy.allocPages s.mem k).toOption.map Prod.fst) = some (some (some ptr))) :
    ∃ s : System, Reach exec Valid lowSystem s ∧
      ∃ b' m', s.buddy.allocPages s.mem k = .ok (some ptr, b', m') := by
  obtain ⟨s, done, answer⟩ := Option.map_eq_some_iff.mp returns
  refine ⟨s, trial_reach ops .start done, ?_⟩
  cases run : s.buddy.allocPages s.mem k with
  | error e => simp [run, Except.toOption] at answer
  | ok r =>
    obtain ⟨found, b', m'⟩ := r
    obtain rfl : found = some ptr := by simpa [run, Except.toOption] using answer
    exact ⟨b', m', rfl⟩

theorem alloc_pages_aligned_iff_low :
    ∃ s : System, Reach exec Valid lowSystem s ∧
      (∃ b' m', s.buddy.allocPages s.mem 1 = .ok (some (lowUsable + 0x2000), b', m')) ∧
      (pageSize * 2 ^ 1 ∣ lowUsable + 0x2000 ↔ pageSize * 2 ^ 1 ∣ lowUsable) := by
  have returns : ((trial exec Valid lowSystem [.addRegion lowUsable 4, .allocPages 1]).map fun s =>
      (s.buddy.allocPages s.mem 1).toOption.map Prod.fst) =
      some (some (some (lowUsable + 0x2000))) := by decide
  obtain ⟨s, run, b', m', answer⟩ := low_answer returns
  have set : BuddyAllocator.new.setBase lowUsable = .ok { new with base := lowUsable } := rfl
  exact ⟨s, run, ⟨b', m', answer⟩, alloc_pages_aligned_iff set run answer⟩

/-- Natural alignment fails at order 1 for a base that `set_base` accepts. -/
theorem alloc_pages_not_naturally_aligned :
    ¬ ∀ (base : Nat) (b : BuddyAllocator) (m : Memory) (s : System) (k ptr : Nat)
      (b' : BuddyAllocator) (m' : Memory), BuddyAllocator.new.setBase base = .ok b →
      Reach exec Valid (booted b m) s → s.buddy.allocPages s.mem k = .ok (some ptr, b', m') →
      pageSize * 2 ^ k ∣ ptr := by
  intro claim
  have returns : ((trial exec Valid lowSystem [.addRegion lowUsable 2]).map fun s =>
      (s.buddy.allocPages s.mem 1).toOption.map Prod.fst) = some (some (some lowUsable)) := by decide
  obtain ⟨s, run, b', m', answer⟩ := low_answer returns
  have aligned := claim lowUsable _ Memory.blank s 1 lowUsable b' m' rfl run answer
  exact absurd aligned (by decide)

end CrustyOs.Abalone.BuddyAllocator
