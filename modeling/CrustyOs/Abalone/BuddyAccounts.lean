import CrustyOs.Abalone.BuddySafety
import Mathlib.Algebra.BigOperators.Ring.Finset
import Mathlib.Algebra.BigOperators.Ring.List

/-! The counters of the buddy allocator over whole runs. Only `alloc_pages` and
`dealloc_pages` touch the used bytes, and only `alloc_pages` the peak. -/
namespace CrustyOs.Abalone.BuddyAllocator
open Lib

section Stats

variable {s s' : BuddyAllocator} {m m' : Memory} {i k p p' k' n ptr order : Nat} {found : Option Nat}

theorem toggle_stats (done : s.toggle k i = .ok s') : s'.stats = s.stats := by
  obtain ⟨b, _, done⟩ := ok_of_bind done
  cases done
  rfl

theorem freeBlock_stats (done : s.freeBlock m p k = .ok (s', m')) : s'.stats = s.stats := by
  obtain ⟨t, toggled, done⟩ := ok_of_bind done
  cases done
  have kept := toggle_stats toggled
  exact kept

theorem addRegionLoop_stats (rounds : Nat) : ∀ {s : BuddyAllocator} {m : Memory} {p n : Nat},
    addRegionLoop rounds s m p n = .ok (s', m') → s'.stats = s.stats := by
  induction rounds with
  | zero =>
    intro s m p n done
    cases done
    rfl
  | succ rounds ih =>
    intro s m p n done
    rw [addRegionLoop] at done
    split at done
    · obtain ⟨⟨t, m₁⟩, filed, done⟩ := ok_of_bind done
      exact (ih done).trans (freeBlock_stats filed)
    · cases done
      rfl

theorem splitLoop_stats (steps : Nat) : ∀ {s : BuddyAllocator} {m : Memory},
    splitLoop steps s m p k = .ok (s', m') → s'.stats = s.stats := by
  induction steps with
  | zero =>
    intro s m done
    cases done
    rfl
  | succ steps ih =>
    intro s m done
    obtain ⟨⟨t, m₁⟩, filed, done⟩ := ok_of_bind done
    exact (ih done).trans (freeBlock_stats filed)

theorem mergeLoop_stats (left : Nat) : ∀ {s : BuddyAllocator} {m : Memory} {p k : Nat},
    mergeLoop left s m p k = .ok (s', m', p', k') → s'.stats = s.stats := by
  induction left with
  | zero =>
    intro s m p k done
    cases done
    rfl
  | succ left ih =>
    intro s m p k done
    rw [mergeLoop] at done
    obtain ⟨set, _, done⟩ := ok_of_bind done
    cases set with
    | false =>
      cases done
      rfl
    | true =>
      obtain ⟨t, toggled, done⟩ := ok_of_bind done
      have kept := (unlinkBuddy_rest s m (s.base + (p ^^^ (1 <<< k)) * pageSize) k).2.2.1
      exact ((ih done).trans (toggle_stats toggled)).trans kept

theorem addRegion_stats (done : s.addRegion m p n = .ok (s', m')) :
    s'.stats.usedBytes = s.stats.usedBytes ∧ s'.stats.peakBytes = s.stats.peakBytes := by
  obtain ⟨_, _, done⟩ := ok_of_bind done
  obtain ⟨_, _, done⟩ := ok_of_bind done
  obtain ⟨⟨t, m₁⟩, filed, done⟩ := ok_of_bind done
  obtain ⟨_, _, done⟩ := ok_of_bind done
  cases done
  have kept : t.stats = s.stats := addRegionLoop_stats n filed
  have used := congrArg AllocStats.usedBytes kept
  have peak := congrArg AllocStats.peakBytes kept
  exact ⟨used, peak⟩

theorem allocPages_stats (done : s.allocPages m order = .ok (found, s', m')) :
    (found = none ∧ s'.stats = s.stats) ∨
      s'.stats.peakBytes = max s.stats.peakBytes s'.stats.usedBytes := by
  obtain ⟨_, _, done⟩ := ok_of_bind done
  cases search : s.findOrder order with
  | none =>
    rw [search] at done
    cases done
    exact Or.inl ⟨rfl, rfl⟩
  | some j =>
    rw [search] at done
    obtain ⟨t, toggled, done⟩ := ok_of_bind done
    obtain ⟨⟨u, m₁⟩, split, done⟩ := ok_of_bind done
    obtain ⟨_, _, done⟩ := ok_of_bind done
    cases done
    have popped := toggle_stats toggled
    have kept : u.stats = s.stats := (splitLoop_stats _ split).trans popped
    right
    simp only [kept, Nat.max_def]
    split_ifs <;> omega

theorem deallocPages_stats (done : s.deallocPages m ptr order = .ok (s', m')) :
    s'.stats.usedBytes ≤ s.stats.usedBytes ∧ s'.stats.peakBytes = s.stats.peakBytes := by
  obtain ⟨_, _, done⟩ := ok_of_bind done
  obtain ⟨_, _, done⟩ := ok_of_bind done
  obtain ⟨⟨t, m₁, q, k⟩, merged, done⟩ := ok_of_bind done
  obtain ⟨⟨u, m₂⟩, filed, done⟩ := ok_of_bind done
  obtain ⟨used, sub, done⟩ := ok_of_bind done
  cases done
  have kept : u.stats = s.stats := (freeBlock_stats filed).trans (mergeLoop_stats _ merged)
  have peak := congrArg AllocStats.peakBytes kept
  rw [kept] at sub
  exact ⟨(checkedSub_eq sub).2 ▸ Nat.sub_le _ _, peak⟩

end Stats

variable {s s' : System} {b : BuddyAllocator} {m : Memory} {base : Nat} {past : List System}

def usedBytes (s : System) : Nat := s.buddy.stats.usedBytes
def peakBytes (s : System) : Nat := s.buddy.stats.peakBytes

theorem peak_raised {op : Op} (done : exec s op = .ok s') (below : usedBytes s ≤ peakBytes s) :
    peakBytes s' = max (peakBytes s) (usedBytes s') := by
  unfold usedBytes peakBytes at *
  cases op with
  | addRegion virtBase n =>
    obtain ⟨⟨t, m₁⟩, ran, done⟩ := ok_of_bind done
    cases done
    obtain ⟨used, peak⟩ := addRegion_stats ran
    rw [used, peak, Nat.max_eq_left below]
  | allocPages order =>
    obtain ⟨⟨found, t, m₁⟩, ran, done⟩ := ok_of_bind done
    have raised := allocPages_stats ran
    cases found with
    | none =>
      cases done
      cases raised with
      | inl kept => rw [kept.2, Nat.max_eq_left below]
      | inr raised => exact raised
    | some ptr =>
      cases done
      cases raised with
      | inl kept => cases kept.1
      | inr raised => exact raised
  | deallocPages ptr order =>
    obtain ⟨⟨t, m₁⟩, ran, done⟩ := ok_of_bind done
    cases done
    obtain ⟨used, peak⟩ := deallocPages_stats ran
    rw [peak, Nat.max_eq_left (used.trans below)]
  | store addr value =>
    cases done
    exact (Nat.max_eq_left below).symm

def liveBytes (live : List Allocation) : Nat := (live.map fun a => 2 ^ a.order * pageSize).sum

def listedBytes (lists : Nat → List Nat) : Nat := weight buddyMaxOrder (fun k _ => 2 ^ k * pageSize) lists

theorem listedBytes_eq (lists : Nat → List Nat) : listedBytes lists = freePages lists * pageSize := by
  unfold listedBytes freePages weight
  rw [Finset.sum_mul]
  exact Finset.sum_congr rfl fun k _ => List.sum_map_mul_right (lists k) _ pageSize

theorem liveBytes_eq (base : Nat) (blocks : List Block) :
    liveBytes (blocks.map (Allocation.of base)) = heldPages blocks * pageSize := by
  unfold liveBytes heldPages
  rw [List.map_map, ← List.sum_map_mul_right]
  rfl

/-- In every reached state the counters are the sizes of what is live, listed and registered,
the peak is the greatest use so far, and no subtraction of the next operation underflows. -/
theorem accounts_in_every_run (set : BuddyAllocator.new.setBase base = .ok b)
    (run : History exec Valid (booted b m) (s :: past)) :
    s.buddy.stats.usedBytes = liveBytes s.live ∧
    (∃ lists, (∀ k < buddyMaxOrder, Linked (nextOf s.mem) (prevOf s.mem) (s.buddy.freeLists k)
        ((lists k).map (node s.buddy.base))) ∧ s.buddy.stats.freeBytes = listedBytes lists) ∧
    s.buddy.stats.totalBytes = s.buddy.stats.usedBytes + s.buddy.stats.freeBytes ∧
    s.buddy.stats.totalBytes = s.pages.card * pageSize ∧
    ((∀ t ∈ s :: past, usedBytes t ≤ peakBytes s) ∧ ∃ t ∈ s :: past, usedBytes t = peakBytes s) ∧
    ∀ op, Valid s op → exec s op ≠ .error .subtractOverflow := by
  obtain ⟨_, lists, blocks, sound⟩ := run_sound set run.reach
  have used := sound.accounts.usedBytes
  have total := sound.accounts.totalBytes
  have free := sound.accounts.freeBytes
  refine ⟨?_, ⟨lists, sound.inv.linked, ?_⟩, by omega, total, ?_, fun op valid stops => ?_⟩
  · rw [used, sound.live, liveBytes_eq]
  · have count := sound.inv.page_count
    rw [used, total, ← count, Nat.add_mul] at free
    rw [listedBytes_eq]
    omega
  · apply History.high_water _ _ run
    · rw [setBase_ok set]
      rfl
    · exact fun _ _ _ _ _ done below => peak_raised done below
  · rcases step_sound sound valid with ⟨s', _, _, done, _⟩ | ⟨out, _⟩
    · rw [done] at stops
      cases stops
    · rw [out] at stops
      cases stops

theorem accounts_in_low_run : ∃ s past, trial exec Valid lowSystem lowOps = some s ∧
    s.buddy.stats.usedBytes = liveBytes s.live ∧
    (∃ lists, (∀ k < buddyMaxOrder, Linked (nextOf s.mem) (prevOf s.mem) (s.buddy.freeLists k)
        ((lists k).map (node s.buddy.base))) ∧ s.buddy.stats.freeBytes = listedBytes lists) ∧
    s.buddy.stats.totalBytes = s.buddy.stats.usedBytes + s.buddy.stats.freeBytes ∧
    s.buddy.stats.totalBytes = s.pages.card * pageSize ∧
    ((∀ t ∈ s :: past, usedBytes t ≤ peakBytes s) ∧ ∃ t ∈ s :: past, usedBytes t = peakBytes s) ∧
    ∀ op, Valid s op → exec s op ≠ .error .subtractOverflow := by
  have returns : (trial exec Valid lowSystem lowOps).isSome := by decide
  obtain ⟨s, done⟩ := Option.isSome_iff_exists.mp returns
  have set : BuddyAllocator.new.setBase lowUsable = .ok { new with base := lowUsable } := rfl
  obtain ⟨past, run⟩ := History.of_reach (trial_reach lowOps .start done)
  exact ⟨s, past, done, accounts_in_every_run set run⟩

end CrustyOs.Abalone.BuddyAllocator
