import CrustyOs.Abalone.BuddyCuts
import CrustyOs.Abalone.StackRuns

/-! When a slab cache has an object to give: it masks pointers down to slab boundaries, and so
can use a block of the page source only where that is a slab boundary. -/
namespace CrustyOs.Abalone
open Lib BuddyAllocator

namespace Slab

variable {σ : Type} {t : ElementLayout} {order : Nat} {src : PageSource σ} {Ready : σ → Memory → List Nat → Prop}
  {s s' : SlabCache σ} {bases parts live : List Nat} {free : Nat → List Nat} {given : Option Nat} {p : σ} {m : Memory}

theorem masked_iff (fits : Fits t order) {x : Nat} (small : x < 2 ^ 64) :
    x &&& wordNot 64 (slabBytes order - 1) = x ↔ slabBytes order ∣ x := by
  rw [mask_slabBytes fits.pos small]
  constructor
  · intro same
    exact ⟨_, (Nat.mul_comm _ _).symm.trans same |>.symm⟩
  · exact Nat.div_mul_cancel

theorem grow_found_iff (fits : Fits t order) (h : Inv t order Ready s bases free parts live)
    (small : ∀ x, given = some x → x < 2 ^ 64) (served : src.allocPage s.pages s.mem order = .ok (given, p, m))
    {r : Option Unit} (run : s.grow t src = .ok (r, s')) :
    r = some () ↔ ∃ x, given = some x ∧ slabBytes order ∣ x := by
  have positive : require (capacityFor t order > 0) "SlabCache<T>: zero capacity (T too large for slab order?)" =
      .ok () := require_true _ (by simpa using fits.capacity)
  simp only [SlabCache.grow, positive, h.slabOrder, h.capacity, served, bind, Except.bind, pure, Except.pure] at run
  cases given with
  | none =>
    obtain ⟨rfl, _⟩ := Prod.mk.inj (Except.ok.inj run)
    simp
  | some x =>
    have boundary := masked_iff fits (small x rfl)
    dsimp only at run
    by_cases aligned : x &&& wordNot 64 (slabBytes order - 1) = x
    · rw [if_neg (not_not.mpr aligned)] at run
      obtain ⟨rfl, _⟩ := Prod.mk.inj (Except.ok.inj run)
      exact ⟨fun _ => ⟨x, rfl, boundary.mp aligned⟩, fun _ => rfl⟩
    · rw [if_pos aligned] at run
      split at run
      · cases run
      · obtain ⟨rfl, _⟩ := Prod.mk.inj (Except.ok.inj run)
        constructor
        · rintro ⟨⟩
        · rintro ⟨y, e, whole⟩
          exact absurd (boundary.mpr (Option.some.inj e ▸ whole)) aligned

theorem alloc_found_iff (fits : Fits t order) (h : Inv t order Ready s bases free parts live)
    (small : ∀ x, given = some x → x < 2 ^ 64) (served : src.allocPage s.pages s.mem order = .ok (given, p, m))
    {r : Option Nat} (run : s.alloc t src = .ok (r, s')) :
    r.isSome ↔ s.inner.partialHead ≠ 0 ∨ ∃ x, given = some x ∧ slabBytes order ∣ x := by
  by_cases empty : s.inner.partialHead = 0
  · simp only [SlabCache.alloc, if_pos empty] at run
    obtain ⟨⟨ready, s₁⟩, first, rest⟩ := ok_of_bind run
    have opened := grow_found_iff fits h small served first
    cases ready with
    | none =>
      obtain ⟨rfl, _⟩ := Prod.mk.inj (Except.ok.inj rest)
      simpa [empty] using opened
    | some _ =>
      obtain ⟨taken, _, last⟩ := ok_of_bind rest
      obtain ⟨rfl, _⟩ := Prod.mk.inj (Except.ok.inj last)
      simpa [empty] using opened
  · simp only [SlabCache.alloc, if_neg empty] at run
    obtain ⟨_, first, rest⟩ := ok_of_bind run
    obtain rfl := Except.ok.inj first
    obtain ⟨taken, _, last⟩ := ok_of_bind rest
    obtain ⟨rfl, _⟩ := Prod.mk.inj (Except.ok.inj last)
    simp [empty]

end Slab

namespace AllocatorStack

variable {s : AllocatorStack} {c : Cache} {i : Nat}

theorem slab_boundary_iff {k base p : Nat} (hk : k < buddyMaxOrder) (aligned : 2 ^ k ∣ p) :
    Slab.slabBytes k ∣ node base p ↔ Slab.slabBytes k ∣ base := by
  rw [Slab.slabBytes_small hk]
  exact (Nat.dvd_add_iff_left (Nat.mul_dvd_mul_right aligned pageSize)).symm

theorem Sound.no_slab (h : Sound s) (hi : s.caches[i]? = some c) (off : ¬ Slab.slabBytes c.order ∣ s.buddy.base) :
    c.slabs = [] ∧ c.live = [] := by
  obtain ⟨hk, fits, bases, free, parts, inv⟩ := h.caches c (List.mem_of_getElem? hi)
  obtain ⟨lists, blocks, whole⟩ := h.whole
  have slabs : c.slabs = bases.map fun x => ⟨x, c.order⟩ := inv.slabs_eq
  have none : bases = [] := by
    by_contra some
    obtain ⟨x, hx⟩ := List.exists_mem_of_ne_nil _ some
    have member : (⟨x, c.order⟩ : Allocation) ∈ s.whole.live := by
      refine List.mem_append_right _ (List.mem_cons_of_mem _ (List.mem_flatMap.mpr ⟨c, List.mem_of_getElem? hi, ?_⟩))
      rw [slabs]
      exact List.mem_map_of_mem hx
    rw [whole.live] at member
    obtain ⟨d, hd, e⟩ := List.mem_map.mp member
    obtain ⟨place, order⟩ := Allocation.mk.inj e
    have aligned := (whole.inv.held_aligned d hd).2
    rw [order] at aligned
    have boundary := inv.shape.slabs.aligned x hx
    rw [← place] at boundary
    exact off ((slab_boundary_iff hk aligned).mp boundary)
  refine ⟨by rw [slabs, none]; rfl, List.eq_nil_iff_forall_not_mem.mpr fun p hp => ?_⟩
  obtain ⟨x, hx, _⟩ := (inv.shape.slabs.live_iff p).mp hp
  rw [none] at hx
  cases hx

/-- A cache's `alloc` finds an object when it has a partial slab, or when the allocator's base
is on a slab boundary and a block of its order is to be had. -/
theorem Sound.cache_found_iff (h : Sound s) (hi : s.caches[i]? = some c) :
    exec s (.cache i .alloc) = .error .addOverflow ∨
    ∃ s' c', exec s (.cache i .alloc) = .ok s' ∧ s'.caches[i]? = some c' ∧
      (c'.live = c.live ∨ ∃ p, c'.live = p :: c.live) ∧
      ((∃ p, c'.live = p :: c.live) ↔ c.inner.partialHead ≠ 0 ∨
        Slab.slabBytes c.order ∣ s.buddy.base ∧ Serves s.pageClient c.order) := by
  obtain ⟨hk, fits, bases, free, parts, inv⟩ := h.sharing hi
  have backs : Slab.Backs Slab.buddySource c.order
      (Slab.Sharing s.buddy.base c.order (s.others i) s.pages s.mem) := Slab.buddy_backs_beside hk h.roomy
  obtain ⟨given, b, m, served, _, ready⟩ := backs.serves inv.ready
  have small : ∀ x, given = some x → x < 2 ^ 64 := by
    rintro x rfl
    have range := (backs.placed ready).range x (by simp)
    have pos := fits.pos
    omega
  -- what the allocator gives is a node of its own
  have gives : (∃ x, given = some x ∧ Slab.slabBytes c.order ∣ x) ↔
      Slab.slabBytes c.order ∣ s.buddy.base ∧ Serves s.pageClient c.order := by
    have served : s.buddy.allocPages s.mem c.order = .ok (given, b, m) := served
    obtain ⟨lists, blocks, whole⟩ := h.whole
    rcases allocPages_spec whole.inv whole.accounts hk with
      ⟨run, _⟩ | ⟨p, b', m', lists', run, after, _⟩ | ⟨run, _⟩
    · obtain ⟨rfl, _⟩ := Prod.mk.inj (Except.ok.inj (run.symm.trans served))
      constructor
      · rintro ⟨x, none, _⟩
        cases none
      · rintro ⟨_, x, b', m', some⟩
        cases run.symm.trans some
    · obtain ⟨rfl, _⟩ := Prod.mk.inj (Except.ok.inj (run.symm.trans served))
      have aligned : 2 ^ c.order ∣ p := (after.held_aligned ⟨c.order, p⟩ (by simp)).2
      rw [← slab_boundary_iff hk aligned]
      constructor
      · rintro ⟨x, e, boundary⟩
        obtain rfl := Option.some.inj e
        exact ⟨boundary, _, _, _, run⟩
      · rintro ⟨boundary, _⟩
        exact ⟨_, rfl, boundary⟩
    · cases run.symm.trans served
  obtain ⟨inside, _⟩ := List.getElem?_eq_some_iff.mp hi
  have outcome : Slab.SlabCache.alloc c.element Slab.buddySource (c.client s).cache = .error .addOverflow ∨
      ∃ ptr r, Slab.SlabCache.alloc c.element Slab.buddySource (c.client s).cache = .ok (ptr, r) := by
    rcases Slab.alloc_spec backs fits inv with stop | ⟨r, run, _⟩ | ⟨x, j, r, _, _, _, run, _⟩
    · exact Or.inl stop
    · exact Or.inr ⟨_, r, run⟩
    · exact Or.inr ⟨_, r, run⟩
  rcases outcome with stop | ⟨ptr, r, run⟩
  · left
    have stop : Slab.exec c.element Slab.buddySource (c.client s) .alloc = .error .addOverflow := bind_of_error stop _
    simp only [exec, hi, stop, bind, Except.bind]
  have found : ptr.isSome ↔ c.inner.partialHead ≠ 0 ∨ ∃ x, given = some x ∧ Slab.slabBytes c.order ∣ x :=
    Slab.alloc_found_iff fits inv small served run
  rw [gives] at found
  cases ptr with
  | none =>
    have ran : Slab.exec c.element Slab.buddySource (c.client s) .alloc = .ok ⟨r, c.live⟩ := bind_of_ok run _
    refine Or.inr ⟨_, { c with inner := r.inner, calls := r.calls }, by simp only [exec, hi, ran, bind, Except.bind]; rfl,
      List.getElem?_set_self inside, Or.inl rfl, ?_⟩
    rw [← found]
    simp
  | some p =>
    have ran : Slab.exec c.element Slab.buddySource (c.client s) .alloc = .ok ⟨r, p :: c.live⟩ := bind_of_ok run _
    refine Or.inr ⟨_, { c with inner := r.inner, calls := r.calls, live := p :: c.live },
      by simp only [exec, hi, ran, bind, Except.bind]; rfl, List.getElem?_set_self inside, Or.inr ⟨_, rfl⟩, ?_⟩
    rw [← found]
    simp

end AllocatorStack
end CrustyOs.Abalone
