import CrustyOs.Abalone.BuddyCapacity

/-! Canonical coalescing: over one region the free lists are a function of the set
of free pages, whatever the history. -/
namespace CrustyOs.Abalone.BuddyAllocator
open Lib

variable {s s₀ s' : System} {b : BuddyAllocator} {m : Memory} {base k p x : Nat}
  {lists : Nat → List Nat} {blocks : List Block}

def LivePage (s : System) (x : Nat) : Prop :=
  ∃ a ∈ s.live, a.ptr ≤ node s.buddy.base x ∧ node s.buddy.base x < a.ptr + 2 ^ a.order * pageSize

def FreePage (s : System) (x : Nat) : Prop := x ∈ s.pages ∧ ¬ LivePage s x

/-- Page `p` heads a block on the free list of order `k`, as read from memory. -/
def OnFreeList (s : System) (k p : Nat) : Prop :=
  ∃ nodes, Linked (nextOf s.mem) (prevOf s.mem) (s.buddy.freeLists k) nodes ∧
    node s.buddy.base p ∈ nodes

theorem Sound.livePage_iff (h : Sound s lists blocks) : LivePage s x ↔ ∃ c ∈ blocks, c.Has x := by
  have page : ∀ c : Block, c.start s.buddy.base ≤ node s.buddy.base x ∧
      node s.buddy.base x < c.start s.buddy.base + 2 ^ c.order * pageSize ↔ c.Has x := by
    intro c
    unfold Block.start node Block.Has InBlock pageSize
    constructor
    · rintro ⟨low, high⟩
      exact ⟨by omega, by omega⟩
    · rintro ⟨low, high⟩
      exact ⟨by omega, by omega⟩
  unfold LivePage
  rw [h.live]
  constructor
  · rintro ⟨a, ha, has⟩
    obtain ⟨c, hc, rfl⟩ := List.mem_map.mp ha
    exact ⟨c, hc, (page c).mp has⟩
  · rintro ⟨c, hc, has⟩
    exact ⟨_, List.mem_map_of_mem hc, (page c).mpr has⟩

theorem Sound.onFreeList_iff (h : Sound s lists blocks) (hk : k < buddyMaxOrder) :
    OnFreeList s k p ↔ p ∈ lists k := by
  constructor
  · rintro ⟨nodes, linked, mem⟩
    rw [linked.unique (h.inv.linked k hk)] at mem
    obtain ⟨q, hq, e⟩ := List.mem_map.mp mem
    rwa [← node_inj.mp e]
  · exact fun hp => ⟨_, h.inv.linked k hk, List.mem_map_of_mem hp⟩

theorem Sound.partition (h : Sound s lists blocks) :
    Partition (buddyMaxOrder - 1) (FreePage s) fun k p => k < buddyMaxOrder ∧ p ∈ lists k where
  fits k p hB := by
    refine ⟨by omega, h.inv.listed_aligned k hB.1 p hB.2, fun x hx => ?_⟩
    refine ⟨h.inv.listed_mem hB.1 hB.2 hx, fun live => ?_⟩
    obtain ⟨c, hc, has⟩ := h.livePage_iff.mp live
    exact h.inv.listed_apart_held hB.1 hB.2 hc hx has
  covers x hx := by
    obtain ⟨c, hc, has⟩ := (h.layout.covers x).mp hx.1
    rcases mem_allBlocks.mp hc with ⟨hk, hp⟩ | hc
    · exact ⟨c.order, c.page, ⟨hk, hp⟩, has⟩
    · exact absurd (h.livePage_iff.mpr ⟨c, hc, has⟩) hx.2
  single k p j q x hB hB' := h.inv.listed_single hB.1 hB'.1 hB.2 hB'.2

def Canonical (s : System) : Prop := ∃ lists blocks, Sound s lists blocks ∧ NoBuddies lists

theorem no_buddies_empty : NoBuddies fun _ => [] := fun _ _ _ hp => absurd hp List.not_mem_nil

theorem first_region_canonical {virtBase pageCount : Nat}
    (set : BuddyAllocator.new.setBase base = .ok b)
    (valid : Valid (booted b m) (.addRegion virtBase pageCount))
    (opened : exec (booted b m) (.addRegion virtBase pageCount) = .ok s₀) :
    Canonical s₀ ∧ s₀.live = [] := by
  have sound := booted_sound m set
  obtain ⟨based, above, _, new⟩ := valid
  rcases addRegion_spec sound.inv sound.accounts based above new with
    ⟨b', m', lists', run, inv, acc, same, _, _, keep⟩ | ⟨out, _⟩
  · have done : exec (booted b m) (.addRegion virtBase pageCount) =
        .ok ⟨b', m', [], ∅ ∪ regionPages b.base virtBase pageCount⟩ := by
      have ran : b.addRegion m virtBase pageCount = .ok (b', m') := run
      simp only [exec, booted, bind, Except.bind, ran]
      rfl
    obtain rfl := Except.ok.inj (done.symm.trans opened)
    refine ⟨⟨lists', [], ⟨inv, acc, rfl, by simp⟩, keep no_buddies_empty ?_⟩, rfl⟩
    exact fun _ _ _ hp => absurd hp List.not_mem_nil
  · have stop : b.addRegion m virtBase pageCount = .error .indexOutOfBounds := out
    simp [exec, booted, bind, Except.bind, stop] at opened

theorem Canonical.run (h : Canonical s₀) (run : Reach exec Settled s₀ s) :
    Canonical s ∧ s.pages = s₀.pages ∧ s.buddy.base = s₀.buddy.base := by
  induction run with
  | start => exact ⟨h, rfl, rfl⟩
  | step _ settled done ih =>
    obtain ⟨⟨lists, blocks, sound, none⟩, pages, same⟩ := ih
    obtain ⟨lists', blocks', sound', effect⟩ := step_kept sound settled.1 done
    refine ⟨⟨lists', blocks', sound', effect.coalesced settled.2 none⟩, ?_, effect.base.trans same⟩
    rw [effect.pages, settled.registers, Finset.union_empty, pages]

theorem Canonical.lists_eq (h : Canonical s) (hk : k < buddyMaxOrder) :
    OnFreeList s k p ↔ MaximalFit (buddyMaxOrder - 1) (FreePage s) k p := by
  obtain ⟨lists, blocks, sound, none⟩ := h
  have coalesced : Coalesced (buddyMaxOrder - 1) fun k p => k < buddyMaxOrder ∧ p ∈ lists k :=
    fun k p top hB hB' => none k p top hB.2 hB'.2
  rw [← sound.partition.block_iff_maximal coalesced, sound.onFreeList_iff hk]
  exact ⟨fun hp => ⟨hk, hp⟩, fun hB => hB.2⟩

theorem Canonical.same_lists (h : Canonical s) (h' : Canonical s')
    (same : ∀ x, FreePage s x ↔ FreePage s' x) (hk : k < buddyMaxOrder) :
    OnFreeList s k p ↔ OnFreeList s' k p := by
  have pages : FreePage s = FreePage s' := funext fun x => propext (same x)
  rw [h.lists_eq hk, h'.lists_eq hk, pages]

theorem Canonical.alloc_none_iff (h : Canonical s) (within : ∀ x ∈ s.pages, x < Bitmap.capacity)
    (hk : k < buddyMaxOrder) :
    (∃ b' m', s.buddy.allocPages s.mem k = .ok (none, b', m')) ↔
      ¬ ∃ p, Fits (buddyMaxOrder - 1) (FreePage s) k p := by
  obtain ⟨lists, blocks, sound, coalesced⟩ := h
  rcases allocPages_spec sound.inv sound.accounts hk with
    ⟨run, empty⟩ | ⟨p, b', m', lists', run, inv, _⟩ | ⟨_, x, hx, far⟩
  · refine ⟨fun _ => ?_, fun _ => ⟨_, _, run⟩⟩
    rintro ⟨p, fit⟩
    have pairs : Coalesced (buddyMaxOrder - 1) fun k p => k < buddyMaxOrder ∧ p ∈ lists k :=
      fun k p top hB hB' => coalesced k p top hB.2 hB'.2
    obtain ⟨j, q, ⟨hj, hq⟩, le, _⟩ := sound.partition.fit_in_block pairs fit
    rw [empty j le hj] at hq
    exact absurd hq List.not_mem_nil
  · -- the block handed out was a free run
    have fit : Fits (buddyMaxOrder - 1) (FreePage s) k p := by
      refine ⟨by omega, (inv.held_aligned ⟨k, p⟩ (by simp)).2, fun x hx => ?_⟩
      refine ⟨inv.held_mem (by simp : (⟨k, p⟩ : Block) ∈ _) hx, fun live => ?_⟩
      obtain ⟨c, hc, has⟩ := sound.livePage_iff.mp live
      exact inv.hand_apart hc hx has
    refine ⟨?_, fun none => absurd ⟨p, fit⟩ none⟩
    rintro ⟨b₁, m₁, none⟩
    rw [run] at none
    simp at none
  · exact absurd far (Nat.not_le_of_lt (within x hx))

/-- Over one region: the lists hold exactly the maximal aligned blocks of free
pages, so they do not depend on the history, emptying the live set restores them,
and exhaustion means that no aligned run is free. -/
theorem free_lists_canonical {virtBase pageCount : Nat}
    (set : BuddyAllocator.new.setBase base = .ok b)
    (valid : ValidWithin (2 ^ buddyMaxOrder) (booted b m) (.addRegion virtBase pageCount))
    (opened : exec (booted b m) (.addRegion virtBase pageCount) = .ok s₀)
    (run : Reach exec Settled s₀ s) :
    (∀ k < buddyMaxOrder, ∀ p,
      OnFreeList s k p ↔ MaximalFit (buddyMaxOrder - 1) (FreePage s) k p) ∧
    (∀ s', Reach exec Settled s₀ s' → (∀ x, LivePage s x ↔ LivePage s' x) →
      ∀ k < buddyMaxOrder, ∀ p, OnFreeList s k p ↔ OnFreeList s' k p) ∧
    (s.live = [] → ∀ k < buddyMaxOrder, ∀ p, OnFreeList s k p ↔ OnFreeList s₀ k p) ∧
    ∀ k < buddyMaxOrder, (∃ b' m', s.buddy.allocPages s.mem k = .ok (none, b', m')) ↔
      ¬ ∃ p, Fits (buddyMaxOrder - 1) (FreePage s) k p := by
  obtain ⟨start, initial⟩ := first_region_canonical set valid.1 opened
  obtain ⟨here, pages, _⟩ := start.run run
  have within : ∀ x ∈ s.pages, x < Bitmap.capacity := by
    have room : 2 ^ buddyMaxOrder ≤ Bitmap.capacity := by decide
    intro x hx
    rw [pages] at hx
    exact Nat.lt_of_lt_of_le (pages_within set (Reach.start.step valid opened) x hx) room
  have history : ∀ s', Reach exec Settled s₀ s' → (∀ x, LivePage s x ↔ LivePage s' x) →
      ∀ k < buddyMaxOrder, ∀ p, OnFreeList s k p ↔ OnFreeList s' k p := by
    intro s' run' live k hk p
    obtain ⟨here', pages', _⟩ := start.run run'
    refine here.same_lists here' (fun x => ?_) hk
    rw [FreePage, FreePage, pages, pages', live x]
  refine ⟨fun k hk p => here.lists_eq hk, history, fun released => ?_,
    fun k hk => here.alloc_none_iff within hk⟩
  apply history s₀ .start
  intro x
  have none : ¬ LivePage s x := by simp [LivePage, released]
  have none₀ : ¬ LivePage s₀ x := by simp [LivePage, initial]
  exact iff_of_false none none₀

theorem free_lists_canonical_low :
    ∃ s₀ s, exec lowSystem (.addRegion lowUsable 5) = .ok s₀ ∧
      trial exec Settled s₀ [.allocPages 0, .allocPages 1, .deallocPages lowUsable 1] = some s ∧
      (∀ k < buddyMaxOrder, ∀ p,
        OnFreeList s k p ↔ MaximalFit (buddyMaxOrder - 1) (FreePage s) k p) ∧
      (∀ s', Reach exec Settled s₀ s' → (∀ x, LivePage s x ↔ LivePage s' x) →
        ∀ k < buddyMaxOrder, ∀ p, OnFreeList s k p ↔ OnFreeList s' k p) ∧
      (s.live = [] → ∀ k < buddyMaxOrder, ∀ p, OnFreeList s k p ↔ OnFreeList s₀ k p) ∧
      ∀ k < buddyMaxOrder, (∃ b' m', s.buddy.allocPages s.mem k = .ok (none, b', m')) ↔
        ¬ ∃ p, Fits (buddyMaxOrder - 1) (FreePage s) k p := by
  have returns : ((exec lowSystem (.addRegion lowUsable 5)).toOption.bind fun s₀ =>
      trial exec Settled s₀
        [.allocPages 0, .allocPages 1, .deallocPages lowUsable 1]).isSome := by decide
  obtain ⟨s, done⟩ := Option.isSome_iff_exists.mp returns
  obtain ⟨s₀, opened, later⟩ := Option.bind_eq_some_iff.mp done
  have returned : exec lowSystem (.addRegion lowUsable 5) = .ok s₀ := by
    cases run : exec lowSystem (.addRegion lowUsable 5) with
    | error e => simp [run, Except.toOption] at opened
    | ok r => simpa [run, Except.toOption] using opened
  have set : BuddyAllocator.new.setBase lowUsable = .ok { new with base := lowUsable } := rfl
  have valid : ValidWithin (2 ^ buddyMaxOrder) lowSystem (.addRegion lowUsable 5) := by decide
  exact ⟨s₀, s, returned, later,
    free_lists_canonical set valid returned (trial_reach _ .start later)⟩

end CrustyOs.Abalone.BuddyAllocator
