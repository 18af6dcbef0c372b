import CrustyOs.Abalone.BuddySafety

/-! How far above the base the bitmaps reach. Blocks of high order are filed far
beyond the reach of the low orders, so a page out of reach stops the allocator
only later, when a split arrives at it. -/
namespace CrustyOs.Abalone.BuddyAllocator
open Lib

variable {s s' : System} {b : BuddyAllocator} {m : Memory} {base : Nat} {lists : Nat → List Nat}
  {blocks : List Block}

def NeverStops (s : System) : Prop :=
  ∀ s', Reach exec Settled s s' → ∀ op, Settled s' op → ∃ s'', exec s' op = .ok s''

theorem NeverStops.later (never : NeverStops s) (run : Reach exec Settled s s') : NeverStops s' :=
  fun _ more => never _ (run.trans more)

theorem Settled.registers {op : Op} (settled : Settled s op) : op.registers s = ∅ := by
  cases op with
  | addRegion virtBase n => exact absurd rfl (settled.2 virtBase n)
  | _ => rfl

theorem Settled.reaches {op : Op} (settled : Settled s op) : op.reaches s ⊆ s.pages := by
  cases op with
  | addRegion virtBase n => exact absurd rfl (settled.2 virtBase n)
  | allocPages order => exact Finset.Subset.refl _
  | _ => exact Finset.empty_subset _

theorem Settled.pages (set : BuddyAllocator.new.setBase base = .ok b)
    (run : Reach exec Valid (booted b m) s) (more : Reach exec Settled s s') :
    s'.pages = s.pages := by
  induction more with
  | start => rfl
  | step more settled done ih =>
    obtain ⟨_, lists, blocks, sound⟩ := run_sound set (run.trans (more.mono fun _ _ h => h.1))
    obtain ⟨_, _, _, effect⟩ := step_kept sound settled.1 done
    rw [effect.pages, ih, settled.registers, Finset.union_empty]

theorem never_stops_of_within (set : BuddyAllocator.new.setBase base = .ok b)
    (run : Reach exec Valid (booted b m) s) (within : ∀ x ∈ s.pages, x < Bitmap.capacity) :
    NeverStops s := by
  intro s' more op settled
  obtain ⟨_, lists, blocks, sound⟩ := run_sound set (run.trans (more.mono fun _ _ h => h.1))
  rcases step_sound sound settled.1 with ⟨s'', _, _, done, _⟩ | ⟨_, x, hx, far⟩
  · exact ⟨s'', done⟩
  · have here : x ∈ s.pages := by
      rw [← Settled.pages set run more]
      exact settled.reaches hx
    exact absurd far (Nat.not_le_of_lt (within x here))

theorem release_all (n : Nat) : ∀ {s : System} {lists : Nat → List Nat} {blocks : List Block},
    Sound s lists blocks → blocks.length = n → ∃ s' lists', Reach exec Settled s s' ∧
      Sound s' lists' [] ∧ s'.pages = s.pages := by
  induction n with
  | zero =>
    intro s lists blocks sound size
    obtain rfl := List.length_eq_zero_iff.mp size
    exact ⟨s, lists, .start, sound, rfl⟩
  | succ n ih =>
    intro s lists blocks sound size
    obtain ⟨c, rest, rfl⟩ := List.exists_cons_of_length_eq_add_one size
    have live : Valid s (.deallocPages (c.start s.buddy.base) c.order) := by
      have mem : Allocation.of s.buddy.base c ∈ s.live := by rw [sound.live]; simp
      exact mem
    obtain ⟨b, m, lists₁, run, inv, acc, same, _⟩ :=
      deallocPages_spec sound.inv sound.accounts (List.mem_cons_self ..) (sound.range c (by simp))
    rw [List.erase_cons_head] at inv acc
    have erased : s.live.erase ⟨c.start s.buddy.base, c.order⟩ =
        rest.map (Allocation.of s.buddy.base) := by
      rw [sound.live, List.map_cons]
      exact List.erase_cons_head ..
    have sound₁ : Sound ⟨b, m, rest.map (Allocation.of s.buddy.base), s.pages⟩ lists₁ rest :=
      ⟨inv, acc, by simp only [same], fun d hd => sound.range d (List.mem_cons_of_mem _ hd)⟩
    have done : exec s (.deallocPages (c.start s.buddy.base) c.order) =
        .ok ⟨b, m, rest.map (Allocation.of s.buddy.base), s.pages⟩ := by
      simp only [exec, bind, Except.bind, run, erased]
      rfl
    obtain ⟨s', lists', more, sound', pages⟩ := ih sound₁ (by simpa using size)
    have settled : Settled s (.deallocPages (c.start s.buddy.base) c.order) := ⟨live, by simp⟩
    exact ⟨s', lists', (Reach.start.step settled done).trans more, sound', pages⟩

theorem in_range_of_exhausted (sound : Sound s lists blocks) (single : ∀ c ∈ blocks, c.order = 0)
    (none : ∀ k < buddyMaxOrder, lists k = []) : ∀ x ∈ s.pages, x < Bitmap.capacity := by
  intro x hx
  obtain ⟨c, hc, has⟩ := (sound.layout.covers x).mp hx
  rcases mem_allBlocks.mp hc with ⟨hk, hp⟩ | hc
  · rw [none _ hk] at hp
    exact absurd hp List.not_mem_nil
  · have range := sound.range c hc
    unfold Block.Has InBlock at has
    rw [single c hc] at range has
    obtain rfl : x = c.page := by omega
    exact range.order_zero

/-- Single pages are taken until none is free: each was in range when it was split off. -/
theorem exhaust (n : Nat) : ∀ {s : System} {lists : Nat → List Nat} {blocks : List Block},
    Sound s lists blocks → (∀ c ∈ blocks, c.order = 0) → NeverStops s → freePages lists = n →
    ∀ x ∈ s.pages, x < Bitmap.capacity := by
  induction n using Nat.strong_induction_on with
  | _ n ih =>
    intro s lists blocks sound single never free
    have order : 0 < buddyMaxOrder := by decide
    have settled : Settled s (.allocPages 0) := ⟨order, by simp⟩
    rcases allocPages_spec sound.inv sound.accounts order with
      ⟨_, none⟩ | ⟨p, b, m, lists', run, inv, acc, same, _, range, _⟩ | ⟨out, _⟩
    · exact in_range_of_exhausted sound single fun k hk => none k (Nat.zero_le k) hk
    · have sound' : Sound ⟨b, m, ⟨node s.buddy.base p, 0⟩ :: s.live, s.pages⟩ lists'
          (⟨0, p⟩ :: blocks) := by
        refine ⟨inv, acc, ?_, ?_⟩
        · simp only [List.map_cons, same, sound.live]
          rfl
        · intro c hc
          rcases List.mem_cons.mp hc with rfl | hc
          · exact range
          · exact sound.range c hc
      have done : exec s (.allocPages 0) =
          .ok ⟨b, m, ⟨node s.buddy.base p, 0⟩ :: s.live, s.pages⟩ := by
        simp only [exec, bind, Except.bind, run]
        rfl
      have before := sound.inv.page_count
      have after := inv.page_count
      rw [heldPages_cons, Nat.pow_zero] at after
      have smaller : freePages lists' < n := by omega
      have single' : ∀ c ∈ (⟨0, p⟩ : Block) :: blocks, c.order = 0 := by simpa using single
      have later := never.later (Reach.start.step settled done)
      exact fun x hx => ih _ smaller sound' single' later rfl x hx
    · obtain ⟨_, returned⟩ := never s .start _ settled
      simp [exec, out, bind, Except.bind] at returned

theorem within_of_never_stops (sound : Sound s lists blocks) (never : NeverStops s) :
    ∀ x ∈ s.pages, x < Bitmap.capacity := by
  obtain ⟨s', lists', more, sound', same⟩ := release_all blocks.length sound rfl
  rw [← same]
  exact exhaust _ sound' (by simp) (never.later more) rfl

/-- From any reached state on no bitmap index goes out of range if and only if every
registered page lies within the capacity, and a further region may be registered
on exactly that condition. -/
theorem bitmaps_in_range_iff (set : BuddyAllocator.new.setBase base = .ok b)
    (run : Reach exec Valid (booted b m) s) :
    (NeverStops s ↔ ∀ x ∈ s.pages, x < Bitmap.capacity) ∧
      ∀ virtBase pageCount, Valid s (.addRegion virtBase pageCount) →
        ((∃ s', exec s (.addRegion virtBase pageCount) = .ok s' ∧ NeverStops s') ↔
          ∀ x ∈ s.pages ∪ regionPages s.buddy.base virtBase pageCount, x < Bitmap.capacity) := by
  obtain ⟨_, lists, blocks, sound⟩ := run_sound set run
  refine ⟨⟨within_of_never_stops sound, never_stops_of_within set run⟩, ?_⟩
  intro virtBase pageCount valid
  constructor
  · rintro ⟨s', done, never⟩
    obtain ⟨_, _, sound', effect⟩ := step_kept sound valid done
    have within := within_of_never_stops sound' never
    rwa [effect.pages] at within
  · intro within
    rcases step_sound sound valid with ⟨s', _, _, done, _, effect⟩ | ⟨_, x, hx, far⟩
    · refine ⟨s', done, never_stops_of_within set (run.step valid done) ?_⟩
      rw [effect.pages]
      exact within
    · exact absurd far (Nat.not_le_of_lt (within x (Finset.mem_union_right _ hx)))

theorem bitmaps_in_range_iff_low :
    ∃ s, trial exec Valid lowSystem lowOps = some s ∧
      (NeverStops s ↔ ∀ x ∈ s.pages, x < Bitmap.capacity) ∧
      ∀ virtBase pageCount, Valid s (.addRegion virtBase pageCount) →
        ((∃ s', exec s (.addRegion virtBase pageCount) = .ok s' ∧ NeverStops s') ↔
          ∀ x ∈ s.pages ∪ regionPages s.buddy.base virtBase pageCount, x < Bitmap.capacity) := by
  have returns : (trial exec Valid lowSystem lowOps).isSome := by decide
  obtain ⟨s, done⟩ := Option.isSome_iff_exists.mp returns
  have set : BuddyAllocator.new.setBase lowUsable = .ok { new with base := lowUsable } := rfl
  exact ⟨s, done, bitmaps_in_range_iff set (trial_reach lowOps .start done)⟩

/-- One page more than the capacity, in a single region at the base, already stops
`add_region` after it filed the blocks before that page. -/
theorem add_region_beyond_capacity_stops :
    ¬ ∀ (base : Nat) (b : BuddyAllocator) (m : Memory) (s : System) (virtBase pageCount : Nat),
      BuddyAllocator.new.setBase base = .ok b → Reach exec Valid (booted b m) s →
      Valid s (.addRegion virtBase pageCount) →
      ∃ s', exec s (.addRegion virtBase pageCount) = .ok s' := by
  intro claim
  have set : BuddyAllocator.new.setBase lowUsable = .ok { new with base := lowUsable } := rfl
  have valid : Valid lowSystem (.addRegion lowUsable (Bitmap.capacity + 1)) :=
    ⟨by decide, Nat.le_refl _, by decide, fun x _ => Finset.notMem_empty x⟩
  obtain ⟨s', done⟩ := claim lowUsable _ Memory.blank lowSystem lowUsable (Bitmap.capacity + 1) set
    .start valid
  have stops : ((exec lowSystem (.addRegion lowUsable (Bitmap.capacity + 1))).toOption).isNone := by
    decide
  rw [done] at stops
  cases stops

end CrustyOs.Abalone.BuddyAllocator
