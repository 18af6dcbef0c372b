import CrustyOs.Abalone.BuddyReserve
import CrustyOs.Abalone.SlabSupply
import CrustyOs.Abalone.StackRegions
import CrustyOs.Kernel.BootSeed

/-! The allocators from boot on: `heap::init` over any memory map that fits, then whatever
the kernel's callers of pages, of the heap and of slab caches do, in any order. -/
namespace CrustyOs.Kernel.LimineData
open Lib Abalone BuddyAllocator

variable {A : AlignOps} {d : LimineData} {m : Memory} {sys : BuddyAllocator.System} {heap : TlsfInner} {base : Nat}

/-- The allocators as `heap::init` leaves them: the block it took last is the heap's pool. -/
def afterInit (sys : BuddyAllocator.System) (heap : TlsfInner) : AllocatorStack :=
  ⟨sys.buddy, sys.mem, sys.pages, sys.live.tail, sys.live.headD ⟨0, 0⟩, heap, [], []⟩

theorem carve_spec {s : BuddyAllocator.System} {lists : Nat → List Nat} (sound : Sound s lists [])
    (roomy : Roomy s) (done : carve s = .ok (sys, heap)) :
    sys.pages = s.pages ∧ sys.buddy.base = s.buddy.base ∧ AllocatorStack.Sound (afterInit sys heap) ∧
      Memory.StoresIn (OnPage s.buddy.base s.pages) s.mem sys.mem ∧
      ∃ lists', Represents sys.buddy sys.mem lists' ∧ ∀ k ≤ 10, reserve k lists = reserve k lists' + spend k 10 := by
  have empty : s.live = [] := sound.live
  have valid : Valid s (.allocPages 10) := show (10 : Nat) < buddyMaxOrder by decide
  obtain ⟨w, lists', blocks', ran, sound', effect⟩ := sound.returns roomy valid (by simp [Op.registers])
  have links := sound.stores_on_pages valid ran
  obtain ⟨r, b, m₁, answer, rfl⟩ := exec_alloc ran
  have base : b.base = s.buddy.base := effect.base
  unfold carve at done
  rw [bind_of_ok answer] at done
  cases r with
  | none => cases done
  | some pool =>
    obtain ⟨⟨heap', m₂⟩, set, last⟩ := ok_of_bind done
    obtain ⟨rfl, rfl⟩ := Prod.mk.inj (Except.ok.inj last)
    have roomy' : Roomy ⟨b, m₁, [⟨pool, 10⟩], s.pages⟩ := fun x hx => base ▸ roomy x hx
    rw [empty] at sound'
    have held : Sound ⟨b, m₁, [⟨pool, 10⟩], s.pages⟩ lists' blocks' := sound'
    have member : (⟨pool, 10⟩ : Allocation) ∈ [(⟨pool, 10⟩ : Allocation)] := List.mem_singleton.mpr rfl
    obtain ⟨based, _⟩ := held.range_bounds roomy' member
    have size : (4096 <<< 10 : Nat) = 2 ^ 10 * pageSize := by decide
    rw [size] at set
    have inside := TlsfInner.addPool_stores based (by decide) (by decide) set
    obtain ⟨files, fresh⟩ := TlsfInner.addPool_sound based (by decide) (by decide) set
    have after : afterInit ⟨b, m₂, ⟨pool, 10⟩ :: s.live, s.pages⟩ heap' =
        ⟨b, m₂, s.pages, [], ⟨pool, 10⟩, heap', [], []⟩ := by
      rw [afterInit, empty]
      rfl
    have kept : Sound ⟨b, m₂, [⟨pool, 10⟩], s.pages⟩ lists' blocks' := held.stored fun a changed => by
      refine ⟨⟨pool, 10⟩, member, fun out => changed (inside.read_eq ?_)⟩
      rintro ⟨low, high⟩
      unfold ByteRange.Off Allocation.range pageSize at out
      dsimp only at low high out
      omega
    refine ⟨rfl, base, ?_, links.trans (inside.mono fun a within => ?_), lists', kept.represents, fun k hk => ?_⟩
    · rw [after]
      exact ⟨⟨lists', blocks', kept⟩, roomy', ⟨files, _, fresh⟩, fun c hc => absurd hc List.not_mem_nil⟩
    · have on := held.on_page member within.1
        (show a < pool + 2 ^ 10 * pageSize from Nat.lt_of_lt_of_le (Nat.lt_add_of_pos_right (by decide)) within.2)
      exact base ▸ on
    · obtain ⟨_, lists₁, _, inv, count⟩ := allocPages_reserve_le sound.inv answer
      have same := held.represents.reserve_eq inv.represents k
      rw [same]
      exact (count k).2 hk

structure Inited (A : AlignOps) (d : LimineData) (m : Memory) (sys : BuddyAllocator.System) (heap : TlsfInner) :
    Prop where
  sound : AllocatorStack.Sound (afterInit sys heap)
  base : minVirt A d = some sys.buddy.base
  pages : ∀ x p, d.hhdmOffset + p = node sys.buddy.base x → (x ∈ sys.pages ↔ 4096 ∣ p ∧ Usable d p)
  stores : Memory.StoresIn (OnPage sys.buddy.base sys.pages) m sys.mem

theorem seeded_roomy (lawful : A.Lawful) (seedable : Seedable A d) {s : BuddyAllocator.System} {u : MemoryRegion}
    (hu : u ∈ d.regions) (usable : u.regionType = .usable) (from_base : s.buddy.base = d.hhdmOffset + u.alignedBase A)
    (registered : ∀ x p, d.hhdmOffset + p = node s.buddy.base x → (x ∈ s.pages ↔ 4096 ∣ p ∧ Usable d p)) : Roomy s := by
  intro x hx
  have place : d.hhdmOffset + (u.alignedBase A + x * pageSize) = node s.buddy.base x := by
    rw [from_base, node, Nat.add_assoc]
  obtain ⟨page, ⟨r, hr, kind, low, stop⟩, _⟩ := (registered x _ place).mp hx
  have above := (r.full_page_iff lawful page).2.mpr stop
  have near := seedable.near r hr u hu kind usable
  have word := (seedable.words r hr).1
  unfold node at place
  unfold pageSize at *
  omega

def usableRuns (A : AlignOps) (d : LimineData) (k : Nat) : Nat :=
  ((initCalls A d).map (callRuns ((minVirt A d).getD 0) k)).sum

theorem seed_spec (lawful : A.Lawful) (seedable : Seedable A d) (m : Memory) :
    ∃ s lists, seed A d (booted BuddyAllocator.new m) = .ok s ∧ minVirt A d = some s.buddy.base ∧ Sound s lists [] ∧
      Roomy s ∧ (∀ x p, d.hhdmOffset + p = node s.buddy.base x → (x ∈ s.pages ↔ 4096 ∣ p ∧ Usable d p)) ∧
      Memory.StoresIn (OnPage s.buddy.base s.pages) m s.mem ∧
      ∀ k < buddyMaxOrder, reserve k lists = usableRuns A d k := by
  obtain ⟨u, hu, usable, least_base, least⟩ := minVirt_spec seedable
  obtain ⟨s, lists, run, from_base, sound, registered⟩ :=
    seed_sound lawful seedable hu usable rfl least_base least m
  rw [← from_base] at registered
  obtain ⟨b, set, calls⟩ : ∃ b, BuddyAllocator.new.setBase (d.hhdmOffset + u.alignedBase A) = .ok b ∧
      registerAll (booted b m) (initCalls A d) = .ok s := by
    unfold seed at run
    rw [least_base] at run
    exact ok_of_bind run
  obtain rfl := setBase_ok set
  have cuts := initCalls_cuts lawful seedable hu usable least
  have window := seedable.window
  have fresh : Fresh (booted { BuddyAllocator.new with base := d.hhdmOffset + u.alignedBase A } m) (initCalls A d) :=
    ⟨by dsimp only [booted]; omega, cuts.above, fun c hc x hx old => absurd old (Finset.notMem_empty x), cuts.apart⟩
  have initial := booted_sound m set
  refine ⟨s, lists, run, by rw [from_base, least_base], sound, seeded_roomy lawful seedable hu usable from_base registered,
    registered, ?_, fun k hk => ?_⟩
  · rw [from_base]
    exact (registerAll_stores _ initial fresh calls).2
  · rw [registerAll_reserve hk _ initial fresh calls sound.represents, reserve_nil, Nat.zero_add, usableRuns, least_base]
    rfl

theorem heapInit_spec (lawful : A.Lawful) (seedable : Seedable A d) (m : Memory)
    (done : heapInit A d (booted BuddyAllocator.new m) = .ok (sys, heap)) : Inited A d m sys heap := by
  obtain ⟨s, lists, run, lowest, sound, roomy, registered, stores, _⟩ := seed_spec lawful seedable m
  rw [heapInit_eq, bind_of_ok run] at done
  obtain ⟨pages, base, whole, carved, _⟩ := carve_spec sound roomy done
  refine ⟨whole, by rw [base, lowest], fun x p place => ?_, ?_⟩
  · rw [pages]
    exact registered x p (by rw [place, base])
  · rw [base, pages]
    exact stores.trans carved

theorem carve_returns {s : BuddyAllocator.System} {lists : Nat → List Nat} (sound : Sound s lists [])
    (roomy : Roomy s) (some : 0 < reserve 10 lists) : ∃ sys heap, carve s = .ok (sys, heap) := by
  have room : 2 ^ buddyMaxOrder ≤ Bitmap.capacity := by decide
  have near : ∀ x ∈ s.pages, x < Bitmap.capacity := fun x hx => Nat.lt_of_lt_of_le (roomy x hx).1 room
  have order : (10 : Nat) < buddyMaxOrder := by decide
  obtain ⟨pool, b, m₁, answer, _⟩ := (sound.servesAll_iff order 1 near).mpr some
  have done : exec s (.allocPages 10) = .ok { s with buddy := b, mem := m₁, live := ⟨pool, 10⟩ :: s.live } :=
    bind_of_ok answer _
  have valid : Valid s (.allocPages 10) := order
  obtain ⟨lists', blocks', sound', effect⟩ := step_kept sound valid done
  have roomy' : Roomy { s with buddy := b, mem := m₁, live := ⟨pool, 10⟩ :: s.live } :=
    fun x hx => effect.base ▸ roomy x hx
  obtain ⟨based, _⟩ := sound'.range_bounds roomy' List.mem_cons_self
  have words : 8 ∣ 4096 <<< 10 := by decide
  obtain ⟨heap, m₂, _, set, _⟩ := TlsfInner.addPool_returns m₁ based words (by decide) (by decide)
  refine ⟨{ s with buddy := b, mem := m₂, live := ⟨pool, 10⟩ :: s.live }, heap, ?_⟩
  unfold carve
  rw [bind_of_ok answer]
  exact bind_of_ok set _

theorem heapInit_supplies (lawful : A.Lawful) (seedable : Seedable A d) (m : Memory) (some : 0 < usableRuns A d 10) :
    ∃ sys heap lists, heapInit A d (booted BuddyAllocator.new m) = .ok (sys, heap) ∧
      Represents sys.buddy sys.mem lists ∧ ∀ k ≤ 10, usableRuns A d k = reserve k lists + spend k 10 := by
  obtain ⟨s, lists, run, _, sound, roomy, _, _, runs⟩ := seed_spec lawful seedable m
  have order : (10 : Nat) < buddyMaxOrder := by decide
  obtain ⟨sys, heap, carved⟩ := carve_returns sound roomy (by rw [runs 10 order]; exact some)
  obtain ⟨_, _, _, _, lists', represents, counts⟩ := carve_spec sound roomy carved
  refine ⟨sys, heap, lists', by rw [heapInit_eq, bind_of_ok run, carved], represents, fun k hk => ?_⟩
  rw [← runs k (Nat.lt_of_le_of_lt hk order), counts k hk]

open AllocatorStack in
/-- From `heap::init` on, whatever the callers of pages, of the heap and of the slab caches
do: what is handed out is apart and in registered pages, and every call returns (or stops at
the 2^32nd object of one slab) without a store to anything that stays live. -/
theorem allocators_safe_from_boot (lawful : A.Lawful) (seedable : Seedable A d)
    (init : heapInit A d (booted BuddyAllocator.new m) = .ok (sys, heap)) {s : AllocatorStack}
    (run : Reach AllocatorStack.exec AllocatorStack.Valid (afterInit sys heap) s) :
    Safe s ∧ ∀ op, AllocatorStack.Valid s op → AllocatorStack.exec s op = .error .addOverflow ∨
      ∃ s', AllocatorStack.exec s op = .ok s' ∧
        (¬ op.IsStore → Memory.StoresIn (OutsideLive s s') s.mem s'.mem) := by
  have reached := (heapInit_spec lawful seedable m init).sound.run run
  refine ⟨reached.safe, fun op valid => ?_⟩
  cases reached.step valid with
  | inl stop => exact Or.inl stop
  | inr returned =>
    obtain ⟨s', done, _, stores⟩ := returned
    exact Or.inr ⟨s', done, stores⟩

def sampleOps : List AllocatorStack.Op :=
  [.pages (.allocPages 3), .heap (.alloc 100), .newCache Slab.wide 0, .cache 0 .alloc, .heap (.alloc 64),
    .cache 0 .alloc, .cache 0 .alloc, .cache 0 .alloc, .pages (.allocPages 0), .cache 0 .alloc,
    .newCache Slab.wide 1, .cache 1 .alloc]

theorem sampleOps_run : ∃ sys heap s, heapInit AlignOps.exact sampleMap (booted BuddyAllocator.new Memory.blank) =
    .ok (sys, heap) ∧ Reach AllocatorStack.exec AllocatorStack.Valid (afterInit sys heap) s ∧
    s.objects.length = 2 ∧ s.blocks.length = 2 ∧ s.caches.map (fun c => (c.order, c.live.length)) = [(0, 5), (1, 0)] := by
  have returns : ((heapInit AlignOps.exact sampleMap (booted BuddyAllocator.new Memory.blank)).toOption.bind
      fun r => (trial AllocatorStack.exec AllocatorStack.Alone (afterInit r.1 r.2) sampleOps).map
        fun s => (s.objects.length, s.blocks.length, s.caches.map fun c => (c.order, c.live.length))) =
      some (2, 2, [(0, 5), (1, 0)]) := by
    decide +kernel
  obtain ⟨⟨sys, heap⟩, done, rest⟩ := Option.bind_eq_some_iff.mp returns
  obtain ⟨s, ran, seen⟩ := Option.map_eq_some_iff.mp rest
  simp only [Prod.mk.injEq] at seen
  have init : heapInit AlignOps.exact sampleMap (booted BuddyAllocator.new Memory.blank) = .ok (sys, heap) := by
    cases e : heapInit AlignOps.exact sampleMap (booted BuddyAllocator.new Memory.blank) with
    | error stop =>
      rw [e] at done
      cases done
    | ok r =>
      rw [e] at done
      exact congrArg Except.ok (Option.some.inj done)
  exact ⟨sys, heap, s, init, (trial_reach sampleOps .start ran).mono fun _ _ => AllocatorStack.Alone.valid, seen⟩

theorem allocators_safe_sample : ∃ sys heap s, s.objects.length = 2 ∧ s.blocks.length = 2 ∧
    heapInit AlignOps.exact sampleMap (booted BuddyAllocator.new Memory.blank) = .ok (sys, heap) ∧
    AllocatorStack.Safe s ∧ ∀ op, AllocatorStack.Valid s op → AllocatorStack.exec s op = .error .addOverflow ∨
      ∃ s', AllocatorStack.exec s op = .ok s' ∧
        (¬ op.IsStore → Memory.StoresIn (AllocatorStack.OutsideLive s s') s.mem s'.mem) := by
  obtain ⟨sys, heap, s, init, run, objects, blocks, _⟩ := sampleOps_run
  exact ⟨sys, heap, s, objects, blocks, init,
    allocators_safe_from_boot AlignOps.exact_lawful sampleMap_seedable init run⟩

/-- A slab cache gets an object when it has a partial slab, or when the lowest usable page is on
one of its slab boundaries and a block of its order is to be had. Otherwise it never has a slab
in any run, whatever is free. -/
theorem slab_cache_served_iff (lawful : A.Lawful) (seedable : Seedable A d)
    (init : heapInit A d (booted BuddyAllocator.new m) = .ok (sys, heap)) {s : AllocatorStack}
    (run : Reach AllocatorStack.exec AllocatorStack.Valid (afterInit sys heap) s) {i : Nat} {c : Cache}
    (hi : s.caches[i]? = some c) :
    minVirt A d = some s.buddy.base ∧ (¬ Slab.slabBytes c.order ∣ s.buddy.base → c.slabs = [] ∧ c.live = []) ∧
      (AllocatorStack.exec s (.cache i .alloc) = .error .addOverflow ∨
        ∃ s' c', AllocatorStack.exec s (.cache i .alloc) = .ok s' ∧ s'.caches[i]? = some c' ∧
          (c'.live = c.live ∨ ∃ p, c'.live = p :: c.live) ∧
          ((∃ p, c'.live = p :: c.live) ↔ c.inner.partialHead ≠ 0 ∨
            Slab.slabBytes c.order ∣ s.buddy.base ∧ Serves s.pageClient c.order)) := by
  have inited := heapInit_spec lawful seedable m init
  have reached := inited.sound.run run
  have base : s.buddy.base = sys.buddy.base := inited.sound.run_base run
  exact ⟨base ▸ inited.base, reached.no_slab hi, reached.cache_found_iff hi⟩

theorem slab_cache_served_sample : ∃ s c, c.order = 1 ∧ s.caches[1]? = some c ∧
    minVirt AlignOps.exact sampleMap = some s.buddy.base ∧
    (¬ Slab.slabBytes c.order ∣ s.buddy.base → c.slabs = [] ∧ c.live = []) ∧
    (AllocatorStack.exec s (.cache 1 .alloc) = .error .addOverflow ∨
      ∃ s' c', AllocatorStack.exec s (.cache 1 .alloc) = .ok s' ∧ s'.caches[1]? = some c' ∧
        (c'.live = c.live ∨ ∃ p, c'.live = p :: c.live) ∧
        ((∃ p, c'.live = p :: c.live) ↔ c.inner.partialHead ≠ 0 ∨
          Slab.slabBytes c.order ∣ s.buddy.base ∧ Serves s.pageClient c.order)) := by
  obtain ⟨sys, heap, s, init, run, _, _, caches⟩ := sampleOps_run
  have second : (s.caches.map fun c => (c.order, c.live.length))[1]? = some (1, 0) := by rw [caches]; rfl
  rw [List.getElem?_map] at second
  obtain ⟨c, hi, seen⟩ := Option.map_eq_some_iff.mp second
  exact ⟨s, c, (Prod.mk.inj seen).1, hi,
    slab_cache_served_iff AlignOps.exact_lawful sampleMap_seedable init run hi⟩

end CrustyOs.Kernel.LimineData
