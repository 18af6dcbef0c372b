import CrustyOs.Abalone.SlabOps
import CrustyOs.Lib.Runs

/-! Whole runs of a slab cache over a page source: allocations, deallocations of live
objects, and the clients' stores to their objects, in any order. -/
namespace CrustyOs.Abalone.Slab
open Lib

variable {σ : Type}

structure System (σ : Type) where
  cache : SlabCache σ
  live : List Nat

inductive Op where
  | alloc
  | dealloc (ptr : Nat)
  | store (addr value : Nat)

def exec (t : ElementLayout) (src : PageSource σ) (s : System σ) : Op → Except Panic (System σ)
  | .alloc => do
    let (ptr, cache) ← s.cache.alloc t src
    match ptr with
    | none => return { s with cache }
    | some ptr => return ⟨cache, ptr :: s.live⟩
  | .dealloc ptr => do
    let cache ← s.cache.dealloc t src ptr
    return ⟨cache, s.live.erase ptr⟩
  | .store addr value => return { s with cache := { s.cache with mem := s.cache.mem.write addr value } }

def Valid (t : ElementLayout) (s : System σ) : Op → Prop
  | .alloc => True
  | .dealloc ptr => ptr ∈ s.live
  | .store addr _ => ∃ p ∈ s.live, p ≤ addr ∧ addr + 8 ≤ p + t.size

instance (t : ElementLayout) (s : System σ) (op : Op) : Decidable (Valid t s op) := by
  cases op <;> unfold Valid <;> infer_instance

def Sound (t : ElementLayout) (order : Nat) (Ready : σ → Memory → List Nat → Prop) (s : System σ)
    (bases : List Nat) : Prop :=
  ∃ free parts, Inv t order Ready s.cache bases free parts s.live

def AllUsed (t : ElementLayout) (order : Nat) (bases live : List Nat) : Prop :=
  ∀ x ∈ bases, ∃ i < capacityFor t order, slot t x i ∈ live

def OutsideLive (t : ElementLayout) (s s' : System σ) (addr : Nat) : Prop :=
  ∀ p ∈ s.live, p ∈ s'.live → addr + 8 ≤ p ∨ p + t.size ≤ addr

variable {t : ElementLayout} {order : Nat} {src : PageSource σ} {Ready : σ → Memory → List Nat → Prop}
  {s s' : System σ} {bases : List Nat} {mem : Memory} {pages : σ} {cache : SlabCache σ}

theorem new_spec (made : SlabCache.new t order mem pages = .ok cache) :
    8 ≤ t.size ∧ t.align ≤ pageSize ∧
      cache = ⟨⟨order, capacityFor t order, 0, AllocStats.zero⟩, mem, pages, []⟩ := by
  obtain ⟨inner, checked, made⟩ := ok_of_bind made
  obtain ⟨_, size, checked⟩ := ok_of_bind checked
  obtain ⟨_, align, checked⟩ := ok_of_bind checked
  obtain ⟨_, narrow, checked⟩ := ok_of_bind checked
  obtain rfl := Except.ok.inj checked
  exact ⟨of_decide_eq_true (of_require size), of_decide_eq_true (of_require align), (Except.ok.inj made).symm⟩

theorem new_sound (ready : Ready pages mem []) :
    Sound t order Ready ⟨⟨⟨order, capacityFor t order, 0, AllocStats.zero⟩, mem, pages, []⟩, []⟩ [] := by
  refine ⟨fun _ => [], [], rfl, rfl, ⟨?_, Linked.nil, by simp⟩, ready, ⟨rfl, Nat.zero_le _, rfl⟩, rfl⟩
  exact ⟨⟨List.Pairwise.nil, by simp⟩, by simp, by simp, List.nodup_nil, by simp⟩

theorem store_sound (backs : Backs src order Ready) (fits : Fits t order) (h : Sound t order Ready s bases)
    {addr value p : Nat} (hp : p ∈ s.live) (low : p ≤ addr) (high : addr + 8 ≤ p + t.size) :
    Sound t order Ready { s with cache := { s.cache with mem := s.cache.mem.write addr value } } bases := by
  obtain ⟨free, parts, inv⟩ := h
  have slabs := inv.shape.slabs
  obtain ⟨x, hx, i, hi, missing, rfl⟩ := (slabs.live_iff p).mp hp
  have slab := slabs.slab x hx
  have within := fits.slot_within (x := x) hi
  have inside : Inside order x addr := ⟨by omega, by omega⟩
  have stores : Memory.StoresIn (Inside order x) s.cache.mem (s.cache.mem.write addr value) :=
    (Memory.StoresIn.refl _ _).write value inside
  have header : ∀ k, k ≤ 24 → (s.cache.mem.write addr value).read (x + k) = s.cache.mem.read (x + k) :=
    fun k hk => Memory.read_write_other _ _ (by omega)
  have inUse : inUseOf (s.cache.mem.write addr value) x = inUseOf s.cache.mem x := header 8 (by omega)
  have capacity : capacityOf (s.cache.mem.write addr value) x = capacityOf s.cache.mem x := header 12 (by omega)
  have slab' : SlabOk t order (s.cache.mem.write addr value) x (free x) := by
    refine ⟨(header 0 (by omega)).trans slab.head, by rw [inUse]; exact slab.count,
      by rw [capacity]; exact slab.capacity, by rw [inUse]; exact slab.small,
      by rw [inUse, capacity]; exact slab.limit, slab.nodup, slab.bound, slab.threaded.congr fun j hj => ?_⟩
    have ne : i ≠ j := fun e => missing (e ▸ hj)
    have apart := slot_apart t x ne
    have size := fits.size
    exact Memory.read_write_other _ _ (by omega)
  obtain ⟨slabs', others⟩ := slabs.edit fits hx stores slab' slabs.live_nodup (by
    intro p
    rw [Function.update_eq_self]
    exact slabs.live_iff p)
  rw [Function.update_eq_self] at slabs'
  refine ⟨free, parts, inv.slabOrder, inv.capacity, ⟨slabs', ?_, fun y => ?_⟩, ?_, inv.accounts, inv.log⟩
  · apply links_kept inv.shape.linked ((Memory.StoresIn.refl (fun a => a = addr) _).write value rfl)
    rintro a ⟨y, hy, link⟩ rfl
    have room := fits.header_room
    unfold headerSize at room
    unfold Inside at inside
    by_cases same : y = x
    · omega
    · have far := slabs.placed.far (inv.shape.sub y hy) hx same
      unfold Beside at far
      omega
  · rw [inv.shape.parts_iff]
    apply and_congr_right
    intro hy
    by_cases same : y = x
    · subst same
      rw [Open, Open, inUse, capacity]
    · exact (others y hy same).symm
  · exact backs.kept inv.ready (stores.mono fun a inside => ⟨x, hx, inside⟩)

theorem clear_outsideLive {live : List Nat} {addr : Nat} (both : ∀ p ∈ s.live, p ∈ s'.live → p ∈ live)
    (clear : Clear t live addr) : OutsideLive t s s' addr :=
  fun p hp hp' => clear p (both p hp hp')

theorem another_used {x i : Nat} {m : Memory} {f : List Nat} (slab : SlabOk t order m x f)
    (two : 1 < inUseOf m x) : ∃ j < capacityFor t order, j ∉ f ∧ j ≠ i := by
  have count := slab.count
  have short : (i :: f).length < capacityFor t order := by
    rw [List.length_cons]
    omega
  obtain ⟨j, hj, missing⟩ := exists_missing short
  rw [List.mem_cons, not_or] at missing
  exact ⟨j, hj, missing.2, missing.1⟩

/-- One operation: it returns, or stops at the 2^32nd object of one slab. -/
theorem step_sound (backs : Backs src order Ready) (fits : Fits t order) (h : Sound t order Ready s bases)
    {op : Op} (valid : Valid t s op) :
    exec t src s op = .error .addOverflow ∨ ∃ s' bases', exec t src s op = .ok s' ∧
      Sound t order Ready s' bases' ∧
      ((∀ addr value, op ≠ .store addr value) →
        Memory.StoresIn (OutsideLive t s s') s.cache.mem s'.cache.mem) ∧
      (capacityFor t order % 2 ^ 32 ≠ 1 → AllUsed t order bases s.live → AllUsed t order bases' s'.live) := by
  obtain ⟨free, parts, inv⟩ := h
  cases op with
  | alloc =>
    rcases alloc_spec backs fits inv with stop | ⟨c, run, inv', stores⟩ |
      ⟨x, i, c, bases', free', parts', run, hx, hi, grown, inv', stores⟩
    · left
      simp only [exec, stop, bind, Except.bind]
    · refine Or.inr ⟨{ s with cache := c }, bases, ?_, ⟨free, parts, inv'⟩, fun _ => ?_, fun _ used => used⟩
      · simp only [exec, run, bind, Except.bind, pure, Except.pure]
      · exact stores.mono fun a => clear_outsideLive fun p hp _ => hp
    · refine Or.inr ⟨⟨c, slot t x i :: s.live⟩, bases', ?_, ⟨free', parts', inv'⟩, fun _ => ?_, fun _ used => ?_⟩
      · simp only [exec, run, bind, Except.bind, pure, Except.pure]
      · exact stores.mono fun a => clear_outsideLive fun p hp _ => hp
      · have old : ∀ y ∈ bases, ∃ j < capacityFor t order, slot t y j ∈ slot t x i :: s.live := by
          intro y hy
          obtain ⟨j, hj, mem⟩ := used y hy
          exact ⟨j, hj, List.mem_cons_of_mem _ mem⟩
        rcases grown with rfl | rfl
        · exact old
        · intro y hy
          cases hy with
          | head => exact ⟨i, hi, List.mem_cons_self⟩
          | tail _ hy => exact old y hy
  | dealloc ptr =>
    obtain ⟨x, hx, i, hi, missing, rfl⟩ := (inv.shape.slabs.live_iff ptr).mp valid
    obtain ⟨c, bases', free', parts', run, inv', stores, fate⟩ := dealloc_spec backs fits inv hx hi missing
    refine Or.inr ⟨⟨c, s.live.erase (slot t x i)⟩, bases', ?_, ⟨free', parts', inv'⟩, fun _ => ?_, fun plural used => ?_⟩
    · simp only [exec, run, bind, Except.bind, pure, Except.pure]
    · exact stores.mono fun a => clear_outsideLive fun p _ hp => hp
    · have slab := inv.shape.slabs.slab x hx
      have others : ∀ y ∈ bases, y ≠ x → ∃ j < capacityFor t order, slot t y j ∈ s.live.erase (slot t x i) := by
        intro y hy ne
        obtain ⟨j, hj, mem⟩ := used y hy
        refine ⟨j, hj, inv.shape.slabs.live_nodup.mem_erase_iff.mpr ⟨fun e => ne ?_, mem⟩⟩
        exact (inv.shape.slabs.slot_inj fits hy hx hj hi e).1
      rcases fate with ⟨rfl, more⟩ | ⟨rfl, _, _⟩
      · intro y hy
        by_cases same : y = x
        · subst same
          have positive := slab.used.mpr ⟨i, hi, missing⟩
          have two : 1 < inUseOf s.cache.mem y := by
            rcases more with full | two
            · have level : inUseOf s.cache.mem y = capacityOf s.cache.mem y := beq_iff_eq.mp full
              rw [slab.capacity] at level
              omega
            · exact two
          obtain ⟨j, hj, used, ne⟩ := another_used (i := i) slab two
          refine ⟨j, hj, inv.shape.slabs.live_nodup.mem_erase_iff.mpr ⟨fun e => ne (fits.slot_inj e), ?_⟩⟩
          exact (inv.shape.slabs.live_iff _).mpr ⟨y, hx, j, hj, used, rfl⟩
        · exact others y hy same
      · intro y hy
        obtain ⟨ne, hy⟩ := (inv.shape.slabs.placed.nodup fits.pos).mem_erase_iff.mp hy
        exact others y hy ne
  | store addr value =>
    obtain ⟨p, hp, low, high⟩ := valid
    refine Or.inr ⟨_, bases, rfl, store_sound backs fits ⟨free, parts, inv⟩ hp low high, ?_, fun _ used => used⟩
    exact fun not_store => absurd rfl (not_store addr value)

theorem run_sound (backs : Backs src order Ready) (ready : Ready pages mem [])
    (made : SlabCache.new t order mem pages = .ok cache) (room : 0 < capacityFor t order)
    (run : Reach (exec t src) (Valid t) ⟨cache, []⟩ s) :
    Fits t order ∧ ∃ bases, Sound t order Ready s bases ∧
      (capacityFor t order % 2 ^ 32 ≠ 1 → AllUsed t order bases s.live) := by
  obtain ⟨size, align, rfl⟩ := new_spec made
  have fits : Fits t order := ⟨size, align, room⟩
  refine ⟨fits, run.invariant (I := fun s => ∃ bases, Sound t order Ready s bases ∧
    (capacityFor t order % 2 ^ 32 ≠ 1 → AllUsed t order bases s.live))
    ⟨[], new_sound ready, fun _ _ hx => absurd hx List.not_mem_nil⟩ ?_⟩
  rintro s op s' ⟨bases, sound, used⟩ valid done
  rcases step_sound backs fits sound valid with stop | ⟨s₁, bases', run, sound', _, keeps⟩
  · cases stop.symm.trans done
  · obtain rfl := Except.ok.inj (run.symm.trans done)
    exact ⟨bases', sound', fun plural => keeps plural (used plural)⟩

end CrustyOs.Abalone.Slab
