import CrustyOs.Abalone.SlabHeap

/-! What the cache relies on from its page source, and that `grow`, `alloc` and
`dealloc` keep the cache's invariant over any such source. -/
namespace CrustyOs.Abalone.Slab
open Lib

/-- The blocks out after the calls, latest call first; `none` once a block is handed
back that is not out. -/
def outstanding : List PageCall → Option (List (Nat × Nat))
  | [] => some []
  | .obtained ptr order :: calls => (outstanding calls).map fun out => (ptr, order) :: out
  | .handedBack ptr order :: calls =>
    (outstanding calls).bind fun out => if (ptr, order) ∈ out then some (out.erase (ptr, order)) else none

variable {σ : Type}

/-- A page source for blocks of one order: while `Ready` holds of its state, the memory
and the blocks it has given out, it returns from each call, gives a block beside
those out or none, takes a block back, and keeps off the blocks that are out. -/
structure Backs (src : PageSource σ) (order : Nat) (Ready : σ → Memory → List Nat → Prop) : Prop where
  placed : ∀ {p m out}, Ready p m out → Placed order out
  serves : ∀ {p m out}, Ready p m out → ∃ r p' m', src.allocPage p m order = .ok (r, p', m') ∧
    Memory.StoresIn (Outside order out) m m' ∧ Ready p' m' (r.toList ++ out)
  takes : ∀ {p m out x}, Ready p m out → x ∈ out → ∃ p' m', src.deallocPage p m x order = .ok (p', m') ∧
    Memory.StoresIn (Outside order (out.erase x)) m m' ∧ Ready p' m' (out.erase x)
  kept : ∀ {p m m' out}, Ready p m out →
    Memory.StoresIn (fun a => ∃ x ∈ out, Inside order x a) m m' → Ready p m' out

/-- The counters, as far as the cache's own subtractions depend on them. -/
structure Accounts (t : ElementLayout) (order : Nat) (stats : AllocStats) (slabs objects : Nat) : Prop where
  total : stats.totalBytes = slabBytes order * slabs
  free : capacityFor t order * t.size * slabs ≤ stats.freeBytes
  used : stats.usedBytes = t.size * objects

structure Shape (t : ElementLayout) (order : Nat) (s : SlabCache σ) (bases : List Nat)
    (free : Nat → List Nat) (parts live : List Nat) : Prop where
  slabs : Slabs t order s.mem bases free live
  linked : Linked (nextOf s.mem) (prevOf s.mem) s.inner.partialHead parts
  parts_iff : ∀ x, x ∈ parts ↔ x ∈ bases ∧ Open s.mem x

/-- The cache's invariant: `bases` are its slabs, `free` their free lists, `parts` the
partial list, `live` the objects handed out. -/
structure Inv (t : ElementLayout) (order : Nat) (Ready : σ → Memory → List Nat → Prop) (s : SlabCache σ)
    (bases : List Nat) (free : Nat → List Nat) (parts live : List Nat) : Prop where
  slabOrder : s.inner.slabOrder = order
  capacity : s.inner.capacity = capacityFor t order
  shape : Shape t order s bases free parts live
  ready : Ready s.pages s.mem bases
  accounts : Accounts t order s.inner.stats bases.length live.length
  log : outstanding s.calls = some (bases.map fun x => (x, order))

variable {t : ElementLayout} {order : Nat} {src : PageSource σ} {Ready : σ → Memory → List Nat → Prop}
  {s : SlabCache σ} {bases parts live is : List Nat} {free : Nat → List Nat} {x i : Nat} {m : Memory}

/-! The shape under the edits of the operations. -/

theorem Placed.links_inside (fits : Fits t order) (sub : ∀ y ∈ parts, y ∈ bases) {a : Nat}
    (link : LinkWord 24 16 parts a) : ∃ y ∈ bases, Inside order y a := by
  obtain ⟨y, hy, e⟩ := link
  have room := fits.header_room
  unfold headerSize at room
  exact ⟨y, sub y hy, by omega, by omega⟩

namespace Shape

theorem sub (h : Shape t order s bases free parts live) : ∀ y ∈ parts, y ∈ bases :=
  fun y hy => ((h.parts_iff y).mp hy).1

theorem sourced (h : Shape t order s bases free parts live) (fits : Fits t order) (p : σ) (calls : List PageCall)
    (stores : Memory.StoresIn (Outside order bases) s.mem m) :
    Shape t order { s with pages := p, mem := m, calls } bases free parts live where
  slabs := (h.slabs.outside fits stores).1
  linked := links_kept h.linked stores fun _ => Placed.links_miss fits h.sub
  parts_iff y := by
    rw [h.parts_iff]
    exact and_congr_right fun hy => ((h.slabs.outside fits stores).2 y hy).symm

theorem adopt (h : Shape t order s bases free parts live) (fits : Fits t order)
    (placed : Placed order (x :: bases)) (aligned : slabBytes order ∣ x)
    (slab : SlabOk t order m x (List.range (capacityFor t order))) (opened : Open m x)
    (stores : Memory.StoresIn (Inside order x) s.mem m) :
    ∃ m', SlabCache.linkPartial { s with mem := m } x =
        { s with mem := m', inner := { s.inner with partialHead := x } } ∧
      Shape t order { s with mem := m', inner := { s.inner with partialHead := x } } (x :: bases)
        (Function.update free x (List.range (capacityFor t order))) (x :: parts) live ∧
      Memory.StoresIn (fun a => Inside order x a ∨ LinkWord 24 16 parts a) s.mem m' := by
  obtain ⟨slabs, others⟩ := h.slabs.add fits placed aligned slab stores
  have fresh := (List.nodup_cons.mp (placed.nodup fits.pos)).1
  have linked := links_kept h.linked stores fun a link inside =>
    Placed.links_miss fits h.sub link (placed.outside inside)
  have sub : ∀ y ∈ x :: parts, y ∈ x :: bases := by
    intro y hy
    cases hy with
    | head => exact List.mem_cons_self
    | tail _ hy => exact List.mem_cons_of_mem _ (h.sub y hy)
  obtain ⟨m', run, linked', stores'⟩ := linkPartial_spec (s := { s with mem := m }) (x := x) linked
    (placed.range x List.mem_cons_self).1 (fun hx => fresh (h.sub x hx)) (placed.linksApart sub fits.header_room)
  obtain ⟨slabs', opens⟩ := slabs.relinked fits sub stores'
  refine ⟨m', run, ⟨slabs', linked', fun y => ?_⟩, ?_⟩
  · rw [List.mem_cons, List.mem_cons, or_and_right]
    apply or_congr
    · constructor
      · rintro rfl
        exact ⟨rfl, (opens y List.mem_cons_self).mpr opened⟩
      · exact And.left
    · rw [h.parts_iff]
      apply and_congr_right
      intro hy
      exact ((opens y (List.mem_cons_of_mem _ hy)).trans (others y hy)).symm
  · apply (stores.mono fun a => Or.inl).trans
    apply stores'.mono
    rintro a ⟨y, hy, e⟩
    cases hy with
    | head =>
      have room := fits.header_room
      unfold headerSize at room
      exact Or.inl ⟨by omega, by omega⟩
    | tail _ hy => exact Or.inr ⟨y, hy, e⟩

theorem linked_rewritten (h : Shape t order s bases free parts live) (fits : Fits t order) (hx : x ∈ bases)
    (hi : i < capacityFor t order) (stores : Memory.StoresIn (Rewritten t x i) s.mem m) :
    Linked (nextOf m) (prevOf m) s.inner.partialHead parts :=
  links_kept h.linked stores fun _ => h.slabs.placed.links_miss_rewritten fits h.sub hx hi

theorem take (h : Shape t order s bases free parts live) (fits : Fits t order) (hx : x ∈ parts)
    (e : free x = i :: is) (small : inUseOf s.mem x + 1 < 2 ^ 32)
    (popped : m = setInUse (setFreeHead s.mem x (s.mem.read (slot t x i))) x (inUseOf s.mem x + 1)) :
    ∃ m' head parts', (if isFull m x then SlabCache.unlinkPartial { s with mem := m } x else { s with mem := m }) =
        { s with mem := m', inner := { s.inner with partialHead := head } } ∧
      Shape t order { s with mem := m', inner := { s.inner with partialHead := head } } bases
        (Function.update free x is) parts' (slot t x i :: live) ∧
      Memory.StoresIn (fun a => Rewritten t x i a ∨ LinkWord 24 16 parts a) s.mem m' := by
  obtain ⟨held, opened⟩ := (h.parts_iff x).mp hx
  have hi := (h.slabs.slab x held).bound i (by rw [e]; exact List.mem_cons_self)
  obtain ⟨slabs, others, inUse, capacity, stores⟩ := h.slabs.take fits held e opened small popped
  have linked := h.linked_rewritten fits held hi stores
  have full_iff : isFull m x = true ↔ ¬ Open m x := by
    rw [isFull, beq_iff_eq, Open, inUse, capacity]
    rcases opened with zero | less
    · omega
    · omega
  by_cases full : isFull m x = true
  · rw [if_pos full]
    obtain ⟨m', head, run, linked', stores'⟩ := unlinkPartial_spec (s := { s with mem := m }) linked hx
      (h.slabs.placed.linksApart h.sub fits.header_room)
    obtain ⟨slabs', opens⟩ := slabs.relinked fits h.sub stores'
    refine ⟨m', head, parts.erase x, run, ⟨slabs', linked', fun y => ?_⟩, ?_⟩
    · rw [h.linked.nodup.mem_erase_iff, h.parts_iff]
      constructor
      · rintro ⟨ne, hy, o⟩
        exact ⟨hy, (opens y hy).mpr ((others y hy ne).mpr o)⟩
      · rintro ⟨hy, o⟩
        have open_m := (opens y hy).mp o
        have ne : y ≠ x := fun same => full_iff.mp full (same ▸ open_m)
        exact ⟨ne, hy, (others y hy ne).mp open_m⟩
    · exact (stores.mono fun a => Or.inl).trans (stores'.mono fun a => Or.inr)
  · rw [if_neg full]
    refine ⟨m, s.inner.partialHead, parts, rfl, ⟨slabs, linked, fun y => ?_⟩, stores.mono fun a => Or.inl⟩
    rw [h.parts_iff]
    apply and_congr_right
    intro hy
    by_cases same : y = x
    · subst same
      exact ⟨fun _ => not_not.mp fun shut => full (full_iff.mpr shut), fun _ => opened⟩
    · exact (others y hy same).symm

theorem give_full (h : Shape t order s bases free parts live) (fits : Fits t order) (hx : x ∈ bases)
    (hi : i < capacityFor t order) (missing : i ∉ free x) (full : isFull s.mem x = true)
    (pushed : m = setInUse (setFreeHead (s.mem.write (slot t x i) (freeHeadOf s.mem x)) x i) x
      (inUseOf s.mem x - 1)) :
    ∃ m', SlabCache.linkPartial { s with mem := m } x =
        { s with mem := m', inner := { s.inner with partialHead := x } } ∧
      Shape t order { s with mem := m', inner := { s.inner with partialHead := x } } bases
        (Function.update free x (i :: free x)) (x :: parts) (live.erase (slot t x i)) ∧
      Memory.StoresIn (fun a => Rewritten t x i a ∨ LinkWord 24 16 bases a) s.mem m' := by
  obtain ⟨slabs, others, inUse, capacity, stores⟩ := h.slabs.give fits hx hi missing pushed
  have used := (h.slabs.slab x hx).used.mpr ⟨i, hi, missing⟩
  have level : inUseOf s.mem x = capacityOf s.mem x := beq_iff_eq.mp full
  have fresh : x ∉ parts := by
    intro hx
    rcases ((h.parts_iff x).mp hx).2 with zero | less
    · omega
    · omega
  have sub : ∀ y ∈ x :: parts, y ∈ bases := by
    intro y hy
    cases hy with
    | head => exact hx
    | tail _ hy => exact h.sub y hy
  obtain ⟨m', run, linked', stores'⟩ := linkPartial_spec (s := { s with mem := m })
    (h.linked_rewritten fits hx hi stores) (h.slabs.placed.range x hx).1 fresh
    (h.slabs.placed.linksApart sub fits.header_room)
  obtain ⟨slabs', opens⟩ := slabs.relinked fits sub stores'
  refine ⟨m', run, ⟨slabs', linked', fun y => ?_⟩, ?_⟩
  · rw [List.mem_cons, h.parts_iff]
    constructor
    · rintro (rfl | ⟨hy, o⟩)
      · refine ⟨hx, (opens y hx).mpr ?_⟩
        rw [Open, inUse, capacity]
        omega
      · have ne : y ≠ x := by
          rintro rfl
          exact fresh ((h.parts_iff y).mpr ⟨hy, o⟩)
        exact ⟨hy, (opens y hy).mpr ((others y hy ne).mpr o)⟩
    · rintro ⟨hy, o⟩
      by_cases same : y = x
      · exact Or.inl same
      · exact Or.inr ⟨hy, (others y hy same).mp ((opens y hy).mp o)⟩
  · apply (stores.mono fun a => Or.inl).trans
    apply stores'.mono
    rintro a ⟨y, hy, e⟩
    exact Or.inr ⟨y, sub y hy, e⟩

theorem give_partial (h : Shape t order s bases free parts live) (fits : Fits t order) (hx : x ∈ bases)
    (hi : i < capacityFor t order) (missing : i ∉ free x) (full : ¬ isFull s.mem x = true)
    (pushed : m = setInUse (setFreeHead (s.mem.write (slot t x i) (freeHeadOf s.mem x)) x i) x
      (inUseOf s.mem x - 1)) :
    x ∈ parts ∧ inUseOf m x = inUseOf s.mem x - 1 ∧ Memory.StoresIn (Rewritten t x i) s.mem m ∧
      Shape t order { s with mem := m } bases (Function.update free x (i :: free x)) parts
        (live.erase (slot t x i)) := by
  obtain ⟨slabs, others, inUse, capacity, stores⟩ := h.slabs.give fits hx hi missing pushed
  have level : inUseOf s.mem x ≠ capacityOf s.mem x := fun e => full (beq_iff_eq.mpr e)
  have limit := (h.slabs.slab x hx).limit
  have opened : Open s.mem x := limit.imp_right fun le => Nat.lt_of_le_of_ne le level
  refine ⟨(h.parts_iff x).mpr ⟨hx, opened⟩, inUse, stores, slabs, h.linked_rewritten fits hx hi stores, fun y => ?_⟩
  rw [h.parts_iff]
  apply and_congr_right
  intro hy
  by_cases same : y = x
  · subst same
    refine ⟨fun _ => ?_, fun _ => opened⟩
    rw [Open, inUse, capacity]
    exact opened.imp_right (by omega)
  · exact (others y hy same).symm

theorem release (h : Shape t order s bases free parts live) (fits : Fits t order) (hx : x ∈ parts)
    (empty : inUseOf s.mem x = 0) :
    ∃ m' head, SlabCache.unlinkPartial s x = { s with mem := m', inner := { s.inner with partialHead := head } } ∧
      Shape t order { s with mem := m', inner := { s.inner with partialHead := head } } (bases.erase x) free
        (parts.erase x) live ∧ Memory.StoresIn (LinkWord 24 16 parts) s.mem m' := by
  have held := h.sub x hx
  obtain ⟨m', head, run, linked', stores'⟩ := unlinkPartial_spec h.linked hx
    (h.slabs.placed.linksApart h.sub fits.header_room)
  have count : inUseOf m' x = 0 := by
    rw [← empty]
    apply stores'.read_eq
    rintro ⟨y, hy, e⟩
    have room := fits.header_room
    unfold headerSize at room
    by_cases same : y = x
    · omega
    · have far := h.slabs.placed.far (h.sub y hy) held same
      unfold Beside at far
      omega
  obtain ⟨slabs', opens⟩ := h.slabs.relinked fits h.sub stores'
  refine ⟨m', head, run, ⟨slabs'.drop fits held count, linked', fun y => ?_⟩, stores'⟩
  rw [h.linked.nodup.mem_erase_iff, h.parts_iff, (h.slabs.placed.nodup fits.pos).mem_erase_iff, and_assoc]
  apply and_congr_right
  intro _
  exact and_congr_right fun hy => (opens y hy).symm

end Shape

theorem grow_spec (backs : Backs src order Ready) (fits : Fits t order)
    (h : Inv t order Ready s bases free parts live) :
    ∃ r s', s.grow t src = .ok (r, s') ∧ Memory.StoresIn (Clear t live) s.mem s'.mem ∧
      ((r = none ∧ Inv t order Ready s' bases free parts live) ∨
        (r = some () ∧ ∃ x free', Inv t order Ready s' (x :: bases) free' (x :: parts) live)) := by
  obtain ⟨r, p₁, m₁, served, out₁, ready₁⟩ := backs.serves h.ready
  have positive : require (capacityFor t order > 0) "SlabCache<T>: zero capacity (T too large for slab order?)" =
      .ok () := require_true _ (by simpa using fits.capacity)
  have clear₁ := out₁.mono fun a => h.shape.slabs.clear_outside fits
  cases r with
  | none =>
    refine ⟨none, { s with pages := p₁, mem := m₁ }, ?_, clear₁, Or.inl ⟨rfl, ?_⟩⟩
    · simp only [SlabCache.grow, positive, h.slabOrder, h.capacity, served, bind, Except.bind, pure, Except.pure]
    · exact ⟨h.slabOrder, h.capacity, h.shape.sourced fits _ _ out₁, ready₁, h.accounts, h.log⟩
  | some x =>
    have placed : Placed order (x :: bases) := backs.placed ready₁
    have range := placed.range x List.mem_cons_self
    have pos := fits.pos
    have rounded := mask_slabBytes pos (show x < 2 ^ 64 by omega)
    by_cases aligned : x &&& wordNot 64 (slabBytes order - 1) = x
    · obtain ⟨slab, opened, written⟩ := fresh_spec (x := x) (m := m₁) fits rfl
      have shape₁ := h.shape.sourced fits p₁ (.obtained x order :: s.calls) out₁
      obtain ⟨m₂, run, shape₂, linked⟩ := shape₁.adopt fits placed ⟨x / slabBytes order, by
        rw [Nat.mul_comm, ← rounded, aligned]⟩ slab opened written
      have ready₂ : Ready p₁ m₂ (x :: bases) := by
        apply backs.kept ready₁ (linked.mono ?_)
        rintro a (inside | link)
        · exact ⟨x, List.mem_cons_self, inside⟩
        · obtain ⟨y, hy, inside⟩ := Placed.links_inside fits h.shape.sub link
          exact ⟨y, List.mem_cons_of_mem _ hy, inside⟩
      refine ⟨some (), ⟨{ s.inner with partialHead := x, stats := { s.inner.stats with
        totalBytes := s.inner.stats.totalBytes + slabBytes order
        freeBytes := s.inner.stats.freeBytes + capacityFor t order * t.size } }, m₂, p₁,
          .obtained x order :: s.calls⟩, ?_, ?_, Or.inr ⟨rfl, x, _, h.slabOrder, h.capacity,
            ⟨shape₂.slabs, shape₂.linked, shape₂.parts_iff⟩, ready₂, ?_, ?_⟩⟩
      · simp only [SlabCache.grow, positive, h.slabOrder, h.capacity, served, bind, Except.bind, pure, Except.pure]
        rw [if_neg (not_not.mpr aligned)]
        simp only [run, SlabCache.withStats, h.slabOrder, h.capacity]
      · apply clear₁.trans (linked.mono ?_)
        rintro a (inside | link)
        · exact h.shape.slabs.clear_outside fits (placed.outside inside)
        · exact h.shape.slabs.clear_links fits h.shape.sub link
      · have total := h.accounts.total
        have free := h.accounts.free
        refine ⟨?_, ?_, h.accounts.used⟩
        · rw [List.length_cons, Nat.mul_succ, total]
        · rw [List.length_cons, Nat.mul_succ]
          exact Nat.add_le_add_right free _
      · simp [outstanding, h.log]
    · obtain ⟨p₂, m₂, taken, out₂, ready₂⟩ := backs.takes ready₁ (x := x) List.mem_cons_self
      simp only [Option.toList, List.cons_append, List.nil_append, List.erase_cons_head] at out₂ ready₂
      refine ⟨none, { s with pages := p₂, mem := m₂, calls := .handedBack x order :: .obtained x order :: s.calls },
        ?_, ?_, Or.inl ⟨rfl, ?_⟩⟩
      · simp only [SlabCache.grow, positive, h.slabOrder, h.capacity, served, bind, Except.bind, pure, Except.pure]
        rw [if_pos aligned]
        simp only [taken]
      · exact clear₁.trans (out₂.mono fun a => h.shape.slabs.clear_outside fits)
      · refine ⟨h.slabOrder, h.capacity, h.shape.sourced fits _ _ (out₁.trans out₂), ready₂, h.accounts, ?_⟩
        simp [outstanding, h.log]

/-- What `takeSlot` does on a partial slab: the next object, or a stop once 2^32 objects
would be in use in one slab. -/
theorem takeSlot_spec (backs : Backs src order Ready) (fits : Fits t order)
    (h : Inv t order Ready s bases free (x :: parts) live) :
    s.takeSlot t = .error .addOverflow ∨ ∃ i s' free' parts', s.takeSlot t = .ok (slot t x i, s') ∧
      x ∈ bases ∧ i < capacityFor t order ∧
      Inv t order Ready s' bases free' parts' (slot t x i :: live) ∧
      Memory.StoresIn (Clear t live) s.mem s'.mem := by
  have hx : x ∈ x :: parts := List.mem_cons_self
  have at_head : s.inner.partialHead = x := h.shape.linked.head_eq
  obtain ⟨held, opened⟩ := (h.shape.parts_iff x).mp hx
  have slab := h.shape.slabs.slab x held
  obtain ⟨i, is, e⟩ := List.exists_cons_of_ne_nil (slab.free_of_open fits opened)
  have hi := slab.bound i (by rw [e]; exact List.mem_cons_self)
  have first : freeHeadOf s.mem x = i := by rw [slab.head, e]; rfl
  have named : require (i != usizeMax) "alloc called on full slab" = .ok () := by
    have low := fits.index_lt hi
    exact require_true _ (by simpa using Nat.ne_of_lt low)
  have counted : inUseOf (setFreeHead s.mem x (s.mem.read (slot t x i))) x = inUseOf s.mem x :=
    Memory.read_write_other _ _ (by omega)
  by_cases small : inUseOf s.mem x + 1 < 2 ^ 32
  · obtain ⟨m', head, parts', run, shape', stores⟩ := h.shape.take fits hx e small rfl
    have new : slot t x i ∉ live := (List.nodup_cons.mp shape'.slabs.live_nodup).1
    refine Or.inr ⟨i, ⟨{ s.inner with partialHead := head, stats := { s.inner.stats with
        allocCount := s.inner.stats.allocCount + 1
        usedBytes := s.inner.stats.usedBytes + t.size
        peakBytes := if s.inner.stats.usedBytes + t.size > s.inner.stats.peakBytes
          then s.inner.stats.usedBytes + t.size else s.inner.stats.peakBytes } }, m', s.pages, s.calls⟩,
      _, parts', ?_, held, hi, ⟨h.slabOrder, h.capacity, ⟨shape'.slabs, shape'.linked, shape'.parts_iff⟩,
        ?_, ?_, h.log⟩, ?_⟩
    · have succ : checkedSucc32 (inUseOf s.mem x) = .ok (inUseOf s.mem x + 1) := if_pos small
      rw [slot] at run counted
      simp only [SlabCache.takeSlot, at_head, first, named, counted, succ, bind, Except.bind, pure, Except.pure]
      simp only [run, SlabCache.withStats, slot]
    · apply backs.kept h.ready (stores.mono ?_)
      rintro a (word | link)
      · exact ⟨x, held, word.inside fits hi⟩
      · exact Placed.links_inside fits h.shape.sub link
    · refine ⟨h.accounts.total, h.accounts.free, ?_⟩
      rw [List.length_cons, Nat.mul_succ, h.accounts.used]
    · apply stores.mono
      rintro a (word | link)
      · exact h.shape.slabs.clear_rewritten fits held hi new word
      · exact h.shape.slabs.clear_links fits h.shape.sub link
  · have stop : checkedSucc32 (inUseOf s.mem x) = .error .addOverflow := if_neg small
    rw [slot] at counted
    left
    simp only [SlabCache.takeSlot, at_head, first, named, counted, stop, bind, Except.bind]

theorem alloc_spec (backs : Backs src order Ready) (fits : Fits t order)
    (h : Inv t order Ready s bases free parts live) :
    s.alloc t src = .error .addOverflow ∨
      (∃ s', s.alloc t src = .ok (none, s') ∧ Inv t order Ready s' bases free parts live ∧
        Memory.StoresIn (Clear t live) s.mem s'.mem) ∨
      ∃ x i s' bases' free' parts', s.alloc t src = .ok (some (slot t x i), s') ∧
        x ∈ bases' ∧ i < capacityFor t order ∧ (bases' = bases ∨ bases' = x :: bases) ∧
        Inv t order Ready s' bases' free' parts' (slot t x i :: live) ∧
        Memory.StoresIn (Clear t live) s.mem s'.mem := by
  by_cases empty : s.inner.partialHead = 0
  · obtain ⟨r, s₁, grown, clear₁, outcome⟩ := grow_spec backs fits h
    rcases outcome with ⟨rfl, inv₁⟩ | ⟨rfl, x, free₁, inv₁⟩
    · refine Or.inr (Or.inl ⟨s₁, ?_, inv₁, clear₁⟩)
      simp only [SlabCache.alloc, if_pos empty, grown, bind, Except.bind, pure, Except.pure]
    · rcases takeSlot_spec backs fits inv₁ with stop | ⟨i, s', free', parts', run, hx, hi, inv, stores⟩
      · left
        simp only [SlabCache.alloc, if_pos empty, grown, stop, bind, Except.bind]
      · refine Or.inr (Or.inr ⟨x, i, s', _, free', parts', ?_, hx, hi, Or.inr rfl, inv, clear₁.trans stores⟩)
        simp only [SlabCache.alloc, if_pos empty, grown, run, bind, Except.bind, pure, Except.pure]
  · obtain ⟨x, rest, rfl⟩ := List.exists_cons_of_ne_nil fun e => empty (h.shape.linked.head_zero_iff.mpr e)
    rcases takeSlot_spec backs fits h with stop | ⟨i, s', free', parts', run, hx, hi, inv, stores⟩
    · left
      simp only [SlabCache.alloc, if_neg empty, stop, bind, Except.bind, pure, Except.pure]
    · refine Or.inr (Or.inr ⟨x, i, s', bases, free', parts', ?_, hx, hi, Or.inl rfl, inv, stores⟩)
      simp only [SlabCache.alloc, if_neg empty, run, bind, Except.bind, pure, Except.pure]

/-- The end of a `dealloc`, by the three ways a slab can go on: relinked when it was
full, kept while objects remain, handed back when it was partial and is now empty. -/
theorem settleSlab_spec (backs : Backs src order Ready) (fits : Fits t order)
    (h : Inv t order Ready s bases free parts live) (hx : x ∈ bases) (hi : i < capacityFor t order)
    (missing : i ∉ free x)
    (pushed : m = setInUse (setFreeHead (s.mem.write (slot t x i) (freeHeadOf s.mem x)) x i) x
      (inUseOf s.mem x - 1)) :
    ∃ s' bases' free' parts', SlabCache.settleSlab t src { s with mem := m } x (isFull s.mem x) = .ok s' ∧
      s'.inner.slabOrder = order ∧ s'.inner.capacity = capacityFor t order ∧
      Shape t order s' bases' free' parts' (live.erase (slot t x i)) ∧ Ready s'.pages s'.mem bases' ∧
      Accounts t order s'.inner.stats bases'.length live.length ∧
      outstanding s'.calls = some (bases'.map fun x => (x, order)) ∧
      Memory.StoresIn (Clear t (live.erase (slot t x i))) s.mem s'.mem ∧
      ((bases' = bases ∧ (isFull s.mem x = true ∨ 1 < inUseOf s.mem x)) ∨
        (bases' = bases.erase x ∧ isFull s.mem x = false ∧ inUseOf s.mem x = 1)) := by
  have used := (h.shape.slabs.slab x hx).used.mpr ⟨i, hi, missing⟩
  have gone : slot t x i ∉ live.erase (slot t x i) := h.shape.slabs.live_nodup.not_mem_erase
  by_cases full : isFull s.mem x = true
  · obtain ⟨m', run, shape', stores⟩ := h.shape.give_full fits hx hi missing full pushed
    refine ⟨{ s with mem := m', inner := { s.inner with partialHead := x } }, bases, _, _, ?_, h.slabOrder,
      h.capacity, shape', ?_, h.accounts, h.log, ?_, Or.inl ⟨rfl, Or.inl full⟩⟩
    · simp only [SlabCache.settleSlab, full, if_true, run, pure, Except.pure]
    · apply backs.kept h.ready (stores.mono ?_)
      rintro a (word | link)
      · exact ⟨x, hx, word.inside fits hi⟩
      · exact Placed.links_inside fits (fun y hy => hy) link
    · apply stores.mono
      rintro a (word | link)
      · exact shape'.slabs.clear_rewritten fits hx hi gone word
      · exact shape'.slabs.clear_links fits (fun y hy => hy) link
  · obtain ⟨listed, count, stores, shape₁⟩ := h.shape.give_partial fits hx hi missing full pushed
    have ready₁ : Ready s.pages m bases :=
      backs.kept h.ready (stores.mono fun a word => ⟨x, hx, word.inside fits hi⟩)
    have clear₁ : Memory.StoresIn (Clear t (live.erase (slot t x i))) s.mem m :=
      stores.mono fun a word => shape₁.slabs.clear_rewritten fits hx hi gone word
    by_cases empty : isEmpty m x = true
    · have zero : inUseOf m x = 0 := beq_iff_eq.mp empty
      obtain ⟨m₂, head, run, shape₂, links⟩ := shape₁.release fits listed zero
      have ready₂ : Ready s.pages m₂ bases :=
        backs.kept ready₁ (links.mono fun a link => Placed.links_inside fits h.shape.sub link)
      obtain ⟨p₃, m₃, taken, out, ready₃⟩ := backs.takes ready₂ hx
      have shape₃ := shape₂.sourced fits p₃ (.handedBack x order :: s.calls) out
      have total := h.accounts.total
      have free := h.accounts.free
      have count_bases : bases.length = (bases.erase x).length + 1 := by
        have pos := List.length_pos_of_mem hx
        rw [List.length_erase_of_mem hx]
        omega
      rw [count_bases, Nat.mul_succ] at total free
      refine ⟨⟨{ s.inner with partialHead := head, stats := { s.inner.stats with
          totalBytes := s.inner.stats.totalBytes - slabBytes order
          freeBytes := s.inner.stats.freeBytes - capacityFor t order * t.size } }, m₃, p₃,
          .handedBack x order :: s.calls⟩, bases.erase x, _, _, ?_, h.slabOrder, h.capacity,
        ⟨shape₃.slabs, shape₃.linked, shape₃.parts_iff⟩, ready₃, ?_, ?_, ?_, Or.inr ⟨rfl, by simpa using full, by omega⟩⟩
      · have subTotal : checkedSub s.inner.stats.totalBytes (slabBytes order) =
            .ok (s.inner.stats.totalBytes - slabBytes order) := checkedSub_le (by omega)
        have subFree : checkedSub s.inner.stats.freeBytes (capacityFor t order * t.size) =
            .ok (s.inner.stats.freeBytes - capacityFor t order * t.size) := checkedSub_le (by omega)
        simp only [SlabCache.settleSlab, full, empty, run, h.slabOrder, h.capacity, taken, subTotal, subFree,
          SlabCache.withStats, bind, Except.bind, pure, Except.pure]
        rfl
      · refine ⟨?_, ?_, h.accounts.used⟩
        · show s.inner.stats.totalBytes - slabBytes order = _
          omega
        · show _ ≤ s.inner.stats.freeBytes - capacityFor t order * t.size
          omega
      · have inj : Function.Injective fun x : Nat => (x, order) := fun a b e => congrArg Prod.fst e
        have mem : (x, order) ∈ bases.map fun x => (x, order) := List.mem_map_of_mem hx
        show (outstanding s.calls).bind _ = _
        rw [h.log, Option.bind_some, if_pos mem, List.map_erase inj]
      · apply (clear₁.trans (links.mono fun a link => shape₁.slabs.clear_links fits h.shape.sub link)).trans
        exact out.mono fun a => shape₂.slabs.clear_outside fits
    · have nonzero : inUseOf m x ≠ 0 := fun zero => empty (beq_iff_eq.mpr zero)
      refine ⟨{ s with mem := m }, bases, _, _, ?_, h.slabOrder, h.capacity, shape₁, ready₁, h.accounts, h.log,
        clear₁, Or.inl ⟨rfl, Or.inr (by omega)⟩⟩
      simp only [SlabCache.settleSlab, full, empty, pure, Except.pure]
      rfl

theorem dealloc_spec (backs : Backs src order Ready) (fits : Fits t order)
    (h : Inv t order Ready s bases free parts live) (hx : x ∈ bases) (hi : i < capacityFor t order)
    (missing : i ∉ free x) :
    ∃ s' bases' free' parts', s.dealloc t src (slot t x i) = .ok s' ∧
      Inv t order Ready s' bases' free' parts' (live.erase (slot t x i)) ∧
      Memory.StoresIn (Clear t (live.erase (slot t x i))) s.mem s'.mem ∧
      ((bases' = bases ∧ (isFull s.mem x = true ∨ 1 < inUseOf s.mem x)) ∨
        (bases' = bases.erase x ∧ isFull s.mem x = false ∧ inUseOf s.mem x = 1)) := by
  have slab := h.shape.slabs.slab x hx
  have used := slab.used.mpr ⟨i, hi, missing⟩
  have within := fits.slot_within (x := x) hi
  have mem : slot t x i ∈ live := (h.shape.slabs.live_iff _).mpr ⟨x, hx, i, hi, missing, rfl⟩
  obtain ⟨s₁, bases', free', parts', run, slabOrder, capacity, shape, ready, accounts, log, stores, fate⟩ :=
    settleSlab_spec backs fits h hx hi missing rfl
  have base := fits.slot_base (h.shape.slabs.aligned x hx) (h.shape.slabs.placed.range x hx).2 hi
  have inUse : inUseOf (setFreeHead (s.mem.write (slot t x i) (freeHeadOf s.mem x)) x i) x = inUseOf s.mem x := by
    simp only [inUseOf, setFreeHead, Memory.read_write]
    rw [if_neg (by omega), if_neg (by omega)]
  have check₁ : require (inUseOf s.mem x > 0) "dealloc on empty slab" = .ok () :=
    require_true _ (by simpa using used)
  have check₂ : require (slot t x i ≥ x + headerStride t) "obj_ptr precedes object region" = .ok () :=
    require_true _ (by simpa using within.2.1)
  have check₃ : require (slot t x i + t.size ≤ x + slabBytes order) "obj_ptr outside slab bounds" = .ok () :=
    require_true _ (by simpa using within.2.2)
  have length : live.length = (live.erase (slot t x i)).length + 1 := by
    have pos := List.length_pos_of_mem mem
    rw [List.length_erase_of_mem mem]
    omega
  have usedBytes := accounts.used
  rw [length, Nat.mul_succ] at usedBytes
  have sub : checkedSub s₁.inner.stats.usedBytes t.size = .ok (s₁.inner.stats.usedBytes - t.size) :=
    checkedSub_le (by omega)
  refine ⟨s₁.withStats { s₁.inner.stats with
      deallocCount := s₁.inner.stats.deallocCount + 1
      usedBytes := s₁.inner.stats.usedBytes - t.size
      freeBytes := s₁.inner.stats.freeBytes + t.size }, bases', free', parts', ?_,
    ⟨slabOrder, capacity, ⟨shape.slabs, shape.linked, shape.parts_iff⟩, ready, ?_, log⟩, stores, fate⟩
  · simp only [SlabCache.dealloc, h.slabOrder, base, check₁, check₂, check₃, fits.slot_index (x := x) (i := i), inUse,
      run, sub, bind, Except.bind, pure, Except.pure]
  · refine ⟨accounts.total, Nat.le_add_right_of_le accounts.free, ?_⟩
    show s₁.inner.stats.usedBytes - t.size = _
    omega

end CrustyOs.Abalone.Slab
