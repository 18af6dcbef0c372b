import CrustyOs.Abalone.TlsfGlobalAlloc
import CrustyOs.Abalone.TlsfPool

/-! Where the pointers of `TlsfAllocator` lie, and when a freed block serves the request
that it came from. -/
namespace CrustyOs.Abalone.TlsfAllocator
open Lib Tlsf TlsfInner

variable {base stop p : Nat} {t t' : TlsfInner} {m m' : Memory} {lists : Nat × Nat → List Nat}
  {cs : List Chunk} {c : Chunk} {layout : Layout}

theorem rounded_range (layout : Layout) {ptr : Nat} (words : 8 ∣ ptr) :
    ptr ≤ (ptr + layout.extra) / layout.align * layout.align ∧
      (ptr + layout.extra) / layout.align * layout.align ≤ ptr + layout.extra := by
  refine ⟨?_, Nat.div_mul_le_self _ _⟩
  obtain ⟨k, _, align⟩ := layout.power
  have pos : 0 < layout.align := align ▸ Nat.two_pow_pos k
  cases Nat.lt_or_ge 8 layout.align with
  | inl wide =>
    have extra : layout.extra = layout.align - 1 := if_pos wide
    have split := Nat.div_add_mod (ptr + layout.extra) layout.align
    have rest := Nat.mod_lt (ptr + layout.extra) pos
    rw [Nat.mul_comm] at split
    omega
  | inr narrow =>
    have word : layout.align ∣ 8 := by
      rw [align] at narrow ⊢
      have small : k ≤ 3 := (Nat.pow_le_pow_iff_right (by decide : 1 < 2)).mp narrow
      exact Nat.pow_dvd_pow 2 small
    exact Nat.le_of_eq (rounded_eq_iff.mpr (word.trans words)).symm

theorem payload_words (h : Heap base stop t m lists cs) (pool : 8 ∣ base) (hc : c ∈ cs) :
    8 ∣ payload c.addr := by
  have placed : 8 ∣ c.addr := h.tiles.dvd_start pool (fun d hd => by
    have whole := h.sized d hd
    unfold Chunk.extent headerSize
    omega) hc
  unfold payload headerSize
  omega

theorem request_covers {size : Nat} (request : layout.request = .ok size) :
    layout.size + layout.extra ≤ size := by
  have sum := checkedAdd_eq request
  have larger := Nat.le_max_left layout.size blockMin
  omega

theorem alloc_given (h : Heap base stop t m lists cs) (shape : Shape false cs)
    (done : alloc t m layout = .ok (p, t', m')) (some : p ≠ 0) :
    ∃ a u lists' cs', Heap base stop t' m' lists' cs' ∧ Allocated cs m a u cs' m' ∧
      layout.size + layout.extra ≤ u ∧ u ≠ 0 ∧
      p = (payload a + layout.extra) / layout.align * layout.align := by
  obtain ⟨size, ptr, request, inner, _, rounding⟩ := alloc_some done some
  obtain ⟨n, k, rounded, start, row⟩ := alloc_searched inner
  rcases alloc_spec h shape rounded start row with
    ⟨none, _⟩ | ⟨a, u, t₁, m₁, lists', cs', _, run, fits, heap, given⟩
  · cases none.symm.trans inner
  · have answer := Except.ok.inj (run.symm.trans inner)
    simp only [Prod.mk.injEq, Option.some.injEq] at answer
    obtain ⟨rfl, rfl, rfl⟩ := answer
    obtain ⟨least, _, large, _⟩ := roundSize_spec rounded
    have covers := request_covers request
    exact ⟨a, u, lists', cs', heap, given, by omega, by omega, rounding⟩

/-- A pointer that `alloc` returns is aligned, and its bytes lie in the payload of the one
block that the request took. -/
theorem pointer_within_block (h : Heap base stop t m lists cs) (shape : Shape false cs) (pool : 8 ∣ base)
    (done : alloc t m layout = .ok (p, t', m')) (some : p ≠ 0) :
    layout.align ∣ p ∧ ∃ a u lists' cs', Heap base stop t' m' lists' cs' ∧ Shape false cs' ∧
      (∃ c ∈ cs, c.free = true ∧ c.addr = a) ∧
      (∀ b v, Used cs' b v ↔ (b = a ∧ v = u) ∨ Used cs b v) ∧ blockSize m' a = u ∧
      payload a ≤ p ∧ p + layout.size ≤ payload a + u := by
  obtain ⟨a, u, lists', cs', heap, given, covers, _, rounding⟩ := alloc_given h shape done some
  refine ⟨rounding ▸ Nat.dvd_mul_left _ _, ?_⟩
  obtain ⟨c, hc, rfl, rfl, _, _⟩ := given.handed
  obtain ⟨low, high⟩ := rounded_range layout (payload_words heap pool hc)
  refine ⟨c.addr, c.size, lists', cs', heap, given.shape, given.was_free, given.used,
    (heap.header c hc).size, ?_, ?_⟩
  · omega
  · omega

theorem pointer_within_block_small : ∃ t m t' m' a u, alloc t m ⟨40, 64, 6, by decide, rfl⟩ = .ok (4160, t', m') ∧
    64 ∣ 4160 ∧ (∃ c ∈ poolRun 4096 1024 true, c.free = true ∧ c.addr = a) ∧ blockSize m' a = u ∧
    payload a ≤ 4160 ∧ 4160 + 40 ≤ payload a + u := by
  obtain ⟨t, m, lists, t', m', heap, shape, done⟩ :=
    small_answer ⟨40, 64, 6, by decide, rfl⟩ 4160 (by decide)
  obtain ⟨aligned, a, u, _, _, _, _, taken, _, size, low, high⟩ :=
    pointer_within_block heap shape (by decide) done (by decide)
  exact ⟨t, m, t', m', a, u, done, aligned, taken, size, low, high⟩

/-! Free blocks told by what is in use. -/

/-- The last header of a pool is the sentinel's; all other chunks end before it. -/
theorem before_sentinel (h : Heap base stop t m lists cs) (shape : Shape false cs) (hc : c ∈ cs) :
    (c.size = 0 ∧ c.free = false ∧ c.addr + headerSize = stop) ∨
      (c.size ≠ 0 ∧ c.addr + c.extent + headerSize ≤ stop) := by
  obtain ⟨blocks, sentinel, rfl, empty, used, full⟩ := shape_blocks shape
  obtain ⟨q, fill, first, last⟩ := Tiles.append.mp h.tiles
  have last : q + sentinel.extent = stop := last
  unfold Chunk.extent at last
  cases List.mem_append.mp hc with
  | inl inner =>
    have inside := fill.bounds inner
    exact Or.inr ⟨full c inner, by omega⟩
  | inr here =>
    obtain rfl := List.mem_singleton.mp here
    exact Or.inl ⟨empty, used, by omega⟩

theorem free_alone (h : Heap base stop t m lists cs) (shape : Shape false cs) {d : Chunk} (hc : c ∈ cs)
    (hd : d ∈ cs) (free : c.free = true) (next : d.addr = c.addr + c.extent) : d.free = false := by
  obtain ⟨pre, post, rfl⟩ := List.append_of_mem hc
  obtain ⟨after, rest, rfl⟩ := shape.follows (Or.inr free)
  have place : after.addr = c.addr + c.extent :=
    h.next_addr.symm.trans (h.header c hc).nextPhys_eq
  obtain rfl : d = after := addr_inj h hd (by simp) (next.trans place.symm)
  obtain ⟨_, _, tail⟩ := (shape_around (by simp)).mp shape
  rw [free] at tail
  exact tail.head_used

/-- A stretch of the pool with room for a block of that size, which meets no block in use. -/
def Gap (base stop : Nat) (used : Nat → Nat → Prop) (size : Nat) : Prop :=
  ∃ lo, base ≤ lo ∧ lo + headerSize + size + headerSize ≤ stop ∧
    ∀ b u, used b u → payload b + u ≤ lo ∨ lo + headerSize + size ≤ b

theorem gap_iff (h : Heap base stop t m lists cs) (shape : Shape false cs) (size : Nat) :
    Gap base stop (Used cs) size ↔ ∃ c ∈ cs, c.free = true ∧ size ≤ c.size := by
  constructor
  · rintro ⟨lo, low, high, clear⟩
    -- whatever chunk has an address of the stretch is free
    have inside : ∀ z, lo ≤ z → z < lo + headerSize + size → ∃ e ∈ cs, e.free = true ∧
        e.addr ≤ z ∧ z < e.addr + e.extent := by
      intro z after before
      obtain ⟨e, he, first, last⟩ := h.tiles.covers (z := z) (by omega) (by omega)
      refine ⟨e, he, ?_, first, last⟩
      by_contra busy
      rcases before_sentinel h shape he with ⟨_, _, edge⟩ | ⟨full, _⟩
      · omega
      · have apart := clear e.addr e.size ⟨e, he, by simpa using busy, full, rfl, rfl⟩
        unfold payload at apart
        unfold Chunk.extent at last
        omega
    have some : lo < lo + headerSize + size := by
      unfold headerSize
      omega
    obtain ⟨d, hd, free, first, last⟩ := inside lo (Nat.le_refl lo) some
    refine ⟨d, hd, free, ?_⟩
    by_contra short
    obtain ⟨e, he, free', first', last'⟩ := inside (d.addr + d.extent) (by omega) (by
      unfold Chunk.extent
      omega)
    have ne : e ≠ d := by
      rintro rfl
      omega
    have apart := h.tiles.apart he hd ne
    have next : e.addr = d.addr + d.extent := by omega
    rw [free_alone h shape hd he free next] at free'
    cases free'
  · rintro ⟨c, hc, free, fits⟩
    refine ⟨c.addr, (h.tiles.bounds hc).1, ?_, ?_⟩
    · rcases before_sentinel h shape hc with ⟨_, busy, _⟩ | ⟨_, room⟩
      · rw [free] at busy
        cases busy
      · unfold Chunk.extent at room
        omega
    · rintro b u ⟨d, hd, busy, _, rfl, rfl⟩
      have ne : d ≠ c := by
        rintro rfl
        rw [free] at busy
        cases busy
      have apart := h.tiles.apart hd hc ne
      unfold Chunk.extent at apart
      unfold payload
      omega

theorem class_served_iff (h : Heap base stop t m lists cs) {k : Nat × Nat} (low : 5 ≤ k.1) (row : k.2 < 32) :
    (∃ d, ClassLe k d ∧ lists d ≠ []) ↔ ∃ c ∈ cs, c.free = true ∧ classFloor k ≤ c.size := by
  constructor
  · rintro ⟨d, later, some⟩
    obtain ⟨a, ha⟩ := List.exists_mem_of_ne_nil _ some
    obtain ⟨⟨c, hc, rfl⟩, least, _, own⟩ := h.classes.classed d a ha
    rw [(h.header c hc).size] at least own
    rw [← own] at later
    exact ⟨c, hc, (h.filed c hc).mpr ⟨d, ha⟩, (classLe_iff low row least).mp later⟩
  · rintro ⟨c, hc, free, fits⟩
    obtain ⟨d, hd⟩ := (h.filed c hc).mp free
    obtain ⟨_, least, _, own⟩ := h.classes.classed d c.addr hd
    rw [(h.header c hc).size] at least own
    exact ⟨d, own ▸ (classLe_iff low row least).mpr fits, List.ne_nil_of_mem hd⟩

def Layout.words (layout : Layout) : Nat := (max layout.size blockMin + (8 - 1)) / 2 ^ 3 * 2 ^ 3

/-- `alloc` serves a layout of word alignment exactly when some stretch of the pool has room
for the layout's size rounded up to its class. -/
theorem alloc_served_iff (h : Heap base stop t m lists cs) (shape : Shape false cs) (top : stop ≤ 2 ^ 64)
    (word : layout.align ≤ 8) (limit : layout.size ≤ 2 ^ 30 - 2 ^ 24) :
    ∃ p t' m', alloc t m layout = .ok (p, t', m') ∧
      (p ≠ 0 ↔ Gap base stop (Used cs) (goodSize layout.words)) := by
  have extra : layout.extra = 0 := if_neg (by omega)
  have within : max layout.size blockMin + layout.extra ≤ 2 ^ 30 - 2 ^ 24 := by
    rw [extra]
    unfold blockMin
    omega
  obtain ⟨size, n, k, request, rounded, start, row, column⟩ := (indexesTables_iff layout).mpr within
  obtain ⟨least, _, _, _⟩ := roundSize_spec rounded
  obtain rfl : n = layout.words := by
    have sum : size = max layout.size blockMin := by
      have sum := checkedAdd_eq request
      omega
    have large : max size blockMin = size := by
      rw [sum]
      exact Nat.max_eq_left (Nat.le_max_right _ _)
    have down : roundSize size = .ok ((size + (8 - 1)) / 2 ^ 3 * 2 ^ 3) := by
      rw [roundSize, large, checkedAdd_lt (by omega)]
      exact congrArg Except.ok (and_wordNot_low (k := 3) (by omega) (by decide))
    rw [down] at rounded
    rw [Layout.words, ← sum]
    exact (Except.ok.inj rounded).symm
  obtain ⟨first, above, _⟩ := mappingSearch_start least start
  have low : 5 ≤ k.1 := by
    rw [first]
    exact (log2_bounds above).1
  have floor : classFloor k = goodSize layout.words := by
    rw [first]
    exact classFloor_search least
  have served := class_served_iff h low column
  rw [floor, ← gap_iff h shape] at served
  rcases alloc_spec h shape rounded start row with
    ⟨none, empty⟩ | ⟨a, u, t', m', lists', cs', found, run, _, heap, given⟩
  · refine ⟨0, t, m, ?_, iff_of_false (by simp) fun gap => ?_⟩
    · simp only [alloc, request, none, bind, Except.bind]
      rfl
    · obtain ⟨d, later, some⟩ := served.mpr gap
      exact some (empty d later)
  · obtain ⟨c, hc, rfl, rfl, _, _⟩ := given.handed
    have inside := heap.tiles.bounds hc
    have room : payload c.addr + layout.extra < 2 ^ 64 := by
      unfold payload headerSize
      unfold Chunk.extent headerSize at inside
      omega
    refine ⟨(payload c.addr + layout.extra) &&& wordNot 64 (layout.align - 1), t', m', ?_,
      iff_of_true ?_ ?_⟩
    · simp only [alloc, request, run, checkedAdd_lt room, bind, Except.bind]
      rfl
    · obtain ⟨j, hj, align⟩ := layout.power
      rw [align, and_wordNot_low room (Nat.le_of_lt hj), ← align]
      have pos : 0 < layout.align := align ▸ Nat.two_pow_pos j
      have split := Nat.div_add_mod (payload c.addr + layout.extra) layout.align
      have rest := Nat.mod_lt (payload c.addr + layout.extra) pos
      rw [Nat.mul_comm] at split
      unfold payload headerSize at *
      omega
    · obtain ⟨d, later, _, nonzero, _⟩ := found
      exact served.mp ⟨d, later, h.classes.indexed.head_ne_zero.mp (by omega)⟩

theorem prev_right (h : WellFormed base stop t m lists cs) (hc : c ∈ cs) (size : c.size ≠ 0) :
    PrevRight m cs c := by
  intro flag
  obtain ⟨pre, post, rfl⟩ := List.append_of_mem hc
  obtain ⟨after, rest, rfl⟩ := h.shape.follows (Or.inl size)
  obtain ⟨_, fits, _⟩ := (shape_around (by simp)).mp h.shape
  rw [fits.prev] at flag
  cases List.eq_nil_or_concat pre with
  | inl empty =>
    rw [empty] at flag
    cases flag
  | inr last =>
    obtain ⟨front, d, rfl⟩ := last
    rw [List.concat_eq_append, leave_append_one] at flag
    have threaded := h.threaded
    unfold ThreadedRun at threaded
    simp only [List.concat_eq_append, List.append_assoc, List.singleton_append, List.map_append,
      List.map_cons] at threaded
    obtain ⟨_, here, _⟩ := threaded_around.mp threaded
    refine ⟨d, by simp, flag, here.symm, ?_⟩
    have place : front.concat d ++ c :: after :: rest = front ++ d :: c :: after :: rest := by simp
    have heap := h.heap
    rw [place] at heap
    exact ((heap.header d (by simp)).nextPhys_eq).symm.trans heap.next_addr

theorem freed_heap (layout : Layout) (h : WellFormed base stop t m lists cs) (hc : c ∈ cs) (used : c.free = false)
    (size : c.size ≠ 0) : ∃ t' m' lists' cs', dealloc t m (payload c.addr) layout = .ok (t', m') ∧
      Heap base stop t' m' lists' cs' ∧ Shape false cs' ∧
      (Used cs' = fun b u => Used cs b u ∧ b ≠ c.addr) ∧ ∃ d ∈ cs', d.free = true ∧ c.size ≤ d.size := by
  obtain ⟨t', m', lists', cs', run, heap, freed⟩ :=
    dealloc_spec h.heap h.shape hc used size (prev_right h hc size)
  obtain ⟨d, hd, free, low, high⟩ := freed.free
  refine ⟨t', m', lists', cs', run, heap, freed.shape, ?_, d, hd, free, ?_⟩
  · funext b u
    exact propext ((freed.used b u).trans and_comm)
  · unfold Chunk.extent at high
    omega

/-- A block freed, the same request at once: `alloc` serves it exactly when the freed block
leaves a stretch of the pool for the request's class, alone, with its free neighbours, or
elsewhere. -/
theorem freed_block_serves_iff (h : WellFormed base stop t m lists cs) (top : stop ≤ 2 ^ 64) (hc : c ∈ cs)
    (used : c.free = false) (size : c.size ≠ 0) (word : layout.align ≤ 8)
    (limit : layout.size ≤ 2 ^ 30 - 2 ^ 24) :
    ∃ t' m' p t'' m'', dealloc t m (payload c.addr) layout = .ok (t', m') ∧
      alloc t' m' layout = .ok (p, t'', m'') ∧
      (p ≠ 0 ↔ Gap base stop (fun b u => Used cs b u ∧ b ≠ c.addr) (goodSize layout.words)) := by
  obtain ⟨t', m', lists', cs', run, heap, shape, rest, _⟩ := freed_heap layout h hc used size
  obtain ⟨p, t'', m'', served, some⟩ := alloc_served_iff heap shape top word limit
  exact ⟨t', m', p, t'', m'', run, served, by rw [some, rest]⟩

/-- A block as large as the request's class always serves the request again. -/
theorem class_size_serves (h : WellFormed base stop t m lists cs) (top : stop ≤ 2 ^ 64) (hc : c ∈ cs)
    (used : c.free = false) (size : c.size ≠ 0) (word : layout.align ≤ 8)
    (limit : layout.size ≤ 2 ^ 30 - 2 ^ 24) (fits : goodSize layout.words ≤ c.size) :
    ∃ t' m' p t'' m'', dealloc t m (payload c.addr) layout = .ok (t', m') ∧
      alloc t' m' layout = .ok (p, t'', m'') ∧ p ≠ 0 := by
  obtain ⟨t', m', lists', cs', run, heap, shape, _, d, hd, free, large⟩ :=
    freed_heap layout h hc used size
  obtain ⟨p, t'', m'', served, some⟩ := alloc_served_iff heap shape top word limit
  exact ⟨t', m', p, t'', m'', run, served,
    some.mpr ((gap_iff heap shape _).mpr ⟨d, hd, free, fits.trans large⟩)⟩

theorem alloc_keeps (h : WellFormed base stop t m lists cs) (pool : 8 ∣ base) (word : layout.align ≤ 8)
    (done : alloc t m layout = .ok (p, t', m')) (some : p ≠ 0) :
    ∃ lists' cs', WellFormed base stop t' m' lists' cs' ∧
      ∃ c ∈ cs', c.free = false ∧ c.size ≠ 0 ∧ payload c.addr = p := by
  obtain ⟨a, u, lists', cs', heap, given, _, nonzero, rounding⟩ := alloc_given h.heap h.shape done some
  obtain ⟨c, hc, rfl, rfl, busy, _⟩ := given.handed
  have extra : layout.extra = 0 := if_neg (by omega)
  obtain ⟨low, high⟩ := rounded_range layout (payload_words heap pool hc)
  exact ⟨lists', cs', ⟨heap, given.shape, given.threaded h.threaded⟩, c, hc, busy, nonzero, by omega⟩

theorem fresh_well_formed {size : Nat} (words : 8 ∣ size) (limit : size < 2 ^ 64)
    {t : TlsfInner} {m : Memory} (pool : TlsfInner.new.addPool Memory.blank 4096 size = .ok (t, m))
    (links : prevPhys m 4096 = 0 ∧ prevPhys m (4096 + (size - headerSize)) = 4096) :
    ∃ lists, WellFormed 4096 (4096 + size) t m lists (poolRun 4096 size true) := by
  obtain ⟨lists, sound⟩ := addPool_sound (by decide) words limit pool
  exact ⟨lists, sound.heap, sound.shape, links.1, links.2, trivial⟩

/-- In a pool of 1200 bytes: the first layout, the second, the first freed and asked for again.
The links of the fresh pool and the three answers. -/
def reuse (first second : Layout) : Except Panic (List Nat) := do
  let (t, m) ← TlsfInner.new.addPool Memory.blank 4096 1200
  let links := [prevPhys m 4096, prevPhys m (4096 + (1200 - headerSize))]
  let (p, t, m) ← alloc t m first
  let (q, t, m) ← alloc t m second
  let (t, m) ← dealloc t m p first
  let (r, _) ← alloc t m first
  return links ++ [p, q, r]

theorem reuse_ok {first second : Layout} {answers : List Nat} (returns : reuse first second = .ok answers) :
    ∃ t m p t₁ m₁ q t₂ m₂ t₃ m₃ r s, TlsfInner.new.addPool Memory.blank 4096 1200 = .ok (t, m) ∧
      alloc t m first = .ok (p, t₁, m₁) ∧ alloc t₁ m₁ second = .ok (q, t₂, m₂) ∧
      dealloc t₂ m₂ p first = .ok (t₃, m₃) ∧ alloc t₃ m₃ first = .ok (r, s) ∧
      answers = [prevPhys m 4096, prevPhys m (4096 + (1200 - headerSize)), p, q, r] := by
  obtain ⟨⟨t, m⟩, pool, returns⟩ := ok_of_bind returns
  obtain ⟨⟨p, t₁, m₁⟩, one, returns⟩ := ok_of_bind returns
  obtain ⟨⟨q, t₂, m₂⟩, two, returns⟩ := ok_of_bind returns
  obtain ⟨⟨t₃, m₃⟩, freed, returns⟩ := ok_of_bind returns
  obtain ⟨⟨r, s⟩, three, returns⟩ := ok_of_bind returns
  exact ⟨t, m, p, t₁, m₁, q, t₂, m₂, t₃, m₃, r, s, pool, one, two, freed, three,
    (Except.ok.inj returns).symm⟩

def thousand : Layout := ⟨1000, 8, 3, by decide, rfl⟩
def hundred : Layout := ⟨100, 8, 3, by decide, rfl⟩

/-- A block of 1000 bytes lies below the class that a request for 1000 bytes is looked up in. -/
theorem freed_block_not_found :
    ¬ ∀ (base stop : Nat) (t : TlsfInner) (m : Memory) (lists : Nat × Nat → List Nat) (cs : List Chunk)
      (layout other : Layout) (p : Nat) (t₁ : TlsfInner) (m₁ : Memory) (q : Nat) (t₂ : TlsfInner)
      (m₂ : Memory), WellFormed base stop t m lists cs → 8 ∣ base → stop ≤ 2 ^ 64 → layout.align ≤ 8 →
      layout.size ≤ 2 ^ 30 - 2 ^ 24 → alloc t m layout = .ok (p, t₁, m₁) → p ≠ 0 →
      alloc t₁ m₁ other = .ok (q, t₂, m₂) → ∃ t₃ m₃ r t₄ m₄, dealloc t₂ m₂ p layout = .ok (t₃, m₃) ∧
        alloc t₃ m₃ layout = .ok (r, t₄, m₄) ∧ r ≠ 0 := by
  intro claim
  obtain ⟨t, m, p, t₁, m₁, q, t₂, m₂, t₃, m₃, r, s, pool, one, two, freed, three, answers⟩ :=
    reuse_ok (show reuse thousand hundred = .ok [0, 4096, 4128, 5160, 0] by decide)
  simp only [List.cons.injEq, and_true] at answers
  obtain ⟨first, last, p_eq, _, r_eq⟩ := answers
  obtain ⟨lists, well⟩ := fresh_well_formed (by decide) (by decide) pool ⟨first.symm, last.symm⟩
  obtain ⟨t₃', m₃', r', t₄, m₄, freed', three', some⟩ := claim _ _ t m lists _ thousand hundred p t₁ m₁ q
    t₂ m₂ well (by decide) (by decide) (by decide) (by decide) one (by omega) two
  obtain ⟨rfl, rfl⟩ := Prod.mk.inj (Except.ok.inj (freed.symm.trans freed'))
  obtain ⟨rfl, _⟩ := Prod.mk.inj (Except.ok.inj (three.symm.trans three'))
  exact some r_eq.symm

theorem freed_block_serves_iff_hundred : ∃ t m lists cs, WellFormed 4096 (4096 + 1200) t m lists cs ∧
    ∃ c ∈ cs, payload c.addr = 4128 ∧ ∃ t' m' p t'' m'',
      dealloc t m (payload c.addr) hundred = .ok (t', m') ∧ alloc t' m' hundred = .ok (p, t'', m'') ∧
      (p ≠ 0 ↔ Gap 4096 (4096 + 1200) (fun b u => Used cs b u ∧ b ≠ c.addr) (goodSize hundred.words)) := by
  obtain ⟨t, m, p, t₁, m₁, q, t₂, m₂, t₃, m₃, r, s, pool, one, _, _, _, answers⟩ :=
    reuse_ok (show reuse hundred hundred = .ok [0, 4096, 4128, 4264, 4128] by decide)
  simp only [List.cons.injEq, and_true] at answers
  obtain ⟨first, last, p_eq, _⟩ := answers
  obtain ⟨lists, well⟩ := fresh_well_formed (by decide) (by decide) pool ⟨first.symm, last.symm⟩
  obtain ⟨lists', cs', kept, c, hc, busy, nonzero, here⟩ :=
    alloc_keeps well (by decide) (by decide) one (by omega)
  exact ⟨t₁, m₁, lists', cs', kept, c, hc, here.trans p_eq.symm,
    freed_block_serves_iff kept (by decide) hc busy nonzero (by decide) (by decide)⟩

end CrustyOs.Abalone.TlsfAllocator
