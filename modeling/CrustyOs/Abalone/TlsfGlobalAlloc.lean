import CrustyOs.Abalone.TlsfRuns

/-! `GlobalAlloc for TlsfAllocator`: sizes and alignments over the TLSF heap. -/
namespace CrustyOs.Abalone.TlsfAllocator
open Lib Tlsf TlsfInner

/-- `core::alloc::Layout`: the alignment is a power of two. -/
structure Layout where
  size : Nat
  align : Nat
  power : ∃ k < 64, align = 2 ^ k

namespace Layout

def extra (layout : Layout) : Nat := if layout.align > 8 then layout.align - 1 else 0

def request (layout : Layout) : Except Panic Nat :=
  checkedAdd (max layout.size blockMin) layout.extra

end Layout

/-- A null pointer stands for failure. -/
def alloc (t : TlsfInner) (m : Memory) (layout : Layout) : Except Panic (Nat × TlsfInner × Memory) := do
  let size ← layout.request
  let (found, t, m) ← t.alloc m size
  match found with
  | none => return (0, t, m)
  | some ptr =>
    let shifted ← checkedAdd ptr layout.extra
    return (shifted &&& wordNot 64 (layout.align - 1), t, m)

def dealloc (t : TlsfInner) (m : Memory) (ptr : Nat) (_layout : Layout) :
    Except Panic (TlsfInner × Memory) := t.dealloc m ptr

variable {base stop p : Nat} {t t' : TlsfInner} {m m' : Memory} {lists : Nat × Nat → List Nat}
  {cs : List Chunk} {layout : Layout}

def Lands (t : TlsfInner) (layout : Layout) : Prop :=
  ∃ size n k a, layout.request = .ok size ∧ roundSize size = .ok n ∧ mappingSearch n = .ok k ∧
    FirstFrom t k a ∧ layout.align ∣ payload a

/-- A pointer `alloc` returned leads `dealloc` to the block that `alloc` took: the memory is
free again, and the allocations that were live are live and unwritten. -/
structure RoundTrip (base stop : Nat) (cs : List Chunk) (t : TlsfInner) (m : Memory) (t' : TlsfInner)
    (m' : Memory) (layout : Layout) (p : Nat) : Prop where
  header : ∀ a, (OnFreeList t m a ∧ ¬ OnFreeList t' m' a) ↔ a = p - headerSize
  back : ∃ t'' m'' lists'' cs'', dealloc t' m' p layout = .ok (t'', m'') ∧
    Heap base stop t'' m'' lists'' cs'' ∧ Shape false cs'' ∧
    (∃ d ∈ cs'', d.free = true ∧ d.addr ≤ p - headerSize ∧
      p + blockSize m' (p - headerSize) ≤ d.addr + d.extent) ∧
    (∀ b u, Used cs'' b u ↔ Used cs b u) ∧
    Memory.StoresIn (fun w => ∀ b u, Used cs b u → w + 8 ≤ payload b ∨ payload b + u ≤ w) m' m''

theorem alloc_some (done : alloc t m layout = .ok (p, t', m')) (some : p ≠ 0) :
    ∃ size ptr, layout.request = .ok size ∧ t.alloc m size = .ok (Option.some ptr, t', m') ∧
      ptr + layout.extra < 2 ^ 64 ∧
      p = (ptr + layout.extra) / layout.align * layout.align := by
  obtain ⟨size, request, done⟩ := ok_of_bind done
  obtain ⟨⟨found, t₁, m₁⟩, inner, done⟩ := ok_of_bind done
  cases found with
  | none =>
    obtain ⟨null, _⟩ := Prod.mk.inj (Except.ok.inj done)
    exact absurd null.symm some
  | some ptr =>
    obtain ⟨shifted, added, done⟩ := ok_of_bind done
    obtain ⟨rfl, fits⟩ := checkedAdd_spec added
    obtain ⟨rfl, state⟩ := Prod.mk.inj (Except.ok.inj done)
    obtain ⟨rfl, rfl⟩ := Prod.mk.inj state
    obtain ⟨k, hk, align⟩ := layout.power
    refine ⟨size, ptr, request, inner, fits, ?_⟩
    rw [align]
    exact and_wordNot_low fits (Nat.le_of_lt hk)

theorem rounded_eq_iff {ptr : Nat} :
    (ptr + layout.extra) / layout.align * layout.align = ptr ↔ layout.align ∣ ptr := by
  obtain ⟨k, _, align⟩ := layout.power
  have pos : 0 < layout.align := align ▸ Nat.two_pow_pos k
  constructor
  · intro same
    rw [← same]
    exact Nat.dvd_mul_left _ _
  · rintro ⟨q, rfl⟩
    have less : layout.extra < layout.align := by
      unfold Layout.extra
      split <;> omega
    rw [Nat.mul_add_div pos, Nat.div_eq_of_lt less, Nat.add_zero, Nat.mul_comm]

theorem addr_inj {c d : Chunk} (h : Heap base stop t m lists cs) (hc : c ∈ cs) (hd : d ∈ cs)
    (same : c.addr = d.addr) : c = d := by
  apply h.tiles.start_inj hc hd _ same
  unfold Chunk.extent headerSize
  omega

section Handed

variable {a s : Nat} {lists' : Nat × Nat → List Nat} {cs' : List Chunk}

theorem handed_removed (h : Heap base stop t m lists cs) (h' : Heap base stop t' m' lists' cs')
    (given : Allocated cs m a s cs' m') (b : Nat) :
    (OnFreeList t m b ∧ ¬ OnFreeList t' m' b) ↔ b = a := by
  rw [h.onFreeList_iff, h'.onFreeList_iff]
  constructor
  · rintro ⟨⟨c, hc, free, rfl⟩, gone⟩
    exact (given.others c hc free).resolve_right fun kept => gone ⟨c, kept, free, rfl⟩
  · rintro rfl
    refine ⟨given.was_free, ?_⟩
    rintro ⟨d, hd, free, same⟩
    obtain ⟨c, hc, here, _, used, _⟩ := given.handed
    rw [addr_inj h' hd hc (same.trans here.symm), used] at free
    cases free

/-- The block just handed out can be released: nothing free stands before it. -/
theorem handed_back (h : Heap base stop t m lists cs) (h' : Heap base stop t' m' lists' cs')
    (given : Allocated cs m a s cs' m') (large : s ≠ 0) :
    ∃ t'' m'' lists'' cs'', t'.dealloc m' (payload a) = .ok (t'', m'') ∧
      Heap base stop t'' m'' lists'' cs'' ∧ Shape false cs'' ∧
      (∃ d ∈ cs'', d.free = true ∧ d.addr ≤ a ∧ payload a + blockSize m' a ≤ d.addr + d.extent) ∧
      (∀ b u, Used cs'' b u ↔ Used cs b u) ∧
      Memory.StoresIn (fun w => ∀ b u, Used cs b u → w + 8 ≤ payload b ∨ payload b + u ≤ w) m' m'' := by
  obtain ⟨c, hc, rfl, rfl, used, alone⟩ := given.handed
  have right : PrevRight m' cs' c := by
    intro flag
    rw [alone] at flag
    cases flag
  obtain ⟨t'', m'', lists'', cs'', run, heap, freed⟩ := dealloc_spec h' given.shape hc used large right
  refine ⟨t'', m'', lists'', cs'', run, heap, freed.shape, ?_, fun b u => ?_, ?_⟩
  · obtain ⟨d, hd, free, low, high⟩ := freed.free
    refine ⟨d, hd, free, low, ?_⟩
    rw [(h'.header c hc).size]
    unfold payload
    unfold Chunk.extent at high ⊢
    omega
  · rw [freed.used, given.used]
    constructor
    · rintro ⟨ne, here | live⟩
      · exact absurd here.1 ne
      · exact live
    · rintro ⟨e, he, live, size, rfl, rfl⟩
      refine ⟨fun same => ?_, Or.inr ⟨e, he, live, size, rfl, rfl⟩⟩
      obtain ⟨d, hd, free, here⟩ := given.was_free
      rw [addr_inj h he hd (same.trans here.symm), free] at live
      cases live
  · apply freed.stores.mono
    intro w word b u live
    obtain ⟨e, he, _, _, rfl, rfl⟩ := (given.used b u).mpr (Or.inr live)
    exact header_outside_payload h'.tiles he word

end Handed

/-- The round trip closes exactly when the block the search reaches has an aligned
payload: `dealloc` takes the header to be right before the pointer. -/
theorem round_trip_iff (h : Heap base stop t m lists cs) (shape : Shape false cs)
    (done : alloc t m layout = .ok (p, t', m')) (some : p ≠ 0) :
    RoundTrip base stop cs t m t' m' layout p ↔ Lands t layout := by
  obtain ⟨size, ptr, request, inner, _, rounding⟩ := alloc_some done some
  obtain ⟨n, k, rounded, start, row⟩ := alloc_searched inner
  rcases alloc_spec h shape rounded start row with
    ⟨none, _⟩ | ⟨a, s, t₁, m₁, lists', cs', first, run, fits, heap, given⟩
  · cases none.symm.trans inner
  · have answer := Except.ok.inj (run.symm.trans inner)
    simp only [Prod.mk.injEq, Option.some.injEq] at answer
    obtain ⟨rfl, rfl, rfl⟩ := answer
    have removed := handed_removed h heap given
    constructor
    · intro trip
      have block := (trip.header a).mp ((removed a).mpr rfl)
      refine ⟨size, n, k, a, request, rounded, start, first, rounded_eq_iff.mp ?_⟩
      rw [← rounding]
      -- the header's address is no null pointer, so the subtraction did not stop at zero
      obtain ⟨_, _, _, null, _⟩ := first
      unfold headerSize at block
      unfold payload headerSize
      omega
    · rintro ⟨size', n', k', a', request', rounded', start', first', aligned⟩
      obtain rfl := Except.ok.inj (request.symm.trans request')
      obtain rfl := Except.ok.inj (rounded.symm.trans rounded')
      obtain rfl := Except.ok.inj (start.symm.trans start')
      obtain rfl := first.unique first'
      obtain rfl : p = payload a := rounding.trans (rounded_eq_iff.mpr aligned)
      have large : s ≠ 0 := by
        have least := (roundSize_spec rounded).1
        omega
      have block : payload a - headerSize = a := Nat.add_sub_cancel _ _
      refine ⟨fun b => by rw [block, removed b], ?_⟩
      rw [block]
      exact handed_back h heap given large

theorem small_answer (layout : Layout) (ptr : Nat)
    (returns : (TlsfInner.new.addPool Memory.blank 4096 1024).toOption.bind (fun r =>
      (alloc r.1 r.2 layout).toOption.map Prod.fst) = some ptr) :
    ∃ t m lists t' m', Heap 4096 (4096 + 1024) t m lists (poolRun 4096 1024 true) ∧
      Shape false (poolRun 4096 1024 true) ∧ alloc t m layout = .ok (ptr, t', m') := by
  obtain ⟨⟨t, m⟩, fresh, returns⟩ := Option.bind_eq_some_iff.mp returns
  cases pool : TlsfInner.new.addPool Memory.blank 4096 1024 with
  | error e => simp [pool, Except.toOption] at fresh
  | ok r =>
    obtain rfl : r = (t, m) := by simpa [pool, Except.toOption] using fresh
    obtain ⟨lists, sound⟩ := addPool_sound (by decide) (by decide) (by decide) pool
    cases run : alloc t m layout with
    | error e => simp [run, Except.toOption] at returns
    | ok r =>
      obtain ⟨p, t', m'⟩ := r
      obtain rfl : p = ptr := by simpa [run, Except.toOption] using returns
      exact ⟨t, m, lists, t', m', sound.heap, sound.shape, run⟩

theorem round_trip_iff_small : ∃ t m t' m', alloc t m ⟨40, 32, 5, by decide, rfl⟩ = .ok (4128, t', m') ∧
    (RoundTrip 4096 (4096 + 1024) (poolRun 4096 1024 true) t m t' m' ⟨40, 32, 5, by decide, rfl⟩ 4128 ↔
      Lands t ⟨40, 32, 5, by decide, rfl⟩) := by
  obtain ⟨t, m, lists, t', m', heap, shape, done⟩ :=
    small_answer ⟨40, 32, 5, by decide, rfl⟩ 4128 (by decide)
  exact ⟨t, m, t', m', done, round_trip_iff heap shape done (by decide)⟩

/-- At alignment 64 the first payload of a fresh pool is passed over. -/
theorem not_round_trip_small :
    ¬ ∀ (base stop : Nat) (t : TlsfInner) (m : Memory) (lists : Nat × Nat → List Nat)
      (cs : List Chunk) (layout : Layout) (p : Nat) (t' : TlsfInner) (m' : Memory),
      Heap base stop t m lists cs → Shape false cs → alloc t m layout = .ok (p, t', m') → p ≠ 0 →
      RoundTrip base stop cs t m t' m' layout p := by
  intro claim
  obtain ⟨t, m, lists, t', m', heap, shape, done⟩ :=
    small_answer ⟨40, 64, 6, by decide, rfl⟩ 4160 (by decide)
  have trip := claim _ _ t m lists _ _ _ t' m' heap shape done (by decide)
  obtain ⟨listed, _⟩ := (trip.header 4128).mpr rfl
  obtain ⟨c, hc, _, here⟩ := heap.onFreeList_iff.mp listed
  have addrs : c.addr = 4096 ∨ c.addr = 5088 := by
    cases List.mem_cons.mp hc with
    | inl first => exact Or.inl (by rw [first])
    | inr later =>
      rw [List.mem_singleton.mp later]
      exact Or.inr rfl
  omega

/-! Sizes that the class tables have no row for. -/

/-- The class that `find_free` looks up lies within the tables. -/
def IndexesTables (layout : Layout) : Prop :=
  ∃ size n k, layout.request = .ok size ∧ roundSize size = .ok n ∧ mappingSearch n = .ok k ∧
    k.1 < flIndexCount ∧ k.2 < slCount

theorem mappingSearch_column {n : Nat} {k : Nat × Nat} (least : 32 ≤ n)
    (start : mappingSearch n = .ok k) : k.2 < slCount := by
  obtain ⟨rfl, _, _⟩ := mappingSearch_start least start
  exact Nat.mod_lt _ (by decide)

theorem indexesTables_iff (layout : Layout) :
    IndexesTables layout ↔ max layout.size blockMin + layout.extra ≤ 2 ^ 30 - 2 ^ 24 := by
  constructor
  · rintro ⟨size, n, k, request, rounded, start, row, _⟩
    obtain ⟨least, _, large, physical⟩ := roundSize_spec rounded
    obtain rfl : max layout.size blockMin + layout.extra = size := by
      unfold Layout.request checkedAdd at request
      split at request
      · exact Except.ok.inj request
      · cases request
    by_cases small : n < 2 ^ 63
    · exact large.trans ((search_within_iff least small).mp ⟨k, start, row⟩)
    · obtain ⟨rfl, above, _⟩ := mappingSearch_start least start
      have long : 62 ≤ Nat.log2 (searchSize n) :=
        (Nat.le_log2 (by omega)).mpr (by unfold searchSize; omega)
      have rows : flIndexCount = 30 := rfl
      unfold classOf at row
      simp only at row
      omega
  · intro le
    have least : 32 ≤ max layout.size blockMin + layout.extra :=
      (Nat.le_max_right _ _).trans (Nat.le_add_right _ _)
    have request : layout.request = .ok (max layout.size blockMin + layout.extra) :=
      checkedAdd_lt (by omega)
    generalize max layout.size blockMin + layout.extra = size at le least request
    have large : max size blockMin = size := Nat.max_eq_left least
    have rounded : roundSize size = .ok ((size + (8 - 1)) / 2 ^ 3 * 2 ^ 3) := by
      rw [roundSize, large, checkedAdd_lt (by omega)]
      exact congrArg Except.ok (and_wordNot_low (k := 3) (by omega) (by decide))
    have up : 32 ≤ (size + (8 - 1)) / 2 ^ 3 * 2 ^ 3 ∧
        (size + (8 - 1)) / 2 ^ 3 * 2 ^ 3 ≤ 2 ^ 30 - 2 ^ 24 := by omega
    obtain ⟨k, start, row⟩ := (search_within_iff up.1 (by omega)).mpr up.2
    exact ⟨size, _, k, request, rounded, start, row, mappingSearch_column up.1 start⟩

-- beyond a stale `prev_phys` a request of 64 bytes stops as well
example : ((TlsfInner.new.addPool Memory.blank 4096 512).toOption.bind fun r =>
    (trial exec Valid ⟨r.1, r.2, []⟩
      [.alloc 40, .alloc 40, .alloc 96, .dealloc 4200, .dealloc 4128, .dealloc 4272, .alloc 40]).map fun s =>
      (alloc s.tlsf s.mem ⟨64, 8, 3, by decide, rfl⟩).toOption.isSome) = some false := by decide

end CrustyOs.Abalone.TlsfAllocator
