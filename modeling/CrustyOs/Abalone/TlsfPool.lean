import CrustyOs.Abalone.TlsfRuns

/-! The pool between two operations: what `alloc` keeps of it, and the one block that is
left when everything has been released. -/
namespace CrustyOs.Abalone.TlsfInner
open Lib Tlsf

variable {base stop size n : Nat} {t t₀ : TlsfInner} {m m₀ : Memory} {s : System}
  {lists : Nat × Nat → List Nat} {cs : List Chunk} {q : Bool}

/-- Between operations the blocks tile the pool, agree with their headers, their
`prev_phys` and their flags, and no two neighbours are free; free blocks are exactly those on
the lists, each on the list of its class, and the bitmaps mark the non-empty lists. -/
structure WellFormed (base stop : Nat) (t : TlsfInner) (m : Memory) (lists : Nat × Nat → List Nat)
    (cs : List Chunk) : Prop where
  heap : Heap base stop t m lists cs
  shape : Shape false cs
  threaded : ThreadedRun m cs

theorem FirstFrom.block (h : Heap base stop t m lists cs) {k : Nat × Nat} {a : Nat}
    (first : FirstFrom t k a) (least : 32 ≤ n) (start : mappingSearch n = .ok k) :
    ∃ c ∈ cs, c.free = true ∧ n ≤ c.size ∧ c.addr = a := by
  obtain ⟨d, later, rfl, nonzero, _⟩ := first
  have indexed := h.classes.indexed
  have listed := (indexed.head_mem (indexed.head_ne_zero.mp nonzero)).1
  have fits := indexed.fits least start later listed
  obtain ⟨c, hc, here⟩ := h.classes.headers listed
  rw [← here] at listed fits ⊢
  rw [(h.header c hc).size] at fits
  exact ⟨c, hc, (h.filed c hc).mpr ⟨d, listed⟩, fits, rfl⟩

def NothingFrom (t : TlsfInner) (size : Nat) : Prop :=
  ∀ n k, roundSize size = .ok n → mappingSearch n = .ok k → ∀ d, ClassLe k d → t.freeLists d.1 d.2 = 0

/-- `alloc` finds nothing and changes nothing, or hands out a free block that is large enough and
makes that block the only new one in use; whatever lay in the payload it cuts, the heap is well formed. -/
theorem alloc_well_formed (h : WellFormed base stop t m lists cs) (search : Searchable size) :
    (NothingFrom t size ∧ t.alloc m size = .ok (none, t, m)) ∨
    ¬ NothingFrom t size ∧ ∃ c ∈ cs, c.free = true ∧ size ≤ c.size ∧ ∃ u t' m' lists' cs',
      t.alloc m size = .ok (some (payload c.addr), t', m') ∧ size ≤ u ∧
      WellFormed base stop t' m' lists' cs' ∧
      ∀ b v, Used cs' b v ↔ (b = c.addr ∧ v = u) ∨ Used cs b v := by
  obtain ⟨n, k, rounded, start, row⟩ := search.classes
  obtain ⟨least, _, large, _⟩ := roundSize_spec rounded
  rcases alloc_spec h.heap h.shape rounded start row with
    ⟨none, empty⟩ | ⟨a, u, t', m', lists', cs', first, run, fits, heap, given⟩
  · refine Or.inl ⟨fun n' k' rounded' start' d later => ?_, none⟩
    obtain rfl := Except.ok.inj (rounded.symm.trans rounded')
    obtain rfl := Except.ok.inj (start.symm.trans start')
    rw [h.heap.classes.indexed.head d, empty d later, List.headD_nil]
  · obtain ⟨c, hc, free, room, here⟩ := first.block h.heap least start
    obtain ⟨d, later, head, some, _⟩ := first
    refine Or.inr ⟨fun nothing => some (head ▸ nothing n k rounded start d later), c, hc, free, large.trans room,
      u, t', m', lists', cs', ?_, large.trans fits, ⟨heap, given.shape, given.threaded h.threaded⟩, ?_⟩
    · rw [here]
      exact run
    · rw [here]
      exact given.used

/-- The fresh pool's block serves the request. -/
theorem alloc_well_formed_small :
    ∃ t m, TlsfInner.new.addPool Memory.blank 4096 1024 = .ok (t, m) ∧ ¬ NothingFrom t 100 ∧
      ∃ u t' m' lists' cs', t.alloc m 100 = .ok (some 4128, t', m') ∧ 100 ≤ u ∧
        WellFormed 4096 5120 t' m' lists' cs' ∧
        ∀ b v, Used cs' b v ↔ (b = 4096 ∧ v = u) ∨ Used (poolRun 4096 1024 true) b v := by
  have words : (TlsfInner.new.addPool Memory.blank 4096 1024).toOption.map
      (fun r => (prevPhys r.2 4096, prevPhys r.2 5088, (r.1.alloc r.2 100).toOption.map Prod.fst)) =
        some (0, 4096, some (some 4128)) := by decide
  obtain ⟨⟨t, m⟩, fresh, seen⟩ := Option.map_eq_some_iff.mp words
  have pool : TlsfInner.new.addPool Memory.blank 4096 1024 = .ok (t, m) := by
    cases run : TlsfInner.new.addPool Memory.blank 4096 1024 with
    | error e => simp [run, Except.toOption] at fresh
    | ok r => simpa [run, Except.toOption] using fresh
  simp only [Prod.mk.injEq] at seen
  obtain ⟨first, last, served⟩ := seen
  obtain ⟨lists, sound⟩ := addPool_sound (by decide) (by decide) (by decide) pool
  have well : WellFormed 4096 5120 t m lists (poolRun 4096 1024 true) :=
    ⟨sound.heap, sound.shape, first, last, trivial⟩
  rcases alloc_well_formed well (by decide : Searchable 100) with
    ⟨_, none⟩ | ⟨some, c, _, _, _, u, t', m', lists', cs', run, rest⟩
  · simp [none, Except.toOption] at served
  · have here : payload c.addr = 4128 := by simpa [run, Except.toOption] using served
    have addr : c.addr = 4096 := by
      unfold payload headerSize at here
      omega
    rw [here] at run
    rw [addr] at rest
    exact ⟨t, m, pool, some, u, t', m', lists', cs', run, rest⟩

/-! Everything released. -/

theorem poolRun_of_none_live (h : Sound base (base + size) s lists cs) (big : headerSize < size)
    (none : s.live = []) :
    ∃ q, cs = [⟨base, size - 2 * headerSize, true, false⟩,
      ⟨base + (size - headerSize), 0, false, q⟩] := by
  have free : ∀ c ∈ cs, c.size ≠ 0 → c.free = true := by
    intro c hc block
    by_contra used
    have live := (h.live (payload c.addr)).mpr ⟨c.addr, c.size, ⟨c, hc, by simpa using used, block, rfl, rfl⟩, rfl⟩
    rw [none] at live
    exact List.not_mem_nil live
  have tiles := h.heap.tiles
  have shape := h.shape
  match cs with
  | [] => exact absurd shape id
  | [c] =>
    obtain ⟨first, last⟩ := tiles
    have whole : base + c.extent = base + size := last
    rw [Chunk.extent, shape.1] at whole
    omega
  | [c, d] =>
    obtain ⟨fits, empty, used⟩ := shape
    obtain ⟨first, second, last⟩ := tiles
    have whole : base + c.extent + d.extent = base + size := last
    have low := fits.low
    have alone := fits.prev
    have c_free := free c (by simp) (by omega)
    obtain ⟨addr, length, flag, prev⟩ := c
    obtain ⟨addr', length', flag', prev'⟩ := d
    simp only [Chunk.extent] at whole first second empty used alone c_free
    subst alone c_free empty used first
    have payload_size : length = size - 2 * headerSize := by
      unfold headerSize at *
      omega
    have sentinel : addr + (headerSize + length) = addr + (size - headerSize) := by
      unfold headerSize at *
      omega
    rw [second, sentinel, payload_size]
    exact ⟨prev', rfl⟩
  | c :: d :: e :: rest =>
    obtain ⟨fits, fits', _⟩ := shape
    have c_free := free c (by simp) (by have low := fits.low; omega)
    have d_free := free d (by simp) (by have low := fits'.low; omega)
    rw [fits'.apart c_free] at d_free
    cases d_free

theorem tables_of_one (h : Heap base stop t m lists [⟨base, n, true, false⟩, ⟨stop - headerSize, 0, false, q⟩]) :
    t = TlsfInner.new.file (classOf n) base := by
  have header := h.header _ (List.mem_cons_self ..)
  have only : ∀ d, ∀ a ∈ lists d, a = base ∧ d = classOf n := by
    intro d a ha
    obtain ⟨c, hc, rfl⟩ := h.classes.headers ha
    have free := (h.filed c hc).mpr ⟨d, ha⟩
    cases List.mem_cons.mp hc with
    | inl here =>
      rw [here] at ha ⊢
      exact ⟨rfl, by rw [h.classes.own_class ha, header.size]⟩
    | inr hc =>
      rw [List.mem_singleton.mp hc] at free
      cases free
  have listed : base ∈ lists (classOf n) := by
    obtain ⟨d, hd⟩ := (h.filed _ (List.mem_cons_self ..)).mp rfl
    rwa [← (only d base hd).2]
  have every : ∀ d, lists d = if d = classOf n then [base] else [] := by
    intro d
    split
    · rename_i e
      rw [← e] at listed
      have nodup := (h.classes.linked d).nodup
      have all := only d
      cases shape : lists d with
      | nil =>
        rw [shape] at listed
        exact absurd listed List.not_mem_nil
      | cons a rest =>
        rw [shape] at nodup all
        obtain rfl := (all a (List.mem_cons_self ..)).1
        have alone : rest = [] := by
          apply List.eq_nil_iff_forall_not_mem.mpr
          intro b hb
          have same := (all b (List.mem_cons_of_mem _ hb)).1
          exact (List.nodup_cons.mp nodup).1 (same ▸ hb)
        rw [alone]
    · rename_i ne
      exact List.eq_nil_iff_forall_not_mem.mpr fun a ha => ne (only d a ha).2
  have heads : t.freeLists = (TlsfInner.new.file (classOf n) base).freeLists := by
    funext i j
    have new : (TlsfInner.new.file (classOf n) base).freeLists i j =
        if (i, j) = classOf n then base else 0 := setHead_lists TlsfInner.new (classOf n) (i, j) base
    rw [(h.classes.linked (i, j)).head_eq, every (i, j), new]
    split
    · rfl
    · rfl
  have marks := (Marks.empty.set (classOf n).1 (classOf n).2).congr
    (Q := fun d => lists d ≠ []) fun d => by simp [every d, Prod.ext_iff]
  obtain ⟨top, rows⟩ := h.classes.marks.unique marks
  obtain ⟨rows_new, top_new⟩ := file_words TlsfInner.new (classOf n) base
  have rows := rows.trans rows_new.symm
  have top := top.trans top_new.symm
  obtain ⟨flBitmap, slBitmap, freeLists⟩ := t
  simp only at heads top rows
  rw [heads, top, rows]

/-- The pool is one free block on the list of its class; no other list and no other bit is set. -/
structure OneFreeBlock (base size : Nat) (s : System) : Prop where
  pool : PoolSafe base (base + size - headerSize) s [⟨base, size - 2 * headerSize, true, false⟩]
  lists : ∀ fl sl, s.tlsf.freeLists fl sl = if (fl, sl) = classOf (size - 2 * headerSize) then base else 0
  rows : ∀ fl sl, (s.tlsf.slBitmap fl).testBit sl = decide ((fl, sl) = classOf (size - 2 * headerSize))
  top : ∀ fl, s.tlsf.flBitmap.testBit fl = decide (fl = (classOf (size - 2 * headerSize)).1)

theorem served_again {m' : Memory} {lists' : Nat × Nat → List Nat} {cs' : List Chunk} {p : Nat}
    {t₁ : TlsfInner} {m₁ : Memory} (h : Heap base stop t m lists cs) (shape : Shape false cs)
    (h' : Heap base stop t m' lists' cs') (shape' : Shape false cs')
    (served : t.alloc m n = .ok (some p, t₁, m₁)) :
    ∃ t₂ m₂, t.alloc m' n = .ok (some p, t₂, m₂) := by
  obtain ⟨rounding, k, rounded, start, row⟩ := alloc_searched served
  rcases alloc_spec h shape rounded start row with ⟨none, _⟩ | ⟨a, _, _, _, _, _, first, run, _⟩
  · cases none.symm.trans served
  · obtain ⟨rfl, _⟩ : payload a = p ∧ _ := by simpa using Except.ok.inj (run.symm.trans served)
    rcases alloc_spec h' shape' rounded start row with
      ⟨_, empty⟩ | ⟨b, _, t₂, m₂, _, _, first', run', _⟩
    · obtain ⟨d, later, head, nonzero, _⟩ := first
      rw [← head] at nonzero
      exact absurd (empty d later) (h'.classes.indexed.head_ne_zero.mp nonzero)
    · exact ⟨t₂, m₂, by rw [run', first.unique first']⟩

/-- While every release that follows `prev_phys` finds the free predecessor there, releasing
everything, in any order, leaves one free block, and what the fresh pool served is served again. -/
theorem all_released_is_one_block (based : base ≠ 0) (words : 8 ∣ size) (small : size < 2 ^ 30)
    (pool : TlsfInner.new.addPool m base size = .ok (t₀, m₀))
    (run : Reach exec ValidFollowing ⟨t₀, m₀, []⟩ s) (released : s.live = []) :
    OneFreeBlock base size s ∧ ∀ n p t₁ m₁, t₀.alloc m₀ n = .ok (some p, t₁, m₁) →
      ∃ t₂ m₂, s.tlsf.alloc s.mem n = .ok (some p, t₂, m₂) := by
  obtain ⟨lists₀, fresh⟩ := addPool_sound based words (Nat.lt_trans small (by decide)) pool
  obtain ⟨lists, cs, sound⟩ := following_sound based words (Nat.lt_trans small (by decide)) pool run
  have big : headerSize < size := by
    have inside := fresh.heap.tiles.bounds (x := ⟨base + (size - headerSize), 0, false, false⟩) (by simp [poolRun])
    have shape := fresh.shape.1.low
    unfold headerSize at *
    simp only at shape
    omega
  obtain ⟨q, rfl⟩ := poolRun_of_none_live sound big released
  have place : base + size - headerSize = base + (size - headerSize) := Nat.add_sub_assoc (Nat.le_of_lt big) _
  have table : s.tlsf = TlsfInner.new.file (classOf (size - 2 * headerSize)) base := by
    have heap := sound.heap
    rw [← place] at heap
    exact tables_of_one heap
  have table₀ : t₀ = TlsfInner.new.file (classOf (size - 2 * headerSize)) base := by
    have heap := fresh.heap
    rw [poolRun, ← place] at heap
    exact tables_of_one heap
  obtain ⟨rows, top⟩ := file_words TlsfInner.new (classOf (size - 2 * headerSize)) base
  refine ⟨⟨?_, fun fl sl => ?_, fun fl sl => ?_, fun fl => ?_⟩, fun n p t₁ m₁ served => ?_⟩
  · have split : Sound base (base + size) s lists ([⟨base, size - 2 * headerSize, true, false⟩] ++
        [⟨base + (size - headerSize), 0, false, q⟩]) := sound
    refine split.blocks rfl rfl fun c hc => ?_
    have low := sound.shape.1.low
    rw [List.mem_singleton.mp hc]
    simp only at low ⊢
    omega
  · rw [table]
    exact setHead_lists TlsfInner.new _ (fl, sl) base
  · have marks := (Marks.empty.set (classOf (size - 2 * headerSize)).1 (classOf (size - 2 * headerSize)).2).row fl sl
    rw [table, rows, Bool.eq_iff_iff, decide_eq_true_iff]
    simpa [TlsfInner.new] using marks
  · rw [table, top, Nat.testBit_or, Nat.testBit_two_pow]
    simp [TlsfInner.new, eq_comm]
  · have same : t₀ = s.tlsf := table₀.trans table.symm
    rw [same] at served
    have heap := fresh.heap
    simp only [same] at heap
    exact served_again heap fresh.shape sound.heap sound.shape served

theorem all_released_is_one_block_small : ∃ t₀ m₀, ∃ s : System,
    TlsfInner.new.addPool Memory.blank 4096 1024 = .ok (t₀, m₀) ∧ s.live = [] ∧
      OneFreeBlock 4096 1024 s ∧ ∀ n p t₁ m₁, t₀.alloc m₀ n = .ok (some p, t₁, m₁) →
        ∃ t₂ m₂, s.tlsf.alloc s.mem n = .ok (some p, t₂, m₂) := by
  have returns : (smallPool.bind fun s => trial exec ValidAlone s
      [.alloc 32, .alloc 100, .dealloc 4192, .dealloc 4128]).map (fun s => s.live) = some [] := by decide
  obtain ⟨t₀, m₀, s, pool, run, live⟩ := smallPool_run returns
  exact ⟨t₀, m₀, s, pool, live, all_released_is_one_block (by decide) (by decide) (by decide) pool
    (run.mono fun _ _ => ValidAlone.following) live⟩

/-- Three blocks released in address order leave two entries on the lists. -/
theorem released_not_one_block :
    ¬ ∀ (base size : Nat) (m : Memory) (t₀ : TlsfInner) (m₀ : Memory) (s : System), 8 ∣ base →
      base ≠ 0 → 8 ∣ size → size < 2 ^ 30 → TlsfInner.new.addPool m base size = .ok (t₀, m₀) →
      Reach exec Valid ⟨t₀, m₀, []⟩ s → s.live = [] → OneFreeBlock base size s := by
  intro claim
  have returns : (smallPool.bind fun s => trial exec Valid s
      [.alloc 32, .alloc 32, .alloc 32, .dealloc 4128, .dealloc 4192, .dealloc 4256]).map (fun s =>
        (s.live, s.tlsf.freeLists 6 16)) = some ([], 4096) := by decide
  obtain ⟨t₀, m₀, s, pool, run, seen⟩ := smallPool_run returns
  obtain ⟨live, head⟩ := Prod.mk.inj seen
  have one := claim 4096 1024 Memory.blank t₀ m₀ s (by decide) (by decide) (by decide) (by decide) pool
    run live
  rw [one.lists] at head
  exact absurd head (by decide)

end CrustyOs.Abalone.TlsfInner
