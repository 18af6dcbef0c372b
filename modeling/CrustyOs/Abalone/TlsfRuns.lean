import CrustyOs.Abalone.TlsfDealloc
import CrustyOs.Lib.Runs

/-! Whole runs of a TLSF heap: a pool is added once, then requests, releases and
stores of the clients to their payloads follow in any order. -/
namespace CrustyOs.Abalone.TlsfInner
open Lib Tlsf

structure System where
  tlsf : TlsfInner
  mem : Memory
  live : List Nat

inductive Op where
  | alloc (size : Nat)
  | dealloc (ptr : Nat)
  | store (addr value : Nat)

def exec (s : System) : Op → Except Panic System
  | .alloc size => do
    let (ptr, tlsf, mem) ← s.tlsf.alloc s.mem size
    match ptr with
    | none => return { s with tlsf, mem }
    | some ptr => return { tlsf, mem, live := ptr :: s.live }
  | .dealloc ptr => do
    let (tlsf, mem) ← s.tlsf.dealloc s.mem ptr
    return { tlsf, mem, live := s.live.erase ptr }
  | .store addr value => return { s with mem := s.mem.write addr value }

/-- The search for a request starts within the class table. -/
def Searchable (size : Nat) : Prop :=
  ((roundSize size).bind mappingSearch).toOption.any fun k => k.1 < flIndexCount

def Valid (s : System) : Op → Prop
  | .alloc size => Searchable size
  | .dealloc ptr => ptr ∈ s.live
  | .store addr _ => ∃ p ∈ s.live, p ≤ addr ∧ addr + 8 ≤ p + blockSize s.mem (p - headerSize)

instance (size : Nat) : Decidable (Searchable size) := inferInstanceAs (Decidable (_ = true))

instance (s : System) (op : Op) : Decidable (Valid s op) := by
  cases op <;> unfold Valid <;> infer_instance

def OnFreeList (t : TlsfInner) (m : Memory) (a : Nat) : Prop :=
  ∃ fl sl nodes, Linked (nextFree m) (prevFree m) (t.freeLists fl sl) nodes ∧ a ∈ nodes

/-- A release that follows `prev_phys` follows it to the free block physically before. -/
def FollowsPredecessor (s : System) : Op → Prop
  | .dealloc ptr => isPrevFree s.mem (ptr - headerSize) = true →
      OnFreeList s.tlsf s.mem (prevPhys s.mem (ptr - headerSize)) ∧
        nextPhys s.mem (prevPhys s.mem (ptr - headerSize)) = ptr - headerSize
  | _ => True

/-- What a reader of the memory sees: the pool up to the sentinel is one run of
blocks, in use exactly by the live payloads and free exactly on the lists. -/
structure PoolSafe (base sentinel : Nat) (s : System) (blocks : List Chunk) : Prop where
  tiles : Tiles Chunk.addr Chunk.extent base blocks sentinel
  apart : blocks.Pairwise fun c d => c.addr + c.extent ≤ d.addr
  header : ∀ c ∈ blocks, c.Header s.mem
  live : ∀ p, p ∈ s.live ↔ ∃ c ∈ blocks, c.free = false ∧ payload c.addr = p
  nodup : s.live.Nodup
  listed : ∀ a, OnFreeList s.tlsf s.mem a ↔ ∃ c ∈ blocks, c.free = true ∧ c.addr = a

structure Sound (base stop : Nat) (s : System) (lists : Nat × Nat → List Nat) (cs : List Chunk) :
    Prop where
  heap : Heap base stop s.tlsf s.mem lists cs
  shape : Shape false cs
  live : ∀ p, p ∈ s.live ↔ ∃ a u, Used cs a u ∧ payload a = p
  nodup : s.live.Nodup

variable {base stop size n : Nat} {s s' : System} {lists : Nat × Nat → List Nat} {cs : List Chunk}
  {m : Memory} {c : Chunk}

theorem payload_inj {a b : Nat} : payload a = payload b ↔ a = b := Nat.add_right_cancel_iff

theorem Heap.onFreeList_iff {t : TlsfInner} (h : Heap base stop t m lists cs) {a : Nat} :
    OnFreeList t m a ↔ ∃ c ∈ cs, c.free = true ∧ c.addr = a := by
  constructor
  · rintro ⟨fl, sl, nodes, linked, mem⟩
    rw [linked.unique (h.classes.linked (fl, sl))] at mem
    obtain ⟨c, hc, rfl⟩ := h.classes.headers mem
    exact ⟨c, hc, (h.filed c hc).mpr ⟨_, mem⟩, rfl⟩
  · rintro ⟨c, hc, free, rfl⟩
    obtain ⟨k, hk⟩ := (h.filed c hc).mp free
    exact ⟨k.1, k.2, lists k, h.classes.linked k, hk⟩

theorem shape_blocks {p : Bool} (h : Shape p cs) : ∃ blocks sentinel, cs = blocks ++ [sentinel] ∧
    sentinel.size = 0 ∧ sentinel.free = false ∧ ∀ c ∈ blocks, c.size ≠ 0 := by
  induction cs generalizing p with
  | nil => exact absurd h id
  | cons c cs ih =>
    cases cs with
    | nil => exact ⟨[], c, rfl, h.1, h.2, by simp⟩
    | cons d cs =>
      obtain ⟨fits, tail⟩ := h
      obtain ⟨blocks, sentinel, e, size, used, all⟩ := ih tail
      refine ⟨c :: blocks, sentinel, by rw [e]; rfl, size, used, fun x hx => ?_⟩
      cases List.mem_cons.mp hx with
      | inl here =>
        have low := fits.low
        rw [here]
        omega
      | inr hx => exact all x hx

theorem Sound.blocks {blocks : List Chunk} {sentinel : Chunk}
    (h : Sound base stop s lists (blocks ++ [sentinel])) (empty : sentinel.size = 0)
    (used : sentinel.free = false) (full : ∀ c ∈ blocks, c.size ≠ 0) :
    PoolSafe base (stop - headerSize) s blocks := by
  obtain ⟨p, fill, first, last⟩ := Tiles.append.mp h.heap.tiles
  have stop_eq : p + sentinel.extent = stop := last
  have here : stop - headerSize = p := by
    rw [← stop_eq, Chunk.extent, empty]
    omega
  refine ⟨here ▸ fill, fill.ordered, fun c hc => h.heap.header c (by simp [hc]), fun q => ?_,
    h.nodup, fun a => ?_⟩
  · rw [h.live q]
    constructor
    · rintro ⟨a, u, ⟨c, hc, live, nonzero, rfl, rfl⟩, rfl⟩
      cases List.mem_append.mp hc with
      | inl hc => exact ⟨c, hc, live, rfl⟩
      | inr hc =>
        rw [List.mem_singleton.mp hc] at nonzero
        exact absurd empty nonzero
    · rintro ⟨c, hc, live, rfl⟩
      exact ⟨c.addr, c.size, ⟨c, by simp [hc], live, full c hc, rfl, rfl⟩, rfl⟩
  · rw [h.heap.onFreeList_iff]
    constructor
    · rintro ⟨c, hc, free, rfl⟩
      cases List.mem_append.mp hc with
      | inl hc => exact ⟨c, hc, free, rfl⟩
      | inr hc =>
        rw [List.mem_singleton.mp hc, used] at free
        cases free
    · rintro ⟨c, hc, free, rfl⟩
      exact ⟨c, by simp [hc], free, rfl⟩

theorem Sound.safe (h : Sound base stop s lists cs) :
    ∃ blocks, PoolSafe base (stop - headerSize) s blocks := by
  obtain ⟨blocks, sentinel, rfl, empty, used, full⟩ := shape_blocks h.shape
  exact ⟨blocks, h.blocks empty used full⟩

theorem Sound.chunk_of_live (h : Sound base stop s lists cs) {p : Nat} (hp : p ∈ s.live) :
    ∃ c ∈ cs, c.free = false ∧ c.size ≠ 0 ∧ payload c.addr = p := by
  obtain ⟨a, u, ⟨c, hc, used, size, rfl, rfl⟩, rfl⟩ := (h.live p).mp hp
  exact ⟨c, hc, used, size, rfl⟩

theorem header_outside_payload (h : Tiles Chunk.addr Chunk.extent base cs stop) (hc : c ∈ cs)
    {a : Nat} (word : HeaderOf (Addrs cs) a) :
    a + 8 ≤ payload c.addr ∨ payload c.addr + c.size ≤ a := by
  obtain ⟨q, ⟨d, hd, rfl⟩, low, high⟩ := word
  unfold payload headerSize
  by_cases same : d = c
  · subst same
    omega
  · have apart := h.apart hd hc same
    unfold Chunk.extent headerSize at apart
    omega

theorem store_sound {addr value : Nat} (h : Sound base stop s lists cs)
    (valid : Valid s (.store addr value)) :
    Sound base stop { s with mem := s.mem.write addr value } lists cs := by
  obtain ⟨p, hp, low, high⟩ := valid
  obtain ⟨c, hc, _, _, rfl⟩ := h.chunk_of_live hp
  have block : payload c.addr - headerSize = c.addr := Nat.add_sub_cancel _ _
  rw [block, (h.heap.header c hc).size] at high
  -- no header word is the stored one
  have off : ∀ a, Addrs cs a → ∀ i ≤ 24, a + i ≠ addr := by
    intro a ha i hi e
    have outside := header_outside_payload h.heap.tiles hc (headerOf_field ha hi)
    omega
  have read : ∀ a, Addrs cs a → ∀ i ≤ 24, (s.mem.write addr value).read (a + i) = s.mem.read (a + i) :=
    fun a ha i hi => Memory.read_write_other _ _ (off a ha i hi)
  have word : ∀ a, Addrs cs a → sizeWord (s.mem.write addr value) a = sizeWord s.mem a :=
    fun a ha => read a ha 0 (by decide)
  refine ⟨⟨⟨h.heap.tiles, ?_, fun d hd => ?_, h.heap.sized, h.heap.based, h.heap.small⟩,
    h.heap.filed⟩, h.shape, h.live, h.nodup⟩
  · apply h.heap.classes.congr (fun _ _ ha => h.heap.classes.headers ha)
    intro k a ha
    have inside := h.heap.classes.headers ha
    exact ⟨(readings (word a inside)).1, read a inside 16 (by decide), read a inside 24 (by decide)⟩
  · exact (h.heap.header d hd).congr (word d.addr ⟨d, hd, rfl⟩)

theorem Searchable.classes (search : Searchable size) :
    ∃ n k, roundSize size = .ok n ∧ mappingSearch n = .ok k ∧ k.1 < flIndexCount := by
  unfold Searchable at search
  cases rounded : roundSize size with
  | error e => simp [rounded, Except.bind, Except.toOption] at search
  | ok n =>
    cases start : mappingSearch n with
    | error e => simp [rounded, start, Except.bind, Except.toOption] at search
    | ok k => exact ⟨n, k, rfl, start, by simpa [rounded, start, Except.bind, Except.toOption] using search⟩

/-- One operation under the guard: it returns and keeps the invariant. -/
theorem step_sound {op : Op} (h : Sound base stop s lists cs) (valid : Valid s op)
    (follows : FollowsPredecessor s op) :
    ∃ s' lists' cs', exec s op = .ok s' ∧ Sound base stop s' lists' cs' := by
  cases op with
  | alloc size =>
    have search : Searchable size := valid
    obtain ⟨n, k, rounded, start, row⟩ := search.classes
    rcases alloc_spec h.heap h.shape rounded start row with
      ⟨run, _⟩ | ⟨a, u, t', m', lists', cs', _, run, _, heap, done⟩
    · exact ⟨s, lists, cs, by simp only [exec, bind, Except.bind, run]; rfl, h⟩
    · refine ⟨⟨t', m', payload a :: s.live⟩, lists', cs',
        by simp only [exec, bind, Except.bind, run]; rfl, heap, done.shape, fun p => ?_, ?_⟩
      · simp only [List.mem_cons, h.live p, done.used]
        constructor
        · rintro (rfl | ⟨b, v, live, rfl⟩)
          · exact ⟨a, u, Or.inl ⟨rfl, rfl⟩, rfl⟩
          · exact ⟨b, v, Or.inr live, rfl⟩
        · rintro ⟨b, v, ⟨rfl, rfl⟩ | live, rfl⟩
          · exact Or.inl rfl
          · exact Or.inr ⟨b, v, live, rfl⟩
      · refine List.nodup_cons.mpr ⟨fun old => ?_, h.nodup⟩
        obtain ⟨c, hc, used, _, e⟩ := h.chunk_of_live old
        obtain ⟨d, hd, free, rfl⟩ := done.was_free
        have same : c = d := by
          have extents : 0 < c.extent ∧ 0 < d.extent := by
            unfold Chunk.extent headerSize
            omega
          exact h.heap.tiles.start_inj hc hd extents (payload_inj.mp e)
        rw [same, free] at used
        cases used
  | dealloc ptr =>
    obtain ⟨c, hc, used, size, rfl⟩ := h.chunk_of_live valid
    have block : payload c.addr - headerSize = c.addr := Nat.add_sub_cancel _ _
    have right : PrevRight s.mem cs c := by
      intro flag
      have bit : isPrevFree s.mem (payload c.addr - headerSize) = true := by
        rw [block, (h.heap.header c hc).prev, flag]
      obtain ⟨listed, next⟩ := follows bit
      rw [block] at listed next
      obtain ⟨d, hd, free, e⟩ := h.heap.onFreeList_iff.mp listed
      rw [← e, (h.heap.header d hd).nextPhys_eq] at next
      exact ⟨d, hd, free, e, next⟩
    obtain ⟨t', m', lists', cs', run, heap, done⟩ := dealloc_spec h.heap h.shape hc used size right
    refine ⟨⟨t', m', s.live.erase (payload c.addr)⟩, lists', cs',
      by simp only [exec, bind, Except.bind, run]; rfl, heap, done.shape, fun p => ?_,
      h.nodup.erase _⟩
    rw [h.nodup.mem_erase_iff, h.live p]
    constructor
    · rintro ⟨ne, b, v, live, rfl⟩
      exact ⟨b, v, (done.used b v).mpr ⟨fun e => ne (payload_inj.mpr e), live⟩, rfl⟩
    · rintro ⟨b, v, live, rfl⟩
      obtain ⟨ne, old⟩ := (done.used b v).mp live
      exact ⟨fun e => ne (payload_inj.mp e), b, v, old, rfl⟩
  | store addr value => exact ⟨_, lists, cs, rfl, store_sound h valid⟩

/-! The fresh pool. -/

theorem plain_readings {a : Nat} (words : 8 ∣ n) (small : n < 2 ^ 64) (word : sizeWord m a = n) :
    blockSize m a = n ∧ isFree m a = false ∧ isPrevFree m a = false := by
  have flags : freeBit ||| prevPhysBit = 2 ^ 2 - 1 := rfl
  refine ⟨?_, ?_, ?_⟩
  · rw [blockSize, word, flags, and_wordNot_low small (by decide)]
    omega
  · rw [isFree_eq, word, testBit_of_dvd (k := 3) words (by decide)]
  · rw [isPrevFree_eq, word, testBit_of_dvd (k := 3) words (by decide)]

def poolStores (m : Memory) (base size : Nat) : Memory :=
  (setPrevFree (writeHeader (writeHeader m (base + (size - headerSize)) 0 0 0 0) base
    (size - 2 * headerSize) 0 0 0) base false).write (base + (size - headerSize) + 8) base

def poolRun (base size : Nat) (free : Bool) : List Chunk :=
  [⟨base, size - 2 * headerSize, free, false⟩, ⟨base + (size - headerSize), 0, false, false⟩]

theorem poolStores_words (m : Memory) (base : Nat) (big : 2 * headerSize + blockMin < size) :
    sizeWord (poolStores m base size) base = sizeWord (setPrevFree (writeHeader (writeHeader m
        (base + (size - headerSize)) 0 0 0 0) base (size - 2 * headerSize) 0 0 0) base false) base ∧
      sizeWord (poolStores m base size) (base + (size - headerSize)) = 0 := by
  have span : 32 < size - headerSize := by
    unfold headerSize blockMin at big
    unfold headerSize
    omega
  refine ⟨Memory.read_write_other _ _ (by omega), ?_⟩
  have gap : ∀ i < 32, size - headerSize ≠ i := by
    intro i hi
    omega
  simp [poolStores, sizeWord, setPrevFree, writeHeader, Memory.read_write, gap]

theorem poolStores_header (m : Memory) (base : Nat) (words : 8 ∣ size) (big : 2 * headerSize + blockMin < size)
    (limit : size < 2 ^ 64) :
    Chunk.Header (poolStores m base size) ⟨base, size - 2 * headerSize, false, false⟩ := by
  have word := (poolStores_words m base big).1
  have payload_words : 8 ∣ size - 2 * headerSize := by
    unfold headerSize
    omega
  have bound : size - 2 * headerSize < 2 ^ 64 := by omega
  set m₀ := writeHeader (writeHeader m (base + (size - headerSize)) 0 0 0 0) base
    (size - 2 * headerSize) 0 0 0 with m₀_def
  have plain : sizeWord m₀ base = size - 2 * headerSize := by
    simp [m₀_def, sizeWord, writeHeader, Memory.read_write]
  obtain ⟨size₀, free₀, _⟩ := plain_readings payload_words bound plain
  obtain ⟨size₁, free₁, prev₁⟩ := setPrevFree_readings m₀ base false
  obtain ⟨size₂, free₂, prev₂⟩ := readings word
  exact ⟨size₂.trans (size₁.trans size₀), free₂.trans (free₁.trans free₀), prev₂.trans prev₁⟩

/-- A pool that `add_pool` accepts has a class for its one block. -/
theorem addPool_lt {r : TlsfInner × Memory} (words : 8 ∣ size) (limit : size < 2 ^ 64)
    (pool : TlsfInner.new.addPool m base size = .ok r) : size < 2 ^ 30 + 2 * headerSize := by
  obtain ⟨_, checked, filing⟩ := ok_of_bind pool
  have big : 2 * headerSize + blockMin < size := of_decide_eq_true (of_require checked)
  have block : blockSize (poolStores m base size) base = size - 2 * headerSize :=
    (poolStores_header m base words big limit).size
  have low : 32 ≤ size - 2 * headerSize := by
    unfold headerSize blockMin at big
    unfold headerSize
    omega
  have small : blockSize (poolStores m base size) base < 2 ^ 30 := insertFree_lt (block.symm ▸ low) filing
  rw [block] at small
  omega

theorem poolStores_layout (m : Memory) (base : Nat) (based : base ≠ 0) (words : 8 ∣ size)
    (big : 2 * headerSize + blockMin < size) (small : size < 2 ^ 30 + 2 * headerSize) :
    Layout base (base + size) TlsfInner.new (poolStores m base size) (fun _ => [])
      (poolRun base size false) := by
  have header := poolStores_header m base words big (Nat.lt_trans small (by decide))
  have last := (poolStores_words m base big).2
  have payload_words : 8 ∣ size - 2 * headerSize := by
    unfold headerSize
    omega
  refine ⟨⟨rfl, ?_, ?_⟩, ⟨fun _ => .nil, fun _ a ha => absurd ha List.not_mem_nil, ?_⟩, fun c hc => ?_,
    fun c hc => ?_, based, by omega⟩
  · simp only [Chunk.extent, headerSize]
    unfold headerSize blockMin at big
    omega
  · simp only [Tiles, Chunk.extent, headerSize]
    unfold headerSize blockMin at big
    omega
  · exact Marks.empty.congr fun c => by simp
  · rcases List.mem_cons.mp hc with rfl | hc
    · exact header
    · obtain rfl := List.mem_singleton.mp hc
      obtain ⟨empty, used, prev⟩ := plain_readings (n := 0) (by decide) (by decide) last
      exact ⟨empty, used, prev⟩
  · rcases List.mem_cons.mp hc with rfl | hc
    · exact payload_words
    · obtain rfl := List.mem_singleton.mp hc
      exact Nat.dvd_zero 8

theorem addPool_returns (m : Memory) (based : base ≠ 0) (words : 8 ∣ size) (big : 2 * headerSize + blockMin < size)
    (small : size < 2 ^ 30 + 2 * headerSize) : ∃ t m' lists, TlsfInner.new.addPool m base size = .ok (t, m') ∧
      Sound base (base + size) ⟨t, m', []⟩ lists (poolRun base size true) := by
  have layout := poolStores_layout m base based words big small
  have low : 32 ≤ size - 2 * headerSize := by
    unfold headerSize blockMin at big
    unfold headerSize
    omega
  have filed : ∀ e, e ∈ ([] : List Chunk) ∨ e ∈ [(⟨base + (size - headerSize), 0, false, false⟩ : Chunk)] →
      Filed (fun _ => []) e := by
    rintro e (he | he)
    · exact absurd he List.not_mem_nil
    · obtain rfl := List.mem_singleton.mp he
      exact iff_of_false Bool.false_ne_true (by simp)
  have whole : Layout base (base + size) TlsfInner.new (poolStores m base size) (fun _ => [])
      ([] ++ ⟨base, size - 2 * headerSize, false, false⟩ ::
        [⟨base + (size - headerSize), 0, false, false⟩]) := layout
  obtain ⟨t, m', lists, run, heap, _⟩ := whole.put (by simp) filed low (List.cons_ne_nil _ _)
  refine ⟨t, m', lists, ?_, heap, ⟨⟨low, rfl, fun p => absurd p Bool.false_ne_true⟩, rfl, rfl⟩, fun p => ?_,
    List.nodup_nil⟩
  · have guard : require (decide (size > 2 * headerSize + blockMin)) "pool too small" = .ok () :=
      require_true _ (decide_eq_true big)
    simp only [addPool, guard, bind, Except.bind]
    exact run
  constructor
  · exact fun live => absurd live List.not_mem_nil
  · rintro ⟨a, u, ⟨c, hc, used, nonzero, _, _⟩, _⟩
    rcases List.mem_cons.mp hc with rfl | hc
    · cases used
    · rw [List.mem_singleton.mp hc] at nonzero
      exact absurd rfl nonzero

theorem addPool_sound {t : TlsfInner} {m' : Memory} (based : base ≠ 0) (words : 8 ∣ size)
    (limit : size < 2 ^ 64) (pool : TlsfInner.new.addPool m base size = .ok (t, m')) :
    ∃ lists, Sound base (base + size) ⟨t, m', []⟩ lists (poolRun base size true) := by
  obtain ⟨_, checked, _⟩ := ok_of_bind pool
  have big : 2 * headerSize + blockMin < size := of_decide_eq_true (of_require checked)
  obtain ⟨t', m'', lists, same, sound⟩ := addPool_returns m based words big (addPool_lt words limit pool)
  obtain ⟨rfl, rfl⟩ := Prod.mk.inj (Except.ok.inj (same.symm.trans pool))
  exact ⟨lists, sound⟩

def ValidFollowing (s : System) (op : Op) : Prop := Valid s op ∧ FollowsPredecessor s op

theorem following_sound {t₀ : TlsfInner} {m₀ : Memory} (based : base ≠ 0) (words : 8 ∣ size)
    (limit : size < 2 ^ 64) (pool : TlsfInner.new.addPool m base size = .ok (t₀, m₀))
    (run : Reach exec ValidFollowing ⟨t₀, m₀, []⟩ s) :
    ∃ lists cs, Sound base (base + size) s lists cs := by
  apply run.invariant (I := fun s => ∃ lists cs, Sound base (base + size) s lists cs)
  · obtain ⟨lists, fresh⟩ := addPool_sound based words limit pool
    exact ⟨lists, _, fresh⟩
  · rintro s op s' ⟨lists, cs, sound⟩ ⟨valid, follows⟩ done
    obtain ⟨t, lists', cs', returned, sound'⟩ := step_sound sound valid follows
    obtain rfl := Except.ok.inj (returned.symm.trans done)
    exact ⟨lists', cs', sound'⟩

/-- While every release that follows `prev_phys` finds the free predecessor there, the
live payloads, the free blocks and their headers tile the pool, and the next such
operation returns. -/
theorem pool_safe_in_every_run {t₀ : TlsfInner} {m₀ : Memory} (based : base ≠ 0) (words : 8 ∣ size)
    (small : size < 2 ^ 30) (pool : TlsfInner.new.addPool m base size = .ok (t₀, m₀))
    (run : Reach exec ValidFollowing ⟨t₀, m₀, []⟩ s) :
    (∃ blocks, PoolSafe base (base + size - headerSize) s blocks) ∧
      ∀ op, ValidFollowing s op → ∃ s', exec s op = .ok s' := by
  obtain ⟨lists, cs, sound⟩ := following_sound based words (Nat.lt_trans small (by decide)) pool run
  refine ⟨sound.safe, fun op both => ?_⟩
  obtain ⟨s', _, _, returned, _⟩ := step_sound sound both.1 both.2
  exact ⟨s', returned⟩

/-- A release with no free predecessor has no `prev_phys` to follow. -/
def ValidAlone (s : System) (op : Op) : Prop :=
  Valid s op ∧ match op with
    | .dealloc ptr => isPrevFree s.mem (ptr - headerSize) = false
    | _ => True

instance (s : System) (op : Op) : Decidable (ValidAlone s op) := by
  cases op <;> unfold ValidAlone <;> infer_instance

theorem ValidAlone.following {op : Op} (valid : ValidAlone s op) : ValidFollowing s op := by
  refine ⟨valid.1, ?_⟩
  cases op with
  | alloc size => trivial
  | dealloc ptr =>
    intro flag
    have alone : isPrevFree s.mem (ptr - headerSize) = false := valid.2
    rw [alone] at flag
    cases flag
  | store addr value => trivial

theorem onFreeList_head {t : TlsfInner} {a fl sl : Nat} (head : t.freeLists fl sl = a) (null : a ≠ 0)
    (next : nextFree m a = 0) (prev : prevFree m a = 0) : OnFreeList t m a :=
  ⟨fl, sl, [a], ⟨head, by simpa using null.symm, by simp, prev, next, trivial⟩, by simp⟩

def smallPool : Option System :=
  (TlsfInner.new.addPool Memory.blank 4096 1024).toOption.map fun (tlsf, mem) => ⟨tlsf, mem, []⟩

theorem smallPool_run {Guard : System → Op → Prop} [∀ s op, Decidable (Guard s op)] {ops : List Op}
    {β : Type} {f : System → β} {y : β}
    (returns : (smallPool.bind fun s => trial exec Guard s ops).map f = some y) :
    ∃ t₀ m₀, ∃ s : System, TlsfInner.new.addPool Memory.blank 4096 1024 = .ok (t₀, m₀) ∧
      Reach exec Guard ⟨t₀, m₀, []⟩ s ∧ f s = y := by
  obtain ⟨s, returns, seen⟩ := Option.map_eq_some_iff.mp returns
  obtain ⟨s₀, fresh, run⟩ := Option.bind_eq_some_iff.mp returns
  cases pool : TlsfInner.new.addPool Memory.blank 4096 1024 with
  | error e => simp [smallPool, pool, Except.toOption] at fresh
  | ok r =>
    obtain ⟨t₀, m₀⟩ := r
    obtain rfl : (⟨t₀, m₀, []⟩ : System) = s₀ := by simpa [smallPool, pool, Except.toOption] using fresh
    exact ⟨t₀, m₀, s, rfl, trial_reach ops .start run, seen⟩

theorem pool_safe_in_small_run : ∃ s : System, s.live = [4192] ∧ isPrevFree s.mem 4160 = true ∧
    ValidFollowing s (.dealloc 4192) ∧
    (∃ blocks, PoolSafe 4096 (4096 + 1024 - headerSize) s blocks) ∧
    ∀ op, ValidFollowing s op → ∃ s', exec s op = .ok s' := by
  have returns : (smallPool.bind fun s =>
      trial exec ValidAlone s [.alloc 32, .alloc 32, .dealloc 4128]).map (fun s =>
        (s.live, isPrevFree s.mem 4160, [prevPhys s.mem 4160, nextPhys s.mem 4096,
          s.tlsf.freeLists 5 0, nextFree s.mem 4096, prevFree s.mem 4096])) =
      some ([4192], true, [4096, 4160, 4096, 0, 0]) := by decide
  obtain ⟨t₀, m₀, s, pool, run, seen⟩ := smallPool_run returns
  simp only [Prod.mk.injEq, List.cons.injEq] at seen
  obtain ⟨live, flag, prev, next, head, last, first, _⟩ := seen
  refine ⟨s, live, flag, ⟨?_, ?_⟩, pool_safe_in_every_run (by decide) (by decide) (by decide) pool
    (run.mono fun _ _ => ValidAlone.following)⟩
  · show 4192 ∈ s.live
    rw [live]
    exact List.mem_singleton.mpr rfl
  · intro _
    show OnFreeList s.tlsf s.mem (prevPhys s.mem 4160) ∧ nextPhys s.mem (prevPhys s.mem 4160) = 4160
    rw [prev]
    exact ⟨onFreeList_head head (by decide) last first, next⟩

/-- `dealloc` merges a block with its successor and leaves `prev_phys` of the block after
it at the absorbed header: the third of three blocks released in address order is then
merged with the second, inside the free block of the first two. -/
theorem pool_not_safe_in_every_run :
    ¬ ∀ (base size : Nat) (m : Memory) (t₀ : TlsfInner) (m₀ : Memory) (s : System), 8 ∣ base →
      base ≠ 0 → 8 ∣ size → size < 2 ^ 30 → TlsfInner.new.addPool m base size = .ok (t₀, m₀) →
      Reach exec Valid ⟨t₀, m₀, []⟩ s → ∃ blocks, PoolSafe base (base + size - headerSize) s blocks := by
  intro claim
  have returns : (smallPool.bind fun s => trial exec Valid s
      [.alloc 32, .alloc 32, .alloc 32, .dealloc 4128, .dealloc 4192, .dealloc 4256]).map (fun s =>
        [s.tlsf.freeLists 6 16, nextFree s.mem 4096, prevFree s.mem 4096, blockSize s.mem 4096,
          s.tlsf.freeLists 9 24, nextFree s.mem 4160, prevFree s.mem 4160, blockSize s.mem 4160]) =
      some [4096, 0, 0, 96, 4160, 0, 0, 896] := by decide
  obtain ⟨t₀, m₀, s, pool, run, seen⟩ := smallPool_run returns
  simp only [List.cons.injEq] at seen
  obtain ⟨head₁, next₁, prev₁, size₁, head₂, next₂, prev₂, size₂, _⟩ := seen
  obtain ⟨blocks, safe⟩ := claim 4096 1024 Memory.blank t₀ m₀ s (by decide) (by decide) (by decide)
    (by decide) pool run
  obtain ⟨c, hc, _, c_addr⟩ := (safe.listed 4096).mp (onFreeList_head head₁ (by decide) next₁ prev₁)
  obtain ⟨d, hd, _, d_addr⟩ := (safe.listed 4160).mp (onFreeList_head head₂ (by decide) next₂ prev₂)
  have c_size : c.size = 96 := by rw [← (safe.header c hc).size, c_addr, size₁]
  have d_size : d.size = 896 := by rw [← (safe.header d hd).size, d_addr, size₂]
  have ne : c ≠ d := by
    intro e
    rw [e, d_addr] at c_addr
    cases c_addr
  have apart := safe.tiles.apart hc hd ne
  simp only [Chunk.extent, c_addr, d_addr, c_size, d_size, headerSize] at apart
  omega

end CrustyOs.Abalone.TlsfInner
