import CrustyOs.Abalone.TlsfShape

/-! What `alloc` does to the run of chunks. -/
namespace CrustyOs.Abalone.TlsfInner
open Lib Tlsf

variable {base stop : Nat} {t : TlsfInner} {m : Memory} {lists : Nat × Nat → List Nat}
  {cs pre post rest : List Chunk} {c d after : Chunk} {size n : Nat} {k : Nat × Nat}

theorem roundSize_spec (h : roundSize size = .ok n) :
    32 ≤ n ∧ 8 ∣ n ∧ size ≤ n ∧ n < 2 ^ 64 := by
  unfold roundSize checkedAdd at h
  split at h
  · rename_i small
    have down := and_wordNot_low (k := 3) small (by decide)
    have value : n = (max size blockMin + (8 - 1)) / 2 ^ 3 * 2 ^ 3 := (Except.ok.inj h).symm.trans down
    unfold blockMin at value small
    omega
  · cases h

theorem Heap.thread (h : Heap base stop t m lists cs) (hd : d ∈ cs) (v : Nat) :
    Heap base stop t (m.write (d.addr + 8) v) lists cs ∧
      prevPhys (m.write (d.addr + 8) v) d.addr = v ∧
      (∀ a, Addrs cs a → a ≠ d.addr → prevPhys (m.write (d.addr + 8) v) a = prevPhys m a) ∧
      Memory.StoresIn (HeaderOf (Addrs cs)) m (m.write (d.addr + 8) v) := by
  have inside : Addrs cs d.addr := ⟨d, hd, rfl⟩
  have reads (q : Nat) (hq : Addrs cs q) := h.spaced.field_store (m := m) (i := 8) (v := v)
    (by decide) (by decide) inside hq
  refine ⟨⟨⟨h.tiles, ?_, fun e he => ?_, h.sized, h.based, h.small⟩, h.filed⟩, ?_, ?_, ?_⟩
  · apply h.classes.congr (fun _ _ ha => h.classes.headers ha)
    intro k a ha
    obtain ⟨size, _, next, prev⟩ := reads a (h.classes.headers ha)
    exact ⟨(readings size).1, next.trans (if_neg (by simp)), prev.trans (if_neg (by simp))⟩
  · exact (h.header e he).congr (reads e.addr ⟨e, he, rfl⟩).1
  · exact (reads d.addr inside).2.1.trans (if_pos ⟨rfl, rfl⟩)
  · exact fun a ha ne => (reads a ha).2.1.trans (if_neg fun both => ne both.1)
  · exact (Memory.StoresIn.refl _ m).write v (headerOf_field inside (by decide))

theorem splitBlock_eq {t' : TlsfInner} {m' : Memory} {r : Nat} (hn : 8 ∣ n) (small : n < 2 ^ 64)
    (filed : t.insertFree (Heap.cutStores m c.addr (c.addr + headerSize + n) n r)
      (c.addr + headerSize + n) = .ok (t', m')) :
    t.splitBlock m c.addr n (r + headerSize) = .ok (t',
      m'.write (nextPhys m' (c.addr + headerSize + n) + 8) (c.addr + headerSize + n)) := by
  have next : nextPhys (setSize m c.addr n) c.addr = c.addr + headerSize + n := by
    rw [nextPhys, (setSize_readings m c.addr hn small).1]
  unfold Heap.cutStores at filed
  simp only [splitBlock, next, Nat.add_sub_cancel, bind, Except.bind, filed]
  rfl

def Touched (cs cs' : List Chunk) (a : Nat) : Prop :=
  HeaderOf (Addrs cs) a ∨ HeaderOf (Addrs cs') a

theorem ThreadedRun.cut {x r : Nat} {f : Bool} {m' : Memory} (threaded : ThreadedRun m (pre ++ c :: after :: rest))
    (h : Layout base stop t m lists (pre ++ c :: after :: rest)) (at_x : prevPhys m' x = c.addr)
    (at_after : prevPhys m' after.addr = x)
    (unchanged : ∀ e ∈ pre ++ c :: after :: rest, e.addr ≠ after.addr → prevPhys m' e.addr = prevPhys m e.addr) :
    ThreadedRun m' (pre ++ { c with size := n } :: ⟨x, r, f, false⟩ :: after :: rest) := by
  have place : pre ++ c :: after :: rest = (pre ++ [c]) ++ after :: rest := by simp
  have apart : ∀ e, e ∈ pre ++ [c] ∨ e ∈ rest → e.addr ≠ after.addr := by
    rw [place] at h
    exact fun e he => h.other_addr he
  unfold ThreadedRun at threaded ⊢
  simp only [List.map_append, List.map_cons] at threaded ⊢
  obtain ⟨front, _, back⟩ := threaded_around.mp threaded
  refine threaded_around.mpr ⟨front.congr fun a ha => ?_, at_x, at_after, back.congr fun a ha => ?_⟩
  · have chunk : a ∈ (pre ++ [c]).map Chunk.addr := by simpa using ha
    obtain ⟨e, he, rfl⟩ := List.mem_map.mp chunk
    exact unchanged e (by rw [place]; exact List.mem_append_left _ he) (apart e (Or.inl he))
  · obtain ⟨e, he, rfl⟩ := List.mem_map.mp ha
    exact unchanged e (by simp [he]) (apart e (Or.inr he))

/-- What `alloc` does with the chunk it found, up to the flag of the successor: the
chunk is whole, or its tail is cut off and filed. -/
theorem allocSplit_spec {r : Nat} (h : Heap base stop t m lists (pre ++ c :: after :: rest))
    (used : c.free = false) (sum : c.size = n + headerSize + r) (hn : 8 ∣ n) (low : 32 ≤ r) :
    ∃ t' m' lists', t.splitBlock m c.addr n (r + headerSize) = .ok (t', m') ∧
      Heap base stop t' m' lists' (pre ++ { c with size := n } ::
        ⟨c.addr + headerSize + n, r, true, false⟩ :: after :: rest) ∧
      Memory.StoresIn (HeaderOf (Addrs (pre ++ { c with size := n } ::
        ⟨c.addr + headerSize + n, r, true, false⟩ :: after :: rest))) m m' ∧
      (ThreadedRun m (pre ++ c :: after :: rest) → ThreadedRun m' (pre ++ { c with size := n } ::
        ⟨c.addr + headerSize + n, r, true, false⟩ :: after :: rest)) := by
  have hc : c ∈ pre ++ c :: after :: rest := by simp
  have hr : 8 ∣ r := by
    have words := h.sized c hc
    unfold headerSize at sum
    omega
  have small : n < 2 ^ 64 := by
    have bound := h.size_lt hc
    omega
  obtain ⟨f, layout, thread_x, thread_old, stores₁⟩ := h.cut used sum hn hr
  set m₁ := Heap.cutStores m c.addr (c.addr + headerSize + n) n r with m₁_def
  obtain ⟨x, x_def⟩ : ∃ x, x = c.addr + headerSize + n := ⟨_, rfl⟩
  rw [← x_def] at layout thread_x stores₁ m₁_def ⊢
  have assoc (y : Chunk) : pre ++ { c with size := n } :: y :: after :: rest =
      (pre ++ [{ c with size := n }]) ++ y :: after :: rest := by simp
  rw [assoc] at layout stores₁
  -- the new header lies inside the old chunk, so it was on no list
  have inner : ∀ e ∈ pre ++ c :: after :: rest, e.addr ≠ x := by
    have pos : headerSize = 32 := rfl
    have extent : c.extent = headerSize + c.size := rfl
    exact fun e he => h.inner_addr (by omega) (by omega) he
  have fresh : ∀ k, x ∉ lists k := by
    intro k hk
    obtain ⟨e, he, same⟩ := h.classes.headers hk
    exact inner e he same
  have filed : ∀ e, e ∈ pre ++ [{ c with size := n }] ∨ e ∈ after :: rest → Filed lists e := by
    intro e he
    rcases he with he | he
    · cases List.mem_append.mp he with
      | inl he => exact h.filed e (mem_around (Or.inl he))
      | inr he =>
        obtain rfl := List.mem_singleton.mp he
        exact h.filed c hc
    · exact h.filed e (mem_around (Or.inr he))
  obtain ⟨t₂, m₂, lists₂, run, heap₂, kept₂⟩ := layout.put fresh filed low (List.cons_ne_nil _ _)
  simp only at run heap₂ kept₂
  have next : nextPhys m₂ x = after.addr := heap₂.next_addr
  have at_after : after ∈ (pre ++ [{ c with size := n }]) ++ ⟨x, r, true, false⟩ :: after :: rest := by
    simp
  obtain ⟨heap₃, thread_after, thread_rest, stores₃⟩ := heap₂.thread at_after x
  have same (f : Bool) : Addrs ((pre ++ [{ c with size := n }]) ++ ⟨x, r, f, false⟩ :: after :: rest) =
      Addrs ((pre ++ [{ c with size := n }]) ++ ⟨x, r, true, false⟩ :: after :: rest) :=
    addrs_replace rfl
  refine ⟨t₂, m₂.write (after.addr + 8) x, lists₂, ?_, ?_, ?_, ?_⟩
  · have filing : t.insertFree (Heap.cutStores m c.addr (c.addr + headerSize + n) n r)
        (c.addr + headerSize + n) = .ok (t₂, m₂) := by
      rw [← x_def, ← m₁_def]
      exact run
    rw [splitBlock_eq hn small filing, ← x_def, next]
  · rw [assoc]
    exact heap₃
  · rw [assoc, ← same f]
    have filed_stores := kept₂.stores
    rw [← same f] at stores₃
    exact (stores₁.trans filed_stores).trans stores₃
  · intro threaded
    have later : ∀ a, Addrs ((pre ++ [{ c with size := n }]) ++ ⟨x, r, f, false⟩ :: after :: rest) a →
        a ≠ after.addr → prevPhys (m₂.write (after.addr + 8) x) a = prevPhys m₁ a := by
      intro a ha ne
      rw [thread_rest a (by rwa [same f] at ha) ne, kept₂.prevPhys a ha]
    have unchanged : ∀ e ∈ pre ++ c :: after :: rest, e.addr ≠ after.addr →
        prevPhys (m₂.write (after.addr + 8) x) e.addr = prevPhys m e.addr := by
      intro e he ne
      rw [later e.addr ?_ ne]
      · exact thread_old e he
      · rcases mem_replace he with rfl | he | he
        · exact ⟨{ e with size := n }, by simp, rfl⟩
        · exact ⟨e, by simp [he], rfl⟩
        · exact ⟨e, by simp [List.mem_cons.mp he], rfl⟩
    have at_x : prevPhys (m₂.write (after.addr + 8) x) x = c.addr := by
      rw [later x ⟨⟨x, r, f, false⟩, by simp, rfl⟩ (inner after (by simp)).symm]
      exact thread_x
    exact threaded.cut h.toLayout at_x thread_after unchanged

structure Allocated (cs : List Chunk) (m : Memory) (a s : Nat) (cs' : List Chunk) (m' : Memory) :
    Prop where
  was_free : ∃ c ∈ cs, c.free = true ∧ c.addr = a
  handed : ∃ c ∈ cs', c.addr = a ∧ c.size = s ∧ c.free = false ∧ c.prev = false
  used : ∀ b u, Used cs' b u ↔ (b = a ∧ u = s) ∨ Used cs b u
  others : ∀ c ∈ cs, c.free = true → c.addr = a ∨ c ∈ cs'
  shape : Shape false cs'
  stores : Memory.StoresIn (Touched cs cs') m m'
  threaded : ThreadedRun m cs → ThreadedRun m' cs'

theorem wrappingSub_eq {a b : Nat} (le : b ≤ a) (small : a < 2 ^ 64) : wrappingSub a b = a - b := by
  unfold wrappingSub
  omega

theorem allocWhole_spec (h : Heap base stop t m lists (pre ++ { c with free := false } :: after :: rest))
    (shape : Shape false (pre ++ c :: after :: rest)) (free : c.free = true) :
    Heap base stop t (setPrevFree m (nextPhys m c.addr) false) lists
        (pre ++ { c with free := false } :: { after with prev := false } :: rest) ∧
      Allocated (pre ++ c :: after :: rest) m c.addr c.size
        (pre ++ { c with free := false } :: { after with prev := false } :: rest)
        (setPrevFree m (nextPhys m c.addr) false) := by
  have next : nextPhys m c.addr = after.addr := h.next_addr
  have assoc (y : Chunk) : pre ++ { c with free := false } :: y :: rest =
      (pre ++ [{ c with free := false }]) ++ y :: rest := by simp
  have moved := h
  rw [assoc] at moved
  obtain ⟨heap, kept⟩ := moved.mark false
  rw [← assoc] at heap
  rw [← assoc] at kept
  obtain ⟨blocks, fits, tail⟩ := (shape_around (by simp)).mp shape
  have start := fits.after_used free
  have addrs : Addrs (pre ++ { c with free := false } :: after :: rest) =
      Addrs (pre ++ c :: after :: rest) := addrs_replace rfl
  rw [next]
  refine ⟨heap, ⟨⟨c, by simp, free, rfl⟩, ⟨{ c with free := false }, by simp, rfl, rfl, rfl,
    fits.prev.trans start⟩, fun b u => ?_, fun e he ef => ?_, ?_, ?_, fun threaded => ?_⟩⟩
  · have nonzero : c.size ≠ 0 := by
      have low := fits.low
      omega
    rw [used_live (c := { c with free := false }) rfl nonzero, used_retag, used_free free]
  · rw [free] at tail
    rcases mem_replace he with rfl | he | he
    · exact Or.inl rfl
    · exact Or.inr (List.mem_append_left _ he)
    · cases List.mem_cons.mp he with
      | inl here => rw [here, tail.head_used] at ef; cases ef
      | inr he => exact Or.inr (by simp [he])
  · refine (shape_around (by simp)).mpr ⟨blocks, ⟨fits.low, fits.prev, fun _ => rfl⟩, ?_⟩
    rw [free] at tail
    exact tail.retag tail.head_used false
  · exact kept.stores.mono fun a ha => Or.inl (by rwa [addrs] at ha)
  · have same : (pre ++ { c with free := false } :: { after with prev := false } :: rest).map Chunk.addr =
        (pre ++ c :: after :: rest).map Chunk.addr := by simp
    unfold ThreadedRun at threaded ⊢
    rw [same]
    refine threaded.congr fun a ha => ?_
    obtain ⟨e, he, rfl⟩ := List.mem_map.mp ha
    exact kept.prevPhys e.addr (by rw [addrs]; exact ⟨e, he, rfl⟩)

theorem allocCut_spec {r : Nat} (h : Heap base stop t m lists
      (pre ++ { c with free := false } :: after :: rest))
    (shape : Shape false (pre ++ c :: after :: rest)) (free : c.free = true)
    (sum : c.size = n + headerSize + r) (hn : 8 ∣ n) (least : 32 ≤ n) (low : 32 ≤ r) :
    ∃ t' m' lists', t.splitBlock m c.addr n (r + headerSize) = .ok (t', m') ∧
      Heap base stop t' (setPrevFree m' (nextPhys m' c.addr) false) lists'
        (pre ++ { c with size := n, free := false } ::
          ⟨c.addr + headerSize + n, r, true, false⟩ :: after :: rest) ∧
      Allocated (pre ++ c :: after :: rest) m c.addr n
        (pre ++ { c with size := n, free := false } ::
          ⟨c.addr + headerSize + n, r, true, false⟩ :: after :: rest)
        (setPrevFree m' (nextPhys m' c.addr) false) := by
  obtain ⟨t', m', lists', run, heap, stores, thread⟩ := allocSplit_spec h rfl sum hn low
  simp only at run heap stores thread
  obtain ⟨x, x_def⟩ : ∃ x : Chunk, x = ⟨c.addr + headerSize + n, r, true, false⟩ := ⟨_, rfl⟩
  rw [← x_def] at heap stores thread ⊢
  have next : nextPhys m' c.addr = x.addr := heap.next_addr
  have assoc : pre ++ { c with size := n, free := false } :: x :: after :: rest =
      (pre ++ [{ c with size := n, free := false }]) ++ x :: after :: rest := by simp
  have moved := heap
  rw [assoc] at moved
  obtain ⟨heap', kept⟩ := moved.mark false
  have retag : { x with prev := false } = x := by rw [x_def]
  rw [retag, ← assoc] at heap'
  rw [← assoc] at kept
  obtain ⟨blocks, fits, tail⟩ := (shape_around (by simp)).mp shape
  have start := fits.after_used free
  have addrs : Addrs (pre ++ { c with free := false } :: after :: rest) =
      Addrs (pre ++ c :: after :: rest) := addrs_replace rfl
  have x_free : x.free = true := by rw [x_def]
  refine ⟨t', m', lists', run, by rwa [next], ?_⟩
  rw [next]
  refine ⟨⟨c, by simp, free, rfl⟩, ⟨{ c with size := n, free := false }, by simp, rfl, rfl, rfl,
    fits.prev.trans start⟩, fun b u => ?_, fun e he _ => ?_, ?_, ?_, fun threaded => ?_⟩
  · have nonzero : n ≠ 0 := by omega
    rw [used_live (c := { c with size := n, free := false }) rfl nonzero, used_free x_free,
      used_free free]
  · rcases mem_replace he with rfl | he | he
    · exact Or.inl rfl
    · exact Or.inr (List.mem_append_left _ he)
    · exact Or.inr (by simp [List.mem_cons.mp he])
  · refine (shape_around (by simp)).mpr ⟨blocks, ⟨least, fits.prev, fun _ => rfl⟩, ?_⟩
    rw [free] at tail
    refine (shape_cons (by simp)).mpr ⟨⟨?_, ?_, fun p => absurd p Bool.false_ne_true⟩, ?_⟩
    · rw [x_def]
      exact low
    · rw [x_def]
    · rw [x_free]
      exact tail
  · exact (stores.trans kept.stores).mono fun a ha => Or.inr ha
  · have before : ThreadedRun m (pre ++ { c with free := false } :: after :: rest) := by
      unfold ThreadedRun at threaded ⊢
      simpa using threaded
    apply (thread before).congr
    intro a ha
    obtain ⟨e, he, rfl⟩ := List.mem_map.mp ha
    exact kept.prevPhys e.addr ⟨e, he, rfl⟩

theorem alloc_searched {size : Nat} {r : Option Nat × TlsfInner × Memory}
    (done : t.alloc m size = .ok r) :
    ∃ n k, roundSize size = .ok n ∧ mappingSearch n = .ok k ∧ k.1 < flIndexCount := by
  cases rounded : roundSize size with
  | error e => simp [alloc, rounded, bind, Except.bind] at done
  | ok n =>
    cases start : mappingSearch n with
    | error e => simp [alloc, findFree, rounded, start, bind, Except.bind] at done
    | ok k =>
      refine ⟨n, k, rfl, start, ?_⟩
      by_contra row
      simp [alloc, findFree, slBits, rounded, start, row, bind, Except.bind] at done

/-- `alloc` finds nothing and changes nothing, or hands out a block of at least the
rounded size that was free. -/
theorem alloc_spec (h : Heap base stop t m lists cs) (shape : Shape false cs)
    (rounded : roundSize size = .ok n) (start : mappingSearch n = .ok k)
    (row : k.1 < flIndexCount) :
    (t.alloc m size = .ok (none, t, m) ∧ ∀ d, ClassLe k d → lists d = []) ∨
    ∃ a s t' m' lists' cs', FirstFrom t k a ∧
      t.alloc m size = .ok (some (payload a), t', m') ∧
      n ≤ s ∧ Heap base stop t' m' lists' cs' ∧ Allocated cs m a s cs' m' := by
  obtain ⟨least, words, _, _⟩ := roundSize_spec rounded
  have indexed := h.classes.indexed
  rcases indexed.findFree_spec start row with ⟨none, empty⟩ | ⟨d, found, first⟩
  · left
    refine ⟨?_, empty⟩
    simp only [alloc, rounded, bind, Except.bind, none]
    rfl
  · right
    have first_fit := indexed.firstFrom first
    have listed := (indexed.head_mem first.some).1
    have fits := indexed.fits least start first.later listed
    generalize t.freeLists d.1 d.2 = a at found first_fit listed fits
    obtain ⟨c, hc, rfl⟩ := h.classes.headers listed
    have free : c.free = true := (h.filed c hc).mpr ⟨d, listed⟩
    have header := h.header c hc
    rw [header.size] at fits
    have small := h.size_lt hc
    have whole := h.sized c hc
    obtain ⟨pre, post, rfl⟩ := List.append_of_mem hc
    obtain ⟨after, rest, rfl⟩ := shape.follows (Or.inr free)
    obtain ⟨t₁, m₁, lists₁, taken, heap, kept⟩ := h.take free
    have size : blockSize m₁ c.addr = c.size := (heap.header { c with free := false } (by simp)).size
    have addrs : Addrs (pre ++ { c with free := false } :: after :: rest) =
        Addrs (pre ++ c :: after :: rest) := addrs_replace rfl
    have thread : ThreadedRun m (pre ++ c :: after :: rest) →
        ThreadedRun m₁ (pre ++ c :: after :: rest) := by
      intro threaded
      apply threaded.congr
      intro a ha
      obtain ⟨e, he, rfl⟩ := List.mem_map.mp ha
      exact kept.prevPhys e.addr ⟨e, he, rfl⟩
    have first : Memory.StoresIn (HeaderOf (Addrs (pre ++ c :: after :: rest))) m m₁ := kept.stores
    have remainder := wrappingSub_eq fits (by omega : c.size < 2 ^ 64)
    by_cases big : headerSize + blockMin ≤ c.size - n
    · obtain ⟨r, sum⟩ : ∃ r, c.size = n + headerSize + r :=
        ⟨c.size - n - headerSize, by unfold headerSize blockMin at *; omega⟩
      have low : 32 ≤ r := by unfold headerSize blockMin at *; omega
      obtain ⟨t₂, m₂, lists₂, split, heap₂, done⟩ :=
        allocCut_spec heap shape free sum words least low
      have rest_size : c.size - n = r + headerSize := by omega
      refine ⟨c.addr, n, t₂, _, lists₂, _, first_fit, ?_, Nat.le_refl n, heap₂, ?_⟩
      · rw [rest_size] at big remainder
        simp only [alloc, rounded, bind, Except.bind, found, taken, size, remainder, ge_iff_le, big,
          if_true, split]
        rfl
      · exact ⟨done.was_free, done.handed, done.used, done.others, done.shape,
          (first.mono fun a ha => Or.inl ha).trans done.stores, fun threaded => done.threaded (thread threaded)⟩
    · obtain ⟨heap₂, done⟩ := allocWhole_spec heap shape free
      refine ⟨c.addr, c.size, t₁, _, lists₁, _, first_fit, ?_, fits, heap₂, ?_⟩
      · simp only [alloc, rounded, bind, Except.bind, found, taken, size, remainder, ge_iff_le, big,
          if_false]
        rfl
      · exact ⟨done.was_free, done.handed, done.used, done.others, done.shape,
          (first.mono fun a ha => Or.inl ha).trans done.stores, fun threaded => done.threaded (thread threaded)⟩

end CrustyOs.Abalone.TlsfInner
