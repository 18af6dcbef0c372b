import CrustyOs.Abalone.TlsfSearch
import CrustyOs.Lib.Tiling

/-! A TLSF pool as a run of chunks from its base to the end of its sentinel. The
primitive steps of `alloc` and `dealloc` each change the run at one place. -/
namespace CrustyOs.Abalone.TlsfInner
open Lib Tlsf

structure Chunk where
  addr : Nat
  size : Nat
  free : Bool
  prev : Bool
  deriving DecidableEq, Repr

namespace Chunk

def extent (c : Chunk) : Nat := headerSize + c.size

structure Header (m : Memory) (c : Chunk) : Prop where
  size : blockSize m c.addr = c.size
  free : isFree m c.addr = c.free
  prev : isPrevFree m c.addr = c.prev

theorem Header.congr {m m' : Memory} {c : Chunk} (h : c.Header m)
    (same : sizeWord m' c.addr = sizeWord m c.addr) : c.Header m' := by
  obtain ⟨size, free, prev⟩ := readings same
  exact ⟨size.trans h.size, free.trans h.free, prev.trans h.prev⟩

theorem Header.nextPhys_eq {m : Memory} {c : Chunk} (h : c.Header m) :
    nextPhys m c.addr = c.addr + c.extent := by
  rw [nextPhys, h.size, extent, Nat.add_assoc]

end Chunk

def Addrs (cs : List Chunk) (a : Nat) : Prop := ∃ c ∈ cs, c.addr = a

theorem addrs_replace {pre post : List Chunk} {c c' : Chunk} (same : c'.addr = c.addr) :
    Addrs (pre ++ c' :: post) = Addrs (pre ++ c :: post) := by
  funext a
  simp [Addrs, or_and_right, exists_or, same]

theorem spaced_of_tiles {base stop : Nat} {cs : List Chunk}
    (h : Tiles Chunk.addr Chunk.extent base cs stop) : Spaced (Addrs cs) := by
  rintro a b ⟨c, hc, rfl⟩ ⟨d, hd, rfl⟩ ne
  have apart := h.apart hc hd (fun same => ne (by rw [same]))
  unfold Chunk.extent headerSize at apart
  omega

/-- The run fills the pool and agrees with the headers, and the class lists are sound. -/
structure Layout (base stop : Nat) (t : TlsfInner) (m : Memory) (lists : Nat × Nat → List Nat)
    (cs : List Chunk) : Prop where
  tiles : Tiles Chunk.addr Chunk.extent base cs stop
  classes : ClassLists (Addrs cs) t m lists
  header : ∀ c ∈ cs, c.Header m
  sized : ∀ c ∈ cs, 8 ∣ c.size
  based : base ≠ 0
  small : stop < base + 2 ^ 30 + 2 * headerSize

/-- The chunk is on a list exactly when its header says so. -/
def Filed (lists : Nat × Nat → List Nat) (c : Chunk) : Prop :=
  c.free = true ↔ ∃ k, c.addr ∈ lists k

structure Heap (base stop : Nat) (t : TlsfInner) (m : Memory) (lists : Nat × Nat → List Nat)
    (cs : List Chunk) : Prop extends Layout base stop t m lists cs where
  filed : ∀ c ∈ cs, Filed lists c

/-- What a step leaves alone: the `prev_phys` words, and all but header words. -/
structure Kept (cs : List Chunk) (m m' : Memory) : Prop where
  prevPhys : ∀ a, Addrs cs a → prevPhys m' a = prevPhys m a
  stores : Memory.StoresIn (HeaderOf (Addrs cs)) m m'

namespace Layout

variable {base stop : Nat} {t t' : TlsfInner} {m m' : Memory} {lists : Nat × Nat → List Nat}
  {cs pre post : List Chunk} {c d e : Chunk} {a s : Nat} {f : Bool}

theorem spaced (h : Layout base stop t m lists cs) : Spaced (Addrs cs) := spaced_of_tiles h.tiles

theorem addr_ne_zero (h : Layout base stop t m lists cs) (hc : c ∈ cs) : c.addr ≠ 0 := by
  have low := (h.tiles.bounds hc).1
  have based := h.based
  omega

theorem size_lt (h : Layout base stop t m lists cs) (hc : c ∈ cs) : c.size < 2 ^ 31 := by
  have inside := h.tiles.bounds hc
  have small := h.small
  unfold Chunk.extent at inside
  unfold headerSize at *
  omega

theorem beside (h : Layout base stop t m lists (pre ++ c :: post)) :
    (∀ e ∈ pre, e.addr + e.extent ≤ c.addr) ∧ ∀ e ∈ post, c.addr + c.extent ≤ e.addr := by
  have order := List.pairwise_append.mp h.tiles.ordered
  refine ⟨fun e he => order.2.2 e he c (by simp), fun e he => ?_⟩
  exact (List.pairwise_cons.mp order.2.1).1 e he

theorem block_lt (h : Layout base stop t m lists (pre ++ c :: post)) (more : post ≠ []) : c.size < 2 ^ 30 := by
  obtain ⟨d, hd⟩ := List.exists_mem_of_ne_nil post more
  have after := h.beside.2 d hd
  have first := (h.tiles.bounds (by simp : c ∈ pre ++ c :: post)).1
  have last := (h.tiles.bounds (by simp [hd] : d ∈ pre ++ c :: post)).2
  have small := h.small
  unfold Chunk.extent at after last
  unfold headerSize at *
  omega

theorem other_addr (h : Layout base stop t m lists (pre ++ c :: post)) (he : e ∈ pre ∨ e ∈ post) :
    e.addr ≠ c.addr := by
  obtain ⟨before, after⟩ := h.beside
  cases he with
  | inl he =>
    have le := before e he
    unfold Chunk.extent headerSize at le
    omega
  | inr he =>
    have le := after e he
    unfold Chunk.extent headerSize at le
    omega

theorem inner_addr (h : Layout base stop t m lists (pre ++ c :: post)) {x : Nat} (low : c.addr < x)
    (high : x < c.addr + c.extent) (he : e ∈ pre ++ c :: post) : e.addr ≠ x := by
  obtain ⟨before, after⟩ := h.beside
  cases List.mem_append.mp he with
  | inl he =>
    have le := before e he
    unfold Chunk.extent headerSize at le
    omega
  | inr he =>
    cases List.mem_cons.mp he with
    | inl same =>
      rw [same]
      omega
    | inr he =>
      have le := after e he
      omega

theorem next_addr (h : Layout base stop t m lists (pre ++ c :: d :: post)) :
    nextPhys m c.addr = d.addr := by
  obtain ⟨p, _, rest⟩ := Tiles.append.mp h.tiles
  obtain ⟨first, second, _⟩ := rest
  rw [(h.header c (by simp)).nextPhys_eq, second, first]

end Layout

theorem mem_replace {pre post : List Chunk} {c e : Chunk} (he : e ∈ pre ++ c :: post) :
    e = c ∨ e ∈ pre ∨ e ∈ post := by
  cases List.mem_append.mp he with
  | inl he => exact Or.inr (Or.inl he)
  | inr he => exact (List.mem_cons.mp he).imp_right Or.inr

theorem mem_around {pre post : List Chunk} {c e : Chunk} (he : e ∈ pre ∨ e ∈ post) :
    e ∈ pre ++ c :: post := by
  cases he with
  | inl he => exact List.mem_append_left _ he
  | inr he => exact List.mem_append_right _ (List.mem_cons_of_mem _ he)

theorem listed_push {lists : Nat × Nat → List Nat} {k : Nat × Nat} {x a : Nat} (ne : a ≠ x) :
    (∃ j, a ∈ Function.update lists k (x :: lists k) j) ↔ ∃ j, a ∈ lists j := by
  apply exists_congr
  intro j
  by_cases e : j = k
  · subst e
    simp [ne]
  · rw [Function.update_of_ne e]

theorem listed_erase {lists : Nat × Nat → List Nat} {k : Nat × Nat} {x a : Nat} (ne : a ≠ x) :
    (∃ j, a ∈ Function.update lists k ((lists k).erase x) j) ↔ ∃ j, a ∈ lists j := by
  apply exists_congr
  intro j
  by_cases e : j = k
  · subst e
    rw [Function.update_self, List.mem_erase_of_ne ne]
  · rw [Function.update_of_ne e]

namespace Layout

variable {base stop : Nat} {t t' : TlsfInner} {m m' : Memory} {lists : Nat × Nat → List Nat}
  {cs pre post : List Chunk} {c d e : Chunk} {a s : Nat} {f : Bool}

theorem replace {lists' : Nat × Nat → List Nat}
    (h : Layout base stop t m lists (pre ++ c :: post)) (c' : Chunk) (addr : c'.addr = c.addr)
    (size : c'.size = c.size) (classes : ClassLists (Addrs (pre ++ c :: post)) t' m' lists')
    (here : c'.Header m')
    (kept : ∀ e, e ∈ pre ∨ e ∈ post → sizeWord m' e.addr = sizeWord m e.addr) :
    Layout base stop t' m' lists' (pre ++ c' :: post) := by
  refine ⟨?_, ?_, ?_, ?_, h.based, h.small⟩
  · have fill := h.tiles
    have one (c : Chunk) : pre ++ c :: post = pre ++ ([c] ++ post) := rfl
    rw [one] at fill ⊢
    apply fill.exchange
    intro p q inner
    have extent : c'.extent = c.extent := by rw [Chunk.extent, Chunk.extent, size]
    exact ⟨addr.trans inner.1, by rw [extent]; exact inner.2⟩
  · rwa [addrs_replace addr]
  · intro e he
    rcases mem_replace he with rfl | he
    · exact here
    · exact (h.header e (mem_around he)).congr (kept e he)
  · intro e he
    rcases mem_replace he with rfl | he
    · rw [size]
      exact h.sized c (by simp)
    · exact h.sized e (mem_around he)

theorem put (h : Layout base stop t m lists (pre ++ c :: post)) (fresh : ∀ k, c.addr ∉ lists k)
    (filed : ∀ e, e ∈ pre ∨ e ∈ post → Filed lists e) (low : 32 ≤ c.size) (more : post ≠ []) :
    ∃ t' m' lists', t.insertFree m c.addr = .ok (t', m') ∧
      Heap base stop t' m' lists' (pre ++ { c with free := true } :: post) ∧
      Kept (pre ++ c :: post) m m' := by
  have hc : c ∈ pre ++ c :: post := by simp
  have inside : Addrs (pre ++ c :: post) c.addr := ⟨c, hc, rfl⟩
  have header := h.header c hc
  obtain ⟨t', m', run, classes, kept⟩ := insertFree_spec h.spaced h.classes inside
    (h.addr_ne_zero hc) fresh (by rw [header.size]; exact low)
    (by rw [header.size]; exact h.block_lt more) rfl
  obtain ⟨size, flag, prev⟩ := setFree_readings m c.addr true
  obtain ⟨size', flag', prev'⟩ := readings (kept.size c.addr inside)
  refine ⟨t', m', Function.update lists (classOf (blockSize m c.addr))
    (c.addr :: lists (classOf (blockSize m c.addr))), run, ⟨?_, fun e he => ?_⟩,
    ⟨kept.prevPhys, kept.stores⟩⟩
  · apply h.replace { c with free := true } rfl rfl classes
    · exact ⟨size'.trans (size.trans header.size), flag'.trans flag,
        prev'.trans (prev.trans header.prev)⟩
    · intro e he
      rw [kept.size e.addr ⟨e, mem_around he, rfl⟩]
      exact (setFree_reads h.spaced inside ⟨e, mem_around he, rfl⟩ true).1 (h.other_addr he)
  · rcases mem_replace he with rfl | he
    · exact iff_of_true rfl ⟨_, by rw [Function.update_self]; exact List.mem_cons_self ..⟩
    · exact (filed e he).trans (listed_push (h.other_addr he)).symm

theorem classes_size_store (h : Layout base stop t m lists (pre ++ c :: post)) (v : Nat)
    {S' : Nat → Prop} (inside : ∀ k, ∀ a ∈ lists k, S' a)
    (same : (∃ k, c.addr ∈ lists k) → blockSize (m.write c.addr v) c.addr = blockSize m c.addr) :
    ClassLists S' t (m.write c.addr v) lists := by
  apply h.classes.congr inside
  intro k a ha
  obtain ⟨size, _, next, prev⟩ := h.spaced.size_store (m := m) (v := v)
    (⟨c, by simp, rfl⟩ : Addrs _ c.addr) (h.classes.headers ha)
  refine ⟨?_, next, prev⟩
  by_cases e : a = c.addr
  · rw [e]
    exact same ⟨k, e ▸ ha⟩
  · exact (readings (size.trans (if_neg e))).1

theorem kept_size_store (h : Layout base stop t m lists (pre ++ c :: post)) (v : Nat) :
    Kept (pre ++ c :: post) m (m.write c.addr v) := by
  have inside : Addrs (pre ++ c :: post) c.addr := ⟨c, by simp, rfl⟩
  refine ⟨fun a ha => (h.spaced.size_store inside ha).2.1, ?_⟩
  exact (Memory.StoresIn.refl _ m).write v ⟨c.addr, inside, Nat.le_refl _, by omega⟩

theorem size_store_other (h : Layout base stop t m lists (pre ++ c :: post)) (v : Nat)
    (he : e ∈ pre ∨ e ∈ post) : sizeWord (m.write c.addr v) e.addr = sizeWord m e.addr := by
  obtain ⟨word, _⟩ := h.spaced.size_store (m := m) (v := v) (⟨c, by simp, rfl⟩ : Addrs _ c.addr)
    ⟨e, mem_around he, rfl⟩
  exact word.trans (if_neg (h.other_addr he))

end Layout

namespace Heap

variable {base stop : Nat} {t t' : TlsfInner} {m m' : Memory} {lists : Nat × Nat → List Nat}
  {cs pre post : List Chunk} {c d e : Chunk} {a s : Nat} {f : Bool}

theorem take (h : Heap base stop t m lists (pre ++ c :: post)) (free : c.free = true) :
    ∃ t' m' lists', t.removeFree m c.addr = .ok (t', m') ∧
      Heap base stop t' m' lists' (pre ++ { c with free := false } :: post) ∧
      Kept (pre ++ c :: post) m m' := by
  have hc : c ∈ pre ++ c :: post := by simp
  have inside : Addrs (pre ++ c :: post) c.addr := ⟨c, hc, rfl⟩
  obtain ⟨k, hk⟩ := (h.filed c hc).mp free
  obtain ⟨t', m', run, classes, kept⟩ := removeFree_spec h.spaced h.classes hk
  obtain ⟨size, flag, prev⟩ := setFree_readings m c.addr false
  obtain ⟨size', flag', prev'⟩ := readings (kept.size c.addr inside)
  have header := h.header c hc
  refine ⟨t', m', Function.update lists k ((lists k).erase c.addr), run, ⟨?_, fun e he => ?_⟩,
    ⟨kept.prevPhys, kept.stores⟩⟩
  · apply h.replace { c with free := false } rfl rfl classes
    · exact ⟨size'.trans (size.trans header.size), flag'.trans flag,
        prev'.trans (prev.trans header.prev)⟩
    · intro e he
      rw [kept.size e.addr ⟨e, mem_around he, rfl⟩]
      exact (setFree_reads h.spaced inside ⟨e, mem_around he, rfl⟩ false).1 (h.other_addr he)
  · rcases mem_replace he with rfl | he
    · have gone : ¬ ∃ j, c.addr ∈ Function.update lists k ((lists k).erase c.addr) j := by
        rintro ⟨j, hj⟩
        by_cases e : j = k
        · subst e
          rw [Function.update_self] at hj
          exact ((h.classes.linked j).nodup.mem_erase_iff.mp hj).1 rfl
        · rw [Function.update_of_ne e] at hj
          exact e ((h.classes.own_class hj).trans (h.classes.own_class hk).symm)
      exact iff_of_false Bool.false_ne_true gone
    · exact (h.filed e (mem_around he)).trans (listed_erase (h.other_addr he)).symm

theorem unlisted (h : Heap base stop t m lists cs) (hc : c ∈ cs) (used : c.free = false) :
    ∀ k, c.addr ∉ lists k := by
  intro k hk
  have free := (h.filed c hc).mpr ⟨k, hk⟩
  rw [used] at free
  cases free

theorem mark (h : Heap base stop t m lists (pre ++ c :: post)) (f : Bool) :
    Heap base stop t (setPrevFree m c.addr f) lists (pre ++ { c with prev := f } :: post) ∧
      Kept (pre ++ c :: post) m (setPrevFree m c.addr f) := by
  obtain ⟨size, flag, prev⟩ := setPrevFree_readings m c.addr f
  have header := h.header c (by simp)
  have classes := h.classes_size_store _ (fun _ _ ha => h.classes.headers ha) fun _ => size
  refine ⟨⟨?_, fun e he => ?_⟩, h.kept_size_store _⟩
  · apply h.replace { c with prev := f } rfl rfl classes
    · exact ⟨size.trans header.size, flag.trans header.free, prev⟩
    · exact fun e he => h.size_store_other _ he
  · rcases mem_replace he with rfl | he
    · exact h.filed c (by simp)
    · exact h.filed e (mem_around he)

theorem join (h : Heap base stop t m lists (pre ++ c :: d :: post)) (used : c.free = false)
    (used' : d.free = false) :
    Heap base stop t (setSize m c.addr (c.size + headerSize + d.size)) lists
        (pre ++ { c with size := c.size + headerSize + d.size } :: post) ∧
      Kept (pre ++ c :: d :: post) m (setSize m c.addr (c.size + headerSize + d.size)) := by
  have hc : c ∈ pre ++ c :: d :: post := by simp
  have hd : d ∈ pre ++ c :: d :: post := by simp
  have small : c.size + headerSize + d.size < 2 ^ 64 := by
    have bound := h.size_lt hc
    have bound' := h.size_lt hd
    unfold headerSize
    omega
  have words : 8 ∣ c.size + headerSize + d.size :=
    Nat.dvd_add (Nat.dvd_add (h.sized c hc) (by decide)) (h.sized d hd)
  obtain ⟨size, flag, prev⟩ := setSize_readings m c.addr words small
  have header := h.header c hc
  have addrs : ∀ k, ∀ a ∈ lists k,
      Addrs (pre ++ { c with size := c.size + headerSize + d.size } :: post) a := by
    intro k a ha
    obtain ⟨e, he, rfl⟩ := h.classes.headers ha
    rcases mem_replace he with rfl | before | after
    · exact ⟨_, List.mem_append_right _ (List.mem_cons_self ..), rfl⟩
    · exact ⟨e, List.mem_append_left _ before, rfl⟩
    · cases List.mem_cons.mp after with
      | inl same => exact absurd (same ▸ ha) (h.unlisted hd used' k)
      | inr after => exact ⟨e, List.mem_append_right _ (List.mem_cons_of_mem _ after), rfl⟩
  refine ⟨⟨⟨?_, ?_, ?_, ?_, h.based, h.small⟩, ?_⟩, h.kept_size_store _⟩
  · have fill := h.tiles
    have two : pre ++ c :: d :: post = pre ++ ([c, d] ++ post) := rfl
    have one (c : Chunk) : pre ++ c :: post = pre ++ ([c] ++ post) := rfl
    rw [two] at fill
    rw [one]
    apply fill.exchange
    rintro p q ⟨first, second, last⟩
    refine ⟨first, ?_⟩
    have extent : p + Chunk.extent { c with size := c.size + headerSize + d.size } =
        p + c.extent + d.extent := by
      simp only [Chunk.extent]
      omega
    exact extent.trans last
  · refine h.classes_size_store _ addrs fun listed => ?_
    obtain ⟨k, hk⟩ := listed
    exact absurd hk (h.unlisted hc used k)
  · intro e he
    rcases mem_replace he with rfl | he
    · exact ⟨size, flag.trans header.free, prev.trans header.prev⟩
    · have he : e ∈ pre ∨ e ∈ d :: post := he.imp_right (List.mem_cons_of_mem _)
      exact (h.header e (mem_around he)).congr (h.size_store_other _ he)
  · intro e he
    rcases mem_replace he with rfl | he
    · exact words
    · exact h.sized e (mem_around (he.imp_right (List.mem_cons_of_mem _)))
  · intro e he
    rcases mem_replace he with rfl | he
    · exact h.filed c hc
    · exact h.filed e (mem_around (he.imp_right (List.mem_cons_of_mem _)))

/-- The stores that cut a chunk in hand in two, before the tail is filed. The tail's
header is written over whatever was there, so its free bit is still the old one. -/
def cutStores (m : Memory) (block next size tail : Nat) : Memory :=
  setPrevFree ((setSize (setSize m block size) next tail).write (next + 8) block) next false

theorem cutStores_reads {S : Nat → Prop} {block next : Nat} (m : Memory) (size tail : Nat) (sp : Spaced S)
    (at_block : S block) (at_next : S next) :
    (∀ q, S q → nextFree (cutStores m block next size tail) q = nextFree m q ∧
      prevFree (cutStores m block next size tail) q = prevFree m q) ∧
    (∀ q, S q → q ≠ next → sizeWord (cutStores m block next size tail) q = sizeWord (setSize m block size) q ∧
      prevPhys (cutStores m block next size tail) q = prevPhys m q) ∧
    prevPhys (cutStores m block next size tail) next = block := by
  have first (q : Nat) (hq : S q) (v : Nat) := sp.size_store (m := m) (v := v) at_block hq
  have second (q : Nat) (hq : S q) (v : Nat) := sp.size_store (m := setSize m block size) (v := v) at_next hq
  have third (q : Nat) (hq : S q) := sp.field_store (m := setSize (setSize m block size) next tail) (i := 8)
    (v := block) (by decide) (by decide) at_next hq
  have fourth (q : Nat) (hq : S q) (v : Nat) := sp.size_store
    (m := (setSize (setSize m block size) next tail).write (next + 8) block) (v := v) at_next hq
  refine ⟨fun q hq => ⟨?_, ?_⟩, fun q hq ne => ⟨?_, ?_⟩, ?_⟩
  · exact (fourth q hq _).2.2.1.trans ((third q hq).2.2.1.trans ((if_neg (by simp)).trans
      ((second q hq _).2.2.1.trans (first q hq _).2.2.1)))
  · exact (fourth q hq _).2.2.2.trans ((third q hq).2.2.2.trans ((if_neg (by simp)).trans
      ((second q hq _).2.2.2.trans (first q hq _).2.2.2)))
  · exact (fourth q hq _).1.trans ((if_neg ne).trans ((third q hq).1.trans
      ((second q hq _).1.trans (if_neg ne))))
  · exact (fourth q hq _).2.1.trans ((third q hq).2.1.trans ((if_neg fun both => ne both.1).trans
      ((second q hq _).2.1.trans (first q hq _).2.1)))
  · exact (fourth next at_next _).2.1.trans ((third next at_next).2.1.trans (if_pos ⟨rfl, rfl⟩))

/-- The header that the stores write at the cut: its size, and that the chunk before it is used. -/
theorem cutStores_tail {S : Nat → Prop} {next tail : Nat} (m : Memory) (block size : Nat) (sp : Spaced S)
    (at_next : S next) (words : 8 ∣ tail) (small : tail < 2 ^ 64) :
    ∃ f, Chunk.Header (cutStores m block next size tail) ⟨next, tail, f, false⟩ := by
  have middle := sp.field_store (m := setSize (setSize m block size) next tail) (i := 8) (v := block) (by decide)
    (by decide) at_next at_next
  obtain ⟨size', flag, prev⟩ :=
    setPrevFree_readings ((setSize (setSize m block size) next tail).write (next + 8) block) next false
  have kept := (readings middle.1).1
  have tail_size := (setSize_readings (setSize m block size) next words small).1
  exact ⟨_, size'.trans (kept.trans tail_size), flag, prev⟩

theorem cut_tiles {n r : Nat} {f : Bool} (h : Heap base stop t m lists (pre ++ c :: post))
    (sum : c.size = n + headerSize + r) : Tiles Chunk.addr Chunk.extent base
      (pre ++ { c with size := n } :: ⟨c.addr + headerSize + n, r, f, false⟩ :: post) stop := by
  have whole := h.tiles
  have one (c : Chunk) : pre ++ c :: post = pre ++ ([c] ++ post) := rfl
  have two (c d : Chunk) : pre ++ c :: d :: post = pre ++ ([c, d] ++ post) := rfl
  rw [one] at whole
  rw [two]
  apply whole.exchange
  rintro p q ⟨first, last⟩
  refine ⟨first, ?_, ?_⟩
  · rw [← first]
    simp only [Chunk.extent]
    omega
  · have extent : p + Chunk.extent { c with size := n } + Chunk.extent ⟨c.addr + headerSize + n, r, f, false⟩ =
        p + c.extent := by
      simp only [Chunk.extent, sum]
      omega
    exact extent.trans last

theorem cut {n r : Nat} (h : Heap base stop t m lists (pre ++ c :: post)) (used : c.free = false)
    (sum : c.size = n + headerSize + r) (hn : 8 ∣ n) (hr : 8 ∣ r) :
    ∃ f, Layout base stop t (cutStores m c.addr (c.addr + headerSize + n) n r) lists
        (pre ++ { c with size := n } :: ⟨c.addr + headerSize + n, r, f, false⟩ :: post) ∧
      prevPhys (cutStores m c.addr (c.addr + headerSize + n) n r) (c.addr + headerSize + n) =
        c.addr ∧
      (∀ e ∈ pre ++ c :: post, prevPhys (cutStores m c.addr (c.addr + headerSize + n) n r) e.addr =
        prevPhys m e.addr) ∧
      Memory.StoresIn (HeaderOf (Addrs (pre ++ { c with size := n } ::
        ⟨c.addr + headerSize + n, r, f, false⟩ :: post))) m
        (cutStores m c.addr (c.addr + headerSize + n) n r) := by
  have hc : c ∈ pre ++ c :: post := by simp
  have small : n < 2 ^ 64 ∧ r < 2 ^ 64 := by
    have bound := h.size_lt hc
    omega
  -- the tail's free bit is whatever the bytes at the cut said before
  have found : ∃ f, Spaced (Addrs (pre ++ { c with size := n } :: ⟨c.addr + headerSize + n, r, f, false⟩ :: post)) ∧
      Chunk.Header (cutStores m c.addr (c.addr + headerSize + n) n r) ⟨c.addr + headerSize + n, r, f, false⟩ := by
    have sp := spaced_of_tiles (h.cut_tiles (f := false) sum)
    obtain ⟨f, header⟩ := cutStores_tail m c.addr n sp
      ⟨⟨c.addr + headerSize + n, r, false, false⟩, by simp, rfl⟩ hr small.2
    exact ⟨f, spaced_of_tiles (h.cut_tiles sum), header⟩
  obtain ⟨f, sp, header⟩ := found
  obtain ⟨x, x_def⟩ : ∃ x, x = c.addr + headerSize + n := ⟨_, rfl⟩
  have fill := h.cut_tiles (f := f) sum
  rw [← x_def] at fill sp header ⊢
  have in_c : Addrs (pre ++ { c with size := n } :: ⟨x, r, f, false⟩ :: post) c.addr :=
    ⟨{ c with size := n }, by simp, rfl⟩
  have in_x : Addrs (pre ++ { c with size := n } :: ⟨x, r, f, false⟩ :: post) x :=
    ⟨⟨x, r, f, false⟩, by simp, rfl⟩
  have in_e : ∀ e, e ∈ pre ∨ e ∈ post →
      Addrs (pre ++ { c with size := n } :: ⟨x, r, f, false⟩ :: post) e.addr := by
    rintro e (he | he)
    · exact ⟨e, by simp [he], rfl⟩
    · exact ⟨e, by simp [he], rfl⟩
  have off : ∀ e ∈ pre ++ c :: post, e.addr ≠ x := by
    have pos : headerSize = 32 := rfl
    have extent : c.extent = headerSize + c.size := rfl
    exact fun e he => h.inner_addr (by omega) (by omega) he
  obtain ⟨links, kept, thread⟩ := cutStores_reads m n r sp in_c in_x
  have others : ∀ e, e ∈ pre ∨ e ∈ post →
      sizeWord (cutStores m c.addr x n r) e.addr = sizeWord m e.addr := fun e he =>
    (kept e.addr (in_e e he) (off e (mem_around he))).1.trans (h.size_store_other _ he)
  refine ⟨f, ⟨fill, ?_, ?_, ?_, h.based, h.small⟩, thread, fun e he => ?_, ?_⟩
  · have listed : ∀ k, ∀ a ∈ lists k, ∃ e, (e ∈ pre ∨ e ∈ post) ∧ e.addr = a := by
      intro k a ha
      obtain ⟨e, he, rfl⟩ := h.classes.headers ha
      rcases mem_replace he with rfl | he
      · exact absurd ha (h.unlisted hc used k)
      · exact ⟨e, he, rfl⟩
    apply h.classes.congr
    · intro k a ha
      obtain ⟨e, he, rfl⟩ := listed k a ha
      exact in_e e he
    · intro k a ha
      obtain ⟨e, he, rfl⟩ := listed k a ha
      exact ⟨(readings (others e he)).1, links _ (in_e e he)⟩
  · intro e he
    rcases mem_replace he with rfl | he
    · obtain ⟨size, flag, prev⟩ := setSize_readings m c.addr hn small.1
      obtain ⟨size', flag', prev'⟩ := readings (kept c.addr in_c (off c hc)).1
      have old := h.header c hc
      exact ⟨size'.trans size, flag'.trans (flag.trans old.free), prev'.trans (prev.trans old.prev)⟩
    · have he : e = ⟨x, r, f, false⟩ ∨ e ∈ pre ∨ e ∈ post := by
        rcases he with he | he
        · exact Or.inr (Or.inl he)
        · exact (List.mem_cons.mp he).imp_right Or.inr
      rcases he with rfl | he
      · exact header
      · exact (h.header e (mem_around he)).congr (others e he)
  · intro e he
    rcases mem_replace he with rfl | he
    · exact hn
    · rcases he with he | he
      · exact h.sized e (mem_around (Or.inl he))
      · rcases List.mem_cons.mp he with rfl | he
        · exact hr
        · exact h.sized e (mem_around (Or.inr he))
  · have here : Addrs (pre ++ { c with size := n } :: ⟨x, r, f, false⟩ :: post) e.addr := by
      rcases mem_replace he with rfl | he
      · exact in_c
      · exact in_e e he
    exact (kept _ here (off e he)).2
  · have at_c : HeaderOf (Addrs (pre ++ { c with size := n } :: ⟨x, r, f, false⟩ :: post)) c.addr :=
      ⟨c.addr, in_c, Nat.le_refl _, by omega⟩
    have at_x : HeaderOf (Addrs (pre ++ { c with size := n } :: ⟨x, r, f, false⟩ :: post)) x :=
      ⟨x, in_x, Nat.le_refl _, by omega⟩
    exact ((((Memory.StoresIn.refl _ m).write _ at_c).write _ at_x).write _
      (headerOf_field in_x (by decide))).write _ at_x

end Heap
end CrustyOs.Abalone.TlsfInner
