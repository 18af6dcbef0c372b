import CrustyOs.Abalone.TlsfAlloc

/-! What `dealloc` does to the run of chunks, provided the freed block's
`prev_phys` is right whenever `dealloc` follows it. -/
namespace CrustyOs.Abalone.TlsfInner
open Lib Tlsf

variable {base stop : Nat} {t : TlsfInner} {m : Memory} {lists : Nat × Nat → List Nat}
  {cs pre post rest : List Chunk} {c d after : Chunk}

/-- The predecessor that `dealloc` would merge with is the free chunk that ends where
this one starts. -/
def PrevRight (m : Memory) (cs : List Chunk) (c : Chunk) : Prop :=
  c.prev = true → ∃ d ∈ cs, d.free = true ∧ d.addr = prevPhys m c.addr ∧
    d.addr + d.extent = c.addr

theorem last_before (h : Heap base stop t m lists (pre ++ c :: post)) (hd : d ∈ pre ++ c :: post)
    (ends : d.addr + d.extent = c.addr) : ∃ front, pre = front ++ [d] := by
  have before : d ∈ pre := by
    obtain ⟨_, later⟩ := h.beside
    rcases mem_replace hd with rfl | hd | hd
    · unfold Chunk.extent headerSize at ends
      omega
    · exact hd
    · have le := later d hd
      unfold Chunk.extent headerSize at le ends
      omega
  obtain ⟨front, tail, rfl⟩ := List.append_of_mem before
  cases tail with
  | nil => exact ⟨front, rfl⟩
  | cons e tail =>
    -- a chunk in between would start where `c` does
    have fill := h.tiles
    rw [List.append_assoc] at fill
    obtain ⟨p, _, first, second, _⟩ := Tiles.append.mp fill
    have same : e.addr = c.addr := by omega
    exact absurd same (h.other_addr (Or.inl (by simp)))

/-- The state between the two merges: a block in hand whose predecessor is not free. -/
structure InHand (base stop : Nat) (t : TlsfInner) (m : Memory) (lists : Nat × Nat → List Nat)
    (pre : List Chunk) (c : Chunk) (post : List Chunk) : Prop where
  heap : Heap base stop t m lists (pre ++ c :: post)
  blocks : Blocks false pre
  alone : leave false pre = false
  fits : c.Fits false
  used : c.free = false

theorem mergePrev_spec (h : Heap base stop t m lists (pre ++ c :: post))
    (shape : Shape false (pre ++ c :: post)) (used : c.free = false) (size : c.size ≠ 0)
    (right : PrevRight m (pre ++ c :: post) c) :
    ∃ pre₁ c₁ t₁ m₁ lists₁, t.mergePrev m c.addr = .ok (c₁.addr, t₁, m₁) ∧
      InHand base stop t₁ m₁ lists₁ pre₁ c₁ post ∧
      (∀ post a s, Used (pre₁ ++ post) a s ↔ Used (pre ++ post) a s) ∧
      (∀ a, Addrs (pre₁ ++ c₁ :: post) a → Addrs (pre ++ c :: post) a) ∧
      c₁.addr ≤ c.addr ∧ c.addr + c.extent = c₁.addr + c₁.extent ∧
      Memory.StoresIn (HeaderOf (Addrs (pre ++ c :: post))) m m₁ := by
  obtain ⟨after, rest, rfl⟩ := shape.follows (Or.inl size)
  obtain ⟨blocks, fits, _⟩ := (shape_around (by simp)).mp shape
  have header := h.header c (by simp)
  cases flag : c.prev with
  | false =>
    have alone : leave false pre = false := fits.prev.symm.trans flag
    refine ⟨pre, c, t, m, lists, ?_, ⟨h, blocks, alone, alone ▸ fits, used⟩, fun _ _ _ => Iff.rfl,
      fun _ ha => ha, Nat.le_refl _, rfl, .refl _ m⟩
    have bit : isPrevFree m c.addr = false := header.prev.trans flag
    simp only [mergePrev, bit]
    rfl
  | true =>
    obtain ⟨d, hd, free, here, ends⟩ := right flag
    obtain ⟨front, rfl⟩ := last_before h hd ends
    have place (d : Chunk) (post : List Chunk) : (front ++ [d]) ++ post = front ++ d :: post := by simp
    rw [place] at h
    obtain ⟨blocks, fits_d⟩ := blocks_append_one.mp blocks
    have alone : leave false front = false := by
      by_contra p
      rw [fits_d.apart (by simpa using p)] at free
      cases free
    obtain ⟨t₁, m₁, lists₁, taken, heap₁, kept₁⟩ := h.take free
    obtain ⟨heap₂, kept₂⟩ := heap₁.join rfl used
    simp only at heap₂ kept₂
    have size_d : blockSize m₁ d.addr = d.size :=
      (heap₁.header { d with free := false } (by simp)).size
    have size_c : blockSize m₁ c.addr = c.size := (heap₁.header c (by simp)).size
    have small : d.size + headerSize + c.size < 2 ^ 64 := by
      have bound := h.size_lt (c := d) (by simp)
      have bound' := h.size_lt (c := c) (by simp)
      unfold headerSize
      omega
    have addrs : Addrs (front ++ { d with free := false } :: c :: after :: rest) =
        Addrs (front ++ d :: c :: after :: rest) := addrs_replace rfl
    refine ⟨front, { d with size := d.size + headerSize + c.size, free := false }, t₁, _, lists₁, ?_,
      ⟨heap₂, blocks, alone, ⟨?_, ?_, fun _ => rfl⟩, rfl⟩, fun post a s => ?_, fun a ha => ?_, ?_, ?_, ?_⟩
    · have bit : isPrevFree m c.addr = true := header.prev.trans flag
      simp only [mergePrev, bit, if_true, ← here, bind, Except.bind, taken, size_d, size_c,
        checkedAdd_lt small]
      rfl
    · exact fits_d.low.trans (by simp only; omega)
    · exact fits_d.prev.trans alone
    · rw [place, used_free free]
    · obtain ⟨e, he, rfl⟩ := ha
      rcases mem_replace he with rfl | he
      · exact ⟨d, by simp, rfl⟩
      · exact ⟨e, by rcases he with he | he <;> simp [he], rfl⟩
    · unfold Chunk.extent headerSize at ends
      simp only
      omega
    · rw [← ends]
      simp only [Chunk.extent]
      omega
    · rw [place]
      exact kept₁.stores.trans (by rw [← addrs]; exact kept₂.stores)

theorem mergeNext_spec (h : InHand base stop t m lists pre c (after :: rest))
    (shape : Shape false (after :: rest)) :
    ∃ c₁ after₁ rest₁ t₁ m₁ lists₁, t.mergeNext m c.addr = .ok (t₁, m₁) ∧
      InHand base stop t₁ m₁ lists₁ pre c₁ (after₁ :: rest₁) ∧
      c₁.addr = c.addr ∧ c.extent ≤ c₁.extent ∧
      after₁.free = false ∧ (∃ p, Shape p (after₁ :: rest₁)) ∧
      (∀ a s, Used (pre ++ after₁ :: rest₁) a s ↔ Used (pre ++ after :: rest) a s) ∧
      (∀ a, Addrs (pre ++ c₁ :: after₁ :: rest₁) a → Addrs (pre ++ c :: after :: rest) a) ∧
      Memory.StoresIn (HeaderOf (Addrs (pre ++ c :: after :: rest))) m m₁ := by
  have next : nextPhys m c.addr = after.addr := h.heap.next_addr
  have flag : isFree m after.addr = after.free := (h.heap.header after (by simp)).free
  cases free : after.free with
  | false =>
    refine ⟨c, after, rest, t, m, lists, ?_, h, rfl, Nat.le_refl _, free, ⟨false, shape⟩,
      fun _ _ => Iff.rfl, fun _ ha => ha, .refl _ m⟩
    simp only [mergeNext, next, flag, free]
    rfl
  | true =>
    have shape₀ : Shape false ([] ++ after :: rest) := shape
    obtain ⟨after₁, rest₁, rfl⟩ := shape₀.follows (Or.inr free)
    obtain ⟨fits, tail⟩ := shape
    rw [free] at tail
    have assoc (y : Chunk) (post : List Chunk) : pre ++ c :: y :: post = (pre ++ [c]) ++ y :: post := by
      simp
    have moved := h.heap
    rw [assoc] at moved
    obtain ⟨t₁, m₁, lists₁, taken, heap₁, kept₁⟩ := moved.take free
    rw [← assoc] at heap₁ kept₁
    obtain ⟨heap₂, kept₂⟩ := heap₁.join h.used rfl
    simp only at heap₂ kept₂
    have size_c : blockSize m₁ c.addr = c.size := (heap₁.header c (by simp)).size
    have size_n : blockSize m₁ after.addr = after.size :=
      (heap₁.header { after with free := false } (by simp)).size
    have small : c.size + headerSize + after.size < 2 ^ 64 := by
      have bound := h.heap.size_lt (c := c) (by simp)
      have bound' := h.heap.size_lt (c := after) (by simp)
      unfold headerSize
      omega
    have addrs : Addrs (pre ++ c :: { after with free := false } :: after₁ :: rest₁) =
        Addrs (pre ++ c :: after :: after₁ :: rest₁) := by
      rw [assoc, assoc]
      exact addrs_replace rfl
    refine ⟨{ c with size := c.size + headerSize + after.size }, after₁, rest₁, t₁, _, lists₁, ?_,
      ⟨heap₂, h.blocks, h.alone, ⟨?_, h.fits.prev, fun _ => h.used⟩, h.used⟩, rfl, ?_,
      tail.head_used, ⟨true, tail⟩, fun a s => ?_, fun a ha => ?_, ?_⟩
    · simp only [mergeNext, next, flag, free, if_true, bind, Except.bind, taken, size_c, size_n,
        checkedAdd_lt small]
      rfl
    · have low := h.fits.low
      simp only
      omega
    · simp only [Chunk.extent]
      omega
    · rw [used_free free]
    · obtain ⟨e, he, rfl⟩ := ha
      rcases mem_replace he with rfl | he
      · exact ⟨c, by simp, rfl⟩
      · refine ⟨e, ?_, rfl⟩
        rcases he with he | he
        · simp [he]
        · have later : e = after₁ ∨ e ∈ rest₁ := List.mem_cons.mp he
          rcases later with rfl | later
          · simp
          · simp [later]
    · exact kept₁.stores.trans (by rw [← addrs]; exact kept₂.stores)

structure Released (cs : List Chunk) (m : Memory) (c : Chunk) (cs' : List Chunk) (m' : Memory) :
    Prop where
  used : ∀ b u, Used cs' b u ↔ b ≠ c.addr ∧ Used cs b u
  shape : Shape false cs'
  free : ∃ d ∈ cs', d.free = true ∧ d.addr ≤ c.addr ∧ c.addr + c.extent ≤ d.addr + d.extent
  stores : Memory.StoresIn (HeaderOf (Addrs cs)) m m'

theorem dealloc_spec (h : Heap base stop t m lists cs) (shape : Shape false cs) (hc : c ∈ cs)
    (used : c.free = false) (size : c.size ≠ 0) (right : PrevRight m cs c) :
    ∃ t' m' lists' cs', t.dealloc m (payload c.addr) = .ok (t', m') ∧
      Heap base stop t' m' lists' cs' ∧ Released cs m c cs' m' := by
  obtain ⟨pre, post, rfl⟩ := List.append_of_mem hc
  obtain ⟨after, rest, rfl⟩ := shape.follows (Or.inl size)
  obtain ⟨_, _, tail⟩ := (shape_around (by simp)).mp shape
  rw [used] at tail
  obtain ⟨pre₁, c₁, t₁, m₁, lists₁, back, hand₁, used₁, addrs₁, below, ends, stores₁⟩ :=
    mergePrev_spec h shape used size right
  obtain ⟨c₂, after₂, rest₂, t₂, m₂, lists₂, forth, hand₂, same, wide, last_used, ⟨p, tail₂⟩, used₂,
    addrs₂, stores₂⟩ := mergeNext_spec hand₁ tail
  have fresh := hand₂.heap.unlisted (by simp) hand₂.used
  obtain ⟨t₃, m₃, lists₃, filed, heap₃, kept₃⟩ :=
    hand₂.heap.put fresh (fun e he => hand₂.heap.filed e (mem_around he)) hand₂.fits.low
      (List.cons_ne_nil _ _)
  have next : nextPhys m₃ c₂.addr = after₂.addr := heap₃.next_addr
  have assoc (y : Chunk) : pre₁ ++ { c₂ with free := true } :: y :: rest₂ =
      (pre₁ ++ [{ c₂ with free := true }]) ++ y :: rest₂ := by simp
  have moved := heap₃
  rw [assoc] at moved
  obtain ⟨heap₄, kept₄⟩ := moved.mark true
  rw [← assoc] at heap₄ kept₄
  have addrs₃ : Addrs (pre₁ ++ { c₂ with free := true } :: after₂ :: rest₂) =
      Addrs (pre₁ ++ c₂ :: after₂ :: rest₂) := addrs_replace rfl
  refine ⟨t₃, setPrevFree m₃ after₂.addr true, lists₃, _, ?_, heap₄, ⟨fun b u => ?_, ?_, ?_, ?_⟩⟩
  · have block : payload c.addr - headerSize = c.addr := Nat.add_sub_cancel _ _
    rw [same] at filed next
    simp only [dealloc, block, bind, Except.bind, back, forth, filed, next]
    rfl
  · have others : Used (pre ++ after :: rest) b u → b ≠ c.addr := by
      rintro ⟨e, he, _, _, rfl, _⟩
      exact h.other_addr (List.mem_append.mp he)
    rw [used_free (c := { c₂ with free := true }) rfl, used_retag, used₂, used₁, used_live used size]
    constructor
    · exact fun live => ⟨others live, Or.inr live⟩
    · rintro ⟨ne, here | live⟩
      · exact absurd here.1 ne
      · exact live
  · have fits : Chunk.Fits (leave false pre₁) { c₂ with free := true } := by
      refine ⟨hand₂.fits.low, hand₂.fits.prev.trans hand₂.alone.symm, fun p => ?_⟩
      rw [hand₂.alone] at p
      cases p
    exact (shape_around (by simp)).mpr ⟨hand₂.blocks, fits, tail₂.retag last_used true⟩
  · refine ⟨{ c₂ with free := true }, by simp, rfl, ?_, ?_⟩
    · exact same ▸ below
    · have extent : Chunk.extent { c₂ with free := true } = c₂.extent := rfl
      rw [extent, ends]
      simp only [same]
      omega
  · have within : ∀ a, HeaderOf (Addrs (pre₁ ++ c₂ :: after₂ :: rest₂)) a →
        HeaderOf (Addrs (pre ++ c :: after :: rest)) a := by
      rintro a ⟨q, hq, inside⟩
      exact ⟨q, addrs₁ q (addrs₂ q hq), inside⟩
    have mid := stores₂.mono fun a ⟨q, hq, inside⟩ => (⟨q, addrs₁ q hq, inside⟩ : HeaderOf _ a)
    have third := kept₃.stores.mono within
    have fourth := kept₄.stores
    rw [addrs₃] at fourth
    exact ((stores₁.trans mid).trans third).trans (fourth.mono within)

end CrustyOs.Abalone.TlsfInner
