import CrustyOs.Abalone.TlsfRuns
import CrustyOs.Lib.Ownership

/-! The heap beside other owners of memory: it reads its pool only, stores inside its pool
and outside the payloads that stay live, and hands out parts of its pool. -/
namespace CrustyOs.Abalone.TlsfInner
open Lib Tlsf

def payloadRange (m : Memory) (p : Nat) : ByteRange := ⟨p, blockSize m (p - headerSize)⟩

variable {base stop a : Nat} {s s' : System} {lists : Nat × Nat → List Nat} {cs : List Chunk} {m : Memory}
  {c : Chunk} {op : Op}

theorem payloadRange_chunk (header : c.Header m) : payloadRange m (payload c.addr) = ⟨payload c.addr, c.size⟩ := by
  have block : payload c.addr - headerSize = c.addr := Nat.add_sub_cancel _ _
  rw [payloadRange, block, header.size]

theorem header_in_pool (h : Tiles Chunk.addr Chunk.extent base cs stop) (word : HeaderOf (Addrs cs) a) :
    base ≤ a ∧ a + 8 ≤ stop := by
  obtain ⟨q, ⟨d, hd, rfl⟩, low, high⟩ := word
  have bounds := h.bounds hd
  unfold Chunk.extent headerSize at bounds
  omega

namespace Sound

theorem kept (h : Sound base stop s lists cs) (same : ∀ a, base ≤ a → a + 8 ≤ stop → m.read a = s.mem.read a) :
    Sound base stop { s with mem := m } lists cs := by
  have read : ∀ a, Addrs cs a → ∀ i ≤ 24, m.read (a + i) = s.mem.read (a + i) := by
    intro a ha i hi
    have inside := header_in_pool h.heap.tiles (headerOf_field ha hi)
    exact same _ inside.1 inside.2
  have word : ∀ a, Addrs cs a → sizeWord m a = sizeWord s.mem a := fun a ha => read a ha 0 (by decide)
  refine ⟨⟨⟨h.heap.tiles, ?_, fun d hd => ?_, h.heap.sized, h.heap.based, h.heap.small⟩,
    h.heap.filed⟩, h.shape, h.live, h.nodup⟩
  · apply h.heap.classes.congr (fun _ _ ha => h.heap.classes.headers ha)
    intro k a ha
    have inside := h.heap.classes.headers ha
    exact ⟨(readings (word a inside)).1, read a inside 16 (by decide), read a inside 24 (by decide)⟩
  · exact (h.heap.header d hd).congr (word d.addr ⟨d, hd, rfl⟩)

theorem live_range (h : Sound base stop s lists cs) {p : Nat} (hp : p ∈ s.live) :
    ∃ c ∈ cs, c.free = false ∧ c.size ≠ 0 ∧ payload c.addr = p ∧ payloadRange s.mem p = ⟨p, c.size⟩ := by
  obtain ⟨c, hc, used, size, rfl⟩ := h.chunk_of_live hp
  exact ⟨c, hc, used, size, rfl, payloadRange_chunk (h.heap.header c hc)⟩

theorem owner (h : Sound base stop s lists cs) :
    Owner.Tidy ⟨[⟨base, stop - base⟩], s.live.map (payloadRange s.mem)⟩ where
  inside := by
    intro r hr
    obtain ⟨p, hp, rfl⟩ := List.mem_map.mp hr
    obtain ⟨c, hc, _, _, rfl, range⟩ := h.live_range hp
    have bounds := h.heap.tiles.bounds hc
    refine ⟨_, List.mem_singleton.mpr rfl, ?_⟩
    rw [range]
    unfold Chunk.extent at bounds
    unfold ByteRange.Within payload
    dsimp only
    omega
  apart := by
    rw [List.pairwise_map]
    apply h.nodup.imp_of_mem
    intro p q hp hq ne
    obtain ⟨c, hc, _, _, rfl, range⟩ := h.live_range hp
    obtain ⟨d, hd, _, _, rfl, range'⟩ := h.live_range hq
    have far := h.heap.tiles.apart hc hd fun same => ne (by rw [same])
    rw [range, range']
    unfold Chunk.extent at far
    unfold ByteRange.Apart payload
    dsimp only
    omega

theorem predecessor (h : Sound base stop s lists cs) (hc : c ∈ cs)
    (follows : FollowsPredecessor s (.dealloc (payload c.addr))) : PrevRight s.mem cs c := by
  have block : payload c.addr - headerSize = c.addr := Nat.add_sub_cancel _ _
  intro flag
  have bit : isPrevFree s.mem (payload c.addr - headerSize) = true := by
    rw [block, (h.heap.header c hc).prev, flag]
  obtain ⟨listed, next⟩ := follows bit
  rw [block] at listed next
  obtain ⟨d, hd, free, e⟩ := h.heap.onFreeList_iff.mp listed
  rw [← e, (h.heap.header d hd).nextPhys_eq] at next
  exact ⟨d, hd, free, e, next⟩

theorem header_off (h : Sound base stop s lists cs) (word : HeaderOf (Addrs cs) a) {p : Nat} (hp : p ∈ s.live) :
    (payloadRange s.mem p).Off a := by
  obtain ⟨c, hc, _, _, rfl, range⟩ := h.live_range hp
  rw [range]
  exact header_outside_payload h.heap.tiles hc word

end Sound

def PoolStores (base stop : Nat) (s s' : System) (a : Nat) : Prop :=
  (base ≤ a ∧ a + 8 ≤ stop) ∧ ∀ p ∈ s.live, p ∈ s'.live → (payloadRange s.mem p).Off a

/-- One operation: it returns, keeps the invariant, and the heap's own stores stay in its pool
and off what stays live. -/
theorem step_stores (h : Sound base stop s lists cs) (valid : Valid s op) (follows : FollowsPredecessor s op) :
    ∃ s' lists' cs', exec s op = .ok s' ∧ Sound base stop s' lists' cs' ∧
      ((∀ addr value, op ≠ .store addr value) → Memory.StoresIn (PoolStores base stop s s') s.mem s'.mem) := by
  obtain ⟨s', lists', cs', done, sound'⟩ := step_sound h valid follows
  refine ⟨s', lists', cs', done, sound', fun not_store => ?_⟩
  cases op with
  | alloc size =>
    have search : Searchable size := valid
    obtain ⟨n, k, rounded, start, row⟩ := search.classes
    rcases alloc_spec h.heap h.shape rounded start row with
      ⟨run, _⟩ | ⟨b, u, t', m', lists₁, cs₁, _, run, _, heap, allocated⟩
    · simp only [exec, bind, Except.bind, run] at done
      obtain rfl := Except.ok.inj done
      exact .refl _ _
    · simp only [exec, bind, Except.bind, run] at done
      obtain rfl := Except.ok.inj done
      apply allocated.stores.mono
      rintro a (old | new)
      · exact ⟨header_in_pool h.heap.tiles old, fun p hp _ => h.header_off old hp⟩
      · refine ⟨header_in_pool heap.tiles new, fun p hp _ => ?_⟩
        obtain ⟨c, hc, used, size, rfl, range⟩ := h.live_range hp
        -- the block is one of the new run as well
        obtain ⟨d, hd, _, _, same, length⟩ := (allocated.used c.addr c.size).mpr
          (Or.inr ⟨c, hc, used, size, rfl, rfl⟩)
        have outside := header_outside_payload heap.tiles hd new
        rw [same, length] at outside
        rw [range]
        exact outside
  | dealloc ptr =>
    obtain ⟨c, hc, used, size, rfl⟩ := h.chunk_of_live valid
    have right := h.predecessor hc follows
    obtain ⟨t', m', lists₁, cs₁, run, heap, released⟩ := dealloc_spec h.heap h.shape hc used size right
    simp only [exec, bind, Except.bind, run] at done
    obtain rfl := Except.ok.inj done
    apply released.stores.mono
    intro a word
    exact ⟨header_in_pool h.heap.tiles word, fun p hp _ => h.header_off word hp⟩
  | store addr value => exact absurd rfl (not_store addr value)

theorem addPool_stores {size : Nat} {t : TlsfInner} {m' : Memory} (based : base ≠ 0) (words : 8 ∣ size)
    (limit : size < 2 ^ 64) (pool : TlsfInner.new.addPool m base size = .ok (t, m')) :
    Memory.StoresIn (fun a => base ≤ a ∧ a + 8 ≤ base + size) m m' := by
  obtain ⟨_, checked, filing⟩ := ok_of_bind pool
  have big : 2 * headerSize + blockMin < size := of_decide_eq_true (of_require checked)
  have layout := poolStores_layout m base based words big (addPool_lt words limit pool)
  have whole : Layout base (base + size) TlsfInner.new (poolStores m base size) (fun _ => [])
      ([] ++ ⟨base, size - 2 * headerSize, false, false⟩ ::
        [⟨base + (size - headerSize), 0, false, false⟩]) := layout
  have filed : ∀ e, e ∈ ([] : List Chunk) ∨ e ∈ [(⟨base + (size - headerSize), 0, false, false⟩ : Chunk)] →
      Filed (fun _ => []) e := by
    rintro e (he | he)
    · exact absurd he List.not_mem_nil
    · obtain rfl := List.mem_singleton.mp he
      exact iff_of_false Bool.false_ne_true (by simp)
  unfold headerSize blockMin at big
  obtain ⟨t', m'', lists, run, _, kept⟩ := whole.put (by simp) filed (by unfold headerSize; dsimp only; omega)
    (List.cons_ne_nil _ _)
  obtain ⟨rfl, rfl⟩ := Prod.mk.inj (Except.ok.inj (run.symm.trans filing))
  have first : Memory.StoresIn (fun a => base ≤ a ∧ a + 8 ≤ base + size) m (poolStores m base size) := by
    unfold poolStores setPrevFree writeHeader headerSize
    repeat' apply Memory.StoresIn.write
    · exact .refl _ _
    all_goals constructor <;> omega
  exact first.trans (kept.stores.mono fun a word => header_in_pool layout.tiles word)

theorem stores_in_pool (h : Sound base stop s lists cs) (valid : Valid s op) (follows : FollowsPredecessor s op)
    (done : exec s op = .ok s') : Memory.StoresIn (fun a => base ≤ a ∧ a + 8 ≤ stop) s.mem s'.mem := by
  by_cases store : ∃ addr value, op = .store addr value
  · obtain ⟨addr, value, rfl⟩ := store
    obtain rfl := Except.ok.inj done
    obtain ⟨p, hp, low, high⟩ := valid
    obtain ⟨q, hq, inside⟩ := h.owner.inside _ (List.mem_map_of_mem hp)
    obtain rfl := List.mem_singleton.mp hq
    have whole := (h.heap.tiles.le : base ≤ stop)
    unfold ByteRange.Within payloadRange at inside
    dsimp only at inside
    exact (Memory.StoresIn.refl _ _).write value ⟨by omega, by omega⟩
  · obtain ⟨s₁, _, _, run, _, stores⟩ := step_stores h valid follows
    obtain rfl := Except.ok.inj (run.symm.trans done)
    exact (stores fun addr value e => store ⟨addr, value, e⟩).mono fun a inside => inside.1

end CrustyOs.Abalone.TlsfInner
