import CrustyOs.Abalone.BuddyRegion
import CrustyOs.Lib.Runs

/-! Whole runs of the buddy allocator: any interleaving of registrations,
allocations, deallocations, and stores of the clients to what they own. -/
namespace CrustyOs.Abalone.BuddyAllocator
open Lib

/-- A pointer `alloc_pages` returned, with the order it was asked for. -/
structure Allocation where
  ptr : Nat
  order : Nat
  deriving DecidableEq, Repr

/-- The allocator in its memory, with the history's live blocks and registered
pages beside it. -/
structure System where
  buddy : BuddyAllocator
  mem : Memory
  live : List Allocation
  pages : Finset Nat

inductive Op where
  | addRegion (virtBase pageCount : Nat)
  | allocPages (order : Nat)
  | deallocPages (ptr order : Nat)
  | store (addr value : Nat)

def exec (s : System) : Op → Except Panic System
  | .addRegion virtBase pageCount => do
    let (buddy, mem) ← s.buddy.addRegion s.mem virtBase pageCount
    return { s with buddy, mem, pages := s.pages ∪ regionPages s.buddy.base virtBase pageCount }
  | .allocPages order => do
    let (ptr, buddy, mem) ← s.buddy.allocPages s.mem order
    match ptr with
    | none => return { s with buddy, mem }
    | some ptr => return { s with buddy, mem, live := ⟨ptr, order⟩ :: s.live }
  | .deallocPages ptr order => do
    let (buddy, mem) ← s.buddy.deallocPages s.mem ptr order
    return { s with buddy, mem, live := s.live.erase ⟨ptr, order⟩ }
  | .store addr value => return { s with mem := s.mem.write addr value }

def Valid (s : System) : Op → Prop
  | .addRegion virtBase pageCount => s.buddy.base ≠ 0 ∧ s.buddy.base ≤ virtBase ∧
      virtBase % pageSize = 0 ∧ ∀ x ∈ regionPages s.buddy.base virtBase pageCount, x ∉ s.pages
  | .allocPages order => order < buddyMaxOrder
  | .deallocPages ptr order => (⟨ptr, order⟩ : Allocation) ∈ s.live
  | .store addr _ => ∃ a ∈ s.live, a.ptr ≤ addr ∧ addr + 8 ≤ a.ptr + 2 ^ a.order * pageSize

def Op.registers (s : System) : Op → Finset Nat
  | .addRegion virtBase pageCount => regionPages s.buddy.base virtBase pageCount
  | _ => ∅

/-- A registered region ends at most `limit` pages above the base. -/
def Within (limit : Nat) (s : System) (op : Op) : Prop := ∀ x ∈ op.registers s, x < limit

def ValidWithin (limit : Nat) (s : System) (op : Op) : Prop := Valid s op ∧ Within limit s op

def Settled (s : System) (op : Op) : Prop := Valid s op ∧ ∀ virtBase n, op ≠ .addRegion virtBase n

instance (s : System) (op : Op) : Decidable (Valid s op) := by
  cases op <;> unfold Valid <;> infer_instance

instance (limit : Nat) (s : System) (op : Op) : Decidable (ValidWithin limit s op) :=
  inferInstanceAs (Decidable (_ ∧ ∀ x ∈ op.registers s, x < limit))

instance (s : System) : (op : Op) → Decidable (Settled s op)
  | .addRegion virtBase n => .isFalse fun h => h.2 virtBase n rfl
  | .allocPages order => decidable_of_iff (Valid s (.allocPages order)) (by simp [Settled])
  | .deallocPages ptr order => decidable_of_iff (Valid s (.deallocPages ptr order)) (by simp [Settled])
  | .store addr value => decidable_of_iff (Valid s (.store addr value)) (by simp [Settled])

def booted (buddy : BuddyAllocator) (mem : Memory) : System := ⟨buddy, mem, [], ∅⟩

def Allocation.of (base : Nat) (b : Block) : Allocation := ⟨b.start base, b.order⟩

theorem Allocation.of_inj (base : Nat) : Function.Injective (Allocation.of base) := by
  rintro ⟨k, p⟩ ⟨j, q⟩ h
  simp only [Allocation.of, Block.start, Allocation.mk.injEq] at h
  obtain ⟨start, rfl⟩ := h
  have page : p = q := by unfold pageSize at start; omega
  rw [page]

structure Sound (s : System) (lists : Nat → List Nat) (blocks : List Block) : Prop where
  inv : Inv s.buddy s.mem lists blocks s.pages
  accounts : Accounts s.buddy blocks s.pages
  live : s.live = blocks.map (Allocation.of s.buddy.base)
  range : ∀ b ∈ blocks, Bitmap.InRange b.order b.page

variable {s s' : System} {lists : Nat → List Nat} {blocks : List Block}

/-- Stores that leave alone whatever is live on both sides of an operation. -/
def OutsideLive (s s' : System) (addr : Nat) : Prop :=
  ∀ a ∈ s.live, a ∈ s'.live → addr + 8 ≤ a.ptr ∨ a.ptr + 2 ^ a.order * pageSize ≤ addr

theorem apart_outsideLive {kept : List Block} (base : Nat)
    (both : ∀ a ∈ s.live, a ∈ s'.live → a ∈ kept.map (Allocation.of base)) (addr : Nat)
    (h : Apart base kept addr) : OutsideLive s s' addr := by
  intro a ha ha'
  obtain ⟨b, hb, rfl⟩ := List.mem_map.mp (both a ha ha')
  have stop : b.stop base = b.start base + 2 ^ b.order * pageSize := by
    unfold Block.stop Block.start; ring
  have apart := h b hb
  rwa [stop] at apart

theorem Linked.store {m : Memory} {base addr value head : Nat} {xs : List Nat}
    (h : Linked (nextOf m) (prevOf m) head (xs.map (node base)))
    (off : ∀ p ∈ xs, node base p ≠ addr ∧ node base p + 8 ≠ addr) :
    Linked (nextOf (m.write addr value)) (prevOf (m.write addr value)) head (xs.map (node base)) := by
  apply h.congr
  · intro y hy
    obtain ⟨p, hp, rfl⟩ := List.mem_map.mp hy
    exact Memory.read_write_other m value (off p hp).2
  · intro y hy
    obtain ⟨p, hp, rfl⟩ := List.mem_map.mp hy
    exact Memory.read_write_other m value (off p hp).1

structure Effect (s : System) (lists : Nat → List Nat) (op : Op) (s' : System)
    (lists' : Nat → List Nat) : Prop where
  base : s'.buddy.base = s.buddy.base
  stores : (∀ addr value, op ≠ .store addr value) →
    Memory.StoresIn (OutsideLive s s') s.mem s'.mem
  pages : s'.pages = s.pages ∪ op.registers s
  coalesced : (∀ virtBase n, op ≠ .addRegion virtBase n) → NoBuddies lists → NoBuddies lists'

def Op.reaches (s : System) : Op → Finset Nat
  | .addRegion virtBase pageCount => regionPages s.buddy.base virtBase pageCount
  | .allocPages _ => s.pages
  | _ => ∅

theorem store_sound {addr value : Nat} (h : Sound s lists blocks)
    (valid : Valid s (.store addr value)) :
    Sound { s with mem := s.mem.write addr value } lists blocks := by
  obtain ⟨a, ha, low, high⟩ := valid
  obtain ⟨c, hc, rfl⟩ := List.mem_map.mp (h.live ▸ ha)
  refine ⟨⟨fun k hk => ?_, h.inv.parity, h.inv.listed_aligned, h.inv.held_aligned, h.inv.exact,
    h.inv.listed_range, h.inv.based⟩, h.accounts, h.live, h.range⟩
  apply Linked.store (h.inv.linked k hk)
  -- the client's block holds no node of a listed block
  intro p hp
  have out := h.inv.listed_apart_held hk hp hc (inBlock_self k p)
  simp only [Allocation.of, Block.start] at low high
  unfold Block.Has InBlock at out
  unfold node
  have side : p < c.page ∨ c.page + 2 ^ c.order ≤ p := by omega
  rcases side with lt | ge
  · unfold pageSize at *; omega
  · have := Nat.mul_le_mul_right pageSize ge
    rw [Nat.add_mul] at this
    unfold pageSize at *; omega

/-- One valid operation: it returns and keeps the invariant, or it reaches for a
page beyond the bitmaps' capacity and stops. -/
theorem step_sound {op : Op} (h : Sound s lists blocks) (valid : Valid s op) :
    (∃ s' lists' blocks', exec s op = .ok s' ∧ Sound s' lists' blocks' ∧ Effect s lists op s' lists') ∨
    exec s op = .error .indexOutOfBounds ∧ ∃ x ∈ op.reaches s, Bitmap.capacity ≤ x := by
  cases op with
  | addRegion virtBase pageCount =>
    obtain ⟨based, above, _, new⟩ := valid
    rcases addRegion_spec h.inv h.accounts based above new with
      ⟨b, m, lists', run, inv, acc, base, stores, _⟩ | ⟨out, far⟩
    · refine Or.inl ⟨⟨b, m, s.live, s.pages ∪ regionPages s.buddy.base virtBase pageCount⟩, lists',
        blocks, by simp only [exec, bind, Except.bind, run]; rfl,
        ⟨inv, acc, ?_, h.range⟩, base, fun _ => ?_, rfl, fun other => absurd rfl (other _ _)⟩
      · rw [base]; exact h.live
      · exact stores.mono (apart_outsideLive _ fun a ha _ => h.live ▸ ha)
    · exact Or.inr ⟨by simp only [exec, bind, Except.bind, out], far⟩
  | allocPages order =>
    rcases allocPages_spec h.inv h.accounts valid with ⟨run, _⟩ | ⟨p, b, m, lists', run, inv, acc,
      base, stores, range, keep⟩ | ⟨out, far⟩
    · exact Or.inl ⟨s, lists, blocks, by simp only [exec, bind, Except.bind, run]; rfl, h, rfl,
        fun _ => .refl _ _, (Finset.union_empty _).symm, fun _ => id⟩
    · refine Or.inl ⟨⟨b, m, ⟨node s.buddy.base p, order⟩ :: s.live, s.pages⟩, lists',
        ⟨order, p⟩ :: blocks, by simp only [exec, bind, Except.bind, run]; rfl,
        ⟨inv, acc, ?_, ?_⟩, base, fun _ => ?_, (Finset.union_empty _).symm, fun _ => keep⟩
      · simp only [List.map_cons, base, h.live]
        rfl
      · intro c hc
        rcases List.mem_cons.mp hc with rfl | hc
        · exact range
        · exact h.range c hc
      · exact stores.mono (apart_outsideLive _ fun a ha _ => h.live ▸ ha)
    · exact Or.inr ⟨by simp only [exec, bind, Except.bind, out], far⟩
  | deallocPages ptr order =>
    have mem : (⟨ptr, order⟩ : Allocation) ∈ blocks.map (Allocation.of s.buddy.base) := h.live ▸ valid
    obtain ⟨c, hc, e⟩ := List.mem_map.mp mem
    obtain ⟨rfl, rfl⟩ := Allocation.mk.inj e
    obtain ⟨b, m, lists', run, inv, acc, base, stores, keep⟩ :=
      deallocPages_spec h.inv h.accounts hc (h.range c hc)
    have erased : s.live.erase ⟨c.start s.buddy.base, c.order⟩ =
        (blocks.erase c).map (Allocation.of s.buddy.base) := by
      rw [h.live, List.map_erase (Allocation.of_inj _)]
      rfl
    refine Or.inl ⟨⟨b, m, s.live.erase ⟨c.start s.buddy.base, c.order⟩, s.pages⟩, lists',
      blocks.erase c, by simp only [exec, bind, Except.bind, run]; rfl,
      ⟨inv, acc, ?_, fun d hd => h.range d (List.mem_of_mem_erase hd)⟩, base, fun _ => ?_,
      (Finset.union_empty _).symm, fun _ => keep⟩
    · simp only [erased, base]
    · exact stores.mono (apart_outsideLive _ fun a _ ha => erased ▸ ha)
  | store addr value =>
    exact Or.inl ⟨_, lists, blocks, rfl, store_sound h valid, rfl, fun other => absurd rfl (other _ _),
      (Finset.union_empty _).symm, fun _ => id⟩

theorem step_kept {op : Op} (h : Sound s lists blocks) (valid : Valid s op)
    (done : exec s op = .ok s') :
    ∃ lists' blocks', Sound s' lists' blocks' ∧ Effect s lists op s' lists' := by
  rcases step_sound h valid with ⟨t, lists', blocks', run, sound, effect⟩ | ⟨out, _⟩
  · obtain rfl := Except.ok.inj (run.symm.trans done)
    exact ⟨lists', blocks', sound, effect⟩
  · rw [out] at done
    cases done

theorem setBase_ok {b : BuddyAllocator} {base : Nat} (h : BuddyAllocator.new.setBase base = .ok b) :
    b = { BuddyAllocator.new with base } := by
  unfold setBase require at h
  split at h
  · split at h
    · exact (Except.ok.inj h).symm
    · cases h
  · cases h

theorem listed_nil (x : Nat) : listed (fun _ => []) x = 0 := weight_empty fun _ _ => rfl

theorem new_inv (base : Nat) (m : Memory) :
    Inv { BuddyAllocator.new with base } m (fun _ => []) [] ∅ where
  linked _ _ := .nil
  parity _ _ i := by simp [new, Bitmap.new, Bitmap.bit]
  listed_aligned _ _ _ hp := absurd hp List.not_mem_nil
  held_aligned _ hb := absurd hb List.not_mem_nil
  exact x := by rw [listed_nil, if_neg (Finset.notMem_empty x)]; rfl
  listed_range _ _ _ hp := absurd hp List.not_mem_nil
  based _ hx := absurd hx (Finset.notMem_empty _)

theorem booted_sound {b : BuddyAllocator} {base : Nat} (m : Memory)
    (h : BuddyAllocator.new.setBase base = .ok b) : Sound (booted b m) (fun _ => []) [] := by
  rw [setBase_ok h]
  refine ⟨new_inv base m, ?_, rfl, by simp⟩
  constructor <;> simp [booted, new, AllocStats.zero, heldPages]

theorem run_sound {b : BuddyAllocator} {base : Nat} {m : Memory}
    (h : BuddyAllocator.new.setBase base = .ok b) (run : Reach exec Valid (booted b m) s) :
    s.buddy.base = base ∧ ∃ lists blocks, Sound s lists blocks := by
  apply run.invariant (I := fun s => s.buddy.base = base ∧ ∃ lists blocks, Sound s lists blocks)
  · exact ⟨by rw [setBase_ok h]; rfl, _, _, booted_sound m h⟩
  · rintro s op s' ⟨same, lists, blocks, sound⟩ valid done
    obtain ⟨lists', blocks', sound', effect⟩ := step_kept sound valid done
    exact ⟨effect.base.trans same, lists', blocks', sound'⟩

end CrustyOs.Abalone.BuddyAllocator
