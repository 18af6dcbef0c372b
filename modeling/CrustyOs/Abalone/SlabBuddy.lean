import CrustyOs.Abalone.BuddySafety
import CrustyOs.Abalone.SlabOps

/-! The buddy allocator is a page source a slab cache can run on, whatever blocks
other clients hold. -/
namespace CrustyOs.Abalone.Slab
open Lib BuddyAllocator

/-- `buddy::alloc_pages` and `buddy::dealloc_pages`, the sources `SlabCacheInner::new` installs. -/
def buddySource : PageSource BuddyAllocator := ⟨allocPages, deallocPages⟩

/-- A buddy allocator with the blocks at the pages `mine` out to the cache and `others` to
everyone else, all its pages within the bitmaps and the address space. -/
structure Backed (order : Nat) (b : BuddyAllocator) (m : Memory) (lists : Nat → List Nat)
    (mine : List Nat) (others : List Block) (pages : Finset Nat) : Prop where
  inv : BuddyAllocator.Inv b m lists (mine.map (Block.mk order) ++ others) pages
  accounts : BuddyAllocator.Accounts b (mine.map (Block.mk order) ++ others) pages
  range : ∀ c ∈ mine.map (Block.mk order) ++ others, Bitmap.InRange c.order c.page
  within : ∀ x ∈ pages, x < Bitmap.capacity ∧ b.base + (x + 1) * pageSize ≤ 2 ^ 64

def BuddyReady (order : Nat) (b : BuddyAllocator) (m : Memory) (out : List Nat) : Prop :=
  ∃ lists mine others pages, Backed order b m lists mine others pages ∧ out = mine.map (node b.base)

variable {order : Nat} {b : BuddyAllocator} {m m' : Memory} {lists : Nat → List Nat}
  {mine : List Nat} {others : List Block} {pages : Finset Nat}

theorem slabBytes_small (hk : order < buddyMaxOrder) : slabBytes order = 2 ^ order * pageSize := by
  have low : 2 ^ order * pageSize < 2 ^ 64 := by
    have le : 2 ^ order ≤ 2 ^ 17 := Nat.pow_le_pow_right (by omega) (Nat.le_of_lt hk)
    unfold pageSize
    omega
  rw [slabBytes, Nat.shiftLeft_eq, Nat.mul_comm, Nat.mod_eq_of_lt low]

theorem Backed.placed (h : Backed order b m lists mine others pages) (hk : order < buddyMaxOrder) :
    Placed order (mine.map (node b.base)) where
  apart := by
    have single : ∀ x, heldCover (mine.map (Block.mk order) ++ others) x ≤ 1 := by
      intro x
      have total := h.inv.exact x
      split at total <;> omega
    have blocks := (List.pairwise_append.mp (pairwise_of_cover single)).1
    rw [List.pairwise_map] at blocks ⊢
    apply blocks.imp
    intro p q apart
    have firstOut := apart p
    have secondOut := apart q
    unfold Block.Has InBlock at firstOut secondOut
    simp only at firstOut secondOut
    have pos := Nat.two_pow_pos order
    unfold Beside node
    rw [slabBytes_small hk, Nat.add_assoc, Nat.add_assoc, ← Nat.add_mul, ← Nat.add_mul]
    have side : p + 2 ^ order ≤ q ∨ q + 2 ^ order ≤ p := by omega
    rcases side with le | le
    · exact Or.inl (Nat.add_le_add_left (Nat.mul_le_mul_right _ le) _)
    · exact Or.inr (Nat.add_le_add_left (Nat.mul_le_mul_right _ le) _)
  range := by
    intro x hx
    obtain ⟨p, hp, rfl⟩ := List.mem_map.mp hx
    have held : Block.mk order p ∈ mine.map (Block.mk order) ++ others :=
      List.mem_append_left _ (List.mem_map_of_mem hp)
    have pos := Nat.two_pow_pos order
    have last : p + 2 ^ order - 1 ∈ pages := by
      apply h.inv.held_mem held
      unfold Block.Has InBlock
      simp only
      omega
    have bound := (h.within _ last).2
    have based := h.inv.based _ last
    have up : p + 2 ^ order - 1 + 1 = p + 2 ^ order := by omega
    rw [up, Nat.add_mul] at bound
    unfold node
    rw [slabBytes_small hk]
    omega

theorem apart_outside (hk : order < buddyMaxOrder) {base a : Nat}
    (apart : Apart base (mine.map (Block.mk order) ++ others) a) : Outside order (mine.map (node base)) a := by
  intro x hx
  obtain ⟨p, hp, rfl⟩ := List.mem_map.mp hx
  have side := apart ⟨order, p⟩ (List.mem_append_left _ (List.mem_map_of_mem hp))
  unfold Block.start Block.stop at side
  unfold node
  rw [slabBytes_small hk, Nat.add_assoc, ← Nat.add_mul]
  exact side

theorem Backed.kept (h : Backed order b m lists mine others pages) (hk : order < buddyMaxOrder)
    (stores : Memory.StoresIn (fun a => ∃ x ∈ mine.map (node b.base), Inside order x a) m m') :
    Backed order b m' lists mine others pages := by
  have miss : ∀ k < buddyMaxOrder, ∀ p ∈ lists k, ∀ o ≤ 8,
      m'.read (node b.base p + o) = m.read (node b.base p + o) := by
    intro k hk' p hp o ho
    apply stores.read_eq
    rintro ⟨x, hx, low, high⟩
    obtain ⟨q, hq, rfl⟩ := List.mem_map.mp hx
    have out := h.inv.listed_apart_held hk' hp (List.mem_append_left _ (List.mem_map_of_mem hq)) (inBlock_self k p)
    unfold Block.Has InBlock at out
    simp only at out
    rw [slabBytes_small hk] at high
    unfold node at low high
    have side : p < q ∨ q + 2 ^ order ≤ p := by omega
    rcases side with lt | ge
    · unfold pageSize at *
      omega
    · have up := Nat.mul_le_mul_right pageSize ge
      rw [Nat.add_mul] at up
      unfold pageSize at *
      omega
  refine ⟨⟨fun k hk' => ?_, h.inv.parity, h.inv.listed_aligned, h.inv.held_aligned, h.inv.exact,
    h.inv.listed_range, h.inv.based⟩, h.accounts, h.range, h.within⟩
  apply (h.inv.linked k hk').congr
  · intro y hy
    obtain ⟨p, hp, rfl⟩ := List.mem_map.mp hy
    exact miss k hk' p hp 8 (Nat.le_refl _)
  · intro y hy
    obtain ⟨p, hp, rfl⟩ := List.mem_map.mp hy
    exact miss k hk' p hp 0 (Nat.zero_le _)

theorem buddy_backs (hk : order < buddyMaxOrder) : Backs buddySource order (BuddyReady order) where
  placed := by
    rintro b m out ⟨lists, mine, others, pages, backed, rfl⟩
    exact backed.placed hk
  serves := by
    rintro b m out ⟨lists, mine, others, pages, backed, rfl⟩
    rcases allocPages_spec backed.inv backed.accounts hk with ⟨run, _⟩ |
      ⟨p, b', m', lists', run, inv, acc, base, stores, range, _⟩ | ⟨_, x, hx, far⟩
    · exact ⟨none, b, m, run, .refl _ _, lists, mine, others, pages, backed, rfl⟩
    · refine ⟨some (node b.base p), b', m', run, stores.mono fun a => apart_outside hk,
        lists', p :: mine, others, pages, ⟨inv, acc, ?_, by rw [base]; exact backed.within⟩, by rw [base]; rfl⟩
      intro c hc
      cases hc with
      | head => exact range
      | tail _ hc => exact backed.range c hc
    · exact absurd (backed.within x hx).1 (Nat.not_lt_of_le far)
  takes := by
    rintro b m out x ⟨lists, mine, others, pages, backed, rfl⟩ hx
    obtain ⟨p, hp, rfl⟩ := List.mem_map.mp hx
    have here : Block.mk order p ∈ mine.map (Block.mk order) := List.mem_map_of_mem hp
    have held : Block.mk order p ∈ mine.map (Block.mk order) ++ others := List.mem_append_left _ here
    obtain ⟨b', m', lists', run, inv, acc, base, stores, _⟩ :=
      deallocPages_spec backed.inv backed.accounts held (backed.range _ held)
    have inj : Function.Injective (Block.mk order) := fun p q e => (Block.mk.inj e).2
    rw [List.erase_append_left _ here, ← List.map_erase inj] at inv acc stores
    rw [← List.map_erase (fun _ _ => node_inj.mp)]
    refine ⟨b', m', run, stores.mono fun a => apart_outside hk, lists', mine.erase p, others, pages,
      ⟨inv, acc, fun c hc => backed.range c ?_, by rw [base]; exact backed.within⟩, by rw [base]⟩
    rw [List.map_erase inj, ← List.erase_append_left _ here] at hc
    exact List.mem_of_mem_erase hc
  kept := by
    rintro b m m' out ⟨lists, mine, others, pages, backed, rfl⟩ stores
    exact ⟨lists, mine, others, pages, backed.kept hk stores, rfl⟩

theorem buddy_ready {s : BuddyAllocator.System} {base : Nat} {m : Memory}
    (set : BuddyAllocator.new.setBase base = .ok b)
    (run : Reach BuddyAllocator.exec (ValidWithin (2 ^ buddyMaxOrder)) (booted b m) s)
    (space : base + 2 ^ buddyMaxOrder * pageSize ≤ 2 ^ 64) : BuddyReady order s.buddy s.mem [] := by
  obtain ⟨same, lists, blocks, sound⟩ := BuddyAllocator.run_sound set (run.mono fun _ _ valid => valid.1)
  have below := pages_within set run
  have room : 2 ^ buddyMaxOrder ≤ Bitmap.capacity := by decide
  refine ⟨lists, [], blocks, s.pages, ⟨sound.inv, sound.accounts, sound.range, fun x hx => ⟨?_, ?_⟩⟩, rfl⟩
  · exact Nat.lt_of_lt_of_le (below x hx) room
  · have up : (x + 1) * pageSize ≤ 2 ^ buddyMaxOrder * pageSize := Nat.mul_le_mul_right _ (below x hx)
    rw [same]
    omega

end CrustyOs.Abalone.Slab
