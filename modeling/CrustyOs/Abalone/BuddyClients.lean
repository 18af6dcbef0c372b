import CrustyOs.Abalone.BuddyFootprint
import CrustyOs.Abalone.SlabBuddy
import CrustyOs.Lib.Ownership

/-! One buddy allocator and several clients, each with its own live blocks: what a client
stores to its blocks leaves the allocator's state alone, and the allocator serves one
client without a store to the blocks of the others. -/
namespace CrustyOs.Abalone.BuddyAllocator
open Lib

def Allocation.range (a : Allocation) : ByteRange := ⟨a.ptr, 2 ^ a.order * pageSize⟩

def Roomy (s : System) : Prop :=
  ∀ x ∈ s.pages, x < 2 ^ buddyMaxOrder ∧ s.buddy.base + (x + 1) * pageSize ≤ 2 ^ 64

variable {s s' : System} {lists : Nat → List Nat} {blocks : List Block} {m : Memory}

theorem Allocation.range_of (base : Nat) (c : Block) : (Allocation.of base c).range.start = c.start base ∧
    (Allocation.of base c).range.start + (Allocation.of base c).range.len = c.stop base := by
  unfold Allocation.of Allocation.range Block.start Block.stop
  rw [Nat.add_mul, ← Nat.add_assoc]
  exact ⟨rfl, rfl⟩

namespace Sound

theorem perm {live : List Allocation} (h : Sound s lists blocks) (e : s.live.Perm live) :
    ∃ blocks', Sound { s with live } lists blocks' := by
  have composed : Relation.Comp (fun xs ys => xs = ys.map (Allocation.of s.buddy.base)) List.Perm live blocks := by
    rw [List.eq_map_comp_perm]
    exact e.symm.trans (h.live ▸ .refl _)
  obtain ⟨blocks', live_eq, reordered⟩ := composed
  refine ⟨blocks', h.inv.perm reordered.symm, ?_, live_eq, fun c hc => h.range c (reordered.mem_iff.mp hc)⟩
  have count : heldPages blocks' = heldPages blocks :=
    (reordered.map fun c : Block => 2 ^ c.order).sum_eq
  exact ⟨h.accounts.totalPages, h.accounts.totalBytes, count ▸ h.accounts.usedBytes, h.accounts.freeBytes⟩

theorem ranges_apart (h : Sound s lists blocks) : (s.live.map Allocation.range).Pairwise ByteRange.Apart := by
  have single : ∀ x, heldCover blocks x ≤ 1 := by
    intro x
    have total := h.inv.exact x
    split at total <;> omega
  rw [h.live, List.map_map, List.pairwise_map]
  apply (pairwise_of_cover single).imp
  intro c d apart
  obtain ⟨start, stop⟩ := Allocation.range_of s.buddy.base c
  obtain ⟨start', stop'⟩ := Allocation.range_of s.buddy.base d
  have first := apart c.page
  have second := apart d.page
  have pos := Nat.two_pow_pos c.order
  have pos' := Nat.two_pow_pos d.order
  unfold Block.Has InBlock at first second
  unfold ByteRange.Apart
  simp only [Function.comp_apply]
  rw [stop, stop', start, start']
  unfold Block.start Block.stop
  have side : c.page + 2 ^ c.order ≤ d.page ∨ d.page + 2 ^ d.order ≤ c.page := by omega
  rcases side with le | le
  · exact Or.inl (Nat.add_le_add_left (Nat.mul_le_mul_right _ le) _)
  · exact Or.inr (Nat.add_le_add_left (Nat.mul_le_mul_right _ le) _)

theorem live_nodup (h : Sound s lists blocks) : s.live.Nodup := by
  have apart := h.ranges_apart
  rw [List.pairwise_map] at apart
  apply apart.imp
  rintro a b far rfl
  have pos := Nat.two_pow_pos a.order
  unfold ByteRange.Apart Allocation.range pageSize at far
  dsimp only at far
  omega

theorem range_pages (h : Sound s lists blocks) {a : Allocation} (ha : a ∈ s.live) :
    ∃ p, a.ptr = node s.buddy.base p ∧ ∀ x, InBlock a.order p x → x ∈ s.pages := by
  obtain ⟨c, hc, rfl⟩ := List.mem_map.mp (h.live ▸ ha)
  exact ⟨c.page, rfl, fun x hx => h.inv.held_mem hc hx⟩

theorem range_bounds (h : Sound s lists blocks) (roomy : Roomy s) {a : Allocation} (ha : a ∈ s.live) :
    a.ptr ≠ 0 ∧ a.range.start + a.range.len ≤ 2 ^ 64 := by
  obtain ⟨p, start, inside⟩ := h.range_pages ha
  have pos := Nat.two_pow_pos a.order
  have first := inside p (inBlock_self _ p)
  have last := (roomy _ (inside (p + 2 ^ a.order - 1) ⟨by omega, by omega⟩)).2
  have based := h.inv.based p first
  have up : p + 2 ^ a.order - 1 + 1 = p + 2 ^ a.order := by omega
  rw [up, Nat.add_mul] at last
  unfold Allocation.range
  rw [start]
  unfold node
  dsimp only
  omega

theorem stored (h : Sound s lists blocks)
    (inside : ∀ a, m.read a ≠ s.mem.read a → ∃ c ∈ s.live, ¬ c.range.Off a) :
    Sound { s with mem := m } lists blocks := by
  have same : ∀ k < buddyMaxOrder, ∀ p ∈ lists k, ∀ o, o + 8 ≤ pageSize →
      m.read (node s.buddy.base p + o) = s.mem.read (node s.buddy.base p + o) := by
    intro k hk p hp o low
    by_contra changed
    obtain ⟨a, ha, hit⟩ := inside _ changed
    obtain ⟨c, hc, rfl⟩ := List.mem_map.mp (h.live ▸ ha)
    have out := h.inv.listed_apart_held hk hp hc (inBlock_self k p)
    obtain ⟨start, stop⟩ := Allocation.range_of s.buddy.base c
    unfold Block.Has InBlock at out
    unfold ByteRange.Off at hit
    rw [stop, start] at hit
    unfold Block.start Block.stop node at hit
    have side : p + 1 ≤ c.page ∨ c.page + 2 ^ c.order ≤ p := by omega
    rcases side with le | le
    · have up := Nat.mul_le_mul_right pageSize le
      rw [Nat.add_mul] at up
      omega
    · have up := Nat.mul_le_mul_right pageSize le
      omega
  refine ⟨⟨fun k hk => ?_, h.inv.parity, h.inv.listed_aligned, h.inv.held_aligned, h.inv.exact,
    h.inv.listed_range, h.inv.based⟩, h.accounts, h.live, h.range⟩
  apply (h.inv.linked k hk).congr
  · intro y hy
    obtain ⟨p, hp, rfl⟩ := List.mem_map.mp hy
    exact same k hk p hp 8 (by decide)
  · intro y hy
    obtain ⟨p, hp, rfl⟩ := List.mem_map.mp hy
    exact same k hk p hp 0 (by decide)

theorem returns (h : Sound s lists blocks) (roomy : Roomy s) {op : Op} (valid : Valid s op)
    (new : ∀ x ∈ op.registers s, x < 2 ^ buddyMaxOrder) :
    ∃ s' lists' blocks', exec s op = .ok s' ∧ Sound s' lists' blocks' ∧ Effect s lists op s' lists' := by
  rcases step_sound h valid with ⟨s', lists', blocks', run⟩ | ⟨_, x, hx, far⟩
  · exact ⟨s', lists', blocks', run⟩
  · have room : 2 ^ buddyMaxOrder ≤ Bitmap.capacity := by decide
    have low : x < 2 ^ buddyMaxOrder := by
      cases op with
      | addRegion virtBase n => exact new x hx
      | allocPages order => exact (roomy x hx).1
      | deallocPages ptr order => exact absurd hx (Finset.notMem_empty x)
      | store addr value => exact absurd hx (Finset.notMem_empty x)
    omega

end Sound

/-! What a call answers, read off a step of the system. -/

theorem exec_alloc {k : Nat} (done : exec s (.allocPages k) = .ok s') :
    ∃ r b m, s.buddy.allocPages s.mem k = .ok (r, b, m) ∧
      s' = ⟨b, m, (r.map fun p => ⟨p, k⟩).toList ++ s.live, s.pages⟩ := by
  obtain ⟨⟨r, b, m⟩, answer, rest⟩ := ok_of_bind done
  refine ⟨r, b, m, answer, ?_⟩
  cases r with
  | none => exact (Except.ok.inj rest).symm
  | some p => exact (Except.ok.inj rest).symm

theorem exec_dealloc {ptr k : Nat} (done : exec s (.deallocPages ptr k) = .ok s') :
    ∃ b m, s.buddy.deallocPages s.mem ptr k = .ok (b, m) ∧
      s' = ⟨b, m, s.live.erase ⟨ptr, k⟩, s.pages⟩ := by
  obtain ⟨⟨b, m⟩, answer, rest⟩ := ok_of_bind done
  exact ⟨b, m, answer, (Except.ok.inj rest).symm⟩

theorem exec_beside {op : Op} {others : List Allocation} (valid : Valid s op)
    (done : exec { s with live := s.live ++ others } op = .ok s') :
    ∃ r, exec s op = .ok r ∧ s' = { r with live := r.live ++ others } := by
  cases op with
  | addRegion virtBase n =>
    obtain ⟨⟨b, m⟩, answer, rest⟩ := ok_of_bind done
    exact ⟨_, bind_of_ok answer _, (Except.ok.inj rest).symm⟩
  | allocPages k =>
    obtain ⟨r, b, m, answer, rfl⟩ := exec_alloc done
    refine ⟨⟨b, m, (r.map fun p => ⟨p, k⟩).toList ++ s.live, s.pages⟩, ?_, by simp⟩
    cases r with
    | none => exact bind_of_ok answer _
    | some p => exact bind_of_ok answer _
  | deallocPages ptr k =>
    obtain ⟨b, m, answer, rfl⟩ := exec_dealloc done
    have here : (⟨ptr, k⟩ : Allocation) ∈ s.live := valid
    exact ⟨_, bind_of_ok answer _, by rw [List.erase_append_left _ here]⟩
  | store addr value =>
    obtain rfl := Except.ok.inj done
    exact ⟨_, rfl, rfl⟩

theorem Valid.beside {op : Op} {others : List Allocation} (valid : Valid s op) :
    Valid { s with live := s.live ++ others } op := by
  cases op with
  | addRegion virtBase n => exact valid
  | allocPages k => exact valid
  | deallocPages ptr k => exact List.mem_append_left _ valid
  | store addr value =>
    obtain ⟨a, ha, inside⟩ := valid
    exact ⟨a, List.mem_append_left _ ha, inside⟩

/-! Where stores go. -/

def OnPage (base : Nat) (pages : Finset Nat) (a : Nat) : Prop :=
  ∃ x ∈ pages, node base x ≤ a ∧ a < node base x + pageSize

theorem OnPage.grow {base a : Nat} {pages more : Finset Nat} (h : OnPage base pages a) (sub : pages ⊆ more) :
    OnPage base more a := by
  obtain ⟨x, hx, inside⟩ := h
  exact ⟨x, sub hx, inside⟩

theorem LinkWordOf.on_page {base a : Nat} {pages : Finset Nat} (h : LinkWordOf base pages a) :
    OnPage base pages a := by
  obtain ⟨x, hx, e⟩ := h
  refine ⟨x, hx, ?_⟩
  unfold pageSize
  omega

theorem Sound.on_page (h : Sound s lists blocks) {c : Allocation} (hc : c ∈ s.live) {a : Nat}
    (low : c.range.start ≤ a) (high : a < c.range.start + c.range.len) : OnPage s.buddy.base s.pages a := by
  obtain ⟨p, start, inside⟩ := h.range_pages hc
  unfold Allocation.range at low high
  dsimp only at low high
  rw [start] at low high
  obtain ⟨x, x_def⟩ : ∃ x, x = (a - s.buddy.base) / pageSize := ⟨_, rfl⟩
  refine ⟨x, inside x ?_, ?_⟩
  · unfold node pageSize at *
    exact ⟨by omega, by omega⟩
  · unfold node pageSize at *
    omega

theorem Sound.stores_on_pages {op : Op} (h : Sound s lists blocks) (valid : Valid s op)
    (done : exec s op = .ok s') : Memory.StoresIn (OnPage s.buddy.base s'.pages) s.mem s'.mem := by
  cases op with
  | addRegion virtBase n =>
    obtain ⟨based, _, _, new⟩ := valid
    obtain ⟨⟨b, m⟩, answer, rest⟩ := ok_of_bind done
    obtain rfl := Except.ok.inj rest
    exact (addRegion_footprint h.inv based new answer).mono fun a word => word.on_page
  | allocPages k =>
    obtain ⟨r, b, m, answer, rfl⟩ := exec_alloc done
    exact (allocPages_footprint h.inv answer).mono fun a word => word.on_page
  | deallocPages ptr k =>
    obtain ⟨b, m, answer, rfl⟩ := exec_dealloc done
    have here : (⟨ptr, k⟩ : Allocation) ∈ s.live := valid
    obtain ⟨c, hc, e⟩ := List.mem_map.mp (h.live ▸ here)
    obtain ⟨rfl, rfl⟩ := Allocation.mk.inj e
    exact (deallocPages_footprint h.inv hc (h.range c hc) answer).mono fun a word => word.on_page
  | store addr value =>
    obtain rfl := Except.ok.inj done
    obtain ⟨c, hc, low, high⟩ := valid
    refine (Memory.StoresIn.refl _ _).write value (h.on_page hc low ?_)
    unfold Allocation.range
    dsimp only
    omega

def OffBlocks (rest : List Allocation) (a : Nat) : Prop := ∀ c ∈ rest, c.range.Off a

def SameOn (rest : List Allocation) (m m' : Memory) : Prop :=
  ∀ c ∈ rest, ∀ a, c.range.start ≤ a → a + 8 ≤ c.range.start + c.range.len → m'.read a = m.read a

theorem SameOn.of_stores {rest : List Allocation} {m' : Memory} (stores : Memory.StoresIn (OffBlocks rest) m m') :
    SameOn rest m m' := by
  intro c hc a low high
  apply stores.read_eq
  intro off
  have out := off c hc
  unfold ByteRange.Off at out
  omega

theorem SameOn.sub {rest part : List Allocation} {m' : Memory} (h : SameOn rest m m') (sub : ∀ c ∈ part, c ∈ rest) :
    SameOn part m m' := fun c hc => h c (sub c hc)

theorem Sound.off_others {op : Op} {others : List Allocation} {r : System} {lists' : Nat → List Nat}
    (h : Sound { s with live := s.live ++ others } lists blocks) (valid : Valid s op)
    (effect : Effect { s with live := s.live ++ others } lists op { r with live := r.live ++ others } lists')
    (done : exec s op = .ok r) : Memory.StoresIn (OffBlocks others) s.mem r.mem := by
  by_cases store : ∃ addr value, op = .store addr value
  · obtain ⟨addr, value, rfl⟩ := store
    obtain rfl := Except.ok.inj done
    obtain ⟨a, ha, low, high⟩ := valid
    refine (Memory.StoresIn.refl _ _).write value fun c hc => ?_
    have apart := h.ranges_apart
    rw [List.map_append, List.pairwise_append] at apart
    exact (apart.2.2 _ (List.mem_map_of_mem ha) _ (List.mem_map_of_mem hc)).off low high
  · apply (effect.stores fun addr value e => store ⟨addr, value, e⟩).mono
    intro a out c hc
    exact out c (List.mem_append_right _ hc) (List.mem_append_right _ hc)

end BuddyAllocator

namespace Slab
open Lib BuddyAllocator

def Away (base : Nat) (pages : Finset Nat) (rest : List Allocation) (a : Nat) : Prop :=
  OffBlocks rest a ∧ OnPage base pages a

/-- The allocator while a client holds the blocks of one order at `out` and the others hold
`rest`, which has not been stored to since the memory was `m₀`. -/
def Sharing (base order : Nat) (rest : List Allocation) (pages : Finset Nat) (m₀ : Memory)
    (b : BuddyAllocator) (m : Memory) (out : List Nat) : Prop :=
  (∃ lists blocks, BuddyAllocator.Sound ⟨b, m, (out.map fun x => ⟨x, order⟩) ++ rest, pages⟩ lists blocks) ∧
    b.base = base ∧ Memory.StoresIn (Away base pages rest) m₀ m

variable {base order : Nat} {rest : List Allocation} {pages : Finset Nat} {m₀ : Memory}

theorem slab_range (hk : order < buddyMaxOrder) (x : Nat) :
    (⟨x, order⟩ : Allocation).range = ⟨x, slabBytes order⟩ := by
  rw [slabBytes_small hk]
  rfl

theorem buddy_backs_beside (hk : order < buddyMaxOrder)
    (within : ∀ x ∈ pages, x < 2 ^ buddyMaxOrder ∧ base + (x + 1) * pageSize ≤ 2 ^ 64) :
    Backs buddySource order (Sharing base order rest pages m₀) where
  placed := by
    rintro b m out ⟨⟨lists, blocks, sound⟩, rfl, _⟩
    have roomy : Roomy ⟨b, m, (out.map fun x => ⟨x, order⟩) ++ rest, pages⟩ := within
    have apart := sound.ranges_apart
    rw [List.map_append, List.map_map, List.pairwise_append, List.pairwise_map] at apart
    refine ⟨apart.1.imp fun {x y} far => ?_, fun x hx => ?_⟩
    · have far' : (⟨x, order⟩ : Allocation).range.Apart (⟨y, order⟩ : Allocation).range := far
      rwa [slab_range hk, slab_range hk] at far'
    · have here : (⟨x, order⟩ : Allocation) ∈ (out.map fun x => ⟨x, order⟩) ++ rest :=
        List.mem_append_left _ (List.mem_map_of_mem hx)
      have bounds := sound.range_bounds roomy here
      rwa [slab_range hk] at bounds
  serves := by
    rintro b m out ⟨⟨lists, blocks, sound⟩, rfl, apart⟩
    have roomy : Roomy ⟨b, m, (out.map fun x => ⟨x, order⟩) ++ rest, pages⟩ := within
    have valid : BuddyAllocator.Valid ⟨b, m, (out.map fun x => ⟨x, order⟩) ++ rest, pages⟩ (.allocPages order) := hk
    obtain ⟨s', lists', blocks', done, sound', effect⟩ := sound.returns roomy valid (by simp [Op.registers])
    have paged := sound.stores_on_pages valid done
    obtain ⟨r, b', m', answer, rfl⟩ := exec_alloc done
    have stores := effect.stores (by simp)
    have off : Memory.StoresIn (OffBlocks ((out.map fun x => ⟨x, order⟩) ++ rest)) m m' :=
      stores.mono fun a out c hc => out c hc (List.mem_append_right _ hc)
    refine ⟨r, b', m', answer, off.mono fun a out x hx => ?_, ⟨lists', blocks', ?_⟩, effect.base,
      apart.trans ((off.both paged).mono fun a out => ⟨fun c hc => out.1 c (List.mem_append_right _ hc), out.2⟩)⟩
    · have far := out ⟨x, order⟩ (List.mem_append_left _ (List.mem_map_of_mem hx))
      rwa [slab_range hk] at far
    · cases r with
      | none => exact sound'
      | some p => exact sound'
  takes := by
    rintro b m out x ⟨⟨lists, blocks, sound⟩, rfl, apart⟩ hx
    have roomy : Roomy ⟨b, m, (out.map fun x => ⟨x, order⟩) ++ rest, pages⟩ := within
    have here : (⟨x, order⟩ : Allocation) ∈ out.map fun x => (⟨x, order⟩ : Allocation) :=
      List.mem_map_of_mem hx
    have valid : BuddyAllocator.Valid ⟨b, m, (out.map fun x => ⟨x, order⟩) ++ rest, pages⟩
        (.deallocPages x order) := List.mem_append_left _ here
    obtain ⟨s', lists', blocks', done, sound', effect⟩ := sound.returns roomy valid (by simp [Op.registers])
    have paged := sound.stores_on_pages valid done
    obtain ⟨b', m', answer, rfl⟩ := exec_dealloc done
    have inj : Function.Injective fun x => (⟨x, order⟩ : Allocation) := fun x y e => (Allocation.mk.inj e).1
    have erased : ((out.map fun x => (⟨x, order⟩ : Allocation)) ++ rest).erase ⟨x, order⟩ =
        ((out.erase x).map fun x => ⟨x, order⟩) ++ rest := by
      rw [List.erase_append_left _ here, List.map_erase inj]
    have stores := effect.stores (by simp)
    simp only [erased] at sound' stores
    have off : Memory.StoresIn (OffBlocks (((out.erase x).map fun x => ⟨x, order⟩) ++ rest)) m m' := by
      apply stores.mono
      intro a out' c hc
      refine out' c ?_ hc
      rw [← erased] at hc
      exact List.mem_of_mem_erase hc
    refine ⟨b', m', answer, off.mono fun a out' y hy => ?_, ⟨lists', blocks', sound'⟩, effect.base,
      apart.trans ((off.both paged).mono fun a out => ⟨fun c hc => out.1 c (List.mem_append_right _ hc), out.2⟩)⟩
    have far := out' ⟨y, order⟩ (List.mem_append_left _ (List.mem_map_of_mem hy))
    rwa [slab_range hk] at far
  kept := by
    rintro b m m' out ⟨⟨lists, blocks, sound⟩, rfl, apart⟩ stores
    have disjoint := sound.ranges_apart
    rw [List.map_append, List.pairwise_append] at disjoint
    refine ⟨⟨lists, blocks, sound.stored fun a changed => ?_⟩, rfl, apart.trans (stores.mono fun a => ?_)⟩
    · by_contra none
      apply changed
      apply stores.read_eq
      rintro ⟨x, hx, low, high⟩
      refine none ⟨⟨x, order⟩, List.mem_append_left _ (List.mem_map_of_mem hx), ?_⟩
      rw [slab_range hk]
      unfold ByteRange.Off
      dsimp only
      omega
    · rintro ⟨x, hx, low, high⟩
      have here : (⟨x, order⟩ : Allocation) ∈ (out.map fun x => ⟨x, order⟩) ++ rest :=
        List.mem_append_left _ (List.mem_map_of_mem hx)
      refine ⟨fun c hc => ?_, sound.on_page here ?_ ?_⟩
      · have far := disjoint.2.2 _ (List.mem_map_of_mem (List.mem_map_of_mem hx)) _ (List.mem_map_of_mem hc)
        rw [slab_range hk] at far
        exact far.off low high
      · rw [slab_range hk]
        exact low
      · rw [slab_range hk]
        dsimp only
        omega

end Slab
end CrustyOs.Abalone
