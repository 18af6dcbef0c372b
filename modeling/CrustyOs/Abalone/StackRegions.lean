import CrustyOs.Abalone.BuddyReserve
import CrustyOs.Abalone.StackRuns

/-! Regions registered while the allocators are at work. -/
namespace CrustyOs.Abalone
open Lib BuddyAllocator

namespace BuddyAllocator

/-- Page-aligned calls above the base, with pages of their own that are not registered yet. -/
structure Fresh (s : System) (calls : Calls) : Prop where
  based : s.buddy.base ≠ 0
  placed : ∀ c ∈ calls, s.buddy.base ≤ c.1 ∧ c.1 % pageSize = 0
  new : ∀ c ∈ calls, ∀ x ∈ callPages s.buddy.base c, x ∉ s.pages
  apart : calls.Pairwise fun c d => ∀ x ∈ callPages s.buddy.base c, x ∉ callPages s.buddy.base d

def allPages (base : Nat) (calls : Calls) : Finset Nat := calls.foldr (fun c pages => callPages base c ∪ pages) ∅

theorem mem_allPages {base x : Nat} {calls : Calls} : x ∈ allPages base calls ↔ ∃ c ∈ calls, x ∈ callPages base c := by
  induction calls with
  | nil => simp [allPages]
  | cons c calls ih =>
    have split : allPages base (c :: calls) = callPages base c ∪ allPages base calls := rfl
    rw [split, Finset.mem_union, ih]
    simp

variable {s s' : System} {c : Nat × Nat} {calls : Calls} {lists : Nat → List Nat} {blocks : List Block}

theorem Fresh.valid (h : Fresh s (c :: calls)) : Valid s (.addRegion c.1 c.2) :=
  ⟨h.based, (h.placed c List.mem_cons_self).1, (h.placed c List.mem_cons_self).2, h.new c List.mem_cons_self⟩

theorem Fresh.later (h : Fresh s (c :: calls)) (base : s'.buddy.base = s.buddy.base)
    (pages : s'.pages = s.pages ∪ callPages s.buddy.base c) : Fresh s' calls := by
  obtain ⟨first, rest⟩ := List.pairwise_cons.mp h.apart
  refine ⟨base ▸ h.based, fun d hd => base ▸ h.placed d (List.mem_cons_of_mem _ hd), fun d hd x hx old => ?_,
    base ▸ rest⟩
  rw [base] at hx
  rw [pages] at old
  cases Finset.mem_union.mp old with
  | inl known => exact h.new d (List.mem_cons_of_mem _ hd) x hx known
  | inr here => exact first d hd x here hx

theorem registerAll_stores (calls : Calls) : ∀ {s : System} {lists : Nat → List Nat} {blocks : List Block},
    Sound s lists blocks → Fresh s calls → registerAll s calls = .ok s' →
    s.pages ⊆ s'.pages ∧ Memory.StoresIn (OnPage s.buddy.base s'.pages) s.mem s'.mem := by
  induction calls with
  | nil =>
    intro s lists blocks _ _ run
    obtain rfl := Except.ok.inj run
    exact ⟨Finset.Subset.refl _, .refl _ _⟩
  | cons c calls ih =>
    intro s lists blocks sound fresh run
    obtain ⟨s₁, first, rest⟩ := ok_of_bind run
    obtain ⟨lists₁, blocks₁, sound₁, effect⟩ := step_kept sound fresh.valid first
    obtain ⟨more, tail⟩ := ih sound₁ (fresh.later effect.base effect.pages) rest
    rw [effect.base] at tail
    have sub : s.pages ⊆ s₁.pages := by
      rw [effect.pages]
      exact Finset.subset_union_left
    exact ⟨sub.trans more, ((sound.stores_on_pages fresh.valid first).mono fun a on => on.grow more).trans tail⟩

theorem registerAll_returns (calls : Calls) : ∀ {s : System} {lists : Nat → List Nat} {blocks : List Block},
    Sound s lists blocks → Fresh s calls → (∀ c ∈ calls, ∀ x ∈ callPages s.buddy.base c, x < Bitmap.capacity) →
    ∃ s', registerAll s calls = .ok s' := by
  induction calls with
  | nil => exact fun {s lists blocks} _ _ _ => ⟨s, rfl⟩
  | cons c calls ih =>
    intro s lists blocks sound fresh near
    rcases step_sound sound fresh.valid with ⟨s₁, lists₁, blocks₁, first, sound₁, effect⟩ | ⟨_, x, hx, far⟩
    · obtain ⟨s', rest⟩ := ih sound₁ (fresh.later effect.base effect.pages) fun d hd x hx => by
        rw [effect.base] at hx
        exact near d (List.mem_cons_of_mem _ hd) x hx
      exact ⟨s', (bind_of_ok first _).trans rest⟩
    · have here : x ∈ callPages s.buddy.base c := hx
      have low := near c List.mem_cons_self x here
      exact absurd low (Nat.not_lt_of_le far)

theorem registerAll_reserve {k : Nat} (hk : k < buddyMaxOrder) (calls : Calls) : ∀ {s : System}
    {lists lists' : Nat → List Nat} {blocks : List Block}, Sound s lists blocks → Fresh s calls →
    registerAll s calls = .ok s' → Represents s'.buddy s'.mem lists' →
    reserve k lists' = reserve k lists + (calls.map (callRuns s.buddy.base k)).sum := by
  induction calls with
  | nil =>
    intro s lists lists' blocks sound _ run after
    obtain rfl := Except.ok.inj run
    rw [List.map_nil, List.sum_nil, Nat.add_zero]
    exact after.reserve_eq sound.represents k
  | cons c calls ih =>
    intro s lists lists' blocks sound fresh run after
    obtain ⟨s₁, first, rest⟩ := ok_of_bind run
    obtain ⟨lists₁, blocks₁, sound₁, effect⟩ := step_kept sound fresh.valid first
    have brought := sound.reserve_region hk fresh.valid first sound₁.represents
    rw [ih sound₁ (fresh.later effect.base effect.pages) rest after, brought, effect.base, List.map_cons, List.sum_cons,
      Nat.add_assoc]

theorem registerAll_append (calls more : Calls) : ∀ {s : System},
    registerAll s (calls ++ more) = registerAll s calls >>= fun s => registerAll s more := by
  induction calls with
  | nil => exact fun {s} => rfl
  | cons c calls ih =>
    intro s
    rw [List.cons_append, registerAll, registerAll, bind_assoc]
    exact bind_congr fun s => ih

theorem registerAll_live (calls : Calls) (live : List Allocation) : ∀ {s r : System}, registerAll s calls = .ok r →
    registerAll { s with live } calls = .ok { r with live } := by
  induction calls with
  | nil =>
    intro s r run
    obtain rfl := Except.ok.inj run
    rfl
  | cons c calls ih =>
    intro s r run
    obtain ⟨s₁, first, rest⟩ := ok_of_bind run
    obtain ⟨⟨b, m⟩, answer, ran⟩ := ok_of_bind first
    obtain rfl := Except.ok.inj ran
    have again : exec { s with live } (.addRegion c.1 c.2) =
        .ok ⟨b, m, live, s.pages ∪ regionPages s.buddy.base c.1 c.2⟩ := bind_of_ok answer _
    exact (bind_of_ok again _).trans (ih rest)

end BuddyAllocator

namespace AllocatorStack

def withPages (s : AllocatorStack) (r : BuddyAllocator.System) : AllocatorStack :=
  { s with buddy := r.buddy, mem := r.mem, pages := r.pages }

theorem Sound.register (kept : List Allocation) (calls : Calls) : ∀ {s : AllocatorStack} {r : BuddyAllocator.System},
    Sound s → Fresh s.pageClient calls →
    (∀ c ∈ calls, ∀ x ∈ callPages s.buddy.base c,
      x < 2 ^ buddyMaxOrder ∧ s.buddy.base + (x + 1) * pageSize ≤ 2 ^ 64) →
    registerAll s.pageClient calls = .ok r →
    Reach exec (Sparing kept) s (s.withPages r) ∧ r.buddy.base = s.buddy.base ∧
      r.pages = s.pages ∪ allPages s.buddy.base calls := by
  induction calls with
  | nil =>
    intro s r _ _ _ run
    obtain rfl := Except.ok.inj run
    exact ⟨.start, rfl, (Finset.union_empty _).symm⟩
  | cons c calls ih =>
    intro s r sound fresh room run
    obtain ⟨r₁, first, rest⟩ := ok_of_bind run
    have valid : Valid s (.pages (.addRegion c.1 c.2)) := ⟨fresh.valid, room c List.mem_cons_self⟩
    obtain ⟨⟨b, m⟩, answer, ran⟩ := ok_of_bind first
    obtain rfl := Except.ok.inj ran
    have done : exec s (.pages (.addRegion c.1 c.2)) =
        .ok { s with buddy := b, mem := m, pages := s.pages ∪ callPages s.buddy.base c } := bind_of_ok first _
    have one : Reach exec (Sparing kept) s _ := Reach.start.step ⟨valid, trivial⟩ done
    obtain ⟨base, _, _⟩ := sound.stores_on_pages valid done
    have base : b.base = s.buddy.base := base
    have sound₁ := sound.run (Reach.start.step valid done)
    obtain ⟨more, same, pages⟩ := ih sound₁ (fresh.later base rfl) (fun d hd => by
      have later := room d (List.mem_cons_of_mem _ hd)
      dsimp only
      rw [base]
      exact later) rest
    refine ⟨one.trans more, same.trans base, ?_⟩
    rw [pages]
    dsimp only
    rw [base, Finset.union_assoc]
    rfl

end AllocatorStack
end CrustyOs.Abalone
