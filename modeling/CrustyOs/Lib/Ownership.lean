import CrustyOs.Lib.Memory
import Mathlib.Data.List.Pairwise

/-! Byte ranges and their owners. An owner holds ranges and hands out parts of them: what
all owners hand out is apart as soon as what they hold is, each owner being careful on its
own. What is said about one owner's ranges stays true while the others store to theirs. -/
namespace CrustyOs.Lib

structure ByteRange where
  start : Nat
  len : Nat
  deriving DecidableEq, Repr

namespace ByteRange

def Apart (r q : ByteRange) : Prop := r.start + r.len ≤ q.start ∨ q.start + q.len ≤ r.start

def Within (r q : ByteRange) : Prop := q.start ≤ r.start ∧ r.start + r.len ≤ q.start + q.len

def Off (r : ByteRange) (a : Nat) : Prop := a + 8 ≤ r.start ∨ r.start + r.len ≤ a

instance (r q : ByteRange) : Decidable (Apart r q) := inferInstanceAs (Decidable (_ ∨ _))
instance (r q : ByteRange) : Decidable (Within r q) := inferInstanceAs (Decidable (_ ∧ _))
instance (r : ByteRange) (a : Nat) : Decidable (Off r a) := inferInstanceAs (Decidable (_ ∨ _))

variable {r r' q q' : ByteRange} {a : Nat}

theorem Within.refl (r : ByteRange) : Within r r := ⟨Nat.le_refl _, Nat.le_refl _⟩

theorem Apart.symm (h : Apart r q) : Apart q r := Or.symm h

theorem Apart.sub (h : Apart q q') (inner : Within r q) (inner' : Within r' q') : Apart r r' := by
  unfold Apart Within at *
  omega

theorem Off.sub (h : Off q a) (inner : Within r q) : Off r a := by
  unfold Off Within at *
  omega

theorem Apart.off (h : Apart r q) (low : r.start ≤ a) (high : a + 8 ≤ r.start + r.len) : Off q a := by
  unfold Apart Off at *
  omega

end ByteRange

structure Owner where
  holds : List ByteRange
  hands : List ByteRange

/-- The owner hands out parts of what it holds, no byte twice. -/
structure Owner.Tidy (o : Owner) : Prop where
  inside : ∀ r ∈ o.hands, ∃ q ∈ o.holds, r.Within q
  apart : o.hands.Pairwise ByteRange.Apart

variable {owners : List Owner}

theorem hands_inside (tidy : ∀ o ∈ owners, o.Tidy) {r : ByteRange} (hr : r ∈ owners.flatMap Owner.hands) :
    ∃ q ∈ owners.flatMap Owner.holds, r.Within q := by
  obtain ⟨o, ho, handed⟩ := List.mem_flatMap.mp hr
  obtain ⟨q, hq, inner⟩ := (tidy o ho).inside r handed
  exact ⟨q, List.mem_flatMap.mpr ⟨o, ho, hq⟩, inner⟩

theorem hands_apart (tidy : ∀ o ∈ owners, o.Tidy)
    (held : (owners.flatMap Owner.holds).Pairwise ByteRange.Apart) :
    (owners.flatMap Owner.hands).Pairwise ByteRange.Apart := by
  induction owners with
  | nil => exact List.Pairwise.nil
  | cons o owners ih =>
    rw [List.flatMap_cons, List.pairwise_append] at held ⊢
    obtain ⟨_, rest, across⟩ := held
    have later : ∀ o' ∈ owners, o'.Tidy := fun o' ho => tidy o' (List.mem_cons_of_mem o ho)
    have own := tidy o List.mem_cons_self
    refine ⟨own.apart, ih later rest, fun r hr r' hr' => ?_⟩
    obtain ⟨q, hq, inner⟩ := own.inside r hr
    obtain ⟨q', hq', inner'⟩ := hands_inside later hr'
    exact (across q hq q' hq').sub inner inner'

namespace Memory.StoresIn

variable {P Q : Nat → Prop} {m m' : Memory}

theorem both (h : StoresIn P m m') (h' : StoresIn Q m m') : StoresIn (fun a => P a ∧ Q a) m m' := by
  obtain ⟨new, e, p, same⟩ := h
  obtain ⟨new', e', q, _⟩ := h'
  obtain rfl : new' = new := List.append_cancel_right (e'.symm.trans e)
  exact ⟨new', e, fun a ha => ⟨p a ha, q a ha⟩, same⟩

end Memory.StoresIn
end CrustyOs.Lib
