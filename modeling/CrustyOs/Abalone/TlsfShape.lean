import CrustyOs.Abalone.TlsfHeap

/-! The shape a run has between two operations: blocks with the right
predecessor flags, no two free neighbours, and the sentinel last. -/
namespace CrustyOs.Abalone.TlsfInner
open Lib Tlsf

variable {m m' : Memory} {cs pre post rest : List Chunk} {c d e : Chunk} {p q : Bool} {a : Nat}

structure Chunk.Fits (p : Bool) (c : Chunk) : Prop where
  low : 32 ≤ c.size
  prev : c.prev = p
  apart : p = true → c.free = false

theorem Chunk.Fits.after_used {p : Bool} {c : Chunk} (h : c.Fits p) (free : c.free = true) : p = false := by
  cases used : p with
  | false => rfl
  | true =>
    rw [h.apart used] at free
    cases free

def leave : Bool → List Chunk → Bool
  | p, [] => p
  | _, c :: cs => leave c.free cs

def Blocks : Bool → List Chunk → Prop
  | _, [] => True
  | p, c :: cs => c.Fits p ∧ Blocks c.free cs

def Shape : Bool → List Chunk → Prop
  | _, [] => False
  | _, [s] => s.size = 0 ∧ s.free = false
  | p, c :: d :: cs => c.Fits p ∧ Shape c.free (d :: cs)

theorem shape_cons (more : cs ≠ []) : Shape p (c :: cs) ↔ c.Fits p ∧ Shape c.free cs := by
  cases cs with
  | nil => exact absurd rfl more
  | cons d cs => rfl

theorem shape_around (more : post ≠ []) :
    Shape p (pre ++ c :: post) ↔ Blocks p pre ∧ c.Fits (leave p pre) ∧ Shape c.free post := by
  induction pre generalizing p with
  | nil =>
    rw [List.nil_append, shape_cons more]
    simp [Blocks, leave]
  | cons d pre ih =>
    rw [List.cons_append, shape_cons (by simp), ih, Blocks, leave, and_assoc]

theorem blocks_append_one : Blocks p (pre ++ [c]) ↔ Blocks p pre ∧ c.Fits (leave p pre) := by
  induction pre generalizing p with
  | nil => simp [Blocks, leave]
  | cons d pre ih => rw [List.cons_append, Blocks, ih, Blocks, leave, and_assoc]

theorem leave_append_one (p : Bool) (pre : List Chunk) (c : Chunk) :
    leave p (pre ++ [c]) = c.free := by
  induction pre generalizing p with
  | nil => rfl
  | cons d pre ih => exact ih d.free

theorem shape_last (h : Shape p (pre ++ [c])) : c.size = 0 ∧ c.free = false := by
  induction pre generalizing p with
  | nil => exact h
  | cons d pre ih =>
    rw [List.cons_append, shape_cons (by simp)] at h
    exact ih h.2

theorem Shape.follows (h : Shape p (pre ++ c :: post)) (block : c.size ≠ 0 ∨ c.free = true) :
    ∃ after rest, post = after :: rest := by
  cases post with
  | cons after rest => exact ⟨after, rest, rfl⟩
  | nil =>
    obtain ⟨empty, used⟩ := shape_last h
    cases block with
    | inl size => exact absurd empty size
    | inr free => rw [used] at free; cases free

theorem Shape.retag (h : Shape p (d :: rest)) (used : d.free = false) (q : Bool) :
    Shape q ({ d with prev := q } :: rest) := by
  cases rest with
  | nil => exact h
  | cons e rest =>
    obtain ⟨fits, later⟩ := h
    exact ⟨⟨fits.low, rfl, fun _ => used⟩, later⟩

theorem Shape.head_used (h : Shape true (d :: rest)) : d.free = false := by
  cases rest with
  | nil => exact h.2
  | cons e rest => exact h.1.apart rfl

def Used (cs : List Chunk) (a s : Nat) : Prop :=
  ∃ c ∈ cs, c.free = false ∧ c.size ≠ 0 ∧ c.addr = a ∧ c.size = s

theorem used_around {s : Nat} : Used (pre ++ c :: post) a s ↔
    (c.free = false ∧ c.size ≠ 0 ∧ c.addr = a ∧ c.size = s) ∨ Used (pre ++ post) a s := by
  simp only [Used, List.mem_append, List.mem_cons, or_and_right, exists_or, exists_eq_left]
  exact or_left_comm

theorem used_free {s : Nat} (free : c.free = true) :
    Used (pre ++ c :: post) a s ↔ Used (pre ++ post) a s := by
  simp [used_around, free]

theorem used_live {s : Nat} (used : c.free = false) (size : c.size ≠ 0) :
    Used (pre ++ c :: post) a s ↔ (a = c.addr ∧ s = c.size) ∨ Used (pre ++ post) a s := by
  simp [used_around, used, size, eq_comm]

theorem used_retag {s : Nat} :
    Used (pre ++ { d with prev := q } :: rest) a s ↔ Used (pre ++ d :: rest) a s := by
  rw [used_around, used_around]

/-- Each header names the one physically before it. -/
def Threaded (m : Memory) : Nat → List Nat → Prop
  | _, [] => True
  | before, a :: as => prevPhys m a = before ∧ Threaded m a as

theorem threaded_around {before : Nat} {xs ys : List Nat} : Threaded m before (xs ++ a :: ys) ↔
    Threaded m before (xs ++ [a]) ∧ Threaded m a ys := by
  induction xs generalizing before with
  | nil => simp [Threaded]
  | cons x xs ih => rw [List.cons_append, List.cons_append, Threaded, Threaded, ih, and_assoc]

theorem Threaded.congr {before : Nat} {xs : List Nat} (h : Threaded m before xs)
    (same : ∀ a ∈ xs, prevPhys m' a = prevPhys m a) : Threaded m' before xs := by
  induction xs generalizing before with
  | nil => trivial
  | cons x xs ih =>
    exact ⟨(same x (by simp)).trans h.1, ih h.2 fun a ha => same a (by simp [ha])⟩

def ThreadedRun (m : Memory) (cs : List Chunk) : Prop := Threaded m 0 (cs.map Chunk.addr)

end CrustyOs.Abalone.TlsfInner
