import Mathlib.Algebra.GroupWithZero.Nat
import Mathlib.Tactic.Common

/-! Runs of a system whose operations either produce a state or stop. A run
takes valid operations only; what one valid operation keeps, every run keeps. -/
namespace CrustyOs.Lib

/-- States reached from `start` by valid operations that return. -/
inductive Reach {σ α ε : Type} (exec : σ → α → Except ε σ) (Valid : σ → α → Prop) (start : σ) :
    σ → Prop where
  | start : Reach exec Valid start start
  | step {s s' : σ} {op : α} (run : Reach exec Valid start s) (valid : Valid s op)
      (done : exec s op = .ok s') : Reach exec Valid start s'

namespace Reach

variable {σ α ε : Type} {exec : σ → α → Except ε σ} {Valid Valid' : σ → α → Prop} {s₀ s : σ}

theorem invariant {I : σ → Prop} (run : Reach exec Valid s₀ s) (initial : I s₀)
    (preserves : ∀ s op s', I s → Valid s op → exec s op = .ok s' → I s') : I s := by
  induction run with
  | start => exact initial
  | step _ valid done ih => exact preserves _ _ _ ih valid done

theorem mono (run : Reach exec Valid s₀ s) (weaker : ∀ s op, Valid s op → Valid' s op) :
    Reach exec Valid' s₀ s := by
  induction run with
  | start => exact .start
  | step _ valid done ih => exact ih.step (weaker _ _ valid) done

theorem trans {s₁ : σ} (first : Reach exec Valid s₀ s₁) (second : Reach exec Valid s₁ s) :
    Reach exec Valid s₀ s := by
  induction second with
  | start => exact first
  | step _ valid done ih => exact ih.step valid done

end Reach

inductive History {σ α ε : Type} (exec : σ → α → Except ε σ) (Valid : σ → α → Prop) (start : σ) :
    List σ → Prop where
  | start : History exec Valid start [start]
  | step {s s' : σ} {past : List σ} {op : α} (run : History exec Valid start (s :: past))
      (valid : Valid s op) (done : exec s op = .ok s') : History exec Valid start (s' :: s :: past)

namespace History

variable {σ α ε : Type} {exec : σ → α → Except ε σ} {Valid : σ → α → Prop} {s₀ s : σ} {past : List σ}

theorem reach (run : History exec Valid s₀ (s :: past)) : Reach exec Valid s₀ s := by
  generalize e : s :: past = states at run
  induction run generalizing s past with
  | start =>
    obtain ⟨rfl, _⟩ := List.cons.inj e
    exact .start
  | step run valid done ih =>
    obtain ⟨rfl, _⟩ := List.cons.inj e
    exact (ih rfl).step valid done

theorem of_reach (run : Reach exec Valid s₀ s) : ∃ past, History exec Valid s₀ (s :: past) := by
  induction run with
  | start => exact ⟨[], .start⟩
  | step _ valid done ih =>
    obtain ⟨past, before⟩ := ih
    exact ⟨_, before.step valid done⟩

/-- A mark that each step raises to the value it reaches is the greatest value reached. -/
theorem high_water {mark value : σ → Nat} (initial : mark s₀ = value s₀)
    (raises : ∀ s op s', Reach exec Valid s₀ s → Valid s op → exec s op = .ok s' →
      value s ≤ mark s → mark s' = max (mark s) (value s'))
    (run : History exec Valid s₀ (s :: past)) :
    (∀ t ∈ s :: past, value t ≤ mark s) ∧ ∃ t ∈ s :: past, value t = mark s := by
  generalize e : s :: past = states at run ⊢
  induction run generalizing s past with
  | start =>
    obtain ⟨rfl, rfl⟩ := List.cons.inj e
    refine ⟨fun t ht => ?_, s, List.mem_cons_self, initial.symm⟩
    obtain rfl := List.mem_singleton.mp ht
    exact Nat.le_of_eq initial.symm
  | @step s₁ s₂ earlier op run valid done ih =>
    obtain ⟨rfl, rfl⟩ := List.cons.inj e
    obtain ⟨below, t, ht, reached⟩ := ih rfl
    have raised := raises s₁ op s run.reach valid done (below s₁ List.mem_cons_self)
    refine ⟨fun u hu => ?_, ?_⟩
    · rw [raised]
      cases List.mem_cons.mp hu with
      | inl now => exact now ▸ Nat.le_max_right _ _
      | inr before => exact Nat.le_trans (below u before) (Nat.le_max_left _ _)
    · cases Nat.le_total (value s) (mark s₁) with
      | inl lower =>
        rw [raised, Nat.max_eq_left lower]
        exact ⟨t, List.mem_cons_of_mem _ ht, reached⟩
      | inr higher =>
        rw [raised, Nat.max_eq_right higher]
        exact ⟨s, List.mem_cons_self, rfl⟩

end History

inductive Trace {σ α ε : Type} (exec : σ → α → Except ε σ) (Valid : σ → α → Prop) (start : σ) :
    List α → σ → Prop where
  | start : Trace exec Valid start [] start
  | step {s s' : σ} {op : α} {ops : List α} (run : Trace exec Valid start ops s) (valid : Valid s op)
      (done : exec s op = .ok s') : Trace exec Valid start (op :: ops) s'

namespace Trace

variable {σ α ε : Type} {exec : σ → α → Except ε σ} {Valid : σ → α → Prop} {s₀ s : σ} {ops : List α}

theorem reach (run : Trace exec Valid s₀ ops s) : Reach exec Valid s₀ s := by
  induction run with
  | start => exact .start
  | step _ valid done ih => exact ih.step valid done

/-- What each operation adds to a stock and takes from it adds up over a run. -/
theorem stock {P : σ → Nat → Prop} {f g : α → Nat} {n : Nat} (initial : P s₀ n)
    (step : ∀ s op s' n, Reach exec Valid s₀ s → Valid s op → exec s op = .ok s' → P s n →
      ∃ n', P s' n' ∧ n + f op ≤ n' + g op)
    (run : Trace exec Valid s₀ ops s) :
    ∃ n', P s n' ∧ n + (ops.map f).sum ≤ n' + (ops.map g).sum := by
  induction run with
  | start => exact ⟨n, initial, Nat.le_refl _⟩
  | @step s₁ s₂ op ops run valid done ih =>
    obtain ⟨n₁, has₁, before⟩ := ih
    obtain ⟨n₂, has₂, here⟩ := step s₁ op s₂ n₁ run.reach valid done has₁
    refine ⟨n₂, has₂, ?_⟩
    rw [List.map_cons, List.map_cons, List.sum_cons, List.sum_cons]
    omega

end Trace

def trial {σ α ε : Type} (exec : σ → α → Except ε σ) (Valid : σ → α → Prop)
    [∀ s op, Decidable (Valid s op)] : σ → List α → Option σ
  | s, [] => some s
  | s, op :: ops =>
    if Valid s op then
      match exec s op with
      | .ok s' => trial exec Valid s' ops
      | .error _ => none
    else none

theorem trial_reach {σ α ε : Type} {exec : σ → α → Except ε σ} {Valid : σ → α → Prop}
    [∀ s op, Decidable (Valid s op)] {s₀ : σ} (ops : List α) :
    ∀ {s s' : σ}, Reach exec Valid s₀ s → trial exec Valid s ops = some s' →
      Reach exec Valid s₀ s' := by
  induction ops with
  | nil =>
    intro s s' run done
    obtain rfl := Option.some.inj done
    exact run
  | cons op ops ih =>
    intro s s' run done
    unfold trial at done
    split at done
    · rename_i valid
      split at done
      · rename_i next returned
        exact ih (run.step valid returned) done
      · cases done
    · cases done

theorem trial_trace {σ α ε : Type} {exec : σ → α → Except ε σ} {Valid : σ → α → Prop}
    [∀ s op, Decidable (Valid s op)] {s₀ : σ} (ops : List α) : ∀ {past : List α} {s s' : σ},
      Trace exec Valid s₀ past s → trial exec Valid s ops = some s' →
      Trace exec Valid s₀ (ops.reverse ++ past) s' := by
  induction ops with
  | nil =>
    intro past s s' run done
    obtain rfl := Option.some.inj done
    exact run
  | cons op ops ih =>
    intro past s s' run done
    unfold trial at done
    split at done
    · rename_i valid
      split at done
      · rename_i next returned
        rw [List.reverse_cons, List.append_assoc]
        exact ih (run.step valid returned) done
      · cases done
    · cases done

def forRange {σ ε : Type} (body : Nat → σ → Except ε σ) : Nat → σ → Except ε σ
  | 0, s => .ok s
  | n + 1, s => do
    let s ← forRange body n s
    body n s

section Bind

variable {ε α β : Type} {x : Except ε α} {f : α → Except ε β} {a : α} {b : β} {e : ε}

theorem bind_of_ok (h : x = .ok a) (f : α → Except ε β) : (x >>= f) = f a := by
  rw [h]
  rfl

theorem bind_of_error (h : x = .error e) (f : α → Except ε β) : (x >>= f) = .error e := by
  rw [h]
  rfl

theorem ok_of_bind (h : (x >>= f) = .ok b) : ∃ a, x = .ok a ∧ f a = .ok b := by
  cases x with
  | error e => cases h
  | ok a => exact ⟨a, rfl, h⟩

theorem ok_of_map {g : α → β} (h : x.map g = .ok b) : ∃ a, x = .ok a ∧ g a = b := by
  cases x with
  | error e => cases h
  | ok a => exact ⟨a, rfl, Except.ok.inj h⟩

end Bind

/-- How an operation ends: it stops with an error of `Stop`, or returns a value of `Q`. -/
def Ends {ε α : Type} (x : Except ε α) (Stop : ε → Prop) (Q : α → Prop) : Prop :=
  (∃ e, x = .error e ∧ Stop e) ∨ ∃ a, x = .ok a ∧ Q a

namespace Ends

variable {ε α β : Type} {x : Except ε α} {f : α → Except ε β} {a : α} {Stop Stop' : ε → Prop}
  {Q Q' : α → Prop} {R : β → Prop}

theorem returns (h : x = .ok a) (post : Q a) : Ends x Stop Q := .inr ⟨a, h, post⟩

theorem mono (ends : Ends x Stop Q) (stops : ∀ e, Stop e → Stop' e) (post : ∀ a, Q a → Q' a) :
    Ends x Stop' Q' := by
  rcases ends with ⟨e, stopped, stop⟩ | ⟨a, returned, q⟩
  · exact .inl ⟨e, stopped, stops e stop⟩
  · exact .inr ⟨a, returned, post a q⟩

theorem bind (ends : Ends x Stop Q) (next : ∀ a, Q a → Ends (f a) Stop R) : Ends (x >>= f) Stop R := by
  rcases ends with ⟨e, stopped, stop⟩ | ⟨a, returned, q⟩
  · exact .inl ⟨e, bind_of_error stopped f, stop⟩
  · rw [bind_of_ok returned f]
    exact next a q

theorem ok (ends : Ends x Stop Q) (never : ∀ e, ¬ Stop e) : ∃ a, x = .ok a ∧ Q a := by
  rcases ends with ⟨e, _, stop⟩ | returned
  · exact absurd stop (never e)
  · exact returned

end Ends

/-- An invariant by rounds: the loop establishes it at the end, or stops as its body does. -/
theorem forRange_spec {σ ε : Type} {body : Nat → σ → Except ε σ} {I : Nat → σ → Prop} {Stop : ε → Prop}
    {s : σ} (n : Nat) (start : I 0 s)
    (round : ∀ i < n, ∀ s, I i s → Ends (body i s) Stop (I (i + 1))) :
    Ends (forRange body n s) Stop (I n) := by
  induction n with
  | zero => exact .returns rfl start
  | succ n ih =>
    have before := ih fun i hi => round i (Nat.lt_succ_of_lt hi)
    exact before.bind fun s inv => round n (Nat.lt_succ_self n) s inv

theorem forRange_ok {σ ε : Type} {body : Nat → σ → Except ε σ} {I : Nat → σ → Prop} {s : σ} (n : Nat)
    (start : I 0 s) (round : ∀ i < n, ∀ s, I i s → ∃ s', body i s = .ok s' ∧ I (i + 1) s') :
    ∃ s', forRange body n s = .ok s' ∧ I n s' := by
  induction n with
  | zero => exact ⟨s, rfl, start⟩
  | succ n ih =>
    obtain ⟨s₁, run, inv⟩ := ih fun i hi => round i (Nat.lt_succ_of_lt hi)
    obtain ⟨s₂, last, inv₂⟩ := round n (Nat.lt_succ_self n) s₁ inv
    exact ⟨s₂, (bind_of_ok run _).trans last, inv₂⟩

end CrustyOs.Lib
