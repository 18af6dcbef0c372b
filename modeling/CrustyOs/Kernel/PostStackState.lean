import CrustyOs.Lib.Runs
import Mathlib.Logic.Function.Basic

/-! The cell that carries data past the switch of the kernel stack: `store` and `take` as any
number of threads call them, one access to the shared statics after another. -/
namespace CrustyOs.Kernel

structure PostStackState where
  rsdpPhys : Option Nat
  bootStackRegion : Option (Nat × Nat)
deriving DecidableEq

namespace PostStackState
open Lib

inductive Misuse where
  | storedTwice
  | notStored
  | takenTwice
  | cellNone
deriving DecidableEq

def Misuse.message : Misuse → String
  | .storedTwice => "post_stack_state::store() called twice without an intervening take()"
  | .notStored => "post_stack_state::take() called before store()"
  | .takenTwice => "post_stack_state::take() called more than once"
  | .cellNone => "post_stack_state: cell was None after store() — this is a bug"

/-- Where a thread stands between two accesses to the statics. -/
inductive Control where
  | idle
  /-- `STORED` was false and is set now; `CELL` is not written yet. -/
  | storing (state : PostStackState)
  /-- `STORED` was read as true. -/
  | taking
  /-- `TAKEN` was false and is set now; `CELL` is not emptied yet. -/
  | claiming
  | stopped (misuse : Misuse)
deriving DecidableEq

/-- The three statics, the threads, and the calls that have returned. `locked` tells that a panic
has left the lock of `CELL` taken; a guard of any other access is released with the access. -/
structure Statics (ι : Type) where
  stored : Bool
  taken : Bool
  cell : Option PostStackState
  locked : Bool
  control : ι → Control
  stores : List (ι × PostStackState)
  takes : List (ι × PostStackState)

namespace Statics

variable {ι : Type} [DecidableEq ι]

def initial : Statics ι := ⟨false, false, none, false, fun _ => .idle, [], []⟩

def goto (c : Statics ι) (i : ι) (control : Control) : Statics ι :=
  { c with control := Function.update c.control i control }

/-- A call of `store`, up to and with its swap of `STORED`. -/
def store (c : Statics ι) (i : ι) (state : PostStackState) : Statics ι :=
  if c.stored then c.goto i (.stopped .storedTwice)
  else { c with stored := true }.goto i (.storing state)

/-- A call of `take`, up to and with its load of `STORED`. -/
def take (c : Statics ι) (i : ι) : Statics ι :=
  if c.stored then c.goto i .taking else c.goto i (.stopped .notStored)

/-- The next access of the call that the thread is in. At the lock of `CELL` it may spin. -/
def resume (c : Statics ι) (i : ι) : Statics ι :=
  match c.control i with
  | .idle => c
  | .storing state =>
    if c.locked then c else { c with cell := some state, stores := (i, state) :: c.stores }.goto i .idle
  | .taking => if c.taken then c.goto i (.stopped .takenTwice) else { c with taken := true }.goto i .claiming
  | .claiming =>
    if c.locked then c
    else match c.cell with
      | some state => { c with cell := none, takes := (i, state) :: c.takes }.goto i .idle
      | none => { c with locked := true }.goto i (.stopped .cellNone)
  | .stopped _ => c

inductive Op (ι : Type) where
  | store (thread : ι) (state : PostStackState)
  | take (thread : ι)
  | resume (thread : ι)

def exec (c : Statics ι) : Op ι → Except Empty (Statics ι)
  | .store i state => .ok (c.store i state)
  | .take i => .ok (c.take i)
  | .resume i => .ok (c.resume i)

def Valid (c : Statics ι) : Op ι → Prop
  | .store i _ => c.control i = .idle
  | .take i => c.control i = .idle
  | .resume _ => True

/-- The order that `kernel_main` keeps: the stack is switched after `store` has returned. -/
def Ordered (c : Statics ι) : Op ι → Prop
  | .store i _ => c.control i = .idle
  | .take i => c.control i = .idle ∧ c.stores ≠ []
  | .resume _ => True

instance (c : Statics ι) : (op : Op ι) → Decidable (Valid c op)
  | .store i _ => inferInstanceAs (Decidable (c.control i = .idle))
  | .take i => inferInstanceAs (Decidable (c.control i = .idle))
  | .resume _ => inferInstanceAs (Decidable True)

instance (c : Statics ι) : (op : Op ι) → Decidable (Ordered c op)
  | .store i _ => inferInstanceAs (Decidable (c.control i = .idle))
  | .take i => inferInstanceAs (Decidable (c.control i = .idle ∧ c.stores ≠ []))
  | .resume _ => inferInstanceAs (Decidable True)

omit [DecidableEq ι] in
theorem Ordered.valid {c : Statics ι} {op : Op ι} (h : Ordered c op) : Valid c op := by
  cases op with
  | store i state => exact h
  | take i => exact h.1
  | resume i => trivial

/-- How far the one store that passes its assertion has come. -/
inductive Stored (ι : Type) where
  | never
  | filling (thread : ι) (state : PostStackState)
  | filled (thread : ι) (state : PostStackState)

inductive Taken (ι : Type) where
  | never
  | claiming (thread : ι)
  | took (thread : ι) (state : PostStackState)
  | lost

def Stored.log : Stored ι → List (ι × PostStackState)
  | .filled i state => [(i, state)]
  | _ => []

def Taken.log : Taken ι → List (ι × PostStackState)
  | .took i state => [(i, state)]
  | _ => []

def held : Stored ι → Taken ι → Option PostStackState
  | .filled _ _, .took _ _ => none
  | .filled _ state, _ => some state
  | _, _ => none

/-- Where the threads stand, told from the two phases. -/
structure Threads (control : ι → Control) (p : Stored ι) (q : Taken ι) : Prop where
  storing : ∀ i state, control i = .storing state ↔ p = .filling i state
  taking : ∀ i, control i = .taking → p ≠ .never
  claiming : ∀ i, control i = .claiming ↔ q = .claiming i
  lost : ∀ i, control i = .stopped .cellNone → q = .lost

/-- The statics and all threads, told from the two phases. -/
structure Phased (c : Statics ι) (p : Stored ι) (q : Taken ι) : Prop where
  threads : Threads c.control p q
  stored : c.stored = true ↔ p ≠ .never
  taken : c.taken = true ↔ q ≠ .never
  after : q ≠ .never → p ≠ .never
  same : ∀ i state, q = .took i state → ∃ j, p = .filled j state
  cell : c.cell = held p q
  locked : c.locked = true ↔ q = .lost
  unfilled : q = .lost → ∀ i state, p ≠ .filled i state
  stores : c.stores = p.log
  takes : c.takes = q.log

omit [DecidableEq ι] in
theorem initial_phased : Phased (initial : Statics ι) .never .never where
  threads := ⟨by simp [initial], by simp [initial], by simp [initial], by simp [initial]⟩
  stored := by simp [initial]
  taken := by simp [initial]
  after begun := absurd rfl begun
  same i state took := by cases took
  cell := rfl
  locked := by simp [initial]
  unfilled lost := by cases lost
  stores := rfl
  takes := rfl

theorem Threads.move {control : ι → Control} {p p' : Stored ι} {q q' : Taken ι} {i : ι} {now : Control}
    (h : Threads control p q) (storing : ∀ state, now = .storing state ↔ p' = .filling i state)
    (taking : now = .taking → p' ≠ .never) (claiming : now = .claiming ↔ q' = .claiming i)
    (lost : now = .stopped .cellNone → q' = .lost)
    (fillers : ∀ j, j ≠ i → ∀ state, p = .filling j state ↔ p' = .filling j state)
    (claimers : ∀ j, j ≠ i → (q = .claiming j ↔ q' = .claiming j))
    (begun : p ≠ .never → p' ≠ .never) (stays : q = .lost → q' = .lost) :
    Threads (Function.update control i now) p' q' where
  storing j state := by
    by_cases hj : j = i
    · subst j
      rw [Function.update_self]
      exact storing state
    · rw [Function.update_of_ne hj]
      exact (h.storing j state).trans (fillers j hj state)
  taking j := by
    by_cases hj : j = i
    · subst j
      rw [Function.update_self]
      exact taking
    · rw [Function.update_of_ne hj]
      exact fun at_taking => begun (h.taking j at_taking)
  claiming j := by
    by_cases hj : j = i
    · subst j
      rw [Function.update_self]
      exact claiming
    · rw [Function.update_of_ne hj]
      exact (h.claiming j).trans (claimers j hj)
  lost j := by
    by_cases hj : j = i
    · subst j
      rw [Function.update_self]
      exact lost
    · rw [Function.update_of_ne hj]
      exact fun at_lost => stays (h.lost j at_lost)

namespace Phased

variable {c : Statics ι} {p : Stored ι} {q : Taken ι} {i : ι} {state : PostStackState}

theorem moved (h : Phased c p q) {now : Control} (unstoring : ∀ state, p ≠ .filling i state)
    (unclaiming : q ≠ .claiming i) (storing : ∀ state, now ≠ .storing state) (claiming : now ≠ .claiming)
    (taking : now = .taking → p ≠ .never) (lost : now ≠ .stopped .cellNone) : Phased (c.goto i now) p q :=
  { h with
    threads := h.threads.move (fun state => iff_of_false (storing state) (unstoring state)) taking
      (iff_of_false claiming unclaiming) (fun at_lost => absurd at_lost lost) (fun _ _ _ => Iff.rfl)
      (fun _ _ => Iff.rfl) id id }

omit [DecidableEq ι] in
theorem idle (h : Phased c p q) (at_idle : c.control i = .idle) :
    (∀ state, p ≠ .filling i state) ∧ q ≠ .claiming i := by
  constructor
  · intro state filling
    rw [(h.threads.storing i state).mpr filling] at at_idle
    cases at_idle
  · intro claiming
    rw [(h.threads.claiming i).mpr claiming] at at_idle
    cases at_idle

theorem store (h : Phased c p q) (at_idle : c.control i = .idle) (state : PostStackState) :
    ∃ p', Phased (c.store i state) p' q := by
  obtain ⟨unstoring, unclaiming⟩ := h.idle at_idle
  unfold Statics.store
  split
  · exact ⟨p, h.moved unstoring unclaiming (by simp) (by simp) (by simp) (by simp)⟩
  · rename_i fresh
    obtain rfl : p = .never := by
      by_contra begun
      exact fresh (h.stored.mpr begun)
    obtain rfl : q = .never := by
      by_contra begun
      exact h.after begun rfl
    exact ⟨.filling i state, {
      threads := h.threads.move (fun v => by simp) (by simp) (by simp) (by simp)
        (fun j other v => by simp [Ne.symm other]) (fun _ _ => Iff.rfl) (by simp) id
      stored := iff_of_true rfl (by simp)
      taken := h.taken
      after := by simp
      same := by simp
      cell := h.cell
      locked := h.locked
      unfilled := by simp
      stores := h.stores
      takes := h.takes }⟩

theorem take (h : Phased c p q) (at_idle : c.control i = .idle) : Phased (c.take i) p q := by
  obtain ⟨unstoring, unclaiming⟩ := h.idle at_idle
  unfold Statics.take
  split
  · rename_i stored
    exact h.moved unstoring unclaiming (by simp) (by simp) (fun _ => h.stored.mp stored) (by simp)
  · exact h.moved unstoring unclaiming (by simp) (by simp) (by simp) (by simp)

/-- The write of `CELL`: a claim that came before it is still without a value. -/
theorem fill (h : Phased c (.filling i state) q) (free : c.locked ≠ true) :
    Phased ({ c with cell := some state, stores := (i, state) :: c.stores }.goto i .idle) (.filled i state) q where
  threads := h.threads.move (by simp) (by simp) (iff_of_false (by simp) (fun claiming => by
      have filling := (h.threads.storing i state).mpr rfl
      rw [(h.threads.claiming i).mpr claiming] at filling
      cases filling)) (by simp)
    (fun j other v => by simp [Ne.symm other]) (fun _ _ => Iff.rfl) (by simp) id
  stored := iff_of_true (h.stored.mpr (by simp)) (by simp)
  taken := h.taken
  after := by simp
  same j v took := by
    obtain ⟨k, filled⟩ := h.same j v took
    cases filled
  cell := by
    cases q with
    | took j v =>
      obtain ⟨k, filled⟩ := h.same j v rfl
      cases filled
    | _ => rfl
  locked := h.locked
  unfilled lost := absurd (h.locked.mpr lost) free
  stores := by
    show (i, state) :: c.stores = [(i, state)]
    rw [h.stores]
    rfl
  takes := h.takes

theorem resume (h : Phased c p q) (i : ι) :
    ∃ p' q', Phased (c.resume i) p' q' := by
  unfold Statics.resume
  split
  case h_1 | h_5 => exact ⟨p, q, h⟩
  case h_2 state storing =>
    obtain rfl := (h.threads.storing i state).mp storing
    split
    · exact ⟨_, q, h⟩
    · rename_i free
      exact ⟨_, _, h.fill free⟩
  case h_3 taking =>
    have unstoring : ∀ state, p ≠ .filling i state := fun state filling => by
      rw [(h.threads.storing i state).mpr filling] at taking
      cases taking
    have unclaiming : q ≠ .claiming i := fun claiming => by
      rw [(h.threads.claiming i).mpr claiming] at taking
      cases taking
    split
    · exact ⟨p, q, h.moved unstoring unclaiming (by simp) (by simp) (by simp) (by simp)⟩
    · rename_i fresh
      obtain rfl : q = .never := by
        by_contra begun
        exact fresh (h.taken.mpr begun)
      exact ⟨p, .claiming i, {
        threads := h.threads.move (fun state => iff_of_false (by simp) (unstoring state)) (by simp) (by simp) (by simp)
          (fun _ _ _ => Iff.rfl) (fun j other => by simp [Ne.symm other]) id (by simp)
        stored := h.stored
        taken := iff_of_true rfl (by simp)
        after := fun _ => h.threads.taking i taking
        same := by simp
        cell := h.cell.trans (by cases p <;> rfl)
        locked := h.locked.trans (by simp)
        unfilled := by simp
        stores := h.stores
        takes := h.takes }⟩
  case h_4 claiming =>
    obtain rfl := (h.threads.claiming i).mp claiming
    have begun := h.after (by simp)
    have unstoring : ∀ state, p ≠ .filling i state := fun state filling => by
      rw [(h.threads.storing i state).mpr filling] at claiming
      cases claiming
    split
    · exact ⟨p, _, h⟩
    split
    · rename_i state full
      obtain ⟨j, rfl⟩ : ∃ j, p = .filled j state := by
        rw [h.cell] at full
        cases p with
        | filled j v =>
          obtain rfl := Option.some.inj full
          exact ⟨j, rfl⟩
        | _ => cases full
      exact ⟨_, .took i state, {
        threads := h.threads.move (by simp) (by simp) (by simp) (by simp) (fun _ _ _ => Iff.rfl)
          (fun k other => by simp [Ne.symm other]) id (by simp)
        stored := h.stored
        taken := iff_of_true (h.taken.mpr (by simp)) (by simp)
        after := fun _ => begun
        same := fun k v took => by
          obtain ⟨rfl, rfl⟩ := Taken.took.inj took
          exact ⟨j, rfl⟩
        cell := rfl
        locked := h.locked.trans (by simp)
        unfilled := by simp
        stores := h.stores
        takes := by
          show (i, state) :: c.takes = [(i, state)]
          rw [h.takes]
          rfl }⟩
    · -- the taker came between the two accesses of `store`
      rename_i empty
      obtain ⟨j, state, rfl⟩ : ∃ j state, p = .filling j state := by
        rw [h.cell] at empty
        cases p with
        | never => exact absurd rfl begun
        | filling j state => exact ⟨j, state, rfl⟩
        | filled j state => cases empty
      exact ⟨_, .lost, {
        threads := h.threads.move (fun v => iff_of_false (by simp) (unstoring v)) (by simp) (by simp) (by simp)
          (fun _ _ _ => Iff.rfl) (fun k other => by simp [Ne.symm other]) id (by simp)
        stored := h.stored
        taken := iff_of_true (h.taken.mpr (by simp)) (by simp)
        after := fun _ => begun
        same := by simp
        cell := h.cell
        locked := iff_of_true rfl rfl
        unfilled := by simp
        stores := h.stores
        takes := h.takes }⟩

theorem step (h : Phased c p q) {op : Op ι} {c' : Statics ι} (valid : Valid c op) (done : exec c op = .ok c') :
    ∃ p' q', Phased c' p' q' := by
  cases op with
  | store i state =>
    obtain rfl := Except.ok.inj done
    obtain ⟨p', stored⟩ := h.store valid state
    exact ⟨p', q, stored⟩
  | take i =>
    obtain rfl := Except.ok.inj done
    exact ⟨p, q, h.take valid⟩
  | resume i =>
    obtain rfl := Except.ok.inj done
    exact h.resume i

omit [DecidableEq ι] in
theorem stores_iff (h : Phased c p q) (i : ι) (state : PostStackState) :
    (i, state) ∈ c.stores ↔ p = .filled i state := by
  rw [h.stores]
  cases p <;> simp [Stored.log, eq_comm]

omit [DecidableEq ι] in
theorem takes_iff (h : Phased c p q) (i : ι) (state : PostStackState) :
    (i, state) ∈ c.takes ↔ q = .took i state := by
  rw [h.takes]
  cases q <;> simp [Taken.log, eq_comm]

end Phased

theorem reach_phased {c : Statics ι} (run : Reach exec Valid initial c) : ∃ p q, Phased c p q := by
  refine run.invariant (I := fun c => ∃ p q, Phased c p q) ⟨_, _, initial_phased⟩ ?_
  intro c op c' phased valid done
  obtain ⟨p, q, h⟩ := phased
  exact h.step valid done

/-- What the two calls promise together. -/
structure HandedOver (c : Statics ι) : Prop where
  stored_once : c.stores.length ≤ 1
  taken_once : c.takes.length ≤ 1
  faithful : ∀ k state, (k, state) ∈ c.takes → ∃ i, (i, state) ∈ c.stores
  kept : ∀ state, c.cell = some state ↔ (∃ i, (i, state) ∈ c.stores) ∧ c.takes = []
  claims : ∀ k, c.control k = .claiming → ∀ i state, (i, state) ∈ c.stores → (c.resume k).takes = [(k, state)]
  lost : ∀ k, c.control k = .stopped .cellNone → c.locked = true ∧ c.stores = [] ∧ c.takes = [] ∧
    ∀ i, c.control i ≠ .claiming

theorem Phased.handedOver {c : Statics ι} {p : Stored ι} {q : Taken ι} (h : Phased c p q) : HandedOver c where
  stored_once := by
    rw [h.stores]
    cases p <;> simp [Stored.log]
  taken_once := by
    rw [h.takes]
    cases q <;> simp [Taken.log]
  faithful k state took := by
    obtain ⟨i, filled⟩ := h.same k state ((h.takes_iff k state).mp took)
    exact ⟨i, (h.stores_iff i state).mpr filled⟩
  kept state := by
    rw [h.cell, h.takes]
    simp only [h.stores_iff]
    cases p <;> cases q <;> simp [held, Taken.log]
  claims k claiming i state stored := by
    obtain rfl := (h.threads.claiming k).mp claiming
    obtain rfl := (h.stores_iff i state).mp stored
    have full : c.cell = some state := h.cell
    have free : ¬ c.locked = true := fun locked => by cases h.locked.mp locked
    simp only [Statics.resume, claiming, full, if_neg free]
    show (k, state) :: c.takes = [(k, state)]
    rw [h.takes]
    rfl
  lost k stopped := by
    obtain rfl := h.threads.lost k stopped
    refine ⟨h.locked.mpr rfl, ?_, h.takes, fun i claiming => ?_⟩
    · have unfilled := h.unfilled rfl
      rw [h.stores]
      cases p with
      | filled i state => exact absurd rfl (unfilled i state)
      | _ => rfl
    · cases (h.threads.claiming i).mp claiming

/-- However the calls of any threads interleave, at most one store and one take return; the take returns
what was stored, the cell keeps the value until then, and a take that overtook the store's write stops with
the cell locked, so that neither call ever returns. -/
theorem hands_over_once {c : Statics ι} (run : Reach exec Valid initial c) : HandedOver c := by
  obtain ⟨p, q, h⟩ := reach_phased run
  exact h.handedOver

/-- A second thread comes between the two accesses of `store`, which then waits for the lock. -/
def overtaking : List (Op (Fin 2)) :=
  [.store 0 ⟨none, some (0x10000, 4)⟩, .take 1, .resume 1, .resume 1, .resume 0]

theorem overtaking_hands_over : ∃ c : Statics (Fin 2), Reach exec Valid initial c ∧
    c.control 0 = .storing ⟨none, some (0x10000, 4)⟩ ∧ c.control 1 = .stopped .cellNone ∧ c.cell = none ∧
    HandedOver c := by
  obtain ⟨c, ran, spins, stopped, cell⟩ : ∃ c, trial exec Valid (initial : Statics (Fin 2)) overtaking = some c ∧
      c.control 0 = .storing ⟨none, some (0x10000, 4)⟩ ∧ c.control 1 = .stopped .cellNone ∧ c.cell = none :=
    ⟨_, rfl, by decide, by decide, by decide⟩
  have run := trial_reach overtaking .start ran
  exact ⟨c, run, spins, stopped, cell, hands_over_once run⟩

structure Prompt (c : Statics ι) : Prop where
  returned : ∀ i, c.control i = .taking ∨ c.control i = .claiming → c.stores ≠ []
  unstopped : ∀ i, c.control i ≠ .stopped .notStored ∧ c.control i ≠ .stopped .cellNone

theorem Prompt.move {c c' : Statics ι} {i : ι} {now : Control} (h : Prompt c)
    (control : c'.control = Function.update c.control i now) (stores : c.stores ≠ [] → c'.stores ≠ [])
    (returned : now = .taking ∨ now = .claiming → c'.stores ≠ [])
    (unstopped : now ≠ .stopped .notStored ∧ now ≠ .stopped .cellNone) : Prompt c' where
  returned j := by
    rw [control]
    by_cases hj : j = i
    · subst j
      rw [Function.update_self]
      exact returned
    · rw [Function.update_of_ne hj]
      exact fun began => stores (h.returned j began)
  unstopped j := by
    rw [control]
    by_cases hj : j = i
    · subst j
      rw [Function.update_self]
      exact unstopped
    · rw [Function.update_of_ne hj]
      exact h.unstopped j

omit [DecidableEq ι] in
theorem Phased.claim {c : Statics ι} {p : Stored ι} {q : Taken ι} {i : ι} (h : Phased c p q)
    (claiming : c.control i = .claiming) (returned : c.stores ≠ []) :
    ¬ c.locked = true ∧ ∃ j state, (j, state) ∈ c.stores ∧ c.cell = some state := by
  obtain rfl := (h.threads.claiming i).mp claiming
  have free : ¬ c.locked = true := fun locked => by cases h.locked.mp locked
  refine ⟨free, ?_⟩
  rw [h.stores] at returned
  cases p with
  | filled j state => exact ⟨j, state, (h.stores_iff j state).mpr rfl, h.cell⟩
  | _ => exact absurd rfl returned

theorem Prompt.step {c c' : Statics ι} {p : Stored ι} {q : Taken ι} {op : Op ι} (h : Prompt c)
    (phased : Phased c p q) (ordered : Ordered c op) (done : exec c op = .ok c') : Prompt c' := by
  cases op with
  | store i state =>
    obtain rfl := Except.ok.inj done
    unfold Statics.store
    split
    · exact h.move rfl id (by simp) (by simp)
    · exact h.move rfl id (by simp) (by simp)
  | take i =>
    obtain rfl := Except.ok.inj done
    have returned := ordered.2
    have stored : c.stored = true := by
      rw [phased.stored]
      rintro rfl
      exact returned phased.stores
    unfold Statics.take
    rw [if_pos stored]
    exact h.move rfl id (fun _ => returned) (by simp)
  | resume i =>
    obtain rfl := Except.ok.inj done
    unfold Statics.resume
    split
    case h_1 | h_5 => exact h
    case h_2 state storing =>
      split
      · exact h
      · exact h.move rfl (fun _ => List.cons_ne_nil _ _) (by simp) (by simp)
    case h_3 taking =>
      have returned := h.returned i (Or.inl taking)
      split
      · exact h.move rfl id (by simp) (by simp)
      · exact h.move rfl id (fun _ => returned) (by simp)
    case h_4 claiming =>
      obtain ⟨free, _, state, _, full⟩ := phased.claim claiming (h.returned i (Or.inr claiming))
      simp only [full, if_neg free]
      exact h.move rfl id (by simp) (by simp)

theorem reach_prompt {c : Statics ι} (run : Reach exec Ordered initial c) :
    (∃ p q, Phased c p q) ∧ Prompt c := by
  refine run.invariant (I := fun c => (∃ p q, Phased c p q) ∧ Prompt c) ⟨⟨_, _, initial_phased⟩, ?_⟩ ?_
  · exact ⟨by simp [initial], by simp [initial]⟩
  · intro c op c' before ordered done
    obtain ⟨⟨p, q, phased⟩, prompt⟩ := before
    exact ⟨phased.step ordered.valid done, prompt.step phased ordered done⟩

def takeAll (c : Statics ι) (i : ι) : Statics ι := ((c.take i).resume i).resume i

theorem takeAll_untaken {c : Statics ι} {j : ι} {p : Stored ι} {state : PostStackState}
    (h : Phased c p .never) (filled : p = .filled j state) (i : ι) :
    (c.takeAll i).takes = [(i, state)] ∧ (c.takeAll i).control i = .idle ∧ (c.takeAll i).cell = none := by
  subst filled
  have stored : c.stored = true := h.stored.mpr (by simp)
  have untaken : c.taken ≠ true := fun taken => h.taken.mp taken rfl
  have full : c.cell = some state := h.cell
  have none_taken : c.takes = [] := h.takes
  have free : ¬ c.locked = true := fun locked => by cases h.locked.mp locked
  simp [takeAll, Statics.take, Statics.resume, goto, stored, untaken, full, none_taken, free]

theorem takeAll_taken {c : Statics ι} {p : Stored ι} {q : Taken ι} (h : Phased c p q) (begun : q ≠ .never) (i : ι) :
    (c.takeAll i).control i = .stopped .takenTwice ∧ (c.takeAll i).takes = c.takes := by
  have stored : c.stored = true := h.stored.mpr (h.after begun)
  have taken : c.taken = true := h.taken.mpr begun
  simp [takeAll, Statics.take, Statics.resume, goto, stored, taken]

/-- In the order of `kernel_main` no take stops for a missing value, however the accesses interleave:
the thread that claims returns what was stored, and every other one stops as the second. -/
theorem ordered_take_returns {c : Statics ι} (run : Reach exec Ordered initial c) :
    (∀ i, c.control i ≠ .stopped .notStored ∧ c.control i ≠ .stopped .cellNone) ∧
    (∀ i, c.control i = .taking →
      (c.taken = false → (c.resume i).control i = .claiming ∧ (c.resume i).taken = true) ∧
      (c.taken = true → (c.resume i).control i = .stopped .takenTwice ∧ (c.resume i).takes = c.takes)) ∧
    (∀ i, c.control i = .claiming → ∃ j state, (j, state) ∈ c.stores ∧ (c.resume i).takes = [(i, state)] ∧
      (c.resume i).control i = .idle ∧ (c.resume i).cell = none) ∧
    ∀ i j state, (j, state) ∈ c.stores →
      (c.taken = false → (c.takeAll i).takes = [(i, state)] ∧ (c.takeAll i).control i = .idle ∧
        (c.takeAll i).cell = none) ∧
      (c.taken = true → (c.takeAll i).control i = .stopped .takenTwice ∧ (c.takeAll i).takes = c.takes) := by
  obtain ⟨⟨p, q, phased⟩, prompt⟩ := reach_prompt run
  refine ⟨prompt.unstopped, fun i taking => ⟨fun untaken => ?_, fun taken => ?_⟩, fun i claiming => ?_,
    fun i j state stored => ⟨fun untaken => ?_, fun taken => ?_⟩⟩
  · simp [Statics.resume, taking, untaken, goto]
  · simp [Statics.resume, taking, taken, goto]
  · obtain ⟨free, j, state, stored, full⟩ := phased.claim claiming (prompt.returned i (Or.inr claiming))
    obtain rfl := (phased.threads.claiming i).mp claiming
    have none_taken : c.takes = [] := phased.takes
    exact ⟨j, state, stored, by simp [Statics.resume, claiming, free, full, none_taken, goto]⟩
  · obtain rfl : q = .never := by
      by_contra begun
      rw [phased.taken.mpr begun] at untaken
      cases untaken
    exact takeAll_untaken phased ((phased.stores_iff j state).mp stored) i
  · exact takeAll_taken phased (phased.taken.mp taken) i

/-- The boot thread stores, then continues on the new stack. -/
theorem ordered_take_sample : ∃ c : Statics (Fin 2), Reach exec Ordered initial c ∧
    c.stores = [(0, ⟨some 0xE0000, none⟩)] ∧ c.taken = false ∧ (c.takeAll 0).takes = [(0, ⟨some 0xE0000, none⟩)] := by
  obtain ⟨c, ran, stores, untaken⟩ : ∃ c,
      trial exec Ordered (initial : Statics (Fin 2)) [.store 0 ⟨some 0xE0000, none⟩, .resume 0] = some c ∧
        c.stores = [(0, ⟨some 0xE0000, none⟩)] ∧ c.taken = false := ⟨_, rfl, by decide, by decide⟩
  have run := trial_reach _ .start ran
  have stored : ((0 : Fin 2), (⟨some 0xE0000, none⟩ : PostStackState)) ∈ c.stores := by
    rw [stores]
    exact List.mem_cons_self
  exact ⟨c, run, stores, untaken, (((ordered_take_returns run).2.2.2 0 0 _ stored).1 untaken).1⟩

end Statics
end PostStackState
end CrustyOs.Kernel
