import Mathlib.Tactic.IntervalCases

/-! The hardware that the interrupt code drives: port accesses, the acknowledge cycle of the
processor, and the two 8259 controllers behind them. -/
namespace CrustyOs.Interrupts

/-- Port accesses and the acknowledge cycle; `initializePics` and `notifyEndOfInterrupt` are those of the
driver for the chained controllers. -/
structure PortSpace (σ : Type) where
  write : Nat → BitVec 8 → σ → σ
  read : Nat → σ → BitVec 8 × σ
  acknowledge : σ → Option (Nat × σ)
  initializePics : σ → σ
  notifyEndOfInterrupt : Nat → σ → σ

/-- The mask and in-service registers of the two controllers. -/
structure Chips where
  masterMask : BitVec 8
  slaveMask : BitVec 8
  masterService : BitVec 8
  slaveService : BitVec 8
deriving DecidableEq

def pic1Offset : Nat := 0x20

def pic2Offset : Nat := 0x28

/-- The end of the highest interrupt in service: the lowest set bit goes. -/
def endHighest (service : BitVec 8) : BitVec 8 := service &&& (service - 1)

theorem endHighest_line {i : Nat} (hi : i < 8) : endHighest (1#8 <<< i) = 0 := by
  interval_cases i <;> rfl

/-- What the processor may be answered: a line that no mask stops comes into service, and a request
that went away is answered as line 7 of its controller without coming into service. -/
inductive Acknowledged (c : Chips) : Nat → Chips → Prop where
  | master (i : Nat) (line : i < 8) (cascade : i ≠ 2) (unmasked : c.masterMask.getLsbD i = false) :
      Acknowledged c (pic1Offset + i) { c with masterService := c.masterService ||| 1#8 <<< i }
  | slave (i : Nat) (line : i < 8) (unmasked : c.slaveMask.getLsbD i = false) :
      Acknowledged c (pic2Offset + i)
        { c with masterService := c.masterService ||| 1#8 <<< 2, slaveService := c.slaveService ||| 1#8 <<< i }
  | spuriousMaster : Acknowledged c (pic1Offset + 7) c
  | spuriousSlave : Acknowledged c (pic2Offset + 7) { c with masterService := c.masterService ||| 1#8 <<< 2 }

/-- The controllers as documented, once `initializePics` has programmed them: `View s c` says that they
run with the registers `c`. -/
structure I8259 {σ : Type} (H : PortSpace σ) (View : σ → Chips → Prop) : Prop where
  programmed : ∀ s, ∃ c, View (H.initializePics s) c ∧ c.masterService = 0 ∧ c.slaveService = 0
  master_mask : ∀ {s c}, View s c → ∀ b, View (H.write 0x21 b s) { c with masterMask := b }
  slave_mask : ∀ {s c}, View s c → ∀ b, View (H.write 0xA1 b s) { c with slaveMask := b }
  read_master_mask : ∀ {s c}, View s c → (H.read 0x21 s).1 = c.masterMask ∧ View (H.read 0x21 s).2 c
  read_slave_mask : ∀ {s c}, View s c → (H.read 0xA1 s).1 = c.slaveMask ∧ View (H.read 0xA1 s).2 c
  /-- A read of the command port after the command that selects the in-service register. -/
  master_service : ∀ {s c}, View s c → (H.read 0x20 (H.write 0x20 0x0B s)).1 = c.masterService ∧
    View (H.read 0x20 (H.write 0x20 0x0B s)).2 c
  slave_service : ∀ {s c}, View s c → (H.read 0xA0 (H.write 0xA0 0x0B s)).1 = c.slaveService ∧
    View (H.read 0xA0 (H.write 0xA0 0x0B s)).2 c
  /-- The driver ends an interrupt of the master there, one of the slave at both. -/
  notify_master : ∀ {s c}, View s c → ∀ v, pic1Offset ≤ v → v < pic1Offset + 8 →
    View (H.notifyEndOfInterrupt v s) { c with masterService := endHighest c.masterService }
  notify_slave : ∀ {s c}, View s c → ∀ v, pic2Offset ≤ v → v < pic2Offset + 8 →
    View (H.notifyEndOfInterrupt v s)
      { c with masterService := endHighest c.masterService, slaveService := endHighest c.slaveService }
  /-- The ports of the keyboard controller and of the clock belong to other devices. -/
  write_other : ∀ {s c}, View s c → ∀ b, View (H.write 0x70 b s) c
  read_other : ∀ {s c}, View s c → ∀ port ∈ [0x60, 0x71], View (H.read port s).2 c
  acknowledge : ∀ {s c v s'}, View s c → H.acknowledge s = some (v, s') → ∃ c', Acknowledged c v c' ∧ View s' c'

/-! A pair of controllers that answers requests one after another. -/

/-- A request line that is raised, or a request that goes away before it is answered. -/
inductive Request where
  | line (irq : Nat)
  | glitchMaster
  | glitchSlave
deriving DecidableEq

structure ChainedPair where
  chips : Chips
  requests : List Request
deriving DecidableEq

namespace ChainedPair

def write (port : Nat) (byte : BitVec 8) (p : ChainedPair) : ChainedPair :=
  if port = 0x21 then { p with chips := { p.chips with masterMask := byte } }
  else if port = 0xA1 then { p with chips := { p.chips with slaveMask := byte } }
  else if port = 0x20 ∧ byte = 0x20 then
    { p with chips := { p.chips with masterService := endHighest p.chips.masterService } }
  else if port = 0xA0 ∧ byte = 0x20 then
    { p with chips := { p.chips with slaveService := endHighest p.chips.slaveService } }
  else p

def read (port : Nat) (p : ChainedPair) : BitVec 8 × ChainedPair :=
  if port = 0x21 then (p.chips.masterMask, p)
  else if port = 0xA1 then (p.chips.slaveMask, p)
  else if port = 0x20 then (p.chips.masterService, p)
  else if port = 0xA0 then (p.chips.slaveService, p)
  else (0, p)

def acknowledge (p : ChainedPair) : Option (Nat × ChainedPair) :=
  match p.requests with
  | [] => none
  | .line irq :: rest =>
    if irq < 8 then
      if irq ≠ 2 ∧ p.chips.masterMask.getLsbD irq = false then
        some (pic1Offset + irq,
          ⟨{ p.chips with masterService := p.chips.masterService ||| 1#8 <<< irq }, rest⟩)
      else none
    else if irq - 8 < 8 ∧ p.chips.slaveMask.getLsbD (irq - 8) = false then
      some (pic2Offset + (irq - 8),
        ⟨⟨p.chips.masterMask, p.chips.slaveMask, p.chips.masterService ||| 1#8 <<< 2,
          p.chips.slaveService ||| 1#8 <<< (irq - 8)⟩, rest⟩)
    else none
  | .glitchMaster :: rest => some (pic1Offset + 7, ⟨p.chips, rest⟩)
  | .glitchSlave :: rest =>
    some (pic2Offset + 7, ⟨{ p.chips with masterService := p.chips.masterService ||| 1#8 <<< 2 }, rest⟩)

def ports : PortSpace ChainedPair where
  write := write
  read := read
  acknowledge := acknowledge
  initializePics p := { p with chips := { p.chips with masterService := 0, slaveService := 0 } }
  notifyEndOfInterrupt vector p :=
    if pic2Offset ≤ vector ∧ vector < pic2Offset + 8 then write 0x20 0x20 (write 0xA0 0x20 p)
    else if pic1Offset ≤ vector ∧ vector < pic1Offset + 8 then write 0x20 0x20 p
    else p

def request (more : List Request) (p : ChainedPair) : ChainedPair := { p with requests := p.requests ++ more }

def View (p : ChainedPair) (c : Chips) : Prop := p.chips = c

theorem acknowledge_spec {p p' : ChainedPair} {v : Nat} (answered : acknowledge p = some (v, p')) :
    Acknowledged p.chips v p'.chips := by
  unfold acknowledge at answered
  split at answered
  · cases answered
  · rename_i irq rest _
    split at answered
    · rename_i low
      split at answered
      · rename_i open_line
        cases answered
        exact .master irq low open_line.1 open_line.2
      · cases answered
    · split at answered
      · rename_i open_line
        cases answered
        exact .slave (irq - 8) open_line.1 open_line.2
      · cases answered
  · cases answered
    exact .spuriousMaster
  · cases answered
    exact .spuriousSlave

theorem lawful : I8259 ports View where
  programmed p := ⟨_, rfl, rfl, rfl⟩
  master_mask := by
    rintro p c rfl b
    rfl
  slave_mask := by
    rintro p c rfl b
    rfl
  read_master_mask := by
    rintro p c rfl
    exact ⟨rfl, rfl⟩
  read_slave_mask := by
    rintro p c rfl
    exact ⟨rfl, rfl⟩
  master_service := by
    rintro p c rfl
    exact ⟨rfl, rfl⟩
  slave_service := by
    rintro p c rfl
    exact ⟨rfl, rfl⟩
  notify_master := by
    rintro p c rfl v low high
    have other : ¬(pic2Offset ≤ v ∧ v < pic2Offset + 8) := by
      unfold pic1Offset pic2Offset at *
      omega
    simp only [ports, if_neg other, if_pos (And.intro low high)]
    rfl
  notify_slave := by
    rintro p c rfl v low high
    simp only [ports, if_pos (And.intro low high)]
    rfl
  write_other := by
    rintro p c rfl b
    rfl
  read_other := by
    rintro p c rfl port listed
    cases listed with
    | head => rfl
    | tail _ listed =>
      obtain rfl := List.mem_singleton.mp listed
      rfl
  acknowledge := by
    rintro p c v p' rfl answered
    exact ⟨_, acknowledge_spec answered, rfl⟩

theorem request_steady {p : ChainedPair} {c : Chips} (more : List Request) (view : View p c) :
    View (request more p) c := view

end ChainedPair

end CrustyOs.Interrupts
