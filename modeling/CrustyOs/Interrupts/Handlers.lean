import CrustyOs.Interrupts.Chips
import Mathlib.Logic.Function.Basic

/-! The interrupt code: counters, the table of registered handlers, the mask registers, and one
handler for each gate of the descriptor table. -/
namespace CrustyOs.Interrupts

/-- What a panic prints: its text, the error code and the address it names. The frame is left out. -/
structure Report where
  text : String
  errorCode : Option Nat
  faultAddr : Option Nat
deriving DecidableEq

inductive Stop where
  | panic (report : Report)
  | indexOutOfBounds
  | shiftOverflow
  /-- The lock of the controllers is taken and its holder cannot run. -/
  | spins
deriving DecidableEq

inductive Event (η : Type) where
  /-- An interrupt reached the processor; `due` is the handler registered for its line. -/
  | arrived (vector : Nat) (due : Option (Nat × η))
  | called (irq : Nat) (handler : η)
  | masked (irq : Nat)
  | unmasked (irq : Nat)
  | allMasked

/-- The statics of the interrupt modules and the ports; `η` are the handlers, told by their pointers. -/
structure Irqs (σ η : Type) where
  ports : σ
  counters : Nat → BitVec 64
  ticks : BitVec 64
  handlers : Nat → Option η
  /-- The line whose `mask_irq` holds the lock of the controllers. -/
  held : Option Nat
  enabled : Bool
  log : List (Event η)

namespace Irqs

variable {σ η : Type}

/-- A call that returns, or stops and leaves the state it stopped in. -/
abbrev Run (σ η α : Type) := Except (Irqs σ η × Stop) α

/-! ### `vectors` -/

def exceptionDivideError : Nat := 0x00
def exceptionDebug : Nat := 0x01
def exceptionNmi : Nat := 0x02
def exceptionBreakpoint : Nat := 0x03
def exceptionOverflow : Nat := 0x04
def exceptionBoundRange : Nat := 0x05
def exceptionInvalidOpcode : Nat := 0x06
def exceptionDeviceNotAvail : Nat := 0x07
def exceptionDoubleFault : Nat := 0x08
def exceptionInvalidTss : Nat := 0x0A
def exceptionSegmentNotPresent : Nat := 0x0B
def exceptionStackSegment : Nat := 0x0C
def exceptionGeneralProtection : Nat := 0x0D
def exceptionPageFault : Nat := 0x0E
def exceptionX87Fp : Nat := 0x10
def exceptionAlignmentCheck : Nat := 0x11
def exceptionMachineCheck : Nat := 0x12
def exceptionSimdFp : Nat := 0x13
def exceptionVirtualization : Nat := 0x14
def picIrqTimer : Nat := 0x20
def picIrqKeyboard : Nat := 0x21
def picIrqSpuriousMaster : Nat := 0x27
def picIrqRtc : Nat := 0x28
def picIrqMouse : Nat := 0x2C
def picIrqAtaPrimary : Nat := 0x2E
def picIrqAtaSecondary : Nat := 0x2F
def apicSpurious : Nat := 0xFF

/-! ### `stats`, `timer` and `dispatch` -/

def record (k : Irqs σ η) (vector : Nat) : Irqs σ η :=
  { k with counters := Function.update k.counters vector (k.counters vector + 1) }

def count (k : Irqs σ η) (vector : Nat) : BitVec 64 := k.counters vector

def tick (k : Irqs σ η) : Irqs σ η := { k with ticks := k.ticks + 1 }

def uptimeMs (k : Irqs σ η) : BitVec 64 := k.ticks

/-- The compare-exchange of an empty slot; the flag says whether it succeeded. -/
def register (k : Irqs σ η) (irq : Nat) (handler : η) : Run σ η (Bool × Irqs σ η) :=
  if irq < 16 then
    match k.handlers irq with
    | none => .ok (true, { k with handlers := Function.update k.handlers irq (some handler) })
    | some _ => .ok (false, k)
  else .error (k, .indexOutOfBounds)

def unregister (k : Irqs σ η) (irq : Nat) : Run σ η (Irqs σ η) :=
  if irq < 16 then .ok { k with handlers := Function.update k.handlers irq none }
  else .error (k, .indexOutOfBounds)

/-- `effect` is what a handler's own calls make of the table: it may register and unregister, and
does nothing else here. -/
def dispatch (effect : η → (Nat → Option η) → Nat → Option η) (k : Irqs σ η) (irq : Nat) : Run σ η (Irqs σ η) :=
  if irq < 16 then
    match k.handlers irq with
    | none => .ok k
    | some f => .ok { k with handlers := effect f k.handlers, log := .called irq f :: k.log }
  else .error (k, .indexOutOfBounds)

/-! ### `pic` -/

/-- `pic::init`: the master answers every line, the slave none. -/
def picInit (H : PortSpace σ) (k : Irqs σ η) : Irqs σ η :=
  let ports := H.initializePics k.ports
  let ports := H.write 0x21 0x00 ports
  { k with ports := H.write 0xA1 0xFF ports }

def endOfInterrupt (H : PortSpace σ) (k : Irqs σ η) (vector : Nat) : Run σ η (Irqs σ η) :=
  match k.held with
  | none => .ok { k with ports := H.notifyEndOfInterrupt vector k.ports }
  | some _ => .error (k, .spins)

def maskPort (irq : Nat) : Nat := if irq < 8 then 0x21 else 0xA1

def maskShift (irq : Nat) : Nat := if irq < 8 then irq else irq - 8

/-- `mask_irq` up to its lock. An interrupt can come before the rest. -/
def maskLock (k : Irqs σ η) (irq : Nat) : Run σ η (Irqs σ η) :=
  match k.held with
  | none => .ok { k with held := some irq }
  | some _ => .error (k, .spins)

def maskWrite (H : PortSpace σ) (k : Irqs σ η) : Run σ η (Irqs σ η) :=
  match k.held with
  | none => .ok k
  | some irq =>
    let (current, ports) := H.read (maskPort irq) k.ports
    if maskShift irq < 8 then
      .ok { k with
        ports := H.write (maskPort irq) (current ||| 1#8 <<< maskShift irq) ports
        held := none
        log := .masked irq :: k.log }
    else .error ({ k with ports := ports }, .shiftOverflow)

def unmaskIrq (H : PortSpace σ) (k : Irqs σ η) (irq : Nat) : Run σ η (Irqs σ η) :=
  let (current, ports) := H.read (maskPort irq) k.ports
  if maskShift irq < 8 then
    .ok { k with
      ports := H.write (maskPort irq) (current &&& ~~~(1#8 <<< maskShift irq)) ports
      log := .unmasked irq :: k.log }
  else .error ({ k with ports := ports }, .shiftOverflow)

def readImr (H : PortSpace σ) (k : Irqs σ η) : BitVec 16 × Irqs σ η :=
  let (master, ports) := H.read 0x21 k.ports
  let (slave, ports) := H.read 0xA1 ports
  (master.setWidth 16 ||| slave.setWidth 16 <<< 8, { k with ports := ports })

def disablePic (H : PortSpace σ) (k : Irqs σ η) : Irqs σ η :=
  let ports := H.write 0xA1 0xFF k.ports
  { k with ports := H.write 0x21 0xFF ports, log := .allMasked :: k.log }

def irqInService (H : PortSpace σ) (k : Irqs σ η) (irq : Nat) : Bool × Irqs σ η :=
  let (port, bit) := if irq < 8 then (0x20, irq) else (0xA0, irq - 8)
  let (isr, ports) := H.read port (H.write port 0x0B k.ports)
  (isr &&& 1#8 <<< bit != 0, { k with ports := ports })

def eoiIfNotSpuriousMaster (H : PortSpace σ) (k : Irqs σ η) : Run σ η (Irqs σ η) :=
  let (inService, k) := irqInService H k 7
  if inService then endOfInterrupt H k 0x27 else .ok k

def eoiIfNotSpuriousSlave (H : PortSpace σ) (k : Irqs σ η) : Run σ η (Irqs σ η) :=
  let (inService, k) := irqInService H k 15
  if inService then endOfInterrupt H k 0x2F
  else endOfInterrupt H k 0x20 -- the cascade line of the master did assert

/-! ### `handlers` -/

structure Trap where
  errorCode : Nat
  cr2 : Nat
deriving DecidableEq

section Handlers

variable (H : PortSpace σ) (effect : η → (Nat → Option η) → Nat → Option η)

def fault (vector : Nat) (text : String) (errorCode faultAddr : Option Nat) (k : Irqs σ η) : Run σ η (Irqs σ η) :=
  .error (k.record vector, .panic ⟨text, errorCode, faultAddr⟩)

def trap (vector : Nat) (k : Irqs σ η) : Run σ η (Irqs σ η) := .ok (k.record vector)

def divideErrorHandler (k : Irqs σ η) (_ : Trap) : Run σ η (Irqs σ η) :=
  fault exceptionDivideError "#DE divide error" none none k

def debugHandler (k : Irqs σ η) (_ : Trap) : Run σ η (Irqs σ η) := trap exceptionDebug k

def nmiHandler (k : Irqs σ η) (_ : Trap) : Run σ η (Irqs σ η) :=
  fault exceptionNmi "NMI — hardware failure" none none k

def breakpointHandler (k : Irqs σ η) (_ : Trap) : Run σ η (Irqs σ η) := trap exceptionBreakpoint k

def overflowHandler (k : Irqs σ η) (_ : Trap) : Run σ η (Irqs σ η) := trap exceptionOverflow k

def boundRangeHandler (k : Irqs σ η) (_ : Trap) : Run σ η (Irqs σ η) :=
  fault exceptionBoundRange "#BR bound range exceeded" none none k

def invalidOpcodeHandler (k : Irqs σ η) (_ : Trap) : Run σ η (Irqs σ η) :=
  fault exceptionInvalidOpcode "#UD invalid opcode" none none k

def deviceNotAvailableHandler (k : Irqs σ η) (_ : Trap) : Run σ η (Irqs σ η) :=
  fault exceptionDeviceNotAvail "#NM device not available — implement lazy FPU switching" none none k

def doubleFaultHandler (k : Irqs σ η) (_ : Trap) : Run σ η (Irqs σ η) :=
  fault exceptionDoubleFault "#DF double fault" none none k

def invalidTssHandler (k : Irqs σ η) (t : Trap) : Run σ η (Irqs σ η) :=
  fault exceptionInvalidTss "#TS invalid TSS" (some t.errorCode) none k

def segmentNotPresentHandler (k : Irqs σ η) (t : Trap) : Run σ η (Irqs σ η) :=
  fault exceptionSegmentNotPresent "#NP segment not present" (some t.errorCode) none k

def stackSegmentHandler (k : Irqs σ η) (t : Trap) : Run σ η (Irqs σ η) :=
  fault exceptionStackSegment "#SS stack segment fault" (some t.errorCode) none k

def generalProtectionHandler (k : Irqs σ η) (t : Trap) : Run σ η (Irqs σ η) :=
  fault exceptionGeneralProtection "#GP general protection fault" (some t.errorCode) none k

def pageFaultHandler (k : Irqs σ η) (t : Trap) : Run σ η (Irqs σ η) :=
  fault exceptionPageFault "#PF page fault" (some t.errorCode) (some t.cr2) k

def x87FpHandler (k : Irqs σ η) (_ : Trap) : Run σ η (Irqs σ η) :=
  fault exceptionX87Fp "#MF x87 FP exception" none none k

def alignmentCheckHandler (k : Irqs σ η) (t : Trap) : Run σ η (Irqs σ η) :=
  fault exceptionAlignmentCheck "#AC alignment check" (some t.errorCode) none k

def machineCheckHandler (k : Irqs σ η) (_ : Trap) : Run σ η (Irqs σ η) :=
  fault exceptionMachineCheck "#MC machine check — hardware error" none none k

def simdFpHandler (k : Irqs σ η) (_ : Trap) : Run σ η (Irqs σ η) :=
  fault exceptionSimdFp "#XM SIMD FP exception" none none k

def virtualizationHandler (k : Irqs σ η) (_ : Trap) : Run σ η (Irqs σ η) :=
  fault exceptionVirtualization "#VE virtualization exception" none none k

def timerHandler (k : Irqs σ η) (_ : Trap) : Run σ η (Irqs σ η) := do
  let k := k.record picIrqTimer
  let k := k.tick
  let k ← dispatch effect k 0
  endOfInterrupt H k picIrqTimer

def apicSpuriousHandler (k : Irqs σ η) (_ : Trap) : Run σ η (Irqs σ η) := .ok (k.record apicSpurious)

/-- The scancode goes into a decoder whose result is dropped. -/
def keyboardHandler (k : Irqs σ η) (_ : Trap) : Run σ η (Irqs σ η) :=
  let k := k.record picIrqKeyboard
  let (_, ports) := H.read 0x60 k.ports
  endOfInterrupt H { k with ports := ports } picIrqKeyboard

def spuriousMasterHandler (k : Irqs σ η) (_ : Trap) : Run σ η (Irqs σ η) :=
  eoiIfNotSpuriousMaster H (k.record picIrqSpuriousMaster)

def rtcHandler (k : Irqs σ η) (_ : Trap) : Run σ η (Irqs σ η) := do
  let k := k.record picIrqRtc
  let (_, ports) := H.read 0x71 (H.write 0x70 0x0C k.ports)
  let k ← dispatch effect { k with ports := ports } 8
  endOfInterrupt H k picIrqRtc

def mouseHandler (k : Irqs σ η) (_ : Trap) : Run σ η (Irqs σ η) := do
  let k := k.record picIrqMouse
  let (_, ports) := H.read 0x60 k.ports
  let k ← dispatch effect { k with ports := ports } 12
  endOfInterrupt H k picIrqMouse

def ataPrimaryHandler (k : Irqs σ η) (_ : Trap) : Run σ η (Irqs σ η) := do
  let k := k.record picIrqAtaPrimary
  let k ← dispatch effect k 14
  endOfInterrupt H k picIrqAtaPrimary

def ataSecondaryHandler (k : Irqs σ η) (_ : Trap) : Run σ η (Irqs σ η) :=
  eoiIfNotSpuriousSlave H (k.record picIrqAtaSecondary)

/-! ### `exceptions` -/

def idtGates : List (Nat × (Irqs σ η → Trap → Run σ η (Irqs σ η))) :=
  [(exceptionDivideError, divideErrorHandler),
    (exceptionDebug, debugHandler),
    (exceptionNmi, nmiHandler),
    (exceptionBreakpoint, breakpointHandler),
    (exceptionOverflow, overflowHandler),
    (exceptionBoundRange, boundRangeHandler),
    (exceptionInvalidOpcode, invalidOpcodeHandler),
    (exceptionDeviceNotAvail, deviceNotAvailableHandler),
    (exceptionDoubleFault, doubleFaultHandler),
    (exceptionInvalidTss, invalidTssHandler),
    (exceptionSegmentNotPresent, segmentNotPresentHandler),
    (exceptionStackSegment, stackSegmentHandler),
    (exceptionGeneralProtection, generalProtectionHandler),
    (exceptionPageFault, pageFaultHandler),
    (exceptionX87Fp, x87FpHandler),
    (exceptionAlignmentCheck, alignmentCheckHandler),
    (exceptionMachineCheck, machineCheckHandler),
    (exceptionSimdFp, simdFpHandler),
    (exceptionVirtualization, virtualizationHandler),
    (picIrqTimer, timerHandler H effect),
    (picIrqKeyboard, keyboardHandler H),
    (picIrqSpuriousMaster, spuriousMasterHandler H),
    (picIrqRtc, rtcHandler H effect),
    (picIrqMouse, mouseHandler H effect),
    (picIrqAtaPrimary, ataPrimaryHandler H effect),
    (picIrqAtaSecondary, ataSecondaryHandler H),
    (apicSpurious, apicSpuriousHandler)]

/-- The processor goes through the gate of a vector. An entry that was never set is an interrupt gate
that is not present, and the fault for that names it. -/
def enterGate (k : Irqs σ η) (vector external : Nat) (t : Trap) : Run σ η (Irqs σ η) :=
  match (idtGates H effect).lookup vector with
  | some handler => handler k t
  | none => segmentNotPresentHandler k { t with errorCode := vector * 8 + 2 + external }

end Handlers

end Irqs
end CrustyOs.Interrupts
