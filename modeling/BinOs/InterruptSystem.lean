import BinOs.GateSequences
import BinOs.InterruptDispatch
import BinOs.InterruptLines
import BinOs.InterruptStubs
import BinOs.TimedWaits

/-! # The kernel and its devices under interrupts

The processor runs `kmain` and the handlers of interrupts, one step at a time. Between any
two of its steps the devices may raise lines, the keyboard may send bytes and the serial port
may get rid of one. The processor's interrupt gates keep one handler from interrupting
another. -/
namespace BinOs.InterruptSystem
open LineEditor Keyboard InterruptTable InterruptDispatch InterruptLines PicPair
open PriorityLines TimedWaits
open GateSequences (Stubs idtInit installExceptions initTimerIrq initKeyboardIrq)

/-- Bytes on their way from the keyboard, the byte that the processor can read, and whether a
command has not been taken yet. -/
structure KeyboardController where
  waiting : List UInt8
  output : Option UInt8
  inputFull : Bool

/-- What `kmain` does next, as far as interrupts are concerned. -/
inductive Point
  | idtInit | installExceptions | initTimerIrq | initKeyboardIrq | idtLoad
  | initPic | acpiInit | initTimer
  | clearFlags | pollOutput | readOutput | awaitReady | enableKeyboard | awaitAccepted
  | enableKeyboardIrq | initTimerInterrupts
  | sti | shellInit | idle | halted
  deriving DecidableEq

/-- Where the handler of an interrupt is: with these port writes to make before it reads the
keyboard's status, before it reads the keyboard's byte, or with these writes to make before it
returns. -/
inductive Serving
  | announcing (writes : List (UInt16 × UInt8))
  | reading
  | ending (writes : List (UInt16 × UInt8))
  deriving DecidableEq

/-- `transmitEmpty` is what `is_transmit_empty` asks the serial port for. Three histories follow
what happens to bytes and pulses: the bytes that `init_keyboard` threw away, those that the
driver handled, and the pulses of the timer that found the one before still waiting or were
withdrawn. -/
structure System where
  point : Point
  serving : Option Serving
  idt : Idt
  chips : Chips
  controller : KeyboardController
  transmitEmpty : Bool
  kernel : Kernel
  drained : List UInt8
  handled : List UInt8
  lostPulses : ℕ

/-- What the kernel is linked with, and what ACPI asks of it: handlers to install, for lines of
the second controller, and whether its initialization succeeds. -/
structure Boot where
  stubs : Stubs
  stubs_ne : stubs.irq0 ≠ stubs.irq1
  requests : List (UInt32 × UInt64 × UInt64)
  requests_slave : ∀ r ∈ requests, 8 ≤ r.1.toUInt8
  acpiSucceeds : Bool

def pulsePending (s : System) : ℕ := if 0 ∈ s.chips.master.lines.requested then 1 else 0

/-- A character fills the serial port's transmitter. -/
def emptyAfter (writes : List (UInt16 × UInt8)) (empty : Bool) : Bool :=
  empty && writes.all fun w => w.1 ≠ serialData

/-- A function of the kernel that works on the table and on the ports. -/
def onControllers (f : Controllers → Controllers) (s : System) : System :=
  let c := f ⟨s.idt, s.kernel.ports⟩
  let writes := newWrites s.kernel.ports c.ports
  { s with
    idt := c.idt
    kernel := { s.kernel with ports := c.ports }
    chips := s.chips.replay writes
    transmitEmpty := emptyAfter writes s.transmitEmpty }

def onPorts (f : Ports → Ports) : System → System :=
  onControllers fun c => { c with ports := f c.ports }

def installRequested (requests : List (UInt32 × UInt64 × UInt64)) (c : Controllers) : Controllers :=
  requests.foldl
    (fun c r => (uacpiKernelInstallInterruptHandler r.1 r.2.1 r.2.2 c).2.2) c

/-- The last two calls of `init_keyboard`. -/
def keyboardInitialized (s : Ports) : Ports :=
  enableKeyboardIrq (printSerialText "Keyboard initialized\r\n" s)

def initTimerInterrupts (s : Ports) : Ports :=
  writeSerialText "Timer: Interrupts initialized\n" (picEnableTimerIrq s)

section Steps
variable (b : Boot)

/-- The next step of `kmain`, a whole call of a function: its messages are written without a
wait. `shell_init` is one step although interrupts are enabled while it runs, and what the
allocator's test and the clock print beside it fills the transmitter. The two waits for the
keyboard's controller stay where they are until it has taken a command. -/
def mainStep (s : System) : Option System :=
  match s.point with
  | .idtInit => some { onControllers idtInit s with point := .installExceptions }
  | .installExceptions =>
    some { onControllers (installExceptions b.stubs.isr) s with point := .initTimerIrq }
  | .initTimerIrq => some { onControllers (initTimerIrq b.stubs.irq0) s with point := .initKeyboardIrq }
  | .initKeyboardIrq => some { onControllers (initKeyboardIrq b.stubs.irq1) s with point := .idtLoad }
  | .idtLoad => some { onPorts (writeSerialText "IDT: Loaded into CPU\n") s with point := .initPic }
  | .initPic =>
    some { onPorts initPic s with
      point := .acpiInit
      lostPulses := s.lostPulses + pulsePending s }
  | .acpiInit =>
    some { onControllers (installRequested b.requests) s with
      point := if b.acpiSucceeds then .initTimer else .halted }
  | .initTimer => some { onPorts initTimer s with point := .clearFlags }
  | .clearFlags =>
    let keyboard := { s.kernel.keyboard with flags := ⟨false, false, false, false, false⟩ }
    some { s with point := .pollOutput, kernel := { s.kernel with keyboard } }
  | .pollOutput =>
    some { s with point := if s.controller.output.isSome then .readOutput else .awaitReady }
  | .readOutput =>
    some { s with
      point := .pollOutput
      controller := { s.controller with output := none }
      drained := s.drained ++ s.controller.output.toList }
  | .awaitReady =>
    some { s with point := if s.controller.inputFull then .awaitReady else .enableKeyboard }
  | .enableKeyboard =>
    some { onPorts (outb 0x64 0xAE) s with
      point := .awaitAccepted
      controller := { s.controller with inputFull := true } }
  | .awaitAccepted =>
    some { s with point := if s.controller.inputFull then .awaitAccepted else .enableKeyboardIrq }
  | .enableKeyboardIrq =>
    some { onPorts keyboardInitialized s with point := .initTimerInterrupts }
  | .initTimerInterrupts => some { onPorts initTimerInterrupts s with point := .sti }
  | .sti => some { onPorts (writeSerialText "Interrupts enabled") s with point := .shellInit }
  | .shellInit =>
    (shellInit s.kernel.keyboard.shell).map fun shell =>
      let keyboard := { s.kernel.keyboard with shell }
      { s with point := .idle, transmitEmpty := false, kernel := { s.kernel with keyboard } }
  | .idle => some s
  | .halted => some s

abbrev keyboardMessage : String := "Keyboard IRQ received\n"

/-- The keyboard's case of `irq_handler` behind its message, and the end of the interrupt. -/
def finishKeyboard (status data : UInt8) (k : Kernel) : Option Kernel :=
  (onKeyboard status data k).map fun k => { k with ports := outb 0x20 0x20 k.ports }

theorem irqHandler_eq_finishKeyboard (status data : UInt8) (k : Kernel) :
    irqHandler 33 status data k = finishKeyboard status data (announce keyboardMessage k) := by
  rw [irqHandler, serve, if_neg (by decide), if_pos rfl, finishKeyboard]
  cases onKeyboard status data (announce keyboardMessage k) with
  | none => rfl
  | some k => rfl

/-- A function of the kernel runs in a handler; its writes to ports are still to come. -/
def runHandler (f : Kernel → Option Kernel) (next : List (UInt16 × UInt8) → Serving) (s : System) :
    Option System :=
  (f s.kernel).map fun kernel =>
    { s with kernel, serving := some (next (newWrites s.kernel.ports kernel.ports)) }

/-- An interrupt goes through its gate to a stub. Without a usable gate, or one that leads to
neither stub, nothing more is said. -/
def takeInterrupt (line : Fin 16) (s : System) : Option System :=
  let entry := s.idt (vector s.kernel.ports line)
  let s := { s with chips := s.chips.acknowledge line }
  if entry.usable then
    if entry.address = b.stubs.irq0 then runHandler (irqHandler 32 0 0) .ending s
    else if entry.address = b.stubs.irq1 then
      runHandler (fun k => some (announce keyboardMessage k)) .announcing s
    else none
  else none

/-- A handler's next write. A character waits until the transmitter is found empty. -/
def writeNext (w : UInt16 × UInt8) (next : Serving) (s : System) : System :=
  if w.1 = serialData ∧ s.transmitEmpty = false then s
  else { s with
    chips := s.chips.write w
    transmitEmpty := emptyAfter [w] s.transmitEmpty
    serving := some next }

/-- The handler's next step: a write, a look for a character's turn, one of the keyboard's two
reads, or the return. -/
def handlerStep (serving : Serving) (s : System) : Option System :=
  match serving with
  | .announcing (w :: rest) => some (writeNext w (.announcing rest) s)
  | .announcing [] =>
    if s.controller.output.isSome then some { s with serving := some .reading }
    else runHandler (finishKeyboard 0 0) .ending s
  | .reading =>
    runHandler (finishKeyboard 1 (s.controller.output.getD 0)) .ending
      { s with
        controller := { s.controller with output := none }
        handled := s.handled ++ s.controller.output.toList }
  | .ending (w :: rest) => some (writeNext w (.ending rest) s)
  | .ending [] => some { s with serving := none }

def Point.interruptible : Point → Bool
  | .shellInit | .idle => true
  | _ => false

def processorStep (s : System) : Option System :=
  match s.serving with
  | some serving => handlerStep serving s
  | none =>
    match (if s.point.interruptible then interrupting s.kernel.ports s.chips else none) with
    | some line => takeInterrupt b line s
    | none => mainStep b s

/-- A step of the processor, a device's line, the keyboard, or the serial port: the keyboard
sends a byte, its controller puts one into the output buffer, its controller takes a command;
the transmitter becomes empty. -/
inductive Event
  | processor
  | raise (line : Fin 16)
  | withdraw (line : Fin 16)
  | send (byte : UInt8)
  | deliver
  | accept
  | transmitted
  deriving DecidableEq

/-- No device is on line 2, and the keyboard's line 1 follows the output buffer: it rises when
a byte is put there. A request may be withdrawn, that of the keyboard only when the buffer is
empty, but not while the processor is acknowledging it: no interrupt is spurious. -/
def step (s : System) : Event → Option System
  | .processor => processorStep b s
  | .raise line =>
    if line = 1 ∨ line = 2 then some s
    else
      some { s with
        chips := s.chips.request line
        lostPulses := s.lostPulses + if line = 0 then pulsePending s else 0 }
  | .withdraw line =>
    if line = 1 ∧ s.controller.output.isSome then some s
    else
      some { s with
        chips := s.chips.withdraw line
        lostPulses := s.lostPulses + if line = 0 then pulsePending s else 0 }
  | .send byte =>
    some { s with controller := { s.controller with waiting := s.controller.waiting ++ [byte] } }
  | .deliver =>
    match s.controller.output, s.controller.waiting with
    | none, byte :: waiting =>
      some { s with
        controller := { s.controller with output := some byte, waiting }
        chips := s.chips.request 1 }
    | _, _ => some s
  | .accept => some { s with controller := { s.controller with inputFull := false } }
  | .transmitted => some { s with transmitEmpty := true }

def run : List Event → System → Option System
  | [], s => some s
  | e :: rest, s => (step b s e).bind (run rest)

end Steps

end BinOs.InterruptSystem
