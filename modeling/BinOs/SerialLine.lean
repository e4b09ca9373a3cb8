import BinOs.SerialPort
import BinOs.SharedTransmitter

/-! # The serial port as a device

The transmitter of COM1 works between any two port accesses of the kernel. From `sti` on an
interrupt handler that writes to the port too may come between them. -/
namespace BinOs.SerialLine
open SharedTransmitter

/-- The registers and buffers that the kernel uses, and what has gone out. A read that finds
nothing received gives the byte that was read before. -/
structure Uart where
  divisorLow : UInt8
  divisorHigh : UInt8
  interruptEnable : UInt8
  lineControl : UInt8
  modemControl : UInt8
  fifoEnabled : Bool
  transmitter : Transmitter UInt8
  received : List UInt8
  lastRead : UInt8
  line : List UInt8

namespace Uart

/-- The first two ports lead to the divisor. -/
def latchOpen (u : Uart) : Bool := u.lineControl &&& 0x80 ≠ 0

def loops (u : Uart) : Bool := u.modemControl &&& 0x10 ≠ 0

section Ports
variable (places : ℕ)

/-- The places of a buffer, for a chip whose FIFOs have so many; `0` for one without FIFOs. -/
def capacity (u : Uart) : ℕ := if u.fifoEnabled then places else 1

def fifoControl (value : UInt8) (u : Uart) : Uart :=
  let enabled : Bool := 0 < places ∧ value &&& 0x01 ≠ 0
  let clears (bit : UInt8) : Bool := enabled ≠ u.fifoEnabled ∨ enabled ∧ value &&& bit ≠ 0
  { u with
    fifoEnabled := enabled
    received := if clears 0x02 then [] else u.received
    transmitter := if clears 0x04 then { u.transmitter with queue := [] } else u.transmitter }

/-- `outb(PORT + offset, value)` -/
def outb (offset : ℕ) (value : UInt8) (u : Uart) : Uart :=
  match offset with
  | 0 =>
    if u.latchOpen then { u with divisorLow := value }
    else { u with transmitter := u.transmitter.put (u.capacity places) value }
  | 1 => if u.latchOpen then { u with divisorHigh := value } else { u with interruptEnable := value }
  | 2 => u.fifoControl places value
  | 3 => { u with lineControl := value }
  | 4 => { u with modemControl := value }
  | _ => u

/-- `inb(PORT + 0)` -/
def inbData (u : Uart) : UInt8 × Uart :=
  if u.latchOpen then (u.divisorLow, u)
  else
    match u.received with
    | [] => (u.lastRead, u)
    | a :: rest => (a, { u with received := rest, lastRead := a })

/-- `inb(PORT + 5)`, without the errors of the receiver. -/
def lineStatus (u : Uart) : UInt8 :=
  (if u.received = [] then 0 else 0x01) ||| (if u.transmitter.queue = [] then 0x20 else 0) |||
    (if u.transmitter.pending = [] then 0x40 else 0)

def receive (a : UInt8) (u : Uart) : Uart :=
  if u.received.length < u.capacity places then { u with received := u.received ++ [a] }
  else if u.fifoEnabled then u
  else { u with received := [a] }

def load (u : Uart) : Uart := { u with transmitter := u.transmitter.load }

/-- The last bit of a byte leaves the shift register. -/
def finish (u : Uart) : Uart :=
  match u.transmitter.shifting with
  | none => u
  | some a =>
    if u.loops then { u with transmitter := u.transmitter.unload }.receive places a
    else { u with transmitter := u.transmitter.unload, line := u.line ++ [a] }

/-- A byte from the other side. -/
def arrive (a : UInt8) (u : Uart) : Uart := if u.loops then u else u.receive places a

end Ports

end Uart

inductive Access
  | outb (offset : ℕ) (value : UInt8)
  | test
  | ret (value : ℤ)

def initSerial : List Access :=
  [.outb 1 0x00, .outb 3 0x80, .outb 0 0x03, .outb 1 0x00, .outb 3 0x03, .outb 2 0xC7,
    .outb 4 0x0B, .outb 4 0x1E, .outb 0 0xAE, .test, .outb 4 0x0F, .ret 0]

def isTransmitEmpty (u : Uart) : UInt8 := u.lineStatus &&& 0x20

/-- Calls of `write_serial_char`: the characters left, and whether the loop of the first call
has come to its end. -/
structure Writer where
  text : List UInt8
  foundEmpty : Bool

def Writer.step (places : ℕ) (w : Writer) (u : Uart) : Writer × Uart :=
  match w.text with
  | [] => (w, u)
  | a :: text =>
    if w.foundEmpty then (⟨text, false⟩, u.outb places 0 a)
    else (⟨a :: text, isTransmitEmpty u ≠ 0⟩, u)

/-- `starting` is what is left of `init_serial`, `later` what is written after `sti`, as long as
that is still to come. Interruptions are a history of what handlers were to write. -/
structure Console where
  starting : List Access
  returned : Option ℤ
  writer : Writer
  later : Option (List UInt8)
  handler : Option Writer
  interruptions : List (List UInt8)
  uart : Uart

section Steps
variable (places : ℕ)

def accessStep (a : Access) (rest : List Access) (s : Console) : Console :=
  match a with
  | .outb offset value => { s with starting := rest, uart := s.uart.outb places offset value }
  | .test =>
    let (value, uart) := s.uart.inbData
    { s with starting := if value ≠ 0xAE then [.ret 1] else rest, uart }
  | .ret value => { s with starting := [], returned := some value }

def mainStep (s : Console) : Console :=
  match s.starting with
  | a :: rest => accessStep places a rest s
  | [] =>
    match s.writer.text, s.later with
    | [], some text => { s with writer := ⟨text, false⟩, later := none }
    | _, _ =>
      let (writer, uart) := s.writer.step places s.uart
      { s with writer, uart }

def processorStep (s : Console) : Console :=
  match s.handler with
  | none => mainStep places s
  | some ⟨[], _⟩ => { s with handler := none }
  | some w =>
    let (w, uart) := w.step places s.uart
    { s with handler := some w, uart }

inductive Event
  | processor
  | interrupt (text : List UInt8)
  | load
  | finish
  | arrive (data : UInt8)
  deriving DecidableEq

/-- An interrupt is taken after `sti`, while no handler runs. -/
def interrupt (text : List UInt8) (s : Console) : Console :=
  if s.handler.isNone ∧ s.later = none then
    { s with handler := some ⟨text, false⟩, interruptions := s.interruptions ++ [text] }
  else s

def step (s : Console) : Event → Console
  | .processor => processorStep places s
  | .interrupt text => interrupt text s
  | .load => { s with uart := s.uart.load }
  | .finish => { s with uart := s.uart.finish places }
  | .arrive data => { s with uart := s.uart.arrive places data }

def run (events : List Event) (s : Console) : Console := events.foldl (step places) s

end Steps

/-- At the entry of `kmain`, with these texts to be written before and after `sti`. The port may
be in any state. -/
structure Starts (boot text : List UInt8) (s : Console) : Prop where
  starting : s.starting = initSerial
  returned : s.returned = none
  writer : s.writer = ⟨boot, false⟩
  later : s.later = some text
  handler : s.handler = none
  interruptions : s.interruptions = []

end BinOs.SerialLine
