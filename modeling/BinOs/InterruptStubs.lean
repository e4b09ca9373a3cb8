import BinOs.InterruptTable
import Mathlib.Logic.Function.Basic

/-! # Interrupts and their stubs on the processor

The part of the processor that interrupts and the assembly stubs use. Memory is read and
written in quadwords at multiples of eight from an aligned stack pointer, so that no two
of them overlap. -/
namespace BinOs.InterruptStubs
open InterruptTable

/-- The general registers but the stack pointer. -/
inductive Reg
  | rax | rbx | rcx | rdx | rsi | rdi | rbp
  | r8 | r9 | r10 | r11 | r12 | r13 | r14 | r15
  deriving DecidableEq

structure Cpu where
  reg : Reg → UInt64
  rsp : UInt64
  rip : UInt64
  rflags : UInt64
  cs : UInt64
  ss : UInt64
  mem : UInt64 → UInt64

def Cpu.load (r : Reg) (v : UInt64) (c : Cpu) : Cpu := { c with reg := Function.update c.reg r v }

def Cpu.push (v : UInt64) (c : Cpu) : Cpu :=
  { c with rsp := c.rsp - 8, mem := Function.update c.mem (c.rsp - 8) v }

def Cpu.pop (r : Reg) (c : Cpu) : Cpu := { c.load r (c.mem c.rsp) with rsp := c.rsp + 8 }

def Cpu.iretq (c : Cpu) : Cpu :=
  { c with
    rip := c.mem c.rsp
    cs := c.mem (c.rsp + 8)
    rflags := c.mem (c.rsp + 16)
    rsp := c.mem (c.rsp + 24)
    ss := c.mem (c.rsp + 32) }

/-- A compiled C function, from its first instruction to its return: the state it returns
in, if it does, and the port writes it makes. It keeps the registers that the calling
convention asks it to keep, and may change all others. -/
structure CFunction where
  run : Cpu → Option (Cpu × List (UInt16 × UInt8))
  returns : ∀ c c' out, run c = some (c', out) → c'.rip = c.mem c.rsp ∧ c'.rsp = c.rsp + 8
  calleeSaved : ∀ c c' out, run c = some (c', out) →
    ∀ r ∈ [Reg.rbx, .rbp, .r12, .r13, .r14, .r15], c'.reg r = c.reg r

/-- What can be seen of the kernel's code while it serves an interrupt. -/
inductive Event
  | called (function argument : UInt64)
  | wrote (port : UInt16) (data : UInt8)
  | returned (function : UInt64)
  deriving DecidableEq

/-- The kernel's code. `afterCall` is the address behind the stubs' call. -/
structure Image where
  function : UInt64 → CFunction
  irq0 : UInt64
  irq1 : UInt64
  irqHandler : UInt64
  afterCall : UInt64

inductive Instr
  | push (r : Reg)
  | pushImm (v : UInt64)
  | pop (r : Reg)
  | movFromStack (r : Reg) (offset : UInt64)
  | call (function : UInt64)
  | addRsp (n : UInt64)
  | iretq

section Code
variable (image : Image)

/-- A function entered with its return address on the stack. -/
def enterFunction (f : UInt64) (c : Cpu) : Option (Cpu × List Event) :=
  ((image.function f).run c).map fun r =>
    (r.1, .called f (c.reg .rdi) :: r.2.map (fun w => .wrote w.1 w.2) ++ [.returned f])

def Instr.exec (c : Cpu) : Instr → Option (Cpu × List Event)
  | .push r => some (c.push (c.reg r), [])
  | .pushImm v => some (c.push v, [])
  | .pop r => some (c.pop r, [])
  | .movFromStack r offset => some (c.load r (c.mem (c.rsp + offset)), [])
  | .call f => enterFunction image f (c.push image.afterCall)
  | .addRsp n => some ({ c with rsp := c.rsp + n }, [])
  | .iretq => some (c.iretq, [])

def execAll : List Instr → Cpu → Option (Cpu × List Event)
  | [], c => some (c, [])
  | i :: rest, c =>
    (i.exec image c).bind fun r => (execAll rest r.1).map fun r' => (r'.1, r.2 ++ r'.2)

def savedRegisters : List Reg :=
  [.rax, .rbx, .rcx, .rdx, .rsi, .rdi, .rbp, .r8, .r9, .r10, .r11, .r12, .r13, .r14, .r15]

def irqCommonStub : List Instr :=
  savedRegisters.map .push ++
  [.movFromStack .rdi 120, .call image.irqHandler] ++
  savedRegisters.reverse.map .pop ++
  [.addRsp 16, .iretq]

/-- `IRQ`: the second argument of the macro. -/
def irqStub (number : UInt64) : List Instr := [.pushImm 0, .pushImm number] ++ irqCommonStub image

instance (e : IdtEntry) : Decidable e.usable := inferInstanceAs (Decidable (_ ∧ _ ∧ _))

def Cpu.pushFrame (c : Cpu) : Cpu :=
  let aligned := { c with rsp := c.rsp &&& ~~~0xF }
  ((((aligned.push c.ss).push c.rsp).push c.rflags).push c.cs).push c.rip

/-- Through an interrupt gate: the stack pointer is aligned, the return frame pushed and the
interrupt flag cleared, with TF, NT, RF and VM. -/
def Cpu.take (gate : IdtEntry) (c : Cpu) : Option Cpu :=
  if gate.usable then
    some { c.pushFrame with
      rip := gate.address
      cs := gate.kernelCs.toUInt64
      rflags := c.rflags &&& ~~~0x34300 }
  else none

/-- From an address until control is back at the interrupted code. -/
def runFrom (c : Cpu) : Option (Cpu × List Event) :=
  if c.rip = image.irq0 then execAll image (irqStub image 32) c
  else if c.rip = image.irq1 then execAll image (irqStub image 33) c
  else enterFunction image c.rip c

def vectorOf (line : Fin 16) : UInt8 := UInt8.ofNat line + 32

def serveLine (idt : Idt) (line : Fin 16) (c : Cpu) : Option (Cpu × List Event) :=
  (c.take (idt (vectorOf line))).bind (runFrom image)

end Code

/-- Aligning rounds down to a multiple of 16. -/
theorem aligned_toNat (x : UInt64) : (x &&& ~~~0xF).toNat = x.toNat / 16 * 16 := by
  have hmask : (~~~0xF : UInt64).toNat = (2 ^ 60 - 1) * 2 ^ 4 := by decide
  rw [UInt64.toNat_and, hmask, show x.toNat / 16 * 16 = x.toNat / 2 ^ 4 * 2 ^ 4 from rfl]
  apply Nat.eq_of_testBit_eq
  intro i
  rw [Nat.testBit_and, Nat.testBit_mul_two_pow, Nat.testBit_mul_two_pow,
    Nat.testBit_two_pow_sub_one, Nat.testBit_div_two_pow]
  by_cases hlow : 4 ≤ i
  · rw [Nat.sub_add_cancel hlow]
    by_cases hhigh : i < 64
    · have hbelow : i - 4 < 60 := by omega
      simp [hlow, hbelow]
    · have hbig : x.toNat < 2 ^ i :=
        Nat.lt_of_lt_of_le x.toNat_lt (Nat.pow_le_pow_right (by decide) (Nat.le_of_not_lt hhigh))
      rw [Nat.testBit_lt_two_pow hbig]
      simp
  · simp [hlow]

theorem pushFrame_rsp (c : Cpu) : c.pushFrame.rsp = (c.rsp &&& ~~~0xF) - 40 := by
  have h : ∀ x : UInt64, x - 8 - 8 - 8 - 8 - 8 = x - 40 := by
    intro x
    grind
  exact h _

theorem pushFrame_top (c : Cpu) : c.pushFrame.mem c.pushFrame.rsp = c.rip :=
  Function.update_self ..

end BinOs.InterruptStubs
