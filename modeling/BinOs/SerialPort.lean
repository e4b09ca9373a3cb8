import BinOs.MemoryStrings

/-! # Formatted output on the serial port

The functions return the bytes they write to the data port, in order; the wait for
an empty transmitter before each of them leaves no trace. -/
namespace BinOs.SerialPort
open CheckedBuffers MemoryStrings

/-- The characters of `str` and then, always, a line end. -/
def writeSerial (str : List UInt8) : List UInt8 := str ++ [13, 10]

/-- A local array, all written before it is read. -/
abbrev NumberBuffer := Vector UInt8 32

def digitTable : Vector UInt8 17 := literal (ascii "0123456789abcdef")

/-- The digits from the lowest up, and the index after the last; there is fuel for one digit too
many. -/
def digitLoop (base : ℤ) : ℕ → ℤ → ℤ → NumberBuffer → Option (ℤ × NumberBuffer)
  | 0, _, _, _ => none
  | fuel + 1, value, ptr, str => do
    let quotient := value.tdiv base
    let str ← write str ptr (← read digitTable (value - quotient * base))
    if quotient ≠ 0 then digitLoop base fuel quotient (ptr + 1) str else some (ptr + 1, str)

def reverseLoop : ℕ → ℤ → ℤ → NumberBuffer → Option NumberBuffer
  | 0, _, _, _ => none
  | fuel + 1, ptr1, ptr, str =>
    if ptr1 < ptr then do
      let tmpChar ← read str ptr
      let str ← write str ptr (← read str ptr1)
      let str ← write str ptr1 tmpChar
      reverseLoop fuel (ptr1 + 1) (ptr - 1) str
    else some str

/-- Digits from `ptr1` on, a terminator, and the digits put in order. -/
def writeNumeral (base value ptr1 : ℤ) (str : NumberBuffer) : Option NumberBuffer := do
  let (ptr, str) ← digitLoop base 33 value ptr1 str
  let str ← write str ptr 0
  reverseLoop 33 ptr1 (ptr - 1) str

/-- Negating the least `int` gives it back. -/
def intToString (value : ℤ) (str : NumberBuffer) (base : ℤ) : Option NumberBuffer :=
  if value < 0 ∧ base = 10 then do
    let str ← write str 0 45
    writeNumeral base (Int.bmod (-value) (2 ^ 32)) 1 str
  else writeNumeral base value 0 str

def uintToString (value : UInt32) (str : NumberBuffer) (base : ℤ) : Option NumberBuffer :=
  writeNumeral base value.toNat 0 str

def upperChar (c : UInt8) : UInt8 := if c ≥ 97 ∧ c ≤ 102 then c - 97 + 65 else c

/-- The loop of `%X` over the buffer. -/
def upperCase (str : List UInt8) : List UInt8 := str.map upperChar

/-- A variable argument, by the type it was passed at. -/
inductive Arg
  | int (value : ℤ)
  | uint (value : UInt32)
  | string (str : Option (List UInt8))
  | pointer (value : UInt64)

def localBuffer : NumberBuffer := Vector.replicate 32 0

/-- One conversion: the bytes written and the arguments left. Reading an argument at
another type, or one too many, has no result. -/
def conversion (c : UInt8) (args : List Arg) : Option (List UInt8 × List Arg) :=
  if c = 100 ∨ c = 105 then
    match args with
    | .int value :: args => do
      some (writeSerial (← contents (← intToString value localBuffer 10)), args)
    | _ => none
  else if c = 117 then
    match args with
    | .uint value :: args => do
      some (writeSerial (← contents (← uintToString value localBuffer 10)), args)
    | _ => none
  else if c = 120 then
    match args with
    | .uint value :: args => do
      some (writeSerial (← contents (← uintToString value localBuffer 16)), args)
    | _ => none
  else if c = 88 then
    match args with
    | .uint value :: args => do
      some (writeSerial (upperCase (← contents (← uintToString value localBuffer 16))), args)
    | _ => none
  else if c = 99 then
    match args with
    | .int value :: args => some ([UInt8.ofInt value], args)
    | _ => none
  else if c = 115 then
    match args with
    | .string (some str) :: args => some (writeSerial str, args)
    | .string none :: args => some (writeSerial (ascii "(null)"), args)
    | _ => none
  else if c = 112 then
    match args with
    | .pointer value :: args => do
      let digits ← contents (← uintToString value.toUInt32 localBuffer 16)
      some (writeSerial (ascii "0x") ++ writeSerial digits, args)
    | _ => none
  else if c = 37 then some ([37], args)
  else some ([37, c], args)

section Printf
variable {n : ℕ} (format : Vector UInt8 n)

/-- The loop reads on after a conversion without looking at the conversion's byte, so
a final `%` takes it past the terminator. -/
def printfLoop : ℕ → ℤ → List Arg → Option (List UInt8)
  | 0, _, _ => none
  | fuel + 1, i, args => do
    let c ← read format i
    if c = 0 then some []
    else if c = 37 then
      let (out, args) ← conversion (← read format (i + 1)) args
      some (out ++ (← printfLoop fuel (i + 2) args))
    else some (c :: (← printfLoop fuel (i + 1) args))

def serialPrintf (args : List Arg) : Option (List UInt8) := printfLoop format (n + 1) 0 args

variable {format} {i : ℤ} {c : UInt8}

theorem printfLoop_end (h : read format i = some 0) (fuel : ℕ) (args : List Arg) :
    printfLoop format (fuel + 1) i args = some [] := by
  rw [printfLoop, h, Option.bind_eq_bind, Option.bind_some, if_pos rfl]

theorem printfLoop_plain (h : read format i = some c) (hzero : c ≠ 0) (hmark : c ≠ 37) (fuel : ℕ)
    (args : List Arg) : printfLoop format (fuel + 1) i args =
      (printfLoop format fuel (i + 1) args).map (c :: ·) := by
  rw [printfLoop, h, Option.bind_eq_bind, Option.bind_some, if_neg hzero, if_neg hmark]
  cases printfLoop format fuel (i + 1) args with
  | none => rfl
  | some rest => rfl

theorem printfLoop_conversion (hmark : read format i = some 37)
    (hletter : read format (i + 1) = some c) {args left : List Arg} {out : List UInt8}
    (hconversion : conversion c args = some (out, left)) (fuel : ℕ) :
    printfLoop format (fuel + 1) i args =
      (printfLoop format fuel (i + 2) left).map (out ++ ·) := by
  rw [printfLoop, hmark, Option.bind_eq_bind, Option.bind_some, if_neg (by decide), if_pos rfl,
    hletter, Option.bind_eq_bind, Option.bind_some, hconversion]
  change (printfLoop format fuel (i + 2) left).bind (fun rest => some (out ++ rest)) = _
  cases printfLoop format fuel (i + 2) left with
  | none => rfl
  | some rest => rfl

end Printf

end BinOs.SerialPort
