import BinOs.SerialNumerals

/-! # Formatted output against its rendering

A format is taken as the pieces it was made of, each conversion with its argument. The
loop writes every piece's rendering, and a line end behind all that go through
`write_serial`. -/
namespace BinOs.SerialFormat
open CheckedBuffers MemoryStrings SerialPort SerialNumerals

/-- A byte that stands for itself in a format. -/
abbrev Plain := { c : UInt8 // c ≠ 0 ∧ c ≠ 37 }

/-- An `int` above the least one. -/
abbrev IntArg := { v : ℤ // -2 ^ 31 < v ∧ v < 2 ^ 31 }

/-- The bytes of a terminated string. -/
abbrev StringArg := { t : List UInt8 // ∀ c ∈ t, c ≠ 0 }

inductive Piece
  | plain (c : Plain)
  | signedD (value : IntArg)
  | signedI (value : IntArg)
  | unsigned (value : UInt32)
  | lowerHex (value : UInt32)
  | upperHex (value : UInt32)
  | char (value : ℤ)
  | string (str : StringArg)
  | percent

/-- The character of a conversion. -/
def Piece.letter : Piece → UInt8
  | .plain c => c.1
  | .signedD _ => 100
  | .signedI _ => 105
  | .unsigned _ => 117
  | .lowerHex _ => 120
  | .upperHex _ => 88
  | .char _ => 99
  | .string _ => 115
  | .percent => 37

def Piece.isPlain : Piece → Bool
  | .plain _ => true
  | _ => false

/-- The piece as it stands in the format. -/
def Piece.bytes (p : Piece) : List UInt8 := if p.isPlain then [p.letter] else [37, p.letter]

def Piece.argument : Piece → List Arg
  | .plain _ => []
  | .signedD value => [.int value]
  | .signedI value => [.int value]
  | .unsigned value => [.uint value]
  | .lowerHex value => [.uint value]
  | .upperHex value => [.uint value]
  | .char value => [.int value]
  | .string str => [.string (some str)]
  | .percent => []

def Piece.rendering : Piece → List UInt8
  | .plain c => [c]
  | .signedD value => decimal value
  | .signedI value => decimal value
  | .unsigned value => numeral 10 value.toNat
  | .lowerHex value => numeral 16 value.toNat
  | .upperHex value => upperCase (numeral 16 value.toNat)
  | .char value => [UInt8.ofInt value]
  | .string str => str
  | .percent => [37]

def formatBytes (pieces : List Piece) : List UInt8 := pieces.flatMap Piece.bytes
def arguments (pieces : List Piece) : List Arg := pieces.flatMap Piece.argument
def rendering (pieces : List Piece) : List UInt8 := pieces.flatMap Piece.rendering

/-- Numbers and strings go through `write_serial`. -/
def Piece.endsLine : Piece → Bool
  | .plain _ => false
  | .char _ => false
  | .percent => false
  | _ => true

def Piece.written (p : Piece) : List UInt8 :=
  if p.endsLine then writeSerial p.rendering else p.rendering

theorem Piece.conversion_eq (p : Piece) (hp : p.isPlain = false) (rest : List Arg) :
    conversion p.letter (p.argument ++ rest) = some (p.written, rest) := by
  cases p with
  | plain c => cases hp
  | signedD value =>
    obtain ⟨str, hstr, hholds⟩ := intToString_holds localBuffer value.2.1 value.2.2
    simp [conversion, letter, argument, hstr, hholds.contents, written, endsLine, rendering]
  | signedI value =>
    obtain ⟨str, hstr, hholds⟩ := intToString_holds localBuffer value.2.1 value.2.2
    simp [conversion, letter, argument, hstr, hholds.contents, written, endsLine, rendering]
  | unsigned value =>
    obtain ⟨str, hstr, hholds⟩ := uintToString_holds value localBuffer (by decide : 10 ≤ 10) (by decide)
    have hstr : uintToString value localBuffer 10 = some str := hstr
    simp [conversion, letter, argument, hstr, hholds.contents, written, endsLine, rendering]
  | lowerHex value =>
    obtain ⟨str, hstr, hholds⟩ := uintToString_holds value localBuffer (by decide : 10 ≤ 16) (by decide)
    have hstr : uintToString value localBuffer 16 = some str := hstr
    simp [conversion, letter, argument, hstr, hholds.contents, written, endsLine, rendering]
  | upperHex value =>
    obtain ⟨str, hstr, hholds⟩ := uintToString_holds value localBuffer (by decide : 10 ≤ 16) (by decide)
    have hstr : uintToString value localBuffer 16 = some str := hstr
    simp [conversion, letter, argument, hstr, hholds.contents, written, endsLine, rendering]
  | char value => simp [conversion, letter, argument, written, endsLine, rendering]
  | string str => simp [conversion, letter, argument, written, endsLine, rendering]
  | percent => simp [conversion, letter, argument, written, endsLine, rendering]

variable {n : ℕ} {format : Vector UInt8 n}

/-- From index `i` on the format holds these bytes and a terminator. -/
def HoldsFrom (format : Vector UInt8 n) (i : ℕ) (t : List UInt8) : Prop :=
  ∀ j < (t ++ [0]).length, read format ((i + j : ℕ) : ℤ) = (t ++ [0])[j]?

theorem HoldsFrom.drop {i : ℕ} {s t : List UInt8} (h : HoldsFrom format i (s ++ t)) :
    HoldsFrom format (i + s.length) t := by
  intro j hj
  have hat := h (s.length + j) (by simp only [List.length_append] at hj ⊢; omega)
  rw [← Nat.add_assoc] at hat
  rw [hat, List.append_assoc, List.getElem?_append_right (Nat.le_add_right _ _),
    Nat.add_sub_cancel_left]

theorem printfLoop_eq (fuel i : ℕ) (pieces : List Piece) (hfuel : (formatBytes pieces).length < fuel)
    (h : HoldsFrom format i (formatBytes pieces)) :
    printfLoop format fuel i (arguments pieces) = some (pieces.flatMap Piece.written) := by
  induction pieces generalizing fuel i with
  | nil =>
    obtain ⟨fuel, rfl⟩ := Nat.exists_eq_add_of_le' (Nat.zero_lt_of_lt hfuel)
    exact printfLoop_end (h 0 (by decide)) fuel _
  | cons p pieces ih =>
    obtain ⟨fuel, rfl⟩ := Nat.exists_eq_add_of_le' (Nat.zero_lt_of_lt hfuel)
    have hsplit : formatBytes (p :: pieces) = p.bytes ++ formatBytes pieces := List.flatMap_cons
    rw [hsplit] at hfuel h
    have hrest := ih fuel (i + p.bytes.length)
      (by
        have hbytes : 0 < p.bytes.length := by
          rw [Piece.bytes]
          split
          · exact Nat.one_pos
          · exact Nat.two_pos
        rw [List.length_append] at hfuel
        omega) h.drop
    rw [arguments, List.flatMap_cons, List.flatMap_cons]
    cases hplain : p.isPlain with
    | true =>
      obtain ⟨c, rfl⟩ : ∃ c, p = .plain c := by
        cases p with
        | plain c => exact ⟨c, rfl⟩
        | _ => cases hplain
      have hc : read format (i : ℤ) = some c.1 := h 0 (by simp [Piece.bytes, Piece.isPlain])
      have hnext : printfLoop format fuel (i + 1) (arguments pieces) =
          some (pieces.flatMap Piece.written) := hrest
      have hpass := printfLoop_plain hc c.2.1 c.2.2 fuel (arguments pieces)
      rw [hnext] at hpass
      exact hpass
    | false =>
      have hbytes : p.bytes = [37, p.letter] := by rw [Piece.bytes, hplain]; rfl
      rw [hbytes] at h hrest
      have hmark : read format (i : ℤ) = some 37 := h 0 (by simp)
      have hletter : read format ((i : ℤ) + 1) = some p.letter := h 1 (by simp)
      have hnext : printfLoop format fuel (i + 2) (arguments pieces) =
          some (pieces.flatMap Piece.written) := hrest
      have hpass := printfLoop_conversion hmark hletter
        (p.conversion_eq hplain (arguments pieces)) fuel
      rw [hnext] at hpass
      exact hpass

/-- Everything the format asks for is written, with the line ends. -/
theorem serialPrintf_eq {pieces : List Piece} (h : Holds format (formatBytes pieces)) :
    serialPrintf format (arguments pieces) = some (pieces.flatMap Piece.written) := by
  have hfits := h.fits
  apply printfLoop_eq _ 0 pieces (by omega)
  intro j hj
  rw [Nat.zero_add, read_of_holds h hj]

theorem length_written (pieces : List Piece) : (pieces.flatMap Piece.written).length =
    (rendering pieces).length + 2 * pieces.countP Piece.endsLine := by
  induction pieces with
  | nil => rfl
  | cons p pieces ih =>
    rw [rendering] at ih ⊢
    rw [List.flatMap_cons, List.flatMap_cons, List.length_append, List.length_append, ih,
      List.countP_cons, Piece.written]
    split
    · rw [writeSerial, List.length_append]
      simp only [List.length_cons, List.length_nil]
      omega
    · omega

/-- The output is the rendering exactly when no number and no string is converted. -/
theorem serialPrintf_renders_iff {pieces : List Piece} (h : Holds format (formatBytes pieces)) :
    serialPrintf format (arguments pieces) = some (rendering pieces) ↔
      ∀ p ∈ pieces, p.endsLine = false := by
  rw [serialPrintf_eq h]
  constructor
  · intro hsame
    have hlength := congrArg List.length (Option.some.inj hsame)
    rw [length_written] at hlength
    have hnone : pieces.countP Piece.endsLine = 0 := by omega
    intro p hp
    exact Bool.eq_false_iff.mpr (List.countP_eq_zero.mp hnone p hp)
  · intro hnone
    congr 1
    apply List.flatMap_congr
    intro p hp
    rw [Piece.written, hnone p hp]
    rfl

/-- `a%c%%` with the letter b. -/
theorem serialPrintf_renders_char :
    serialPrintf (literal (formatBytes [.plain ⟨97, by decide⟩, .char 98, .percent]))
        (arguments [.plain ⟨97, by decide⟩, .char 98, .percent]) =
        some (rendering [.plain ⟨97, by decide⟩, .char 98, .percent]) ↔
      ∀ p ∈ [.plain ⟨97, by decide⟩, .char 98, .percent], Piece.endsLine p = false :=
  serialPrintf_renders_iff (literal_holds (by decide +kernel))

/-- `%d` with 5. -/
theorem serialPrintf_adds_line_end :
    serialPrintf (literal (formatBytes [.signedD ⟨5, by decide⟩])) (arguments [.signedD ⟨5, by decide⟩]) ≠
      some (rendering [.signedD ⟨5, by decide⟩]) := by
  rw [serialPrintf_eq (literal_holds (by decide +kernel))]
  intro hsame
  have hlength := congrArg List.length (Option.some.inj hsame)
  rw [length_written] at hlength
  exact absurd hlength (by decide)

end BinOs.SerialFormat
