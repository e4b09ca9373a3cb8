import BinOs.NumeralValues

/-! # The conversion of pointers

The digits of `%p` come from the function that takes an `unsigned int`, which has the low
half of the pointer only. -/
namespace BinOs.PointerDigits
open CheckedBuffers MemoryStrings SerialPort SerialNumerals NumeralValues

theorem conversion_pointer (p : UInt64) (args : List Arg) :
    conversion 112 (.pointer p :: args) =
      some (writeSerial (ascii "0x") ++ writeSerial (numeral 16 p.toUInt32.toNat), args) := by
  obtain ⟨str, hstr, hholds⟩ :=
    uintToString_holds p.toUInt32 localBuffer (by decide : 10 ≤ 16) (by decide)
  have hstr : uintToString p.toUInt32 localBuffer 16 = some str := hstr
  simp [conversion, hstr, hholds.contents]

theorem lowHalf_eq_iff (p : UInt64) : p.toUInt32.toNat = p.toNat ↔ p.toNat < 2 ^ 32 := by
  rw [UInt64.toNat_toUInt32]
  exact ⟨fun h => h ▸ Nat.mod_lt _ (by decide), Nat.mod_eq_of_lt⟩

/-- At every `%p` of every format, the digits written parse back to the pointer exactly
when it lies below 4 GiB. -/
theorem pointer_parses_back_iff {n : ℕ} (format : Vector UInt8 n) (i : ℤ)
    (hmark : read format i = some 37) (hletter : read format (i + 1) = some 112) (fuel : ℕ)
    (p : UInt64) (args : List Arg) :
    ∃ digits, printfLoop format (fuel + 1) i (.pointer p :: args) =
        (printfLoop format fuel (i + 2) args).map
          (writeSerial (ascii "0x") ++ writeSerial digits ++ ·) ∧
      (numeralValue 16 digits = p.toNat ↔ p.toNat < 2 ^ 32) := by
  refine ⟨numeral 16 p.toUInt32.toNat, ?_, ?_⟩
  · exact printfLoop_conversion hmark hletter (conversion_pointer p args) fuel
  · rw [numeralValue_numeral (by decide) (by decide), lowHalf_eq_iff]

/-- The format `%p`. -/
def pointerFormat : Vector UInt8 3 := literal (ascii "%p")

theorem pointer_parses_back_iff_low : ∃ digits,
    printfLoop pointerFormat 4 0 [.pointer 0xFEC00000] =
        (printfLoop pointerFormat 3 2 []).map
          (writeSerial (ascii "0x") ++ writeSerial digits ++ ·) ∧
      (numeralValue 16 digits = (0xFEC00000 : UInt64).toNat ↔
        (0xFEC00000 : UInt64).toNat < 2 ^ 32) :=
  pointer_parses_back_iff pointerFormat 0 rfl rfl 3 0xFEC00000 []

/-- An address of the higher half is written as the one 2 GiB up. -/
theorem kernel_pointer_loses_half :
    serialPrintf pointerFormat [.pointer 0xFFFFFFFF80000000] =
        some (writeSerial (ascii "0x") ++ writeSerial (ascii "80000000")) ∧
      numeralValue 16 (ascii "80000000") ≠ (0xFFFFFFFF80000000 : UInt64).toNat ∧
      serialPrintf pointerFormat [.pointer 0x80000000] =
        serialPrintf pointerFormat [.pointer 0xFFFFFFFF80000000] := by
  decide +kernel

end BinOs.PointerDigits
