import BinOs.SerialNumerals

/-! # What a numeral stands for

A numeral is read from its highest digit down. The one that is written for a number has its
value and no leading zero. -/
namespace BinOs.NumeralValues
open DigitStrings SerialNumerals

variable {base : ℕ}

/-- The value of a digit; letters are small ones. -/
def digitValue (c : UInt8) : ℕ := if c < 97 then c.toNat - 48 else c.toNat - 87

def numeralValue (base : ℕ) (t : List UInt8) : ℕ :=
  t.foldl (fun n c => digitValue c + base * n) 0

theorem digitValue_digitChar : ∀ d < 16, digitValue (digitChar d) = d := by
  decide +kernel

/-- Digits read back from their characters, by whatever reads each of them. -/
theorem foldl_digits {value : UInt8 → ℕ} {char : ℕ → UInt8} {digits : List ℕ}
    (h : ∀ d ∈ digits, value (char d) = d) :
    (digits.reverse.map char).foldl (fun n c => value c + base * n) 0 =
      Nat.ofDigits base digits := by
  induction digits with
  | nil => rfl
  | cons d digits ih =>
    have hrest := ih fun e he => h e (List.mem_cons_of_mem _ he)
    rw [List.reverse_cons, List.map_append, List.foldl_append, hrest, Nat.ofDigits_cons]
    change value (char d) + base * Nat.ofDigits base digits = _
    rw [h d List.mem_cons_self]

theorem ofDigits_lowDigits (base n : ℕ) : Nat.ofDigits base (lowDigits base n) = n := by
  rw [lowDigits]
  split
  · next hn => rw [hn, Nat.ofDigits_singleton]
  · exact Nat.ofDigits_digits base n

theorem numeralValue_numeral (hbase : 1 < base) (hle : base ≤ 16) (n : ℕ) :
    numeralValue base (numeral base n) = n := by
  have hdigits : ∀ d ∈ lowDigits base n, digitValue (digitChar d) = d := fun d hd =>
    digitValue_digitChar d (Nat.lt_of_lt_of_le (lowDigits_lt hbase hd) hle)
  rw [numeralValue, numeral, foldl_digits hdigits, ofDigits_lowDigits]

/-- Where only the digit 0 has the character 0, it stands first only in the numeral of 0. -/
theorem leading_digit {char : ℕ → UInt8} (hbase : 1 < base) (hzero : char 0 = 48)
    (hchar : ∀ d < base, char d = 48 → d = 0) {n : ℕ}
    (h : ((lowDigits base n).reverse.map char).head? = some 48) :
    (lowDigits base n).reverse.map char = [48] := by
  by_cases hn : n = 0
  · rw [hn, lowDigits, if_pos rfl, List.reverse_singleton, List.map_singleton, hzero]
  · have hdigits : lowDigits base n = Nat.digits base n := if_neg hn
    have hne : Nat.digits base n ≠ [] := Nat.digits_ne_nil_iff_ne_zero.mpr hn
    have hlast := Nat.getLast_digit_ne_zero base hn
    rw [hdigits, List.head?_map, List.head?_reverse, List.getLast?_eq_some_getLast hne,
      Option.map_some, Option.some.injEq] at h
    have hlt := Nat.digits_lt_base hbase (List.getLast_mem hne)
    exact absurd (hchar _ hlt h) hlast

/-- The decimal numeral of a number: a minus sign for a negative one, then digits that have
its absolute value, the first of them no zero unless it is the only one. -/
def IsDecimal (value : ℤ) (t : List UInt8) : Prop :=
  ∃ digits, t = (if value < 0 then [45] else []) ++ digits ∧ digits ≠ [] ∧
    (∀ c ∈ digits, 48 ≤ c ∧ c ≤ 57) ∧ (digits.head? = some 48 → digits = [48]) ∧
    numeralValue 10 digits = value.natAbs

theorem digitChar_decimal : ∀ d < 10, (48 ≤ digitChar d ∧ digitChar d ≤ 57) ∧
    (digitChar d = 48 → d = 0) := by
  decide +kernel

theorem decimal_isDecimal (value : ℤ) : IsDecimal value (decimal value) := by
  refine ⟨numeral 10 value.natAbs, ?_, ?_, fun c hc => ?_,
    leading_digit (by decide) rfl fun d hd => (digitChar_decimal d hd).2,
    numeralValue_numeral (by decide) (by decide) _⟩
  · rw [decimal]
    split
    · rfl
    · rfl
  · have hpos := length_lowDigits_pos 10 value.natAbs
    rw [← length_numeral] at hpos
    exact List.length_pos_iff.mp hpos
  · obtain ⟨d, hd, rfl⟩ := List.mem_map.mp hc
    exact (digitChar_decimal d (lowDigits_lt (by decide) (List.mem_reverse.mp hd))).1

end BinOs.NumeralValues
