import BinOs.NumeralValues

/-! # The conversion of unsigned numbers

The numeral left in the buffer is read back, in small letters and, after the loop of `%X`,
in capital ones. -/
namespace BinOs.UnsignedNumerals
open CheckedBuffers MemoryStrings SerialPort DigitStrings SerialNumerals NumeralValues

/-- The loop of `%X` as it runs, in place; a terminated string has fuel for one pass a byte. -/
def upperCaseLoop : ℕ → ℤ → NumberBuffer → Option NumberBuffer
  | 0, _, _ => none
  | fuel + 1, i, buffer => do
    let c ← read buffer i
    if c = 0 then some buffer
    else do
      let buffer ← if c ≥ 97 ∧ c ≤ 102 then write buffer i (c - 97 + 65) else some buffer
      upperCaseLoop fuel (i + 1) buffer

theorem upperChar_of_letter {c : UInt8} (h : c ≥ 97 ∧ c ≤ 102) : upperChar c = c - 97 + 65 :=
  if_pos h

theorem upperChar_of_other {c : UInt8} (h : ¬ (c ≥ 97 ∧ c ≤ 102)) : upperChar c = c := if_neg h

theorem upperChar_ne_zero {c : UInt8} (h : c ≠ 0) : upperChar c ≠ 0 := by
  have hbytes : ∀ n < 256, UInt8.ofNat n ≠ 0 → upperChar (UInt8.ofNat n) ≠ 0 := by
    decide +kernel
  have hbyte := hbytes c.toNat c.toNat_lt
  rw [UInt8.ofNat_toNat] at hbyte
  exact hbyte h

/-- A pass over a byte that is not the terminator leaves it changed and the others alone. -/
theorem upperCaseLoop_pass (fuel i : ℕ) (buffer : NumberBuffer) (hi : i < 32)
    (hbyte : elem buffer i ≠ 0) :
    ∃ buffer', upperCaseLoop (fuel + 1) i buffer = upperCaseLoop fuel ((i + 1 : ℕ) : ℤ) buffer' ∧
      ∀ j, elem buffer' j = if j = i then upperChar (elem buffer i) else elem buffer j := by
  have hread := read_natCast buffer hi
  by_cases hletter : elem buffer i ≥ 97 ∧ elem buffer i ≤ 102
  · obtain ⟨buffer', hwrite, hbuffer'⟩ := write_eq buffer (elem buffer i - 97 + 65)
      (by omega : (0 : ℤ) ≤ i) (by omega)
    refine ⟨buffer', ?_, fun j => ?_⟩
    · simp only [upperCaseLoop, hread, Option.bind_eq_bind, Option.bind_some, if_neg hbyte,
        if_pos hletter, hwrite]
      rfl
    · rw [hbuffer', upperChar_of_letter hletter]
      simp only [Nat.cast_inj]
  · refine ⟨buffer, ?_, fun j => ?_⟩
    · simp only [upperCaseLoop, hread, Option.bind_eq_bind, Option.bind_some, if_neg hbyte,
        if_neg hletter]
      rfl
    · rw [upperChar_of_other hletter]
      split
      · next hj => rw [hj]
      · rfl

/-- From `i` up to the terminator at `m` every byte is changed, and nothing else is. -/
theorem upperCaseLoop_eq (fuel i m : ℕ) (buffer : NumberBuffer) (hi : i ≤ m) (hm : m < 32)
    (hfuel : m < i + fuel) (hnonzero : ∀ j, i ≤ j → j < m → elem buffer j ≠ 0)
    (hend : elem buffer m = 0) :
    ∃ buffer', upperCaseLoop fuel i buffer = some buffer' ∧ ∀ j, elem buffer' j =
      if i ≤ j ∧ j < m then upperChar (elem buffer j) else elem buffer j := by
  induction fuel generalizing i buffer with
  | zero => omega
  | succ fuel ih =>
    by_cases hlast : i = m
    · subst hlast
      refine ⟨buffer, ?_, fun j => by rw [if_neg (by omega)]⟩
      rw [upperCaseLoop, read_natCast buffer hm, Option.bind_eq_bind, Option.bind_some, if_pos hend]
    · obtain ⟨buffer₁, hpass, hbuffer₁⟩ := upperCaseLoop_pass fuel i buffer (by omega)
        (hnonzero i (Nat.le_refl i) (by omega))
      have hnonzero₁ : ∀ j, i + 1 ≤ j → j < m → elem buffer₁ j ≠ 0 := by
        intro j hj hjm
        rw [hbuffer₁, if_neg (by omega)]
        exact hnonzero j (by omega) hjm
      have hend₁ : elem buffer₁ m = 0 := by rw [hbuffer₁, if_neg (by omega), hend]
      obtain ⟨buffer', hloop, hbuffer'⟩ :=
        ih (i + 1) buffer₁ (by omega) (by omega) hnonzero₁ hend₁
      refine ⟨buffer', hpass.trans hloop, fun j => ?_⟩
      rw [hbuffer', hbuffer₁]
      by_cases hj : j = i
      · rw [if_neg (by omega), if_pos hj, if_pos (by omega), hj]
      · rw [if_neg hj]
        by_cases hinner : i ≤ j ∧ j < m
        · rw [if_pos (by omega), if_pos hinner]
        · rw [if_neg (by omega), if_neg hinner]

theorem upperCaseLoop_holds {buffer : NumberBuffer} {t : List UInt8} (h : Holds buffer t) :
    ∃ buffer', upperCaseLoop 32 0 buffer = some buffer' ∧ Holds buffer' (upperCase t) ∧
      ∀ j, elem buffer' j ≠ elem buffer j → 97 ≤ elem buffer j ∧ elem buffer j ≤ 102 := by
  have hfits := h.fits
  have hlength : (upperCase t).length = t.length := List.length_map upperChar
  obtain ⟨buffer', hloop, hbuffer'⟩ := upperCaseLoop_eq 32 0 t.length buffer (Nat.zero_le _) hfits
    (by omega) (fun j _ hj => h.elem_ne_zero hj) h.terminator
  refine ⟨buffer', hloop, ?_, fun j hne => ?_⟩
  · constructor
    case fits => rwa [hlength]
    case bytes =>
      intro i hi
      rw [hlength] at hi
      rw [hbuffer', if_pos ⟨Nat.zero_le i, hi⟩, h.bytes i hi]
      exact (List.getElem_map upperChar).symm
    case nonzero =>
      intro c hc
      obtain ⟨d, hd, rfl⟩ := List.mem_map.mp hc
      exact upperChar_ne_zero (h.nonzero d hd)
    case terminator =>
      rw [hlength, hbuffer', if_neg fun hj => Nat.lt_irrefl _ hj.2]
      exact h.terminator
  · rw [hbuffer'] at hne
    split at hne
    · by_contra hother
      exact hne (upperChar_of_other hother)
    · exact absurd rfl hne

/-- What `%X` sends is what the loop in place leaves in the buffer. -/
theorem conversion_upperHex (value : UInt32) (args : List Arg) :
    conversion 88 (.uint value :: args) = (do
      let buffer ← uintToString value localBuffer 16
      let buffer ← upperCaseLoop 32 0 buffer
      some (writeSerial (← contents buffer), args)) := by
  obtain ⟨buffer, hbuffer, hholds⟩ :=
    uintToString_holds value localBuffer (by decide : 10 ≤ 16) (by decide)
  have hbuffer : uintToString value localBuffer 16 = some buffer := hbuffer
  obtain ⟨buffer', hloop, hupper, -⟩ := upperCaseLoop_holds hholds
  simp [conversion, hbuffer, hholds.contents, hloop, hupper.contents]

def IsHexDigit (c : UInt8) : Prop := 48 ≤ c ∧ c ≤ 57 ∨ 65 ≤ c ∧ c ≤ 70 ∨ 97 ≤ c ∧ c ≤ 102

instance (c : UInt8) : Decidable (IsHexDigit c) :=
  inferInstanceAs (Decidable (_ ∨ _ ∨ _))

/-- The value of a digit, whose letter may be a capital one. -/
def hexDigitValue (c : UInt8) : ℕ := if 65 ≤ c ∧ c ≤ 70 then c.toNat - 55 else digitValue c

def hexValue (base : ℕ) (t : List UInt8) : ℕ := t.foldl (fun n c => hexDigitValue c + base * n) 0

/-- Digits of the base, the first of them no zero unless it is the only one, that have this
value. -/
structure IsNumeral (base value : ℕ) (t : List UInt8) : Prop where
  nonempty : t ≠ []
  digits : ∀ c ∈ t, IsHexDigit c ∧ hexDigitValue c < base
  leading : t.head? = some 48 → t = [48]
  value : hexValue base t = value

variable {base : ℕ}

/-- Any characters that can be read back make a numeral. -/
theorem isNumeral_of_char {char : ℕ → UInt8} (hbase : 1 < base) (hzero : char 0 = 48)
    (hchar : ∀ d < base, IsHexDigit (char d) ∧ hexDigitValue (char d) = d) (n : ℕ) :
    IsNumeral base n ((lowDigits base n).reverse.map char) := by
  have hlt : ∀ d ∈ lowDigits base n, d < base := fun d hd => lowDigits_lt hbase hd
  constructor
  case nonempty =>
    have hpos := length_lowDigits_pos base n
    rw [ne_eq, List.map_eq_nil_iff, List.reverse_eq_nil_iff]
    exact List.length_pos_iff.mp hpos
  case digits =>
    intro c hc
    obtain ⟨d, hd, rfl⟩ := List.mem_map.mp hc
    have hd := hlt d (List.mem_reverse.mp hd)
    obtain ⟨hdigit, hvalue⟩ := hchar d hd
    exact ⟨hdigit, hvalue.symm ▸ hd⟩
  case leading =>
    refine leading_digit hbase hzero fun d hd h => ?_
    have hvalue := (hchar d hd).2
    rw [h] at hvalue
    exact hvalue.symm
  case value =>
    rw [hexValue, foldl_digits fun d hd => (hchar d (hlt d hd)).2, ofDigits_lowDigits]

theorem digitChar_hexDigit : ∀ d < 16,
    IsHexDigit (digitChar d) ∧ hexDigitValue (digitChar d) = d := by
  decide +kernel

theorem upperChar_hexDigit : ∀ d < 16,
    IsHexDigit (upperChar (digitChar d)) ∧ hexDigitValue (upperChar (digitChar d)) = d := by
  decide +kernel

theorem numeral_isNumeral (hbase : 1 < base) (hle : base ≤ 16) (n : ℕ) :
    IsNumeral base n (numeral base n) :=
  isNumeral_of_char hbase rfl (fun d hd => digitChar_hexDigit d (Nat.lt_of_lt_of_le hd hle)) n

theorem upperCase_isNumeral (hbase : 1 < base) (hle : base ≤ 16) (n : ℕ) :
    IsNumeral base n (upperCase (numeral base n)) := by
  rw [upperCase, numeral, List.map_map]
  exact isNumeral_of_char hbase rfl
    (fun d hd => upperChar_hexDigit d (Nat.lt_of_lt_of_le hd hle)) n

/-- The most digits that a number of 32 bits has. -/
def maxDigits (base : ℕ) : ℕ := if base = 10 then 10 else 8

/-- What a conversion leaves in the buffer: in small letters, and after the loop of `%X`. -/
structure Converted (value : UInt32) (base : ℕ) (str : NumberBuffer) (t : List UInt8) : Prop where
  short : t.length ≤ maxDigits base
  lower : IsNumeral base value.toNat t
  upper : IsNumeral base value.toNat (upperCase t)
  stored : ∃ str', uintToString value str base = some str' ∧ Holds str' t ∧
    ∃ str'', upperCaseLoop 32 0 str' = some str'' ∧ Holds str'' (upperCase t) ∧
      ∀ j, elem str'' j ≠ elem str' j → 97 ≤ elem str' j ∧ elem str' j ≤ 102

theorem length_numeral_le_maxDigits (hbase : base = 10 ∨ base = 16) (value : UInt32) :
    (numeral base value.toNat).length ≤ maxDigits base := by
  have hvalue := value.toNat_lt
  rw [length_numeral]
  obtain rfl | rfl := hbase
  · exact length_lowDigits_le (by decide) (by decide) (Nat.lt_of_lt_of_le hvalue (by decide))
  · exact length_lowDigits_le (by decide) (by decide) (Nat.lt_of_lt_of_le hvalue (by decide))

theorem converted_numeral (value : UInt32) (hbase : base = 10 ∨ base = 16) (str : NumberBuffer) :
    Converted value base str (numeral base value.toNat) := by
  obtain ⟨hlo, hhi⟩ : 10 ≤ base ∧ base ≤ 16 := by omega
  constructor
  case short => exact length_numeral_le_maxDigits hbase value
  case lower => exact numeral_isNumeral (by omega) hhi value.toNat
  case upper => exact upperCase_isNumeral (by omega) hhi value.toNat
  case stored =>
    obtain ⟨str', hstr', hholds⟩ := uintToString_holds value str hlo hhi
    exact ⟨str', hstr', hholds, upperCaseLoop_holds hholds⟩

/-- A number is written as a numeral of its own, with or without capital letters, whatever
the buffer held; two different ones are never written alike. -/
theorem unsigned_round_trip (value : UInt32) (hbase : base = 10 ∨ base = 16)
    (str : NumberBuffer) :
    ∃ t, Converted value base str t ∧ ∀ other ≠ value, ∀ str₂ : NumberBuffer,
      ∃ t₂, Converted other base str₂ t₂ ∧ t₂ ≠ t ∧ upperCase t₂ ≠ upperCase t := by
  have ht := converted_numeral value hbase str
  refine ⟨_, ht, fun other hne str₂ => ?_⟩
  have ht₂ := converted_numeral other hbase str₂
  have hvalue : other.toNat ≠ value.toNat := fun h => hne (UInt32.toNat_inj.mp h)
  refine ⟨_, ht₂, fun heq => ?_, fun heq => ?_⟩
  · rw [← ht.lower.value, ← ht₂.lower.value, heq] at hvalue
    exact hvalue rfl
  · rw [← ht.upper.value, ← ht₂.upper.value, heq] at hvalue
    exact hvalue rfl

/-- The largest number, of eight letters. -/
theorem unsigned_round_trip_largest :
    ∃ t, Converted 0xFFFFFFFF 16 localBuffer t ∧
      ∀ other ≠ (0xFFFFFFFF : UInt32), ∀ str₂ : NumberBuffer,
        ∃ t₂, Converted other 16 str₂ t₂ ∧ t₂ ≠ t ∧ upperCase t₂ ≠ upperCase t :=
  unsigned_round_trip 0xFFFFFFFF (Or.inr rfl) localBuffer

end BinOs.UnsignedNumerals
