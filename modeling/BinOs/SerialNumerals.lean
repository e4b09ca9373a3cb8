import BinOs.DigitStrings
import BinOs.SerialPort

/-! # The numerals of the serial port

The digits are stored from the lowest up and then reversed in place. -/
namespace BinOs.SerialNumerals
open CheckedBuffers MemoryStrings SerialPort DigitStrings

/-- The character of a digit below 16. -/
def digitChar (d : ℕ) : UInt8 := elem digitTable d

/-- A number in base `base`, without leading zeros. -/
def numeral (base n : ℕ) : List UInt8 := (lowDigits base n).reverse.map digitChar

theorem digitChar_ne_zero : ∀ d < 16, digitChar d ≠ 0 := by
  decide +kernel

variable {base : ℕ}

theorem length_numeral (base n : ℕ) : (numeral base n).length = (lowDigits base n).length := by
  rw [numeral, List.length_map, List.length_reverse]

theorem numeral_ne_zero (hbase : 1 < base) (hle : base ≤ 16) (n : ℕ) :
    ∀ c ∈ numeral base n, c ≠ 0 := by
  intro c hc
  obtain ⟨d, hd, rfl⟩ := List.mem_map.mp hc
  exact digitChar_ne_zero d (Nat.lt_of_lt_of_le (lowDigits_lt hbase (List.mem_reverse.mp hd)) hle)

/-- The loop stores the digits one after another. -/
theorem digitLoop_writes (hbase : 1 < base) (hle : base ≤ 16) (fuel n p : ℕ) (str : NumberBuffer)
    (hfuel : (lowDigits base n).length ≤ fuel) :
    digitLoop base fuel n p str = (writeFrom p ((lowDigits base n).map digitChar) str).map
      fun str' => (((p + (lowDigits base n).length : ℕ) : ℤ), str') := by
  induction fuel generalizing n p str with
  | zero => exact absurd hfuel (Nat.not_le_of_lt (length_lowDigits_pos base n))
  | succ fuel ih =>
    have hquotient : ((n : ℤ).tdiv base) = ((n / base : ℕ) : ℤ) := rfl
    have hdigit : (n : ℤ) - ((n / base : ℕ) : ℤ) * base = ((n % base : ℕ) : ℤ) := by
      have hdiv := Nat.div_add_mod' n base
      have hcast : ((n / base * base + n % base : ℕ) : ℤ) = n := congrArg _ hdiv
      push_cast at hcast ⊢
      omega
    have hmod : n % base < base := Nat.mod_lt n (by omega)
    have hstep : digitLoop base (fuel + 1) n p str =
        (write str p (digitChar (n % base))).bind fun str₁ =>
          if ((n / base : ℕ) : ℤ) ≠ 0 then digitLoop base fuel ((n / base : ℕ) : ℤ) (p + 1) str₁
          else some ((p : ℤ) + 1, str₁) := by
      rw [digitLoop, hquotient, hdigit, read_natCast digitTable (by omega), Option.bind_eq_bind,
        Option.bind_some]
      rfl
    have hdigits := lowDigits_eq hbase n
    rw [hstep]
    cases hwrite : write str p (digitChar (n % base)) with
    | none =>
      rw [hdigits, List.map_cons, writeFrom, hwrite]
      rfl
    | some str₁ =>
      by_cases hq : n / base = 0
      · rw [if_pos hq] at hdigits
        rw [hdigits, List.map_singleton, writeFrom, hwrite, Option.bind_some,
          if_neg (by omega)]
        rfl
      · rw [if_neg hq] at hdigits
        rw [hdigits, List.length_cons] at hfuel
        have hnext : p + ((lowDigits base (n / base)).length + 1) =
            p + 1 + (lowDigits base (n / base)).length := by omega
        rw [hdigits, List.map_cons, writeFrom, hwrite, Option.bind_some, Option.bind_some,
          if_pos (by omega), List.length_cons, hnext]
        exact ih (n / base) (p + 1) str₁ (by omega)

/-- The digits stand in the buffer from `p` on. -/
theorem digitLoop_eq (hbase : 1 < base) (hle : base ≤ 16) (fuel n p : ℕ) (str : NumberBuffer)
    (hfuel : (lowDigits base n).length ≤ fuel) (hfits : p + (lowDigits base n).length ≤ 32) :
    ∃ str', digitLoop base fuel n p str =
        some (((p + (lowDigits base n).length : ℕ) : ℤ), str') ∧
      (∀ j < p, elem str' j = elem str j) ∧
      ∀ k (hk : k < (lowDigits base n).length),
        elem str' (p + k) = digitChar ((lowDigits base n)[k]) := by
  obtain ⟨str', hwrite, hbelow, hfrom⟩ :=
    writeFrom_eq ((lowDigits base n).map digitChar) str (by rwa [List.length_map])
  refine ⟨str', ?_, hbelow, fun k hk => ?_⟩
  · rw [digitLoop_writes hbase hle fuel n p str hfuel, hwrite]
    rfl
  · rw [hfrom k (by rwa [List.length_map]), List.getElem_map]

theorem reverseLoop_pass (fuel l r : ℕ) (str : NumberBuffer) (hlt : l < r) (hr : r < 32) :
    ∃ str', Swapped l r str str' ∧
      reverseLoop (fuel + 1) l r str = reverseLoop fuel (l + 1) (r - 1) str' := by
  obtain ⟨str₁, hwrite₁, hstr₁⟩ := write_eq str (elem str l) (by omega : (0 : ℤ) ≤ r) (by omega)
  obtain ⟨str', hwrite, hstr'⟩ := write_eq str₁ (elem str r) (by omega : (0 : ℤ) ≤ l) (by omega)
  refine ⟨str', fun j => ?_, ?_⟩
  · rw [hstr', hstr₁]
    simp only [Nat.cast_inj]
  · have hinside : (l : ℤ) < r := by omega
    simp only [reverseLoop, if_pos hinside, read_natCast str hr,
      read_natCast str (by omega : l < 32), hwrite₁, hwrite, Option.bind_eq_bind, Option.bind_some]

/-- The segment from `l` to `r` is turned round and nothing else changes. -/
theorem reverseLoop_eq (fuel l r : ℕ) (str : NumberBuffer) (hfuel : r ≤ l + 2 * fuel)
    (hr : r < 32) :
    ∃ str', reverseLoop (fuel + 1) l r str = some str' ∧
      ∀ j, elem str' j = turned l r (elem str) j :=
  turns_of_passes (fun fuel l r str hout => by rw [reverseLoop, if_neg hout]) reverseLoop_pass
    fuel l r str hfuel hr

/-- What stood before the numeral stays; the numeral and a terminator follow. -/
theorem writeNumeral_eq (hbase : 1 < base) (hle : base ≤ 16) (n p : ℕ) (str : NumberBuffer)
    (hfits : p + (numeral base n).length < 32) :
    ∃ str', writeNumeral base n p str = some str' ∧ (∀ j < p, elem str' j = elem str j) ∧
      (∀ k (hk : k < (numeral base n).length), elem str' (p + k) = (numeral base n)[k]) ∧
      elem str' (p + (numeral base n).length) = 0 := by
  have hlength := length_numeral base n
  have hpos := length_lowDigits_pos base n
  obtain ⟨str₁, hdigits, hbelow₁, hfrom₁⟩ :=
    digitLoop_eq hbase hle 33 n p str (by omega) (by omega)
  rw [← hlength] at hdigits
  obtain ⟨str₂, hend, hstr₂⟩ := write_eq str₁ 0
    (by omega : (0 : ℤ) ≤ ((p + (numeral base n).length : ℕ) : ℤ)) (by omega)
  obtain ⟨str', hreverse, hstr'⟩ := reverseLoop_eq 32 p (p + (numeral base n).length - 1) str₂
    (by omega) (by omega)
  have hlast : ((p + (numeral base n).length - 1 : ℕ) : ℤ) =
      ((p + (numeral base n).length : ℕ) : ℤ) - 1 := by omega
  rw [hlast] at hreverse
  refine ⟨str', ?_, fun j hj => ?_, fun k hk => ?_, ?_⟩
  · simp only [writeNumeral, hdigits, hend, Option.bind_eq_bind, Option.bind_some]
    exact hreverse
  · rw [hstr', turned, if_neg (by omega), hstr₂, if_neg (by omega), hbelow₁ j hj]
  · have hmirror : p + (p + (numeral base n).length - 1) - (p + k) =
        p + ((lowDigits base n).length - 1 - k) := by omega
    rw [hstr', turned, if_pos (by omega), hstr₂, if_neg (by omega), hmirror,
      hfrom₁ _ (by omega)]
    simp only [numeral, List.getElem_map, List.getElem_reverse]
  · rw [hstr', turned, if_neg (by omega), hstr₂, if_pos rfl]

theorem writeNumeral_holds (hbase : 1 < base) (hle : base ≤ 16) (n : ℕ) (str : NumberBuffer)
    (hfits : (numeral base n).length < 32) :
    ∃ str', writeNumeral base n 0 str = some str' ∧ Holds str' (numeral base n) := by
  obtain ⟨str', hwrite, -, hbytes, hend⟩ :=
    writeNumeral_eq hbase hle n 0 str (by omega)
  refine ⟨str', hwrite, hfits, fun k hk => ?_, numeral_ne_zero hbase hle n, ?_⟩
  · rw [← hbytes k hk, Nat.zero_add]
  · rw [← hend, Nat.zero_add]

theorem length_numeral_le (hbase : 10 ≤ base) {n : ℕ} (hn : n < 2 ^ 32) :
    (numeral base n).length ≤ 10 := by
  rw [length_numeral]
  apply length_lowDigits_le (by omega) (by decide)
  calc n < 2 ^ 32 := hn
    _ ≤ 10 ^ 10 := by decide
    _ ≤ base ^ 10 := Nat.pow_le_pow_left hbase 10

theorem uintToString_holds (value : UInt32) (str : NumberBuffer) (hbase : 10 ≤ base)
    (hle : base ≤ 16) :
    ∃ str', uintToString value str base = some str' ∧ Holds str' (numeral base value.toNat) := by
  have hlength := length_numeral_le hbase value.toNat_lt
  exact writeNumeral_holds (by omega) hle _ str (by omega)

/-- The decimal numeral with its sign. -/
def decimal (value : ℤ) : List UInt8 :=
  if value < 0 then 45 :: numeral 10 value.natAbs else numeral 10 value.natAbs

theorem decimal_ne_zero (value : ℤ) : ∀ c ∈ decimal value, c ≠ 0 := by
  have hdigits := numeral_ne_zero (by decide : 1 < 10) (by decide) value.natAbs
  rw [decimal]
  split
  · exact List.forall_mem_cons.mpr ⟨by decide, hdigits⟩
  · exact hdigits

theorem intToString_holds {value : ℤ} (str : NumberBuffer) (hlo : -2 ^ 31 < value)
    (hhi : value < 2 ^ 31) :
    ∃ str', intToString value str 10 = some str' ∧ Holds str' (decimal value) := by
  have hlength := length_numeral_le (Nat.le_refl 10) (by omega : value.natAbs < 2 ^ 32)
  by_cases hneg : value < 0
  · have habs : Int.bmod (-value) (2 ^ 32) = (value.natAbs : ℤ) := by
      rw [Int.bmod_eq_of_le (by omega) (by omega)]
      omega
    obtain ⟨str₁, hsign, hstr₁⟩ := write_eq str 45 (by omega : (0 : ℤ) ≤ 0) (by omega)
    obtain ⟨str', hwrite, hbelow, hbytes, hend⟩ := writeNumeral_eq (by decide : 1 < 10)
      (by decide) value.natAbs 1 str₁ (by omega)
    refine ⟨str', ?_, ?_⟩
    · rw [intToString, if_pos ⟨hneg, rfl⟩, hsign, Option.bind_eq_bind, Option.bind_some, habs]
      exact hwrite
    · have hsigned : decimal value = 45 :: numeral 10 value.natAbs := if_pos hneg
      rw [hsigned]
      constructor
      case fits =>
        rw [List.length_cons]
        omega
      case bytes =>
        intro k hk
        cases k with
        | zero =>
          rw [hbelow 0 (by decide), hstr₁]
          rfl
        | succ k =>
          rw [List.length_cons] at hk
          have hbyte := hbytes k (by omega)
          rw [Nat.add_comm 1 k] at hbyte
          exact hbyte
      case nonzero =>
        rw [← hsigned]
        exact decimal_ne_zero value
      case terminator =>
        rw [List.length_cons, Nat.add_comm _ 1]
        exact hend
  · have habs : value = (value.natAbs : ℤ) := by omega
    obtain ⟨str', hwrite, hholds⟩ := writeNumeral_holds (by decide : 1 < 10) (by decide)
      value.natAbs str (by omega)
    refine ⟨str', ?_, by rwa [decimal, if_neg hneg]⟩
    rw [intToString, if_neg fun h => hneg h.1, habs]
    exact hwrite

end BinOs.SerialNumerals
