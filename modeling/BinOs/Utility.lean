import BinOs.NumeralValues

/-! # The decimal conversion of `utility.c`

`to_string` stores the digits from the lowest up, then the sign, and turns all of it
round; `int_to_string` of the serial port turns the digits behind the sign round. They
agree on every `int` but the least, whose negation does not exist. -/
namespace BinOs.Utility
open CheckedBuffers SerialPort DigitStrings SerialNumerals NumeralValues

/-- The function's static array, with what an earlier call has left in it. -/
abbrev StaticBuffer := Vector UInt8 20

def digitsLoop : ℕ → ℤ → ℤ → StaticBuffer → Option (ℤ × StaticBuffer)
  | 0, _, _, _ => none
  | fuel + 1, s, i, buffer =>
    if s > 0 then do
      let buffer ← write buffer i (UInt8.ofInt (s.tmod 10 + 48))
      digitsLoop fuel (s.tdiv 10) (i + 1) buffer
    else some (i, buffer)

def swapLoop : ℕ → ℤ → ℤ → StaticBuffer → Option StaticBuffer
  | 0, _, _, _ => none
  | fuel + 1, start, stop, buffer =>
    if start < stop then do
      let temp ← read buffer start
      let buffer ← write buffer start (← read buffer stop)
      let buffer ← write buffer stop temp
      swapLoop fuel (start + 1) (stop - 1) buffer
    else some buffer

/-- The negation of the least `int`, which C leaves undefined, is taken to give it back. -/
def toString (s : ℤ) (buffer : StaticBuffer) : Option StaticBuffer := do
  let sign : ℤ := if s < 0 then -1 else 1
  let s := if s < 0 then Int.bmod (-s) (2 ^ 32) else s
  if s = 0 then
    let buffer ← write buffer 0 48
    write buffer 1 0
  else
    let (i, buffer) ← digitsLoop 21 s 0 buffer
    let (i, buffer) ← if sign = -1 then (write buffer i 45).map (i + 1, ·) else some (i, buffer)
    let buffer ← write buffer i 0
    swapLoop 21 0 (i - 1) buffer

theorem ofInt_digit : ∀ d < 10, UInt8.ofInt (((d : ℕ) : ℤ) + 48) = digitChar d := by
  decide +kernel

/-- The loop stores the digits one after another; zero has none here. -/
theorem digitsLoop_writes (fuel n p : ℕ) (buffer : StaticBuffer)
    (hfuel : (Nat.digits 10 n).length < fuel) :
    digitsLoop fuel n p buffer = (writeFrom p ((Nat.digits 10 n).map digitChar) buffer).map
      fun buffer' => (((p + (Nat.digits 10 n).length : ℕ) : ℤ), buffer') := by
  induction fuel generalizing n p buffer with
  | zero => exact absurd hfuel (Nat.not_lt_zero _)
  | succ fuel ih =>
    by_cases hn : n = 0
    · subst hn
      rfl
    · have hdigits := Nat.digits_eq_cons_digits_div (by decide : 1 < 10) hn
      rw [hdigits, List.length_cons] at hfuel
      have hdigit : UInt8.ofInt ((n : ℤ).tmod 10 + 48) = digitChar (n % 10) :=
        ofInt_digit (n % 10) (Nat.mod_lt n (by decide))
      have hnext : p + ((Nat.digits 10 (n / 10)).length + 1) =
          p + 1 + (Nat.digits 10 (n / 10)).length := by omega
      rw [digitsLoop, if_pos (by omega), hdigit, hdigits, List.map_cons, writeFrom,
        Option.bind_eq_bind, List.length_cons, hnext]
      cases write buffer p (digitChar (n % 10)) with
      | none => rfl
      | some buffer₁ => exact ih (n / 10) (p + 1) buffer₁ (by omega)

/-- The digits stand in the buffer from `p` on. -/
theorem digitsLoop_eq (fuel n p : ℕ) (buffer : StaticBuffer)
    (hfuel : (Nat.digits 10 n).length < fuel) (hfits : p + (Nat.digits 10 n).length ≤ 20) :
    ∃ buffer', digitsLoop fuel n p buffer =
        some (((p + (Nat.digits 10 n).length : ℕ) : ℤ), buffer') ∧
      (∀ j < p, elem buffer' j = elem buffer j) ∧
      ∀ k (hk : k < (Nat.digits 10 n).length),
        elem buffer' (p + k) = digitChar ((Nat.digits 10 n)[k]) := by
  obtain ⟨buffer', hwrite, hbelow, hfrom⟩ :=
    writeFrom_eq ((Nat.digits 10 n).map digitChar) buffer (by rwa [List.length_map])
  refine ⟨buffer', ?_, hbelow, fun k hk => ?_⟩
  · rw [digitsLoop_writes fuel n p buffer hfuel, hwrite]
    rfl
  · rw [hfrom k (by rwa [List.length_map]), List.getElem_map]

theorem swapLoop_pass (fuel l r : ℕ) (buffer : StaticBuffer) (hlt : l < r) (hr : r < 20) :
    ∃ buffer', Swapped l r buffer buffer' ∧
      swapLoop (fuel + 1) l r buffer = swapLoop fuel (l + 1) (r - 1) buffer' := by
  obtain ⟨buffer₁, hwrite₁, hbuffer₁⟩ :=
    write_eq buffer (elem buffer r) (by omega : (0 : ℤ) ≤ l) (by omega)
  obtain ⟨buffer', hwrite, hbuffer'⟩ :=
    write_eq buffer₁ (elem buffer l) (by omega : (0 : ℤ) ≤ r) (by omega)
  refine ⟨buffer', fun j => ?_, ?_⟩
  · rw [hbuffer', hbuffer₁]
    simp only [Nat.cast_inj]
    by_cases hj : j = l
    · rw [if_neg (by omega), if_pos hj, if_pos hj]
    · rw [if_neg hj, if_neg hj]
  · have hinside : (l : ℤ) < r := by omega
    simp only [swapLoop, if_pos hinside, read_natCast buffer hr,
      read_natCast buffer (by omega : l < 20), hwrite₁, hwrite, Option.bind_eq_bind,
      Option.bind_some]

theorem swapLoop_eq (fuel l r : ℕ) (buffer : StaticBuffer) (hfuel : r ≤ l + 2 * fuel)
    (hr : r < 20) :
    ∃ buffer', swapLoop (fuel + 1) l r buffer = some buffer' ∧
      ∀ j, elem buffer' j = turned l r (elem buffer) j :=
  turns_of_passes (fun fuel l r buffer hout => by rw [swapLoop, if_neg hout]) swapLoop_pass
    fuel l r buffer hfuel hr

/-- A terminator behind the characters stored so far, and all of them turned round. -/
theorem finish_holds {low : List UInt8} (hne : low ≠ []) (hfits : low.length < 20)
    (hnonzero : ∀ c ∈ low, c ≠ 0) {buffer : StaticBuffer}
    (hlow : ∀ k (hk : k < low.length), elem buffer k = low[k]) :
    ∃ buffer', (write buffer low.length 0).bind (swapLoop 21 0 ((low.length : ℤ) - 1)) =
      some buffer' ∧ Holds buffer' low.reverse := by
  have hpos : 0 < low.length := List.length_pos_iff.mpr hne
  obtain ⟨buffer₁, hend, hbuffer₁⟩ :=
    write_eq buffer 0 (by omega : (0 : ℤ) ≤ (low.length : ℤ)) (by omega)
  obtain ⟨buffer', hloop, hbuffer'⟩ :=
    swapLoop_eq 20 0 (low.length - 1) buffer₁ (by omega) (by omega)
  have hlast : ((low.length - 1 : ℕ) : ℤ) = (low.length : ℤ) - 1 := by omega
  rw [hlast] at hloop
  refine ⟨buffer', by rw [hend, Option.bind_some]; exact hloop, ?_⟩
  constructor
  case fits => rwa [List.length_reverse]
  case bytes =>
    intro k hk
    rw [List.length_reverse] at hk
    rw [hbuffer', turned, if_pos (by omega), hbuffer₁, if_neg (by omega), hlow _ (by omega),
      List.getElem_reverse]
    congr 1
    omega
  case nonzero => exact fun c hc => hnonzero c (List.mem_reverse.mp hc)
  case terminator =>
    rw [List.length_reverse, hbuffer', turned, if_neg (by omega), hbuffer₁, if_pos rfl]

variable {v : ℤ}

/-- The characters of a numeral from its end to its sign. -/
def lowCharacters (v : ℤ) : List UInt8 :=
  (Nat.digits 10 v.natAbs).map digitChar ++ if v < 0 then [45] else []

theorem lowCharacters_reverse (hv : v ≠ 0) : (lowCharacters v).reverse = decimal v := by
  have hlow : lowDigits 10 v.natAbs = Nat.digits 10 v.natAbs := if_neg (Int.natAbs_ne_zero.mpr hv)
  rw [lowCharacters, decimal, numeral, hlow, List.map_reverse, List.reverse_append]
  split
  · rfl
  · rfl

theorem length_digits_le (hlo : -2 ^ 31 < v) (hhi : v < 2 ^ 31) :
    (Nat.digits 10 v.natAbs).length ≤ 10 :=
  (Nat.digits_length_le_iff (by decide) _).mpr (by omega : v.natAbs < 10 ^ 10)

/-- The digits and the sign, before the terminator. -/
theorem toString_characters (hlo : -2 ^ 31 < v) (hhi : v < 2 ^ 31) (hv : v ≠ 0)
    (buffer : StaticBuffer) :
    ∃ buffer', (∀ k (hk : k < (lowCharacters v).length),
        elem buffer' k = (lowCharacters v)[k]) ∧
      Utility.toString v buffer = (write buffer' (lowCharacters v).length 0).bind
        (swapLoop 21 0 (((lowCharacters v).length : ℤ) - 1)) := by
  have hlength := length_digits_le hlo hhi
  obtain ⟨buffer₁, hdigits, -, hfrom⟩ :=
    digitsLoop_eq 21 v.natAbs 0 buffer (by omega) (by omega)
  simp only [Nat.zero_add, Nat.cast_zero] at hdigits hfrom
  by_cases hneg : v < 0
  · have habs : Int.bmod (-v) (2 ^ 32) = (v.natAbs : ℤ) := by
      rw [Int.bmod_eq_of_le (by omega) (by omega)]
      omega
    have hlow : lowCharacters v = (Nat.digits 10 v.natAbs).map digitChar ++ [45] := by
      rw [lowCharacters, if_pos hneg]
    obtain ⟨buffer₂, hsign, hbuffer₂⟩ := write_eq buffer₁ 45
      (by omega : (0 : ℤ) ≤ ((Nat.digits 10 v.natAbs).length : ℤ)) (by omega)
    refine ⟨buffer₂, fun k hk => ?_, ?_⟩
    · rw [hbuffer₂]
      simp only [hlow, List.length_append, List.length_map, List.length_singleton] at hk
      by_cases hlast : k = (Nat.digits 10 v.natAbs).length
      · subst hlast
        rw [if_pos rfl]
        simp [hlow]
      · rw [if_neg (by omega), hfrom k (by omega)]
        simp [hlow, show k < (Nat.digits 10 v.natAbs).length by omega]
    · have hnonzero : ¬ ((v.natAbs : ℕ) : ℤ) = 0 := by omega
      have hcount : ((lowCharacters v).length : ℤ) = (Nat.digits 10 v.natAbs).length + 1 := by
        simp [hlow]
      simp only [Utility.toString, if_pos hneg, habs, if_neg hnonzero, hdigits, hsign, hcount,
        Option.bind_eq_bind, Option.bind_some, Option.map_some, if_true]
  · have habs : v = (v.natAbs : ℤ) := by omega
    have hlow : lowCharacters v = (Nat.digits 10 v.natAbs).map digitChar := by
      rw [lowCharacters, if_neg hneg, List.append_nil]
    refine ⟨buffer₁, fun k hk => ?_, ?_⟩
    · simp only [hlow, List.length_map] at hk
      rw [hfrom k hk]
      simp [hlow]
    · have hsign : ¬ (1 : ℤ) = -1 := by decide
      rw [← habs] at hdigits
      simp only [Utility.toString, if_neg hneg, if_neg hv, hdigits, if_neg hsign, hlow,
        List.length_map, Option.bind_eq_bind, Option.bind_some]

theorem toString_holds (hlo : -2 ^ 31 < v) (hhi : v < 2 ^ 31) (buffer : StaticBuffer) :
    ∃ buffer', Utility.toString v buffer = some buffer' ∧ Holds buffer' (decimal v) := by
  by_cases hv : v = 0
  · subst hv
    obtain ⟨buffer₁, hdigit, hbuffer₁⟩ := write_eq buffer 48 (by decide : (0 : ℤ) ≤ 0) (by decide)
    obtain ⟨buffer', hend, hbuffer'⟩ := write_eq buffer₁ 0 (by decide : (0 : ℤ) ≤ 1) (by decide)
    have hrun : Utility.toString 0 buffer = (write buffer 0 48).bind (write · 1 0) := rfl
    have hzero : decimal 0 = [48] := rfl
    refine ⟨buffer', by rw [hrun, hdigit, Option.bind_some, hend], ?_⟩
    rw [hzero]
    constructor
    case fits => decide
    case bytes =>
      intro k hk
      obtain rfl : k = 0 := by simpa using hk
      rw [hbuffer', if_neg (by decide), hbuffer₁, if_pos (by decide)]
      rfl
    case nonzero => simp
    case terminator => rw [hbuffer', if_pos (by decide)]
  · have hlength := length_digits_le hlo hhi
    obtain ⟨buffer₁, hlow, heq⟩ := toString_characters hlo hhi hv buffer
    rw [heq, ← lowCharacters_reverse hv]
    refine finish_holds ?_ ?_ ?_ hlow
    · have hne := Nat.digits_ne_nil_iff_ne_zero (b := 10).mpr (Int.natAbs_ne_zero.mpr hv)
      simp [lowCharacters, hne]
    · rw [lowCharacters, List.length_append, List.length_map]
      split
      · rw [List.length_singleton]
        omega
      · rw [List.length_nil]
        omega
    · intro c hc
      apply decimal_ne_zero v
      rw [← lowCharacters_reverse hv]
      exact List.mem_reverse.mpr hc

/-- Both functions leave, in their arrays, the same string, a decimal numeral of the number;
every index stays in range. -/
def ConvertsRight (v : ℤ) (str : NumberBuffer) (buffer : StaticBuffer) : Prop :=
  ∃ t str' buffer', IsDecimal v t ∧ intToString v str 10 = some str' ∧ Holds str' t ∧
    Utility.toString v buffer = some buffer' ∧ Holds buffer' t

/-- The quotient stays negative, and so does the index into the digit table. -/
theorem intToString_least (str : NumberBuffer) : intToString (-2 ^ 31) str 10 = none := by
  obtain ⟨str₁, hsign, -⟩ := write_eq str 45 (by decide : (0 : ℤ) ≤ 0) (by decide)
  rw [intToString, if_pos (by decide), hsign]
  rfl

/-- Both conversions are right for every `int` but the least. -/
theorem conversions_right_iff {v : ℤ} (hlo : -2 ^ 31 ≤ v) (hhi : v < 2 ^ 31) (str : NumberBuffer)
    (buffer : StaticBuffer) : ConvertsRight v str buffer ↔ v ≠ -2 ^ 31 := by
  constructor
  · rintro ⟨t, str', buffer', -, hint, -⟩ rfl
    rw [intToString_least] at hint
    cases hint
  · intro hne
    obtain ⟨str', hint, hholds⟩ := intToString_holds str (by omega) hhi
    obtain ⟨buffer', hstring, hholds'⟩ := toString_holds (by omega) hhi buffer
    exact ⟨decimal v, str', buffer', decimal_isDecimal v, hint, hholds, hstring, hholds'⟩

theorem conversions_right_iff_greatest :
    ConvertsRight (2 ^ 31 - 1) localBuffer (Vector.replicate 20 0) ↔ (2 ^ 31 - 1 : ℤ) ≠ -2 ^ 31 :=
  conversions_right_iff (by decide) (by decide) _ _

/-- The least `int` takes `int_to_string` outside its table. -/
theorem least_int_not_converted :
    ¬ ConvertsRight (-2 ^ 31) localBuffer (Vector.replicate 20 0) ∧
      intToString (-2 ^ 31) localBuffer 10 = none := by
  refine ⟨?_, intToString_least _⟩
  rintro ⟨t, str', buffer', -, hint, -⟩
  rw [intToString_least] at hint
  cases hint

end BinOs.Utility
