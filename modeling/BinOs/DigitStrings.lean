import Mathlib.Data.Nat.Digits.Lemmas

/-! # Digits from the lowest up

Zero has one digit here, as in a numeral, where `Nat.digits` gives it none. -/
namespace BinOs.DigitStrings

variable {base n : ℕ}

def lowDigits (base n : ℕ) : List ℕ := if n = 0 then [0] else Nat.digits base n

/-- The remainder, and the digits of the quotient unless that is zero. -/
theorem lowDigits_eq (hbase : 1 < base) (n : ℕ) : lowDigits base n =
    n % base :: if n / base = 0 then [] else lowDigits base (n / base) := by
  by_cases hn : n = 0
  · rw [lowDigits, if_pos hn, hn, Nat.zero_mod, Nat.zero_div, if_pos rfl]
  · rw [lowDigits, if_neg hn, Nat.digits_def' hbase (Nat.pos_of_ne_zero hn)]
    by_cases hq : n / base = 0
    · rw [if_pos hq, hq, Nat.digits_zero]
    · rw [if_neg hq, lowDigits, if_neg hq]

theorem lowDigits_lt (hbase : 1 < base) {d : ℕ} (hd : d ∈ lowDigits base n) : d < base := by
  rw [lowDigits] at hd
  split at hd
  · rw [List.mem_singleton.mp hd]
    omega
  · exact Nat.digits_lt_base hbase hd

theorem length_lowDigits_pos (base n : ℕ) : 0 < (lowDigits base n).length := by
  rw [lowDigits]
  split
  · exact Nat.one_pos
  · next hn => exact List.length_pos_iff.mpr (Nat.digits_ne_nil_iff_ne_zero.mpr hn)

theorem length_lowDigits_le (hbase : 1 < base) {k : ℕ} (hk : 0 < k) (hn : n < base ^ k) :
    (lowDigits base n).length ≤ k := by
  rw [lowDigits]
  split
  · exact hk
  · exact (Nat.digits_length_le_iff hbase n).mpr hn

end BinOs.DigitStrings
