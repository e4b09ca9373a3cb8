import Mathlib.Algebra.GroupWithZero.Nat
import Mathlib.Data.Nat.Notation

/-! # Fields packed into a number

The first field takes the lowest bits. Any stretch of bits can be read, whether the fields
were cut there or elsewhere. -/
namespace BinOs.PackedFields

structure Field where
  width : ℕ
  value : ℕ
  fits : value < 2 ^ width

def pack : List Field → ℕ
  | [] => 0
  | f :: fields => f.value + 2 ^ f.width * pack fields

/-- So many bits from an offset on. -/
def bits (offset width n : ℕ) : ℕ := n / 2 ^ offset % 2 ^ width

theorem bits_of_lt {width n : ℕ} (h : n < 2 ^ width) : bits 0 width n = n := by
  rw [bits, Nat.pow_zero, Nat.div_one, Nat.mod_eq_of_lt h]

theorem bits_lt (offset width n : ℕ) : bits offset width n < 2 ^ width :=
  Nat.mod_lt _ (Nat.two_pow_pos width)

/-- The shift and the mask that select a stretch of bits. -/
theorem shiftRight_and (offset width n : ℕ) :
    (n >>> offset) &&& (2 ^ width - 1) = bits offset width n := by
  rw [Nat.and_two_pow_sub_one_eq_mod, Nat.shiftRight_eq_div_pow, bits]

theorem bits_first (f : Field) (fields : List Field) :
    bits 0 f.width (pack (f :: fields)) = f.value := by
  rw [bits, Nat.pow_zero, Nat.div_one, pack, Nat.add_mul_mod_self_left, Nat.mod_eq_of_lt f.fits]

/-- The bits behind the first field are those of the rest. -/
theorem bits_behind (f : Field) (fields : List Field) (offset width : ℕ) :
    bits (f.width + offset) width (pack (f :: fields)) = bits offset width (pack fields) := by
  have hrest : pack (f :: fields) / 2 ^ f.width = pack fields := by
    rw [pack, Nat.add_mul_div_left _ _ (Nat.two_pow_pos _), Nat.div_eq_of_lt f.fits, Nat.zero_add]
  rw [bits, Nat.pow_add, ← Nat.div_div_eq_div_mul, hrest, bits]

theorem bits_append (fields rest : List Field) (offset width : ℕ) :
    bits ((fields.map Field.width).sum + offset) width (pack (fields ++ rest)) =
      bits offset width (pack rest) := by
  induction fields with
  | nil => rw [List.map_nil, List.sum_nil, Nat.zero_add, List.nil_append]
  | cons f fields ih =>
    rw [List.map_cons, List.sum_cons, Nat.add_assoc, List.cons_append, bits_behind, ih]

/-- Each field is found behind the ones before it. -/
theorem bits_field (fields : List Field) (k : ℕ) (hk : k < fields.length) :
    bits ((fields.take k).map Field.width).sum fields[k].width (pack fields) = fields[k].value := by
  induction fields generalizing k with
  | nil => exact absurd hk (Nat.not_lt_zero k)
  | cons f fields ih =>
    cases k with
    | zero => exact bits_first f fields
    | succ k =>
      rw [List.take_succ_cons, List.map_cons, List.sum_cons, List.getElem_cons_succ, bits_behind]
      exact ih k (Nat.lt_of_succ_lt_succ hk)

/-- A stretch of bits in two pieces. -/
theorem bits_add (offset width width' n : ℕ) : bits offset (width + width') n =
    bits offset width n + 2 ^ width * bits (offset + width) width' n := by
  rw [bits, bits, bits, Nat.pow_add 2 width, Nat.mod_mul, Nat.pow_add 2 offset,
    Nat.div_div_eq_div_mul]

end BinOs.PackedFields
