import BinOs.SerialFormat

/-! # Conversions that `serial_printf` does not know

A `%` before any other character than those of its nine conversions is written with that
character, and takes no argument. -/
namespace BinOs.UnknownConversions
open CheckedBuffers MemoryStrings SerialPort SerialFormat

/-- The characters of conversions: `d`, `i`, `u`, `x`, `X`, `c`, `s`, `p` and `%`. -/
def conversionLetters : List UInt8 := [100, 105, 117, 120, 88, 99, 115, 112, 37]

/-- Every `%` stands before a character that makes no conversion of it. -/
def Verbatim : List UInt8 → Prop
  | [] => True
  | [c] => c ≠ 37
  | c :: d :: rest => if c = 37 then d ∉ conversionLetters ∧ Verbatim rest else Verbatim (d :: rest)

instance decidableVerbatim : ∀ t, Decidable (Verbatim t)
  | [] => .isTrue trivial
  | [c] => inferInstanceAs (Decidable (c ≠ 37))
  | c :: d :: rest =>
    have := decidableVerbatim rest
    have := decidableVerbatim (d :: rest)
    inferInstanceAs (Decidable (if c = 37 then d ∉ conversionLetters ∧ Verbatim rest
      else Verbatim (d :: rest)))

theorem conversion_unknown {c : UInt8} (h : c ∉ conversionLetters) (args : List Arg) :
    conversion c args = some ([37, c], args) := by
  simp only [conversionLetters, List.mem_cons, List.not_mem_nil, or_false, not_or] at h
  simp only [conversion, h, or_self, if_false]

variable {n : ℕ} {format : Vector UInt8 n}

theorem holdsFrom_tail {i : ℕ} {c : UInt8} {t : List UInt8} (h : HoldsFrom format i (c :: t)) :
    HoldsFrom format (i + 1) t :=
  HoldsFrom.drop (s := [c]) h

/-- A character that stands for itself, in front of what is written as it stands. -/
theorem printfLoop_cons {i fuel : ℕ} {c : UInt8} {t : List UInt8} {args : List Arg}
    (hformat : HoldsFrom format i (c :: t)) (hzero : c ≠ 0) (hmark : c ≠ 37)
    (hrest : printfLoop format fuel (i + 1 : ℕ) args = some t) :
    printfLoop format (fuel + 1) i args = some (c :: t) := by
  have hc : read format (i : ℤ) = some c := hformat 0 (by simp)
  rw [printfLoop_plain hc hzero hmark, ← Nat.cast_succ, hrest]
  rfl

/-- The cases are those of `Verbatim`, which passes over a `%` and the character behind it. -/
theorem printfLoop_verbatim (t : List UInt8) (fuel i : ℕ) (args : List Arg) (hfuel : t.length < fuel)
    (hformat : HoldsFrom format i t) (hnonzero : ∀ c ∈ t, c ≠ 0) (hverbatim : Verbatim t) :
    printfLoop format fuel i args = some t := by
  obtain ⟨fuel, rfl⟩ := Nat.exists_eq_succ_of_ne_zero (Nat.ne_zero_of_lt hfuel)
  induction t using Verbatim.induct generalizing fuel i with
  | case1 => exact printfLoop_end (hformat 0 (by decide)) fuel args
  | case2 c =>
    refine printfLoop_cons hformat (hnonzero c List.mem_cons_self) hverbatim ?_
    obtain ⟨fuel, rfl⟩ := Nat.exists_eq_succ_of_ne_zero (Nat.ne_zero_of_lt (Nat.lt_of_succ_lt_succ hfuel))
    exact printfLoop_end (holdsFrom_tail hformat 0 (by decide)) fuel args
  | case3 d rest ih =>
    rw [Verbatim, if_pos rfl] at hverbatim
    obtain ⟨fuel, rfl⟩ := Nat.exists_eq_succ_of_ne_zero (Nat.ne_zero_of_lt (Nat.lt_of_succ_lt_succ hfuel))
    have hmark : read format (i : ℤ) = some 37 := hformat 0 (by simp)
    have hletter : read format ((i : ℤ) + 1) = some d := hformat 1 (by simp)
    have hrest := ih (i + 2) (holdsFrom_tail (holdsFrom_tail hformat))
      (fun c hc => hnonzero c (List.mem_cons_of_mem _ (List.mem_cons_of_mem _ hc))) hverbatim.2
      fuel (by simp only [List.length_cons, Nat.succ_eq_add_one] at hfuel; omega)
    have hpass := printfLoop_conversion hmark hletter (conversion_unknown hverbatim.1 args) (fuel + 1)
    rw [show (i : ℤ) + 2 = ((i + 2 : ℕ) : ℤ) from rfl, hrest] at hpass
    exact hpass
  | case4 c d rest hc ih =>
    rw [Verbatim, if_neg hc] at hverbatim
    obtain ⟨fuel, rfl⟩ := Nat.exists_eq_succ_of_ne_zero (Nat.ne_zero_of_lt (Nat.lt_of_succ_lt_succ hfuel))
    exact printfLoop_cons hformat (hnonzero c List.mem_cons_self) hc
      (ih (i + 1) (holdsFrom_tail hformat) (fun c hc => hnonzero c (List.mem_cons_of_mem _ hc))
        hverbatim fuel (Nat.lt_of_succ_lt_succ hfuel))

theorem serialPrintf_verbatim {t : List UInt8} (h : Holds format t) (hverbatim : Verbatim t)
    (args : List Arg) : serialPrintf format args = some t := by
  refine printfLoop_verbatim t (n + 1) 0 args (Nat.lt_succ_of_lt h.fits) ?_ h.nonzero hverbatim
  intro j hj
  rw [Nat.zero_add, read_of_holds h hj]

theorem conversion_known {c : UInt8} (h : c ∈ conversionLetters) :
    conversion c [] = if c = 37 then some ([37], []) else none := by
  simp only [conversionLetters, List.mem_cons, List.not_mem_nil, or_false] at h
  obtain rfl | rfl | rfl | rfl | rfl | rfl | rfl | rfl | rfl := h <;> rfl

theorem read_behind {i : ℕ} (h : n ≤ i) : read format (i : ℤ) = none := by
  rw [CheckedBuffers.read, if_pos (Int.natCast_nonneg i), Int.toNat_natCast,
    Vector.getElem?_eq_none h]

theorem printfLoop_cons_inv {i fuel : ℕ} {c : UInt8} {t out : List UInt8} {args : List Arg}
    (hformat : HoldsFrom format i (c :: t)) (hzero : c ≠ 0) (hmark : c ≠ 37)
    (hout : printfLoop format (fuel + 1) i args = some out) :
    ∃ rest, out = c :: rest ∧ printfLoop format fuel (i + 1 : ℕ) args = some rest := by
  have hc : read format (i : ℤ) = some c := hformat 0 (by simp)
  rw [printfLoop_plain hc hzero hmark] at hout
  obtain ⟨rest, hrest, rfl⟩ := Option.map_eq_some_iff.mp hout
  exact ⟨rest, rfl, hrest⟩

/-- A conversion without an argument: of a `%`, or of a character unknown. -/
theorem printfLoop_mark_inv {i fuel : ℕ} {d : UInt8} {t out : List UInt8}
    (hformat : HoldsFrom format i (37 :: d :: t))
    (hout : printfLoop format (fuel + 1) i [] = some out) :
    ∃ front rest, out = front ++ rest ∧ printfLoop format fuel (i + 2 : ℕ) [] = some rest ∧
      front.length ≤ 2 ∧ (front.length = 2 → d ∉ conversionLetters) := by
  have hmark : read format (i : ℤ) = some 37 := hformat 0 (by simp)
  have hletter : read format ((i : ℤ) + 1) = some d := hformat 1 (by simp)
  by_cases hd : d ∈ conversionLetters
  · have hknown := conversion_known hd
    by_cases hpercent : d = 37
    · rw [if_pos hpercent] at hknown
      rw [printfLoop_conversion hmark hletter hknown] at hout
      obtain ⟨rest, hrest, rfl⟩ := Option.map_eq_some_iff.mp hout
      exact ⟨[37], rest, rfl, hrest, by decide, fun h => absurd h (by decide)⟩
    · rw [if_neg hpercent] at hknown
      rw [printfLoop, hmark, Option.bind_eq_bind, Option.bind_some, if_neg (by decide), if_pos rfl,
        hletter, Option.bind_eq_bind, Option.bind_some, hknown] at hout
      cases hout
  · rw [printfLoop_conversion hmark hletter (conversion_unknown hd [])] at hout
    obtain ⟨rest, hrest, rfl⟩ := Option.map_eq_some_iff.mp hout
    exact ⟨[37, d], rest, rfl, hrest, Nat.le_refl _, fun _ => hd⟩

theorem fuel_pos {i fuel : ℕ} {args : List Arg} {out : List UInt8}
    (h : printfLoop format fuel i args = some out) : ∃ k, fuel = k + 1 := by
  cases fuel with
  | zero => cases h
  | succ k => exact ⟨k, rfl⟩

theorem printfLoop_end_inv {i fuel : ℕ} {args : List Arg} {out : List UInt8}
    (hformat : HoldsFrom format i []) (hout : printfLoop format fuel i args = some out) : out = [] := by
  obtain ⟨fuel, rfl⟩ := fuel_pos hout
  have hend := printfLoop_end (hformat 0 (by decide)) fuel args
  exact Option.some.inj (hout.symm.trans hend)

/-- Without arguments, a format that ends where its array ends gives no more characters than it
has, and fewer if there is a conversion. -/
theorem length_of_printfLoop (t : List UInt8) (fuel i : ℕ) (out : List UInt8)
    (hformat : HoldsFrom format i t) (hend : n = i + t.length + 1) (hnonzero : ∀ c ∈ t, c ≠ 0)
    (hout : printfLoop format fuel i [] = some out) :
    out.length ≤ t.length ∧ (out.length = t.length → Verbatim t) := by
  obtain ⟨fuel, rfl⟩ := fuel_pos hout
  induction t using Verbatim.induct generalizing fuel i out with
  | case1 =>
    rw [printfLoop_end_inv hformat hout]
    exact ⟨Nat.le_refl _, fun _ => trivial⟩
  | case2 c =>
    by_cases hmark : c = 37
    · subst hmark
      have hpercent : read format (i : ℤ) = some 37 := hformat 0 (by simp)
      have hletter : read format ((i : ℤ) + 1) = some 0 := hformat 1 (by simp)
      rw [printfLoop_conversion hpercent hletter (conversion_unknown (by decide) [])] at hout
      obtain ⟨rest, hrest, -⟩ := Option.map_eq_some_iff.mp hout
      have hrest : printfLoop format fuel (i + 2 : ℕ) [] = some rest := hrest
      obtain ⟨fuel, rfl⟩ := fuel_pos hrest
      have hbehind : n ≤ i + 2 := Nat.le_of_eq hend
      rw [printfLoop, read_behind hbehind] at hrest
      cases hrest
    · obtain ⟨rest, rfl, hrest⟩ := printfLoop_cons_inv hformat (hnonzero c List.mem_cons_self) hmark hout
      rw [printfLoop_end_inv (holdsFrom_tail hformat) hrest]
      exact ⟨Nat.le_refl _, fun _ => hmark⟩
  | case3 d rest ih =>
    obtain ⟨front, out, rfl, hrest, hlength, hunknown⟩ := printfLoop_mark_inv hformat hout
    obtain ⟨fuel, rfl⟩ := fuel_pos hrest
    obtain ⟨hle, hverbatim⟩ := ih (i + 2) out (holdsFrom_tail (holdsFrom_tail hformat))
      (by simp only [List.length_cons] at hend; omega)
      (fun c hc => hnonzero c (List.mem_cons_of_mem _ (List.mem_cons_of_mem _ hc))) fuel hrest
    rw [List.length_append, List.length_cons, List.length_cons, Verbatim, if_pos rfl]
    exact ⟨by omega, fun h => ⟨hunknown (by omega), hverbatim (by omega)⟩⟩
  | case4 c d rest hc ih =>
    obtain ⟨out, rfl, hrest⟩ := printfLoop_cons_inv hformat (hnonzero c List.mem_cons_self) hc hout
    obtain ⟨fuel, rfl⟩ := fuel_pos hrest
    obtain ⟨hle, hverbatim⟩ := ih (i + 1) out (holdsFrom_tail hformat)
      (by simp only [List.length_cons] at hend ⊢; omega)
      (fun c hc => hnonzero c (List.mem_cons_of_mem _ hc)) fuel hrest
    rw [List.length_cons, List.length_cons, Verbatim, if_neg hc]
    exact ⟨Nat.succ_le_succ hle, fun h => hverbatim (Nat.succ.inj h)⟩

/-- Exactly the formats without a conversion are written as they stand. -/
theorem written_as_it_stands_iff {t : List UInt8} (hnonzero : ∀ c ∈ t, c ≠ 0) :
    (∀ args, serialPrintf (literal t) args = some t) ↔ Verbatim t := by
  constructor
  · intro hwritten
    have hformat : HoldsFrom (literal t) 0 t := fun j hj => by
      rw [Nat.zero_add, read_of_holds (literal_holds hnonzero) hj]
    exact (length_of_printfLoop t _ 0 t hformat (by rw [Nat.zero_add]) hnonzero (hwritten [])).2 rfl
  · exact fun hverbatim args => serialPrintf_verbatim (literal_holds hnonzero) hverbatim args

/-- The statistics of the heap are printed with `%zu`. -/
theorem written_as_it_stands_iff_statistics :
    (∀ args, serialPrintf (literal (ascii "Used=%zu, Free=%zu\r\n")) args =
      some (ascii "Used=%zu, Free=%zu\r\n")) ↔ Verbatim (ascii "Used=%zu, Free=%zu\r\n") :=
  written_as_it_stands_iff (by decide +kernel)

end BinOs.UnknownConversions
