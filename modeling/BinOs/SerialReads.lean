import BinOs.SerialPort
import Mathlib.Algebra.Group.Nat.Even
import Mathlib.Data.List.DropRight

/-! # What `serial_printf` reads of its format

The format stands in a memory that goes on behind its terminator, and the loop is run
together with the addresses that it reads there. -/
namespace BinOs.SerialReads
open CheckedBuffers MemoryStrings SerialPort

/-- A string and its terminator stand at this address. -/
structure StandsAt (memory : ℕ → UInt8) (i : ℕ) (t : List UInt8) : Prop where
  bytes : ∀ j (hj : j < t.length), memory (i + j) = t[j]
  nonzero : ∀ c ∈ t, c ≠ 0
  terminator : memory (i + t.length) = 0

section Loop
variable {V : Type} (memory : ℕ → UInt8) (convert : UInt8 → V → List UInt8 × V)

/-- The loop of `serial_printf`: the addresses read and, if it stops, the output. What a
conversion writes and leaves of the arguments is open, so these can have any values. -/
def printfReads : ℕ → ℕ → V → List ℕ × Option (List UInt8)
  | 0, _, _ => ([], none)
  | fuel + 1, i, args =>
    if memory i = 0 then ([i], some [])
    else if memory i = 37 then
      let (out, args) := convert (memory (i + 1)) args
      let (reads, rest) := printfReads fuel (i + 2) args
      (i :: (i + 1) :: reads, rest.map (out ++ ·))
    else
      let (reads, rest) := printfReads fuel (i + 1) args
      (i :: reads, rest.map (memory i :: ·))

/-- No byte behind the terminator is read, however long the loop goes on, and it stops
after at most one pass for each byte of the string. -/
def StaysInside (t : List UInt8) (args : V) : Prop :=
  (∀ fuel, ∀ k ∈ (printfReads memory convert fuel 0 args).1, k ≤ t.length) ∧
    (printfReads memory convert (t.length + 1) 0 args).2.isSome

end Loop

/-- The conversions with arguments of the right types. -/
def converted (c : UInt8) (args : List Arg) : List UInt8 × List Arg := (conversion c args).getD ([], args)

theorem read_some {n : ℕ} {b : Vector UInt8 n} {i : ℕ} {c : UInt8}
    (h : read b (i : ℤ) = some c) : i < n ∧ c = elem b i := by
  by_cases hi : i < n
  · rw [read_natCast b hi] at h
    exact ⟨hi, (Option.some_inj.mp h).symm⟩
  · rw [CheckedBuffers.read, if_pos (Int.natCast_nonneg i), Int.toNat_natCast,
      Vector.getElem?_eq_none (by omega)] at h
    cases h

/-- A run that succeeds on an array reads and writes the same in memory. -/
theorem printfLoop_reads {n : ℕ} {format : Vector UInt8 n} {memory : ℕ → UInt8}
    (hm : ∀ i < n, memory i = elem format i) {fuel i : ℕ} {args : List Arg} {out : List UInt8}
    (h : printfLoop format fuel i args = some out) :
    (printfReads memory converted fuel i args).2 = some out ∧
      ∀ k ∈ (printfReads memory converted fuel i args).1, k < n := by
  induction fuel generalizing i args out with
  | zero => cases h
  | succ fuel ih =>
    rw [printfLoop] at h
    obtain ⟨c, hc, hpass⟩ := Option.bind_eq_some_iff.mp h
    obtain ⟨hi, rfl⟩ := read_some hc
    rw [printfReads, hm i hi]
    by_cases hend : elem format i = 0
    · rw [if_pos hend] at hpass ⊢
      refine ⟨hpass, fun k hk => ?_⟩
      rwa [List.mem_singleton.mp hk]
    rw [if_neg hend] at hpass ⊢
    by_cases hmark : elem format i = 37
    · rw [if_pos hmark] at hpass ⊢
      obtain ⟨d, hd, hletter⟩ := Option.bind_eq_some_iff.mp hpass
      obtain ⟨⟨written, left⟩, hconv, hleft⟩ := Option.bind_eq_some_iff.mp hletter
      obtain ⟨rest, hrest, hwhole⟩ := Option.bind_eq_some_iff.mp hleft
      have hd' : read format ((i + 1 : ℕ) : ℤ) = some d := hd
      have hrest' : printfLoop format fuel ((i + 2 : ℕ) : ℤ) left = some rest := hrest
      obtain ⟨hi', rfl⟩ := read_some hd'
      obtain ⟨hout, hreads⟩ := ih hrest'
      have hconverted : converted (elem format (i + 1)) args = (written, left) := by
        rw [converted, hconv, Option.getD_some]
      rw [hm _ hi', hconverted]
      dsimp only
      rw [hout]
      refine ⟨hwhole, fun k hk => ?_⟩
      rcases List.mem_cons.mp hk with rfl | hk
      · exact hi
      rcases List.mem_cons.mp hk with rfl | hk
      · exact hi'
      · exact hreads k hk
    · rw [if_neg hmark] at hpass ⊢
      obtain ⟨rest, hrest, hwhole⟩ := Option.bind_eq_some_iff.mp hpass
      have hrest' : printfLoop format fuel ((i + 1 : ℕ) : ℤ) args = some rest := hrest
      obtain ⟨hout, hreads⟩ := ih hrest'
      dsimp only
      rw [hout]
      refine ⟨hwhole, fun k hk => ?_⟩
      rcases List.mem_cons.mp hk with rfl | hk
      · exact hi
      · exact hreads k hk

def trailing (t : List UInt8) : ℕ := (t.rtakeWhile (· == 37)).length

theorem trailing_le (t : List UInt8) : trailing t ≤ t.length := (List.rtakeWhile_suffix _ _).length_le

theorem trailing_cons (c : UInt8) (t : List UInt8) :
    trailing (c :: t) = if trailing t = t.length ∧ c = 37 then trailing t + 1 else trailing t := by
  rw [trailing, trailing, List.rtakeWhile, List.rtakeWhile, List.reverse_cons, List.takeWhile_append,
    List.length_reverse, List.length_reverse, List.length_reverse]
  by_cases hall : (t.reverse.takeWhile (· == 37)).length = t.length
  · rw [if_pos hall]
    by_cases hc : c = 37
    · rw [if_pos ⟨hall, hc⟩, hc, List.length_append, List.length_reverse, hall]
      rfl
    · rw [if_neg fun h => hc h.2, List.takeWhile_cons_of_neg (by simpa using hc), List.append_nil,
        List.length_reverse, hall]
  · rw [if_neg hall, if_neg fun h => hall h.1]

/-- A conversion takes both of two percent signs, and no other byte but its first. -/
theorem even_trailing_conversion (c : UInt8) (t : List UInt8) :
    Even (trailing (37 :: c :: t)) ↔ Even (trailing t) := by
  have hle := trailing_le t
  rw [trailing_cons, trailing_cons c, List.length_cons]
  by_cases hfull : trailing t = t.length ∧ c = 37
  · rw [if_pos hfull, if_pos ⟨by rw [hfull.1], rfl⟩, Nat.even_add_one, Nat.even_add_one, not_not]
  · rw [if_neg hfull, if_neg (by omega)]

theorem trailing_plain {c : UInt8} (hc : c ≠ 37) (t : List UInt8) : trailing (c :: t) = trailing t := by
  rw [trailing_cons, if_neg fun h => hc h.2]

section Loop
variable {V : Type} {memory : ℕ → UInt8} {i : ℕ} {c d : UInt8} {t : List UInt8}

theorem StandsAt.head (h : StandsAt memory i (c :: t)) : memory i = c ∧ c ≠ 0 :=
  ⟨h.bytes 0 (Nat.succ_pos _), h.nonzero c List.mem_cons_self⟩

theorem StandsAt.tail (h : StandsAt memory i (c :: t)) : StandsAt memory (i + 1) t where
  bytes j hj := by
    have hat := h.bytes (j + 1) (Nat.succ_lt_succ hj)
    rwa [← Nat.add_assoc, Nat.add_right_comm, List.getElem_cons_succ] at hat
  nonzero c hc := h.nonzero c (List.mem_cons_of_mem _ hc)
  terminator := by
    have hend := h.terminator
    rwa [List.length_cons, ← Nat.add_assoc, Nat.add_right_comm] at hend

/-- One pass over a conversion, which reads two bytes. -/
theorem printfReads_conversion (convert : UInt8 → V → List UInt8 × V)
    (h : StandsAt memory i (37 :: t)) (fuel : ℕ) (args : V) :
    ∃ out args', printfReads memory convert (fuel + 1) i args =
      (i :: (i + 1) :: (printfReads memory convert fuel (i + 2) args').1,
        (printfReads memory convert fuel (i + 2) args').2.map (out ++ ·)) := by
  obtain ⟨hmark, hne⟩ := h.head
  rw [printfReads, hmark, if_neg hne, if_pos rfl]
  exact ⟨_, _, rfl⟩

theorem printfReads_plain (convert : UInt8 → V → List UInt8 × V)
    (h : StandsAt memory i (c :: t)) (hc : c ≠ 37) (fuel : ℕ) (args : V) :
    printfReads memory convert (fuel + 1) i args =
      (i :: (printfReads memory convert fuel (i + 1) args).1,
        (printfReads memory convert fuel (i + 1) args).2.map (c :: ·)) := by
  obtain ⟨hmark, hne⟩ := h.head
  rw [printfReads, hmark, if_neg hne, if_neg hc]

/-- From this address on the loop reads no further than the terminator, where it stops. -/
def Inside (memory : ℕ → UInt8) (convert : UInt8 → V → List UInt8 × V) (i : ℕ) (t : List UInt8) :
    Prop :=
  ∀ fuel args, (∀ k ∈ (printfReads memory convert fuel i args).1, k ≤ i + t.length) ∧
    (t.length < fuel → (printfReads memory convert fuel i args).2.isSome)

/-- From this address on the loop reads the byte behind the terminator. -/
def Behind (memory : ℕ → UInt8) (convert : UInt8 → V → List UInt8 × V) (i : ℕ) (t : List UInt8) :
    Prop :=
  ∀ fuel args, t.length < fuel → i + t.length + 1 ∈ (printfReads memory convert fuel i args).1

variable {convert : UInt8 → V → List UInt8 × V}

theorem Inside.nil (h : StandsAt memory i []) : Inside memory convert i []
  | 0, args => ⟨fun k hk => (nomatch hk), fun hfuel => absurd hfuel (Nat.not_lt_zero _)⟩
  | fuel + 1, args => by
    have hend : memory i = 0 := h.terminator
    rw [printfReads, if_pos hend]
    exact ⟨fun k hk => Nat.le_of_eq (List.mem_singleton.mp hk), fun _ => rfl⟩

theorem Inside.plain (h : StandsAt memory i (c :: t)) (hc : c ≠ 37)
    (ih : Inside memory convert (i + 1) t) : Inside memory convert i (c :: t)
  | 0, args => ⟨fun k hk => (nomatch hk), fun hfuel => absurd hfuel (Nat.not_lt_zero _)⟩
  | fuel + 1, args => by
    obtain ⟨hreads, hstops⟩ := ih fuel args
    rw [printfReads_plain convert h hc, List.length_cons]
    refine ⟨fun k hk => ?_, fun hfuel => ?_⟩
    · rcases List.mem_cons.mp hk with rfl | hk
      · exact Nat.le_add_right _ _
      · have hle := hreads k hk
        omega
    · rw [Option.isSome_map]
      exact hstops (Nat.lt_of_succ_lt_succ hfuel)

theorem Inside.conversion (h : StandsAt memory i (37 :: d :: t))
    (ih : Inside memory convert (i + 2) t) : Inside memory convert i (37 :: d :: t)
  | 0, args => ⟨fun k hk => (nomatch hk), fun hfuel => absurd hfuel (Nat.not_lt_zero _)⟩
  | fuel + 1, args => by
    obtain ⟨out, args', hrun⟩ := printfReads_conversion convert h fuel args
    obtain ⟨hreads, hstops⟩ := ih fuel args'
    rw [hrun, List.length_cons, List.length_cons]
    refine ⟨fun k hk => ?_, fun hfuel => ?_⟩
    · rcases List.mem_cons.mp hk with rfl | hk
      · exact Nat.le_add_right _ _
      rcases List.mem_cons.mp hk with rfl | hk
      · omega
      · have hle := hreads k hk
        omega
    · rw [Option.isSome_map]
      exact hstops (by omega)

/-- The last conversion takes the terminator for its second byte. -/
theorem Behind.last (h : StandsAt memory i [37]) : Behind memory convert i [37]
  | 0, args, hfuel => absurd hfuel (Nat.not_lt_zero _)
  | 1, args, hfuel => absurd hfuel (Nat.lt_irrefl 1)
  | fuel + 2, args, _ => by
    obtain ⟨out, args', hrun⟩ := printfReads_conversion convert h (fuel + 1) args
    rw [hrun]
    apply List.mem_cons_of_mem
    apply List.mem_cons_of_mem
    rw [printfReads]
    split_ifs
    · exact List.mem_singleton.mpr rfl
    · exact List.mem_cons_self
    · exact List.mem_cons_self

theorem Behind.plain (h : StandsAt memory i (c :: t)) (hc : c ≠ 37)
    (ih : Behind memory convert (i + 1) t) : Behind memory convert i (c :: t)
  | 0, args, hfuel => absurd hfuel (Nat.not_lt_zero _)
  | fuel + 1, args, hfuel => by
    have hread := ih fuel args (Nat.lt_of_succ_lt_succ hfuel)
    rw [printfReads_plain convert h hc, List.length_cons, ← Nat.add_assoc, Nat.add_right_comm i]
    exact List.mem_cons_of_mem _ hread

theorem Behind.conversion (h : StandsAt memory i (37 :: d :: t))
    (ih : Behind memory convert (i + 2) t) : Behind memory convert i (37 :: d :: t)
  | 0, args, hfuel => absurd hfuel (Nat.not_lt_zero _)
  | fuel + 1, args, hfuel => by
    rw [List.length_cons, List.length_cons] at hfuel
    obtain ⟨out, args', hrun⟩ := printfReads_conversion convert h fuel args
    have hread := ih fuel args' (by omega)
    have hbehind : i + (37 :: d :: t).length + 1 = i + 2 + t.length + 1 := by
      rw [List.length_cons, List.length_cons]
      omega
    rw [hrun, hbehind]
    exact List.mem_cons_of_mem _ (List.mem_cons_of_mem _ hread)

theorem reads_spec (convert : UInt8 → V → List UInt8 × V) : ∀ (t : List UInt8) {i : ℕ},
    StandsAt memory i t →
    (Even (trailing t) → Inside memory convert i t) ∧ (¬ Even (trailing t) → Behind memory convert i t)
  | [], i, h => ⟨fun _ => .nil h, fun hodd => absurd (by decide) hodd⟩
  | [c], i, h => by
    by_cases hc : c = 37
    · obtain rfl := hc
      exact ⟨fun heven => absurd heven (by decide), fun _ => .last h⟩
    · have hend : Even (trailing ([c] : List UInt8)) := by
        rw [trailing_plain hc]
        decide
      exact ⟨fun _ => .plain h hc (.nil h.tail), fun hodd => absurd hend hodd⟩
  | c :: d :: t, i, h => by
    by_cases hc : c = 37
    · obtain rfl := hc
      obtain ⟨hinside, hbehind⟩ := reads_spec convert t h.tail.tail
      rw [even_trailing_conversion]
      exact ⟨fun heven => .conversion h (hinside heven), fun hodd => .conversion h (hbehind hodd)⟩
    · obtain ⟨hinside, hbehind⟩ := reads_spec convert (d :: t) h.tail
      rw [trailing_plain hc]
      exact ⟨fun heven => .plain h hc (hinside heven), fun hodd => .plain h hc (hbehind hodd)⟩

end Loop

/-- The loop stays inside its format just when the format ends in an even number of
percent signs, whatever the arguments are. -/
theorem stays_inside_iff {V : Type} {memory : ℕ → UInt8} {t : List UInt8}
    (h : StandsAt memory 0 t) (convert : UInt8 → V → List UInt8 × V) (args : V) :
    StaysInside memory convert t args ↔ Even (trailing t) := by
  obtain ⟨hinside, hbehind⟩ := reads_spec convert t h
  constructor
  · intro hstays
    by_contra hodd
    have hread := hbehind hodd (t.length + 1) args (Nat.lt_succ_self _)
    have hle := hstays.1 _ _ hread
    omega
  · intro heven
    refine ⟨fun fuel k hk => ?_, (hinside heven _ args).2 (Nat.lt_succ_self _)⟩
    have hle := (hinside heven fuel args).1 k hk
    omega

/-- A string with its terminator, and what lies behind it. -/
def memoryOf (t rest : List UInt8) (i : ℕ) : UInt8 := (t ++ 0 :: rest).getD i 0

theorem memoryOf_standsAt {t : List UInt8} (ht : ∀ c ∈ t, c ≠ 0) (rest : List UInt8) :
    StandsAt (memoryOf t rest) 0 t where
  bytes j hj := by
    rw [memoryOf, Nat.zero_add, List.getD_eq_getElem?_getD, List.getElem?_append_left hj,
      List.getElem?_eq_getElem hj, Option.getD_some]
  nonzero := ht
  terminator := by
    rw [memoryOf, Nat.zero_add, List.getD_eq_getElem?_getD,
      List.getElem?_append_right (Nat.le_refl _), Nat.sub_self]
    rfl

/-- `%d%%`, whose last percent sign is taken by the one before it. -/
theorem stays_inside_percent :
    StaysInside (memoryOf (ascii "%d%%") [37]) converted (ascii "%d%%") [.int 5] ↔
      Even (trailing (ascii "%d%%")) :=
  stays_inside_iff (memoryOf_standsAt (by decide +kernel) [37]) converted [.int 5]

/-- The format `%`, on an array that ends with its terminator too. -/
theorem reads_behind_percent : StandsAt (memoryOf [37] [120]) 0 [37] ∧
    ¬ StaysInside (memoryOf [37] [120]) converted [37] [] ∧ serialPrintf (literal [37]) [] = none := by
  have hstands := memoryOf_standsAt (t := [37]) (by decide +kernel) [120]
  refine ⟨hstands, fun hstays => ?_, by decide +kernel⟩
  have hread := (reads_spec converted [37] hstands).2 (by decide) 2 [] (by decide)
  have hle := hstays.1 _ _ hread
  exact absurd hle (by decide)

end BinOs.SerialReads
