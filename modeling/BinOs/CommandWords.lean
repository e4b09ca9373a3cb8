import BinOs.ShellCommands

/-! # The words that argument parsing finds

`argWords n t` are the first `n` arguments of the string `t`. A position in the
command is given by the part of the string that starts there. -/
namespace BinOs.CommandWords
open CheckedBuffers MemoryStrings ShellConsole LineEditor ShellCommands

def isWordChar (c : UInt8) : Bool := !decide (isBlank c)

/-- The word at the front, or its first 31 characters. -/
def firstWord (rest : List UInt8) : List UInt8 := (rest.takeWhile isWordChar).take 31

def argWords : ℕ → List UInt8 → List (List UInt8)
  | 0, _ => []
  | n + 1, t =>
    let rest := t.dropWhile fun c => decide (isBlank c)
    if rest = [] then []
    else firstWord rest :: argWords n (rest.drop (firstWord rest).length)

theorem length_argWords_le : ∀ (n : ℕ) (t : List UInt8), (argWords n t).length ≤ n
  | 0, _ => Nat.le_refl 0
  | n + 1, t => by
    rw [argWords]
    split
    · exact Nat.zero_le _
    · exact Nat.succ_le_succ (length_argWords_le n _)

theorem length_firstWord_le (rest : List UInt8) : (firstWord rest).length ≤ 31 :=
  List.length_take_le ..

theorem firstWord_sublist (rest : List UInt8) : (firstWord rest).Sublist rest :=
  (List.take_sublist _ _).trans (List.takeWhile_sublist _)

section Parsing
variable {n : ℕ} {command : Vector UInt8 n} {t : List UInt8}

/-- The index at which the last part `rest` of the string starts. -/
def position (t rest : List UInt8) : ℤ := (t.length : ℤ) - rest.length

theorem position_tail (t : List UInt8) (c : UInt8) (rest : List UInt8) :
    position t (c :: rest) + 1 = position t rest := by
  simp [position]
  omega

theorem read_position (h : Holds command t) {rest : List UInt8} (hs : rest <:+ t) :
    read command (position t rest) = some (rest.headD 0) := by
  obtain ⟨front, rfl⟩ := hs
  have hn := h.fits
  have hpos : position (front ++ rest) rest = (front.length : ℕ) := by simp [position]
  rw [List.length_append] at hn
  rw [hpos, read_natCast command (by omega)]
  cases rest with
  | nil => simpa using h.terminator
  | cons c rest =>
    rw [h.bytes front.length (by simp)]
    simp

theorem suffix_of_cons {c : UInt8} {rest : List UInt8} (h : c :: rest <:+ t) : rest <:+ t :=
  (List.suffix_cons c rest).trans h

theorem skipBlanks_eq (h : Holds command t) :
    ∀ (rest : List UInt8) (fuel : ℕ), rest <:+ t → rest.length < fuel →
      skipBlanks command fuel (position t rest) =
        some (position t (rest.dropWhile fun c => decide (isBlank c)))
  | rest, 0, _, hfuel => absurd hfuel (Nat.not_lt_zero _)
  | [], fuel + 1, hs, _ => by
    rw [skipBlanks, read_position h hs]
    rfl
  | c :: rest, fuel + 1, hs, hfuel => by
    rw [skipBlanks, read_position h hs]
    by_cases hc : isBlank c
    · have hrest := skipBlanks_eq h rest fuel (suffix_of_cons hs) (by simpa using hfuel)
      simpa [hc, position_tail] using hrest
    · simp [hc]

/-- Copying stops at a blank, at the end, or when the argument is full. -/
theorem copyWord_eq (h : Holds command t) :
    ∀ (rest : List UInt8) (fuel j : ℕ) (arg : Vector UInt8 32), rest <:+ t → rest.length < fuel →
      j ≤ 31 → ∃ arg' w, w = (rest.takeWhile isWordChar).take (31 - j) ∧
        copyWord command fuel (position t rest) j arg =
          some (position t (rest.drop w.length), ((j + w.length : ℕ) : ℤ), arg') ∧
        (∀ k < j, elem arg' k = elem arg k) ∧ ∀ k (hk : k < w.length), elem arg' (j + k) = w[k]
  | rest, 0, _, _, _, hfuel, _ => absurd hfuel (Nat.not_lt_zero _)
  | [], fuel + 1, j, arg, hs, _, _ => by
    refine ⟨arg, [], by simp, ?_, fun k _ => rfl, fun k hk => absurd hk (Nat.not_lt_zero k)⟩
    rw [copyWord, read_position h hs]
    simp
  | c :: rest, fuel + 1, j, arg, hs, hfuel, hj => by
    have hc : c ≠ 0 := h.nonzero c (hs.subset List.mem_cons_self)
    have hmax : maxArgLength = 32 := rfl
    by_cases hcopy : ¬ isBlank c ∧ (j : ℤ) < maxArgLength - 1
    · obtain ⟨arg₁, hw, harg₁⟩ := write_eq arg c (by omega : 0 ≤ (j : ℤ)) (by omega)
      obtain ⟨arg', w, rfl, hrun, hbefore, hword⟩ := copyWord_eq h rest fuel (j + 1) arg₁
        (suffix_of_cons hs) (by simpa using hfuel) (by omega)
      have htake : ((c :: rest).takeWhile isWordChar).take (31 - j) =
          c :: (rest.takeWhile isWordChar).take (31 - (j + 1)) := by
        have hroom : 31 - j = 31 - (j + 1) + 1 := by omega
        rw [List.takeWhile_cons_of_pos (by simp [isWordChar, hcopy.1]), hroom, List.take_succ_cons]
      refine ⟨arg', _, rfl, ?_, fun k hk => ?_, fun k hk => ?_⟩
      · rw [htake, copyWord, read_position h hs]
        have hj1 : ((j + 1 : ℕ) : ℤ) = (j : ℤ) + 1 := by omega
        rw [hj1] at hrun
        simp only [List.headD_cons, Option.bind_eq_bind, Option.bind_some, hw, position_tail, hrun,
          if_pos (And.intro hc hcopy), List.length_cons, List.drop_succ_cons]
        congr 4
        omega
      · rw [hbefore k (by omega), harg₁, if_neg (by omega)]
      · simp only [htake] at hk ⊢
        cases k with
        | zero =>
          rw [Nat.add_zero, hbefore j (by omega), harg₁, if_pos rfl]
          rfl
        | succ k =>
          rw [List.getElem_cons_succ, ← hword k (by simpa using hk)]
          congr 1
          omega
    · refine ⟨arg, [], ?_, ?_, fun k _ => rfl, fun k hk => absurd hk (Nat.not_lt_zero k)⟩
      · by_cases hb : isBlank c
        · rw [List.takeWhile_cons_of_neg (by simp [isWordChar, hb]), List.take_nil]
        · have hfull : 31 - j = 0 := by
            have hnot : ¬ (j : ℤ) < maxArgLength - 1 := fun hlt => hcopy ⟨hb, hlt⟩
            omega
          rw [hfull, List.take_zero]
      · have hstop : ¬ (c ≠ 0 ∧ ¬ isBlank c ∧ (j : ℤ) < maxArgLength - 1) := fun hall => hcopy hall.2
        rw [copyWord, read_position h hs]
        simp only [List.headD_cons, Option.bind_eq_bind, Option.bind_some, if_neg hstop,
          List.length_nil, List.drop_zero, Nat.add_zero]

theorem copyWord_holds (h : Holds command t) {rest : List UInt8} (hs : rest <:+ t)
    (arg : Vector UInt8 32) :
    ∃ arg', copyWord command (n + 1) (position t rest) 0 arg =
        some (position t (rest.drop (firstWord rest).length), ((firstWord rest).length : ℤ), arg') ∧
      ∃ arg'', write arg' (firstWord rest).length 0 = some arg'' ∧ Holds arg'' (firstWord rest) := by
  have hn := h.fits
  have hle := hs.length_le
  obtain ⟨arg', w, rfl, hrun, -, hword⟩ := copyWord_eq h rest (n + 1) 0 arg hs (by omega) (by omega)
  have hfits := length_firstWord_le rest
  obtain ⟨arg'', hw, harg''⟩ := write_eq arg' 0
    (by omega : 0 ≤ ((firstWord rest).length : ℤ)) (by omega)
  rw [Nat.zero_add] at hrun
  refine ⟨arg', hrun, arg'', hw, by omega, fun i hi => ?_, fun c hc => ?_, ?_⟩
  · rw [harg'', if_neg (by omega)]
    have hi' := hword i hi
    rwa [Nat.zero_add] at hi'
  · exact h.nonzero c (hs.subset ((firstWord_sublist rest).subset hc))
  · rw [harg'', if_pos rfl]

theorem parseArgsLoop_eq (h : Holds command t) :
    ∀ (left : ℕ) (rest : List UInt8) (argc : ℕ) (args : Args), rest <:+ t → argc + left = 8 →
      ∃ args', parseArgsLoop command left (position t rest) argc args =
          some (args', ((argc + (argWords left rest).length : ℕ) : ℤ)) ∧
        (∀ k < argc, elem args' k = elem args k) ∧
        ∀ k (hk : k < (argWords left rest).length),
          Holds (elem args' (argc + k)) (argWords left rest)[k]
  | 0, rest, argc, args, hs, _ => by
    refine ⟨args, ?_, fun k _ => rfl, fun k hk => absurd hk (Nat.not_lt_zero k)⟩
    rw [parseArgsLoop, read_position h hs]
    rfl
  | left + 1, rest, argc, args, hs, hargc => by
    have hn := h.fits
    have hlen := hs.length_le
    have hskip := skipBlanks_eq h rest (n + 1) hs (by omega)
    rw [argWords]
    generalize hnext : rest.dropWhile (fun c => decide (isBlank c)) = next at hskip ⊢
    have hsuffix : next <:+ t := hnext ▸ (List.dropWhile_suffix _).trans hs
    rw [parseArgsLoop, read_position h hs, Option.bind_eq_bind, Option.bind_some]
    by_cases hnil : next = []
    · -- only blanks are left: either test for the terminator ends the loop
      rw [if_pos hnil]
      refine ⟨args, ?_, fun k _ => rfl, fun k hk => absurd hk (Nat.not_lt_zero k)⟩
      by_cases hhead : rest.headD 0 = 0
      · rw [if_pos hhead]
        rfl
      · rw [if_neg hhead, hskip, hnil, Option.bind_eq_bind, Option.bind_some, Option.bind_eq_bind,
          read_position h (List.nil_suffix), Option.bind_some]
        rfl
    · rw [if_neg hnil]
      have hne : rest ≠ [] := by
        rintro rfl
        exact hnil (hnext ▸ rfl)
      obtain ⟨c, tail, rfl⟩ := List.exists_cons_of_ne_nil hne
      obtain ⟨d, tail', rfl⟩ := List.exists_cons_of_ne_nil hnil
      have hc : (c :: tail).headD 0 ≠ 0 := h.nonzero c (hs.subset List.mem_cons_self)
      have hd : (d :: tail').headD 0 ≠ 0 := h.nonzero d (hsuffix.subset List.mem_cons_self)
      generalize d :: tail' = next at hskip hsuffix hd ⊢
      obtain ⟨row, hcopy, row', hterm, hword⟩ := copyWord_holds h hsuffix (elem args argc)
      obtain ⟨args₁, hstore, hargs₁⟩ := write_eq args row' (by omega : 0 ≤ (argc : ℤ)) (by omega)
      obtain ⟨args', hrun, hbefore, hafter⟩ := parseArgsLoop_eq h left
        (next.drop (firstWord next).length) (argc + 1) args₁
        ((List.drop_suffix _ _).trans hsuffix) (by omega)
      refine ⟨args', ?_, fun k hk => ?_, fun k hk => ?_⟩
      · have hargc1 : ((argc + 1 : ℕ) : ℤ) = (argc : ℤ) + 1 := by omega
        rw [hargc1] at hrun
        simp only [if_neg hc, hskip, read_position h hsuffix, if_neg hd, Option.bind_eq_bind,
          Option.bind_some, read_natCast args (by omega : argc < 8), hcopy, hterm, hstore, hrun,
          List.length_cons]
        congr 3
        omega
      · rw [hbefore k (by omega), hargs₁, if_neg (by omega)]
      · cases k with
        | zero =>
          rw [Nat.add_zero, hbefore argc (by omega), hargs₁, if_pos rfl]
          exact hword
        | succ k =>
          have hidx : argc + (k + 1) = argc + 1 + k := by omega
          rw [hidx]
          exact hafter k (by simpa using hk)

/-- The arguments are the first eight words, each a terminated string. -/
theorem parseArgs_eq (h : Holds command t) (args : Args) :
    ∃ args', parseArgs command args = some (args', ((argWords 8 t).length : ℤ)) ∧
      ∀ k (hk : k < (argWords 8 t).length), Holds (elem args' k) (argWords 8 t)[k] := by
  obtain ⟨args', hrun, -, hwords⟩ := parseArgsLoop_eq h 8 t 0 args List.suffix_rfl rfl
  have hstart : position t t = 0 := by simp [position]
  rw [hstart, Nat.zero_add] at hrun
  exact ⟨args', hrun, fun k hk => by simpa using hwords k hk⟩

end Parsing

/-- The argument array holds these words. -/
def HoldsWords (args : Args) (words : List (List UInt8)) : Prop :=
  words.length ≤ 8 ∧ ∀ k (hk : k < words.length), Holds (elem args k) words[k]

variable {args : Args} {words : List (List UInt8)}

theorem HoldsWords.read (h : HoldsWords args words) {k : ℕ} (hk : k < words.length) :
    CheckedBuffers.read args k = some (elem args k) := by
  have hlen := h.1
  exact read_natCast args (by omega)

theorem commandIs_eq {arg : Vector UInt8 32} {w : List UInt8}
    (hread : CheckedBuffers.read args 0 = some arg) (hw : Holds arg w) {name : List UInt8}
    (hname : ∀ c ∈ name, c ≠ 0) : commandIs args name = some (decide (w = name)) := by
  obtain ⟨order, horder, hzero⟩ := strcmp_eq hw (literal_holds hname)
  simp only [commandIs, hread, horder, Option.bind_eq_bind, Option.bind_some]
  congr 1
  rw [Bool.eq_iff_iff, beq_iff_eq, hzero, decide_eq_true_iff]

/-- The dispatch by the word that the first argument holds. -/
theorem runCommand_names {w : List UInt8} (hread : CheckedBuffers.read args 0 = some (elem args 0))
    (hw : Holds (elem args 0) w) (argc : ℤ) (s : Shell) : runCommand argc args s =
      if w = ascii "hello" then (cmdHello argc args s).map (·, false)
      else if w = ascii "help" then some (onScreen cmdHelp s, false)
      else if w = ascii "clear" then some (onScreen cmdClear s, false)
      else if w = ascii "echo" then (cmdEcho argc args s).map (·, false)
      else if w = ascii "history" then (cmdHistory s).map (·, false)
      else if w = ascii "uptime" then some (onScreen cmdUptime s, false)
      else if w = ascii "exit" then some (onScreen cmdExit s, true)
      else (shellError (ascii "Unknown command") s).map fun s =>
        (onScreen (shellPrint (ascii "Type 'help' for available commands.\n")) s, false) := by
  rw [runCommand, commandIs_eq hread hw (by decide +kernel),
    commandIs_eq hread hw (by decide +kernel), commandIs_eq hread hw (by decide +kernel),
    commandIs_eq hread hw (by decide +kernel), commandIs_eq hread hw (by decide +kernel),
    commandIs_eq hread hw (by decide +kernel), commandIs_eq hread hw (by decide +kernel)]
  simp only [Option.bind_eq_bind, Option.bind_some, decide_eq_true_eq, Option.map_eq_bind,
    Function.comp_def]

end BinOs.CommandWords
