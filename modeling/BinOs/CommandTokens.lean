import BinOs.CommandWords
import BinOs.WordSplitting
import Mathlib.Data.List.TakeWhile

/-! # The words of a command line

Argument parsing finds the words between blanks, cut into pieces where a word is longer
than an argument can be, and the first piece names the command. -/
namespace BinOs.CommandTokens
open CheckedBuffers MemoryStrings ShellConsole LineEditor ShellCommands CommandWords WordSplitting

def lineWords (t : List UInt8) : List (List UInt8) := words (fun c => decide (isBlank c)) t

/-- The pieces of a line's words, in order. -/
def linePieces (t : List UInt8) : List (List UInt8) := (lineWords t).flatMap (pieces 31)

theorem mem_lineWords {w t : List UInt8} (h : w ∈ lineWords t) :
    w ≠ [] ∧ ∀ c ∈ w, ¬ isBlank c := by
  obtain ⟨hne, hblank⟩ := mem_words h
  exact ⟨hne, fun c hc => of_decide_eq_false (hblank c hc)⟩

theorem mem_linePieces {w t : List UInt8} (h : w ∈ linePieces t) :
    w ≠ [] ∧ ∀ c ∈ w, ¬ isBlank c := by
  obtain ⟨whole, hwhole, hpiece⟩ := List.mem_flatMap.mp h
  exact ⟨ne_nil_of_mem_pieces (by decide) hpiece,
    fun c hc => (mem_lineWords hwhole).2 c ((mem_pieces hpiece).2 c hc)⟩

theorem linePieces_of_short {t : List UInt8} (h : ∀ w ∈ lineWords t, w.length ≤ 31) :
    linePieces t = lineWords t :=
  flatMap_pieces_eq (by decide) (fun _ hw => (mem_lineWords hw).1) h

/-- What is left of a word in front of the rest of the line, perhaps nothing. -/
theorem linePieces_append {v rest : List UInt8} (hv : ∀ c ∈ v, ¬ isBlank c)
    (hrest : ∀ c ∈ rest.head?, isBlank c) :
    linePieces (v ++ rest) = pieces 31 v ++ linePieces rest := by
  by_cases hne : v = []
  · rw [hne, pieces_nil (by decide)]
    rfl
  · rw [linePieces, lineWords, words_append hne (fun c hc => decide_eq_false (hv c hc))
      fun c hc => decide_eq_true (hrest c hc)]
    rfl

theorem head_dropWhile_isWordChar (t : List UInt8) :
    ∀ c ∈ (t.dropWhile isWordChar).head?, isBlank c := by
  rintro c hc
  have hstop := List.head?_dropWhile_not isWordChar t
  rw [Option.mem_def.mp hc] at hstop
  simpa [isWordChar] using hstop

theorem linePieces_cons {rest : List UInt8} (h : rest.takeWhile isWordChar ≠ []) :
    linePieces rest = firstWord rest :: linePieces (rest.drop (firstWord rest).length) := by
  have hword : ∀ c ∈ rest.takeWhile isWordChar, ¬ isBlank c := by
    intro c hc
    simpa [isWordChar] using List.mem_takeWhile_imp hc
  have hleft : ∀ c ∈ (rest.takeWhile isWordChar).drop 31, ¬ isBlank c :=
    fun c hc => hword c (List.mem_of_mem_drop hc)
  have hdrop : rest.drop (firstWord rest).length =
      (rest.takeWhile isWordChar).drop 31 ++ rest.dropWhile isWordChar := by
    have hle : (firstWord rest).length ≤ (rest.takeWhile isWordChar).length := List.length_take_le' ..
    have hcut : (rest.takeWhile isWordChar).drop (firstWord rest).length =
        (rest.takeWhile isWordChar).drop 31 := by
      rw [firstWord, List.length_take, Nat.min_def]
      split
      · rfl
      · rw [List.drop_length, List.drop_of_length_le (by omega)]
    rw [← hcut, ← List.drop_append_of_le_length hle, List.takeWhile_append_dropWhile]
  rw [hdrop, linePieces_append hleft (head_dropWhile_isWordChar rest), ← List.cons_append, firstWord,
    ← pieces_cons (by decide) h, ← linePieces_append hword (head_dropWhile_isWordChar rest),
    List.takeWhile_append_dropWhile]

/-- Parsing for `n` arguments finds the first `n` pieces. -/
theorem argWords_eq (n : ℕ) (t : List UInt8) : argWords n t = (linePieces t).take n := by
  induction n generalizing t with
  | zero => rfl
  | succ n ih =>
    have hskip : linePieces (t.dropWhile fun c => decide (isBlank c)) = linePieces t := by
      rw [linePieces, lineWords, words_dropWhile]
      rfl
    rw [argWords, ← hskip]
    have hhead := List.head?_dropWhile_not (fun c => decide (isBlank c)) t
    generalize t.dropWhile (fun c => decide (isBlank c)) = rest at hhead
    cases rest with
    | nil =>
      rw [if_pos rfl, linePieces, lineWords, words_nil]
      rfl
    | cons c rest =>
      have hc : isWordChar c = true := by simpa [isWordChar] using hhead
      have hword : (c :: rest).takeWhile isWordChar ≠ [] := by
        rw [List.takeWhile_cons_of_pos hc]
        exact List.cons_ne_nil _ _
      rw [if_neg (List.cons_ne_nil _ _), ih, linePieces_cons hword, List.take_succ_cons]

/-- What `parse_command` can run. -/
inductive Handler
  | hello
  | help
  | clear
  | echo
  | history
  | uptime
  | exit
  | unknown
  deriving DecidableEq

def Handler.name : Handler → Option (List UInt8)
  | .hello => some (ascii "hello")
  | .help => some (ascii "help")
  | .clear => some (ascii "clear")
  | .echo => some (ascii "echo")
  | .history => some (ascii "history")
  | .uptime => some (ascii "uptime")
  | .exit => some (ascii "exit")
  | .unknown => none

/-- The flag is set by the handler after which `parse_command` returns at once. -/
def Handler.run (argc : ℤ) (args : Args) (s : Shell) : Handler → Option (Shell × Bool)
  | .hello => (cmdHello argc args s).map (·, false)
  | .help => some (onScreen cmdHelp s, false)
  | .clear => some (onScreen cmdClear s, false)
  | .echo => (cmdEcho argc args s).map (·, false)
  | .history => (cmdHistory s).map (·, false)
  | .uptime => some (onScreen cmdUptime s, false)
  | .exit => some (onScreen cmdExit s, true)
  | .unknown => (shellError (ascii "Unknown command") s).map fun s =>
      (onScreen (shellPrint (ascii "Type 'help' for available commands.\n")) s, false)

def handlerOf (w : List UInt8) : Handler :=
  if w = ascii "hello" then .hello
  else if w = ascii "help" then .help
  else if w = ascii "clear" then .clear
  else if w = ascii "echo" then .echo
  else if w = ascii "history" then .history
  else if w = ascii "uptime" then .uptime
  else if w = ascii "exit" then .exit
  else .unknown

theorem handlerOf_name {h : Handler} {w : List UInt8} (hname : h.name = some w) :
    handlerOf w = h := by
  cases h with
  | unknown => cases hname
  | _ =>
    obtain rfl := Option.some_inj.mp hname
    decide +kernel

theorem name_handlerOf (w : List UInt8) :
    (handlerOf w).name = some w ∨ handlerOf w = .unknown := by
  rw [handlerOf]
  split_ifs with hhello hhelp hclear hecho hhistory huptime hexit
  · exact .inl (congrArg some hhello.symm)
  · exact .inl (congrArg some hhelp.symm)
  · exact .inl (congrArg some hclear.symm)
  · exact .inl (congrArg some hecho.symm)
  · exact .inl (congrArg some hhistory.symm)
  · exact .inl (congrArg some huptime.symm)
  · exact .inl (congrArg some hexit.symm)
  · exact .inr rfl

theorem runCommand_eq {args : Args} {w : List UInt8} (hread : read args 0 = some (elem args 0))
    (hw : Holds (elem args 0) w) (argc : ℤ) (s : Shell) :
    runCommand argc args s = (handlerOf w).run argc args s := by
  rw [runCommand_names hread hw, handlerOf]
  split_ifs with hhello hhelp hclear hecho hhistory huptime hexit
  · rfl
  · rfl
  · rfl
  · rfl
  · rfl
  · rfl
  · rfl
  · rfl

/-- What `parse_command` does after a handler. -/
def afterHandler : Shell × Bool → Option Shell
  | (s, true) => some s
  | (s, false) => (write s.commandBuffer 0 0).bind fun commandBuffer =>
      promptAgain { s with commandBuffer }

/-- `args` is a local array; the bytes found in it are overwritten before they are read. -/
def freshArgs : Args := Vector.replicate _ (Vector.replicate _ 0)

theorem parseArgs_pieces {n : ℕ} {command : Vector UInt8 n} {t : List UInt8}
    (h : Holds command t) (args : Args) :
    ∃ args', parseArgs command args = some (args', (((linePieces t).take 8).length : ℤ)) ∧
      HoldsWords args' ((linePieces t).take 8) := by
  obtain ⟨args', hrun, hwords⟩ := parseArgs_eq h args
  have hlen := length_argWords_le 8 t
  rw [argWords_eq] at hrun hlen
  simp only [argWords_eq] at hwords
  exact ⟨args', hrun, hlen, hwords⟩

section Dispatch
variable {s : Shell} {t : List UInt8}

theorem read_first (ht : Holds s.commandBuffer t) : read s.commandBuffer 0 = some (t.headD 0) := by
  have hread := read_of_holds ht (j := 0) (by simp)
  cases t with
  | nil => exact hread
  | cons c t => exact hread

theorem parseCommand_blank (ht : Holds s.commandBuffer t) (h : linePieces t = []) :
    parseCommand s = promptAgain s := by
  obtain ⟨args, hparse, -⟩ := parseArgs_pieces ht freshArgs
  rw [h] at hparse
  have hparse' : parseArgs s.commandBuffer (Vector.replicate _ (Vector.replicate _ 0)) =
      some (args, 0) := hparse
  rw [parseCommand, read_first ht, Option.bind_eq_bind, Option.bind_some, hparse']
  split
  · rfl
  · rfl

theorem parseCommand_dispatch (ht : Holds s.commandBuffer t) {first : List UInt8}
    {rest : List (List UInt8)} (h : linePieces t = first :: rest) :
    ∃ args, parseArgs s.commandBuffer freshArgs =
        some (args, (((linePieces t).take 8).length : ℤ)) ∧
      HoldsWords args ((linePieces t).take 8) ∧
      parseCommand s = ((handlerOf first).run ((linePieces t).take 8).length args s).bind
        afterHandler := by
  obtain ⟨args, hparse, hargs⟩ := parseArgs_pieces ht freshArgs
  have htake : (linePieces t).take 8 = first :: rest.take 7 := by rw [h, List.take_succ_cons]
  have hnonzero : t.headD 0 ≠ 0 := by
    cases t with
    | nil => cases h
    | cons c t => exact ht.nonzero c List.mem_cons_self
  have hread : read args 0 = some (elem args 0) := hargs.read (by rw [htake]; exact Nat.succ_pos _)
  have hfirst : Holds (elem args 0) first := by
    have hheld := hargs.2 0 (by rw [htake]; exact Nat.succ_pos _)
    simp only [htake] at hheld
    exact hheld
  have hargc : ¬ (((linePieces t).take 8).length : ℤ) = 0 := by
    rw [htake, List.length_cons]
    omega
  refine ⟨args, hparse, hargs, ?_⟩
  rw [freshArgs] at hparse
  rw [parseCommand, read_first ht, Option.bind_eq_bind, Option.bind_some, if_neg hnonzero, hparse,
    Option.bind_eq_bind, Option.bind_some]
  dsimp only
  rw [if_neg hargc, runCommand_eq hread hfirst, Option.bind_eq_bind]
  congr 1
  funext ⟨s', exited⟩
  cases exited <;> rfl

end Dispatch

theorem handlerOf_eq_iff {h : Handler} (hne : h ≠ .unknown) (w : List UInt8) :
    h = handlerOf w ↔ h.name = some w := by
  constructor
  · rintro rfl
    exact (name_handlerOf w).resolve_right hne
  · exact fun hname => (handlerOf_name hname).symm

/-- The arguments are the first eight pieces of the words. If no word is cut, the command
run is the one that has the first word for its name. -/
theorem parse_args_pieces {n : ℕ} {command : Vector UInt8 n} {t : List UInt8}
    (h : Holds command t) (args : Args) :
    (∃ args', parseArgs command args = some (args', (((linePieces t).take 8).length : ℤ)) ∧
        HoldsWords args' ((linePieces t).take 8)) ∧
      (∀ w ∈ (linePieces t).take 8, w ≠ [] ∧ ∀ c ∈ w, ¬ isBlank c) ∧
      ((∀ w ∈ lineWords t, w.length ≤ 31) → (linePieces t).take 8 = (lineWords t).take 8 ∧
        ∀ s, Holds s.commandBuffer t → (lineWords t = [] → parseCommand s = promptAgain s) ∧
          ∀ first rest, lineWords t = first :: rest → ∃ args' handler,
            parseArgs s.commandBuffer freshArgs =
                some (args', (((lineWords t).take 8).length : ℤ)) ∧
              HoldsWords args' ((lineWords t).take 8) ∧
              (∀ other : Handler, other ≠ .unknown →
                (other = handler ↔ other.name = some first)) ∧
              parseCommand s =
                (handler.run ((lineWords t).take 8).length args' s).bind afterHandler) := by
  refine ⟨parseArgs_pieces h args, fun w hw => mem_linePieces (List.mem_of_mem_take hw),
    fun hshort => ⟨by rw [linePieces_of_short hshort], fun s hs => ⟨fun hnil => ?_, ?_⟩⟩⟩
  · exact parseCommand_blank hs (by rw [linePieces_of_short hshort, hnil])
  · intro first rest hwords
    obtain ⟨args', hparse, hargs, hrun⟩ :=
      parseCommand_dispatch hs (by rw [linePieces_of_short hshort, hwords])
    rw [linePieces_of_short hshort] at hparse hargs hrun
    exact ⟨args', handlerOf first, hparse, hargs, fun other hne => handlerOf_eq_iff hne first, hrun⟩

/-- A word of 31 characters, one of 32, and blanks around them. -/
def longWords : List UInt8 :=
  ascii " " ++ List.replicate 31 97 ++ ascii "\t " ++ List.replicate 32 98 ++ ascii " "

theorem longWords_holds : Holds (literal longWords) longWords := literal_holds (by decide +kernel)

/-- Three words, none of them cut. -/
def shortWords : List UInt8 := ascii " echo a\tbc "

theorem shortWords_holds : Holds (literal shortWords) shortWords := literal_holds (by decide +kernel)

theorem parse_args_pieces_long :
    ((∃ args', parseArgs (literal longWords) freshArgs =
          some (args', (((linePieces longWords).take 8).length : ℤ)) ∧
        HoldsWords args' ((linePieces longWords).take 8)) ∧
      ∀ w ∈ (linePieces longWords).take 8, w ≠ [] ∧ ∀ c ∈ w, ¬ isBlank c) ∧
    (linePieces shortWords).take 8 = [ascii "echo", ascii "a", ascii "bc"] ∧
    ∀ s, Holds s.commandBuffer shortWords → ∃ args' handler,
      parseArgs s.commandBuffer freshArgs = some (args', 3) ∧
        HoldsWords args' [ascii "echo", ascii "a", ascii "bc"] ∧
        (∀ other : Handler, other ≠ .unknown →
          (other = handler ↔ other.name = some (ascii "echo"))) ∧
        parseCommand s = (handler.run 3 args' s).bind afterHandler := by
  have hwords : lineWords shortWords = [ascii "echo", ascii "a", ascii "bc"] := by
    decide +kernel
  obtain ⟨hlong, hpieces, -⟩ := parse_args_pieces longWords_holds freshArgs
  obtain ⟨-, -, hshort⟩ := parse_args_pieces shortWords_holds freshArgs
  rw [hwords] at hshort
  obtain ⟨hsame, hcommand⟩ := hshort (by decide +kernel)
  exact ⟨⟨hlong, hpieces⟩, hsame, fun s hs => (hcommand s hs).2 (ascii "echo") _ rfl⟩

end BinOs.CommandTokens
