import BinOs.CommandWords
import BinOs.ConsolePositions
import BinOs.LineEditorRefinement

/-! # What a command prints

Each command comes down to a list of calls on the console, of which the screen after
the command is the result. -/
namespace BinOs.ConsoleCalls
open BoundedLoops CheckedBuffers MemoryStrings FramebufferDrawing ShellConsole LineEditor
open ShellCommands CommandWords ShellSession LineEditorRefinement ConsoleLayout

inductive ConsoleCall
  | print (text : List UInt8) (color : UInt32)
  | newline
  | prompt
  | clear

def say (text : List UInt8) : ConsoleCall := .print text textColor

def ConsoleCall.run : ConsoleCall → Screen → Screen
  | .print text color => shellPrintColor text color
  | .newline => shellNewline
  | .prompt => shellPrintPrompt
  | .clear => cmdClear

def ConsoleCall.events : ConsoleCall → Screen → List ConsoleEvent
  | .print text color => printEvents text color
  | .newline => newlineEvents
  | .prompt => fun s => [.prompt (layout s)]
  | .clear => fun _ => []

def runConsole : List ConsoleCall → Screen → Screen
  | [], s => s
  | call :: calls, s => runConsole calls (call.run s)

theorem runConsole_append (calls calls' : List ConsoleCall) (s : Screen) :
    runConsole (calls ++ calls') s = runConsole calls' (runConsole calls s) := by
  induction calls generalizing s with
  | nil => rfl
  | cons call calls ih => exact ih (call.run s)

/-- The string in an array. -/
def stringIn {n : ℕ} (b : Vector UInt8 n) : List UInt8 := (contents b).getD []

theorem stringIn_eq {n : ℕ} {b : Vector UInt8 n} {t : List UInt8} (h : Holds b t) :
    stringIn b = t := by
  rw [stringIn, h.contents]
  rfl

def errorCalls (text : List UInt8) (s : Shell) : List ConsoleCall :=
  [.print (ascii "Error: ") errorColor, say text, say (ascii ": "), say (stringIn s.commandBuffer),
    say (ascii "\n")]

def helloCalls (argc : ℤ) (args : Args) : List ConsoleCall :=
  if argc > 1 then [say (ascii "Hello, "), say (stringIn (elem args 1)), say (ascii "!\n")]
  else [say (ascii "Hello, World!\n")]

def echoWordCalls (argc : ℤ) (args : Args) (i : ℕ) : List ConsoleCall :=
  say (stringIn (elem args i)) :: if (i : ℤ) < argc - 1 then [say (ascii " ")] else []

def echoCalls (argc : ℤ) (args : Args) (s : Shell) : List ConsoleCall :=
  if argc < 2 then errorCalls (ascii "echo: missing argument") s
  else (List.range (argc - 1).toNat).flatMap (fun i => echoWordCalls argc args (i + 1)) ++
    [say (ascii "\n")]

def historyLineCalls (s : Shell) (i : ℕ) : List ConsoleCall :=
  let entry := stringIn (elem s.history ((s.historyIndex.toNat + i) % 10))
  if entry = [] then [] else [say (ascii "  "), say entry, say (ascii "\n")]

def historyCalls (s : Shell) : List ConsoleCall :=
  let lines := (List.range 10).flatMap (historyLineCalls s)
  say (ascii "Command history:\n") :: lines ++
    if lines.isEmpty then [say (ascii "  (no commands in history)\n")] else []

def runCommandCalls (argc : ℤ) (args : Args) (s : Shell) : List ConsoleCall :=
  let name := stringIn (elem args 0)
  if name = ascii "hello" then helloCalls argc args
  else if name = ascii "help" then [say helpText]
  else if name = ascii "clear" then [.clear]
  else if name = ascii "echo" then echoCalls argc args s
  else if name = ascii "history" then historyCalls s
  else if name = ascii "uptime" then
    [say (ascii "System uptime: Unknown (uptime not implemented)\n")]
  else if name = ascii "exit" then [.print (ascii "Goodbye!") successColor, say (ascii "\n")]
  else errorCalls (ascii "Unknown command") s ++
    [say (ascii "Type 'help' for available commands.\n")]

/-- There is a prompt after every command but `exit`. -/
def parseCommandCalls (s : Shell) : List ConsoleCall :=
  if elem s.commandBuffer 0 = 0 then [.prompt]
  else (parseArgs s.commandBuffer (Vector.replicate _ (Vector.replicate _ 0))).elim [] fun parsed =>
    if parsed.2 = 0 then [.prompt]
    else runCommandCalls parsed.2 parsed.1 s ++
      if stringIn (elem parsed.1 0) = ascii "exit" then [] else [.prompt]

variable {s : Shell} {a : Session} {args : Args} {words : List (List UInt8)}

/-- The state after these calls. -/
def after (calls : List ConsoleCall) (s : Shell) : Shell := onScreen (runConsole calls) s

theorem after_nil (s : Shell) : after [] s = s := rfl

theorem after_cons (call : ConsoleCall) (calls : List ConsoleCall) (s : Shell) :
    after (call :: calls) s = after calls (onScreen call.run s) := rfl

theorem say_run (text : List UInt8) : (say text).run = shellPrint text := rfl

theorem print_run (text : List UInt8) (color : UInt32) :
    (ConsoleCall.print text color).run = shellPrintColor text color := rfl

theorem after_append (calls calls' : List ConsoleCall) (s : Shell) :
    after (calls ++ calls') s = after calls' (after calls s) :=
  congrArg (fun screen => { s with screen }) (runConsole_append calls calls' s.screen)

theorem shellError_prints {t : List UInt8} (ht : Holds s.commandBuffer t) (text : List UInt8) :
    shellError text s = some (after (errorCalls text s) s) := by
  have hc : ∀ f g k : Screen → Screen,
      contents (onScreen f (onScreen g (onScreen k s))).commandBuffer = some t :=
    fun _ _ _ => ht.contents
  simp only [shellError, hc, Option.bind_eq_bind, Option.bind_some, errorCalls, stringIn_eq ht,
    after_cons, after_nil, say_run, print_run]

theorem HoldsWords.contents (h : HoldsWords args words) {k : ℕ} (hk : k < words.length) :
    CheckedBuffers.contents (elem args k) = some (stringIn (elem args k)) := by
  rw [stringIn_eq (h.2 k hk), (h.2 k hk).contents]

theorem cmdHello_prints (h : HoldsWords args words) :
    cmdHello words.length args s = some (after (helloCalls words.length args) s) := by
  rw [cmdHello, helloCalls]
  by_cases hargc : (words.length : ℤ) > 1
  · have hlt : 1 < words.length := by omega
    have hread : CheckedBuffers.read args 1 = some (elem args 1) := h.read hlt
    rw [if_pos hargc, if_pos hargc]
    simp only [hread, HoldsWords.contents h hlt, Option.bind_eq_bind, Option.bind_some, after_cons, after_nil, say_run]
  · rw [if_neg hargc, if_neg hargc, after_cons, after_nil, say_run]

/-- A loop of which each pass makes its own calls. -/
theorem forUpM_prints (body : ℤ → Shell → Option Shell) (calls : ℕ → List ConsoleCall) (lo : ℤ)
    (n : ℕ) (h : ∀ i < n, ∀ screen, body (lo + i) { s with screen } =
      some (after (calls i) { s with screen })) :
    forUpM lo (lo + n) body s = some (after ((List.range n).flatMap calls) s) := by
  induction n with
  | zero =>
    rw [forUpM_of_le (by omega)]
    rfl
  | succ n ih =>
    have hn : lo + ((n + 1 : ℕ) : ℤ) = lo + n + 1 := by omega
    have hpass := h n (Nat.lt_succ_self n) (runConsole ((List.range n).flatMap calls) s.screen)
    rw [hn, forUpM_succ (by omega), ih fun i hi => h i (Nat.lt_succ_of_lt hi), List.range_succ,
      List.flatMap_append, List.flatMap_singleton, after_append]
    exact hpass

theorem echoWord_prints (h : HoldsWords args words) {i : ℕ} (hi : i < words.length) :
    echoWord words.length args i s = some (after (echoWordCalls words.length args i) s) := by
  simp only [echoWord, echoWordCalls, h.read hi, HoldsWords.contents h hi, Option.bind_eq_bind,
    Option.bind_some, after_cons, say_run]
  split
  · rw [after_cons, after_nil, say_run]
  · rw [after_nil]

theorem cmdEcho_prints (h : HoldsWords args words) {t : List UInt8} (ht : Holds s.commandBuffer t) :
    cmdEcho words.length args s = some (after (echoCalls words.length args s) s) := by
  rw [cmdEcho, echoCalls]
  by_cases hargc : (words.length : ℤ) < 2
  · rw [if_pos hargc, if_pos hargc]
    exact shellError_prints ht _
  · obtain ⟨n, hn⟩ : ∃ n, words.length = n + 1 := ⟨words.length - 1, by omega⟩
    have hlast : (words.length : ℤ) = 1 + n := by omega
    have hcount : ((words.length : ℤ) - 1).toNat = n := by omega
    have hpass : ∀ i < n, ∀ screen, echoWord words.length args (1 + i) { s with screen } =
        some (after (echoWordCalls words.length args (i + 1)) { s with screen }) := by
      intro i hi screen
      have hcast : (1 : ℤ) + i = ((i + 1 : ℕ) : ℤ) := by omega
      rw [hcast]
      exact echoWord_prints h (by omega)
    have hloop := forUpM_prints _ (fun i => echoWordCalls words.length args (i + 1)) 1 n hpass
    rw [← hlast] at hloop
    rw [if_neg hargc, if_neg hargc, hloop, hcount, Option.map_some, after_append, after_cons,
      after_nil, say_run]

theorem historyLine_prints (h : Represents s a) (i count : ℕ) :
    ∃ count', historyLine i (s, count) = some (after (historyLineCalls s i) s, count') ∧
      (count' = 0 ↔ count = 0 ∧ historyLineCalls s i = []) := by
  have hnum := h.historyIndex
  have hslot : (s.historyIndex + i).tmod maxHistoryEntries =
      (((s.historyIndex.toNat + i) % 10 : ℕ) : ℤ) := by
    have hmod : (s.historyIndex + i).tmod maxHistoryEntries = (s.historyIndex + i) % 10 :=
      Int.tmod_eq_emod_of_nonneg (by omega)
    omega
  have hlt : (s.historyIndex.toNat + i) % 10 < 10 := Nat.mod_lt _ (by decide)
  obtain ⟨entry, hentry, hheld⟩ := h.entry ⟨_, hlt⟩
  have hread : entry = elem s.history ((s.historyIndex.toNat + i) % 10) :=
    Option.some_inj.mp (hentry.symm.trans (read_natCast s.history hlt))
  rw [hread] at hentry hheld
  simp only [historyLine, historyLineCalls, hslot, hentry, strlen_eq hheld, stringIn_eq hheld,
    hheld.contents, Option.bind_eq_bind, Option.bind_some]
  by_cases hnil : bytes (a.history ⟨_, hlt⟩).1 = []
  · have hzero : ¬ ((bytes (a.history ⟨_, hlt⟩).1).length : ℤ) > 0 := by
      rw [hnil]
      decide
    rw [if_pos hnil, if_neg hzero, after_nil]
    exact ⟨count, rfl, by simp⟩
  · have hpos : ((bytes (a.history ⟨_, hlt⟩).1).length : ℤ) > 0 :=
      Int.natCast_pos.mpr (List.length_pos_iff.mpr hnil)
    rw [if_neg hnil, if_pos hpos, after_cons, after_cons, after_cons, after_nil, say_run, say_run,
      say_run]
    exact ⟨count + 1, rfl, by simp⟩

theorem historyLineCalls_onScreen (f : Screen → Screen) (s : Shell) :
    historyLineCalls (onScreen f s) = historyLineCalls s := rfl

theorem historyLoop_prints (h : Represents s a) (n : ℕ) :
    ∃ count, forUpM 0 n historyLine (s, 0) =
        some (after ((List.range n).flatMap (historyLineCalls s)) s, count) ∧
      (count = 0 ↔ (List.range n).flatMap (historyLineCalls s) = []) := by
  induction n with
  | zero => exact ⟨0, forUpM_of_le (by omega) _ _, by simp⟩
  | succ n ih =>
    obtain ⟨count, hrun, hcount⟩ := ih
    obtain ⟨count', hline, hcount'⟩ := historyLine_prints
      (h.onScreen (runConsole ((List.range n).flatMap (historyLineCalls s)))) n count
    have hn : ((n + 1 : ℕ) : ℤ) = n + 1 := by omega
    rw [hn, forUpM_succ (by omega), hrun, Option.bind_some, List.range_succ, List.flatMap_append,
      List.flatMap_singleton, after_append, List.append_eq_nil_iff, ← hcount]
    exact ⟨count', hline, hcount'⟩

theorem cmdHistory_prints (h : Represents s a) :
    cmdHistory s = some (after (historyCalls s) s) := by
  obtain ⟨count, hrun, hcount⟩ :=
    historyLoop_prints (h.onScreen (shellPrint (ascii "Command history:\n"))) 10
  have hten : ((10 : ℕ) : ℤ) = maxHistoryEntries := rfl
  rw [hten, historyLineCalls_onScreen] at hrun
  rw [historyLineCalls_onScreen] at hcount
  simp only [cmdHistory, hrun, historyCalls, hcount, List.isEmpty_iff, Option.bind_eq_bind,
    Option.bind_some, List.cons_append, after_cons, after_append, say_run]
  split
  · rw [after_cons, after_nil, say_run]
  · rw [after_nil]

theorem runCommand_prints (h : Represents s a) (hargs : HoldsWords args words) (hne : words ≠ []) :
    runCommand words.length args s = some (after (runCommandCalls words.length args s) s,
      decide (stringIn (elem args 0) = ascii "exit")) := by
  have hpos := List.length_pos_iff.mpr hne
  have hread : CheckedBuffers.read args 0 = some (elem args 0) := hargs.read hpos
  have hw : Holds (elem args 0) (stringIn (elem args 0)) := by
    rw [stringIn_eq (hargs.2 0 hpos)]
    exact hargs.2 0 hpos
  rw [runCommand_names hread hw, runCommandCalls, cmdHello_prints hargs,
    cmdEcho_prints hargs h.command, cmdHistory_prints h, shellError_prints h.command]
  simp only [Option.map_some]
  generalize stringIn (elem args 0) = name
  have hgoesOn : ∀ other, other ≠ ascii "exit" → name = other →
      decide (name = ascii "exit") = false := by
    rintro _ hother rfl
    exact decide_eq_false hother
  by_cases hhello : name = ascii "hello"
  · rw [if_pos hhello, if_pos hhello, hgoesOn _ (by decide +kernel) hhello]
  rw [if_neg hhello, if_neg hhello]
  by_cases hhelp : name = ascii "help"
  · rw [if_pos hhelp, if_pos hhelp, hgoesOn _ (by decide +kernel) hhelp, after_cons,
      after_nil, say_run, cmdHelp]
  rw [if_neg hhelp, if_neg hhelp]
  by_cases hclear : name = ascii "clear"
  · rw [if_pos hclear, if_pos hclear, hgoesOn _ (by decide +kernel) hclear, after_cons,
      after_nil, ConsoleCall.run]
  rw [if_neg hclear, if_neg hclear]
  by_cases hecho : name = ascii "echo"
  · rw [if_pos hecho, if_pos hecho, hgoesOn _ (by decide +kernel) hecho]
  rw [if_neg hecho, if_neg hecho]
  by_cases hhistory : name = ascii "history"
  · rw [if_pos hhistory, if_pos hhistory, hgoesOn _ (by decide +kernel) hhistory]
  rw [if_neg hhistory, if_neg hhistory]
  by_cases huptime : name = ascii "uptime"
  · rw [if_pos huptime, if_pos huptime, hgoesOn _ (by decide +kernel) huptime, after_cons, after_nil,
      say_run, cmdUptime]
  rw [if_neg huptime, if_neg huptime]
  by_cases hexit : name = ascii "exit"
  · have hsuccess : ∀ text, onScreen (shellSuccess text) s =
        onScreen (shellPrint (ascii "\n")) (onScreen (shellPrintColor text successColor) s) := by
      intro text
      simp only [onScreen, shellSuccess]
    rw [if_pos hexit, if_pos hexit, decide_eq_true hexit, after_cons, after_cons, after_nil, say_run,
      print_run, ← hsuccess, cmdExit]
  · rw [if_neg hexit, if_neg hexit, decide_eq_false hexit, after_append, after_cons, after_nil, say_run]

section EndsAt
variable {l : Layout}

end EndsAt

/-- A blank line only gets a prompt; `exit` ends without one; any other command gets one,
with the command buffer cleared. -/
theorem parseCommand_cases (h : Represents s a) :
    (parseCommand s = promptAgain s ∧ parseCommandCalls s = [.prompt]) ∨
      (∃ calls, parseCommand s = some (after calls s) ∧ parseCommandCalls s = calls) ∨
      ∃ calls commandBuffer, Holds commandBuffer [] ∧
        parseCommand s = promptAgain { after calls s with commandBuffer } ∧
          parseCommandCalls s = calls ++ [.prompt] := by
  have hread : CheckedBuffers.read s.commandBuffer 0 = some (elem s.commandBuffer 0) :=
    read_natCast s.commandBuffer (by decide)
  rw [parseCommand, parseCommandCalls, hread, Option.bind_eq_bind, Option.bind_some]
  by_cases hempty : elem s.commandBuffer 0 = 0
  · rw [if_pos hempty, if_pos hempty]
    exact .inl ⟨rfl, rfl⟩
  rw [if_neg hempty, if_neg hempty]
  obtain ⟨args, hparse, hargs⟩ := parseArgs_eq h.command
    (Vector.replicate 8 (Vector.replicate 32 0))
  rw [hparse, Option.bind_eq_bind, Option.bind_some, Option.elim_some]
  dsimp only
  by_cases hnone : argWords 8 (bytes a.command.1) = []
  · have hargc : ((argWords 8 (bytes a.command.1)).length : ℤ) = 0 := by rw [hnone]; rfl
    rw [if_pos hargc, if_pos hargc]
    exact .inl ⟨rfl, rfl⟩
  have hargc : ¬ ((argWords 8 (bytes a.command.1)).length : ℤ) = 0 := by
    have := List.length_pos_iff.mpr hnone
    omega
  right
  rw [if_neg hargc, if_neg hargc, runCommand_prints h ⟨length_argWords_le 8 _, hargs⟩ hnone,
    Option.bind_eq_bind, Option.bind_some]
  dsimp only
  by_cases hexit : stringIn (elem args 0) = ascii "exit"
  · rw [if_pos hexit, if_pos (decide_eq_true hexit), List.append_nil]
    exact .inl ⟨_, rfl, rfl⟩
  · obtain ⟨b, hwrite, hb⟩ := h.command.truncate (by omega : (0 : ℤ) ≤ 0) (by omega)
    have hclear : ∀ calls, write (after calls s).commandBuffer 0 0 = some b := fun _ => hwrite
    rw [if_neg hexit, if_neg fun hd => hexit (of_decide_eq_true hd), hclear, Option.bind_eq_bind,
      Option.bind_some]
    exact .inr ⟨_, b, hb, rfl, rfl⟩

end BinOs.ConsoleCalls
