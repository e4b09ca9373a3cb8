import BinOs.CommandTokens
import BinOs.LineEditorRuns

/-! # What `echo` prints

The words after `echo`, joined by single spaces, as long as argument parsing neither cut
one of them nor ran out of room. -/
namespace BinOs.EchoedWords
open CheckedBuffers MemoryStrings LineEditor ShellCommands CommandWords ConsoleCalls
open LineEditorRuns WordSplitting CommandTokens

/-- The text of the printing among these calls. -/
def printedText (calls : List ConsoleCall) : List UInt8 :=
  calls.flatMap fun
    | .print text _ => text
    | _ => []

theorem printedText_append (calls calls' : List ConsoleCall) :
    printedText (calls ++ calls') = printedText calls ++ printedText calls' := List.flatMap_append

/-- These words joined by single spaces, and a newline. -/
def joined (words : List (List UInt8)) : List UInt8 := [32].intercalate words ++ [10]

section Echo
variable {s : Shell} {t : List UInt8} {args : Args} {words : List (List UInt8)}

theorem echoWordCalls_text (h : HoldsWords args words) {i : ℕ} (hi : i < words.length) :
    printedText (echoWordCalls words.length args i) =
      words.getD i [] ++ if i + 1 < words.length then [32] else [] := by
  have hlast : (i : ℤ) < words.length - 1 ↔ i + 1 < words.length := by omega
  rw [echoWordCalls, stringIn_eq (h.2 i hi), List.getD_eq_getElem?_getD,
    List.getElem?_eq_getElem hi, Option.getD_some]
  simp only [hlast]
  split
  · rfl
  · rfl

theorem echoCalls_text (h : HoldsWords args words) (hlen : 2 ≤ words.length) :
    printedText (echoCalls words.length args s) = joined words.tail := by
  obtain ⟨w, rest, rfl⟩ := List.exists_cons_of_length_pos (by omega : 0 < words.length)
  rw [List.length_cons] at hlen
  have hcount : (((w :: rest).length : ℤ) - 1).toNat = rest.length := by
    rw [List.length_cons]
    omega
  rw [echoCalls, if_neg (by rw [List.length_cons]; omega), hcount, printedText_append, joined,
    List.tail_cons, intercalate_eq_flatMap, printedText, List.flatMap_assoc]
  congr 1
  apply List.flatMap_congr
  intro i hi
  have hlt := List.mem_range.mp hi
  have htext := echoWordCalls_text h (i := i + 1) (by rw [List.length_cons]; omega)
  rw [List.getD_cons_succ, List.length_cons] at htext
  simp only [Nat.add_lt_add_iff_right] at htext
  rw [List.length_cons]
  exact htext

theorem joined_eq_iff {ws vs : List (List UInt8)} (hws : ∀ w ∈ ws, ∀ c ∈ w, ¬ isBlank c)
    (hvs : ∀ v ∈ vs, ∀ c ∈ v, ¬ isBlank c) (hne : ws ≠ []) (hne' : vs ≠ []) :
    joined ws = joined vs ↔ ws = vs := by
  have hspace : ∀ {us : List (List UInt8)}, (∀ u ∈ us, ∀ c ∈ u, ¬ isBlank c) → ∀ u ∈ us, 32 ∉ u :=
    fun hus u hu hmem => hus u hu 32 hmem (.inl rfl)
  rw [joined, joined, List.append_left_inj, intercalate_eq_iff (hspace hws) (hspace hvs) hne hne']

theorem linePieces_echo {rest : List (List UInt8)} (h : lineWords t = ascii "echo" :: rest) :
    linePieces t = ascii "echo" :: rest.flatMap (pieces 31) := by
  rw [linePieces, h, List.flatMap_cons, pieces_of_length_le (by decide) (by decide +kernel)
    (by decide +kernel)]
  rfl

theorem pieces_ne_nil {rest : List (List UInt8)} (h : ∀ w ∈ rest, w ≠ []) (hne : rest ≠ []) :
    (rest.flatMap (pieces 31)).take 7 ≠ [] := by
  obtain ⟨w, rest, rfl⟩ := List.exists_cons_of_ne_nil hne
  rw [List.flatMap_cons, pieces_cons (by decide) (h w List.mem_cons_self), List.cons_append,
    List.take_succ_cons]
  exact List.cons_ne_nil _ _

/-- The call of `cmd_echo` for a line, and what it prints. -/
theorem echo_line (ht : Holds s.commandBuffer t) {rest : List (List UInt8)}
    (h : lineWords t = ascii "echo" :: rest) (hne : rest ≠ []) :
    ∃ argc args, parseArgs s.commandBuffer freshArgs = some (args, argc) ∧
      parseCommand s = (Handler.echo.run argc args s).bind afterHandler ∧
      cmdEcho argc args s = some (after (echoCalls argc args s) s) ∧
      printedText (echoCalls argc args s) = joined ((rest.flatMap (pieces 31)).take 7) := by
  have hpieces := linePieces_echo h
  have htake : (linePieces t).take 8 = ascii "echo" :: (rest.flatMap (pieces 31)).take 7 := by
    rw [hpieces, List.take_succ_cons]
  have hwords : ∀ w ∈ rest, w ≠ [] :=
    fun w hw => (mem_lineWords (h ▸ List.mem_cons_of_mem _ hw)).1
  have hpos := List.length_pos_iff.mpr (pieces_ne_nil hwords hne)
  obtain ⟨args, hparse, hargs, hrun⟩ := parseCommand_dispatch ht hpieces
  refine ⟨_, args, hparse, hrun, cmdEcho_prints hargs ht, ?_⟩
  rw [echoCalls_text hargs (by rw [htake, List.length_cons]; omega), htake, List.tail_cons]

theorem echo_text_iff {rest : List (List UInt8)} (h : lineWords t = ascii "echo" :: rest)
    (hne : rest ≠ []) : joined ((rest.flatMap (pieces 31)).take 7) = joined rest ↔
      rest.length ≤ 7 ∧ ∀ w ∈ rest, w.length ≤ 31 := by
  have hwords : ∀ w ∈ rest, w ≠ [] ∧ ∀ c ∈ w, ¬ isBlank c :=
    fun w hw => mem_lineWords (h ▸ List.mem_cons_of_mem _ hw)
  have hcut : ∀ w ∈ (rest.flatMap (pieces 31)).take 7, ∀ c ∈ w, ¬ isBlank c := by
    intro piece hpiece c hc
    obtain ⟨w, hw, hmem⟩ := List.mem_flatMap.mp (List.mem_of_mem_take hpiece)
    exact (hwords w hw).2 c ((mem_pieces hmem).2 c hc)
  rw [joined_eq_iff hcut (fun w hw => (hwords w hw).2) (pieces_ne_nil (fun w hw => (hwords w hw).1) hne)
    hne, take_pieces_eq_iff (by decide) fun w hw => (hwords w hw).1]

end Echo

/-- `echo` prints the other words of the line just when there are at most seven of them,
none longer than 31 characters. -/
theorem echo_prints_words_iff {s : Shell} {t : List UInt8} (ht : Holds s.commandBuffer t)
    {rest : List (List UInt8)} (h : lineWords t = ascii "echo" :: rest) (hne : rest ≠ []) :
    ∃ argc args, parseArgs s.commandBuffer freshArgs = some (args, argc) ∧
      parseCommand s = (Handler.echo.run argc args s).bind afterHandler ∧
      cmdEcho argc args s = some (after (echoCalls argc args s) s) ∧
      (printedText (echoCalls argc args s) = joined rest ↔
        rest.length ≤ 7 ∧ ∀ w ∈ rest, w.length ≤ 31) := by
  obtain ⟨argc, args, hparse, hrun, hprints, htext⟩ := echo_line ht h hne
  exact ⟨argc, args, hparse, hrun, hprints, by rw [htext, echo_text_iff h hne]⟩

def shortEcho : List UInt8 := ascii "echo a  b"

theorem echo_prints_short : ∃ argc args,
    parseArgs (shellAfter (typeLine shortEcho)).commandBuffer freshArgs = some (args, argc) ∧
      parseCommand (shellAfter (typeLine shortEcho)) =
        (Handler.echo.run argc args (shellAfter (typeLine shortEcho))).bind afterHandler ∧
      cmdEcho argc args (shellAfter (typeLine shortEcho)) = some (after
        (echoCalls argc args (shellAfter (typeLine shortEcho))) (shellAfter (typeLine shortEcho))) ∧
      (printedText (echoCalls argc args (shellAfter (typeLine shortEcho))) =
          joined [ascii "a", ascii "b"] ↔
        [ascii "a", ascii "b"].length ≤ 7 ∧ ∀ w ∈ [ascii "a", ascii "b"], w.length ≤ 31) :=
  echo_prints_words_iff (shellAfter_typeLine (by decide +kernel) (by decide +kernel))
    (by decide +kernel) (List.cons_ne_nil _ _)

/-- A line whose second word has 32 characters. -/
def longEcho : List UInt8 := ascii "echo " ++ List.replicate 32 97

/-- The word is printed in two pieces. -/
theorem echo_cuts_long_word : Reachable (shellAfter (typeLine longEcho)) ∧
    Holds (shellAfter (typeLine longEcho)).commandBuffer longEcho ∧
    lineWords longEcho = [ascii "echo", List.replicate 32 97] ∧
    ∃ argc args,
      parseArgs (shellAfter (typeLine longEcho)).commandBuffer freshArgs = some (args, argc) ∧
      parseCommand (shellAfter (typeLine longEcho)) =
        (Handler.echo.run argc args (shellAfter (typeLine longEcho))).bind afterHandler ∧
      cmdEcho argc args (shellAfter (typeLine longEcho)) = some (after
        (echoCalls argc args (shellAfter (typeLine longEcho))) (shellAfter (typeLine longEcho))) ∧
      printedText (echoCalls argc args (shellAfter (typeLine longEcho))) ≠
        joined [List.replicate 32 97] := by
  have ht : Holds (shellAfter (typeLine longEcho)).commandBuffer longEcho :=
    shellAfter_typeLine (by decide +kernel) (by decide +kernel)
  have hwords : lineWords longEcho = [ascii "echo", List.replicate 32 97] := by decide +kernel
  obtain ⟨argc, args, hparse, hrun, hprints, htext⟩ := echo_line ht hwords (List.cons_ne_nil _ _)
  refine ⟨shellAfter_reachable _, ht, hwords, argc, args, hparse, hrun, hprints, ?_⟩
  rw [htext]
  decide +kernel

end BinOs.EchoedWords
