import BinOs.CommandExecution

/-! # Runs of the line editor

From `shell_init` on, any sequence of editor calls succeeds and keeps the arrays in
step with a session. -/
namespace BinOs.LineEditorRuns
open CheckedBuffers FramebufferDrawing LineEditor ShellCommands ShellSession LineEditorRefinement
open CommandExecution ZipperEditor

/-- The calls made on the shell; `draw` is anything that other code puts on the
screen between two of them. -/
inductive EditorCall
  | input (received : UInt8)
  | backspace
  | delete
  | moveCursorLeft
  | moveCursorRight
  | moveCursorHome
  | moveCursorEnd
  | clearInput
  | cancelInput
  | historyUp
  | historyDown
  | parseCommand
  | updateCursor
  | draw (screen : Screen)

def EditorCall.run : EditorCall → Shell → Option Shell
  | .input received => fun s => (LineEditor.input received s).map Prod.fst
  | .backspace => shellBackspace
  | .delete => shellDelete
  | .moveCursorLeft => shellMoveCursorLeft
  | .moveCursorRight => shellMoveCursorRight
  | .moveCursorHome => shellMoveCursorHome
  | .moveCursorEnd => shellMoveCursorEnd
  | .clearInput => shellClearInput
  | .cancelInput => shellCancelInput
  | .historyUp => shellHistoryUp
  | .historyDown => shellHistoryDown
  | .parseCommand => ShellCommands.parseCommand
  | .updateCursor => shellUpdateCursor
  | .draw screen => fun s => some { s with screen }

def runCalls : List EditorCall → Shell → Option Shell
  | [], s => some s
  | call :: calls, s => (call.run s).bind (runCalls calls)

theorem runCalls_append (calls calls' : List EditorCall) (s : Shell) :
    runCalls (calls ++ calls') s = (runCalls calls s).bind (runCalls calls') := by
  induction calls generalizing s with
  | nil => rfl
  | cons call calls ih =>
    rw [List.cons_append, runCalls, runCalls, Option.bind_assoc]
    exact Option.bind_congr fun s' _ => ih s'

/-- Every state the shell can be in after `shell_init`, whatever stood in its
variables before. -/
def Reachable (s : Shell) : Prop := ∃ boot calls, (shellInit boot).bind (runCalls calls) = some s

theorem shellInit_represents (boot : Shell) :
    ∃ s, shellInit boot = some s ∧ Represents s Session.start := by
  obtain ⟨b, hb, hline⟩ := write_eq boot.inputBuffer 0 (by omega : (0 : ℤ) ≤ 0) (by omega)
  obtain ⟨c, hc, hcommand⟩ := write_eq boot.commandBuffer 0 (by omega : (0 : ℤ) ≤ 0) (by omega)
  have hempty : ∀ k : Fin 10,
      Holds (elem (Vector.replicate 10 (Vector.replicate 256 (0 : UInt8))) k) (bytes []) := by
    intro k
    rw [elem_replicate _ k.2]
    exact holds_nil (by decide) (elem_replicate _ (by decide))
  simp only [shellInit, hb, hc, Option.bind_eq_bind, Option.bind_some]
  exact ⟨_, rfl, holds_nil (by decide) (by rw [hline]; rfl), rfl, rfl,
    holds_nil (by decide) (by rw [hcommand]; rfl), hempty, rfl, rfl⟩

variable {s : Shell} {a : Session}

theorem input_represents (h : Represents s a) {c : UInt8} (hc : c ≠ 23) :
    ∃ s', input c s = some (s', c == 10 || c == 13) ∧ Represents s' (a.typed c) := by
  obtain ⟨s', hs', hrep⟩ := h.inputEffect hc
  exact ⟨s', by rw [input, hs']; rfl, hrep⟩

theorem updateCursor_represents (h : Represents s a) :
    ∃ s', shellUpdateCursor s = some s' ∧ Represents s' a := by
  rw [shellUpdateCursor]
  split
  · exact Represents.draw ⟨h.line, h.cursor, h.index, h.command, h.history, h.historyIndex,
      h.historyCurrent⟩
  · exact ⟨_, rfl, h.line, h.cursor, h.index, h.command, h.history, h.historyIndex,
      h.historyCurrent⟩

/-- The calls that submit a line. -/
def Enters : EditorCall → Prop
  | .input received => received = 10 ∨ received = 13
  | _ => False

instance : DecidablePred Enters
  | .input received => inferInstanceAs (Decidable (received = 10 ∨ received = 13))
  | .backspace | .delete | .moveCursorLeft | .moveCursorRight | .moveCursorHome | .moveCursorEnd
  | .clearInput | .cancelInput | .historyUp | .historyDown | .parseCommand | .updateCursor
  | .draw _ => inferInstanceAs (Decidable False)

theorem run_input (c : UInt8) (s : Shell) :
    (EditorCall.input c).run s = (input c s).map Prod.fst := rfl

theorem enter_represents (h : Represents s a) {c : UInt8} (hc : c = 10 ∨ c = 13) :
    ∃ s', input c s = some (s', true) ∧ Represents s' a.submit := by
  have h23 : c ≠ 23 := by
    rcases hc with rfl | rfl
    · decide
    · decide
  have htrue : (c == 10 || c == 13) = true := by
    rcases hc with rfl | rfl
    · rfl
    · rfl
  obtain ⟨s', hs', hrep⟩ := input_represents h h23
  rw [Session.typed, if_pos hc] at hrep
  exact ⟨s', htrue ▸ hs', hrep⟩

/-- A call succeeds with a session that has the same entries and write index. -/
def KeepsHistory (call : EditorCall) (s : Shell) (a : Session) : Prop :=
  ∃ s' a', call.run s = some s' ∧ Represents s' a' ∧ a'.history = a.history ∧
    a'.historyIndex = a.historyIndex

theorem keepsHistory_edit {call : EditorCall} {f : LineUnderEdit → LineUnderEdit}
    (h : ∃ s', call.run s = some s' ∧ Represents s' (a.edit f)) : KeepsHistory call s a := by
  obtain ⟨s', hrun, hrep⟩ := h
  exact ⟨s', _, hrun, hrep, rfl, rfl⟩

/-- Every call but Enter. -/
theorem call_keeps_history (h : Represents s a) {call : EditorCall} (hcall : ¬ Enters call) :
    KeepsHistory call s a := by
  cases call with
  | input c =>
    by_cases h23 : c = 23
    · obtain ⟨s', hs', k, -, hrep⟩ := h.killWord
      refine keepsHistory_edit ⟨s', ?_, hrep⟩
      rw [h23, run_input, input, inputEffect_killWord, hs']
      rfl
    · obtain ⟨s', hs', hrep⟩ := input_represents h h23
      have henter : ¬ (c = 10 ∨ c = 13) := hcall
      rw [Session.typed, if_neg henter] at hrep
      exact keepsHistory_edit ⟨s', by rw [run_input, hs']; rfl, hrep⟩
  | backspace => exact keepsHistory_edit h.backspace
  | delete => exact keepsHistory_edit h.delete
  | moveCursorLeft => exact keepsHistory_edit h.moveLeft
  | moveCursorRight => exact keepsHistory_edit h.moveRight
  | moveCursorHome => exact keepsHistory_edit h.moveHome
  | moveCursorEnd => exact keepsHistory_edit h.moveEnd
  | clearInput => exact keepsHistory_edit h.clearInput
  | cancelInput => exact keepsHistory_edit h.cancelInput
  | historyUp =>
    obtain ⟨s', hs', hrep⟩ := h.historyUp
    rw [Session.historyUp] at hrep
    split at hrep
    · exact ⟨s', _, hs', hrep, rfl, rfl⟩
    · exact ⟨s', _, hs', hrep, rfl, rfl⟩
  | historyDown =>
    obtain ⟨s', hs', hrep⟩ := h.historyDown
    rw [Session.historyDown] at hrep
    split at hrep
    · exact ⟨s', _, hs', hrep, rfl, rfl⟩
    · exact ⟨s', _, hs', hrep, rfl, rfl⟩
  | parseCommand =>
    obtain ⟨s', line, hs', hrep⟩ := parseCommand_represents h
    exact ⟨s', _, hs', hrep, rfl, rfl⟩
  | updateCursor =>
    obtain ⟨s', hs', hrep⟩ := updateCursor_represents h
    exact ⟨s', a, hs', hrep, rfl, rfl⟩
  | draw screen => exact ⟨_, a, rfl, h.onScreen fun _ => screen, rfl, rfl⟩

/-- One call succeeds and ends in a state that again represents a session. -/
theorem call_represents (h : Represents s a) (call : EditorCall) :
    ∃ s' a', call.run s = some s' ∧ Represents s' a' := by
  by_cases hcall : Enters call
  · cases call with
    | input c =>
      obtain ⟨s', hs', hrep⟩ := enter_represents h hcall
      exact ⟨s', _, by rw [run_input, hs']; rfl, hrep⟩
    | _ => exact hcall.elim
  · obtain ⟨s', a', hrun, hrep, -⟩ := call_keeps_history h hcall
    exact ⟨s', a', hrun, hrep⟩

/-- Every byte, the word kill included. -/
theorem input_succeeds (h : Represents s a) (c : UInt8) :
    ∃ s' a', inputEffect c s = some s' ∧ input c s = some (s', c == 10 || c == 13) ∧
      Represents s' a' := by
  obtain ⟨s', a', hs', hrep⟩ := call_represents h (.input c)
  obtain ⟨entered, hentered, rfl⟩ := Option.map_eq_some_iff.mp hs'
  obtain ⟨s₁, hs₁, rfl⟩ := Option.map_eq_some_iff.mp hentered
  exact ⟨s₁, a', hs₁, hentered, hrep⟩

theorem calls_represents (h : Represents s a) (calls : List EditorCall) :
    ∃ s' a', runCalls calls s = some s' ∧ Represents s' a' := by
  induction calls generalizing s a with
  | nil => exact ⟨s, a, rfl, h⟩
  | cons call calls ih =>
    obtain ⟨s₁, a₁, hcall, hs₁⟩ := call_represents h call
    obtain ⟨s', a', hrun, hs'⟩ := ih hs₁
    exact ⟨s', a', by rw [runCalls, hcall, Option.bind_some, hrun], hs'⟩

theorem run_represents (boot : Shell) (calls : List EditorCall) :
    ∃ s a, (shellInit boot).bind (runCalls calls) = some s ∧ Represents s a := by
  obtain ⟨s₀, hinit, hs₀⟩ := shellInit_represents boot
  rw [hinit, Option.bind_some]
  exact calls_represents hs₀ calls

theorem Reachable.represents (h : Reachable s) : ∃ a, Represents s a := by
  obtain ⟨boot, calls, hrun⟩ := h
  obtain ⟨s', a, hrun', hs'⟩ := run_represents boot calls
  rw [hrun] at hrun'
  cases hrun'
  exact ⟨a, hs'⟩

/-- What the rest of the kernel relies on, in terms of the arrays alone. -/
structure WellFormed (s : Shell) : Prop where
  cursor_nonneg : 0 ≤ s.cursorPos
  cursor_le : s.cursorPos ≤ s.inputIndex
  index_le : s.inputIndex ≤ 255
  terminator : read s.inputBuffer s.inputIndex = some 0
  printable : ∀ i, 0 ≤ i → i < s.inputIndex →
    ∃ c, read s.inputBuffer i = some c ∧ c ≠ 0 ∧ 32 ≤ c ∧ c ≤ 126
  historyIndex : 0 ≤ s.historyIndex ∧ s.historyIndex ≤ 9
  historyCurrent : 0 ≤ s.historyCurrent ∧ s.historyCurrent ≤ 9
  entries : ∀ k < 10, ∃ t, Holds (elem s.history k) t
  command : ∃ t, Holds s.commandBuffer t

theorem represents_wellFormed (h : Represents s a) : WellFormed s where
  cursor_nonneg := by
    rw [h.cursor]
    omega
  cursor_le := h.cursor_le
  index_le := h.index_le
  terminator := by
    have hle := h.index_le
    have hlen : s.inputIndex = (bytes a.editor.text).length := by rw [length_bytes, h.index]
    rw [hlen, read_natCast _ h.line.fits, h.line.terminator]
  printable := by
    intro i h0 hi
    have hindex := h.index
    have hle := h.index_le
    have hlt : i.toNat < a.editor.text.length := by omega
    have hltb : i.toNat < (bytes a.editor.text).length := by rwa [length_bytes]
    have hget : (bytes a.editor.text)[i.toNat] = (a.editor.text[i.toNat]).1 := List.getElem_map ..
    rw [read_eq _ h0 (by omega), h.line.bytes i.toNat hltb, hget]
    exact ⟨_, rfl, printable_ne_zero _, (a.editor.text[i.toNat]).2⟩
  historyIndex := by
    have := a.historyIndex.2
    rw [h.historyIndex]
    omega
  historyCurrent := by
    have := a.historyCurrent.2
    rw [h.historyCurrent]
    omega
  entries := fun k hk => ⟨_, h.history ⟨k, hk⟩⟩
  command := ⟨_, h.command⟩

/-- Every call of every run stays inside the arrays and leaves them well formed. -/
theorem shell_wellFormed (boot : Shell) (calls : List EditorCall) :
    ∃ s, (shellInit boot).bind (runCalls calls) = some s ∧ WellFormed s := by
  obtain ⟨s, a, hrun, hs⟩ := run_represents boot calls
  exact ⟨s, hrun, represents_wellFormed hs⟩

def textBefore (s : Shell) : List UInt8 := s.inputBuffer.toList.take s.cursorPos.toNat

def textFrom (s : Shell) : List UInt8 :=
  (s.inputBuffer.toList.take s.inputIndex.toNat).drop s.cursorPos.toNat

/-- The array, read as the text before the cursor and the text from it on. -/
def Shows (s : Shell) (e : LineUnderEdit) : Prop :=
  textBefore s = bytes e.left ∧ textFrom s = bytes e.right

theorem represents_shows (h : Represents s a) : Shows s a.editor := by
  obtain ⟨rest, hlist⟩ := h.line.toList
  have hcursor : s.cursorPos.toNat = (bytes a.editor.left).length := by
    rw [h.cursor, length_bytes, Int.toNat_natCast]
  have hindex : s.inputIndex.toNat = (bytes a.editor.text).length := by
    rw [h.index, length_bytes, Int.toNat_natCast]
  have htext : bytes a.editor.text = bytes a.editor.left ++ bytes a.editor.right :=
    bytes_append _ _
  constructor
  · rw [textBefore, hlist, hcursor, htext, List.append_assoc, List.take_left]
  · rw [textFrom, hlist, hindex, List.take_left, hcursor, htext, List.drop_left]

/-- In every reachable state the arrays show a two-list editor, and a byte, the word
kill apart, or a cursor move does to the arrays what it does to the two lists. A
submitted line is returned whole in the command buffer. -/
theorem line_editor_refines (h : Reachable s) : ∃ e : LineUnderEdit, Shows s e ∧
    (∀ c ≠ 23, ∃ s' returned, input c s = some (s', returned) ∧ Shows s' (keyEdit c e) ∧
      (returned = true ↔ c = 10 ∨ c = 13) ∧
      (returned = true → contents s'.commandBuffer = some (bytes e.text))) ∧
    (∃ s', shellMoveCursorLeft s = some s' ∧ Shows s' e.moveLeft) ∧
    (∃ s', shellMoveCursorRight s = some s' ∧ Shows s' e.moveRight) := by
  obtain ⟨a, ha⟩ := h.represents
  obtain ⟨s₁, hleft, hs₁⟩ := ha.moveLeft
  obtain ⟨s₂, hright, hs₂⟩ := ha.moveRight
  refine ⟨a.editor, represents_shows ha, fun c hc => ?_, ⟨s₁, hleft, represents_shows hs₁⟩,
    ⟨s₂, hright, represents_shows hs₂⟩⟩
  obtain ⟨s', hs', hrep⟩ := input_represents ha hc
  have hreturned : (c == 10 || c == 13) = true ↔ c = 10 ∨ c = 13 := by simp
  refine ⟨s', _, hs', ?_, hreturned, fun henter => ?_⟩
  · rw [← Session.typed_editor]
    exact represents_shows hrep
  · rw [hrep.command.contents, Session.typed, if_pos (hreturned.mp henter), Session.submit_command]

/-- The kernel's initial variables, before `shell_init`, and a screen of no size. -/
def boot : Shell where
  commandBuffer := Vector.replicate 256 0
  inputBuffer := Vector.replicate 256 0
  history := Vector.replicate 10 (Vector.replicate 256 0)
  historyIndex := 0
  historyCurrent := 0
  inputIndex := 0
  cursorPos := 0
  cursorBlinkCounter := 0
  cursorVisible := 0
  screen := ⟨fun _ => 0, 0, 0, 0, 0, 0⟩

/-- The shell after these calls from `boot`. -/
def shellAfter (calls : List EditorCall) : Shell :=
  ((shellInit boot).bind (runCalls calls)).get (by
    obtain ⟨s, -, hrun, -⟩ := run_represents boot calls
    rw [hrun]
    rfl)

theorem shellAfter_eq (calls : List EditorCall) :
    (shellInit boot).bind (runCalls calls) = some (shellAfter calls) := (Option.some_get _).symm

theorem shellAfter_reachable (calls : List EditorCall) : Reachable (shellAfter calls) :=
  ⟨boot, calls, shellAfter_eq calls⟩

/-- Printable characters typed at the end of a line that has room for them. -/
theorem typing_represents {t : List UInt8} (ht : ∀ c ∈ t, 32 ≤ c ∧ c ≤ 126) (h : Represents s a)
    (hright : a.editor.right = []) (hroom : a.editor.left.length + t.length ≤ 255) :
    ∃ s' a', runCalls (t.map .input) s = some s' ∧ Represents s' a' ∧
      bytes a'.editor.left = bytes a.editor.left ++ t ∧ a'.editor.right = [] := by
  induction t generalizing s a with
  | nil => exact ⟨s, a, rfl, h, (List.append_nil _).symm, hright⟩
  | cons c t ih =>
    rw [List.length_cons] at hroom
    let p : Printable := ⟨c, ht c List.mem_cons_self⟩
    obtain ⟨s₁, hs₁, hrep⟩ := input_represents h (printable_ne p (.inl (by decide)))
    have hinsert : (a.typed c).editor = Editor.insert p a.editor := by
      rw [Session.typed_editor, keyEdit_printable p]
    rw [Editor.insert, dif_pos (by rw [hright, List.length_nil]; omega)] at hinsert
    obtain ⟨s', a', hrun, hrep', hleft', hright'⟩ :=
      ih (fun d hd => ht d (List.mem_cons_of_mem _ hd)) hrep (by rw [hinsert]; exact hright)
        (by rw [hinsert, List.length_append, List.length_singleton]; omega)
    refine ⟨s', a', ?_, hrep', ?_, hright'⟩
    · rw [List.map_cons, runCalls, run_input, hs₁]
      exact hrun
    · rw [hleft', hinsert, bytes_append, List.append_assoc]
      rfl

theorem shellAfter_typed {t : List UInt8} (ht : ∀ c ∈ t, 32 ≤ c ∧ c ≤ 126) (hlen : t.length ≤ 255) :
    ∃ a, Represents (shellAfter (t.map .input)) a ∧ bytes a.editor.left = t ∧
      a.editor.right = [] := by
  obtain ⟨s₀, hinit, hs₀⟩ := shellInit_represents boot
  obtain ⟨s₁, a₁, hrun, hs₁, hleft, hright⟩ :=
    typing_represents ht hs₀ rfl (by rw [Session.start, Editor.empty, List.length_nil]; omega)
  have hafter := shellAfter_eq (t.map .input)
  rw [hinit, Option.bind_some, hrun] at hafter
  exact ⟨a₁, Option.some_inj.mp hafter ▸ hs₁, hleft, hright⟩

/-- The calls that type a line and submit it. -/
def typeLine (t : List UInt8) : List EditorCall := t.map .input ++ [.input 10]

theorem shellAfter_typeLine {t : List UInt8} (ht : ∀ c ∈ t, 32 ≤ c ∧ c ≤ 126)
    (hlen : t.length ≤ 255) : Holds (shellAfter (typeLine t)).commandBuffer t := by
  obtain ⟨a, ha, hleft, hright⟩ := shellAfter_typed ht hlen
  obtain ⟨s, hs, hrep⟩ := enter_represents ha (.inl rfl)
  have hlast : runCalls [.input 10] (shellAfter (t.map .input)) = some s := by
    rw [runCalls, run_input, hs]
    rfl
  have hafter : (shellInit boot).bind (runCalls (typeLine t)) = some s := by
    rw [← hlast, ← Option.bind_some (shellAfter _) (runCalls _), ← shellAfter_eq, Option.bind_assoc]
    exact Option.bind_congr fun s' _ => runCalls_append ..
  have htext : bytes a.submit.command.1 = t := by
    rw [Session.submit_command, Editor.text, hright, List.append_nil, hleft]
  rw [shellAfter_eq] at hafter
  rw [Option.some_inj.mp hafter, ← htext]
  exact hrep.command

/-- After `ab` and one step left the two lists are `a` and `b`. -/
theorem line_editor_refines_ab : ∃ e : LineUnderEdit,
    Shows (shellAfter [.input 97, .input 98, .moveCursorLeft]) e ∧
      (∀ c ≠ 23, ∃ s' returned,
        input c (shellAfter [.input 97, .input 98, .moveCursorLeft]) = some (s', returned) ∧
          Shows s' (keyEdit c e) ∧ (returned = true ↔ c = 10 ∨ c = 13) ∧
          (returned = true → contents s'.commandBuffer = some (bytes e.text))) ∧
      (∃ s', shellMoveCursorLeft (shellAfter [.input 97, .input 98, .moveCursorLeft]) = some s' ∧
        Shows s' e.moveLeft) ∧
      (∃ s', shellMoveCursorRight (shellAfter [.input 97, .input 98, .moveCursorLeft]) = some s' ∧
        Shows s' e.moveRight) :=
  line_editor_refines (shellAfter_reachable [.input 97, .input 98, .moveCursorLeft])

end BinOs.LineEditorRuns
