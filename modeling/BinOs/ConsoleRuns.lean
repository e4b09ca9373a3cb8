import BinOs.ConsoleInput

/-! # The console through every run

Whatever is typed after `shell_init`, no printed character leaves the screen, a prompt
starts its line, and a new line is one line further or one scroll. -/
namespace BinOs.ConsoleRuns
open CheckedBuffers MemoryStrings FramebufferDrawing ShellConsole LineEditor ShellCommands Keyboard
open ShellSession LineEditorRefinement LineEditorRuns KeyboardRuns ConsoleLayout ConsoleCalls
open ConsoleInput

/-- Whether the cursor is known to be at the start of a line after a call. -/
def homeAfter (home : Bool) : ConsoleCall → Bool
  | .print text _ => if text = [] then home else text.getLast? == some 10
  | .newline => true
  | .prompt => false
  | .clear => true

def PromptsAtHome : Bool → List ConsoleCall → Prop
  | _, [] => True
  | home, call :: calls => (call = .prompt → home = true) ∧ PromptsAtHome (homeAfter home call) calls

/-- No prompt, and in the end the cursor is at the start of a line. -/
structure Returns (calls : List ConsoleCall) : Prop where
  noPrompt : .prompt ∉ calls
  home : ∀ home, calls.foldl homeAfter home = true

theorem promptsAtHome_append {home : Bool} {calls calls' : List ConsoleCall} :
    PromptsAtHome home (calls ++ calls') ↔
      PromptsAtHome home calls ∧ PromptsAtHome (calls.foldl homeAfter home) calls' := by
  induction calls generalizing home with
  | nil => exact (and_iff_right trivial).symm
  | cons call calls ih =>
    rw [List.cons_append, PromptsAtHome, PromptsAtHome, ih, List.foldl_cons, and_assoc]

theorem promptsAtHome_of_noPrompt {home : Bool} {calls : List ConsoleCall}
    (h : .prompt ∉ calls) : PromptsAtHome home calls := by
  induction calls generalizing home with
  | nil => trivial
  | cons call calls ih =>
    obtain ⟨hne, hrest⟩ := not_or.mp (mt List.mem_cons.mpr h)
    exact ⟨fun hcall => absurd hcall.symm hne, ih hrest⟩

theorem Returns.prompt {calls : List ConsoleCall} (h : Returns calls) (home : Bool) :
    PromptsAtHome home (calls ++ [.prompt]) :=
  promptsAtHome_append.mpr ⟨promptsAtHome_of_noPrompt h.noPrompt, fun _ => h.home home, trivial⟩

variable {s : Shell} {argc : ℤ} {args : Args}

/-- A keyboard interrupt, a character typed at the shell, with the command that it may
complete, or a call of the editor on its own. -/
inductive ConsoleStep
  | interrupt (status data : UInt8)
  | typeChar (c : UInt8)
  | alone (call : EditorCall) (h : Alone call)

def ConsoleStep.run : ConsoleStep → Driver → Option Driver
  | .interrupt status data => keyboardHandler status data
  | .typeChar c => Keyboard.typeChar c
  | .alone call _ => onShell call.run

def ConsoleStep.calls : ConsoleStep → Driver → List ConsoleCall
  | .interrupt status data => interruptCalls status data
  | .typeChar c => fun k => typeCharCalls c k.shell
  | .alone call _ => fun _ => callCalls call

variable {k : Driver} {a : Session}

/-- A screen whose sides are no multiples of a cell's. -/
def smallBoot : Driver :=
  ⟨⟨false, false, false, false, false⟩, { boot with screen := ⟨fun _ => 0, 27, 40, 27, 9, 9⟩ }, [], []⟩

end BinOs.ConsoleRuns
