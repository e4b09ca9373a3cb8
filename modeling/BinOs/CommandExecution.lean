import BinOs.ConsoleCalls

/-! # Commands draw and nothing else

Whatever a command prints, it leaves the line, the history and their indices alone;
`parse_command` clears the command buffer, except after `exit`. -/
namespace BinOs.CommandExecution
open CheckedBuffers FramebufferDrawing ShellConsole LineEditor ShellCommands CommandWords
open ShellSession LineEditorRefinement ConsoleCalls

def OnlyDraws (s s' : Shell) : Prop := ∃ screen, s' = { s with screen }

variable {s s' : Shell} {a : Session} {args : Args} {words : List (List UInt8)}

theorem OnlyDraws.represents (h : OnlyDraws s s') (hs : Represents s a) : Represents s' a := by
  obtain ⟨screen, rfl⟩ := h
  exact hs.onScreen fun _ => screen

theorem after_draws (calls : List ConsoleCall) (s : Shell) : OnlyDraws s (after calls s) := ⟨_, rfl⟩

theorem promptAgain_represents (h : Represents s a) :
    ∃ s', promptAgain s = some s' ∧ Represents s' a := (h.onScreen _).draw

/-- Running a command leaves the session as it was, up to the command buffer. -/
theorem parseCommand_represents (h : Represents s a) :
    ∃ s' line, parseCommand s = some s' ∧ Represents s' { a with command := line } := by
  rcases parseCommand_cases h with ⟨hrun, -⟩ | ⟨calls, hrun, -⟩ | ⟨calls, b, hb, hrun, -⟩
  · obtain ⟨s', hs', hrep⟩ := promptAgain_represents h
    exact ⟨s', a.command, hrun.trans hs', hrep⟩
  · exact ⟨_, a.command, hrun, (after_draws calls s).represents h⟩
  · have hs := (after_draws calls s).represents h
    have hcleared : Represents { after calls s with commandBuffer := b }
        { a with command := emptyLine } :=
      ⟨hs.line, hs.cursor, hs.index, hb, hs.history, hs.historyIndex, hs.historyCurrent⟩
    obtain ⟨s', hs', hrep⟩ := promptAgain_represents hcleared
    exact ⟨s', emptyLine, hrun.trans hs', hrep⟩

end BinOs.CommandExecution
