import BinOs.ConsoleCalls
import BinOs.LineEditorRuns
import BinOs.RingBuffer

/-! # What the history holds

The ring of ten slots holds the last lines submitted, without the empty ones and
without immediate repetitions. -/
namespace BinOs.HistoryContents
open CheckedBuffers MemoryStrings FramebufferDrawing ShellConsole LineEditor ShellCommands
open ZipperEditor ShellSession LineEditorRefinement LineEditorRuns RingBuffer ConsoleLayout ConsoleCalls

/-- The line that stands in the input buffer at each Enter. -/
def submitted : List EditorCall → Shell → List (List UInt8)
  | [], _ => []
  | call :: calls, s =>
    (if Enters call then [stringIn s.inputBuffer] else []) ++ (call.run s).elim [] (submitted calls)

theorem submitted_append (calls calls' : List EditorCall) {s s' : Shell}
    (h : runCalls calls s = some s') :
    submitted (calls ++ calls') s = submitted calls s ++ submitted calls' s' := by
  induction calls generalizing s with
  | nil =>
    cases h
    rfl
  | cons call calls ih =>
    obtain ⟨s₁, hs₁, hrest⟩ := Option.bind_eq_some_iff.mp h
    rw [List.cons_append, submitted, submitted, hs₁, Option.elim_some, Option.elim_some, ih hrest,
      List.append_assoc]

/-- Without the empty lines, and each run of equal lines collapsed to one. -/
def recorded (lines : List (List UInt8)) : List (List UInt8) :=
  (lines.filter (· ≠ [])).destutter (· ≠ ·)

theorem recorded_concat (lines : List (List UInt8)) (t : List UInt8) : recorded (lines ++ [t]) =
    if t = [] ∨ (recorded lines).getLast? = some t then recorded lines
    else recorded lines ++ [t] := by
  rw [recorded, List.filter_append, List.filter_singleton]
  by_cases ht : t = []
  · rw [if_pos (.inl ht), decide_eq_false (not_not_intro ht), recorded]
    simp
  · rw [decide_eq_true ht, cond_true, destutter_concat, ← recorded]
    simp only [ht, false_or]

theorem ne_nil_of_mem_recorded {lines : List (List UInt8)} {t : List UInt8}
    (h : t ∈ recorded lines) : t ≠ [] := by
  have hmem := (List.destutter_sublist _ _).mem h
  exact of_decide_eq_true (List.mem_filter.mp hmem).2

def ring (a : Session) : Ring Line 10 := ⟨a.history, a.historyIndex⟩

/-- The ring holds these lines, the newest of them last. -/
def Remembers (a : Session) (h : List (List UInt8)) : Prop :=
  ∃ xs : List Line, Ring.Holds emptyLine (ring a) xs ∧ xs.map (fun t => bytes t.1) = h.reverse

variable {s : Shell} {a : Session}

theorem remembers_start : Remembers Session.start (recorded []) := ⟨[], Ring.holds_blank emptyLine 0, rfl⟩

theorem line_injective : Function.Injective fun t : Line => bytes t.1 :=
  bytes_injective.comp Subtype.val_injective

theorem Remembers.remember {h : List (List UInt8)} (ha : Remembers a h) (t : Line) :
    Remembers (a.remember t)
      (if bytes t.1 = [] ∨ h.getLast? = some (bytes t.1) then h else h ++ [bytes t.1]) := by
  obtain ⟨xs, hholds, hxs⟩ := ha
  have hnil : bytes t.1 = [] ↔ t.1 = [] := List.map_eq_nil_iff
  rw [Session.remember]
  by_cases ht : t.1 = []
  · rw [if_pos ht, if_pos (.inl (hnil.mpr ht))]
    exact ⟨xs, hholds, hxs⟩
  have hlast : h.getLast? = xs.head?.map fun t => bytes t.1 := by
    rw [← List.head?_reverse, ← hxs, List.head?_map]
  have hnewest : a.history (a.historyIndex - 1) = xs.headD emptyLine := hholds.newest
  have hsame : a.history (a.historyIndex - 1) = t ↔ h.getLast? = some (bytes t.1) := by
    rw [hnewest, hlast]
    cases xs with
    | nil => exact ⟨fun heq => absurd (congrArg Subtype.val heq.symm) ht, fun heq => by cases heq⟩
    | cons x xs => exact line_injective.eq_iff.symm.trans (Option.some_inj (a := bytes x.1)).symm
  rw [if_neg ht]
  by_cases heq : a.history (a.historyIndex - 1) = t
  · rw [if_pos heq, if_pos (.inr (hsame.mp heq))]
    exact ⟨xs, hholds, hxs⟩
  · rw [if_neg heq, if_neg (not_or.mpr ⟨mt hnil.mp ht, mt hsame.mpr heq⟩)]
    exact ⟨t :: xs, hholds.push t, by rw [List.map_cons, hxs, List.reverse_concat]⟩

theorem ring_remember (t u : Line) (a : Session) :
    ring (Session.remember t { a with command := u }) = ring (a.remember t) := by
  rw [Session.remember, Session.remember]
  split
  · rfl
  split
  · rfl
  · rfl

theorem Remembers.submit {lines : List (List UInt8)} (ha : Remembers a (recorded lines)) :
    Remembers a.submit (recorded (lines ++ [bytes a.editor.text])) := by
  have hring : ring a.submit = ring (a.remember ⟨a.editor.text, a.editor.length_text_le⟩) :=
    ring_remember _ _ a
  have hnext := ha.remember ⟨a.editor.text, a.editor.length_text_le⟩
  rw [Remembers, ← hring, ← recorded_concat] at hnext
  exact hnext

/-- Only Enter changes the ring. -/
theorem call_ring (h : Represents s a) {call : EditorCall} (hcall : ¬ Enters call) :
    ∃ s' a', call.run s = some s' ∧ Represents s' a' ∧ ring a' = ring a := by
  obtain ⟨s', a', hrun, hrep, hhistory, hindex⟩ := call_keeps_history h hcall
  exact ⟨s', a', hrun, hrep, by rw [ring, hhistory, hindex]; rfl⟩

/-- The ring follows the lines submitted, from any record of earlier ones. -/
theorem calls_remember (h : Represents s a) {lines : List (List UInt8)}
    (ha : Remembers a (recorded lines)) (calls : List EditorCall) :
    ∃ s' a', runCalls calls s = some s' ∧ Represents s' a' ∧
      Remembers a' (recorded (lines ++ submitted calls s)) := by
  induction calls generalizing s a lines with
  | nil => exact ⟨s, a, rfl, h, by rwa [submitted, List.append_nil]⟩
  | cons call calls ih =>
    by_cases hcall : Enters call
    · cases call with
      | input c =>
        obtain ⟨s₁, hs₁, hrep⟩ := enter_represents h hcall
        have hrun : (EditorCall.input c).run s = some s₁ := by rw [run_input, hs₁]; rfl
        obtain ⟨s', a', hcalls, hrep', ha'⟩ := ih hrep ha.submit
        refine ⟨s', a', by rw [runCalls, hrun, Option.bind_some, hcalls], hrep', ?_⟩
        rw [submitted, if_pos hcall, hrun, Option.elim_some, stringIn_eq h.line, ← List.append_assoc]
        exact ha'
      | _ => exact hcall.elim
    · obtain ⟨s₁, a₁, hrun, hrep, hring⟩ := call_ring h hcall
      have ha₁ : Remembers a₁ (recorded lines) := by rwa [Remembers, hring]
      obtain ⟨s', a', hcalls, hrep', ha'⟩ := ih hrep ha₁
      refine ⟨s', a', by rw [runCalls, hrun, Option.bind_some, hcalls], hrep', ?_⟩
      rw [submitted, if_neg hcall, hrun, Option.elim_some, List.nil_append]
      exact ha'

theorem run_remembers (boot : Shell) (calls : List EditorCall) :
    ∃ s₀ s a, shellInit boot = some s₀ ∧ runCalls calls s₀ = some s ∧ Represents s a ∧
      Remembers a (recorded (submitted calls s₀)) := by
  obtain ⟨s₀, hinit, hrep⟩ := shellInit_represents boot
  obtain ⟨s, a, hrun, hrep', ha⟩ := calls_remember hrep remembers_start calls
  exact ⟨s₀, s, a, hinit, hrun, hrep', ha⟩

/-- The newest ten lines, oldest first. -/
def kept (h : List (List UInt8)) : List (List UInt8) := h.drop (h.length - 10)

theorem kept_eq {lines : List (List UInt8)} {xs : List Line}
    (hxs : xs.map (fun t => bytes t.1) = lines.reverse) :
    kept lines = (xs.take 10).reverse.map fun t => bytes t.1 := by
  rw [List.map_reverse, List.map_take, hxs, List.take_reverse, List.reverse_reverse]
  rfl

end BinOs.HistoryContents
