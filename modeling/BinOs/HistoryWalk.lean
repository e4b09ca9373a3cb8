import BinOs.HistoryContents
import Mathlib.Data.List.GetD

/-! # Walking through the history

A walk up and down is at a depth below the fresh line. The shell keeps the depth only
as an index of the ring, which tells depth 0 from depth 10 by what it shows last. -/
namespace BinOs.HistoryWalk
open CheckedBuffers LineEditor ZipperEditor ShellSession LineEditorRefinement LineEditorRuns
open RingBuffer ConsoleCalls CommandExecution HistoryContents

inductive Move | up | down

def Move.call : Move → EditorCall
  | .up => .historyUp
  | .down => .historyDown

/-- The depth after a move among `entries` lines. -/
def nextDepth (entries d : ℕ) : Move → ℕ
  | .up => min (d + 1) entries
  | .down => d - 1

def depth (entries : ℕ) (moves : List Move) : ℕ := moves.foldl (nextDepth entries) 0

/-- No step up from the tenth entry, and none down from the fresh line unless there is
no entry at all. -/
def Allowed (entries d : ℕ) : Move → Prop
  | .up => d < 10
  | .down => entries = 0 ∨ 0 < d

def AllAllowed (entries : ℕ) : ℕ → List Move → Prop
  | _, [] => True
  | d, move :: moves => Allowed entries d move ∧ AllAllowed entries (nextDepth entries d move) moves

/-- The line at depth `d`, of the entries newest first. -/
def lineAt (xs : List Line) : ℕ → Line
  | 0 => emptyLine
  | d + 1 => xs.getD d emptyLine

/-- The editor with this line in it and the cursor behind the line. -/
def loaded (t : Line) : LineUnderEdit := Editor.load t.1 t.2

/-- The line at this depth is shown, the cursor is behind it, and the ring index is as
many slots back. -/
structure InStep (xs : List Line) (d : ℕ) (a : Session) : Prop where
  holds : Ring.Holds emptyLine (ring a) xs
  depth_le : d ≤ min xs.length 10
  shown : a.editor = loaded (lineAt xs d)
  position : xs = [] ∨ a.historyCurrent = (ring a).ago d

def moved : Move → Session → Session
  | .up => Session.historyUp
  | .down => Session.historyDown

variable {xs : List Line} {d : ℕ} {a : Session}

theorem getD_nil_iff (hne : ∀ t ∈ xs, t.1 ≠ []) : (xs.getD d emptyLine).1 = [] ↔ xs.length ≤ d := by
  constructor
  · intro h
    by_contra hlt
    rw [List.getD_eq_getElem _ _ (by omega)] at h
    exact hne _ (List.getElem_mem _) h
  · intro h
    rw [List.getD_eq_default _ _ h]
    rfl

/-- Showing the slot that is `d + 1` back. -/
theorem InStep.show (h : Ring.Holds emptyLine (ring a) xs) {i : Fin 10}
    (hi : i = (ring a).ago (d + 1)) (hd : d < 10) (hlen : d < xs.length) :
    InStep xs (d + 1) (a.showEntry i) where
  holds := h
  depth_le := by omega
  shown := by
    have hslot : a.history i = xs.getD d emptyLine := by
      rw [hi]
      exact h d hd
    exact congrArg loaded hslot
  position := .inr hi

/-- A ring without entries shows empty lines only. -/
theorem blank_slot (h : Ring.Holds emptyLine (ring a) []) (i : Fin 10) :
    a.history i = emptyLine := by
  obtain ⟨d, hd, rfl⟩ := (ring a).exists_ago i
  exact h d hd

theorem historyUp_nil (h : InStep [] d a) : InStep [] 0 a.historyUp := by
  have hd : d = 0 := Nat.le_zero.mp h.depth_le
  subst hd
  have hslot : (a.history (a.historyCurrent - 1)).1 = [] := by
    rw [blank_slot h.holds]
    rfl
  rw [Session.historyUp, if_pos hslot]
  exact h

theorem historyDown_nil (h : Ring.Holds emptyLine (ring a) []) : InStep [] 0 a.historyDown := by
  rw [Session.historyDown]
  split
  · exact ⟨h, Nat.zero_le _, rfl, .inl rfl⟩
  · exact ⟨h, Nat.zero_le _, congrArg loaded (blank_slot h (a.historyCurrent + 1)), .inl rfl⟩

theorem historyUp_inStep (hne : ∀ t ∈ xs, t.1 ≠ []) (hxs : xs ≠ []) (h : InStep xs d a) :
    InStep xs (nextDepth (min xs.length 10) d .up) a.historyUp ↔ d < 10 := by
  have hdepth := h.depth_le
  have hcurrent := h.position.resolve_left hxs
  have hback : a.historyCurrent - 1 = (ring a).ago (d + 1) := by
    rw [hcurrent]
    rfl
  constructor
  · intro hup
    by_contra hfull
    -- the eleventh slot back is the newest entry's
    have hten : d = 10 := by omega
    subst hten
    have hround : (ring a).ago 11 = (ring a).ago 1 := ((ring a).ago_eq_ago_iff 11 1).mpr rfl
    have hslot : a.history (a.historyCurrent - 1) = xs.getD 0 emptyLine := by
      rw [hback, hround]
      exact h.holds 0 (by decide)
    have hnonempty : (a.history (a.historyCurrent - 1)).1 ≠ [] := by
      rw [hslot, Ne, getD_nil_iff hne]
      omega
    have hposition := hup.position.resolve_left hxs
    rw [Session.historyUp, if_neg hnonempty, hback] at hposition
    have hnext : nextDepth (min xs.length 10) 10 .up = 10 := by
      rw [nextDepth]
      omega
    rw [hnext] at hposition
    have hmod : 11 ≡ 10 [MOD 10] := ((ring a).ago_eq_ago_iff 11 10).mp hposition
    exact absurd hmod (by decide)
  · intro hd
    have hslot : a.history (a.historyCurrent - 1) = xs.getD d emptyLine := by
      rw [hback]
      exact h.holds d hd
    have hblank : (a.history (a.historyCurrent - 1)).1 = [] ↔ xs.length ≤ d := by
      rw [hslot, getD_nil_iff hne]
    rw [Session.historyUp, nextDepth]
    by_cases hend : xs.length ≤ d
    · have hstay : min (d + 1) (min xs.length 10) = d := by omega
      rw [if_pos (hblank.mpr hend), hstay]
      exact h
    · have hfurther : min (d + 1) (min xs.length 10) = d + 1 := by omega
      rw [if_neg (mt hblank.mp hend), hfurther]
      exact InStep.show h.holds hback hd (by omega)

theorem historyDown_inStep (hxs : xs ≠ []) (h : InStep xs d a) :
    InStep xs (nextDepth (min xs.length 10) d .down) a.historyDown ↔ 0 < d := by
  have hdepth := h.depth_le
  have hcurrent := h.position.resolve_left hxs
  constructor
  · intro hdown
    by_contra hzero
    have hfresh : d = 0 := by omega
    subst hfresh
    have hnext : a.historyCurrent + 1 ≠ a.historyIndex := by
      rw [hcurrent]
      intro hstep
      have hone : (a.historyIndex + 1 : Fin 10) = a.historyIndex := hstep
      exact absurd (left_eq_add.mp hone.symm) (by decide)
    have hposition := hdown.position.resolve_left hxs
    rw [Session.historyDown, if_neg hnext] at hposition
    exact hnext hposition
  · intro hpos
    obtain ⟨e, rfl⟩ : ∃ e, d = e + 1 := ⟨d - 1, by omega⟩
    have hnext : a.historyCurrent + 1 = (ring a).ago e := by
      rw [hcurrent]
      exact sub_add_cancel ((ring a).ago e) 1
    rw [Session.historyDown]
    by_cases hlast : a.historyCurrent + 1 = a.historyIndex
    · have hmod : e ≡ 0 [MOD 10] := ((ring a).ago_eq_ago_iff e 0).mp (hnext.symm.trans hlast)
      have hzero : e = 0 := by
        rw [Nat.ModEq] at hmod
        omega
      subst hzero
      rw [if_pos hlast]
      exact ⟨h.holds, Nat.zero_le _, rfl, .inr rfl⟩
    · cases e with
      | zero => exact absurd hnext hlast
      | succ e =>
        rw [if_neg hlast]
        exact InStep.show h.holds hnext (by omega) (by omega)

/-- A move keeps in step exactly if it is allowed. -/
theorem move_inStep_iff (hne : ∀ t ∈ xs, t.1 ≠ []) (h : InStep xs d a) (move : Move) :
    InStep xs (nextDepth (min xs.length 10) d move) (moved move a) ↔
      Allowed (min xs.length 10) d move := by
  by_cases hxs : xs = []
  · subst hxs
    have hd : d = 0 := Nat.le_zero.mp h.depth_le
    subst hd
    cases move with
    | up => exact ⟨fun _ => (by decide : 0 < 10), fun _ => historyUp_nil h⟩
    | down => exact ⟨fun _ => .inl rfl, fun _ => historyDown_nil h.holds⟩
  · have hpos : min xs.length 10 ≠ 0 := by
      have := List.length_pos_iff.mpr hxs
      omega
    cases move with
    | up => exact historyUp_inStep hne hxs h
    | down => exact (historyDown_inStep hxs h).trans (or_iff_right hpos).symm

variable {s : Shell}

def walk (moves : List Move) (a : Session) : Session := moves.foldl (fun a move => moved move a) a

/-- The walk is in step all the way exactly if every move is allowed where it is made. -/
theorem walk_inStep_iff (hne : ∀ t ∈ xs, t.1 ≠ []) (h : InStep xs d a) (moves : List Move) :
    (∀ front, front <+: moves →
      InStep xs (front.foldl (nextDepth (min xs.length 10)) d) (walk front a)) ↔
        AllAllowed (min xs.length 10) d moves := by
  induction moves generalizing d a with
  | nil =>
    refine ⟨fun _ => trivial, fun _ front hfront => ?_⟩
    rw [List.prefix_nil.mp hfront]
    exact h
  | cons move moves ih =>
    constructor
    · intro hall
      have hstep := hall [move] (List.prefix_append [move] moves)
      refine ⟨(move_inStep_iff hne h move).mp hstep, (ih hstep).mp fun front hfront => ?_⟩
      exact hall (move :: front) ((List.prefix_cons_inj move).mpr hfront)
    · rintro ⟨hmove, hrest⟩ front hfront
      cases front with
      | nil => exact h
      | cons other front =>
        obtain ⟨rfl, hfront'⟩ := List.cons_prefix_cons.mp hfront
        exact (ih ((move_inStep_iff hne h other).mpr hmove)).mpr hrest front hfront'

theorem move_represents (h : Represents s a) (move : Move) :
    ∃ s', move.call.run s = some s' ∧ Represents s' (moved move a) := by
  cases move with
  | up => exact h.historyUp
  | down => exact h.historyDown

theorem walk_represents (h : Represents s a) (moves : List Move) :
    ∃ s', runCalls (moves.map Move.call) s = some s' ∧ Represents s' (walk moves a) := by
  induction moves generalizing s a with
  | nil => exact ⟨s, rfl, h⟩
  | cons move moves ih =>
    obtain ⟨s₁, hrun, hs₁⟩ := move_represents h move
    obtain ⟨s', hruns, hs'⟩ := ih hs₁
    exact ⟨s', by rw [List.map_cons, runCalls, hrun, Option.bind_some, hruns], hs'⟩

/-- The command of a submitted line, and what is drawn: no edit. -/
def Idle : EditorCall → Prop
  | .parseCommand | .updateCursor | .draw _ => True
  | _ => False

theorem idle_call_represents (h : Represents s a) {call : EditorCall} (hcall : Idle call) :
    ∃ s' line, call.run s = some s' ∧ Represents s' { a with command := line } := by
  cases call with
  | parseCommand => exact parseCommand_represents h
  | updateCursor =>
    obtain ⟨s', hs', hrep⟩ := updateCursor_represents h
    exact ⟨s', a.command, hs', hrep⟩
  | draw screen => exact ⟨_, a.command, rfl, h.onScreen fun _ => screen⟩
  | _ => exact hcall.elim

theorem idle_represents (h : Represents s a) {idle : List EditorCall}
    (hidle : ∀ call ∈ idle, Idle call) :
    ∃ s' line, runCalls idle s = some s' ∧ Represents s' { a with command := line } := by
  induction idle generalizing s a with
  | nil => exact ⟨s, a.command, rfl, h⟩
  | cons call idle ih =>
    obtain ⟨s₁, line₁, hcall, hs₁⟩ := idle_call_represents h (hidle call List.mem_cons_self)
    obtain ⟨s', line, hrun, hs'⟩ := ih hs₁ fun call' h' => hidle call' (List.mem_cons_of_mem _ h')
    exact ⟨s', line, by rw [runCalls, hcall, Option.bind_some, hrun], hs'⟩

/-- The lines in the history after these calls, oldest first. -/
def historyAfter (calls : List EditorCall) (s₀ : Shell) : List (List UInt8) :=
  kept (recorded (submitted calls s₀))

/-- The `d`-th most recent of these lines, or the fresh line. -/
def entryAt (h : List (List UInt8)) : ℕ → List UInt8
  | 0 => []
  | d + 1 => h.reverse.getD d []

/-- The line at this depth stands in the input buffer, with the cursor at its end. -/
def ShowsDepth (h : List (List UInt8)) (d : ℕ) (s : Shell) : Prop :=
  stringIn s.inputBuffer = entryAt h d ∧ s.inputIndex = (entryAt h d).length ∧
    s.cursorPos = (entryAt h d).length

theorem entryAt_eq {lines : List (List UInt8)}
    (hxs : xs.map (fun t => bytes t.1) = lines.reverse) (hd : d ≤ min xs.length 10) :
    entryAt (kept lines) d = bytes (lineAt xs d).1 := by
  cases d with
  | zero => rfl
  | succ d =>
    have hlt : d < (xs.take 10).length := by
      rw [List.length_take]
      omega
    have hlt' : d < xs.length := by omega
    rw [entryAt, kept_eq hxs, ← List.map_reverse, List.reverse_reverse, lineAt,
      List.getD_eq_getElem _ _ (by rwa [List.length_map]), List.getElem_map, List.getElem_take,
      List.getD_eq_getElem _ _ hlt']

theorem InStep.showsDepth (hs : Represents s a) (h : InStep xs d a) {lines : List (List UInt8)}
    (hxs : xs.map (fun t => bytes t.1) = lines.reverse) : ShowsDepth (kept lines) d s := by
  have htext : a.editor.text = (lineAt xs d).1 := by
    rw [h.shown]
    exact Editor.text_load _ _
  have hleft : a.editor.left = (lineAt xs d).1 := by
    rw [h.shown]
    rfl
  rw [ShowsDepth, entryAt_eq hxs h.depth_le, length_bytes]
  exact ⟨by rw [stringIn_eq hs.line, htext], by rw [hs.index, htext], by rw [hs.cursor, hleft]⟩

theorem recorded_ne_nil {lines : List (List UInt8)}
    (hxs : xs.map (fun t => bytes t.1) = (recorded lines).reverse) : ∀ t ∈ xs, t.1 ≠ [] := by
  intro t ht hnil
  have hmem : bytes t.1 ∈ (recorded lines).reverse := hxs ▸ List.mem_map_of_mem ht
  exact ne_nil_of_mem_recorded (List.mem_reverse.mp hmem) (by rw [hnil]; rfl)

/-- Enter submits the line that stands in the editor. -/
theorem submitted_enter (h : Represents s a) {c : UInt8} (hc : c = 10 ∨ c = 13)
    {calls : List EditorCall} {s₀ : Shell} (hrun : runCalls calls s₀ = some s) :
    submitted (calls ++ [.input c]) s₀ = submitted calls s₀ ++ [bytes a.editor.text] := by
  have hcall : Enters (.input c) := hc
  obtain ⟨s', hs', -⟩ := enter_represents h hc
  rw [submitted_append calls _ hrun, submitted, if_pos hcall, run_input, hs', stringIn_eq h.line]
  rfl

/-- The fresh line behind Enter is in step unless an empty line was submitted in the
middle of an earlier walk. -/
theorem submit_inStep (h : Ring.Holds emptyLine (ring a.submit) xs) (line : Line)
    (hstart : xs = [] ∨ a.submit.historyCurrent = a.submit.historyIndex) :
    InStep xs 0 { a.submit with command := line } :=
  ⟨h, Nat.zero_le _, rfl, hstart⟩

/-- After any run that ends with Enter and perhaps the command of the line, and with the
position at the write index or no entry, every sequence of allowed moves shows the line
at its depth. -/
theorem history_walk {c : UInt8} (hc : c = 10 ∨ c = 13) {idle : List EditorCall}
    (hidle : ∀ call ∈ idle, Idle call) (boot : Shell) (calls : List EditorCall)
    (moves : List Move) :
    ∃ s₀ s, shellInit boot = some s₀ ∧ runCalls (calls ++ [.input c] ++ idle) s₀ = some s ∧
      (historyAfter (calls ++ [.input c]) s₀ = [] ∨ s.historyCurrent = s.historyIndex →
        AllAllowed (historyAfter (calls ++ [.input c]) s₀).length 0 moves →
          ∃ s', runCalls (moves.map Move.call) s = some s' ∧
            ShowsDepth (historyAfter (calls ++ [.input c]) s₀)
              (depth (historyAfter (calls ++ [.input c]) s₀).length moves) s') := by
  obtain ⟨s₀, s₁, a, hinit, hrun, hs₁, ha⟩ := run_remembers boot calls
  obtain ⟨s₂, hs₂, hrep₂⟩ := enter_represents hs₁ hc
  obtain ⟨s, line, hidles, hrep⟩ := idle_represents hrep₂ hidle
  have henter : runCalls [.input c] s₁ = some s₂ := by
    rw [runCalls, run_input, hs₂]
    rfl
  obtain ⟨xs, hholds, hxs⟩ := ha.submit
  rw [← submitted_enter hs₁ hc hrun] at hxs
  have hkept := kept_eq hxs
  have hlength : (historyAfter (calls ++ [.input c]) s₀).length = min xs.length 10 := by
    rw [historyAfter, hkept, List.length_map, List.length_reverse, List.length_take, Nat.min_comm]
  have hwhole : runCalls (calls ++ [.input c] ++ idle) s₀ = some s := by
    rw [runCalls_append, runCalls_append, hrun, Option.bind_some, henter, Option.bind_some, hidles]
  refine ⟨s₀, s, hinit, hwhole, ?_⟩
  intro hstart hall
  have hposition : xs = [] ∨ a.submit.historyCurrent = a.submit.historyIndex := by
    rcases hstart with hnone | hindex
    · left
      rw [← List.length_eq_zero_iff, hlength] at hnone
      exact List.length_eq_zero_iff.mp (by omega)
    · right
      rw [hrep.historyCurrent, hrep.historyIndex] at hindex
      exact Fin.ext (Int.ofNat_inj.mp hindex)
  rw [hlength] at hall
  obtain ⟨s', hruns, hs'⟩ := walk_represents hrep moves
  have hstep := (walk_inStep_iff (recorded_ne_nil hxs) (submit_inStep hholds line hposition)
    moves).mpr hall moves List.prefix_rfl
  rw [hlength]
  exact ⟨s', hruns, hstep.showsDepth hs' hxs⟩

/-- The line `a` and Enter, in a new shell. -/
def lineA : List EditorCall := [.input 97] ++ [.input 10]

theorem lineA_run {s₀ s : Shell} (h : Represents s₀ Session.start)
    (hrun : runCalls lineA s₀ = some s) :
    Represents s ((Session.start.typed 97).typed 10) ∧ historyAfter lineA s₀ = [[97]] := by
  obtain ⟨s₁, hs₁, hrep₁⟩ := input_represents h (by decide : (97 : UInt8) ≠ 23)
  obtain ⟨s₂, hs₂, hrep₂⟩ := input_represents hrep₁ (by decide : (10 : UInt8) ≠ 23)
  have hrun₁ : (EditorCall.input 97).run s₀ = some s₁ := by rw [run_input, hs₁]; rfl
  have hrun₂ : (EditorCall.input 10).run s₁ = some s₂ := by rw [run_input, hs₂]; rfl
  have hsame : some s₂ = some s := by
    rw [← hrun, lineA, List.singleton_append, runCalls, hrun₁, Option.bind_some, runCalls, hrun₂,
      Option.bind_some, runCalls]
  have hlines : submitted lineA s₀ = [[97]] := by
    rw [lineA, submitted_append [.input 97] _ (by rw [runCalls, hrun₁]; rfl), submitted, submitted,
      hrun₁, stringIn_eq hrep₁.line, hrun₂]
    rfl
  exact ⟨Option.some_inj.mp hsame ▸ hrep₂, by rw [historyAfter, hlines]; rfl⟩

/-- Up twice and down once behind the only line and its command: the fresh line again. -/
theorem history_walk_back : ∃ s₀ s s', shellInit boot = some s₀ ∧
    runCalls (lineA ++ [.parseCommand]) s₀ = some s ∧
      runCalls ([Move.up, .up, .down].map Move.call) s = some s' ∧ ShowsDepth [[97]] 0 s' := by
  have henter : (10 : UInt8) = 10 ∨ (10 : UInt8) = 13 := .inl rfl
  have hidle : ∀ call ∈ [EditorCall.parseCommand], Idle call :=
    List.forall_mem_singleton.mpr trivial
  obtain ⟨s₀, s, hinit, hrun, hwalk⟩ :=
    history_walk henter hidle boot [.input 97] [.up, .up, .down]
  obtain ⟨s₀', hinit', hs₀⟩ := shellInit_represents boot
  rw [hinit] at hinit'
  cases hinit'
  have hwhole := hrun
  rw [runCalls_append] at hwhole
  obtain ⟨s₁, hlineA, hcommand⟩ := Option.bind_eq_some_iff.mp hwhole
  obtain ⟨hs₁, hlines⟩ := lineA_run hs₀ hlineA
  obtain ⟨s₂, line, hcommand', hs⟩ := idle_represents hs₁ hidle
  rw [hcommand] at hcommand'
  cases hcommand'
  have hindex : s.historyCurrent = s.historyIndex := by
    rw [hs.historyCurrent, hs.historyIndex]
    rfl
  have hlines' : historyAfter ([.input 97] ++ [.input 10]) s₀ = [[97]] := hlines
  rw [hlines'] at hwalk
  obtain ⟨s', hmoves, hshows⟩ := hwalk (.inr hindex)
    ⟨(by decide : 0 < 10), (by decide : 1 < 10), .inr (by decide), trivial⟩
  exact ⟨s₀, s, s', hinit, hrun, hmoves, hshows⟩

/-- Down on the fresh line and up again: the depth is one and the line is still empty. -/
theorem down_on_fresh_line_loses_the_way : ∃ s₀ s s', shellInit boot = some s₀ ∧
    runCalls lineA s₀ = some s ∧ historyAfter lineA s₀ = [[97]] ∧
      runCalls ([Move.down, .up].map Move.call) s = some s' ∧ depth 1 [.down, .up] = 1 ∧
        stringIn s'.inputBuffer = [] ∧ ¬ ShowsDepth [[97]] 1 s' := by
  obtain ⟨s₀, hinit, hs₀⟩ := shellInit_represents boot
  obtain ⟨s, -, hrun, -⟩ := calls_represents hs₀ lineA
  obtain ⟨hs, hlines⟩ := lineA_run hs₀ hrun
  obtain ⟨s₁, hdown, hs₁⟩ := hs.historyDown
  obtain ⟨s', hup, hs'⟩ := hs₁.historyUp
  have hmoves : runCalls ([Move.down, .up].map Move.call) s = some s' := by
    change (shellHistoryDown s).bind (fun s => (shellHistoryUp s).bind some) = some s'
    rw [hdown, Option.bind_some, hup, Option.bind_some]
  have hempty : stringIn s'.inputBuffer = [] := stringIn_eq hs'.line
  refine ⟨s₀, s, s', hinit, hrun, hlines, hmoves, rfl, hempty, ?_⟩
  intro hshows
  rw [ShowsDepth, hempty] at hshows
  exact absurd hshows.1 (by decide)

end BinOs.HistoryWalk
