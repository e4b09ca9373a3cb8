import BinOs.LineEditor
import BinOs.ShellSession

/-! # The line editor's arrays refine the editing session

`Represents s a` reads the session `a` off the arrays and indices of `s`. Each
operation succeeds from a state that represents a session, so it makes no access
outside an array, and it ends in a state that represents the session's own step. -/
namespace BinOs.LineEditorRefinement
open BoundedLoops CheckedBuffers MemoryStrings FramebufferDrawing ShellConsole LineEditor
open ZipperEditor ShellSession

structure Represents (s : Shell) (a : Session) : Prop where
  line : Holds s.inputBuffer (bytes a.editor.text)
  cursor : s.cursorPos = a.editor.left.length
  index : s.inputIndex = a.editor.text.length
  command : Holds s.commandBuffer (bytes a.command.1)
  history : ∀ k : Fin 10, Holds (elem s.history k) (bytes (a.history k).1)
  historyIndex : s.historyIndex = (a.historyIndex : ℕ)
  historyCurrent : s.historyCurrent = (a.historyCurrent : ℕ)

variable {s : Shell} {a : Session}

theorem Represents.onScreen (h : Represents s a) (f : Screen → Screen) :
    Represents (onScreen f s) a :=
  ⟨h.line, h.cursor, h.index, h.command, h.history, h.historyIndex, h.historyCurrent⟩

theorem Represents.cursor_le (h : Represents s a) : s.cursorPos ≤ s.inputIndex := by
  rw [h.cursor, h.index, Editor.length_text]
  omega

theorem Represents.index_le (h : Represents s a) : s.inputIndex ≤ 255 := by
  have := a.editor.length_text_le
  rw [h.index]
  omega

theorem shellDrawInputLine_screen {s' : Shell} (h : shellDrawInputLine s = some s') :
    ∃ screen, s' = { s with screen } := by
  obtain ⟨screen, -, rfl⟩ := Option.map_eq_some_iff.mp h
  exact ⟨screen, rfl⟩

/-- Redrawing reads the line up to its terminator and the byte under the cursor. -/
theorem Represents.draw (h : Represents s a) :
    ∃ s', shellDrawInputLine s = some s' ∧ Represents s' a := by
  have hcursor := h.cursor
  have hpicture : ∃ screen, inputLinePicture s = some screen := by
    unfold inputLinePicture
    simp only [h.line.contents, Option.bind_eq_bind, Option.bind_some]
    by_cases hv : s.cursorVisible = 0
    · exact ⟨_, if_neg (not_not_intro hv)⟩
    · rw [if_pos hv]
      by_cases hc : s.cursorPos < s.inputIndex
      · have hle := h.index_le
        rw [if_pos hc, read_eq _ (by omega) (by omega), Option.bind_some]
        split
        · exact ⟨_, rfl⟩
        · exact ⟨_, rfl⟩
      · exact ⟨_, if_neg hc⟩
  obtain ⟨screen, hscreen⟩ := hpicture
  exact ⟨_, by rw [shellDrawInputLine, hscreen]; rfl, h.onScreen fun _ => screen⟩

/-- Every edit ends by storing a line, its length and a cursor and drawing them. -/
theorem Represents.store (h : Represents s a) {b : Buffer} (e : LineUnderEdit) {cursor index : ℤ}
    (hb : Holds b (bytes e.text)) (hc : cursor = e.left.length) (hi : index = e.text.length) :
    ∃ s', shellDrawInputLine { s with inputBuffer := b, cursorPos := cursor, inputIndex := index }
      = some s' ∧ Represents s' (a.edit fun _ => e) :=
  Represents.draw ⟨hb, hc, hi, h.command, h.history, h.historyIndex, h.historyCurrent⟩

theorem Represents.unchanged (h : Represents s a) {f : LineUnderEdit → LineUnderEdit}
    (hf : f a.editor = a.editor) : Represents s (a.edit f) := by
  rw [Session.edit_of_eq hf]
  exact h

/-- Cutting the `d` characters at `lo` out of the line. -/
theorem Represents.cut (h : Represents s a) (e : LineUnderEdit) {lo hi d last cursor : ℤ}
    (h0 : 0 ≤ lo) (hd : 0 ≤ d) (hcut : lo + d ≤ s.inputIndex) (hlo : s.inputIndex - d ≤ hi)
    (hhi : hi + d ≤ s.inputIndex + 1) (hlast : last = s.inputIndex - d)
    (hcursor : cursor = e.left.length)
    (htext : e.text = a.editor.text.take lo.toNat ++ a.editor.text.drop (lo + d).toNat) :
    ∃ b₁, shiftDown s.inputBuffer lo hi d = some b₁ ∧ ∃ b₂, write b₁ last 0 = some b₂ ∧
      ∃ s', shellDrawInputLine { s with inputBuffer := b₂, cursorPos := cursor, inputIndex := last }
        = some s' ∧ Represents s' (a.edit fun _ => e) := by
  have hindex := h.index
  rw [← length_bytes] at hindex
  obtain ⟨b₁, hs, b₂, hw, hb⟩ :=
    h.line.remove h0 hd (hindex ▸ hcut) (hindex ▸ hlo) (hindex ▸ hhi) (hindex ▸ hlast)
  rw [← bytes_take, ← bytes_drop, ← bytes_append, ← htext] at hb
  have hlen : last = e.text.length := by
    rw [length_bytes] at hindex
    rw [htext, List.length_append, List.length_take, List.length_drop]
    omega
  exact ⟨b₁, hs, b₂, hw, h.store e hb hcursor hlen⟩

theorem Represents.backspace (h : Represents s a) :
    ∃ s', shellBackspace s = some s' ∧ Represents s' (a.edit Editor.backspace) := by
  have hcursor := h.cursor
  have hle := h.cursor_le
  by_cases hpos : s.cursorPos > 0
  · obtain ⟨b₁, hs, b₂, hw, s', hdraw, hs'⟩ := h.cut a.editor.backspace
      (by omega : 0 ≤ s.cursorPos - 1) (by omega : (0 : ℤ) ≤ 1) (by omega)
      (by omega : s.inputIndex - 1 ≤ s.inputIndex) (by omega) rfl
      (by simp [Editor.backspace]; omega : s.cursorPos - 1 = _)
      (by
        rw [Editor.backspace_eq_killLeft, Editor.text_killLeft, List.take_take,
          Nat.min_eq_left (by omega)]
        congr 2
        · omega
        · omega)
    refine ⟨s', ?_, hs'⟩
    simp only [shellBackspace, if_pos hpos, hs, hw, Option.bind_eq_bind, Option.bind_some]
    exact hdraw
  · have hnil : a.editor.left = [] := List.length_eq_zero_iff.mp (by omega)
    refine ⟨s, if_neg hpos, h.unchanged (Editor.ext ?_ rfl)⟩
    simp [Editor.backspace, hnil]

theorem Represents.delete (h : Represents s a) :
    ∃ s', shellDelete s = some s' ∧ Represents s' (a.edit Editor.delete) := by
  have hcursor := h.cursor
  have hindex := h.index
  rw [Editor.length_text] at hindex
  by_cases hlt : s.cursorPos < s.inputIndex
  · obtain ⟨b₁, hs, b₂, hw, s', hdraw, hs'⟩ := h.cut a.editor.delete
      (by omega : 0 ≤ s.cursorPos) (by omega : (0 : ℤ) ≤ 1) (by omega)
      (by omega : s.inputIndex - 1 ≤ s.inputIndex) (by omega) rfl hcursor
      (by
        rw [Editor.text_delete]
        congr 2
        · omega
        · omega)
    refine ⟨s', ?_, hs'⟩
    simp only [shellDelete, if_pos hlt, hs, hw, Option.bind_eq_bind, Option.bind_some]
    exact hdraw
  · have hnil : a.editor.right = [] := List.length_eq_zero_iff.mp (by omega)
    refine ⟨s, if_neg hlt, h.unchanged (Editor.ext rfl ?_)⟩
    simp [Editor.delete, hnil]

theorem Represents.moveLeft (h : Represents s a) :
    ∃ s', shellMoveCursorLeft s = some s' ∧ Represents s' (a.edit Editor.moveLeft) := by
  have hcursor := h.cursor
  by_cases hpos : s.cursorPos > 0
  · rw [shellMoveCursorLeft, if_pos hpos]
    apply h.store a.editor.moveLeft
    · rw [Editor.text_moveLeft]
      exact h.line
    · simp [Editor.moveLeft]
      omega
    · rw [Editor.text_moveLeft]
      exact h.index
  · have hnil : a.editor.left = [] := List.length_eq_zero_iff.mp (by omega)
    exact ⟨s, if_neg hpos, h.unchanged (Editor.moveLeft_of_nil hnil)⟩

theorem Represents.moveRight (h : Represents s a) :
    ∃ s', shellMoveCursorRight s = some s' ∧ Represents s' (a.edit Editor.moveRight) := by
  have hcursor := h.cursor
  have hindex := h.index
  rw [Editor.length_text] at hindex
  by_cases hlt : s.cursorPos < s.inputIndex
  · rw [shellMoveCursorRight, if_pos hlt]
    apply h.store a.editor.moveRight
    · rw [Editor.text_moveRight]
      exact h.line
    · cases hr : a.editor.right with
      | nil =>
        rw [hr] at hindex
        simp at hindex
        omega
      | cons c r => simp [Editor.moveRight, hr, hcursor]
    · rw [Editor.text_moveRight]
      exact h.index
  · have hnil : a.editor.right = [] := List.length_eq_zero_iff.mp (by omega)
    exact ⟨s, if_neg hlt, h.unchanged (Editor.moveRight_of_nil hnil)⟩

theorem Represents.moveHome (h : Represents s a) :
    ∃ s', shellMoveCursorHome s = some s' ∧ Represents s' (a.edit Editor.moveHome) :=
  h.store a.editor.moveHome h.line rfl h.index

theorem Represents.moveEnd (h : Represents s a) :
    ∃ s', shellMoveCursorEnd s = some s' ∧ Represents s' (a.edit Editor.moveEnd) := by
  apply h.store a.editor.moveEnd
  · rw [Editor.text_moveEnd]
    exact h.line
  · exact h.index
  · rw [Editor.text_moveEnd]
    exact h.index

theorem Represents.clearInput (h : Represents s a) :
    ∃ s', shellClearInput s = some s' ∧ Represents s' (a.edit fun _ => Editor.empty) := by
  obtain ⟨b, hw, hb⟩ := h.line.truncate (by omega : (0 : ℤ) ≤ 0) (by omega)
  simp only [shellClearInput, hw, Option.bind_eq_bind, Option.bind_some]
  exact h.store Editor.empty hb rfl rfl

theorem Represents.killRight (h : Represents s a) :
    ∃ s', inputKillToEnd s = some s' ∧ Represents s' (a.edit Editor.killRight) := by
  have hcursor := h.cursor
  have hle := h.cursor_le
  have hindex := h.index
  obtain ⟨b, hw, hb⟩ := h.line.truncate (by omega : 0 ≤ s.cursorPos)
    (by rw [length_bytes]; omega)
  have htoNat : s.cursorPos.toNat = a.editor.left.length := by omega
  rw [htoNat, ← bytes_take, ← Editor.text_killRight] at hb
  simp only [inputKillToEnd, hw, Option.bind_eq_bind, Option.bind_some]
  apply h.store a.editor.killRight hb hcursor
  simp [Editor.killRight, Editor.text, hcursor]

theorem Represents.insert (h : Represents s a) {c : UInt8} (hc : 32 ≤ c ∧ c ≤ 126) :
    ∃ s', inputPrintable c s = some s' ∧ Represents s' (a.edit (Editor.insert ⟨c, hc⟩)) := by
  have hcursor := h.cursor
  have hindex := h.index
  have hle := h.cursor_le
  have hmax : maxInputLength = 256 := rfl
  by_cases hroom : s.inputIndex < maxInputLength - 1
  · obtain ⟨b₁, hs, b₂, hw, b₃, hz, hb⟩ := h.line.insertAt
      (by rw [length_bytes]; exact hindex : s.inputIndex = _) (by omega : 0 ≤ s.cursorPos)
      (by rw [length_bytes]; omega) (by rw [length_bytes]; omega) (printable_ne_zero ⟨c, hc⟩)
      (by rw [length_bytes]; omega : s.inputIndex + 1 = _)
    have hlen : a.editor.text.length < 255 := by omega
    have htext := Editor.text_insert ⟨c, hc⟩ hlen
    have htoNat : s.cursorPos.toNat = a.editor.left.length := by omega
    rw [htoNat, ← bytes_take, ← bytes_drop, ← bytes_cons ⟨c, hc⟩, ← bytes_append, ← htext] at hb
    have hleft : s.cursorPos + 1 = (a.editor.insert ⟨c, hc⟩).left.length := by
      rw [Editor.length_text] at hlen
      rw [Editor.insert, dif_pos hlen, List.length_append, hcursor]
      rfl
    have hlength : s.inputIndex + 1 = (a.editor.insert ⟨c, hc⟩).text.length := by
      rw [htext, List.length_append, List.length_cons, List.length_take, List.length_drop]
      omega
    obtain ⟨s', hdraw, hs'⟩ := h.store (a.editor.insert ⟨c, hc⟩) hb hleft hlength
    refine ⟨s', ?_, hs'⟩
    have hcond : c ≥ 32 ∧ c ≤ 126 ∧ s.inputIndex < maxInputLength - 1 := ⟨hc.1, hc.2, hroom⟩
    simp only [inputPrintable, if_pos hcond, hs, hw, hz, Option.bind_eq_bind, Option.bind_some]
    exact hdraw
  · refine ⟨s, if_neg fun hall => hroom hall.2.2, h.unchanged ?_⟩
    rw [Editor.length_text] at hindex
    exact dif_neg (by omega)

theorem inputPrintable_of_not {c : UInt8} (hc : ¬ (32 ≤ c ∧ c ≤ 126)) :
    inputPrintable c s = some s := if_neg fun hall => hc ⟨hall.1, hall.2.1⟩

theorem skipBack_spec (b : Buffer) (p : UInt8 → Bool) : ∀ start < 256,
    ∃ r, skipBack b p start = some r ∧ r ≤ start ∧ (r = 0 ∨ ¬ p (elem b r)) ∧
      ∀ i, r < i → i ≤ start → p (elem b i)
  | 0, _ => ⟨0, rfl, Nat.le_refl _, .inl rfl, fun i hlo hhi => by omega⟩
  | start + 1, hlt => by
    rw [skipBack, read_natCast b hlt, Option.bind_eq_bind, Option.bind_some]
    cases hp : p (elem b (start + 1)) with
    | false => exact ⟨start + 1, rfl, Nat.le_refl _, .inr (by simp [hp]), fun i hlo hhi => by omega⟩
    | true =>
      obtain ⟨r, hr, hle, hstop, hall⟩ := skipBack_spec b p start (by omega)
      refine ⟨r, hr, by omega, hstop, fun i hlo hhi => ?_⟩
      by_cases hi : i = start + 1
      · rw [hi, hp]
      · exact hall i hlo (by omega)

/-- The start is the cursor itself only behind a single space that begins the line. -/
theorem wordStart_spec (b : Buffer) {cursor : ℕ} (hpos : 0 < cursor) (hlt : cursor < 256) :
    ∃ k : ℕ, wordStart b cursor = some (k : ℤ) ∧ k ≤ cursor ∧
      (k = cursor ↔ cursor = 1 ∧ elem b 0 = 32) := by
  have htoNat : ((cursor : ℤ) - 1).toNat = cursor - 1 := by omega
  obtain ⟨r₁, hr₁, hle₁, hstop₁, -⟩ := skipBack_spec b (· == 32) (cursor - 1) (by omega)
  obtain ⟨r₂, hr₂, hle₂, -, -⟩ := skipBack_spec b (· != 32) r₁ (by omega)
  simp only [wordStart, htoNat, hr₁, hr₂, read_natCast b (by omega : r₂ < 256),
    Option.bind_eq_bind, Option.bind_some]
  by_cases hspace : elem b r₂ = 32
  · refine ⟨r₂ + 1, by rw [if_pos hspace]; rfl, by omega, ?_⟩
    constructor
    · intro hk
      -- the first loop did not move, yet the byte under it is a space
      have hr : r₁ = r₂ := by omega
      rcases hstop₁ with h0 | hne
      · exact ⟨by omega, by rw [← h0, hr, hspace]⟩
      · rw [hr, hspace] at hne
        exact absurd rfl hne
    · intro hk
      omega
  · refine ⟨r₂, by rw [if_neg hspace], by omega, ?_⟩
    constructor
    · omega
    · intro hk
      have h0 : r₂ = 0 := by omega
      exact absurd hk.2 (h0 ▸ hspace)

theorem Represents.killWord_from (h : Represents s a) (hpos : s.cursorPos > 0) {k : ℕ}
    (hk : wordStart s.inputBuffer s.cursorPos = some (k : ℤ)) (hkc : k ≤ a.editor.left.length) :
    ∃ s', inputKillWord s = some s' ∧ Represents s' (a.edit (Editor.killLeft k)) := by
  have hcursor := h.cursor
  have hle := h.cursor_le
  have hmax := h.index_le
  obtain ⟨b₁, hs, b₂, hw, s', hdraw, hs'⟩ := h.cut (a.editor.killLeft k)
    (by omega : 0 ≤ (k : ℤ)) (by omega : 0 ≤ s.cursorPos - k) (by omega)
    (by omega : s.inputIndex - (s.cursorPos - k) ≤ s.inputIndex - (s.cursorPos - k))
    (by omega) rfl (by simp [Editor.killLeft, hkc] : (k : ℤ) = _)
    (by
      rw [Editor.text_killLeft, List.take_take, Nat.min_eq_left hkc]
      congr 2
      omega)
  refine ⟨s', ?_, hs'⟩
  simp only [inputKillWord, if_pos hpos, hk, hs, hw, Option.bind_eq_bind, Option.bind_some]
  exact hdraw

theorem Represents.killWord (h : Represents s a) :
    ∃ s', inputKillWord s = some s' ∧ ∃ k ≤ a.editor.left.length,
      Represents s' (a.edit (Editor.killLeft k)) := by
  have hcursor := h.cursor
  have hle := h.cursor_le
  have hmax := h.index_le
  by_cases hpos : s.cursorPos > 0
  · obtain ⟨k, hk, hkc, -⟩ := wordStart_spec s.inputBuffer
      (by omega : 0 < a.editor.left.length) (by omega)
    rw [← hcursor] at hk
    obtain ⟨s', hs', hrep⟩ := h.killWord_from hpos hk hkc
    exact ⟨s', hs', k, hkc, hrep⟩
  · refine ⟨s, if_neg hpos, 0, Nat.zero_le _, h.unchanged (Editor.ext ?_ rfl)⟩
    have hnil : a.editor.left = [] := List.length_eq_zero_iff.mp (by omega)
    simp [Editor.killLeft, hnil]

theorem wrapHistory_pred : ∀ i : Fin 10, wrapHistory ((i : ℕ) - 1) = ((i - 1 : Fin 10) : ℕ) := by
  decide

theorem wrapHistory_succ : ∀ i : Fin 10,
    ((i : ℕ) + 1 : ℤ).tmod maxHistoryEntries = ((i + 1 : Fin 10) : ℕ) := by
  decide

theorem Represents.entry (h : Represents s a) (i : Fin 10) :
    ∃ entry, read s.history ((i : ℕ) : ℤ) = some entry ∧ Holds entry (bytes (a.history i).1) :=
  ⟨_, read_natCast s.history i.2, h.history i⟩

theorem sameCommand_eq {previous command : Buffer} {u t : Line} (hu : Holds previous (bytes u.1))
    (ht : Holds command (bytes t.1)) (hne : t.1 ≠ []) :
    sameCommand previous command = some (decide (u = t)) := by
  obtain ⟨order, horder, hzero⟩ := strcmp_eq hu ht
  have heq : order = 0 ↔ u = t := by rw [hzero, bytes_injective.eq_iff, Subtype.ext_iff]
  simp only [sameCommand, strlen_eq hu, length_bytes, horder, Option.bind_eq_bind, Option.bind_some]
  by_cases hpos : (u.1.length : ℤ) > 0
  · rw [if_pos hpos]
    congr 1
    rw [Bool.eq_iff_iff, beq_iff_eq, heq, decide_eq_true_iff]
  · have hut : u ≠ t := by
      intro h
      have hnil : u.1 = [] := List.length_eq_zero_iff.mp (by omega)
      exact hne (h ▸ hnil)
    rw [if_neg hpos, decide_eq_false hut]

theorem Represents.addToHistory (h : Represents s a) {command : Buffer} {t : Line}
    (hc : Holds command (bytes t.1)) :
    ∃ s', shellAddToHistory command s = some s' ∧ Represents s' (a.remember t) := by
  have hlen := strlen_eq hc
  rw [length_bytes] at hlen
  by_cases ht : t.1 = []
  · refine ⟨s, ?_, by rwa [Session.remember, if_pos ht]⟩
    simp only [shellAddToHistory, hlen, ht, List.length_nil, Option.bind_eq_bind, Option.bind_some]
    rfl
  · have hne : ¬ ((t.1.length : ℤ) = 0) := by
      have := List.length_pos_iff.mpr ht
      omega
    obtain ⟨previous, hread, hprevious⟩ := h.entry (a.historyIndex - 1)
    simp only [shellAddToHistory, hlen, if_neg hne, h.historyIndex, wrapHistory_pred, hread,
      sameCommand_eq hprevious hc ht, Option.bind_eq_bind, Option.bind_some, decide_eq_true_eq]
    by_cases hsame : a.history (a.historyIndex - 1) = t
    · rw [if_pos hsame, Session.remember, if_neg ht, if_pos hsame]
      exact ⟨_, rfl, h.line, h.cursor, h.index, h.command, h.history, rfl, rfl⟩
    · obtain ⟨entry, hentry, -⟩ := h.entry a.historyIndex
      obtain ⟨copy, hcopy, hholds⟩ := strcpy_eq entry hc (by have := t.2; rw [length_bytes]; omega)
      obtain ⟨history, hwrite, helem⟩ := write_eq s.history copy
        (by omega : 0 ≤ ((a.historyIndex : ℕ) : ℤ)) (by have := a.historyIndex.2; omega)
      have hheld : ∀ k : Fin 10,
          Holds (elem history k) (bytes (Function.update a.history a.historyIndex t k).1) := by
        intro k
        rw [helem]
        by_cases hk : k = a.historyIndex
        · subst hk
          rw [if_pos rfl, Function.update_self]
          exact hholds
        · have hkv : ((k : ℕ) : ℤ) ≠ (a.historyIndex : ℕ) := by
            intro heq
            exact hk (Fin.ext (by omega))
          rw [if_neg hkv, Function.update_of_ne hk]
          exact h.history k
      rw [if_neg hsame, Session.remember, if_neg ht, if_neg hsame]
      simp only [hentry, hcopy, hwrite, Option.bind_some]
      exact ⟨_, rfl, h.line, h.cursor, h.index, h.command, hheld,
        wrapHistory_succ a.historyIndex, wrapHistory_succ a.historyIndex⟩

theorem Represents.showEntry (h : Represents s a) (i : Fin 10) :
    ∃ s', shellRecall (i : ℕ) s = some s' ∧ Represents s' (a.showEntry i) := by
  obtain ⟨entry, hentry, hline⟩ := h.entry i
  obtain ⟨b, hcopy, hb⟩ := strcpy_eq s.inputBuffer hline
    (by have := (a.history i).2; rw [length_bytes]; omega)
  have hlen := strlen_eq hb
  rw [length_bytes] at hlen
  have hcurrent : Represents { s with historyCurrent := (i : ℕ) } { a with historyCurrent := i } :=
    ⟨h.line, h.cursor, h.index, h.command, h.history, h.historyIndex, rfl⟩
  simp only [shellRecall, hentry, hcopy, hlen, Option.bind_eq_bind, Option.bind_some]
  apply hcurrent.store (Editor.load (a.history i).1 (a.history i).2)
  · rwa [Editor.text_load]
  · rfl
  · rw [Editor.text_load]

theorem Represents.historyUp (h : Represents s a) :
    ∃ s', shellHistoryUp s = some s' ∧ Represents s' a.historyUp := by
  obtain ⟨entry, hentry, hline⟩ := h.entry (a.historyCurrent - 1)
  have hlen := strlen_eq hline
  rw [length_bytes] at hlen
  simp only [shellHistoryUp, h.historyCurrent, wrapHistory_pred, hentry, hlen, Option.bind_eq_bind,
    Option.bind_some, Session.historyUp]
  by_cases hnil : (a.history (a.historyCurrent - 1)).1 = []
  · rw [if_pos hnil, hnil]
    exact ⟨s, rfl, h⟩
  · have hpos := List.length_pos_iff.mpr hnil
    rw [if_neg hnil, if_pos (by omega)]
    exact h.showEntry _

theorem Represents.historyDown (h : Represents s a) :
    ∃ s', shellHistoryDown s = some s' ∧ Represents s' a.historyDown := by
  simp only [shellHistoryDown, h.historyCurrent, h.historyIndex, wrapHistory_succ,
    Session.historyDown]
  by_cases hlast : a.historyCurrent + 1 = a.historyIndex
  · obtain ⟨s', hclear, hs'⟩ := h.clearInput
    rw [if_pos hlast, hlast, if_neg (not_not_intro rfl), hclear]
    exact ⟨_, rfl, hs'.line, hs'.cursor, hs'.index, hs'.command, hs'.history, hs'.historyIndex,
      hs'.historyIndex⟩
  · have hne : ((a.historyCurrent + 1 : Fin 10) : ℕ) ≠ (a.historyIndex : ℕ) :=
      fun heq => hlast (Fin.ext heq)
    rw [if_neg hlast, if_pos (by omega)]
    exact h.showEntry _

/-- The command buffer receives the whole line; its last byte is a terminator even
when the line fills the other 255. -/
theorem Represents.copyCommand (h : Represents s a) :
    ∃ b, strncpy s.commandBuffer s.inputBuffer (maxInputLength - 1) = some b ∧
      ∃ b', write b (maxInputLength - 1) 0 = some b' ∧ Holds b' (bytes a.editor.text) := by
  have hfits := h.line.fits
  obtain ⟨b, hcopy, hb⟩ := strncpy_eq s.commandBuffer h.line (k := 255) (by omega) (by omega)
  obtain ⟨b', hwrite, hb'⟩ := write_eq b 0 (by decide : 0 ≤ maxInputLength - 1) (by decide)
  have hmax : maxInputLength - 1 = 255 := rfl
  refine ⟨b, hcopy, b', hwrite, hfits, fun i hi => ?_, h.line.nonzero, ?_⟩
  · rw [hb', if_neg (by omega), hb, if_pos hi, h.line.bytes i hi]
  · rw [hb']
    by_cases hfull : ((bytes a.editor.text).length : ℤ) = maxInputLength - 1
    · rw [if_pos hfull]
    · rw [if_neg hfull, hb, if_neg (by omega), if_pos (by omega)]

theorem Represents.submit (h : Represents s a) :
    ∃ s', inputEnter s = some s' ∧ Represents s' a.submit := by
  have hindex := h.index
  rw [← length_bytes] at hindex
  obtain ⟨b, hwrite, hb⟩ := h.line.truncate (by omega : 0 ≤ s.inputIndex) (by omega)
  rw [List.take_of_length_le (by omega)] at hb
  have hterminated : Represents { s with inputBuffer := b } a :=
    ⟨hb, h.cursor, h.index, h.command, h.history, h.historyIndex, h.historyCurrent⟩
  obtain ⟨c, hcopy, c', hlast, hc⟩ := hterminated.copyCommand
  have hlen := strlen_eq hc
  rw [length_bytes] at hlen
  let t : Line := ⟨a.editor.text, a.editor.length_text_le⟩
  have hsubmitted : Represents { s with inputBuffer := b, commandBuffer := c' }
      { a with command := t } :=
    ⟨hb, h.cursor, h.index, hc, h.history, h.historyIndex, h.historyCurrent⟩
  obtain ⟨s₁, hadd, hs₁⟩ := hsubmitted.addToHistory (t := t) hc
  simp only [inputEnter, recordCommand, hwrite, hcopy, hlast, hlen, Option.bind_eq_bind,
    Option.bind_some]
  by_cases hpos : (a.editor.text.length : ℤ) > 0
  · rw [if_pos hpos, hadd, Option.bind_some]
    exact (hs₁.onScreen _).clearInput
  · have hnil : a.editor.text = [] := List.length_eq_zero_iff.mp (by omega)
    have hskip : Session.remember t { a with command := t } = { a with command := t } :=
      if_pos hnil
    rw [hskip] at hs₁
    rw [if_neg hpos, Option.bind_some, Session.submit, hskip]
    exact (hsubmitted.onScreen _).clearInput

theorem Represents.cancelInput (h : Represents s a) :
    ∃ s', shellCancelInput s = some s' ∧ Represents s' (a.edit fun _ => Editor.empty) := by
  obtain ⟨s₁, hclear, hs₁⟩ := h.clearInput
  simp only [shellCancelInput, hclear, Option.bind_eq_bind, Option.bind_some]
  exact (((hs₁.onScreen _).onScreen _).onScreen _).draw

theorem Represents.clearScreen (h : Represents s a) :
    ∃ s', inputClearScreen s = some s' ∧ Represents s' a :=
  (((h.onScreen _).onScreen _).onScreen _).draw

/-- A byte that is not the word kill does to the arrays what it does to the session. -/
theorem Represents.inputEffect (h : Represents s a) {c : UInt8} (hc : c ≠ 23) :
    ∃ s', inputEffect c s = some s' ∧ Represents s' (a.typed c) := by
  rw [LineEditor.inputEffect, Session.typed, keyEdit]
  by_cases henter : c = 10 ∨ c = 13
  · rw [if_pos henter, if_pos henter]
    exact h.submit
  rw [if_neg henter, if_neg henter, if_neg henter]
  by_cases hbackspace : c = 8 ∨ c = 127
  · rw [if_pos hbackspace, if_pos hbackspace]
    exact h.backspace
  rw [if_neg hbackspace, if_neg hbackspace]
  by_cases hcancel : c = 3
  · rw [if_pos hcancel, if_pos hcancel]
    exact h.cancelInput
  rw [if_neg hcancel, if_neg hcancel]
  by_cases hdelete : c = 4
  · rw [if_pos hdelete, if_pos hdelete]
    exact h.delete
  rw [if_neg hdelete, if_neg hdelete]
  by_cases hhome : c = 1
  · rw [if_pos hhome, if_pos hhome]
    exact h.moveHome
  rw [if_neg hhome, if_neg hhome]
  by_cases hend : c = 5
  · rw [if_pos hend, if_pos hend]
    exact h.moveEnd
  rw [if_neg hend, if_neg hend]
  by_cases hclear : c = 12
  · rw [if_pos hclear, if_pos hclear]
    exact h.clearScreen
  rw [if_neg hclear, if_neg hclear]
  by_cases hkill : c = 11
  · rw [if_pos hkill, if_pos hkill]
    exact h.killRight
  rw [if_neg hkill, if_neg hkill]
  by_cases hline : c = 21
  · rw [if_pos hline, if_pos hline]
    exact h.clearInput
  rw [if_neg hline, if_neg hline, if_neg hc]
  by_cases hescape : c = 27
  · rw [if_pos hescape, if_pos hescape]
    exact ⟨s, rfl, h⟩
  rw [if_neg hescape, if_neg hescape]
  by_cases hprintable : 32 ≤ c ∧ c ≤ 126
  · rw [dif_pos hprintable]
    exact h.insert hprintable
  · rw [dif_neg hprintable]
    exact ⟨s, inputPrintable_of_not hprintable, h⟩

theorem inputEffect_killWord : inputEffect 23 = inputKillWord := by
  simp [inputEffect]

end BinOs.LineEditorRefinement
