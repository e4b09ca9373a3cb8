import BinOs.ZipperEditor
import Mathlib.Algebra.GroupWithZero.Nat
import Mathlib.Data.Fin.VecNotation
import Mathlib.Logic.Function.Basic

/-! # What the shell's editor is for

A line of printable characters under edit, the command last submitted and a ring of
ten earlier commands. -/
namespace BinOs.ShellSession
open ZipperEditor

abbrev Printable := { c : UInt8 // 32 ≤ c ∧ c ≤ 126 }

/-- A line has one character less than the buffers that hold it with a terminator. -/
abbrev LineUnderEdit := Editor Printable 255

/-- A line that has been submitted. -/
abbrev Line := { t : List Printable // t.length ≤ 255 }

def bytes (t : List Printable) : List UInt8 := t.map Subtype.val

@[simp] theorem bytes_cons (c : Printable) (t : List Printable) :
    bytes (c :: t) = c.1 :: bytes t := rfl

@[simp] theorem bytes_append (s t : List Printable) : bytes (s ++ t) = bytes s ++ bytes t :=
  List.map_append

@[simp] theorem length_bytes (t : List Printable) : (bytes t).length = t.length :=
  List.length_map ..

theorem bytes_take (k : ℕ) (t : List Printable) : bytes (t.take k) = (bytes t).take k :=
  List.map_take

theorem bytes_drop (k : ℕ) (t : List Printable) : bytes (t.drop k) = (bytes t).drop k :=
  List.map_drop

theorem bytes_injective : Function.Injective bytes :=
  List.map_injective_iff.mpr Subtype.val_injective

theorem printable_ne_zero (c : Printable) : c.1 ≠ 0 := by
  intro h
  have hc := c.2.1
  rw [h] at hc
  exact absurd hc (by decide)

def emptyLine : Line := ⟨[], Nat.zero_le _⟩

/-- Numerals for places in the history are the same terms in every module. -/
instance neZero_history : NeZero 10 := ⟨by decide⟩

structure Session where
  editor : LineUnderEdit
  command : Line
  history : Fin 10 → Line
  historyIndex : Fin 10
  historyCurrent : Fin 10

namespace Session

def start : Session := ⟨Editor.empty, emptyLine, fun _ => emptyLine, 0, 0⟩

def edit (f : LineUnderEdit → LineUnderEdit) (a : Session) : Session :=
  { a with editor := f a.editor }

theorem edit_of_eq {f : LineUnderEdit → LineUnderEdit} {a : Session}
    (h : f a.editor = a.editor) : a.edit f = a := by
  rw [edit, h]

/-- An empty command and a repetition of the last one are not recorded. -/
def remember (t : Line) (a : Session) : Session :=
  if t.1 = [] then a
  else if a.history (a.historyIndex - 1) = t then { a with historyCurrent := a.historyIndex }
  else { a with
    history := Function.update a.history a.historyIndex t
    historyIndex := a.historyIndex + 1
    historyCurrent := a.historyIndex + 1 }

def submit (a : Session) : Session :=
  let t : Line := ⟨a.editor.text, a.editor.length_text_le⟩
  edit (fun _ => Editor.empty) (remember t { a with command := t })

def showEntry (i : Fin 10) (a : Session) : Session :=
  { a with
    editor := Editor.load (a.history i).1 (a.history i).2
    historyCurrent := i }

def historyUp (a : Session) : Session :=
  if (a.history (a.historyCurrent - 1)).1 = [] then a else showEntry (a.historyCurrent - 1) a

def historyDown (a : Session) : Session :=
  if a.historyCurrent + 1 = a.historyIndex then
    { a with editor := Editor.empty, historyCurrent := a.historyIndex }
  else showEntry (a.historyCurrent + 1) a

end Session

/-- What a byte does to the line; 23, the word kill, has its own definition. -/
def keyEdit (c : UInt8) : LineUnderEdit → LineUnderEdit :=
  if c = 10 ∨ c = 13 then fun _ => Editor.empty
  else if c = 8 ∨ c = 127 then Editor.backspace
  else if c = 3 then fun _ => Editor.empty
  else if c = 4 then Editor.delete
  else if c = 1 then Editor.moveHome
  else if c = 5 then Editor.moveEnd
  else if c = 12 then id
  else if c = 11 then Editor.killRight
  else if c = 21 then fun _ => Editor.empty
  else if c = 27 then id
  else if h : 32 ≤ c ∧ c ≤ 126 then Editor.insert ⟨c, h⟩
  else id

theorem printable_ne (c : Printable) {k : UInt8} (hk : k < 32 ∨ 126 < k) : c.1 ≠ k := by
  intro h
  rcases hk with hk | hk
  · exact UInt8.not_le.mpr hk (h ▸ c.2.1)
  · exact UInt8.not_le.mpr hk (h ▸ c.2.2)

theorem keyEdit_printable (c : Printable) : keyEdit c.1 = Editor.insert c := by
  have hne : ∀ {k : UInt8}, k < 32 ∨ 126 < k → c.1 ≠ k := printable_ne c
  rw [keyEdit, if_neg (not_or.mpr ⟨hne (by decide), hne (by decide)⟩),
    if_neg (not_or.mpr ⟨hne (by decide), hne (by decide)⟩), if_neg (hne (by decide)),
    if_neg (hne (by decide)), if_neg (hne (by decide)), if_neg (hne (by decide)),
    if_neg (hne (by decide)), if_neg (hne (by decide)), if_neg (hne (by decide)),
    if_neg (hne (by decide)), dif_pos c.2]

namespace Session

/-- What a byte other than the word kill does to the session. -/
def typed (c : UInt8) (a : Session) : Session :=
  if c = 10 ∨ c = 13 then a.submit else a.edit (keyEdit c)

theorem remember_command (t : Line) (a : Session) : (a.remember t).command = a.command := by
  rw [remember]
  split_ifs
  · rfl
  · rfl
  · rfl

theorem submit_command (a : Session) : a.submit.command.1 = a.editor.text := by
  rw [submit, edit, remember_command]

theorem typed_printable (c : Printable) (a : Session) : a.typed c.1 = a.edit (Editor.insert c) := by
  have henter : ¬ (c.1 = 10 ∨ c.1 = 13) :=
    not_or.mpr ⟨printable_ne c (by decide), printable_ne c (by decide)⟩
  rw [typed, if_neg henter, keyEdit_printable]

theorem typed_editor (c : UInt8) (a : Session) : (a.typed c).editor = keyEdit c a.editor := by
  by_cases henter : c = 10 ∨ c = 13
  · rw [typed, if_pos henter, keyEdit, if_pos henter]
    rfl
  · rw [typed, if_neg henter]
    rfl

end Session

end BinOs.ShellSession
