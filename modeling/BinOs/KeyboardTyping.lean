import BinOs.KeyboardRuns

/-! # From the wire to the command

The byte stream that a US keyboard sends for a string and Enter, and what the driver
and the shell make of it. The layout is written down here on its own, not taken from
the driver's tables. -/
namespace BinOs.KeyboardTyping
open CheckedBuffers MemoryStrings LineEditor ShellCommands Keyboard KeyboardRuns
open ZipperEditor ShellSession LineEditorRefinement CommandExecution LineEditorRuns

/-- Rows of main-block keys: the first key's make code in scancode set 1, and the
characters of the row without and with Shift. -/
def usRows : List (UInt8 × List UInt8 × List UInt8) :=
  [(0x02, ascii "1234567890-=", ascii "!@#$%^&*()_+"),
    (0x10, ascii "qwertyuiop[]", ascii "QWERTYUIOP\x7b\x7d"),
    (0x1E, ascii "asdfghjkl;'`", ascii "ASDFGHJKL:\"~"),
    (0x2B, ascii "\\zxcvbnm,./", ascii "|ZXCVBNM<>?"),
    (0x39, ascii " ", ascii " ")]

/-- Each key's make code and its two characters. -/
def usKeys : List (UInt8 × UInt8 × UInt8) :=
  usRows.flatMap fun (first, plain, shifted) =>
    (plain.zip shifted).zipIdx.map fun (chars, i) => (first + UInt8.ofNat i, chars)

def makeCode (c : UInt8) : UInt8 :=
  ((usKeys.find? fun key => key.2.1 == c || key.2.2 == c).map Prod.fst).getD 0

def isLetter (c : UInt8) : Bool := (65 ≤ c && c ≤ 90) || (97 ≤ c && c ≤ 122)

/-- Caps Lock exchanges the two cases of the letters only. -/
def needsShift (caps : Bool) (c : UInt8) : Bool :=
  if isLetter c then (c ≤ 90 : Bool) != caps else !(usKeys.any fun key => key.2.1 == c)

inductive ShiftKey
  | left
  | right

def ShiftKey.code : ShiftKey → UInt8
  | .left => 0x2A
  | .right => 0x36

/-- A key pressed and released around what is sent in between. -/
def around (code : UInt8) (inner : List UInt8) : List UInt8 := code :: inner ++ [code ||| 0x80]

def strokes (caps : Bool) (c : UInt8) (shift : ShiftKey) : List UInt8 :=
  if needsShift caps c then around shift.code (around (makeCode c) []) else around (makeCode c) []

/-- The string's characters, each with the Shift key used for it if one is, then Enter. -/
def typingStream (caps : Bool) (typed : List (Printable × ShiftKey)) : List UInt8 :=
  typed.flatMap (fun (c, shift) => strokes caps c.1 shift) ++ around 0x1C []

/-- The flags while typing. -/
def typingFlags (caps shift : Bool) : Flags := ⟨caps, shift, false, false, false⟩

/-- Every printable character's key, at the level the stream uses, yields it. -/
theorem layout_table : ∀ n < 95, ∀ caps : Bool,
    let c := UInt8.ofNat (n + 32)
    let key := scancodeMap (makeCode c)
    makeCode c < 0x80 ∧ makeCode c ≠ 0x60 ∧ 32 ≤ key ∧ key ≤ 126 ∧
      getCharacter (typingFlags caps (needsShift caps c)) key = c := by
  decide +kernel

theorem layout (c : Printable) (caps : Bool) :
    makeCode c.1 < 0x80 ∧ makeCode c.1 ≠ 0x60 ∧ 32 ≤ scancodeMap (makeCode c.1) ∧
      scancodeMap (makeCode c.1) ≤ 126 ∧
      getCharacter (typingFlags caps (needsShift caps c.1)) (scancodeMap (makeCode c.1)) = c.1 := by
  obtain ⟨c, hlo, hhi⟩ := c
  have hlo' : 32 ≤ c.toNat := UInt8.le_iff_toNat_le.mp hlo
  have hhi' : c.toNat ≤ 126 := UInt8.le_iff_toNat_le.mp hhi
  have htable := layout_table (c.toNat - 32) (by omega) caps
  rwa [Nat.sub_add_cancel hlo', UInt8.ofNat_toNat] at htable

variable {k : Driver} {a : Session}

theorem handleKey_printable {key : UInt8} (hkey : 32 ≤ key ∧ key ≤ 126) (pressed : Bool) :
    handleKey key pressed k = handlePrintableKey key pressed k := by
  have hne : ∀ {c : UInt8}, c < 32 → key ≠ c := by
    rintro c hc rfl
    exact UInt8.not_le.mpr hc hkey.1
  have hmod : ¬ isModifier key := by
    rintro (h | h | h | h | h)
    all_goals exact hne (by decide) h
  have hspecial : ¬ (key ≥ keyF1 ∧ key ≤ keyDelete) := by
    intro h
    exact absurd (UInt8.le_trans h.1 hkey.2) (by decide)
  rw [handleKey, if_neg (hne (by decide)), if_neg hmod, if_neg (hne (by decide)),
    if_neg (hne (by decide)), if_neg hspecial, if_pos hkey]

/-- The driver after characters have been typed: the line has changed, no command has
been parsed. -/
structure Typed (k k' : Driver) (a : Session) : Prop where
  shell : Represents k'.shell a
  flags_eq : k'.flags = k.flags
  parsed_eq : k'.parsed = k.parsed

theorem typeChar_printable (h : Represents k.shell a) (c : Printable) :
    ∃ k', typeChar c.1 k = some k' ∧ Typed k k' (a.edit (Editor.insert c)) := by
  obtain ⟨s', hs', hrep⟩ := input_represents h (printable_ne c (by decide : (23 : UInt8) < 32 ∨ _))
  rw [Session.typed_printable] at hrep
  have hplain : (c.1 == 10 || c.1 == 13) = false := by
    rw [Bool.or_eq_false_iff, beq_eq_false_iff_ne, beq_eq_false_iff_ne]
    exact ⟨printable_ne c (by decide), printable_ne c (by decide)⟩
  refine ⟨{ k with shell := s' }, ?_, hrep, rfl, rfl⟩
  rw [typeChar, hs', hplain]
  rfl

/-- A tap of the key for `c` at the Shift level that `c` needs. -/
theorem receive_tap {caps : Bool} (h : Represents k.shell a) (c : Printable)
    (hflags : k.flags = typingFlags caps (needsShift caps c.1)) :
    ∃ k', receiveAll (around (makeCode c.1) []) k = some k' ∧
      Typed k k' (a.edit (Editor.insert c)) := by
  obtain ⟨hcode, h60, hlo, hhi, hchar⟩ := layout c caps
  rw [← hflags] at hchar
  generalize makeCode c.1 = code at hcode h60 hlo hhi hchar ⊢
  generalize needsShift caps c.1 = shift at hflags
  have hctrl : k.flags.ctrlPressed = false := by rw [hflags, typingFlags]
  have halt : k.flags.altPressed = false := by rw [hflags, typingFlags]
  have hext : k.flags.extendedScancode = false := by rw [hflags, typingFlags]
  obtain ⟨k₁, htype, hk₁⟩ := typeChar_printable h c
  obtain ⟨uart, hreport⟩ := reports_char c.1 k₁
  have hmake : receive code k = some { k₁ with uart } := by
    rw [receive_make hcode hext, handleKey_printable ⟨hlo, hhi⟩, handlePrintableKey, hchar]
    simp only [Bool.not_true, Bool.false_eq_true, if_false, if_neg (printable_ne_zero c), hctrl, halt,
      htype, Option.bind_eq_bind, Option.bind_some]
    exact hreport
  have hext₁ : ({ k₁ with uart } : Driver).flags.extendedScancode = false := by
    rw [← hext, ← hk₁.flags_eq]
  have hbreak : receive (code ||| 0x80) { k₁ with uart } = some { k₁ with uart } := by
    rw [receive_break hcode h60 hext₁, handleKey_printable ⟨hlo, hhi⟩]
    rfl
  refine ⟨{ k₁ with uart }, ?_, hk₁.shell, hk₁.flags_eq, hk₁.parsed_eq⟩
  simp only [around, List.nil_append, List.cons_append, receiveAll, hmake, hbreak, Option.bind_some]

theorem handleKey_shift (shift : ShiftKey) (pressed : Bool) (k : Driver) :
    handleKey (scancodeMap shift.code) pressed k =
      some { k with flags := { k.flags with shiftPressed := pressed } } := by
  cases shift
  · rfl
  · rfl

theorem shiftKey_code (shift : ShiftKey) : shift.code < 0x80 ∧ shift.code ≠ 0x60 := by
  cases shift
  · decide
  · decide

/-- Either Shift key sets the level when it goes down and when it comes up. -/
theorem receive_shift (shift : ShiftKey) {caps level : Bool}
    (hflags : k.flags = typingFlags caps level) :
    receive shift.code k = some { k with flags := typingFlags caps true } ∧
      receive (shift.code ||| 0x80) k = some { k with flags := typingFlags caps false } := by
  obtain ⟨hcode, h60⟩ := shiftKey_code shift
  have hext : k.flags.extendedScancode = false := by rw [hflags, typingFlags]
  rw [receive_make hcode hext, receive_break hcode h60 hext, handleKey_shift, handleKey_shift,
    hflags]
  exact ⟨rfl, rfl⟩

/-- The strokes for one character put it into the line and leave Shift released. -/
theorem receive_strokes {caps : Bool} (h : Represents k.shell a) (c : Printable) (shift : ShiftKey)
    (hflags : k.flags = typingFlags caps false) :
    ∃ k', receiveAll (strokes caps c.1 shift) k = some k' ∧
      Typed k k' (a.edit (Editor.insert c)) := by
  cases hneeds : needsShift caps c.1 with
  | false =>
    rw [strokes, hneeds, if_neg Bool.false_ne_true]
    exact receive_tap h c (hneeds.symm ▸ hflags)
  | true =>
    rw [strokes, hneeds, if_pos rfl]
    obtain ⟨hmake, -⟩ := receive_shift shift hflags
    obtain ⟨k', htap, hk'⟩ := receive_tap (k := { k with flags := typingFlags caps true }) h c
      (by rw [hneeds])
    obtain ⟨-, hbreak⟩ := receive_shift shift hk'.flags_eq
    refine ⟨{ k' with flags := typingFlags caps false }, ?_, hk'.shell, hflags.symm, hk'.parsed_eq⟩
    rw [around, List.cons_append, receiveAll, hmake, Option.bind_some, receiveAll_append, htap,
      Option.bind_some, receiveAll, hbreak]
    rfl

theorem insert_at_end {e : LineUnderEdit} (c : Printable) (hright : e.right = [])
    (hroom : e.left.length < 255) :
    (e.insert c).left = e.left ++ [c] ∧ (e.insert c).right = [] := by
  have hlt : e.left.length + e.right.length < 255 := by rw [hright]; exact hroom
  rw [Editor.insert, dif_pos hlt]
  exact ⟨rfl, hright⟩

/-- Typing at the end of a line that has room appends the characters. -/
theorem receive_line {caps : Bool} (typed : List (Printable × ShiftKey)) (h : Represents k.shell a)
    (hflags : k.flags = typingFlags caps false) (hright : a.editor.right = [])
    (hroom : a.editor.left.length + typed.length ≤ 255) :
    ∃ k' a', receiveAll (typed.flatMap fun (c, shift) => strokes caps c.1 shift) k = some k' ∧
      Typed k k' a' ∧ a'.editor.left = a.editor.left ++ typed.map Prod.fst ∧
      a'.editor.right = [] := by
  induction typed generalizing k a with
  | nil => exact ⟨k, a, rfl, ⟨h, rfl, rfl⟩, by simp, hright⟩
  | cons stroke typed ih =>
    obtain ⟨c, shift⟩ := stroke
    rw [List.length_cons] at hroom
    obtain ⟨k₁, hstrokes, hk₁⟩ := receive_strokes h c shift hflags
    obtain ⟨hleft₁, hright₁⟩ := insert_at_end c hright (by omega)
    obtain ⟨k', a', hrun, hk', hleft, hright'⟩ := ih hk₁.shell (hk₁.flags_eq.trans hflags) hright₁
      (by
        have hlen := congrArg List.length hleft₁
        rw [List.length_append, List.length_singleton] at hlen
        change (a.editor.insert c).left.length + typed.length ≤ 255
        omega)
    refine ⟨k', a', ?_, ⟨hk'.shell, hk'.flags_eq.trans hk₁.flags_eq,
      hk'.parsed_eq.trans hk₁.parsed_eq⟩, ?_, hright'⟩
    · rw [List.flatMap_cons, receiveAll_append, hstrokes, Option.bind_some, hrun]
    · rw [hleft, List.map_cons]
      change (a.editor.insert c).left ++ typed.map Prod.fst = _
      rw [hleft₁, List.append_assoc]
      rfl

/-- Enter submits the line: one command is parsed, and its buffer holds the line. -/
theorem receive_enter {caps : Bool} (h : Represents k.shell a)
    (hflags : k.flags = typingFlags caps false) :
    ∃ k' a' b, receiveAll (around 0x1C []) k = some k' ∧ Represents k'.shell a' ∧
      a'.editor = Editor.empty ∧ k'.flags = k.flags ∧ k'.parsed = k.parsed ++ [b] ∧
      Holds b (bytes a.editor.text) := by
  have hext : k.flags.extendedScancode = false := by rw [hflags, typingFlags]
  obtain ⟨s₁, hinput, hs₁⟩ := input_represents h (by decide : (10 : UInt8) ≠ 23)
  obtain ⟨s₂, line, hparse, hs₂⟩ := parseCommand_represents hs₁
  let k₂ : Driver :=
    { k with shell := s₂, parsed := k.parsed ++ [s₁.commandBuffer] }
  obtain ⟨uart, hreport⟩ := (reports_of_isSome rfl : Reports "\r\n" []) k₂
  have htype : typeChar 10 k = some k₂ := by
    have hcall : callParseCommand { k with shell := s₁ } = some k₂ := by
      rw [callParseCommand, onShell]
      exact congrArg (Option.map _) hparse
    rw [typeChar, hinput]
    exact hcall
  have hmake : receive 0x1C k = some { k₂ with uart } := by
    rw [receive_make (by decide) hext]
    change (typeChar 10 k).bind (report "\r\n" []) = _
    rw [htype]
    exact hreport
  have hbreak : receive (0x1C ||| 0x80) { k₂ with uart } = some { k₂ with uart } := by
    rw [receive_break (k := { k₂ with uart }) (by decide) (by decide) hext]
    rfl
  have hcommand := hs₁.command
  rw [Session.typed, if_pos (Or.inl rfl), Session.submit_command] at hcommand
  refine ⟨{ k₂ with uart }, _, s₁.commandBuffer, ?_, hs₂, rfl, rfl, rfl, hcommand⟩
  simp only [around, List.nil_append, List.cons_append, receiveAll, hmake, hbreak, Option.bind_some]

/-- Typing a string of up to 255 printable characters and Enter at an empty line has
the string parsed as one command, whatever the Caps Lock state and whichever Shift key
is used, and leaves the line empty and the keyboard at rest. -/
theorem typing_round_trip {k : Driver} (hshell : Reachable k.shell) (hline : k.shell.inputIndex = 0)
    (hrest : k.flags = typingFlags k.flags.capsLockOn false)
    {typed : List (Printable × ShiftKey)} (hlength : typed.length ≤ 255)
    {interrupts : List (UInt8 × UInt8)}
    (hstream : Delivers interrupts (typingStream k.flags.capsLockOn typed)) :
    ∃ k' command, handleInterrupts interrupts k = some k' ∧ k'.parsed = k.parsed ++ [command] ∧
      contents command = some (bytes (typed.map Prod.fst)) ∧
      k'.shell.inputIndex = 0 ∧ k'.shell.cursorPos = 0 ∧ contents k'.shell.inputBuffer = some [] ∧
      k'.flags = k.flags := by
  obtain ⟨a, ha⟩ := hshell.represents
  have hempty : a.editor.left.length + a.editor.right.length = 0 := by
    have hindex := ha.index
    rw [Editor.length_text] at hindex
    omega
  have hleft : a.editor.left = [] := List.length_eq_zero_iff.mp (by omega)
  have hright : a.editor.right = [] := List.length_eq_zero_iff.mp (by omega)
  obtain ⟨k₁, a₁, hrun, hk₁, hleft₁, hright₁⟩ := receive_line typed ha hrest hright (by omega)
  obtain ⟨k', a', command, henter, hk', hnew, hflags, hparsed, hcommand⟩ :=
    receive_enter hk₁.shell (hk₁.flags_eq.trans hrest)
  have htext : a₁.editor.text = typed.map Prod.fst := by
    rw [Editor.text, hleft₁, hright₁, hleft, List.append_nil, List.nil_append]
  refine ⟨k', command, ?_, ?_, ?_, ?_, ?_, ?_, hflags.trans hk₁.flags_eq⟩
  · rw [handleInterrupts_eq hstream, typingStream, receiveAll_append, hrun, Option.bind_some, henter]
  · rw [hparsed, hk₁.parsed_eq]
  · rw [hcommand.contents, htext]
  · rw [hk'.index, hnew]
    rfl
  · rw [hk'.cursor, hnew]
    rfl
  · rw [hk'.line.contents, hnew]
    rfl

/-- A driver at rest, its shell just started. -/
def restingDriver (caps : Bool) : Driver := ⟨typingFlags caps false, shellAfter [], [], []⟩

theorem restingDriver_line (caps : Bool) : (restingDriver caps).shell.inputIndex = 0 := by
  obtain ⟨s, hinit, hs⟩ := shellInit_represents boot
  have hrun : (shellInit boot).bind (runCalls []) = some s := by
    rw [hinit]
    rfl
  have hafter : shellAfter [] = s := Option.some.inj ((shellAfter_eq []).symm.trans hrun)
  rw [restingDriver, hafter, hs.index]
  rfl

/-- `Hi` typed with Caps Lock on: the `i` needs a Shift, the `H` does not. -/
theorem typing_round_trip_hi :
    ∃ k' command, handleInterrupts
        [(1, 0x23), (1, 0xA3), (1, 0x36), (1, 0x17), (1, 0x97), (1, 0xB6), (1, 0x1C), (1, 0x9C)]
        (restingDriver true) = some k' ∧
      k'.parsed = (restingDriver true).parsed ++ [command] ∧
      contents command = some (bytes ([(⟨72, by decide⟩, ShiftKey.left),
        (⟨105, by decide⟩, ShiftKey.right)].map Prod.fst)) ∧
      k'.shell.inputIndex = 0 ∧ k'.shell.cursorPos = 0 ∧ contents k'.shell.inputBuffer = some [] ∧
      k'.flags = (restingDriver true).flags :=
  typing_round_trip (shellAfter_reachable []) (restingDriver_line true) rfl (by decide)
    (delivers_ready (by decide +kernel))

end BinOs.KeyboardTyping
