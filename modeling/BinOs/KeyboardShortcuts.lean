import BinOs.KeyboardTyping

/-! # Shortcuts on the keyboard and the editor's control codes

`cmd_help` lists shortcuts that the editor implements as control codes. The driver
has a switch of its own for them, which leaves most of them out. -/
namespace BinOs.KeyboardShortcuts
open CheckedBuffers FramebufferDrawing ShellConsole LineEditor Keyboard KeyboardRuns KeyboardTyping
open ShellSession LineEditorRefinement CommandExecution LineEditorRuns

inductive Shortcut
  | ctrlA
  | ctrlK
  | ctrlU
  | ctrlW
  | ctrlC
  | ctrlL
  | home
  | endKey
  | left
  | right

/-- The byte streams of a press: a letter's make code, or a key of the block between
letters and keypad, with its prefix, and the key of the keypad without. -/
def Shortcut.presses : Shortcut → List (List UInt8)
  | .ctrlA => [[0x1E]]
  | .ctrlK => [[0x25]]
  | .ctrlU => [[0x16]]
  | .ctrlW => [[0x11]]
  | .ctrlC => [[0x2E]]
  | .ctrlL => [[0x26]]
  | .home => [[0xE0, 0x47], [0x47]]
  | .endKey => [[0xE0, 0x4F], [0x4F]]
  | .left => [[0xE0, 0x4B], [0x4B]]
  | .right => [[0xE0, 0x4D], [0x4D]]

def Shortcut.isLetter : Shortcut → Bool
  | .ctrlA | .ctrlK | .ctrlU | .ctrlW | .ctrlC | .ctrlL => true
  | _ => false

/-- The editor operation that the help text names. -/
def Shortcut.operation : Shortcut → Shell → Option Shell
  | .ctrlA => fun s => (input 1 s).map Prod.fst
  | .ctrlK => fun s => (input 11 s).map Prod.fst
  | .ctrlU => fun s => (input 21 s).map Prod.fst
  | .ctrlW => fun s => (input 23 s).map Prod.fst
  | .ctrlC => fun s => (input 3 s).map Prod.fst
  | .ctrlL => fun s => (input 12 s).map Prod.fst
  | .home => shellMoveCursorHome
  | .endKey => shellMoveCursorEnd
  | .left => shellMoveCursorLeft
  | .right => shellMoveCursorRight

/-- When the key does what the operation does. The driver ignores Ctrl with A, K, U and W
and only reports Home and End, so the operation must have nothing to do; Ctrl+L empties
the line, which the operation keeps. -/
def Shortcut.agreesAt (s : Shell) : Shortcut → Prop
  | .ctrlA | .home => s.cursorPos = 0
  | .ctrlK | .endKey => s.cursorPos = s.inputIndex
  | .ctrlU | .ctrlL => s.inputIndex = 0
  | .ctrlW => s.cursorPos = 0 ∨ s.cursorPos = 1 ∧ read s.inputBuffer 0 = some 32
  | .ctrlC | .left | .right => True

def SameLine (s s' : Shell) : Prop :=
  s.inputBuffer = s'.inputBuffer ∧ s.inputIndex = s'.inputIndex ∧ s.cursorPos = s'.cursorPos

variable {s s' t : Shell} {a : Session}

theorem SameLine.refl (s : Shell) : SameLine s s := ⟨rfl, rfl, rfl⟩

theorem SameLine.iff (h : SameLine s' t) : SameLine s s' ↔ SameLine s t := by
  obtain ⟨hb, hi, hc⟩ := h
  rw [SameLine, SameLine, hb, hi, hc]

theorem SameLine.iff_left (h : SameLine s s') : SameLine s t ↔ SameLine s' t := by
  obtain ⟨hb, hi, hc⟩ := h
  rw [SameLine, SameLine, hb, hi, hc]

theorem SameLine.comm : SameLine s s' ↔ SameLine s' s :=
  ⟨fun h => ⟨h.1.symm, h.2.1.symm, h.2.2.symm⟩, fun h => ⟨h.1.symm, h.2.1.symm, h.2.2.symm⟩⟩

theorem onScreen_sameLine (f : Screen → Screen) (s : Shell) : SameLine (onScreen f s) s :=
  ⟨rfl, rfl, rfl⟩

theorem draw_sameLine (h : shellDrawInputLine s = some s') : SameLine s' s := by
  obtain ⟨screen, rfl⟩ := shellDrawInputLine_screen h
  exact ⟨rfl, rfl, rfl⟩

theorem write_same {n : ℕ} {b b' : Vector UInt8 n} {i : ℤ} {x : UInt8} (h0 : 0 ≤ i) (hi : i < n)
    (hw : write b i x = some b') (hx : elem b i.toNat = x) : b' = b := by
  obtain ⟨b'', hw', hb⟩ := write_eq b x h0 hi
  obtain rfl := Option.some.inj (hw'.symm.trans hw)
  apply ext_elem
  intro j _
  rw [hb]
  by_cases hj : (j : ℤ) = i
  · have hji : j = i.toNat := by omega
    rw [if_pos hj, hji, hx]
  · rw [if_neg hj]

theorem elem_index (h : Represents s a) : elem s.inputBuffer s.inputIndex.toNat = 0 := by
  have hlen : s.inputIndex.toNat = (bytes a.editor.text).length := by
    rw [length_bytes, h.index, Int.toNat_natCast]
  rw [hlen, h.line.terminator]

theorem home_line (h : Represents s a) :
    ∃ s', shellMoveCursorHome s = some s' ∧ SameLine s' { s with cursorPos := 0 } := by
  obtain ⟨s', hs', -⟩ := h.moveHome
  exact ⟨s', hs', draw_sameLine hs'⟩

theorem end_line (h : Represents s a) :
    ∃ s', shellMoveCursorEnd s = some s' ∧ SameLine s' { s with cursorPos := s.inputIndex } := by
  obtain ⟨s', hs', -⟩ := h.moveEnd
  exact ⟨s', hs', draw_sameLine hs'⟩

/-- Emptying the line changes nothing exactly when it is empty. -/
theorem clear_line (h : Represents s a) :
    ∃ b, (∃ s', shellClearInput s = some s' ∧
        SameLine s' { s with inputBuffer := b, inputIndex := 0, cursorPos := 0 }) ∧
      (SameLine s { s with inputBuffer := b, inputIndex := 0, cursorPos := 0 } ↔
        s.inputIndex = 0) := by
  obtain ⟨b, hw, -⟩ := h.line.truncate (by omega : (0 : ℤ) ≤ 0) (by omega)
  obtain ⟨s', hs', -⟩ := h.clearInput
  refine ⟨b, ⟨s', hs', ?_⟩, fun hsame => hsame.2.1, fun hzero => ⟨?_, hzero, ?_⟩⟩
  · rw [shellClearInput, hw] at hs'
    exact draw_sameLine hs'
  · have hterm := elem_index h
    rw [hzero] at hterm
    exact (write_same (by omega) (by omega) hw hterm).symm
  · have hle := h.cursor_le
    have hcursor := h.cursor
    change s.cursorPos = 0
    omega

theorem cancel_line (h : Represents s a) :
    ∃ b, (∃ s', shellCancelInput s = some s' ∧
        SameLine s' { s with inputBuffer := b, inputIndex := 0, cursorPos := 0 }) ∧
      (SameLine s { s with inputBuffer := b, inputIndex := 0, cursorPos := 0 } ↔
        s.inputIndex = 0) := by
  obtain ⟨b, ⟨s₁, hclear, hline⟩, hiff⟩ := clear_line h
  obtain ⟨s', hs', -⟩ := h.cancelInput
  refine ⟨b, ⟨s', hs', ?_⟩, hiff⟩
  simp only [shellCancelInput, hclear, Option.bind_eq_bind, Option.bind_some] at hs'
  have hdrawn := draw_sameLine hs'
  rwa [(onScreen_sameLine _ _).iff, (onScreen_sameLine _ _).iff, (onScreen_sameLine _ _).iff,
    hline.iff] at hdrawn

theorem killToEnd_line (h : Represents s a) :
    ∃ s', inputKillToEnd s = some s' ∧ (SameLine s s' ↔ s.cursorPos = s.inputIndex) := by
  have hcursor := h.cursor
  have hle := h.cursor_le
  have hindex := h.index
  have hmax := h.index_le
  obtain ⟨b, hw, -⟩ := h.line.truncate (by omega : 0 ≤ s.cursorPos) (by rw [length_bytes]; omega)
  obtain ⟨s', hs', -⟩ := h.killRight
  refine ⟨s', hs', ?_⟩
  rw [inputKillToEnd, hw] at hs'
  rw [SameLine.iff (draw_sameLine hs')]
  constructor
  · intro hsame
    exact hsame.2.1.symm
  · intro heq
    refine ⟨?_, heq.symm, rfl⟩
    have hterm := elem_index h
    rw [← heq] at hterm
    exact (write_same (by omega) (by omega) hw hterm).symm

/-- A word kill whose word starts at the cursor is the only one that keeps the line. -/
theorem killWord_from (h : Represents s a) (hpos : s.cursorPos > 0) {start : ℕ}
    (hstart : wordStart s.inputBuffer s.cursorPos = some (start : ℤ)) (hle : start ≤ s.cursorPos)
    (hs' : inputKillWord s = some s') : SameLine s s' ↔ start = s.cursorPos := by
  have hcursor := h.cursor_le
  have hmax := h.index_le
  obtain ⟨b₁, hshift, hb₁⟩ := shiftDown_eq s.inputBuffer (by omega : 0 ≤ (start : ℤ))
    (by omega : (start : ℤ) ≤ s.inputIndex - (s.cursorPos - start))
    (by omega : 0 ≤ s.cursorPos - start) (by omega)
  obtain ⟨b₂, hw, -⟩ := write_eq b₁ 0
    (by omega : 0 ≤ s.inputIndex - (s.cursorPos - start)) (by omega)
  simp only [inputKillWord, if_pos hpos, hstart, hshift, hw, Option.bind_eq_bind,
    Option.bind_some] at hs'
  rw [SameLine.iff (draw_sameLine hs')]
  constructor
  · rintro ⟨-, -, hc⟩
    exact hc.symm
  · intro heq
    have hd : s.cursorPos - start = 0 := by omega
    -- nothing is shifted, and the terminator is written where it is
    have hshifted : b₁ = s.inputBuffer := by
      apply ext_elem
      intro j _
      rw [hb₁, hd]
      split
      · rfl
      · rfl
    have hwritten : b₂ = b₁ := by
      apply write_same (by omega) (by omega) hw
      rw [hd, Int.sub_zero, hshifted, elem_index h]
    refine ⟨by rw [hwritten, hshifted], ?_, heq.symm⟩
    change s.inputIndex = s.inputIndex - (s.cursorPos - start)
    omega

/-- The word kill keeps the line at its start, and behind one space that is all there
is before the cursor. -/
theorem killWord_line (h : Represents s a) :
    ∃ s', inputKillWord s = some s' ∧ (SameLine s s' ↔
      (s.cursorPos = 0 ∨ s.cursorPos = 1 ∧ read s.inputBuffer 0 = some 32)) := by
  have hcursor := h.cursor
  have hle := h.cursor_le
  have hmax := h.index_le
  obtain ⟨s', hs', -⟩ := h.killWord
  refine ⟨s', hs', ?_⟩
  rcases Int.lt_or_le 0 s.cursorPos with hpos | hzero
  · obtain ⟨start, hstart, hstartLe, hiff⟩ := wordStart_spec s.inputBuffer
      (by omega : 0 < a.editor.left.length) (by omega)
    rw [← hcursor] at hstart
    have hread : read s.inputBuffer 0 = some (elem s.inputBuffer 0) :=
      read_natCast s.inputBuffer (by decide)
    rw [killWord_from h hpos hstart (by omega) hs', hcursor, Int.natCast_inj, hiff, hread,
      Option.some_inj]
    constructor
    · rintro ⟨hone, hspace⟩
      exact .inr ⟨by omega, hspace⟩
    · rintro (hnone | ⟨hone, hspace⟩)
      · omega
      · exact ⟨by omega, hspace⟩
  · have hsame : s = s' := by
      rw [inputKillWord, if_neg (by omega)] at hs'
      exact Option.some.inj hs'
    subst hsame
    constructor
    · intro _
      left
      omega
    · intro _
      exact SameLine.refl s

theorem clearScreen_line (h : Represents s a) :
    ∃ s', inputClearScreen s = some s' ∧ SameLine s' s := by
  obtain ⟨s', hs', -⟩ := h.clearScreen
  have hdrawn := draw_sameLine hs'
  rw [(onScreen_sameLine _ _).iff, (onScreen_sameLine _ _).iff, (onScreen_sameLine _ _).iff]
    at hdrawn
  exact ⟨s', hs', hdrawn⟩

variable {k : Driver}

/-- Ctrl with a letter other than C and L is dropped. -/
theorem letter_table : ∀ code ∈ [(0x1E : UInt8), 0x25, 0x16, 0x11], ∀ caps shift : Bool,
    let c := getCharacter (typingFlags caps shift) (scancodeMap code)
    c ≠ 99 ∧ c ≠ 67 ∧ c ≠ 108 ∧ c ≠ 76 := by
  decide +kernel

theorem letter_keys : ∀ code ∈ [(0x1E : UInt8), 0x25, 0x16, 0x11, 0x2E, 0x26],
    code < 0x80 ∧ 32 ≤ scancodeMap code ∧ scancodeMap code ≤ 126 := by
  decide +kernel

theorem getCharacter_typingFlags (f : Flags) (key : UInt8) :
    getCharacter f key = getCharacter (typingFlags f.capsLockOn f.shiftPressed) key := rfl

/-- A letter pressed with Ctrl reaches the driver's own switch. -/
theorem receive_ctrl_letter {code : UInt8}
    (hcode : code ∈ [(0x1E : UInt8), 0x25, 0x16, 0x11, 0x2E, 0x26])
    (hext : k.flags.extendedScancode = false) (hctrl : k.flags.ctrlPressed = true) :
    receive code k =
      if getCharacter k.flags (scancodeMap code) = 99 ∨ getCharacter k.flags (scancodeMap code) = 67
      then onShell shellCancelInput k
      else if getCharacter k.flags (scancodeMap code) = 108 ∨
          getCharacter k.flags (scancodeMap code) = 76 then
        onShell (fun s => (shellCancelInput s).map fun s =>
          onScreen shellPrintPrompt (onScreen cmdClear s)) k
      else some k := by
  obtain ⟨hlt, hkey⟩ := letter_keys code hcode
  have hc := getCharacter_printable k.flags hkey
  have hzero : getCharacter k.flags (scancodeMap code) ≠ 0 := printable_ne_zero ⟨_, hc⟩
  rw [receive_make hlt hext, handleKey_printable hkey, handlePrintableKey]
  simp only [Bool.not_true, Bool.false_eq_true, if_false, if_neg hzero, hctrl, if_true]

theorem receive_ignored {code : UInt8} (hcode : code ∈ [(0x1E : UInt8), 0x25, 0x16, 0x11])
    (hext : k.flags.extendedScancode = false) (hctrl : k.flags.ctrlPressed = true) :
    receive code k = some k := by
  have hmem : code ∈ [(0x1E : UInt8), 0x25, 0x16, 0x11, 0x2E, 0x26] :=
    List.mem_append_left [0x2E, 0x26] hcode
  obtain ⟨hc, hC, hl, hL⟩ := letter_table code hcode k.flags.capsLockOn k.flags.shiftPressed
  rw [← getCharacter_typingFlags] at hc hC hl hL
  rw [receive_ctrl_letter hmem hext hctrl, if_neg (not_or.mpr ⟨hc, hC⟩), if_neg (not_or.mpr ⟨hl, hL⟩)]

theorem cancel_table : ∀ caps shift : Bool,
    let c := getCharacter (typingFlags caps shift) (scancodeMap 0x2E)
    let l := getCharacter (typingFlags caps shift) (scancodeMap 0x26)
    (c = 99 ∨ c = 67) ∧ ¬ (l = 99 ∨ l = 67) ∧ (l = 108 ∨ l = 76) := by
  decide +kernel

theorem receive_ctrlC (hext : k.flags.extendedScancode = false)
    (hctrl : k.flags.ctrlPressed = true) : receive 0x2E k = onShell shellCancelInput k := by
  obtain ⟨hc, -⟩ := cancel_table k.flags.capsLockOn k.flags.shiftPressed
  rw [← getCharacter_typingFlags] at hc
  rw [receive_ctrl_letter (by decide) hext hctrl, if_pos hc]

theorem receive_ctrlL (hext : k.flags.extendedScancode = false)
    (hctrl : k.flags.ctrlPressed = true) :
    receive 0x26 k = onShell (fun s => (shellCancelInput s).map fun s =>
      onScreen shellPrintPrompt (onScreen cmdClear s)) k := by
  obtain ⟨-, hc, hl⟩ := cancel_table k.flags.capsLockOn k.flags.shiftPressed
  rw [← getCharacter_typingFlags] at hc hl
  rw [receive_ctrl_letter (by decide) hext hctrl, if_neg hc, if_pos hl]

theorem receiveAll_single (data : UInt8) : receiveAll [data] k = receive data k := by
  rw [receiveAll]
  cases receive data k <;> rfl

theorem receiveAll_prefixed {code : UInt8} (hcode : code < 0x80)
    (hext : k.flags.extendedScancode = false) :
    receiveAll [0xE0, code] k = handleKey (extendedScancodeMap code) true k := by
  obtain ⟨hseven, hbit, hmark, -⟩ := code_bits hcode
  have hfirst : receive 0xE0 k =
      some { k with flags := { k.flags with extendedScancode := true } } := rfl
  rw [receiveAll, hfirst, Option.bind_some, receiveAll_single, receive_byte hmark, hseven, hbit]
  change handleKey (extendedScancodeMap code) true
    { k with flags := { k.flags with extendedScancode := false } } = _
  rw [extended_off hext]

/-- A key that both blocks have gives one value with and without the prefix. -/
theorem receive_block {code key : UInt8} (hcode : code < 0x80)
    (hmain : scancodeMap code = key) (hextended : extendedScancodeMap code = key)
    (hext : k.flags.extendedScancode = false) {press : List UInt8}
    (hpress : press ∈ [[0xE0, code], [code]]) : receiveAll press k = handleKey key true k := by
  rw [List.mem_pair] at hpress
  rcases hpress with rfl | rfl
  · rw [receiveAll_prefixed hcode hext, hextended]
  · rw [receiveAll_single, receive_make hcode hext, hmain]

theorem input_map {c : UInt8} (h : inputEffect c s = some s') :
    (input c s).map Prod.fst = some s' := by
  rw [input, h]
  rfl

theorem sameLine_cursor (s : Shell) (i : ℤ) :
    SameLine s { s with cursorPos := i } ↔ s.cursorPos = i :=
  ⟨fun h => h.2.2, fun h => ⟨rfl, rfl, h⟩⟩

/-- A key whose press is only reported leaves the line as it is. -/
theorem reported_line {format : String} (hr : Reports format [])
    {operation : Shell → Option Shell} {i : ℤ}
    (hop : ∃ s', operation k.shell = some s' ∧ SameLine s' { k.shell with cursorPos := i }) :
    ∃ k' s', report format [] k = some k' ∧ operation k.shell = some s' ∧
      (SameLine k'.shell s' ↔ k.shell.cursorPos = i) := by
  obtain ⟨uart, hk'⟩ := hr k
  obtain ⟨s', hs', hline⟩ := hop
  exact ⟨_, s', hk', hs', hline.iff.trans (sameLine_cursor k.shell i)⟩

/-- A key that calls the operation itself. -/
theorem called_line {operation : Shell → Option Shell}
    (hop : ∃ s', operation k.shell = some s' ∧ Represents s' a) :
    ∃ k' s', onShell operation k = some k' ∧ operation k.shell = some s' ∧
      (SameLine k'.shell s' ↔ True) := by
  obtain ⟨s', hs', -⟩ := hop
  exact ⟨{ k with shell := s' }, s', by rw [onShell, hs']; rfl, hs',
    iff_true_intro (SameLine.refl s')⟩

/-- Ctrl+L cancels the line, which its control code keeps. -/
theorem ctrlL_line (ha : Represents k.shell a) :
    ∃ k' s', onShell (fun s => (shellCancelInput s).map fun s =>
        onScreen shellPrintPrompt (onScreen cmdClear s)) k = some k' ∧
      inputClearScreen k.shell = some s' ∧
      (SameLine k'.shell s' ↔ k.shell.inputIndex = 0) := by
  obtain ⟨b, ⟨s₁, hcancel, hcancelled⟩, hiff⟩ := cancel_line ha
  obtain ⟨s', hs', hkept⟩ := clearScreen_line ha
  refine ⟨{ k with shell := onScreen shellPrintPrompt (onScreen cmdClear s₁) }, s', ?_, hs', ?_⟩
  · rw [onShell, hcancel]
    rfl
  · rw [hkept.iff, (onScreen_sameLine _ _).iff_left, (onScreen_sameLine _ _).iff_left,
      hcancelled.iff_left, SameLine.comm, hiff]

/-- Pressing a shortcut does to the line what the listed operation does exactly in the
states where `agreesAt` holds. -/
theorem shortcut_agrees_iff (hshell : Reachable k.shell) (hext : k.flags.extendedScancode = false)
    (c : Shortcut) (hctrl : c.isLetter = true → k.flags.ctrlPressed = true) {press : List UInt8}
    (hpress : press ∈ c.presses) {interrupts : List (UInt8 × UInt8)}
    (hstream : Delivers interrupts press) :
    ∃ k' s', handleInterrupts interrupts k = some k' ∧ c.operation k.shell = some s' ∧
      (SameLine k'.shell s' ↔ c.agreesAt k.shell) := by
  obtain ⟨a, ha⟩ := hshell.represents
  rw [handleInterrupts_eq hstream]
  cases c with
  | ctrlA =>
    obtain ⟨s', hs', hline⟩ := home_line ha
    rw [List.mem_singleton.mp hpress, receiveAll_single,
      receive_ignored (by decide) hext (hctrl rfl)]
    exact ⟨k, s', rfl, input_map hs', hline.iff.trans (sameLine_cursor k.shell 0)⟩
  | ctrlK =>
    obtain ⟨s', hs', hiff⟩ := killToEnd_line ha
    rw [List.mem_singleton.mp hpress, receiveAll_single,
      receive_ignored (by decide) hext (hctrl rfl)]
    exact ⟨k, s', rfl, input_map hs', hiff⟩
  | ctrlU =>
    obtain ⟨b, ⟨s', hs', hline⟩, hiff⟩ := clear_line ha
    rw [List.mem_singleton.mp hpress, receiveAll_single,
      receive_ignored (by decide) hext (hctrl rfl)]
    exact ⟨k, s', rfl, input_map hs', hline.iff.trans hiff⟩
  | ctrlW =>
    obtain ⟨s', hs', hiff⟩ := killWord_line ha
    rw [List.mem_singleton.mp hpress, receiveAll_single,
      receive_ignored (by decide) hext (hctrl rfl)]
    exact ⟨k, s', rfl, input_map (inputEffect_killWord ▸ hs'), hiff⟩
  | ctrlC =>
    rw [List.mem_singleton.mp hpress, receiveAll_single, receive_ctrlC hext (hctrl rfl)]
    obtain ⟨k', s', hk', hs', hiff⟩ := called_line ha.cancelInput
    exact ⟨k', s', hk', input_map hs', hiff⟩
  | ctrlL =>
    rw [List.mem_singleton.mp hpress, receiveAll_single, receive_ctrlL hext (hctrl rfl)]
    obtain ⟨k', s', hk', hs', hiff⟩ := ctrlL_line ha
    exact ⟨k', s', hk', input_map hs', hiff⟩
  | home =>
    rw [receive_block (by decide) (by decide : scancodeMap 0x47 = keyHome) (by decide) hext hpress]
    exact reported_line (reports_of_isSome rfl : Reports "[HOME]\r\n" []) (home_line ha)
  | endKey =>
    rw [receive_block (by decide) (by decide : scancodeMap 0x4F = keyEnd) (by decide) hext hpress]
    exact reported_line (reports_of_isSome rfl : Reports "[END]\r\n" []) (end_line ha)
  | left =>
    rw [receive_block (by decide) (by decide : scancodeMap 0x4B = keyLeft) (by decide) hext hpress]
    exact called_line ha.moveLeft
  | right =>
    rw [receive_block (by decide) (by decide : scancodeMap 0x4D = keyRight) (by decide) hext hpress]
    exact called_line ha.moveRight

/-- A driver with a Ctrl key held and `ab` in the line. -/
def ctrlDriver : Driver :=
  ⟨⟨false, false, true, false, false⟩, shellAfter [.input 97, .input 98], [], []⟩

/-- The word kill's letter with Ctrl held: the operation would kill `ab`. -/
theorem shortcut_agrees_iff_ctrlW :
    ∃ k' s', handleInterrupts [(1, 0x11)] ctrlDriver = some k' ∧
      Shortcut.ctrlW.operation ctrlDriver.shell = some s' ∧
      (SameLine k'.shell s' ↔ Shortcut.ctrlW.agreesAt ctrlDriver.shell) :=
  shortcut_agrees_iff (shellAfter_reachable [.input 97, .input 98]) rfl .ctrlW (fun _ => rfl)
    (List.mem_singleton.mpr rfl) (delivers_ready rfl)

/-- With the cursor behind `ab`, Ctrl+A leaves it there; the operation moves it home. -/
theorem ctrlA_leaves_the_cursor :
    Reachable ctrlDriver.shell ∧ ctrlDriver.flags.ctrlPressed = true ∧
      [0x1E] ∈ Shortcut.ctrlA.presses ∧
      ¬ ∃ k' s', handleInterrupts [(1, 0x1E)] ctrlDriver = some k' ∧
        Shortcut.ctrlA.operation ctrlDriver.shell = some s' ∧ SameLine k'.shell s' := by
  refine ⟨shellAfter_reachable [.input 97, .input 98], rfl, List.mem_singleton.mpr rfl, ?_⟩
  rintro ⟨k', s', hrun, hop, -, -, hcursor⟩
  have hrun' : handleInterrupts [(1, 0x1E)] ctrlDriver = some ctrlDriver := by
    rw [handleInterrupts_eq (delivers_ready rfl : Delivers [(1, 0x1E)] [0x1E]), receiveAll_single,
      receive_ignored (by decide) rfl rfl]
  obtain rfl := Option.some.inj (hrun.symm.trans hrun')
  obtain ⟨a, ha⟩ := (shellAfter_reachable [.input 97, .input 98]).represents
  obtain ⟨s₁, hs₁, -, -, hhome⟩ := home_line ha
  have heffect : inputEffect 1 ctrlDriver.shell = some s₁ := hs₁
  have hop' : Shortcut.ctrlA.operation ctrlDriver.shell = some s₁ := input_map heffect
  obtain rfl := Option.some.inj (hop.symm.trans hop')
  have htwo : ctrlDriver.shell.cursorPos = 2 := by decide +kernel
  rw [htwo, hhome] at hcursor
  exact absurd hcursor (by decide)

end BinOs.KeyboardShortcuts
