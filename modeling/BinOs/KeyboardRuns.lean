import BinOs.Keyboard
import BinOs.LineEditorRuns

/-! # Runs of the keyboard driver

No byte stream makes the driver or the shell behind it fault, and the flags after a
stream are a function of the stream and the flags before it. -/
namespace BinOs.KeyboardRuns
open MemoryStrings FramebufferDrawing ShellConsole LineEditor ShellCommands SerialPort Keyboard
open ShellSession LineEditorRefinement CommandExecution LineEditorRuns

/-- Sending a message succeeds and changes the port's history alone. -/
def Reports (format : String) (args : List Arg) : Prop :=
  ∀ k, ∃ uart, report format args k = some { k with uart }

theorem reports_of_isSome {format : String} {args : List Arg}
    (h : (serialPrintf (literal (ascii format)) args).isSome) : Reports format args := by
  intro k
  obtain ⟨out, hout⟩ := Option.isSome_iff_exists.mp h
  exact ⟨k.uart ++ out, by rw [report, hout]; rfl⟩

theorem reports_functionKey : ∀ n < 12, Reports "[F%d]\r\n" [.int ((128 + n : ℕ) - 128 + 1)] := by
  intro n hn
  apply reports_of_isSome
  revert n
  decide +kernel

theorem reports_char (c : UInt8) : Reports "%c" [.int c.toNat] := reports_of_isSome rfl

theorem reports_alt (c : UInt8) : Reports "[ALT+%c]\r\n" [.int c.toNat] := reports_of_isSome rfl

theorem reports_caps (on : Bool) :
    Reports "[CAPS LOCK %s]\r\n" [.string (some (ascii (if on then "ON" else "OFF")))] := by
  apply reports_of_isSome
  cases on
  · rfl
  · rfl

/-- The flags after a key, which only the modifier keys change. -/
def keyFlags (key : UInt8) (pressed : Bool) (f : Flags) : Flags :=
  if key = keyLshift ∨ key = keyRshift then { f with shiftPressed := pressed }
  else if key = keyCtrl then { f with ctrlPressed := pressed }
  else if key = keyAlt then { f with altPressed := pressed }
  else if key = keyCaps ∧ pressed then { f with capsLockOn := !f.capsLockOn }
  else f

def nextFlags (f : Flags) (data : UInt8) : Flags :=
  if data = 0xE0 then { f with extendedScancode := true }
  else keyFlags (decodeKey f (data &&& 0x7F)) (data &&& 0x80 == 0) { f with extendedScancode := false }

/-- A handler goes on, with a shell that represents a session and these flags. -/
def GoesOn (result : Option Driver) (f : Flags) : Prop :=
  ∃ k a, result = some k ∧ Represents k.shell a ∧ k.flags = f

variable {k : Driver} {a : Session}

theorem goesOn_some (h : Represents k.shell a) : GoesOn (some k) k.flags := ⟨k, a, rfl, h, rfl⟩

theorem goesOn_report {format : String} {args : List Arg} (hr : Reports format args)
    (h : Represents k.shell a) : GoesOn (report format args k) k.flags := by
  obtain ⟨uart, hk⟩ := hr k
  exact ⟨_, a, hk, h, rfl⟩

theorem goesOn_onShell {f : Shell → Option Shell}
    (hf : ∃ s' a', f k.shell = some s' ∧ Represents s' a') : GoesOn (onShell f k) k.flags := by
  obtain ⟨s', a', hs', hrep⟩ := hf
  exact ⟨{ k with shell := s' }, a', by rw [onShell, hs']; rfl, hrep, rfl⟩

theorem goesOn_ite {c : Prop} [Decidable c] {x y : Option Driver} {f : Flags}
    (hx : c → GoesOn x f) (hy : ¬ c → GoesOn y f) : GoesOn (if c then x else y) f :=
  iteInduction (motive := fun result => GoesOn result f) hx hy

theorem goesOn_typeChar (h : Represents k.shell a) (c : UInt8) :
    GoesOn (typeChar c k) k.flags := by
  obtain ⟨s', a', -, hs', hrep⟩ := input_succeeds h c
  simp only [typeChar, hs', Option.bind_eq_bind, Option.bind_some]
  split
  · obtain ⟨s'', line, hs'', hrep'⟩ := parseCommand_represents hrep
    exact goesOn_onShell (k := { k with shell := s', parsed := k.parsed ++ [s'.commandBuffer] })
      ⟨s'', _, hs'', hrep'⟩
  · exact ⟨_, _, rfl, hrep, rfl⟩

theorem goesOn_typeChar_report (h : Represents k.shell a) (c : UInt8)
    {format : String} {args : List Arg} (hr : Reports format args) :
    GoesOn ((typeChar c k).bind (report format args)) k.flags := by
  obtain ⟨k', a', hk', hrep, hflags⟩ := goesOn_typeChar h c
  rw [hk', Option.bind_some, ← hflags]
  exact goesOn_report hr hrep

/-- What a special key may do: nothing, a message, or a step of the cursor. -/
inductive SpecialKeyEffect (k : Driver) : Option Driver → Prop
  | nothing : SpecialKeyEffect k (some k)
  | message {format : String} {args : List Arg} (hr : Reports format args) :
      SpecialKeyEffect k (report format args k)
  | left : SpecialKeyEffect k (onShell shellMoveCursorLeft k)
  | right : SpecialKeyEffect k (onShell shellMoveCursorRight k)

theorem handleSpecialKey_effect (k : Driver) (key : UInt8) (pressed : Bool) :
    SpecialKeyEffect k (handleSpecialKey key pressed k) := by
  have hfunction : keyF1 ≤ key ∧ key ≤ keyF12 →
      Reports "[F%d]\r\n" [.int ((key.toNat : ℤ) - keyF1.toNat + 1)] := by
    rintro ⟨hlo, hhi⟩
    have hlo' : 128 ≤ key.toNat := UInt8.le_iff_toNat_le.mp hlo
    have hhi' : key.toNat ≤ 139 := UInt8.le_iff_toNat_le.mp hhi
    have hreport := reports_functionKey (key.toNat - 128) (by omega)
    rwa [Nat.add_sub_cancel' hlo'] at hreport
  have hite {c : Prop} [Decidable c] {x y : Option Driver} (hx : c → SpecialKeyEffect k x)
      (hy : ¬ c → SpecialKeyEffect k y) : SpecialKeyEffect k (if c then x else y) :=
    iteInduction (motive := SpecialKeyEffect k) hx hy
  have hname {format : String} (hsome : (serialPrintf (literal (ascii format)) []).isSome) :
      SpecialKeyEffect k (report format [] k) := .message (reports_of_isSome hsome)
  rw [handleSpecialKey]
  refine hite (fun _ => .nothing) fun _ => ?_
  refine hite (fun _ => hname rfl) fun _ => ?_
  refine hite (fun hf => .message (hfunction hf)) fun _ => ?_
  refine hite (fun _ => hname rfl) fun _ => ?_
  refine hite (fun _ => hname rfl) fun _ => ?_
  refine hite (fun _ => hname rfl) fun _ => ?_
  refine hite (fun _ => hname rfl) fun _ => ?_
  refine hite (fun _ => .left) fun _ => ?_
  refine hite (fun _ => .right) fun _ => ?_
  refine hite (fun _ => hname rfl) fun _ => ?_
  refine hite (fun _ => hname rfl) fun _ => ?_
  refine hite (fun _ => hname rfl) fun _ => ?_
  refine hite (fun _ => hname rfl) fun _ => ?_
  exact hite (fun _ => hname rfl) fun _ => .nothing

theorem SpecialKeyEffect.goesOn {result : Option Driver} (he : SpecialKeyEffect k result)
    (h : Represents k.shell a) : GoesOn result k.flags := by
  cases he with
  | nothing => exact goesOn_some h
  | message hr => exact goesOn_report hr h
  | left => exact goesOn_onShell ⟨_, _, h.moveLeft.choose_spec⟩
  | right => exact goesOn_onShell ⟨_, _, h.moveRight.choose_spec⟩

/-- A modifier key leaves the shell and changes the flags; only Caps Lock reports. -/
theorem handleModifierKey_eq (k : Driver) (key : UInt8) (pressed : Bool) :
    ∃ uart, handleModifierKey key pressed k =
      some { k with flags := keyFlags key pressed k.flags, uart } := by
  rw [handleModifierKey, keyFlags]
  by_cases hshift : key = keyLshift ∨ key = keyRshift
  · rw [if_pos hshift, if_pos hshift]
    exact ⟨k.uart, rfl⟩
  rw [if_neg hshift, if_neg hshift]
  by_cases hctrl : key = keyCtrl
  · rw [if_pos hctrl, if_pos hctrl]
    exact ⟨k.uart, rfl⟩
  rw [if_neg hctrl, if_neg hctrl]
  by_cases halt : key = keyAlt
  · rw [if_pos halt, if_pos halt]
    exact ⟨k.uart, rfl⟩
  rw [if_neg halt, if_neg halt]
  by_cases hcaps : key = keyCaps
  · cases pressed with
    | true =>
      rw [if_pos hcaps, if_pos rfl, if_pos ⟨hcaps, rfl⟩]
      exact reports_caps (!k.flags.capsLockOn)
        { k with flags := { k.flags with capsLockOn := !k.flags.capsLockOn } }
    | false =>
      rw [if_pos hcaps, if_neg Bool.false_ne_true, if_neg fun hall => Bool.false_ne_true hall.2]
      exact ⟨k.uart, rfl⟩
  · rw [if_neg hcaps, if_neg fun hall => hcaps hall.1]
    exact ⟨k.uart, rfl⟩

theorem goesOn_modifierKey (h : Represents k.shell a) (key : UInt8) (pressed : Bool) :
    GoesOn (handleModifierKey key pressed k) (keyFlags key pressed k.flags) := by
  obtain ⟨uart, hk⟩ := handleModifierKey_eq k key pressed
  exact ⟨_, a, hk, h, rfl⟩

theorem printable_table : ∀ n < 95, ∀ caps shift : Bool,
    let c := getCharacter ⟨caps, shift, false, false, false⟩ (UInt8.ofNat (n + 32))
    32 ≤ c ∧ c ≤ 126 := by
  decide +kernel

theorem getCharacter_printable (f : Flags) {key : UInt8} (hkey : 32 ≤ key ∧ key ≤ 126) :
    32 ≤ getCharacter f key ∧ getCharacter f key ≤ 126 := by
  have hlo : 32 ≤ key.toNat := UInt8.le_iff_toNat_le.mp hkey.1
  have hhi : key.toNat ≤ 126 := UInt8.le_iff_toNat_le.mp hkey.2
  have htable := printable_table (key.toNat - 32) (by omega) f.capsLockOn f.shiftPressed
  rwa [Nat.sub_add_cancel hlo, UInt8.ofNat_toNat] at htable

theorem goesOn_printableKey (h : Represents k.shell a) (key : UInt8) (pressed : Bool) :
    GoesOn (handlePrintableKey key pressed k) k.flags := by
  have hclear : ∃ s' a', (shellCancelInput k.shell).map
      (fun s => onScreen shellPrintPrompt (onScreen cmdClear s)) = some s' ∧ Represents s' a' := by
    obtain ⟨s', hs', hrep⟩ := h.cancelInput
    exact ⟨_, _, by rw [hs']; rfl, (hrep.onScreen _).onScreen _⟩
  rw [handlePrintableKey]
  refine goesOn_ite (fun _ => goesOn_some h) fun _ => ?_
  refine goesOn_ite (fun _ => goesOn_some h) fun _ => ?_
  refine goesOn_ite (fun _ => ?_) fun _ => ?_
  · refine goesOn_ite (fun _ => goesOn_onShell ⟨_, _, h.cancelInput.choose_spec⟩) fun _ => ?_
    exact goesOn_ite (fun _ => goesOn_onShell hclear) fun _ => goesOn_some h
  · refine goesOn_ite (fun _ => goesOn_report (reports_alt _) h) fun _ => ?_
    exact goesOn_typeChar_report h _ (reports_char _)

theorem keyFlags_of_not_modifier {key : UInt8} (hkey : ¬ isModifier key) (pressed : Bool)
    (f : Flags) : keyFlags key pressed f = f := by
  rw [keyFlags, if_neg fun h => hkey (h.elim .inl fun h => .inr (.inl h)),
    if_neg fun h => hkey (.inr (.inr (.inl h))), if_neg fun h => hkey (.inr (.inr (.inr (.inl h)))),
    if_neg fun h => hkey (.inr (.inr (.inr (.inr h.1))))]

theorem goesOn_key (h : Represents k.shell a) (key : UInt8) (pressed : Bool) :
    GoesOn (handleKey key pressed k) (keyFlags key pressed k.flags) := by
  rw [handleKey]
  by_cases hmod : isModifier key
  · have hzero : key ≠ 0 := by
      rintro rfl
      exact absurd hmod (by decide)
    rw [if_neg hzero, if_pos hmod]
    exact goesOn_modifierKey h key pressed
  · rw [keyFlags_of_not_modifier hmod, if_neg hmod]
    refine goesOn_ite (fun _ => goesOn_some h) fun _ => ?_
    refine goesOn_ite (fun _ => ?_) fun _ => ?_
    · exact goesOn_ite
        (fun _ => goesOn_typeChar_report h _ (reports_of_isSome rfl))
        fun _ => goesOn_some h
    refine goesOn_ite (fun _ => ?_) fun _ => ?_
    · exact goesOn_ite
        (fun _ => goesOn_typeChar_report h _ (reports_of_isSome rfl))
        fun _ => goesOn_some h
    refine goesOn_ite (fun _ => (handleSpecialKey_effect k key pressed).goesOn h) fun _ => ?_
    exact goesOn_ite (fun _ => goesOn_printableKey h key pressed) fun _ => goesOn_some h

/-- One interrupt whose status says that a byte is there. -/
def receive (data : UInt8) : Driver → Option Driver := keyboardHandler 0x01 data

def receiveAll : List UInt8 → Driver → Option Driver
  | [], k => some k
  | data :: rest, k => (receive data k).bind (receiveAll rest)

/-- Interrupts that deliver these bytes; the other status bits are arbitrary. -/
def Delivers (interrupts : List (UInt8 × UInt8)) (bytes : List UInt8) : Prop :=
  interrupts.map Prod.snd = bytes ∧ ∀ i ∈ interrupts, i.1 &&& 0x01 ≠ 0

/-- Interrupts with no status bit but the ready one. -/
theorem delivers_ready {interrupts : List (UInt8 × UInt8)} {bytes : List UInt8}
    (h : interrupts = bytes.map fun data => (0x01, data)) : Delivers interrupts bytes := by
  subst h
  constructor
  · rw [List.map_map]
    exact List.map_id bytes
  · intro i hi
    obtain ⟨data, -, rfl⟩ := List.mem_map.mp hi
    exact (by decide : (0x01 : UInt8) &&& 0x01 ≠ 0)

theorem keyboardHandler_eq_receive {status : UInt8} (h : status &&& 0x01 ≠ 0) (data : UInt8) :
    keyboardHandler status data = receive data := by
  funext k
  have hone : ¬ (0x01 : UInt8) &&& 0x01 = 0 := by decide
  rw [receive, keyboardHandler, keyboardHandler, if_neg h, if_neg hone]

theorem handleInterrupts_eq {interrupts : List (UInt8 × UInt8)} {bytes : List UInt8}
    (h : Delivers interrupts bytes) (k : Driver) :
    handleInterrupts interrupts k = receiveAll bytes k := by
  obtain ⟨rfl, hstatus⟩ := h
  induction interrupts generalizing k with
  | nil => rfl
  | cons i rest ih =>
    rw [handleInterrupts, keyboardHandler_eq_receive (hstatus i List.mem_cons_self), List.map_cons,
      receiveAll]
    apply Option.bind_congr
    intro k' _
    exact ih k' fun j hj => hstatus j (List.mem_cons_of_mem _ hj)

theorem receiveAll_append (xs ys : List UInt8) (k : Driver) :
    receiveAll (xs ++ ys) k = (receiveAll xs k).bind (receiveAll ys) := by
  induction xs generalizing k with
  | nil => rfl
  | cons x xs ih =>
    rw [List.cons_append, receiveAll, receiveAll, Option.bind_assoc]
    apply Option.bind_congr
    intro k' _
    exact ih k'

theorem code_table : ∀ n < 128, let c := UInt8.ofNat n
    c &&& 0x7F = c ∧ c &&& 0x80 = 0 ∧ c ≠ 0xE0 ∧ (c ||| 0x80) &&& 0x7F = c ∧
      (c ||| 0x80) &&& 0x80 ≠ 0 ∧ (c ||| 0x80 = 0xE0 → c = 0x60) := by
  decide +kernel

theorem code_bits {c : UInt8} (hc : c < 0x80) :
    c &&& 0x7F = c ∧ c &&& 0x80 = 0 ∧ c ≠ 0xE0 ∧ (c ||| 0x80) &&& 0x7F = c ∧
      (c ||| 0x80) &&& 0x80 ≠ 0 ∧ (c ||| 0x80 = 0xE0 → c = 0x60) := by
  have htable := code_table c.toNat (UInt8.lt_iff_toNat_lt.mp hc)
  rwa [UInt8.ofNat_toNat] at htable

theorem receive_byte {data : UInt8} (hmark : data ≠ 0xE0) (k : Driver) :
    receive data k = handleKey (decodeKey k.flags (data &&& 0x7F)) (data &&& 0x80 == 0)
      { k with flags := { k.flags with extendedScancode := false } } := by
  have hone : ¬ (0x01 : UInt8) &&& 0x01 = 0 := by decide
  rw [receive, keyboardHandler, if_neg hone, if_neg hmark]

theorem extended_off {f : Flags} (h : f.extendedScancode = false) :
    { f with extendedScancode := false } = f := by
  cases f
  cases h
  rfl

theorem receive_make {code : UInt8} (hcode : code < 0x80) {k : Driver}
    (hext : k.flags.extendedScancode = false) :
    receive code k = handleKey (scancodeMap code) true k := by
  obtain ⟨hseven, hbit, hmark, -⟩ := code_bits hcode
  rw [receive_byte hmark, extended_off hext, hseven, hbit, decodeKey, hext]
  rfl

theorem receive_break {code : UInt8} (hcode : code < 0x80) (h60 : code ≠ 0x60) {k : Driver}
    (hext : k.flags.extendedScancode = false) :
    receive (code ||| 0x80) k = handleKey (scancodeMap code) false k := by
  obtain ⟨-, -, -, hseven, hbit, hmark⟩ := code_bits hcode
  rw [receive_byte fun h => h60 (hmark h), extended_off hext, hseven, decodeKey, hext,
    beq_eq_false_iff_ne.mpr hbit]
  rfl

/-- One byte never stops the driver. -/
theorem goesOn_receive (h : Represents k.shell a) (data : UInt8) :
    GoesOn (receive data k) (nextFlags k.flags data) := by
  rw [receive, keyboardHandler, if_neg (by decide), nextFlags]
  by_cases hmark : data = 0xE0
  · rw [if_pos hmark, if_pos hmark]
    exact ⟨_, a, rfl, h, rfl⟩
  · rw [if_neg hmark, if_neg hmark]
    exact goesOn_key (k := { k with flags := { k.flags with extendedScancode := false } }) h _ _

theorem goesOn_receiveAll (h : Represents k.shell a) (bytes : List UInt8) :
    GoesOn (receiveAll bytes k) (bytes.foldl nextFlags k.flags) := by
  induction bytes generalizing k a with
  | nil => exact goesOn_some h
  | cons data rest ih =>
    obtain ⟨k', a', hk', hrep, hflags⟩ := goesOn_receive h data
    rw [receiveAll, hk', Option.bind_some, List.foldl_cons, ← hflags]
    exact ih hrep

end BinOs.KeyboardRuns
