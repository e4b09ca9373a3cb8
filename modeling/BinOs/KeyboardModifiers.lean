import BinOs.KeyboardTyping

/-! # The modifier flags and the keys held down

Key events are turned into the bytes a keyboard sends for them. The driver keeps one
flag for the two keys of a kind, so the flag follows the last event of the kind and
not the keys held. -/
namespace BinOs.KeyboardModifiers
open Keyboard KeyboardRuns KeyboardTyping LineEditor LineEditorRefinement LineEditorRuns

/-- A key's seven-bit code; 0x60 would make a break code of the prefix. -/
abbrev Code := { c : UInt8 // c < 0x80 ∧ c ≠ 0x60 }

/-- `extended` keys send the prefix 0xE0 first. -/
inductive Key
  | main (code : Code)
  | extended (code : Code)
  | pause
  deriving DecidableEq

inductive Modifier
  | shift
  | ctrl
  | alt
  deriving DecidableEq

def leftCtrl : Key := .main ⟨0x1D, by decide⟩
def rightCtrl : Key := .extended ⟨0x1D, by decide⟩

def Key.modifier : Key → Option Modifier
  | .main c =>
    if c.1 = 0x2A ∨ c.1 = 0x36 then some .shift
    else if c.1 = 0x1D then some .ctrl
    else if c.1 = 0x38 then some .alt
    else none
  | .extended c =>
    if c.1 = 0x1D then some .ctrl else if c.1 = 0x38 then some .alt else none
  | .pause => none

structure KeyEvent where
  key : Key
  down : Bool

/-- Which keys are down, as a function. -/
abbrev Held := Key → Bool

def Held.after (held : Held) (e : KeyEvent) : Held := Function.update held e.key e.down

def codeBytes (c : Code) (down : Bool) : UInt8 := if down then c.1 else c.1 ||| 0x80

/-- Pause has no break code. It sends a Ctrl and a Num Lock of its own, or the Break
code while a Ctrl key is down. -/
def eventBytes (held : Held) (e : KeyEvent) : List UInt8 :=
  match e.key with
  | .main c => [codeBytes c e.down]
  | .extended c => [0xE0, codeBytes c e.down]
  | .pause =>
    if !e.down then []
    else if held leftCtrl || held rightCtrl then [0xE0, 0x46, 0xE0, 0xC6]
    else [0xE1, 0x1D, 0x45, 0xE1, 0x9D, 0xC5]

def eventStream (held : Held) : List KeyEvent → List UInt8
  | [] => []
  | e :: events => eventBytes held e ++ eventStream (held.after e) events

def noneHeld : Held := fun _ => false

/-- A key goes down only when it is up, and up only when it is down. -/
def Alternates (held : Held) : List KeyEvent → Prop
  | [] => True
  | e :: events => held e.key = !e.down ∧ Alternates (held.after e) events

/-- Some key of the kind is down. -/
def HoldsModifier (held : Held) (m : Modifier) : Prop := ∃ key, key.modifier = some m ∧ held key = true

/-- Whether the last event of the kind was a key going down; at first, `before`. -/
def lastDown (m : Modifier) (before : Bool) (events : List KeyEvent) : Bool :=
  events.foldl (fun last e => if e.key.modifier = some m then e.down else last) before

def modifierFlag (f : Flags) : Modifier → Bool
  | .shift => f.shiftPressed
  | .ctrl => f.ctrlPressed
  | .alt => f.altPressed

/-- The kind of key that the driver takes a key value for. -/
def keyModifier (key : UInt8) : Option Modifier :=
  if key = keyLshift ∨ key = keyRshift then some .shift
  else if key = keyCtrl then some .ctrl
  else if key = keyAlt then some .alt
  else none

theorem keyFlags_modifier (key : UInt8) (pressed : Bool) (f : Flags) (m : Modifier) :
    modifierFlag (keyFlags key pressed f) m =
      if keyModifier key = some m then pressed else modifierFlag f m := by
  rw [keyFlags, keyModifier]
  by_cases hshift : key = keyLshift ∨ key = keyRshift
  · rw [if_pos hshift, if_pos hshift]
    cases m <;> rfl
  rw [if_neg hshift, if_neg hshift]
  by_cases hctrl : key = keyCtrl
  · rw [if_pos hctrl, if_pos hctrl]
    cases m <;> rfl
  rw [if_neg hctrl, if_neg hctrl]
  by_cases halt : key = keyAlt
  · rw [if_pos halt, if_pos halt]
    cases m <;> rfl
  rw [if_neg halt, if_neg halt]
  by_cases hcaps : key = keyCaps ∧ pressed
  · rw [if_pos hcaps]
    cases m <;> rfl
  · rw [if_neg hcaps]
    cases m <;> rfl

theorem keyFlags_extended (key : UInt8) (pressed : Bool) (f : Flags) :
    (keyFlags key pressed f).extendedScancode = f.extendedScancode := by
  rw [keyFlags]
  split_ifs
  · rfl
  · rfl
  · rfl
  · rfl
  · rfl

/-- The driver's two tables give the modifier keys the kinds they have. -/
theorem kind_table : ∀ n < 128, ∀ h : UInt8.ofNat n < 0x80 ∧ UInt8.ofNat n ≠ 0x60,
    keyModifier (scancodeMap (UInt8.ofNat n)) = (Key.main ⟨UInt8.ofNat n, h⟩).modifier ∧
      keyModifier (extendedScancodeMap (UInt8.ofNat n)) =
        (Key.extended ⟨UInt8.ofNat n, h⟩).modifier := by
  decide +kernel

theorem kind_eq (c : Code) : keyModifier (scancodeMap c.1) = (Key.main c).modifier ∧
    keyModifier (extendedScancodeMap c.1) = (Key.extended c).modifier := by
  obtain ⟨c, hc⟩ := c
  have hlt : c.toNat < 128 := UInt8.lt_iff_toNat_lt.mp hc.1
  have hofNat : UInt8.ofNat c.toNat = c := UInt8.ofNat_toNat
  obtain ⟨hmain, hextended⟩ := kind_table c.toNat hlt (hofNat.symm ▸ hc)
  simp only [hofNat] at hmain hextended
  exact ⟨hmain, hextended⟩

variable {f : Flags} {held : Held}

theorem nextFlags_code (c : Code) (down : Bool) :
    nextFlags f (codeBytes c down) =
      keyFlags (decodeKey f c.1) down { f with extendedScancode := false } := by
  obtain ⟨hseven, hbit, hmark, hseven', hbit', hmark'⟩ := code_bits c.2.1
  cases down with
  | true =>
    rw [codeBytes, if_pos rfl, nextFlags, if_neg hmark, hseven, hbit]
    rfl
  | false =>
    rw [codeBytes, if_neg Bool.false_ne_true, nextFlags, if_neg fun h => c.2.2 (hmark' h), hseven',
      beq_eq_false_iff_ne.mpr hbit']

theorem holdsModifier_ctrl (h : HoldsModifier held .ctrl) :
    (held leftCtrl || held rightCtrl) = true := by
  obtain ⟨key, hkind, hheld⟩ := h
  rw [Bool.or_eq_true]
  cases key with
  | main c =>
    have hc : c.1 = 0x1D := by
      by_contra hc
      simp only [Key.modifier, if_neg hc] at hkind
      split_ifs at hkind
      all_goals cases hkind
    left
    rw [← hheld, leftCtrl]
    congr 2
    exact Subtype.ext hc.symm
  | extended c =>
    have hc : c.1 = 0x1D := by
      by_contra hc
      simp only [Key.modifier, if_neg hc] at hkind
      split_ifs at hkind
      cases hkind
    right
    rw [← hheld, rightCtrl]
    congr 2
    exact Subtype.ext hc.symm
  | pause => exact absurd hkind (by simp [Key.modifier])

/-- The flags after some events: each is what the last event of its kind was, and a
last event that was a key going down leaves that key held. -/
structure Tracks (f : Flags) (last : Modifier → Bool) (held : Held) : Prop where
  prefix_done : f.extendedScancode = false
  flag : ∀ m, modifierFlag f m = last m
  holds : ∀ m, last m = true → HoldsModifier held m

variable {last : Modifier → Bool}

/-- The Ctrl press and release that Pause sends while no Ctrl is down cancel out. -/
theorem pauseBytes_flags (h : Tracks f last held) (down : Bool) :
    (eventBytes held ⟨.pause, down⟩).foldl nextFlags f = f := by
  cases down with
  | false => rfl
  | true =>
    by_cases hctrl : (held leftCtrl || held rightCtrl) = true
    · have hfold : (eventBytes held ⟨.pause, true⟩).foldl nextFlags f =
          { f with extendedScancode := false } := by
        simp only [eventBytes, hctrl, if_true]
        rfl
      rw [hfold, extended_off h.prefix_done]
    · -- no Ctrl is down, so the flag that Pause clears is clear already
      have hoff : f.ctrlPressed = false := by
        by_contra hon
        rw [Bool.not_eq_false] at hon
        exact hctrl (holdsModifier_ctrl (h.holds .ctrl ((h.flag .ctrl).symm.trans hon)))
      obtain ⟨caps, shift, ctrl, alt, extended⟩ := f
      cases hoff
      cases h.prefix_done
      simp only [eventBytes, hctrl]
      rfl

/-- An event of a kind sets that kind's flag, and an event of no kind sets none. -/
theorem eventBytes_flags (h : Tracks f last held) (e : KeyEvent) :
    ((eventBytes held e).foldl nextFlags f).extendedScancode = false ∧
      ∀ m, modifierFlag ((eventBytes held e).foldl nextFlags f) m =
        if e.key.modifier = some m then e.down else modifierFlag f m := by
  obtain ⟨key, down⟩ := e
  cases key with
  | main c =>
    have hfold : (eventBytes held ⟨.main c, down⟩).foldl nextFlags f =
        keyFlags (scancodeMap c.1) down f := by
      change nextFlags f (codeBytes c down) = _
      rw [nextFlags_code, decodeKey, h.prefix_done, extended_off h.prefix_done]
      rfl
    rw [hfold]
    refine ⟨by rw [keyFlags_extended, h.prefix_done], fun m => ?_⟩
    rw [keyFlags_modifier, (kind_eq c).1]
  | extended c =>
    have hfold : (eventBytes held ⟨.extended c, down⟩).foldl nextFlags f =
        keyFlags (extendedScancodeMap c.1) down { f with extendedScancode := false } := by
      change nextFlags (nextFlags f 0xE0) (codeBytes c down) = _
      rw [nextFlags_code]
      rfl
    rw [hfold]
    refine ⟨by rw [keyFlags_extended], fun m => ?_⟩
    rw [keyFlags_modifier, (kind_eq c).2, extended_off h.prefix_done]
  | pause =>
    have hnone : ∀ m, Key.pause.modifier ≠ some m := by
      intro m hm
      cases hm
    rw [pauseBytes_flags h down]
    exact ⟨h.prefix_done, fun m => (if_neg (hnone m)).symm⟩

theorem holdsModifier_after {m : Modifier} (e : KeyEvent)
    (h : (if e.key.modifier = some m then e.down else last m) = true)
    (hheld : last m = true → HoldsModifier held m) : HoldsModifier (held.after e) m := by
  by_cases hkind : e.key.modifier = some m
  · rw [if_pos hkind] at h
    exact ⟨e.key, hkind, by rw [Held.after, Function.update_self, h]⟩
  · rw [if_neg hkind] at h
    obtain ⟨key, hkey, hdown⟩ := hheld h
    refine ⟨key, hkey, ?_⟩
    have hne : key ≠ e.key := by
      rintro rfl
      exact hkind hkey
    rw [Held.after, Function.update_of_ne hne, hdown]

theorem tracks_event (h : Tracks f last held) (e : KeyEvent) :
    Tracks ((eventBytes held e).foldl nextFlags f)
      (fun m => if e.key.modifier = some m then e.down else last m) (held.after e) := by
  obtain ⟨hmark, hflags⟩ := eventBytes_flags h e
  refine ⟨hmark, fun m => ?_, fun m hm => holdsModifier_after e hm (h.holds m)⟩
  rw [hflags, h.flag]

def heldAfter (held : Held) (events : List KeyEvent) : Held := events.foldl Held.after held

theorem tracks_stream (h : Tracks f last held) (events : List KeyEvent) :
    Tracks ((eventStream held events).foldl nextFlags f) (fun m => lastDown m (last m) events)
      (heldAfter held events) := by
  induction events generalizing f last held with
  | nil => exact h
  | cons e events ih =>
    rw [eventStream, List.foldl_append]
    exact ih (tracks_event h e)

/-- After any key events, the flags tell which modifiers are held exactly when, for each
kind that is held, the kind's last event was a key going down: when the last of them is
not the release of one key while the other of the two stays down. -/
theorem modifiers_follow_keys_iff {k : Driver} (hshell : Reachable k.shell)
    (hrest : k.flags = typingFlags k.flags.capsLockOn false) (events : List KeyEvent)
    {interrupts : List (UInt8 × UInt8)} (hstream : Delivers interrupts (eventStream noneHeld events)) :
    ∃ k', handleInterrupts interrupts k = some k' ∧
      ((∀ m, modifierFlag k'.flags m = true ↔ HoldsModifier (heldAfter noneHeld events) m) ↔
        ∀ m, HoldsModifier (heldAfter noneHeld events) m → lastDown m false events = true) := by
  obtain ⟨a, ha⟩ := hshell.represents
  obtain ⟨k', a', hrun, -, hflags⟩ := goesOn_receiveAll ha (eventStream noneHeld events)
  have hstart : Tracks k.flags (fun _ => false) noneHeld := by
    rw [hrest]
    refine ⟨rfl, fun m => ?_, fun m hm => absurd hm Bool.false_ne_true⟩
    cases m
    · rfl
    · rfl
    · rfl
  have htracks := tracks_stream hstart events
  rw [← hflags] at htracks
  refine ⟨k', by rw [handleInterrupts_eq hstream, hrun], ?_⟩
  constructor
  · intro h m hm
    rw [← htracks.flag m]
    exact (h m).mpr hm
  · intro h m
    rw [htracks.flag m]
    exact ⟨htracks.holds m, h m⟩

def leftShift : Key := .main ⟨0x2A, by decide⟩
def rightShift : Key := .main ⟨0x36, by decide⟩

/-- Both Ctrl keys down and both up again. -/
theorem modifiers_follow_keys_iff_ctrl :
    ∃ k', handleInterrupts [(1, 0x1D), (1, 0xE0), (1, 0x1D), (1, 0xE0), (1, 0x9D), (1, 0x9D)]
        (restingDriver false) = some k' ∧
      ((∀ m, modifierFlag k'.flags m = true ↔ HoldsModifier (heldAfter noneHeld
          [⟨leftCtrl, true⟩, ⟨rightCtrl, true⟩, ⟨rightCtrl, false⟩, ⟨leftCtrl, false⟩]) m) ↔
        ∀ m, HoldsModifier (heldAfter noneHeld
          [⟨leftCtrl, true⟩, ⟨rightCtrl, true⟩, ⟨rightCtrl, false⟩, ⟨leftCtrl, false⟩]) m →
          lastDown m false
            [⟨leftCtrl, true⟩, ⟨rightCtrl, true⟩, ⟨rightCtrl, false⟩, ⟨leftCtrl, false⟩] = true) :=
  modifiers_follow_keys_iff (shellAfter_reachable []) rfl
    [⟨leftCtrl, true⟩, ⟨rightCtrl, true⟩, ⟨rightCtrl, false⟩, ⟨leftCtrl, false⟩]
    (delivers_ready (by decide))

/-- Left Shift down, right Shift down, left Shift up: the flag is clear although the
right Shift is held. -/
def overlappingShifts : List KeyEvent :=
  [⟨leftShift, true⟩, ⟨rightShift, true⟩, ⟨leftShift, false⟩]

theorem overlapping_shifts_lose_the_flag :
    Alternates noneHeld overlappingShifts ∧
      Delivers [(1, 0x2A), (1, 0x36), (1, 0xAA)] (eventStream noneHeld overlappingShifts) ∧
      ¬ ∃ k', handleInterrupts [(1, 0x2A), (1, 0x36), (1, 0xAA)] (restingDriver false) = some k' ∧
        ∀ m, modifierFlag k'.flags m = true ↔
          HoldsModifier (heldAfter noneHeld overlappingShifts) m := by
  refine ⟨⟨rfl, rfl, rfl, trivial⟩, delivers_ready (by decide), ?_⟩
  rintro ⟨k', hrun, h⟩
  have hrun' : handleInterrupts [(1, 0x2A), (1, 0x36), (1, 0xAA)] (restingDriver false) =
      some { restingDriver false with flags := typingFlags false false } := rfl
  rw [hrun] at hrun'
  cases hrun'
  have hheld : HoldsModifier (heldAfter noneHeld overlappingShifts) .shift :=
    ⟨rightShift, by decide, by decide⟩
  exact Bool.false_ne_true ((h .shift).mpr hheld)

end BinOs.KeyboardModifiers
