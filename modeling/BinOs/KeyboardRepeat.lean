import BinOs.KeyboardModifiers
import BinOs.LastWriter
import Mathlib.Algebra.Group.Nat.Even
import Mathlib.Data.Nat.Bits

/-! # Repeated make codes of a modifier key

A key held down sends its make code again and again. The driver does not know which keys
are down already: a repeat sets the flag of a Shift, Ctrl or Alt key once more and
toggles Caps Lock once more. -/
namespace BinOs.KeyboardRepeat
open Keyboard KeyboardRuns KeyboardTyping KeyboardModifiers LastWriter LineEditor LineEditorRuns

/-- A key as a stream names it: behind the prefix or not, and its seven-bit code. -/
structure ScanKey where
  extended : Bool
  code : UInt8
  deriving DecidableEq

inductive Kind
  | modifier (m : Modifier)
  | capsLock
  deriving DecidableEq

def ScanKey.kind (key : ScanKey) : Option Kind :=
  if key.extended then
    if key.code = 0x1D then some (.modifier .ctrl)
    else if key.code = 0x38 then some (.modifier .alt)
    else none
  else if key.code = 0x2A ∨ key.code = 0x36 then some (.modifier .shift)
  else if key.code = 0x1D then some (.modifier .ctrl)
  else if key.code = 0x38 then some (.modifier .alt)
  else if key.code = 0x3A then some .capsLock
  else none

structure ScanEvent where
  key : ScanKey
  down : Bool

def press (key : ScanKey) : ScanEvent := ⟨key, true⟩

/-- The key events that a stream tells, with a prefix sent before it or not. -/
def scanEvents : Bool → List UInt8 → List ScanEvent
  | _, [] => []
  | extended, data :: rest =>
    if data = 0xE0 then scanEvents true rest
    else ⟨⟨extended, data &&& 0x7F⟩, data &&& 0x80 == 0⟩ :: scanEvents false rest

/-- Whether a prefix still waits for its code. -/
def prefixOpen : Bool → List UInt8 → Bool
  | extended, [] => extended
  | _, data :: rest => prefixOpen (data == 0xE0) rest

/-- The bytes that a key sends when it goes down, and again for each repeat. -/
def makeBytes (key : ScanKey) : List UInt8 :=
  if key.extended then [0xE0, key.code] else [key.code]

def repeats (n : ℕ) (key : ScanKey) : List UInt8 := (List.replicate n (makeBytes key)).flatten

/-- What an event tells of one key. -/
def keyEffect (key : ScanKey) (e : ScanEvent) : Option Bool :=
  if e.key = key then some e.down else none

/-- What an event tells of one kind of modifier key. -/
def kindEffect (m : Modifier) (e : ScanEvent) : Option Bool :=
  if e.key.kind = some (.modifier m) then some e.down else none

/-- The key's last event is a press. -/
def IsHeld (key : ScanKey) (events : List ScanEvent) : Prop :=
  lastEffect (keyEffect key) events = some true

/-- The kind's last event is a press, or there is none and its flag was set before. -/
def lastPress (m : Modifier) (before : Bool) (events : List ScanEvent) : Bool :=
  (lastEffect (kindEffect m) events).getD before

def ScanEvent.isCapsPress (e : ScanEvent) : Bool := e.key.kind = some .capsLock && e.down

def eventFlags (f : Flags) (e : ScanEvent) : Flags :=
  keyFlags (if e.key.extended then extendedScancodeMap e.key.code else scancodeMap e.key.code)
    e.down f

theorem keyFlags_setExtended (key : UInt8) (pressed extended : Bool) (f : Flags) :
    keyFlags key pressed { f with extendedScancode := extended } =
      { keyFlags key pressed f with extendedScancode := extended } := by
  simp only [keyFlags]
  split_ifs
  · rfl
  · rfl
  · rfl
  · rfl
  · rfl

theorem eventFlags_setExtended (extended : Bool) (f : Flags) (events : List ScanEvent) :
    events.foldl eventFlags { f with extendedScancode := extended } =
      { events.foldl eventFlags f with extendedScancode := extended } := by
  induction events generalizing f with
  | nil => rfl
  | cons e events ih =>
    rw [List.foldl_cons, List.foldl_cons, eventFlags, keyFlags_setExtended, ih]
    rfl

/-- The bytes act on the flags as the events they tell do. -/
theorem nextFlags_events (bytes : List UInt8) (f : Flags) :
    bytes.foldl nextFlags f =
      { (scanEvents f.extendedScancode bytes).foldl eventFlags f with
        extendedScancode := prefixOpen f.extendedScancode bytes } := by
  induction bytes generalizing f with
  | nil => rfl
  | cons data rest ih =>
    rw [List.foldl_cons, ih, scanEvents, prefixOpen]
    by_cases hmark : data = 0xE0
    · rw [nextFlags, if_pos hmark, if_pos hmark, eventFlags_setExtended, hmark]
      rfl
    · rw [nextFlags, if_neg hmark, if_neg hmark, keyFlags_setExtended, eventFlags_setExtended,
        beq_eq_false_iff_ne.mpr hmark, List.foldl_cons, eventFlags, decodeKey]

/-- The driver takes the modifier keys' codes, and no others, for keys of their kinds. -/
theorem scan_table : ∀ n < 128, ∀ extended : Bool,
    let key : ScanKey := ⟨extended, UInt8.ofNat n⟩
    let value := if extended then extendedScancodeMap key.code else scancodeMap key.code
    keyModifier value = (match key.kind with | some (.modifier m) => some m | _ => none) ∧
      (value = keyCaps ↔ key.kind = some .capsLock) := by
  decide +kernel

/-- Seven bits, as the handler takes them from a byte. -/
def SevenBits (events : List ScanEvent) : Prop := ∀ e ∈ events, e.key.code < 0x80

theorem seven_bits (data : UInt8) : data &&& 0x7F < 0x80 := by
  rw [UInt8.lt_iff_toNat_lt, UInt8.toNat_and]
  exact Nat.lt_succ_of_le Nat.and_le_right

theorem scanEvents_sevenBits (extended : Bool) (bytes : List UInt8) :
    SevenBits (scanEvents extended bytes) := by
  induction bytes generalizing extended with
  | nil => exact fun e he => absurd he List.not_mem_nil
  | cons data rest ih =>
    rw [scanEvents]
    split
    · exact ih true
    · intro e he
      rcases List.mem_cons.mp he with rfl | hrest
      · exact seven_bits data
      · exact ih false e hrest

section Event
variable {e : ScanEvent} {f : Flags}

theorem scan_value (hcode : e.key.code < 0x80) :
    let value := if e.key.extended then extendedScancodeMap e.key.code else scancodeMap e.key.code
    keyModifier value = (match e.key.kind with | some (.modifier m) => some m | _ => none) ∧
      (value = keyCaps ↔ e.key.kind = some .capsLock) := by
  obtain ⟨⟨extended, code⟩, down⟩ := e
  have htable := scan_table code.toNat (UInt8.lt_iff_toNat_lt.mp hcode) extended
  simp only [UInt8.ofNat_toNat] at htable
  exact htable

theorem eventFlags_modifier (hcode : e.key.code < 0x80) (m : Modifier) :
    modifierFlag (eventFlags f e) m = (kindEffect m e).getD (modifierFlag f m) := by
  have hkind : (match e.key.kind with | some (.modifier m) => some m | _ => none) = some m ↔
      e.key.kind = some (.modifier m) := by
    cases e.key.kind with
    | none => simp
    | some kind => cases kind with
      | modifier m' => simp
      | capsLock => simp
  rw [eventFlags, keyFlags_modifier, (scan_value hcode).1, kindEffect]
  by_cases h : e.key.kind = some (.modifier m)
  · rw [if_pos h, if_pos (hkind.mpr h)]
    rfl
  · rw [if_neg h, if_neg fun hm => h (hkind.mp hm)]
    rfl

theorem keyFlags_caps (key : UInt8) (pressed : Bool) :
    (keyFlags key pressed f).capsLockOn = (f.capsLockOn ^^ (decide (key = keyCaps) && pressed)) := by
  have hother (hkey : key ≠ keyCaps) :
      (f.capsLockOn ^^ (decide (key = keyCaps) && pressed)) = f.capsLockOn := by
    rw [decide_eq_false hkey, Bool.false_and, Bool.xor_false]
  rw [keyFlags]
  split_ifs with hshift hctrl halt hcaps
  · rcases hshift with rfl | rfl
    · exact (hother (by decide)).symm
    · exact (hother (by decide)).symm
  · subst hctrl
    exact (hother (by decide)).symm
  · subst halt
    exact (hother (by decide)).symm
  · simp [hcaps]
  · cases pressed with
    | false => simp
    | true => exact (hother fun hkey => hcaps ⟨hkey, rfl⟩).symm

theorem eventFlags_caps (hcode : e.key.code < 0x80) :
    (eventFlags f e).capsLockOn = (f.capsLockOn ^^ e.isCapsPress) := by
  rw [eventFlags, keyFlags_caps, ScanEvent.isCapsPress, decide_eq_decide.mpr (scan_value hcode).2]

end Event

/-- The flags after some events: a kind's flag by its last event, Caps Lock by the number of
its presses. -/
theorem foldl_eventFlags {events : List ScanEvent} (hcode : SevenBits events) (f : Flags) :
    (∀ m, modifierFlag (events.foldl eventFlags f) m = lastPress m (modifierFlag f m) events) ∧
      (events.foldl eventFlags f).capsLockOn =
        (f.capsLockOn ^^ (events.countP ScanEvent.isCapsPress).bodd) := by
  induction events generalizing f with
  | nil => exact ⟨fun m => rfl, (Bool.xor_false _).symm⟩
  | cons e events ih =>
    have he := hcode e List.mem_cons_self
    obtain ⟨hkinds, hcaps⟩ := ih (fun e' he' => hcode e' (List.mem_cons_of_mem _ he')) (eventFlags f e)
    rw [List.foldl_cons]
    constructor
    · intro m
      rw [hkinds, eventFlags_modifier he, lastPress, lastPress, lastEffect]
      cases lastEffect (kindEffect m) events with
      | none => rfl
      | some b => rfl
    · rw [hcaps, eventFlags_caps he, List.countP_cons, Bool.xor_assoc]
      congr 1
      cases e.isCapsPress with
      | false => simp
      | true => simp

theorem scanEvents_append (extended : Bool) (xs ys : List UInt8) :
    scanEvents extended (xs ++ ys) =
      scanEvents extended xs ++ scanEvents (prefixOpen extended xs) ys := by
  induction xs generalizing extended with
  | nil => rfl
  | cons data xs ih =>
    rw [List.cons_append, scanEvents, scanEvents, prefixOpen]
    by_cases hmark : data = 0xE0
    · rw [if_pos hmark, if_pos hmark, ih, hmark]
      rfl
    · rw [if_neg hmark, if_neg hmark, ih, beq_eq_false_iff_ne.mpr hmark, List.cons_append]

theorem prefixOpen_append (extended : Bool) (xs ys : List UInt8) :
    prefixOpen extended (xs ++ ys) = prefixOpen (prefixOpen extended xs) ys := by
  induction xs generalizing extended with
  | nil => rfl
  | cons data xs ih => rw [List.cons_append, prefixOpen, prefixOpen, ih]

theorem makeBytes_events {key : ScanKey} (hcode : key.code < 0x80) :
    scanEvents false (makeBytes key) = [press key] ∧ prefixOpen false (makeBytes key) = false := by
  obtain ⟨extended, code⟩ := key
  obtain ⟨hseven, hbit, hmark, -⟩ := code_bits hcode
  have hcodeByte : ∀ mark, scanEvents mark [code] = [⟨⟨mark, code⟩, true⟩] ∧
      prefixOpen mark [code] = false := by
    intro mark
    rw [scanEvents, if_neg hmark, hseven, hbit, prefixOpen, beq_eq_false_iff_ne.mpr hmark]
    exact ⟨rfl, rfl⟩
  cases extended with
  | false => exact hcodeByte false
  | true => exact hcodeByte true

theorem repeats_events {key : ScanKey} (hcode : key.code < 0x80) (n : ℕ) :
    scanEvents false (repeats n key) = List.replicate n (press key) ∧
      prefixOpen false (repeats n key) = false := by
  obtain ⟨hevents, hclosed⟩ := makeBytes_events hcode
  induction n with
  | zero => exact ⟨rfl, rfl⟩
  | succ n ih =>
    rw [repeats, List.replicate_succ, List.flatten_cons]
    constructor
    · rw [scanEvents_append, hevents, hclosed]
      exact congrArg _ ih.1
    · rw [prefixOpen_append, hclosed]
      exact ih.2

/-- The repeats of a key add as many presses of it. -/
theorem inserted_events {extended : Bool} {before : List UInt8}
    (hclosed : prefixOpen extended before = false) {key : ScanKey} (hcode : key.code < 0x80)
    (n : ℕ) (rest : List UInt8) :
    scanEvents extended (before ++ repeats n key ++ rest) =
      scanEvents extended before ++ List.replicate n (press key) ++ scanEvents false rest := by
  obtain ⟨hevents, hdone⟩ := repeats_events hcode n
  rw [scanEvents_append, scanEvents_append, prefixOpen_append, hclosed, hevents, hdone]

/-- The four flags that the modifier keys set. -/
def SameModifiers (f g : Flags) : Prop :=
  (∀ m, modifierFlag f m = modifierFlag g m) ∧ f.capsLockOn = g.capsLockOn

/-- Repeats of a key of the kind are without effect: an even number of Caps Lock, and of
another kind those behind a press of the kind, or before some event of it. -/
def Harmless (kind : Kind) (flags : Flags) (n : ℕ) (before rest : List ScanEvent) : Prop :=
  match kind with
  | .capsLock => Even n
  | .modifier m => n = 0 ∨ lastPress m (modifierFlag flags m) before = true ∨
      ∃ e ∈ rest, e.key.kind = some (.modifier m)

section Inserted
variable {key : ScanKey} {kind : Kind} {n : ℕ} {before rest : List ScanEvent}

theorem lastEffect_repeats (effect : ScanEvent → Option Bool) (e : ScanEvent) (n : ℕ) :
    lastEffect effect (List.replicate n e) = if n = 0 then none else effect e := by
  induction n with
  | zero => rfl
  | succ n ih =>
    rw [List.replicate_succ, lastEffect, ih, if_neg n.succ_ne_zero]
    split
    · rfl
    · exact Option.or_self

/-- A kind's last press is another one only if its flag was clear and nothing follows. -/
theorem lastPress_inserted (hkind : key.kind = some kind) (m : Modifier) (flag : Bool) :
    lastPress m flag (before ++ List.replicate n (press key) ++ rest) =
        lastPress m flag (before ++ rest) ↔
      (kind = .modifier m → n = 0 ∨ lastPress m flag before = true ∨
        ∃ e ∈ rest, e.key.kind = some (.modifier m)) := by
  simp only [lastPress, lastEffect_append, lastEffect_repeats]
  have hrest : lastEffect (kindEffect m) rest = none ↔
      ¬ ∃ e ∈ rest, e.key.kind = some (.modifier m) := by
    simp [lastEffect_eq_none_iff, kindEffect]
  cases hlast : lastEffect (kindEffect m) rest with
  | some b =>
    have hexists : ∃ e ∈ rest, e.key.kind = some (.modifier m) := by
      by_contra hnone
      rw [hrest.mpr hnone] at hlast
      cases hlast
    exact ⟨fun _ _ => .inr (.inr hexists), fun _ => rfl⟩
  | none =>
    have hnone := hrest.mp hlast
    have hpress : kindEffect m (press key) = if kind = .modifier m then some true else none := by
      simp [kindEffect, press, hkind]
    simp only [hnone, or_false, Option.none_or, hpress]
    by_cases hn : n = 0
    · simp [hn]
    · by_cases hm : kind = .modifier m
      · simp only [hn, hm, if_true, if_false, false_or, true_imp_iff, Option.some_or, Option.getD_some]
        exact eq_comm
      · simp [hn, hm]

theorem even_iff_bodd (n : ℕ) : Even n ↔ n.bodd = false := by
  rw [Nat.even_iff, Nat.mod_two_of_bodd]
  cases n.bodd
  · simp
  · simp

theorem capsPresses_inserted (hkind : key.kind = some kind) :
    ((before ++ List.replicate n (press key) ++ rest).countP ScanEvent.isCapsPress).bodd =
        ((before ++ rest).countP ScanEvent.isCapsPress).bodd ↔
      (kind = .capsLock → Even n) := by
  have hpress : ScanEvent.isCapsPress (press key) = decide (kind = .capsLock) := by
    simp [ScanEvent.isCapsPress, press, hkind]
  simp only [List.countP_append, List.countP_replicate, Nat.bodd_add, hpress]
  by_cases hcaps : kind = .capsLock
  · simp only [hcaps, decide_true, if_true, true_imp_iff, even_iff_bodd]
    cases n.bodd
    · simp
    · simp
  · simp [hcaps]

/-- The flags after the events with repeats among them and without. -/
theorem sameModifiers_inserted_iff (hkind : key.kind = some kind) (f : Flags)
    (hbefore : SevenBits before) (hrest : SevenBits rest) (hcode : key.code < 0x80) :
    SameModifiers ((before ++ List.replicate n (press key) ++ rest).foldl eventFlags f)
        ((before ++ rest).foldl eventFlags f) ↔ Harmless kind f n before rest := by
  have hshort : SevenBits (before ++ rest) := by
    intro e he
    exact (List.mem_append.mp he).elim (hbefore e) (hrest e)
  have hlong : SevenBits (before ++ List.replicate n (press key) ++ rest) := by
    intro e he
    rcases List.mem_append.mp he with hfront | he
    · rcases List.mem_append.mp hfront with he | hrepeat
      · exact hbefore e he
      · rw [List.eq_of_mem_replicate hrepeat]
        exact hcode
    · exact hrest e he
  obtain ⟨hkinds, hcaps⟩ := foldl_eventFlags hlong f
  obtain ⟨hkinds', hcaps'⟩ := foldl_eventFlags hshort f
  simp only [SameModifiers, hkinds, hkinds', hcaps, hcaps', Bool.xor_right_inj,
    lastPress_inserted hkind, capsPresses_inserted hkind]
  cases kind with
  | capsLock => simp [Harmless]
  | modifier m => simp [Harmless]

end Inserted

theorem code_of_kind {key : ScanKey} {kind : Kind} (hkind : key.kind = some kind) :
    key.code < 0x80 := by
  obtain ⟨extended, code⟩ := key
  change code < 0x80
  simp only [ScanKey.kind] at hkind
  split_ifs at hkind with hextended hctrl halt hshift hctrl halt hcaps
  · exact hctrl ▸ by decide
  · exact halt ▸ by decide
  · rcases hshift with rfl | rfl
    · decide
    · decide
  · exact hctrl ▸ by decide
  · exact halt ▸ by decide
  · exact hcaps ▸ by decide

/-- Any number of make codes of a modifier key, sent at any point between two codes,
leaves the four flags as they would be after the rest of the stream exactly when they are
harmless. It does not matter whether the key is held there: the driver cannot tell. -/
theorem repeats_keep_modifiers_iff {k : Driver} (hshell : Reachable k.shell) (key : ScanKey)
    {kind : Kind} (hkind : key.kind = some kind) (before : List UInt8)
    (hclosed : prefixOpen k.flags.extendedScancode before = false) (n : ℕ) (rest : List UInt8)
    {plain repeated : List (UInt8 × UInt8)} (hplain : Delivers plain (before ++ rest))
    (hrepeated : Delivers repeated (before ++ repeats n key ++ rest)) :
    ∃ k₁ k₂, handleInterrupts plain k = some k₁ ∧ handleInterrupts repeated k = some k₂ ∧
      (SameModifiers k₂.flags k₁.flags ↔
        Harmless kind k.flags n (scanEvents k.flags.extendedScancode before)
          (scanEvents false rest)) := by
  obtain ⟨a, ha⟩ := hshell.represents
  obtain ⟨k₁, -, hrun₁, -, hflags₁⟩ := goesOn_receiveAll ha (before ++ rest)
  obtain ⟨k₂, -, hrun₂, -, hflags₂⟩ := goesOn_receiveAll ha (before ++ repeats n key ++ rest)
  refine ⟨k₁, k₂, by rw [handleInterrupts_eq hplain, hrun₁],
    by rw [handleInterrupts_eq hrepeated, hrun₂], ?_⟩
  have hcode := code_of_kind hkind
  rw [hflags₁, hflags₂, nextFlags_events, nextFlags_events, inserted_events hclosed hcode,
    scanEvents_append, hclosed]
  exact sameModifiers_inserted_iff hkind k.flags (scanEvents_sevenBits _ _)
    (scanEvents_sevenBits _ _) hcode

def capsKey : ScanKey := ⟨false, 0x3A⟩

/-- Caps Lock held for one repeat. -/
theorem repeats_keep_modifiers_iff_caps :
    ∃ k₁ k₂, handleInterrupts [(1, 0x3A), (1, 0xBA)] (restingDriver false) = some k₁ ∧
      handleInterrupts [(1, 0x3A), (1, 0x3A), (1, 0xBA)] (restingDriver false) = some k₂ ∧
      (SameModifiers k₂.flags k₁.flags ↔ Harmless .capsLock (restingDriver false).flags 1
        (scanEvents false [0x3A]) (scanEvents false [0xBA])) :=
  repeats_keep_modifiers_iff (shellAfter_reachable []) capsKey rfl [0x3A] rfl 1
    [0xBA] (delivers_ready rfl) (delivers_ready rfl)

/-- A press of Caps Lock with one repeat leaves it off, a press without leaves it on. -/
theorem caps_repeat_toggles_again :
    capsKey.kind = some .capsLock ∧ IsHeld capsKey (scanEvents false [0x3A]) ∧
      prefixOpen false [0x3A] = false ∧
      ∃ k₁ k₂, handleInterrupts [(1, 0x3A), (1, 0xBA)] (restingDriver false) = some k₁ ∧
        handleInterrupts [(1, 0x3A), (1, 0x3A), (1, 0xBA)] (restingDriver false) = some k₂ ∧
        Delivers [(1, 0x3A), (1, 0x3A), (1, 0xBA)] ([0x3A] ++ repeats 1 capsKey ++ [0xBA]) ∧
        ¬ SameModifiers k₂.flags k₁.flags := by
  refine ⟨rfl, rfl, rfl, _, _, rfl, rfl, delivers_ready rfl, fun h => ?_⟩
  exact Bool.false_ne_true h.2

end BinOs.KeyboardRepeat
