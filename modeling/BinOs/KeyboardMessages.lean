import BinOs.KeyboardRuns

/-! # The driver's messages

What the driver has sent to the serial port is never looked at: with more of it sent before,
the driver does the same and has that much more behind it. No key is answered with more than
one short message. -/
namespace BinOs.KeyboardMessages
open MemoryStrings FramebufferDrawing SerialPort LineEditor Keyboard KeyboardRuns

/-- The same driver with this sent earlier. -/
def sentBefore (u : List UInt8) (k : Driver) : Driver := { k with uart := u ++ k.uart }

variable (u : List UInt8) (k : Driver)

/-- A function's results with and without the bytes sent earlier. -/
def Unmoved (f : Driver → Option Driver) : Prop := f (sentBefore u k) = (f k).map (sentBefore u)

variable {u k}

theorem unmoved_ite {c : Prop} [Decidable c] {x y x' y' : Option Driver}
    (hx : x' = x.map (sentBefore u)) (hy : y' = y.map (sentBefore u)) :
    (if c then x' else y') = (if c then x else y).map (sentBefore u) := by
  split
  · exact hx
  · exact hy

theorem unmoved_bind {f g : Driver → Option Driver} (hf : Unmoved u k f)
    (hg : ∀ k', f k = some k' → Unmoved u k' g) : Unmoved u k fun k => (f k).bind g := by
  rw [Unmoved] at hf ⊢
  cases h : f k with
  | none =>
    rw [hf, h]
    rfl
  | some k' =>
    rw [hf, h]
    exact hg k' h

theorem unmoved_report (format : String) (args : List SerialPort.Arg) :
    Unmoved u k (report format args) := by
  rw [Unmoved, report, report, Option.map_map]
  refine congrArg (Option.map · _) (funext fun out => ?_)
  exact congrArg (fun uart => { k with uart }) (List.append_assoc u k.uart out)

theorem unmoved_onShell (f : Shell → Option Shell) : Unmoved u k (onShell f) := by
  rw [Unmoved, onShell, onShell, Option.map_map]
  rfl

theorem unmoved_callParseCommand : Unmoved u k callParseCommand :=
  unmoved_onShell (k := { k with parsed := k.parsed ++ [k.shell.commandBuffer] }) _

theorem unmoved_typeChar (c : UInt8) : Unmoved u k (typeChar c) := by
  rw [Unmoved, typeChar, typeChar]
  change (input c k.shell).bind _ = _
  cases h : input c k.shell with
  | none => rfl
  | some r =>
    simp only [Option.bind_eq_bind, Option.bind_some]
    split
    · exact unmoved_callParseCommand (k := { k with shell := r.1 })
    · rfl

theorem unmoved_handleSpecialKey (key : UInt8) (pressed : Bool) :
    Unmoved u k (handleSpecialKey key pressed) := by
  rw [Unmoved, handleSpecialKey, handleSpecialKey]
  refine unmoved_ite rfl ?_
  refine unmoved_ite (unmoved_report _ _) ?_
  refine unmoved_ite (unmoved_report _ _) ?_
  refine unmoved_ite (unmoved_report _ _) ?_
  refine unmoved_ite (unmoved_report _ _) ?_
  refine unmoved_ite (unmoved_report _ _) ?_
  refine unmoved_ite (unmoved_report _ _) ?_
  refine unmoved_ite (unmoved_onShell _) ?_
  refine unmoved_ite (unmoved_onShell _) ?_
  refine unmoved_ite (unmoved_report _ _) ?_
  refine unmoved_ite (unmoved_report _ _) ?_
  refine unmoved_ite (unmoved_report _ _) ?_
  refine unmoved_ite (unmoved_report _ _) ?_
  exact unmoved_ite (unmoved_report _ _) rfl

theorem unmoved_handleModifierKey (key : UInt8) (pressed : Bool) :
    Unmoved u k (handleModifierKey key pressed) := by
  rw [Unmoved, handleModifierKey, handleModifierKey]
  refine unmoved_ite rfl ?_
  refine unmoved_ite rfl ?_
  refine unmoved_ite rfl ?_
  refine unmoved_ite ?_ rfl
  refine unmoved_ite ?_ rfl
  exact unmoved_report (k := { k with flags := { k.flags with capsLockOn := !k.flags.capsLockOn } }) _ _

theorem unmoved_handlePrintableKey (key : UInt8) (pressed : Bool) :
    Unmoved u k (handlePrintableKey key pressed) := by
  rw [Unmoved, handlePrintableKey, handlePrintableKey]
  refine unmoved_ite rfl ?_
  refine unmoved_ite rfl ?_
  refine unmoved_ite ?_ ?_
  · refine unmoved_ite (unmoved_onShell _) ?_
    exact unmoved_ite (unmoved_onShell _) rfl
  · refine unmoved_ite (unmoved_report _ _) ?_
    exact unmoved_bind (unmoved_typeChar _) fun _ _ => unmoved_report _ _

theorem unmoved_handleKey (key : UInt8) (pressed : Bool) : Unmoved u k (handleKey key pressed) := by
  have htyped (c : UInt8) (format : String) :
      Unmoved u k fun k => (typeChar c k).bind (report format []) :=
    unmoved_bind (unmoved_typeChar c) fun _ _ => unmoved_report format []
  rw [Unmoved, handleKey, handleKey]
  refine unmoved_ite rfl ?_
  refine unmoved_ite (unmoved_handleModifierKey _ _) ?_
  refine unmoved_ite (unmoved_ite (htyped 8 _) rfl) ?_
  refine unmoved_ite (unmoved_ite (htyped 10 _) rfl) ?_
  refine unmoved_ite (unmoved_handleSpecialKey _ _) ?_
  exact unmoved_ite (unmoved_handlePrintableKey _ _) rfl

theorem unmoved_keyboardHandler (status data : UInt8) : Unmoved u k (keyboardHandler status data) := by
  rw [Unmoved, keyboardHandler, keyboardHandler]
  refine unmoved_ite rfl ?_
  refine unmoved_ite rfl ?_
  exact unmoved_handleKey (k := { k with flags := { k.flags with extendedScancode := false } }) _ _

def silenced (k : Driver) : Driver := { k with uart := [] }

theorem sentBefore_silenced (k : Driver) : sentBefore k.uart (silenced k) = k := by
  rw [sentBefore, silenced, List.append_nil]

theorem silenced_sentBefore (u : List UInt8) (k : Driver) : silenced (sentBefore u k) = silenced k :=
  rfl

theorem fields_of_silenced {k k' : Driver} (h : silenced k = silenced k') :
    k.flags = k'.flags ∧ k.shell = k'.shell ∧ k.parsed = k'.parsed := by
  obtain ⟨hflags, hshell, -, hparsed⟩ := Driver.mk.inj h
  exact ⟨hflags, hshell, hparsed⟩

/-- Drivers that differ in what they sent do the same with a byte. -/
theorem receive_alike {k k' d : Driver} (h : silenced k = silenced k') {data : UInt8}
    (hd : receive data (silenced k') = some d) :
    ∃ d', receive data k = some d' ∧ silenced d' = silenced d := by
  have hsame : receive data (sentBefore k.uart (silenced k)) = some (sentBefore k.uart d) := by
    rw [receive] at hd ⊢
    rw [unmoved_keyboardHandler, h, hd, Option.map_some]
  rw [sentBefore_silenced] at hsame
  exact ⟨_, hsame, silenced_sentBefore _ d⟩

/-- The length of the longest message, `[CAPS LOCK OFF]`. -/
abbrev messageLimit : ℕ := 19

/-- A result with at most one message more than `k`. -/
def Brief (k : Driver) (result : Option Driver) : Prop :=
  ∀ d, result = some d → d.uart.length ≤ k.uart.length + messageLimit

theorem brief_some : Brief k (some k) := by
  intro d hd
  rw [← Option.some.inj hd]
  exact Nat.le_add_right _ _

theorem brief_ite {c : Prop} [Decidable c] {x y : Option Driver} (hx : c → Brief k x)
    (hy : ¬ c → Brief k y) : Brief k (if c then x else y) := iteInduction (motive := Brief k) hx hy

theorem brief_report {k' : Driver} (hsame : k'.uart = k.uart) {format : String} {args : List Arg}
    (h : ((serialPrintf (literal (ascii format)) args).getD []).length ≤ messageLimit) :
    Brief k (report format args k') := by
  intro d hd
  obtain ⟨out, hout, rfl⟩ := Option.map_eq_some_iff.mp hd
  rw [hout] at h
  rw [List.length_append, hsame]
  exact Nat.add_le_add_left h _

theorem brief_onShell (f : Shell → Option Shell) : Brief k (onShell f k) := by
  intro d hd
  obtain ⟨shell, -, rfl⟩ := Option.map_eq_some_iff.mp hd
  exact Nat.le_add_right _ _

theorem typeChar_uart {c : UInt8} {k' : Driver} (h : typeChar c k = some k') : k'.uart = k.uart := by
  obtain ⟨⟨shell, command⟩, -, hr⟩ := Option.bind_eq_some_iff.mp h
  dsimp only at hr
  split at hr
  · obtain ⟨shell, -, rfl⟩ := Option.map_eq_some_iff.mp hr
    rfl
  · rw [← Option.some.inj hr]

theorem brief_typed (c : UInt8) {format : String} {args : List Arg}
    (h : ((serialPrintf (literal (ascii format)) args).getD []).length ≤ messageLimit) :
    Brief k ((typeChar c k).bind (report format args)) := by
  intro d hd
  obtain ⟨k', hk', hreport⟩ := Option.bind_eq_some_iff.mp hd
  exact brief_report (typeChar_uart hk') h d hreport

theorem function_key_table : ∀ n < 12, ((serialPrintf (literal (ascii "[F%d]\r\n"))
    [.int ((128 + n : ℕ) - 128 + 1)]).getD []).length ≤ messageLimit := by
  decide +kernel

theorem brief_functionKey {key : UInt8} (hlo : keyF1 ≤ key) (hhi : key ≤ keyF12) :
    Brief k (report "[F%d]\r\n" [.int ((key.toNat : ℤ) - keyF1.toNat + 1)] k) := by
  have hlo' : 128 ≤ key.toNat := UInt8.le_iff_toNat_le.mp hlo
  have hhi' : key.toNat ≤ 139 := UInt8.le_iff_toNat_le.mp hhi
  have hshort := function_key_table (key.toNat - 128) (by omega)
  rw [Nat.add_sub_cancel' hlo'] at hshort
  exact brief_report rfl hshort

theorem brief_handleSpecialKey (key : UInt8) (pressed : Bool) :
    Brief k (handleSpecialKey key pressed k) := by
  rw [handleSpecialKey]
  refine brief_ite (fun _ => brief_some) fun _ => ?_
  refine brief_ite (fun _ => brief_report rfl (by decide)) fun _ => ?_
  refine brief_ite (fun h => brief_functionKey h.1 h.2) fun _ => ?_
  refine brief_ite (fun _ => brief_report rfl (by decide)) fun _ => ?_
  refine brief_ite (fun _ => brief_report rfl (by decide)) fun _ => ?_
  refine brief_ite (fun _ => brief_report rfl (by decide)) fun _ => ?_
  refine brief_ite (fun _ => brief_report rfl (by decide)) fun _ => ?_
  refine brief_ite (fun _ => brief_onShell _) fun _ => ?_
  refine brief_ite (fun _ => brief_onShell _) fun _ => ?_
  refine brief_ite (fun _ => brief_report rfl (by decide)) fun _ => ?_
  refine brief_ite (fun _ => brief_report rfl (by decide)) fun _ => ?_
  refine brief_ite (fun _ => brief_report rfl (by decide)) fun _ => ?_
  refine brief_ite (fun _ => brief_report rfl (by decide)) fun _ => ?_
  exact brief_ite (fun _ => brief_report rfl (by decide)) fun _ => brief_some

theorem caps_table : ∀ on : Bool, ((serialPrintf (literal (ascii "[CAPS LOCK %s]\r\n"))
    [.string (some (ascii (if on then "ON" else "OFF")))]).getD []).length ≤ messageLimit := by
  decide

theorem brief_handleModifierKey (key : UInt8) (pressed : Bool) :
    Brief k (handleModifierKey key pressed k) := by
  have hflags (flags : Flags) : Brief k (some { k with flags }) := brief_some (k := { k with flags })
  rw [handleModifierKey]
  refine brief_ite (fun _ => hflags _) fun _ => ?_
  refine brief_ite (fun _ => hflags _) fun _ => ?_
  refine brief_ite (fun _ => hflags _) fun _ => ?_
  refine brief_ite (fun _ => ?_) fun _ => brief_some
  exact brief_ite (fun _ => brief_report rfl (caps_table _)) fun _ => brief_some

theorem brief_handlePrintableKey (key : UInt8) (pressed : Bool) :
    Brief k (handlePrintableKey key pressed k) := by
  rw [handlePrintableKey]
  refine brief_ite (fun _ => brief_some) fun _ => ?_
  refine brief_ite (fun _ => brief_some) fun _ => ?_
  refine brief_ite (fun _ => ?_) fun _ => ?_
  · refine brief_ite (fun _ => brief_onShell _) fun _ => ?_
    exact brief_ite (fun _ => brief_onShell _) fun _ => brief_some
  · refine brief_ite (fun _ => brief_report rfl (Nat.le_of_ble_eq_true rfl)) fun _ => ?_
    exact brief_typed _ (Nat.le_of_ble_eq_true rfl)

theorem brief_handleKey (key : UInt8) (pressed : Bool) : Brief k (handleKey key pressed k) := by
  rw [handleKey]
  refine brief_ite (fun _ => brief_some) fun _ => ?_
  refine brief_ite (fun _ => brief_handleModifierKey _ _) fun _ => ?_
  refine brief_ite (fun _ => brief_ite (fun _ => brief_typed 8 (by decide)) fun _ => brief_some) fun _ => ?_
  refine brief_ite (fun _ => brief_ite (fun _ => brief_typed 10 (by decide)) fun _ => brief_some) fun _ => ?_
  refine brief_ite (fun _ => brief_handleSpecialKey _ _) fun _ => ?_
  exact brief_ite (fun _ => brief_handlePrintableKey _ _) fun _ => brief_some

theorem brief_keyboardHandler (status data : UInt8) (k : Driver) :
    Brief k (keyboardHandler status data k) := by
  have hflags (flags : Flags) : Brief k (some { k with flags }) := brief_some (k := { k with flags })
  rw [keyboardHandler]
  refine brief_ite (fun _ => brief_some) fun _ => ?_
  refine brief_ite (fun _ => hflags _) fun _ => ?_
  exact brief_handleKey (k := { k with flags := { k.flags with extendedScancode := false } }) _ _

end BinOs.KeyboardMessages
