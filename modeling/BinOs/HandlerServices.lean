import BinOs.InterruptSystem

/-! # What handlers tell the controllers

The timer's handler ends its interrupt twice and the keyboard's ends its own once, among the
bytes of its messages. With one interrupt in service the first end takes it out, and one more
does nothing. -/
namespace BinOs.HandlerServices
open MemoryStrings SerialPort Keyboard KeyboardRuns ShellSession LineEditorRefinement LineEditorRuns
open InterruptDispatch InterruptLines InterruptSystem PicPair PriorityLines

abbrev endMaster : UInt16 × UInt8 := (pic1Command, picEoi)

/-- Of the commands only ends of interrupts. -/
def EndsOnly (writes : List (UInt16 × UInt8)) : Prop :=
  ∀ w ∈ writes, w.1 = pic1Command ∨ w.1 = pic2Command → w.2 = picEoi

/-- From one kernel to another the controllers have been sent these commands, among any bytes
to the serial port. -/
structure Sends (commands : List (UInt16 × UInt8)) (k k' : Kernel) : Prop where
  replay : ∀ c : Chips, c.replay (newWrites k.ports k'.ports) = c.replay commands
  ends : EndsOnly (newWrites k.ports k'.ports)
  master : k'.ports.master = k.ports.master

theorem serialData_not_command : ¬ (serialData = pic1Command ∨ serialData = pic2Command) := by
  decide

theorem irqHandler_timer (k : Kernel) : ∃ k', irqHandler 32 0 0 k = some k' ∧
    k'.keyboard = k.keyboard ∧ k'.timerTicks = k.timerTicks + 1 ∧
    newWrites k.ports k'.ports = [endMaster, endMaster] ∧ Sends [endMaster, endMaster] k k' := by
  have hwrites : newWrites k.ports (outbAll [endMaster, endMaster] k.ports) =
      [endMaster, endMaster] := newWrites_outbAll _ _
  refine ⟨_, rfl, rfl, rfl, hwrites, fun c => congrArg c.replay hwrites, ?_, rfl⟩
  intro w hw _
  have htwo : w ∈ [endMaster, endMaster] := hwrites ▸ hw
  rw [List.mem_cons, List.mem_singleton, or_self] at htwo
  rw [htwo]

theorem newWrites_end {k k' : Kernel} {out : List UInt8}
    (h : k'.ports = outb 0x20 0x20 (sendSerial out k.ports)) :
    newWrites k.ports k'.ports = out.map (fun c => (serialData, c)) ++ [endMaster] := by
  have hports : k'.ports = outbAll (out.map (fun c => (serialData, c)) ++ [endMaster]) k.ports := by
    rw [outbAll_append, ← sendSerial_eq_outbAll]
    exact h
  rw [hports, newWrites_outbAll]

theorem sends_end {k k' : Kernel} {out : List UInt8}
    (h : k'.ports = outb 0x20 0x20 (sendSerial out k.ports)) : Sends [endMaster] k k' := by
  refine ⟨?_, ?_, ?_⟩
  · intro c
    rw [newWrites_end h, replay_append, replay_serial]
  · intro w hw hcommand
    rw [newWrites_end h, List.mem_append, List.mem_singleton] at hw
    rcases hw with hserial | rfl
    · obtain ⟨c, -, rfl⟩ := List.mem_map.mp hserial
      exact absurd hcommand serialData_not_command
    · rfl
  · rw [h, sendSerial_eq]
    rfl

theorem keyboardHandler_represents {k : Driver} {a : Session} (h : Represents k.shell a)
    (status data : UInt8) :
    ∃ d a', keyboardHandler status data k = some d ∧ Represents d.shell a' := by
  by_cases hready : status &&& 0x01 = 0
  · exact ⟨k, a, by rw [keyboardHandler, if_pos hready], h⟩
  · obtain ⟨d, a', hd, hrep, -⟩ := goesOn_receive h data
    exact ⟨d, a', by rw [keyboardHandler_eq_receive hready, hd], hrep⟩

theorem finishKeyboard_sends {k : Kernel} {a : Session} (h : Represents k.keyboard.shell a)
    (status data : UInt8) : ∃ k' a', finishKeyboard status data k = some k' ∧
      keyboardHandler status data { k.keyboard with uart := [] } = some k'.keyboard ∧
      Represents k'.keyboard.shell a' ∧ k'.timerTicks = k.timerTicks ∧ Sends [endMaster] k k' := by
  obtain ⟨d, a', hd, hrep⟩ :=
    keyboardHandler_represents (k := { k.keyboard with uart := [] }) h status data
  rw [finishKeyboard, onKeyboard, hd]
  exact ⟨_, a', rfl, rfl, hrep, rfl, sends_end rfl⟩

/-- What a message adds to the writes. -/
theorem newWrites_announce (text : String) (k : Kernel) : newWrites k.ports (announce text k).ports =
    (writeSerial (ascii text)).map fun c => (serialData, c) := by
  change newWrites k.ports (sendSerial _ k.ports) = _
  rw [sendSerial_eq_outbAll, newWrites_outbAll]

theorem enabled_initial : enabled 0xFC = {0, 1} := by
  decide

theorem mem_masterLines {p : Ports} {c : Chips} {i : Fin 8} (hi : i ≠ 2) :
    i ∈ (masterLines p c).requested ↔ i ∈ c.master.lines.requested := by
  rw [masterLines]
  split
  · rw [Lines.request, Finset.mem_insert, or_iff_right hi]
  · exact Iff.rfl

theorem first_inter_pair (s : Finset (Fin 8)) : first (s ∩ {0, 1}) =
    if 0 ∈ s then some 0 else if 1 ∈ s then some 1 else none := by
  by_cases h0 : 0 ∈ s
  · rw [if_pos h0, first_eq_some_iff, Finset.mem_inter]
    exact ⟨⟨h0, by decide⟩, fun j _ => Fin.zero_le j⟩
  rw [if_neg h0]
  have honly : ∀ j ∈ s ∩ {0, 1}, j = 1 := by
    intro j hj
    obtain ⟨hs, hpair⟩ := Finset.mem_inter.mp hj
    rcases Finset.mem_insert.mp hpair with rfl | hone
    · exact absurd hs h0
    · exact Finset.mem_singleton.mp hone
  by_cases h1 : 1 ∈ s
  · rw [if_pos h1, first_eq_some_iff, Finset.mem_inter]
    exact ⟨⟨h1, by decide⟩, fun j hj => (honly j hj).ge⟩
  · rw [if_neg h1, first_eq_none_iff, Finset.eq_empty_iff_forall_notMem]
    intro j hj
    have hone := honly j hj
    rw [hone] at hj
    exact h1 (Finset.mem_inter.mp hj).1

/-- The timer before the keyboard, and no other line. -/
theorem interrupting_initial {p : Ports} {c : Chips} (hmask : p.master.mask = 0xFC)
    (hidle : c.master.lines.inService = ∅) :
    interrupting p c = if 0 ∈ c.master.lines.requested then some 0
      else if 1 ∈ c.master.lines.requested then some 1 else none := by
  have hservice : (masterLines p c).inService = ∅ := by rw [masterLines_inService, hidle]
  rw [interrupting, Lines.putForward_idle hservice, hmask, enabled_initial, first_inter_pair,
    if_congr (mem_masterLines (by decide)) rfl rfl, if_congr (mem_masterLines (by decide)) rfl rfl]
  split
  · rfl
  · split
    · rfl
    · rfl

/-- The same lines in service. -/
def SameServices (c c' : Chips) : Prop :=
  c.master.lines.inService = c'.master.lines.inService ∧
    c.slave.lines.inService = c'.slave.lines.inService

theorem SameServices.trans {c c' c'' : Chips} (h : SameServices c c') (h' : SameServices c' c'') :
    SameServices c c'' := ⟨h.1.trans h'.1, h.2.trans h'.2⟩

theorem command_inService {c c' : Chip} (h : c.lines.inService = c'.lines.inService) (data : UInt8) :
    (c.command data).lines.inService = (c'.command data).lines.inService := by
  rw [Chip.command, Chip.command]
  by_cases hstart : data &&& 0x10 ≠ 0
  · rw [if_pos hstart, if_pos hstart]
  rw [if_neg hstart, if_neg hstart]
  by_cases hchoice : data &&& 0x18 = 0x08
  · rw [if_pos hchoice, if_pos hchoice]
    split
    · exact h
    · split
      · exact h
      · exact h
  rw [if_neg hchoice, if_neg hchoice]
  split
  · exact congrArg dropFirst h
  · exact h

theorem SameServices.write {c c' : Chips} (h : SameServices c c') (w : UInt16 × UInt8) :
    SameServices (c.write w) (c'.write w) := by
  constructor
  · by_cases hport : w.1 = pic1Command
    · rw [Chips.write, Chips.write, if_pos hport, if_pos hport]
      exact command_inService h.1 w.2
    · rw [Chips.write, Chips.write, if_neg hport, if_neg hport]
      exact h.1
  · by_cases hport : w.1 = pic2Command
    · rw [Chips.write, Chips.write, if_pos hport, if_pos hport]
      exact command_inService h.2 w.2
    · rw [Chips.write, Chips.write, if_neg hport, if_neg hport]
      exact h.2

theorem SameServices.replay {c c' : Chips} (h : SameServices c c')
    (writes : List (UInt16 × UInt8)) : SameServices (c.replay writes) (c'.replay writes) := by
  induction writes generalizing c c' with
  | nil => exact h
  | cons w rest ih => exact ih (h.write w)

theorem onLine_sameServices (change : Lines (Fin 8) → Fin 8 → Lines (Fin 8))
    (h : ∀ l i, (change l i).inService = l.inService) (line : Fin 16) (c : Chips) :
    SameServices (c.onLine change line) c := by
  rw [Chips.onLine]
  split
  · exact ⟨h _ _, rfl⟩
  · exact ⟨rfl, h _ _⟩

theorem request_sameServices (line : Fin 16) (c : Chips) : SameServices (c.request line) c :=
  onLine_sameServices Lines.request (fun _ _ => rfl) line c

theorem withdraw_sameServices (line : Fin 16) (c : Chips) : SameServices (c.withdraw line) c :=
  onLine_sameServices Lines.withdraw (fun _ _ => rfl) line c

/-- The end of the one interrupt in service, and one end more. -/
theorem acknowledge_ends (line : Fin 16) (hline : (line : ℕ) < 8) {c : Chips}
    (h : SameServices c quietChips) :
    SameServices ((c.acknowledge line).replay [endMaster]) quietChips := by
  have hdrop : dropFirst (insert (⟨line, hline⟩ : Fin 8) c.master.lines.inService) = ∅ := by
    rw [h.1]
    exact dropFirst_insert fun j hj => absurd hj (Finset.notMem_empty j)
  rw [Chips.acknowledge, if_pos hline, Chips.onLine, dif_pos hline]
  exact ⟨hdrop, h.2⟩

theorem quiet_ends : SameServices (quietChips.replay [endMaster]) quietChips := ⟨rfl, rfl⟩

/-- An end of interrupt leaves the requests. -/
theorem write_requested {w : UInt16 × UInt8} (h : w.1 = pic1Command ∨ w.1 = pic2Command → w.2 = picEoi)
    (c : Chips) : (c.write w).master.lines.requested = c.master.lines.requested := by
  rw [Chips.write]
  by_cases hport : w.1 = pic1Command
  · rw [if_pos hport, h (.inl hport)]
    rfl
  · rw [if_neg hport]

end BinOs.HandlerServices
