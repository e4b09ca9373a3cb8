import BinOs.SerialRegisters

/-! # What reaches the serial line

Whatever state the port is in at first, every character that the kernel writes after a
successful `init_serial` goes out once and in order, also those of interrupt handlers. -/
namespace BinOs.SerialDelivery
open SharedTransmitter SerialLine SerialRegisters

variable {places : ℕ} {u u' u₀ : Uart} {boot text : List UInt8} {s : Console}

/-- While `init_serial` is at work, or has found that the test failed and is about to return. -/
structure Starting (boot text : List UInt8) (u₀ : Uart) (s : Console) : Prop where
  returned : s.returned = none
  writer : s.writer = ⟨boot, false⟩
  later : s.later = some text
  handler : s.handler = none
  interruptions : s.interruptions = []
  stage : ∃ n, (s.starting = initSerial.drop n ∧ n < 12 ∨ s.starting = [.ret 1] ∧ n = 10) ∧
    Registers n s.uart ∧ Buffers u₀ n s.uart

/-- What has been sent: `own` by `kmain`, and the texts of handlers, the last perhaps in part. -/
def SentBy (s : Console) (own sent : List UInt8) : Prop :=
  match s.handler with
  | none => Woven own s.interruptions sent
  | some w => ∃ earlier part before, s.interruptions = earlier ++ [part ++ w.text] ∧
    Woven own earlier before ∧ sent = before ++ part

/-- Behind what the port held before and the test byte, the line carries what has been sent. -/
def Delivered (boot text : List UInt8) (u₀ : Uart) (s : Console) : Prop :=
  ∃ early own sent, early.Sublist (carried u₀ ++ [0xAE]) ∧
    own ++ s.writer.text ++ s.later.getD [] = boot ++ text ∧ SentBy s own sent ∧
    carried s.uart = early ++ sent

/-- Who counts on room in the queue, the innermost first. -/
def waiting (s : Console) : List Bool :=
  match s.handler with
  | none => [s.writer.foundEmpty]
  | some w => [w.foundEmpty, s.writer.foundEmpty]

theorem sentBy_idle (h : s.handler = none) {own sent : List UInt8} :
    SentBy s own sent ↔ Woven own s.interruptions sent := by rw [SentBy, h]

theorem waiting_idle (h : s.handler = none) : waiting s = [s.writer.foundEmpty] := by
  rw [waiting, h]

/-- After `init_serial`. -/
structure Running (boot text : List UInt8) (u₀ : Uart) (s : Console) : Prop where
  starting : s.starting = []
  lineControl : s.uart.lineControl = 3
  fifoEnabled : s.uart.fifoEnabled = true
  lost : s.uart.transmitter.lost = u₀.transmitter.lost
  room : RoomKept 2 (waiting s) s.uart.transmitter.queue.length
  ended : s.returned = some 1 ∧ s.uart.loops = true ∨
    s.returned = some 0 ∧ s.uart.loops = false ∧ Delivered boot text u₀ s

theorem starting_of_starts (h : Starts boot text s) : Starting boot text s.uart s :=
  ⟨h.returned, h.writer, h.later, h.handler, h.interruptions, 0, .inl ⟨h.starting, by decide⟩,
    registers_zero _, buffers_zero _⟩

theorem Starting.device (h : Starting boot text u₀ s) (he : DeviceEffect s.uart u') :
    Starting boot text u₀ { s with uart := u' } := by
  obtain ⟨n, hat, hregisters, hbuffers⟩ := h.stage
  exact ⟨h.returned, h.writer, h.later, h.handler, h.interruptions, n, hat,
    hregisters.device he, hbuffers.device he⟩

theorem Starting.interrupt (h : Starting boot text u₀ s) (t : List UInt8) :
    interrupt t s = s := by
  rw [SerialLine.interrupt, if_neg]
  rintro ⟨-, hlater⟩
  rw [h.later] at hlater
  cases hlater

/-- Reading back takes at most one received byte. -/
theorem inbData_effect (h : u.lineControl = 3) :
    ∃ received lastRead, u.inbData.2 = { u with received, lastRead } := by
  have hlatch : u.latchOpen = false := by rw [Uart.latchOpen, h]; rfl
  rw [Uart.inbData, hlatch, if_neg Bool.false_ne_true]
  cases u.received with
  | nil => exact ⟨u.received, u.lastRead, rfl⟩
  | cons a rest => exact ⟨rest, a, rfl⟩

theorem Starting.returns (h : Starting boot text u₀ s) {n : ℕ} (hregisters : Registers n s.uart)
    (hbuffers : Buffers u₀ n s.uart) {value : ℤ} (hn : 10 ≤ n ∧ n < 18)
    (hvalue : value = 1 ∧ s.uart.loops = true ∨ value = 0 ∧ s.uart.loops = false) :
    Running boot text u₀ { s with starting := [], returned := some value } := by
  have hsent : SentBy s [] [] := by
    rw [SentBy, h.handler, h.interruptions]
    exact .nil
  have hwaiting : waiting s = [false] := by rw [waiting_idle h.handler, h.writer]
  refine ⟨rfl, hregisters.lineControl (by omega), hregisters.fifoEnabled (by omega), hbuffers.lost,
    ?_, ?_⟩
  · change RoomKept 2 (waiting s) _
    rw [hwaiting]
    have hone : RoomKept 2 [false] 1 := ⟨by decide, by decide, fun outer hsuffix => by
      obtain heq | hsuffix := List.suffix_cons_iff.mp hsuffix
      · cases heq
      · exact absurd (List.suffix_nil.mp hsuffix) (List.cons_ne_nil _ _)⟩
    refine hone.fewer ((hbuffers.queue (by omega)).trans ?_)
    omega
  · obtain ⟨rfl, hloops⟩ | ⟨rfl, hloops⟩ := hvalue
    · exact .inl ⟨rfl, hloops⟩
    · refine .inr ⟨rfl, hloops, carried s.uart, [], [], hbuffers.tested, ?_, hsent,
        (List.append_nil _).symm⟩
      rw [h.writer, h.later]
      rfl

theorem access_cases (hn : n < 12) :
    (∃ offset value, initSerial.drop n = .outb offset value :: initSerial.drop (n + 1) ∧
      n + 1 < 12) ∨
    n = 9 ∧ initSerial.drop n = .test :: initSerial.drop 10 ∨
    n = 11 ∧ initSerial.drop n = [.ret 0] := by
  interval_cases n
  case «9» => exact .inr (.inl ⟨rfl, rfl⟩)
  case «11» => exact .inr (.inr ⟨rfl, rfl⟩)
  all_goals exact .inl ⟨_, _, rfl, by decide⟩

theorem Starting.processor (hplaces : 0 < places) (h : Starting boot text u₀ s) :
    Starting boot text u₀ (processorStep places s) ∨ Running boot text u₀ (processorStep places s) := by
  rw [processorStep, h.handler]
  obtain ⟨n, ⟨hstarting, hn⟩ | ⟨hstarting, rfl⟩, hregisters, hbuffers⟩ := h.stage
  · obtain ⟨offset, value, haccess, hnext⟩ | ⟨rfl, haccess⟩ | ⟨rfl, haccess⟩ := access_cases hn
    · rw [haccess] at hstarting
      simp only [mainStep, hstarting, accessStep]
      exact .inl ⟨h.returned, h.writer, h.later, h.handler, h.interruptions, n + 1,
        .inl ⟨rfl, hnext⟩, hregisters.outb hplaces haccess,
        hbuffers.outb hplaces haccess hregisters⟩
    · rw [haccess] at hstarting
      obtain ⟨received, lastRead, heq⟩ := inbData_effect (hregisters.lineControl (by decide))
      simp only [mainStep, hstarting, accessStep, heq]
      have hregisters' : Registers 10 { s.uart with received, lastRead } :=
        ⟨by omega, fun _ => hregisters.divisorLow (by decide),
          fun _ => hregisters.divisorHigh (by decide), fun _ => hregisters.lineControl (by decide),
          fun _ => hregisters.fifoEnabled (by decide),
          fun _ _ => hregisters.loops (by decide) (by decide), by omega⟩
      have hbuffers' : Buffers u₀ 10 { s.uart with received, lastRead } :=
        ⟨fun _ => hbuffers.queue (by decide), by omega, hbuffers.lost, by omega, hbuffers.tested⟩
      refine .inl ⟨h.returned, h.writer, h.later, h.handler, h.interruptions, 10, ?_, hregisters',
        hbuffers'⟩
      by_cases hfailed : s.uart.inbData.1 ≠ 0xAE
      · exact .inr ⟨if_pos hfailed, rfl⟩
      · exact .inl ⟨if_neg hfailed, by decide⟩
    · rw [haccess] at hstarting
      simp only [mainStep, hstarting, accessStep]
      have hloops : s.uart.loops = false := by
        rw [Uart.loops, hregisters.normal (by decide)]
        rfl
      exact .inr (h.returns hregisters hbuffers (by decide) (.inr ⟨rfl, hloops⟩))
  · simp only [mainStep, hstarting, accessStep]
    have hloops : s.uart.loops = true := by
      rw [Uart.loops, hregisters.loops (by decide) (by decide)]
      rfl
    exact .inr (h.returns hregisters hbuffers (by decide) (.inl ⟨rfl, hloops⟩))

theorem Running.device (h : Running boot text u₀ s) (he : DeviceEffect s.uart u') :
    Running boot text u₀ { s with uart := u' } := by
  have hloops : u'.loops = s.uart.loops := by rw [Uart.loops, he.modemControl, ← Uart.loops]
  refine ⟨h.starting, he.lineControl.trans h.lineControl, he.fifoEnabled.trans h.fifoEnabled,
    he.lost.trans h.lost, h.room.fewer he.queue, ?_⟩
  obtain ⟨hreturned, hloop⟩ | ⟨hreturned, hloop, early, own, sent, hearly, howed, hsent, heq⟩ := h.ended
  · exact .inl ⟨hreturned, hloops.trans hloop⟩
  · exact .inr ⟨hreturned, hloops.trans hloop, early, own, sent, hearly, howed, hsent,
      (he.delivers hloop).trans heq⟩

theorem Running.interrupt (h : Running boot text u₀ s) (t : List UInt8) :
    Running boot text u₀ (interrupt t s) := by
  rw [SerialLine.interrupt]
  by_cases hfree : s.handler.isNone ∧ s.later = none
  · rw [if_pos hfree]
    have hnone := Option.isNone_iff_eq_none.mp hfree.1
    have hroom := h.room
    rw [waiting_idle hnone] at hroom
    refine ⟨h.starting, h.lineControl, h.fifoEnabled, h.lost, hroom.enter Nat.one_lt_two, ?_⟩
    obtain hfailed | ⟨hreturned, hloop, early, own, sent, hearly, howed, hsent, heq⟩ := h.ended
    · exact .inl hfailed
    · rw [SentBy, hnone] at hsent
      exact .inr ⟨hreturned, hloop, early, own, sent, hearly, howed,
        ⟨s.interruptions, [], sent, rfl, hsent, (List.append_nil _).symm⟩, heq⟩
  · rw [if_neg hfree]
    exact h

/-- A character that is put in behind the others. -/
theorem carried_put (a : UInt8) (u : Uart) :
    carried { u with transmitter := { u.transmitter with queue := u.transmitter.queue ++ [a] } } =
      carried u ++ [a] := by
  rw [carried, carried, Transmitter.pending, Transmitter.pending, List.append_assoc,
    List.append_assoc]

theorem step_done (places : ℕ) (b : Bool) (u : Uart) :
    (⟨[], b⟩ : Writer).step places u = (⟨[], b⟩, u) := rfl

theorem step_polls (places : ℕ) (a : UInt8) (rest : List UInt8) (u : Uart) :
    (⟨a :: rest, false⟩ : Writer).step places u = (⟨a :: rest, isTransmitEmpty u ≠ 0⟩, u) := rfl

theorem step_puts (hline : u.lineControl = 3) (hfifo : u.fifoEnabled = true)
    (hroom : u.transmitter.queue.length < places) (a : UInt8) (rest : List UInt8) :
    (⟨a :: rest, true⟩ : Writer).step places u = (⟨rest, false⟩, { u with
      transmitter := { u.transmitter with queue := u.transmitter.queue ++ [a] } }) := by
  rw [← outb_data hline hfifo hroom]
  rfl

/-- A loop that ends has found the queue empty. -/
theorem room_polled {outer : List Bool}
    (h : RoomKept 2 (false :: outer) u.transmitter.queue.length) :
    RoomKept 2 (decide (isTransmitEmpty u ≠ 0) :: outer) u.transmitter.queue.length := by
  by_cases hempty : isTransmitEmpty u ≠ 0
  · rw [(isTransmitEmpty_iff u).mp hempty]
    exact .of_empty h.nested
  · rw [decide_eq_false hempty]
    exact h

theorem Running.handler (hplaces : 2 ≤ places) (h : Running boot text u₀ s) {w : Writer}
    (hhandler : s.handler = some w) : Running boot text u₀ (processorStep places s) := by
  have hroom := h.room
  rw [waiting, hhandler] at hroom
  rw [processorStep, hhandler]
  rcases w with ⟨_ | ⟨a, rest⟩, b⟩
  · refine ⟨h.starting, h.lineControl, h.fifoEnabled, h.lost, hroom.leave, ?_⟩
    obtain hfailed | ⟨hreturned, hloop, early, own, sent, hearly, howed, hsent, heq⟩ := h.ended
    · exact .inl hfailed
    · rw [SentBy, hhandler] at hsent
      obtain ⟨earlier, part, before, hinterruptions, hbefore, rfl⟩ := hsent
      rw [List.append_nil] at hinterruptions
      refine .inr ⟨hreturned, hloop, early, own, before ++ part, hearly, howed, ?_, heq⟩
      change Woven own s.interruptions _
      rw [hinterruptions]
      exact .text part hbefore
  · cases b with
    | false =>
      simp only [step_polls]
      refine ⟨h.starting, h.lineControl, h.fifoEnabled, h.lost, room_polled hroom, ?_⟩
      obtain hfailed | ⟨hreturned, hloop, early, own, sent, hearly, howed, hsent, heq⟩ := h.ended
      · exact .inl hfailed
      · rw [SentBy, hhandler] at hsent
        exact .inr ⟨hreturned, hloop, early, own, sent, hearly, howed, hsent, heq⟩
    | true =>
      simp only [step_puts h.lineControl h.fifoEnabled (hroom.lt.trans_le hplaces)]
      refine ⟨h.starting, h.lineControl, h.fifoEnabled, h.lost, ?_, ?_⟩
      · rw [List.length_append]
        exact hroom.put
      · obtain hfailed | ⟨hreturned, hloop, early, own, sent, hearly, howed, hsent, heq⟩ := h.ended
        · exact .inl hfailed
        · rw [SentBy, hhandler] at hsent
          obtain ⟨earlier, part, before, hinterruptions, hbefore, rfl⟩ := hsent
          refine .inr ⟨hreturned, hloop, early, own, before ++ part ++ [a], hearly, howed, ?_, ?_⟩
          · refine ⟨earlier, part ++ [a], before, ?_, hbefore, List.append_assoc _ _ _⟩
            rw [hinterruptions, List.append_assoc part]
            rfl
          · rw [carried_put, heq, List.append_assoc]

section Main
variable (hstarting : s.starting = []) {b : Bool}
include hstarting

theorem mainStep_idle (hwriter : s.writer = ⟨[], b⟩) (hlater : s.later = none) :
    mainStep places s = s := by
  rw [mainStep, hstarting]
  simp only [hwriter, hlater, step_done]
  rw [← hwriter, ← hlater, ← hstarting]

theorem mainStep_sti (hwriter : s.writer = ⟨[], b⟩) {later : List UInt8}
    (hlater : s.later = some later) :
    mainStep places s = { s with writer := ⟨later, false⟩, later := none } := by
  rw [mainStep, hstarting]
  simp only [hwriter, hlater]

theorem mainStep_writes {a : UInt8} {rest : List UInt8} (hwriter : s.writer = ⟨a :: rest, b⟩) :
    mainStep places s = { s with
      writer := ((⟨a :: rest, b⟩ : Writer).step places s.uart).1
      uart := ((⟨a :: rest, b⟩ : Writer).step places s.uart).2 } := by
  rw [mainStep, hstarting]
  simp only [hwriter]

end Main

theorem Running.main (hplaces : 2 ≤ places) (h : Running boot text u₀ s)
    (hhandler : s.handler = none) : Running boot text u₀ (processorStep places s) := by
  have hroom := h.room
  rw [waiting_idle hhandler] at hroom
  rw [processorStep, hhandler]
  rcases hwriter : s.writer with ⟨_ | ⟨a, rest⟩, b⟩
  · cases hlater : s.later with
    | none =>
      simp only [mainStep_idle h.starting hwriter hlater]
      exact h
    | some later =>
      simp only [mainStep_sti h.starting hwriter hlater]
      refine ⟨h.starting, h.lineControl, h.fifoEnabled, h.lost, ?_, ?_⟩
      · rw [waiting_idle]
        exacts [hroom.leave.enter (Nat.succ_pos 1), hhandler]
      · obtain hfailed | ⟨hreturned, hloop, early, own, sent, hearly, howed, hsent, heq⟩ := h.ended
        · exact .inl hfailed
        · rw [hwriter, hlater, List.append_nil] at howed
          refine .inr ⟨hreturned, hloop, early, own, sent, hearly, ?_, ?_, heq⟩
          · rw [Option.getD_none, List.append_nil]
            exact howed
          · exact (sentBy_idle hhandler).mpr ((sentBy_idle hhandler).mp hsent)
  · rw [hwriter] at hroom
    simp only [mainStep_writes h.starting hwriter]
    cases b with
    | false =>
      simp only [step_polls]
      refine ⟨h.starting, h.lineControl, h.fifoEnabled, h.lost, ?_, ?_⟩
      · rw [waiting_idle]
        exacts [room_polled hroom, hhandler]
      · obtain hfailed | ⟨hreturned, hloop, early, own, sent, hearly, howed, hsent, heq⟩ := h.ended
        · exact .inl hfailed
        · rw [hwriter] at howed
          exact .inr ⟨hreturned, hloop, early, own, sent, hearly, howed,
            (sentBy_idle hhandler).mpr ((sentBy_idle hhandler).mp hsent), heq⟩
    | true =>
      simp only [step_puts h.lineControl h.fifoEnabled (hroom.lt.trans_le hplaces)]
      refine ⟨h.starting, h.lineControl, h.fifoEnabled, h.lost, ?_, ?_⟩
      · rw [List.length_append, waiting_idle]
        exacts [hroom.put, hhandler]
      · obtain hfailed | ⟨hreturned, hloop, early, own, sent, hearly, howed, hsent, heq⟩ := h.ended
        · exact .inl hfailed
        · rw [hwriter, List.append_cons own a rest] at howed
          refine .inr ⟨hreturned, hloop, early, own ++ [a], sent ++ [a], hearly, howed, ?_, ?_⟩
          · exact (sentBy_idle hhandler).mpr (.own a ((sentBy_idle hhandler).mp hsent))
          · rw [carried_put, heq, List.append_assoc]

theorem device_cases (places : ℕ) (e : Event) (s : Console) :
    step places s e = processorStep places s ∨ (∃ t, step places s e = interrupt t s) ∨
    ∃ u', step places s e = { s with uart := u' } ∧ DeviceEffect s.uart u' := by
  cases e with
  | processor => exact .inl rfl
  | interrupt t => exact .inr (.inl ⟨t, rfl⟩)
  | load => exact .inr (.inr ⟨_, rfl, load_effect _⟩)
  | finish => exact .inr (.inr ⟨_, rfl, finish_effect _⟩)
  | arrive data => exact .inr (.inr ⟨_, rfl, arrive_effect data _⟩)

theorem Starting.next (hplaces : 0 < places) (h : Starting boot text u₀ s) (e : Event) :
    Starting boot text u₀ (step places s e) ∨ Running boot text u₀ (step places s e) := by
  obtain heq | ⟨t, heq⟩ | ⟨u', heq, he⟩ := device_cases places e s
  · rw [heq]
    exact h.processor hplaces
  · rw [heq, h.interrupt t]
    exact .inl h
  · rw [heq]
    exact .inl (h.device he)

theorem Running.next (hplaces : 2 ≤ places) (h : Running boot text u₀ s) (e : Event) :
    Running boot text u₀ (step places s e) := by
  obtain heq | ⟨t, heq⟩ | ⟨u', heq, he⟩ := device_cases places e s
  · rw [heq]
    cases hhandler : s.handler with
    | none => exact h.main hplaces hhandler
    | some w => exact h.handler hplaces hhandler
  · rw [heq]
    exact h.interrupt t
  · rw [heq]
    exact h.device he

theorem run_append (places : ℕ) (before after : List Event) (s : Console) :
    run places (before ++ after) s = run places after (run places before s) :=
  List.foldl_append

/-- Nothing is lost and, if the test succeeded, nothing mixed up. -/
theorem started_run (hplaces : 2 ≤ places) (h : Starts boot text s) (events : List Event) :
    Starting boot text s.uart (run places events s) ∨ Running boot text s.uart (run places events s) := by
  induction events using List.reverseRecOn with
  | nil => exact .inl (starting_of_starts h)
  | append_singleton events e ih =>
    rw [run, List.foldl_append]
    obtain hstarting | hrunning := ih
    · exact hstarting.next (Nat.lt_of_lt_of_le Nat.zero_lt_two hplaces) e
    · exact .inr (hrunning.next hplaces e)

theorem Starting.lost (h : Starting boot text u₀ s) :
    s.uart.transmitter.lost = u₀.transmitter.lost := by
  obtain ⟨n, -, -, hbuffers⟩ := h.stage
  exact hbuffers.lost

theorem nothing_lost (hplaces : 2 ≤ places) (h : Starts boot text s) (events : List Event) :
    (run places events s).uart.transmitter.lost = s.uart.transmitter.lost := by
  obtain hstarting | hrunning := started_run hplaces h events
  · exact hstarting.lost
  · exact hrunning.lost

/-- Once `init_serial` has returned `0`, the line carries a part of what firmware left in the
transmitter and of the test byte, since the loopback and the cleared FIFO swallow bytes, and then
every character written, in order; the text of a handler is not torn apart. -/
theorem serial_line_exact (hplaces : 2 ≤ places) (h : Starts boot text s) (events : List Event) :
    (run places events s).uart.transmitter.lost = s.uart.transmitter.lost ∧
    ((run places events s).returned = some 0 → Delivered boot text s.uart (run places events s)) := by
  refine ⟨nothing_lost hplaces h events, fun hreturned => ?_⟩
  obtain hstarting | hrunning := started_run hplaces h events
  · rw [hstarting.returned] at hreturned
    cases hreturned
  · obtain ⟨hfailed, -⟩ | ⟨-, -, hdelivered⟩ := hrunning.ended
    · rw [hfailed] at hreturned
      cases hreturned
    · exact hdelivered

def someText : List UInt8 := [0x4F, 0x4B]

/-- Firmware has left two bytes in the transmitter, one received, and the divisor's latch open. -/
def usedPort : Console where
  starting := initSerial
  returned := none
  writer := ⟨someText, false⟩
  later := some someText
  handler := none
  interruptions := []
  uart := ⟨1, 0, 0, 0x83, 0x0B, false, ⟨[0x21], some 0x3E, 0⟩, [0x5A], 0, []⟩

theorem usedPort_starts : Starts someText someText usedPort := ⟨rfl, rfl, rfl, rfl, rfl, rfl⟩

/-- What firmware left is gone before the test, and an interrupt comes between the look at the
transmitter and the write of a character. -/
def racingEvents : List Event :=
  [.finish, .load, .finish] ++ List.replicate 9 .processor ++ [.load, .finish] ++
    List.replicate 3 .processor ++
    (List.replicate 4 [.processor, .processor, .load, .finish]).flatten ++
    [.processor, .interrupt someText, .processor, .processor, .load]

theorem serial_line_exact_race :
    (run 16 racingEvents usedPort).uart.transmitter.lost = 0 ∧
    Delivered someText someText usedPort.uart (run 16 racingEvents usedPort) := by
  have hplaces : 2 ≤ 16 := by
    decide
  obtain ⟨hlost, hdelivered⟩ := serial_line_exact hplaces usedPort_starts racingEvents
  exact ⟨hlost, hdelivered (by decide)⟩

end BinOs.SerialDelivery
