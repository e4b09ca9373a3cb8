import BinOs.SerialDelivery

/-! # When bytes do not reach the serial line

The test in `init_serial` may fail, and a transmitter may have no second place. -/
namespace BinOs.SerialFailures
open MemoryStrings SerialPort SharedTransmitter SerialLine SerialRegisters SerialDelivery

variable {places : ℕ} {boot text : List UInt8} {u u₀ : Uart} {s : Console}

theorem step_line (w : Writer) (u : Uart) : (w.step places u).2.line = u.line := by
  rcases w with ⟨_ | ⟨a, rest⟩, _ | _⟩
  · rfl
  · rfl
  · rfl
  · change (u.outb places 0 a).line = u.line
    rw [Uart.outb]
    split <;> rfl

theorem processorStep_silent (h : s.starting = []) :
    (processorStep places s).uart.line = s.uart.line ∧
      (processorStep places s).returned = s.returned := by
  rw [processorStep]
  cases s.handler with
  | none =>
    rcases hwriter : s.writer with ⟨_ | ⟨a, rest⟩, b⟩
    · cases hlater : s.later with
      | none => simp only [mainStep_idle h hwriter hlater, true_and]
      | some later => simp only [mainStep_sti h hwriter hlater, true_and]
    · simp only [mainStep_writes h hwriter, step_line, true_and]
  | some w =>
    rcases w with ⟨_ | ⟨a, rest⟩, b⟩
    · exact ⟨rfl, rfl⟩
    · exact ⟨step_line ⟨a :: rest, b⟩ s.uart, rfl⟩

theorem silent_step (places : ℕ) (h : Running boot text u₀ s) (hreturned : s.returned = some 1)
    (e : Event) :
    (step places s e).uart.line = s.uart.line ∧ (step places s e).returned = some 1 := by
  obtain heq | ⟨t, heq⟩ | ⟨u', heq, he⟩ := device_cases places e s
  · rw [heq, ← hreturned]
    exact processorStep_silent h.starting
  · rw [heq, SerialLine.interrupt]
    split
    · exact ⟨rfl, hreturned⟩
    · exact ⟨rfl, hreturned⟩
  · obtain ⟨-, hloops⟩ | ⟨hpassed, -⟩ := h.ended
    · rw [heq]
      exact ⟨he.silent hloops, hreturned⟩
    · rw [hpassed] at hreturned
      cases hreturned

theorem silent_run (hplaces : 2 ≤ places) (h : Running boot text u₀ s)
    (hreturned : s.returned = some 1) (events : List Event) :
    (run places events s).uart.line = s.uart.line := by
  induction events generalizing s with
  | nil => rfl
  | cons e events ih =>
    obtain ⟨hline, hreturned'⟩ := silent_step places h hreturned e
    exact (ih (h.next hplaces e) hreturned').trans hline

/-- `init_serial` has not passed its test. -/
def Unpassed (s : Console) : Prop :=
  (∃ n < 10, s.starting = initSerial.drop n) ∨ s.starting = [.ret 1] ∨ s.returned = some 1

theorem Unpassed.processor (h : Unpassed s) (hstarting : Starting boot text u₀ s)
    (hread : u₀.lastRead ≠ 0xAE) (hempty : s.starting = initSerial.drop 9 → s.uart.received = []) :
    Unpassed (processorStep places s) := by
  rw [processorStep, hstarting.handler]
  obtain ⟨n, hlt, hdrop⟩ | hfailed | hreturned := h
  · obtain ⟨m, hat, hregisters, hbuffers⟩ := hstarting.stage
    obtain ⟨offset, value, haccess, -⟩ | ⟨rfl, haccess⟩ | ⟨rfl, -⟩ :=
      access_cases (n := n) (by omega)
    · have hnine : n ≠ 9 := by
        rintro rfl
        cases haccess
      rw [haccess] at hdrop
      simp only [mainStep, hdrop, accessStep]
      exact .inl ⟨n + 1, by omega, rfl⟩
    · obtain rfl : m = 9 := by
        obtain ⟨hm, -⟩ | ⟨hm, -⟩ := hat
        · have hlength := congrArg List.length (hdrop.symm.trans hm)
          rw [List.length_drop, List.length_drop] at hlength
          have htwelve : initSerial.length = 12 := rfl
          omega
        · rw [hm] at hdrop
          cases hdrop
      have hlatch : s.uart.latchOpen = false := by
        rw [Uart.latchOpen, hregisters.lineControl (by decide)]
        rfl
      have hdata : s.uart.inbData = (u₀.lastRead, s.uart) := by
        rw [Uart.inbData, hlatch, if_neg Bool.false_ne_true, hempty hdrop,
          ← hbuffers.lastRead (by decide)]
      rw [haccess] at hdrop
      simp only [mainStep, hdrop, accessStep, hdata, if_pos hread]
      exact .inr (.inl rfl)
    · omega
  · simp only [mainStep, hfailed, accessStep]
    exact .inr (.inr rfl)
  · rw [hstarting.returned] at hreturned
    cases hreturned

theorem Unpassed.failed (h : Unpassed s) (hended : s.starting = []) : s.returned = some 1 := by
  obtain ⟨n, hlt, hdrop⟩ | hfailed | hreturned := h
  · rw [hended] at hdrop
    interval_cases n <;> cases hdrop
  · rw [hended] at hfailed
    cases hfailed
  · exact hreturned

theorem Unpassed.next (h : Unpassed s) (hs : Starting boot text u₀ s ∨ Running boot text u₀ s)
    (hread : u₀.lastRead ≠ 0xAE) {e : Event}
    (hempty : e = .processor → s.starting = initSerial.drop 9 → s.uart.received = []) :
    Unpassed (step places s e) := by
  obtain hstarting | hrunning := hs
  · cases e with
    | processor => exact h.processor hstarting hread (hempty rfl)
    | interrupt t =>
      rw [step, hstarting.interrupt t]
      exact h
    | load | finish | arrive data => exact h
  · exact .inr (.inr (silent_step places hrunning (h.failed hrunning.starting) e).2)

/-- Whenever `init_serial` reads its test byte back, nothing has been received. -/
def ReadsNothing (places : ℕ) (s : Console) (events : List Event) : Prop :=
  ∀ past, past ++ [.processor] <+: events → (run places past s).starting = initSerial.drop 9 →
    (run places past s).uart.received = []

theorem unpassed_run (hplaces : 2 ≤ places) (h : Starts boot text s) (hread : s.uart.lastRead ≠ 0xAE)
    {events : List Event} (hnothing : ReadsNothing places s events) :
    Unpassed (run places events s) := by
  induction events using List.reverseRecOn with
  | nil => exact .inl ⟨0, by decide, h.starting⟩
  | append_singleton events e ih =>
    have hbefore := ih fun past hpast => hnothing past (hpast.trans (List.prefix_append _ _))
    rw [run_append]
    refine hbefore.next (started_run hplaces h events) hread fun he => ?_
    exact hnothing events (by rw [he])

/-- A test that fails leaves the line silent for good; and it fails whenever the test byte has not
come back when it is read, since nothing waits for it. -/
theorem failed_test_silences (hplaces : 2 ≤ places) (h : Starts boot text s) :
    (∀ events after, (run places events s).returned = some 1 →
      (run places (events ++ after) s).uart.line = (run places events s).uart.line) ∧
    (s.uart.lastRead ≠ 0xAE → ∀ events, ReadsNothing places s events →
      (run places events s).starting = [] → (run places events s).returned = some 1) := by
  constructor
  · intro events after hreturned
    obtain hstarting | hrunning := started_run hplaces h events
    · rw [hstarting.returned] at hreturned
      cases hreturned
    · rw [run_append]
      exact silent_run hplaces hrunning hreturned after
  · intro hread events hnothing hended
    exact (unpassed_run hplaces h hread hnothing).failed hended

/-- Firmware's byte goes out, and one from outside comes during the loopback. -/
def earlyRead : List Event :=
  [.finish] ++ List.replicate 9 .processor ++ [.arrive 0xAE] ++ List.replicate 2 .processor

theorem readsNothing_earlyRead : ReadsNothing 16 usedPort earlyRead := by
  have htable : ∀ k < 13, (run 16 (earlyRead.take k) usedPort).starting.length = 3 →
      (run 16 (earlyRead.take k) usedPort).uart.received = [] := by
    decide
  intro past hpast hat
  have hpast' : past <+: earlyRead := (List.prefix_append _ _).trans hpast
  have hlength : past.length + 1 ≤ 13 := by
    have hle := hpast.length_le
    rwa [List.length_append] at hle
  rw [List.prefix_iff_eq_take.mp hpast'] at hat ⊢
  exact htable _ hlength (congrArg List.length hat)

theorem failed_test_silences_used : (run 16 earlyRead usedPort).returned = some 1 ∧
    ∀ after, (run 16 (earlyRead ++ after) usedPort).uart.line = [0x3E] := by
  have hplaces : 2 ≤ 16 := by
    decide
  obtain ⟨hsilences, hfails⟩ := failed_test_silences hplaces usedPort_starts
  have hreturned := hfails (by decide) earlyRead readsNothing_earlyRead (by decide)
  exact ⟨hreturned, fun after => hsilences earlyRead after hreturned⟩

/-- After a successful test, with nothing in the transmitter. -/
def passedPort (places : ℕ) (boot text line : List UInt8) : Console where
  starting := []
  returned := some 0
  writer := ⟨boot, false⟩
  later := some text
  handler := none
  interruptions := []
  uart := ⟨3, 0, 0, 3, 0x0F, 0 < places, ⟨[], none, 0⟩, [], 0xAE, line⟩

def freshPort (boot text : List UInt8) : Console where
  starting := initSerial
  returned := none
  writer := ⟨boot, false⟩
  later := some text
  handler := none
  interruptions := []
  uart := ⟨0, 0, 0, 0, 0, false, ⟨[], none, 0⟩, [], 0, []⟩

theorem passes (h : places < 2) (boot text : List UInt8) :
    run places (List.replicate 9 .processor ++ [.load, .finish] ++ List.replicate 3 .processor)
      (freshPort boot text) = passedPort places boot text [] := by
  interval_cases places <;>
    simp +decide [run, step, List.replicate, freshPort, initSerial, processorStep, mainStep,
      accessStep, Uart.outb, Uart.latchOpen, Uart.fifoControl, Uart.capacity, Transmitter.put,
      Uart.load, Transmitter.load, Uart.finish, Transmitter.unload, Uart.loops, Uart.receive,
      Uart.inbData, passedPort]

theorem writes_boot (h : places < 2) (boot text line : List UInt8) :
    ∃ events line', run places events (passedPort places boot text line) =
      passedPort places [] text line' := by
  induction boot generalizing line with
  | nil => exact ⟨[], line, rfl⟩
  | cons a boot ih =>
    obtain ⟨events, line', hrun⟩ := ih (line ++ [a])
    refine ⟨[.processor, .processor, .load, .finish] ++ events, line', ?_⟩
    have hround : run places [.processor, .processor, .load, .finish]
        (passedPort places (a :: boot) text line) = passedPort places boot text (line ++ [a]) := by
      interval_cases places <;>
        simp +decide [run, step, passedPort, processorStep, mainStep, Writer.step, isTransmitEmpty,
          Uart.lineStatus, Transmitter.pending, Uart.outb, Uart.latchOpen, Uart.capacity,
          Transmitter.put, Uart.load, Transmitter.load, Uart.finish, Transmitter.unload, Uart.loops]
    rw [run_append, hround, hrun]

/-- Interrupted after it had found the transmitter empty, with this left of a handler's text. -/
def interruptedPort (places : ℕ) (a : UInt8) (text handlerText left queue line : List UInt8) : Console where
  starting := []
  returned := some 0
  writer := ⟨a :: text, true⟩
  later := none
  handler := some ⟨left, false⟩
  interruptions := [handlerText]
  uart := ⟨3, 0, 0, 3, 0x0F, 0 < places, ⟨queue, none, 0⟩, [], 0xAE, line⟩

theorem interrupts (places : ℕ) (a : UInt8) (text handlerText line : List UInt8) :
    run places [.processor, .processor, .interrupt handlerText] (passedPort places [] (a :: text) line) =
      interruptedPort places a text handlerText handlerText [] line := by
  simp +decide [run, step, passedPort, processorStep, mainStep, SerialLine.interrupt, Writer.step,
    isTransmitEmpty, Uart.lineStatus, Transmitter.pending, interruptedPort]

/-- The handler's last character is still in the queue when the handler returns. -/
theorem writes_handler (h : places < 2) (a c : UInt8) (text handlerText rest line : List UInt8) :
    ∃ events c' line', run places events (interruptedPort places a text handlerText (c :: rest) [] line) =
      interruptedPort places a text handlerText [] [c'] line' := by
  have hround : ∀ c rest line, run places [.processor, .processor]
      (interruptedPort places a text handlerText (c :: rest) [] line) =
        interruptedPort places a text handlerText rest [c] line := by
    intro c rest line
    interval_cases places <;>
      simp +decide [run, step, interruptedPort, processorStep, Writer.step, isTransmitEmpty,
        Uart.lineStatus, Transmitter.pending, Uart.outb, Uart.latchOpen, Uart.capacity, Transmitter.put]
  have hsent : ∀ c left line, run places [.load, .finish]
      (interruptedPort places a text handlerText left [c] line) =
        interruptedPort places a text handlerText left [] (line ++ [c]) := by
    intro c left line
    simp +decide [run, step, interruptedPort, Uart.load, Transmitter.load, Uart.finish,
      Transmitter.unload, Uart.loops]
  induction rest generalizing c line with
  | nil => exact ⟨_, c, line, hround c [] line⟩
  | cons d rest ih =>
    obtain ⟨events, c', line', hrun⟩ := ih d (line ++ [c])
    refine ⟨[.processor, .processor] ++ ([.load, .finish] ++ events), c', line', ?_⟩
    rw [run_append, hround, run_append, hsent, hrun]

/-- The handler's character is still there when `kmain`, interrupted after it had found the
transmitter empty, writes its own. -/
theorem loses (h : places < 2) (a c : UInt8) (text handlerText line : List UInt8) :
    (run places [.processor, .processor]
      (interruptedPort places a text handlerText [] [c] line)).uart.transmitter.lost = 1 := by
  interval_cases places <;>
    simp +decide [run, step, interruptedPort, processorStep, mainStep, Writer.step, Uart.outb,
      Uart.latchOpen, Uart.capacity, Transmitter.put]

/-- The wait for an empty transmitter is enough exactly because there is a second place. Without
one the keyboard's handler is enough to lose a character. -/
theorem nothing_lost_iff (places : ℕ) (boot : List UInt8) (a : UInt8) (text : List UInt8) :
    (∀ s, Starts boot (a :: text) s → ∀ events,
      (run places events s).uart.transmitter.lost = s.uart.transmitter.lost) ↔ 2 ≤ places := by
  refine ⟨fun hkept => ?_, fun hplaces s h events => nothing_lost hplaces h events⟩
  by_contra hfew
  have hplaces := Nat.lt_of_not_le hfew
  obtain ⟨c, rest, hmessage⟩ : ∃ c rest, writeSerial (ascii "Keyboard IRQ received\n") = c :: rest :=
    ⟨_, _, rfl⟩
  obtain ⟨written, line, hwritten⟩ := writes_boot hplaces boot (a :: text) []
  obtain ⟨handled, c', line', hhandled⟩ := writes_handler hplaces a c text (c :: rest) rest line
  have hlost := hkept (freshPort boot (a :: text)) ⟨rfl, rfl, rfl, rfl, rfl, rfl⟩
    (List.replicate 9 .processor ++ [.load, .finish] ++ List.replicate 3 .processor ++ (written ++
      ([.processor, .processor, .interrupt (writeSerial (ascii "Keyboard IRQ received\n"))] ++
        (handled ++ [.processor, .processor]))))
  rw [hmessage, run_append, passes hplaces, run_append, hwritten, run_append, interrupts, run_append, hhandled,
    loses hplaces] at hlost
  cases hlost

end BinOs.SerialFailures
