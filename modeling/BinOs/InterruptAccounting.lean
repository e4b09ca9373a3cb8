import BinOs.InterruptRuns

/-! # What becomes of bytes and pulses

Every byte from the keyboard is thrown away by the boot, handled in its turn or still underway,
and every pulse of the timer is counted, still waiting or known to be lost. -/
namespace BinOs.InterruptAccounting
open Keyboard KeyboardMessages HandlerServices InterruptInvariant InterruptEffects InterruptRuns
open InterruptDispatch InterruptLines InterruptSystem PicPair

variable {b : Boot} {s s' : System}

/-- All bytes so far, in order. None is handled before the output buffer has been emptied. -/
structure Accounted (all : List UInt8) (s : System) : Prop where
  bytes : s.drained ++ s.handled ++ underway s = all
  early : stage s.point < 4 → s.handled = []

variable {all : List UInt8}

theorem Accounted.main (h : Accounted all s) (he : MainEffect s s') : Accounted all s' := by
  refine ⟨?_, fun hstage => he.handled.trans (h.early (he.early hstage))⟩
  rw [← h.bytes, underway, underway, he.handled, he.waiting]
  by_cases hstage : stage s.point < 4
  · rw [h.early hstage, List.append_nil, List.append_nil, ← List.append_assoc, he.output,
      List.append_assoc]
  · have hdrained := (he.late (by have := stage_le s.point; omega)).2
    have houtput := he.output
    rw [hdrained] at houtput ⊢
    rw [List.append_cancel_left houtput]

theorem Accounted.processor (h : Accounted all s) (hinv : Invariant b s)
    (he : ProcessorEffect b s s') : Accounted all s' := by
  cases he with
  | main _ _ hstep => exact h.main (main_effect hstep)
  | timer _ _ _ => exact ⟨h.bytes, h.early⟩
  | keyboard _ _ => exact ⟨h.bytes, h.early⟩
  | found _ _ => exact ⟨h.bytes, h.early⟩
  | nothing _ _ _ => exact ⟨h.bytes, h.early⟩
  | waits _ _ => exact h
  | @byte k data hserving hdata _ =>
    have hlate : ¬ stage s.point < 4 := by
      rw [hinv.stage_served (by rw [hserving]; exact Option.some_ne_none _)]
      exact lt_irrefl 4
    refine ⟨?_, fun hstage => absurd hstage hlate⟩
    have hbytes := h.bytes
    rw [underway, hdata] at hbytes
    rw [← hbytes]
    change s.drained ++ (s.handled ++ [data]) ++ ([] ++ s.controller.waiting) = _
    simp only [Option.toList_some, List.append_assoc, List.nil_append]
  | write _ _ => exact ⟨h.bytes, h.early⟩
  | done _ => exact ⟨h.bytes, h.early⟩

theorem Accounted.device (h : Accounted all s) {e : Event} (he : DeviceEffect e s s') :
    Accounted (all ++ sentBytes [e]) s' := by
  constructor
  · rw [← h.bytes, he.drained, he.handled, he.underway, List.append_assoc (s.drained ++ s.handled)]
  · rw [he.point, he.handled]
    exact h.early

theorem Accounted.run (h : Accounted all s) (hinv : Invariant b s) {events : List Event}
    (hrun : run b events s = some s') : Accounted (all ++ sentBytes events) s' :=
  run_keeps (P := fun past t => Accounted (all ++ sentBytes past) t) []
    (fun hinv h he => by
      rw [sentBytes_processor]
      exact h.processor hinv he)
    (fun _ h he => by
      rw [sentBytes_append, ← List.append_assoc]
      exact h.device he)
    hinv (by rw [show sentBytes [] = [] from rfl, List.append_nil]; exact h) hrun

/-- The pulses that the counter has not seen: waiting or lost. -/
def uncounted (s : System) : ℕ := s.lostPulses + pulsePending s

/-- From one state to another the counter goes up by the pulses that it has now seen. -/
def Counts (pulses : ℕ) (s s' : System) : Prop :=
  ∃ n, s'.kernel.timerTicks = s.kernel.timerTicks + UInt64.ofNat n ∧
    n + uncounted s' = uncounted s + pulses

theorem counts_of_same (hticks : s'.kernel.timerTicks = s.kernel.timerTicks)
    (hpulses : uncounted s' = uncounted s) : Counts 0 s s' :=
  ⟨0, by rw [hticks]; exact (UInt64.add_zero _).symm, by rw [hpulses, Nat.zero_add, Nat.add_zero]⟩

theorem Counts.trans {m n : ℕ} {s'' : System} (h : Counts m s s') (h' : Counts n s' s'') :
    Counts (m + n) s s'' := by
  obtain ⟨i, hticks, hi⟩ := h
  obtain ⟨j, hticks', hj⟩ := h'
  exact ⟨i + j, by rw [hticks', hticks, UInt64.ofNat_add, UInt64.add_assoc], by omega⟩

theorem uncounted_congr (hlost : s'.lostPulses = s.lostPulses)
    (hrequest : 0 ∈ s'.chips.master.lines.requested ↔ 0 ∈ s.chips.master.lines.requested) :
    uncounted s' = uncounted s := by
  rw [uncounted, uncounted, hlost, pulsePending_congr hrequest]

/-- The keyboard's part of the dispatcher, for a state that the invariant holds in. -/
theorem keyboard_ran (hinv : Invariant b s) {status data : UInt8} {k : Kernel}
    (hk : finishKeyboard status data s.kernel = some k) :
    keyboardHandler status data (silenced s.kernel.keyboard) = some k.keyboard ∧
      k.timerTicks = s.kernel.timerTicks := by
  obtain ⟨a, hrep⟩ := hinv.shell
  obtain ⟨k', -, hk', hkeyboard, -, hticks, -⟩ := finishKeyboard_sends hrep status data
  rw [Option.some.inj (hk.symm.trans hk')]
  exact ⟨hkeyboard, hticks⟩

theorem counts_processor (hinv : Invariant b s) (he : ProcessorEffect b s s') : Counts 0 s s' := by
  cases he with
  | main _ _ hstep =>
    have heffect := main_effect hstep
    exact counts_of_same heffect.timerTicks heffect.pulses
  | @timer k _ hrequest hk =>
    obtain ⟨k', hk', -, hticks, -⟩ := irqHandler_timer s.kernel
    have hsame : k = k' := Option.some.inj (hk.symm.trans hk')
    rw [← hsame] at hticks
    have hbefore : uncounted s = s.lostPulses + 1 := congrArg (s.lostPulses + ·) (if_pos hrequest)
    have hafter : pulsePending { s with chips := s.chips.acknowledge 0 } = 0 :=
      if_neg (Finset.notMem_erase 0 _)
    refine ⟨1, hticks, ?_⟩
    rw [hbefore]
    change 1 + (s.lostPulses + pulsePending { s with chips := s.chips.acknowledge 0 }) = _
    rw [hafter]
    omega
  | keyboard _ _ =>
    have hticks : (announcing s).kernel.timerTicks = s.kernel.timerTicks := by
      rw [announcing, announce]
    have hrequest : 0 ∈ (s.chips.acknowledge 1).master.lines.requested ↔
        0 ∈ s.chips.master.lines.requested := Finset.mem_erase.trans (and_iff_right (by decide))
    have huncounted : uncounted (announcing s) = uncounted s := uncounted_congr rfl hrequest
    exact counts_of_same hticks huncounted
  | found _ _ => exact counts_of_same rfl rfl
  | nothing _ _ hk => exact counts_of_same (keyboard_ran hinv hk).2 rfl
  | byte _ _ hk => exact counts_of_same (keyboard_ran hinv hk).2 rfl
  | waits _ _ => exact counts_of_same rfl rfl
  | write hkind hserving =>
    have hsame := requested_write hinv hkind hserving
    exact counts_of_same rfl (uncounted_congr rfl (by rw [hsame]))
  | done _ => exact counts_of_same rfl rfl

theorem counts_device {e : Event} (he : DeviceEffect e s s') : Counts (pulses [e]) s s' :=
  ⟨0, by rw [he.kernel]; exact (UInt64.add_zero _).symm, (Nat.zero_add _).trans he.pulses⟩

theorem counts_run (hinv : Invariant b s) {events : List Event} (hrun : run b events s = some s') :
    Counts (pulses events) s s' :=
  run_keeps (P := fun past t => Counts (pulses past) s t) []
    (fun hinv h he => by
      rw [pulses_append]
      exact h.trans (counts_processor hinv he))
    (fun _ h he => by
      rw [pulses_append]
      exact h.trans (counts_device he))
    hinv (counts_of_same rfl rfl) hrun

/-- From the start of the kernel on the counter is the number of pulses, less those that found
the one before waiting or were withdrawn, and the one that may still be waiting. -/
theorem pulses_counted (b : Boot) (h : Starts s) (events : List Event) :
    ∃ s', run b events s = some s' ∧ ∃ n, s'.kernel.timerTicks = s.kernel.timerTicks + UInt64.ofNat n ∧
      n + s'.lostPulses + pulsePending s' = pulsePending s + pulses events := by
  obtain ⟨s', hrun, -⟩ := (h.invariant (b := b)).run events
  obtain ⟨n, hticks, hn⟩ := counts_run h.invariant hrun
  refine ⟨s', hrun, n, hticks, ?_⟩
  rw [uncounted, uncounted, h.lostPulses] at hn
  omega

/-- The kernel waits for keys, and the timer gives three pulses. -/
def countedEvents : List Event :=
  bootEvents ++ [.processor] ++ [.raise 0, .processor, .raise 0, .raise 0]

/-- One pulse is counted, the next one waits, and the last one finds it there. -/
theorem pulses_counted_cold : ∃ s', run smallBoot countedEvents coldStart = some s' ∧
    ∃ n, s'.kernel.timerTicks = coldStart.kernel.timerTicks + UInt64.ofNat n ∧
      n + s'.lostPulses + pulsePending s' = pulsePending coldStart + pulses countedEvents :=
  pulses_counted smallBoot coldStart_starts countedEvents

end BinOs.InterruptAccounting
