import BinOs.InterruptSteps

/-! # What an event may do

The steps of the processor by what they are for, and what devices leave alone. Invariants and
histories of runs need no more than that. -/
namespace BinOs.InterruptEffects
open HandlerServices CalmPorts InterruptInvariant InterruptTable InterruptDispatch InterruptLines
open InterruptSystem PicPair PriorityLines TimedWaits

variable {b : Boot} {s s' : System}

/-- The system with a handler that has run, and its writes to make. -/
def afterHandler (k : Kernel) (s : System) : System :=
  { s with kernel := k, serving := some (.ending (newWrites s.kernel.ports k.ports)) }

/-- What a step of the processor may do. -/
inductive ProcessorEffect (b : Boot) (s : System) : System → Prop
  | main {s' : System} (hserving : s.serving = none)
      (hnone : s.point.interruptible → 0 ∉ s.chips.master.lines.requested ∧
        1 ∉ s.chips.master.lines.requested) (hstep : mainStep b s = some s') :
      ProcessorEffect b s s'
  | timer {k : Kernel} (hserving : s.serving = none)
      (hrequest : 0 ∈ s.chips.master.lines.requested) (hk : irqHandler 32 0 0 s.kernel = some k) :
      ProcessorEffect b s (afterHandler k { s with chips := s.chips.acknowledge 0 })
  | keyboard (hserving : s.serving = none) (hrequest : 1 ∈ s.chips.master.lines.requested) :
      ProcessorEffect b s (announcing s)
  | found (hserving : s.serving = some (.announcing [])) (hfull : s.controller.output.isSome) :
      ProcessorEffect b s { s with serving := some .reading }
  | nothing {k : Kernel} (hserving : s.serving = some (.announcing []))
      (hempty : s.controller.output = none) (hk : finishKeyboard 0 0 s.kernel = some k) :
      ProcessorEffect b s (afterHandler k s)
  | byte {k : Kernel} {data : UInt8} (hserving : s.serving = some .reading)
      (hdata : s.controller.output = some data) (hk : finishKeyboard 1 data s.kernel = some k) :
      ProcessorEffect b s (afterHandler k { s with
        controller := { s.controller with output := none }
        handled := s.handled ++ [data] })
  | waits (hserving : s.serving ≠ none) (hbusy : s.transmitEmpty = false) : ProcessorEffect b s s
  | write {w : UInt16 × UInt8} {rest : List (UInt16 × UInt8)}
      {kind : List (UInt16 × UInt8) → Serving} (hkind : kind = .announcing ∨ kind = .ending)
      (hserving : s.serving = some (kind (w :: rest))) :
      ProcessorEffect b s { s with
        chips := s.chips.write w
        transmitEmpty := emptyAfter [w] s.transmitEmpty
        serving := some (kind rest) }
  | done (hserving : s.serving = some (.ending [])) : ProcessorEffect b s { s with serving := none }

theorem writeNext_effect {w : UInt16 × UInt8} {rest : List (UInt16 × UInt8)}
    {kind : List (UInt16 × UInt8) → Serving} (hkind : kind = .announcing ∨ kind = .ending)
    (hserving : s.serving = some (kind (w :: rest))) :
    ProcessorEffect b s (writeNext w (kind rest) s) := by
  rw [writeNext]
  split
  case isTrue hbusy =>
    refine .waits ?_ hbusy.2
    rw [hserving]
    exact Option.some_ne_none _
  case isFalse => exact .write hkind hserving

theorem handler_effect (h : Invariant b s) {serving : Serving} (hserving : s.serving = some serving)
    (hstep : handlerStep serving s = some s') : ProcessorEffect b s s' := by
  match serving with
  | .announcing (w :: rest) =>
    rw [handlerStep] at hstep
    rw [← Option.some.inj hstep]
    exact writeNext_effect (.inl rfl) hserving
  | .announcing [] =>
    rw [handlerStep] at hstep
    by_cases hfull : s.controller.output.isSome
    · rw [if_pos hfull] at hstep
      rw [← Option.some.inj hstep]
      exact .found hserving hfull
    · rw [if_neg hfull] at hstep
      obtain ⟨k, hk, rfl⟩ := Option.map_eq_some_iff.mp hstep
      exact .nothing hserving (Option.not_isSome_iff_eq_none.mp hfull) hk
  | .reading =>
    obtain ⟨data, hdata⟩ := Option.isSome_iff_exists.mp (h.byteThere hserving)
    rw [handlerStep, hdata] at hstep
    obtain ⟨k, hk, rfl⟩ := Option.map_eq_some_iff.mp hstep
    exact .byte hserving hdata hk
  | .ending (w :: rest) =>
    rw [handlerStep] at hstep
    rw [← Option.some.inj hstep]
    exact writeNext_effect (.inr rfl) hserving
  | .ending [] =>
    rw [handlerStep] at hstep
    rw [← Option.some.inj hstep]
    exact .done hserving

theorem processor_effect (h : Invariant b s) (hstep : processorStep b s = some s') :
    ProcessorEffect b s s' := by
  rw [processorStep] at hstep
  cases hserving : s.serving with
  | some serving =>
    rw [hserving] at hstep
    exact handler_effect h hserving hstep
  | none =>
    rw [hserving] at hstep
    by_cases hp : s.point.interruptible
    · simp only [if_pos hp, h.interrupting_eq hserving hp] at hstep
      by_cases h0 : 0 ∈ s.chips.master.lines.requested
      · obtain ⟨k, htake, hk, -⟩ := h.timerTaken hserving hp
        simp only [if_pos h0, htake] at hstep
        rw [← Option.some.inj hstep]
        exact .timer hserving h0 hk
      by_cases h1 : 1 ∈ s.chips.master.lines.requested
      · simp only [if_neg h0, if_pos h1, (h.keyboardTaken hserving hp).1] at hstep
        rw [← Option.some.inj hstep]
        exact .keyboard hserving h1
      · simp only [if_neg h0, if_neg h1] at hstep
        exact .main hserving (fun _ => ⟨h0, h1⟩) hstep
    · simp only [if_neg hp] at hstep
      exact .main hserving (fun hp' => absurd hp' hp) hstep

/-- A handler's writes leave the requests. -/
theorem requested_write (hinv : Invariant b s) {w : UInt16 × UInt8} {rest : List (UInt16 × UInt8)}
    {kind : List (UInt16 × UInt8) → Serving} (hkind : kind = .announcing ∨ kind = .ending)
    (hserving : s.serving = some (kind (w :: rest))) :
    (s.chips.write w).master.lines.requested = s.chips.master.lines.requested := by
  have hends := hinv.ends
  rw [hserving] at hends
  obtain rfl | rfl := hkind
  · exact write_requested (hends w List.mem_cons_self) s.chips
  · exact write_requested (hends w List.mem_cons_self) s.chips

/-- What a step of `kmain` leaves: counters, bytes except those it throws away, and pulses. -/
structure MainEffect (s s' : System) : Prop where
  serving : s'.serving = s.serving
  timerTicks : s'.kernel.timerTicks = s.kernel.timerTicks
  handled : s'.handled = s.handled
  waiting : s'.controller.waiting = s.controller.waiting
  output : s'.drained ++ s'.controller.output.toList = s.drained ++ s.controller.output.toList
  pulses : s'.lostPulses + pulsePending s' = s.lostPulses + pulsePending s
  late : stage s.point = 4 → stage s'.point = 4 ∧ s'.drained = s.drained
  early : stage s'.point < 4 → stage s.point < 4
  requests : 3 ≤ stage s'.point → s'.chips = quietChips ∨ 3 ≤ stage s.point ∧ s'.chips = s.chips

/-- A step of the boot that goes back no stage and is not the controllers' initialization. -/
abbrev Onward (p q : Point) : Prop := stage p ≤ stage q ∧ (3 ≤ stage q → 3 ≤ stage p)

theorem stage_le (p : Point) : stage p ≤ 4 := by
  cases p
  all_goals decide

theorem mainEffect_of_same (hserving : s'.serving = s.serving)
    (hticks : s'.kernel.timerTicks = s.kernel.timerTicks) (hhandled : s'.handled = s.handled)
    (hdrained : s'.drained = s.drained) (hwaiting : s'.controller.waiting = s.controller.waiting)
    (houtput : s'.controller.output = s.controller.output) (hlost : s'.lostPulses = s.lostPulses)
    (hchips : s'.chips = s.chips) (hstage : Onward s.point s'.point) : MainEffect s s' where
  serving := hserving
  timerTicks := hticks
  handled := hhandled
  waiting := hwaiting
  output := by rw [hdrained, houtput]
  pulses := by rw [hlost, pulsePending, pulsePending, hchips]
  late := fun h => ⟨le_antisymm (stage_le _) (h ▸ hstage.1), hdrained⟩
  early := fun h => lt_of_le_of_lt hstage.1 h
  requests := fun h => .inr ⟨hstage.2 h, hchips⟩

theorem mainEffect_of_calm {f : Controllers → Controllers}
    (hf : Calm s.kernel.ports (f ⟨s.idt, s.kernel.ports⟩).ports) {p : Point}
    (hstage : Onward s.point p) : MainEffect s { onControllers f s with point := p } :=
  mainEffect_of_same rfl rfl rfl rfl rfl rfl rfl (hf.replay s.chips) hstage

theorem mainEffect_of_ports (f : Ports → Ports) (hf : Calm s.kernel.ports (f s.kernel.ports))
    {p : Point} (hstage : Onward s.point p) : MainEffect s { onPorts f s with point := p } :=
  mainEffect_of_calm (f := fun c => { c with ports := f c.ports }) hf hstage

/-- The controllers' initialization loses a pulse that has not been counted. -/
theorem mainEffect_of_cleared (f : Ports → Ports)
    (hf : s.chips.replay (newWrites s.kernel.ports (f s.kernel.ports)) = quietChips)
    (hearly : stage s.point < 3) : MainEffect s { onPorts f s with
      point := .acpiInit
      lostPulses := s.lostPulses + pulsePending s } where
  serving := rfl
  timerTicks := rfl
  handled := rfl
  waiting := rfl
  output := rfl
  pulses := by
    have hnone : pulsePending { s with chips := quietChips } = 0 := rfl
    rw [← hf] at hnone
    exact congrArg (s.lostPulses + pulsePending s + ·) hnone
  late := fun h => by omega
  early := fun _ => by omega
  requests := fun _ => .inl hf

theorem mainEffect_of_point {p : Point} (hstage : Onward s.point p) :
    MainEffect s { s with point := p } :=
  mainEffect_of_same rfl rfl rfl rfl rfl rfl rfl rfl hstage

theorem main_effect (hstep : mainStep b s = some s') : MainEffect s s' := by
  rw [mainStep] at hstep
  cases hp : s.point with
  | idtInit | installExceptions | initTimerIrq | initKeyboardIrq | idtLoad =>
    rw [hp] at hstep
    rw [← Option.some.inj hstep]
    exact mainEffect_of_calm (calm_writeSerialText _ _) (by rw [hp]; decide)
  | initPic =>
    rw [hp] at hstep
    rw [← Option.some.inj hstep]
    exact mainEffect_of_cleared initPic (replay_initPic _ _) (by rw [hp]; decide)
  | acpiInit =>
    rw [hp] at hstep
    rw [← Option.some.inj hstep]
    refine mainEffect_of_calm (calm_installRequested b.requests_slave ⟨s.idt, s.kernel.ports⟩).1 ?_
    rw [hp]
    split
    · decide
    · decide
  | initTimer =>
    rw [hp] at hstep
    rw [← Option.some.inj hstep]
    exact mainEffect_of_ports initTimer (calm_initTimer _) (by rw [hp]; decide)
  | clearFlags =>
    rw [hp] at hstep
    have hstage : Onward s.point .pollOutput := by rw [hp]; decide
    rw [← Option.some.inj hstep]
    exact mainEffect_of_same rfl rfl rfl rfl rfl rfl rfl rfl hstage
  | pollOutput =>
    rw [hp] at hstep
    rw [← Option.some.inj hstep]
    refine mainEffect_of_point ?_
    rw [hp]
    split
    · decide
    · decide
  | readOutput =>
    rw [hp] at hstep
    have hearly : stage s.point = 3 := by rw [hp]; rfl
    rw [← Option.some.inj hstep]
    refine ⟨rfl, rfl, rfl, rfl, ?_, rfl, fun h => by omega, fun _ => by omega, fun _ => .inr ⟨?_, rfl⟩⟩
    · exact List.append_nil _
    · exact hearly.ge
  | awaitReady | awaitAccepted =>
    rw [hp] at hstep
    rw [← Option.some.inj hstep]
    refine mainEffect_of_point ?_
    rw [hp]
    split
    · decide
    · decide
  | enableKeyboard =>
    rw [hp] at hstep
    have hstage : Onward s.point .awaitAccepted := by rw [hp]; decide
    rw [← Option.some.inj hstep]
    exact mainEffect_of_same rfl rfl rfl rfl rfl rfl rfl
      ((calm_enableKeyboard s.kernel.ports).replay s.chips) hstage
  | enableKeyboardIrq =>
    rw [hp] at hstep
    rw [← Option.some.inj hstep]
    exact mainEffect_of_ports keyboardInitialized (calm_keyboardInitialized _) (by rw [hp]; decide)
  | initTimerInterrupts =>
    rw [hp] at hstep
    rw [← Option.some.inj hstep]
    exact mainEffect_of_ports initTimerInterrupts (calm_initTimerInterrupts _) (by rw [hp]; decide)
  | sti =>
    rw [hp] at hstep
    rw [← Option.some.inj hstep]
    exact mainEffect_of_ports _ (calm_writeSerialText "Interrupts enabled" _) (by rw [hp]; decide)
  | shellInit =>
    rw [hp] at hstep
    obtain ⟨shell, -, rfl⟩ := Option.map_eq_some_iff.mp hstep
    have hstage : Onward s.point .idle := by rw [hp]; decide
    exact mainEffect_of_same rfl rfl rfl rfl rfl rfl rfl rfl hstage
  | idle | halted =>
    rw [hp] at hstep
    rw [← Option.some.inj hstep]
    exact mainEffect_of_point ⟨le_rfl, id⟩

def sentBytes (events : List Event) : List UInt8 :=
  events.filterMap fun
    | .send byte => some byte
    | _ => none

def pulses (events : List Event) : ℕ := events.count (.raise 0)

/-- The bytes that have not been handled. -/
def underway (s : System) : List UInt8 := s.controller.output.toList ++ s.controller.waiting

/-- A device leaves the processor alone, adds the byte that is sent, counts the pulse, and fills no
transmitter. -/
structure DeviceEffect (e : Event) (s s' : System) : Prop where
  point : s'.point = s.point
  serving : s'.serving = s.serving
  kernel : s'.kernel = s.kernel
  drained : s'.drained = s.drained
  handled : s'.handled = s.handled
  underway : underway s' = underway s ++ sentBytes [e]
  output : s.controller.output.isSome → s'.controller.output = s.controller.output
  lostPulses : s.lostPulses ≤ s'.lostPulses
  pulses : s'.lostPulses + pulsePending s' = s.lostPulses + pulsePending s + pulses [e]
  ready : s.transmitEmpty = true ∨ e = .transmitted → s'.transmitEmpty = true

theorem mem_onLine_other {change : Lines (Fin 8) → Fin 8 → Lines (Fin 8)}
    (hchange : ∀ l i, i ≠ 0 → (0 ∈ (change l i).requested ↔ 0 ∈ l.requested)) {line : Fin 16}
    (hline : line ≠ 0) (c : Chips) :
    0 ∈ (c.onLine change line).master.lines.requested ↔ 0 ∈ c.master.lines.requested := by
  rw [Chips.onLine]
  split
  case isTrue hmaster =>
    refine hchange _ _ fun h => hline (Fin.ext ?_)
    exact congrArg (fun i : Fin 8 => (i : ℕ)) h
  case isFalse => exact Iff.rfl

theorem mem_request_other {line : Fin 16} (hline : line ≠ 0) (c : Chips) :
    0 ∈ (c.request line).master.lines.requested ↔ 0 ∈ c.master.lines.requested :=
  mem_onLine_other (fun _ _ hi => by rw [Lines.request, Finset.mem_insert, or_iff_right hi.symm]) hline c

theorem mem_withdraw_other {line : Fin 16} (hline : line ≠ 0) (c : Chips) :
    0 ∈ (c.withdraw line).master.lines.requested ↔ 0 ∈ c.master.lines.requested :=
  mem_onLine_other (fun _ _ hi => by rw [Lines.withdraw, Finset.mem_erase, and_iff_right hi.symm]) hline c

theorem pulsePending_congr (h : 0 ∈ s'.chips.master.lines.requested ↔
    0 ∈ s.chips.master.lines.requested) : pulsePending s' = pulsePending s := if_congr h rfl rfl

/-- A device that does nothing. -/
theorem deviceEffect_none {e : Event} (hsent : sentBytes [e] = []) (hpulse : pulses [e] = 0)
    (hother : e ≠ .transmitted) : DeviceEffect e s s :=
  ⟨rfl, rfl, rfl, rfl, rfl, by rw [hsent, List.append_nil], fun _ => rfl, le_rfl, by rw [hpulse]; rfl,
    fun h => h.resolve_right hother⟩

theorem pulses_raise {line : Fin 16} : pulses [.raise line] = if line = 0 then 1 else 0 := by
  rw [pulses, List.count_singleton]
  simp only [beq_iff_eq, Event.raise.injEq]

theorem device_effect {e : Event} (he : e ≠ .processor) (hstep : step b s e = some s') :
    DeviceEffect e s s' := by
  cases e with
  | processor => exact absurd rfl he
  | raise line =>
    rw [step] at hstep
    split at hstep
    case isTrue hquiet =>
      rw [← Option.some.inj hstep]
      refine deviceEffect_none rfl ?_ Event.noConfusion
      rw [pulses_raise, if_neg]
      rintro rfl
      exact absurd hquiet (by decide)
    case isFalse =>
      rw [← Option.some.inj hstep]
      refine ⟨rfl, rfl, rfl, rfl, rfl, (List.append_nil _).symm, fun _ => rfl,
        Nat.le_add_right _ _, ?_, fun h => h.resolve_right Event.noConfusion⟩
      rw [pulses_raise]
      by_cases hline : line = 0
      · subst hline
        have hpending : pulsePending { s with chips := s.chips.request 0 } = 1 :=
          if_pos (Finset.mem_insert_self 0 _)
        exact congrArg (s.lostPulses + pulsePending s + ·) hpending
      · have hpending : pulsePending { s with chips := s.chips.request line } = pulsePending s :=
          pulsePending_congr (mem_request_other hline s.chips)
        rw [if_neg hline, if_neg hline]
        exact congrArg (s.lostPulses + 0 + ·) hpending
  | withdraw line =>
    rw [step] at hstep
    split at hstep
    case isTrue =>
      rw [← Option.some.inj hstep]
      exact deviceEffect_none rfl rfl Event.noConfusion
    case isFalse =>
      rw [← Option.some.inj hstep]
      refine ⟨rfl, rfl, rfl, rfl, rfl, (List.append_nil _).symm, fun _ => rfl,
        Nat.le_add_right _ _, ?_, fun h => h.resolve_right Event.noConfusion⟩
      by_cases hline : line = 0
      · subst hline
        have hpending : pulsePending { s with chips := s.chips.withdraw 0 } = 0 :=
          if_neg (Finset.notMem_erase 0 _)
        exact congrArg (s.lostPulses + pulsePending s + ·) hpending
      · have hpending : pulsePending { s with chips := s.chips.withdraw line } = pulsePending s :=
          pulsePending_congr (mem_withdraw_other hline s.chips)
        rw [if_neg hline]
        exact congrArg (s.lostPulses + 0 + ·) hpending
  | send byte =>
    rw [← Option.some.inj hstep]
    refine ⟨rfl, rfl, rfl, rfl, rfl, ?_, fun _ => rfl, le_rfl, rfl,
      fun h => h.resolve_right Event.noConfusion⟩
    exact (List.append_assoc _ _ _).symm
  | deliver =>
    rw [step] at hstep
    split at hstep
    case h_1 byte waiting hempty hwaiting =>
      rw [← Option.some.inj hstep]
      refine ⟨rfl, rfl, rfl, rfl, rfl, ?_, ?_, le_rfl, ?_,
        fun h => h.resolve_right Event.noConfusion⟩
      · rw [underway, underway, hempty, hwaiting]
        exact (List.append_nil (byte :: waiting)).symm
      · intro hfull
        rw [hempty] at hfull
        exact absurd hfull Bool.false_ne_true
      · have hpending : pulsePending { s with chips := s.chips.request 1 } = pulsePending s :=
          pulsePending_congr (mem_request_other (by decide) s.chips)
        exact congrArg (s.lostPulses + ·) hpending
    case h_2 =>
      rw [← Option.some.inj hstep]
      exact deviceEffect_none rfl rfl Event.noConfusion
  | accept =>
    rw [← Option.some.inj hstep]
    exact ⟨rfl, rfl, rfl, rfl, rfl, (List.append_nil _).symm, fun _ => rfl, le_rfl, rfl,
      fun h => h.resolve_right Event.noConfusion⟩
  | transmitted =>
    rw [← Option.some.inj hstep]
    exact ⟨rfl, rfl, rfl, rfl, rfl, (List.append_nil _).symm, fun _ => rfl, le_rfl, rfl, fun _ => rfl⟩

theorem run_append (b : Boot) (before after : List Event) (s : System) :
    run b (before ++ after) s = (run b before s).bind (run b after) := by
  induction before generalizing s with
  | nil => rfl
  | cons e rest ih =>
    rw [List.cons_append, run, run]
    cases step b s e with
    | none => rfl
    | some s₁ => exact ih s₁

/-- What steps of the processor and effects of devices keep, of the events so far and the
state, holds after a run. -/
theorem run_keeps {P : List Event → System → Prop} (past : List Event) {events : List Event}
    (hprocessor : ∀ {past s s'}, Invariant b s → P past s → ProcessorEffect b s s' →
      P (past ++ [.processor]) s')
    (hdevice : ∀ {past e s s'}, e ≠ .processor → P past s → DeviceEffect e s s' → P (past ++ [e]) s')
    (hinv : Invariant b s) (hstart : P past s) (hrun : run b events s = some s') :
    P (past ++ events) s' := by
  induction events generalizing s past with
  | nil =>
    rw [← Option.some.inj hrun, List.append_nil]
    exact hstart
  | cons e rest ih =>
    obtain ⟨s₁, hstep, hs₁⟩ := hinv.step e
    rw [run, hstep, Option.bind_some] at hrun
    rw [List.append_cons]
    refine ih _ hs₁ ?_ hrun
    by_cases he : e = .processor
    · subst he
      exact hprocessor hinv hstart (processor_effect hinv hstep)
    · exact hdevice he hstart (device_effect he hstep)

theorem sentBytes_append (xs ys : List Event) : sentBytes (xs ++ ys) = sentBytes xs ++ sentBytes ys :=
  List.filterMap_append

theorem sentBytes_processor (events : List Event) :
    sentBytes (events ++ [.processor]) = sentBytes events := by
  rw [sentBytes_append]
  exact List.append_nil _

theorem pulses_append (xs ys : List Event) : pulses (xs ++ ys) = pulses xs + pulses ys :=
  List.count_append

/-- A byte that is sent while none is underway can be read at once. -/
theorem run_deliver (b : Boot) (h : underway s = []) (data : UInt8) :
    run b [.send data, .deliver] s = some { s with
      controller := { s.controller with waiting := [], output := some data }
      chips := s.chips.request 1 } := by
  obtain ⟨houtput, hwaiting⟩ := List.append_eq_nil_iff.mp h
  have hnone : s.controller.output = none := by
    cases hoption : s.controller.output with
    | none => rfl
    | some byte =>
      rw [hoption] at houtput
      exact absurd houtput (List.cons_ne_nil _ _)
  simp only [run, step, hnone, hwaiting, List.nil_append, Option.bind_some]

end BinOs.InterruptEffects
