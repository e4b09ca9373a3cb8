import BinOs.InterruptEffects
import BinOs.KeyboardMessages

/-! # How long the kernel's handlers take

A handler may have to wait for the serial port at every character. The rest of its work is
bounded: those steps of the processor are counted before which the transmitter has become
empty. -/
namespace BinOs.InterruptProgress
open MemoryStrings SerialPort KeyboardMessages HandlerServices InterruptInvariant InterruptEffects
open InterruptDispatch InterruptLines InterruptSystem PicPair PriorityLines

variable {b : Boot} {s s' : System}

/-- The steps of the processor before each of which the transmitter has become empty; `ready` if
it has before the first of these events. -/
def readySteps : Bool → List Event → ℕ
  | _, [] => 0
  | ready, e :: rest =>
    (if ready ∧ e = .processor then 1 else 0) +
      readySteps (e = .transmitted ∨ ready ∧ e ≠ .processor) rest

theorem readySteps_processor (ready : Bool) (rest : List Event) :
    readySteps ready (.processor :: rest) = ready.toNat + readySteps false rest := by
  cases ready <;> rfl

theorem readySteps_device {e : Event} (he : e ≠ .processor) (ready : Bool) (rest : List Event) :
    readySteps ready (e :: rest) = readySteps (e = .transmitted ∨ ready) rest := by
  rw [readySteps, if_neg fun h => he h.2, Nat.zero_add]
  simp only [he, ne_eq, not_false_eq_true, and_true]

/-- The transmitter becomes empty before each of so many steps. -/
def turns (n : ℕ) : List Event := (List.replicate n [.transmitted, .processor]).flatten

theorem readySteps_turns (n : ℕ) (ready : Bool) : readySteps ready (turns n) = n := by
  induction n generalizing ready with
  | zero => rfl
  | succ n ih =>
    have hcons : turns (n + 1) = .transmitted :: .processor :: turns n := rfl
    rw [hcons, readySteps_device Event.noConfusion, readySteps_processor, ih, Nat.add_comm]
    rfl

theorem pulses_turns (n : ℕ) : pulses (turns n) = 0 := by
  induction n with
  | zero => rfl
  | succ n ih =>
    have hcons : turns (n + 1) = [.transmitted, .processor] ++ turns n := rfl
    rw [hcons, pulses_append, ih]
    rfl

/-- What a measure of work leads to. No step adds to the work, those that do not have to wait
take some away, and every pulse costs a little. -/
theorem reaches {J Goal : System → Prop} {work : System → ℕ} {cost : ℕ}
    (hpos : ∀ {s}, J s → 0 < work s)
    (hprocessor : ∀ {s s'}, Invariant b s → J s → ProcessorEffect b s s' →
      Goal s' ∨ J s' ∧ work s' ≤ work s ∧ (s.transmitEmpty = true → work s' < work s))
    (hdevice : ∀ {e s s'}, J s → DeviceEffect e s s' → J s' ∧ work s' ≤ work s + cost * pulses [e])
    {ready : Bool} (hready : ready = true → s.transmitEmpty = true) (hinv : Invariant b s) (hJ : J s)
    {events : List Event} (henough : work s + cost * pulses events ≤ readySteps ready events) :
    ∃ past t, past <+: events ∧ run b past s = some t ∧ Goal t := by
  induction events generalizing s ready with
  | nil =>
    have hsome := hpos hJ
    have hnone : readySteps ready [] = 0 := rfl
    omega
  | cons e rest ih =>
    obtain ⟨s₁, hstep, hs₁⟩ := hinv.step e
    have hcons : ∀ past t, past <+: rest ∧ run b past s₁ = some t ∧ Goal t →
        ∃ past t, past <+: e :: rest ∧ run b past s = some t ∧ Goal t := by
      rintro past t ⟨hpast, hrun, hgoal⟩
      refine ⟨e :: past, t, List.prefix_cons_inj e |>.mpr hpast, ?_, hgoal⟩
      rw [run, hstep, Option.bind_some, hrun]
    have hpulses : pulses (e :: rest) = pulses [e] + pulses rest := pulses_append [e] rest
    by_cases he : e = .processor
    · subst he
      have hnone : pulses [.processor] = 0 := rfl
      rw [readySteps_processor, hpulses, hnone, Nat.zero_add] at henough
      obtain hgoal | ⟨hJ₁, hle, hlt⟩ := hprocessor hinv hJ (processor_effect hinv hstep)
      · exact hcons [] s₁ ⟨List.nil_prefix, rfl, hgoal⟩
      · have hless : work s₁ + ready.toNat ≤ work s := by
          cases ready with
          | false => exact hle
          | true => exact hlt (hready rfl)
        have hbusy : false = true → s₁.transmitEmpty = true := fun h => absurd h Bool.false_ne_true
        obtain ⟨past, t, hfound⟩ := ih hbusy hs₁ hJ₁ (by omega)
        exact hcons past t hfound
    · have heffect := device_effect he hstep
      obtain ⟨hJ₁, hle⟩ := hdevice hJ heffect
      rw [readySteps_device he, hpulses, Nat.mul_add] at henough
      have hready' : decide (e = .transmitted ∨ ready) = true → s₁.transmitEmpty = true :=
        fun h => heffect.ready ((of_decide_eq_true h).symm.imp_left hready)
      obtain ⟨past, t, hfound⟩ := ih hready' hs₁ hJ₁ (by omega)
      exact hcons past t hfound

/-- The handler that runs has returned at the latest when the transmitter has become empty
before so many steps. -/
def ReturnsWithin (b : Boot) (n : ℕ) (s : System) : Prop :=
  ∀ after, n ≤ readySteps false after →
    ∃ past t, past <+: after ∧ run b past s = some t ∧ t.serving = none

/-- A message of the driver and the end of the interrupt. -/
theorem length_finishKeyboard {status data : UInt8} {k k' : Kernel}
    (h : finishKeyboard status data k = some k') :
    (newWrites k.ports k'.ports).length ≤ messageLimit + 1 := by
  obtain ⟨k₁, hk₁, rfl⟩ := Option.map_eq_some_iff.mp h
  obtain ⟨d, hd, hrest⟩ := Option.bind_eq_some_iff.mp hk₁
  have hbrief := brief_keyboardHandler status data _ d hd
  rw [List.length_nil, Nat.zero_add] at hbrief
  have hports : outb 0x20 0x20 k₁.ports = outb 0x20 0x20 (sendSerial d.uart k.ports) := by
    rw [← Option.some.inj hrest]
  rw [newWrites_end hports, List.length_append, List.length_map]
  exact Nat.add_le_add_right hbrief 1

theorem length_keyboardMessage : (writeSerial (ascii keyboardMessage)).length = 24 := by
  decide +kernel

/-- The steps that a handler still has to make. -/
def stepsLeft : Serving → ℕ
  | .announcing writes => writes.length + 23
  | .reading => 22
  | .ending writes => writes.length + 1

def handlerWork (s : System) : ℕ := s.serving.elim 0 stepsLeft

theorem handlerWork_eq {serving : Serving} (h : s.serving = some serving) :
    handlerWork s = stepsLeft serving := by
  rw [handlerWork, h]
  rfl

theorem handlerWork_pos (h : s.serving ≠ none) : 0 < handlerWork s := by
  obtain ⟨serving, hserving⟩ := Option.ne_none_iff_exists'.mp h
  rw [handlerWork_eq hserving]
  cases serving <;> exact Nat.succ_pos _

/-- A handler that runs comes nearer to its end, or has to wait. -/
theorem handlerWork_processor (h : s.serving ≠ none) (he : ProcessorEffect b s s') :
    s'.serving = none ∨ s'.serving ≠ none ∧ handlerWork s' ≤ handlerWork s ∧
      (s.transmitEmpty = true → handlerWork s' < handlerWork s) := by
  have hnext : ∀ {t : System} {serving serving' : Serving}, s.serving = some serving →
      t.serving = some serving' → stepsLeft serving' < stepsLeft serving →
      t.serving = none ∨ t.serving ≠ none ∧ handlerWork t ≤ handlerWork s ∧
        (s.transmitEmpty = true → handlerWork t < handlerWork s) := by
    intro t serving serving' hs ht hlt
    rw [handlerWork_eq hs, handlerWork_eq ht, ht]
    exact .inr ⟨Option.some_ne_none _, hlt.le, fun _ => hlt⟩
  cases he with
  | main hserving _ _ | timer hserving _ _ | keyboard hserving _ => exact absurd hserving h
  | found hserving _ => exact hnext hserving rfl (Nat.lt_succ_self 22)
  | nothing hserving _ hk =>
    have hle := length_finishKeyboard hk
    exact hnext hserving rfl (Nat.succ_lt_succ (Nat.lt_add_right 1 (Nat.lt_succ_of_le hle)))
  | byte hserving _ hk =>
    have hle := length_finishKeyboard hk
    exact hnext hserving rfl (Nat.succ_lt_succ (Nat.lt_succ_of_le hle))
  | waits _ hbusy =>
    refine .inr ⟨h, le_rfl, fun hempty => ?_⟩
    rw [hbusy] at hempty
    exact absurd hempty Bool.false_ne_true
  | write hkind hserving =>
    obtain rfl | rfl := hkind
    · exact hnext hserving rfl (Nat.add_lt_add_right (Nat.lt_succ_self _) 23)
    · exact hnext hserving rfl (Nat.add_lt_add_right (Nat.lt_succ_self _) 1)
  | done _ => exact .inl rfl

/-- What a handler still has to write is no more than it had at first. -/
def WritesFew : Option Serving → Prop
  | some (.announcing writes) => writes.length ≤ 24
  | some (.ending writes) => writes.length ≤ messageLimit + 1
  | _ => True

theorem writesFew_processor (h : WritesFew s.serving) (he : ProcessorEffect b s s') :
    WritesFew s'.serving := by
  cases he with
  | main hserving _ hstep =>
    rw [(main_effect hstep).serving]
    exact h
  | timer _ _ hk =>
    obtain ⟨k', hk', -, -, hwrites, -⟩ := irqHandler_timer s.kernel
    rw [← Option.some.inj (hk.symm.trans hk')] at hwrites
    change (newWrites s.kernel.ports _).length ≤ _
    rw [hwrites]
    decide
  | keyboard _ _ =>
    change (List.map _ _).length ≤ _
    rw [List.length_map, length_keyboardMessage]
  | found _ _ => trivial
  | nothing _ _ hk => exact length_finishKeyboard hk
  | byte _ _ hk => exact length_finishKeyboard hk
  | waits _ _ => exact h
  | write hkind hserving =>
    rw [hserving] at h
    obtain rfl | rfl := hkind
    · exact (Nat.le_succ _).trans h
    · exact (Nat.le_succ _).trans h
  | done _ => trivial

theorem writesFew_run (hinv : Invariant b s) (h : WritesFew s.serving) {events : List Event}
    (hrun : run b events s = some s') : WritesFew s'.serving :=
  run_keeps (P := fun _ t => WritesFew t.serving) [] (fun _ => writesFew_processor)
    (fun _ h he => he.serving.symm ▸ h) hinv h hrun

theorem handlerWork_le (h : WritesFew s.serving) : handlerWork s ≤ 47 := by
  rw [handlerWork]
  cases hserving : s.serving with
  | none => exact Nat.zero_le _
  | some serving =>
    rw [hserving] at h
    cases serving with
    | announcing writes => exact Nat.add_le_add_right h 23
    | reading => decide
    | ending writes => exact (Nat.add_le_add_right h 1).trans (by decide)

theorem handler_returns (hinv : Invariant b s) (h : WritesFew s.serving) : ReturnsWithin b 47 s := by
  intro after henough
  have hwork := handlerWork_le h
  by_cases hserving : s.serving = none
  · exact ⟨[], s, List.nil_prefix, rfl, hserving⟩
  · have hdevice : ∀ {e s s'}, s.serving ≠ none → DeviceEffect e s s' →
        s'.serving ≠ none ∧ handlerWork s' ≤ handlerWork s + 0 * pulses [e] := by
      intro e s s' h he
      rw [handlerWork, handlerWork, he.serving]
      exact ⟨h, Nat.le_add_right _ _⟩
    exact reaches (J := fun s => s.serving ≠ none) handlerWork_pos (fun _ => handlerWork_processor)
      hdevice (fun h => absurd h Bool.false_ne_true) hinv hserving (by omega)

/-- The steps of the processor until it has read the byte in the output buffer, if the timer
stays quiet: those of a handler that is running, four for the timer's interrupt, one to take the
keyboard's, one for each character of its message, and two to read. -/
def workLeft (s : System) : ℕ :=
  match s.serving with
  | some (.announcing writes) => writes.length + 2
  | some .reading => 1
  | some (.ending writes) => writes.length + 1 + 4 * pulsePending s + 27
  | none => 4 * pulsePending s + 27

theorem workLeft_pos (s : System) : 0 < workLeft s := by
  rw [workLeft]
  split
  all_goals omega

theorem workLeft_le (h : WritesFew s.serving) : workLeft s ≤ 52 := by
  have hpulse : pulsePending s ≤ 1 := by
    rw [pulsePending]
    split
    · exact le_rfl
    · exact Nat.zero_le 1
  rw [workLeft]
  split
  case h_1 writes hserving =>
    rw [hserving] at h
    exact (Nat.add_le_add_right h 2).trans (by decide)
  case h_2 => decide
  case h_3 writes hserving =>
    rw [hserving] at h
    have hle : writes.length ≤ 20 := h
    omega
  case h_4 => omega

theorem handled_extends (he : ProcessorEffect b s s') : s.handled <+: s'.handled := by
  cases he with
  | main _ _ hstep => exact (main_effect hstep).handled ▸ List.prefix_rfl
  | byte _ _ _ => exact List.prefix_append _ _
  | _ => exact List.prefix_rfl

theorem workLeft_none (h : s.serving = none) : workLeft s = 4 * pulsePending s + 27 := by
  rw [workLeft, h]

theorem workLeft_announcing {writes : List (UInt16 × UInt8)}
    (h : s.serving = some (.announcing writes)) : workLeft s = writes.length + 2 := by
  rw [workLeft, h]

theorem workLeft_ending {writes : List (UInt16 × UInt8)} (h : s.serving = some (.ending writes)) :
    workLeft s = writes.length + 1 + 4 * pulsePending s + 27 := by
  rw [workLeft, h]

/-- A byte waits, with interrupts enabled, and none has been handled since. -/
structure Waits (data : UInt8) (handled : List UInt8) (s : System) : Prop where
  handled : s.handled = handled
  output : s.controller.output = some data
  interruptible : s.point.interruptible

variable {data : UInt8} {handled : List UInt8}

/-- One step, while a byte waits: it is handled, or the step brings the processor nearer to it,
or the processor waits as well. -/
theorem workLeft_processor (hinv : Invariant b s) (h : Waits data handled s)
    (he : ProcessorEffect b s s') :
    handled ++ [data] <+: s'.handled ∨ Waits data handled s' ∧ workLeft s' ≤ workLeft s ∧
      (s.transmitEmpty = true → workLeft s' < workLeft s) := by
  obtain ⟨hhandled, hdata, hp⟩ := h
  have hasked := hinv.asked (stage_interruptible hp).ge (by rw [hdata]; rfl)
  have hnearer : ∀ {t : System}, Waits data handled t → workLeft t < workLeft s →
      Waits data handled t ∧ workLeft t ≤ workLeft s ∧
        (s.transmitEmpty = true → workLeft t < workLeft s) :=
    fun hwaits hlt => ⟨hwaits, hlt.le, fun _ => hlt⟩
  cases he with
  | main hserving hnone _ =>
    rw [hserving] at hasked
    exact absurd (hasked.resolve_right id) (hnone hp).2
  | @timer k hserving hrequest hk =>
    obtain ⟨k', hk', -, -, hwrites, -⟩ := irqHandler_timer s.kernel
    rw [← Option.some.inj (hk.symm.trans hk')] at hwrites
    have hbefore : pulsePending s = 1 := if_pos hrequest
    have hafter : pulsePending { s with chips := s.chips.acknowledge 0 } = 0 :=
      if_neg (Finset.notMem_erase 0 _)
    refine .inr (hnearer ⟨hhandled, hdata, hp⟩ ?_)
    rw [workLeft_none hserving, hbefore, workLeft_ending rfl]
    change (newWrites s.kernel.ports k.ports).length + 1 +
      4 * pulsePending { s with chips := s.chips.acknowledge 0 } + 27 < _
    rw [hwrites, hafter]
    decide
  | keyboard hserving _ =>
    refine .inr (hnearer ⟨hhandled, hdata, hp⟩ ?_)
    rw [workLeft_none hserving, workLeft_announcing rfl, List.length_map,
      length_keyboardMessage]
    omega
  | found hserving _ =>
    refine .inr (hnearer ⟨hhandled, hdata, hp⟩ ?_)
    rw [workLeft_announcing hserving]
    exact Nat.lt_succ_self 1
  | nothing _ hempty _ =>
    rw [hdata] at hempty
    exact absurd hempty (Option.some_ne_none data)
  | byte _ hdata' _ =>
    rw [← Option.some.inj (hdata.symm.trans hdata'), ← hhandled]
    exact .inl List.prefix_rfl
  | waits _ hbusy =>
    refine .inr ⟨⟨hhandled, hdata, hp⟩, le_rfl, fun hempty => ?_⟩
    rw [hbusy] at hempty
    exact absurd hempty Bool.false_ne_true
  | @write w rest kind hkind hserving =>
    have hsame := requested_write hinv hkind hserving
    refine .inr (hnearer ⟨hhandled, hdata, hp⟩ ?_)
    obtain rfl | rfl := hkind
    · rw [workLeft_announcing hserving, workLeft_announcing rfl, List.length_cons]
      omega
    · have hpending : pulsePending { s with chips := s.chips.write w } = pulsePending s :=
        pulsePending_congr (by rw [hsame])
      rw [workLeft_ending hserving, workLeft_ending rfl, List.length_cons]
      change rest.length + 1 + 4 * pulsePending { s with chips := s.chips.write w } + 27 < _
      omega
  | done hserving =>
    refine .inr (hnearer ⟨hhandled, hdata, hp⟩ ?_)
    rw [workLeft_ending hserving, workLeft_none rfl, List.length_nil]
    change 4 * pulsePending s + 27 < _
    omega

theorem workLeft_device {e : Event} (h : Waits data handled s) (he : DeviceEffect e s s') :
    Waits data handled s' ∧ workLeft s' ≤ workLeft s + 4 * pulses [e] := by
  have hfull : s.controller.output.isSome := by
    rw [h.output]
    rfl
  refine ⟨⟨he.handled.trans h.handled, (he.output hfull).trans h.output,
    he.point ▸ h.interruptible⟩, ?_⟩
  have hpulses := he.pulses
  have hlost := he.lostPulses
  rw [workLeft, workLeft, he.serving]
  split
  all_goals omega

theorem handled_grows (hinv : Invariant b s) {events : List Event} (hrun : run b events s = some s') :
    s.handled <+: s'.handled :=
  run_keeps (P := fun _ t => s.handled <+: t.handled) []
    (fun _ h he => h.trans (handled_extends he)) (fun _ h he => he.handled.symm ▸ h) hinv
    List.prefix_rfl hrun

/-- The byte that waits is handled next, once the transmitter has become empty before so many
steps of the processor. -/
theorem waiting_handled (hinv : Invariant b s) (h : Waits data handled s) {after : List Event}
    (hrun : run b after s = some s')
    (henough : workLeft s + 4 * pulses after ≤ readySteps false after) :
    handled ++ [data] <+: s'.handled := by
  obtain ⟨past, t, ⟨rest, rfl⟩, hpast, hdone⟩ := reaches (fun {s} _ => workLeft_pos s)
    workLeft_processor workLeft_device (fun h => absurd h Bool.false_ne_true) hinv h henough
  obtain ⟨t', hpast', hinv'⟩ := hinv.run past
  obtain rfl : t = t' := Option.some.inj (hpast.symm.trans hpast')
  rw [run_append, hpast, Option.bind_some] at hrun
  exact hdone.trans (handled_grows hinv' hrun)

end BinOs.InterruptProgress
