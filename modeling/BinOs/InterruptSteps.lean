import BinOs.InterruptInvariant

/-! # Every event keeps the invariant

An interrupt that is taken finds its gate, and its handler brings the lines in service back to
none. What devices do in between adds requests and takes some away. -/
namespace BinOs.InterruptInvariant
open MemoryStrings SerialPort LineEditorRefinement HandlerServices CalmPorts InterruptTable
open InterruptDispatch InterruptLines InterruptSystem PicPair PriorityLines

variable {b : Boot} {s s' : System}

/-- The kernel's part of a handler has run, and what it sends settles the services. -/
theorem Invariant.dispatched (h : Invariant b s) (hstage : stage s.point = 4) {t : System}
    {k : Kernel} {commands : List (UInt16 × UInt8)} (hsends : Sends commands t.kernel k)
    (hshell : ∃ a, Represents k.keyboard.shell a) (hinterruptible : t.point.interruptible)
    (hidt : t.idt = s.idt) (hmaster : t.kernel.ports.master = initialMaster)
    (hsettled : SameServices (t.chips.replay commands) quietChips)
    (hasked : t.controller.output.isSome → 1 ∈ t.chips.master.lines.requested) :
    Invariant b { t with
      kernel := k, serving := some (.ending (newWrites t.kernel.ports k.ports)) } where
  shell := hshell
  timerGate _ := (congrFun hidt 32).trans (h.timerGate (by omega))
  keyboardGate _ := (congrFun hidt 33).trans (h.keyboardGate (by omega))
  master _ := hsends.master.trans hmaster
  settled _ := by
    change SameServices (t.chips.replay (newWrites _ _)) _
    rw [hsends.replay]
    exact hsettled
  asked _ hfull := .inl (hasked hfull)
  byteThere heq := Serving.noConfusion (Option.some.inj heq)
  served _ := hinterruptible
  ends := hsends.ends

theorem Invariant.stage_served (h : Invariant b s) (hserving : s.serving ≠ none) :
    stage s.point = 4 := stage_interruptible (h.served hserving)

/-- One more write, of the message or of the last ones, or a look at a busy transmitter. -/
theorem Invariant.written (h : Invariant b s) {w : UInt16 × UInt8} {serving next : Serving}
    (hserving : s.serving = some serving)
    (hwrites : toWrite (some serving) = w :: toWrite (some next))
    (hlooking : looking (some serving) → looking (some next)) (hnext : next ≠ .reading) :
    Invariant b (writeNext w next s) := by
  have hnone : s.serving ≠ none := by
    rw [hserving]
    exact Option.some_ne_none _
  have hsettled := h.settled
  have hasked := h.asked
  have hends := h.ends
  rw [hserving] at hsettled hasked hends
  rw [hwrites] at hsettled hends
  rw [writeNext]
  split
  · exact h
  · exact { h with
      settled := hsettled
      asked := fun h4 hfull => by
        rw [write_requested (hends w List.mem_cons_self)]
        exact (hasked h4 hfull).imp_right hlooking
      byteThere := fun heq => absurd (Option.some.inj heq) hnext
      served := fun _ => h.served hnone
      ends := fun w hw => hends w (List.mem_cons_of_mem _ hw) }

theorem Invariant.handler (h : Invariant b s) {serving : Serving}
    (hserving : s.serving = some serving) :
    ∃ s', handlerStep serving s = some s' ∧ Invariant b s' := by
  have hnone : s.serving ≠ none := by
    rw [hserving]
    exact Option.some_ne_none _
  have h4 := h.stage_served hnone
  have hsettled := h.settled (by omega)
  have hmaster := h.master (by omega)
  have hasked := h.asked h4.ge
  obtain ⟨a, hrep⟩ := h.shell
  rw [hserving] at hsettled hasked
  match serving with
  | .announcing (w :: rest) =>
    exact ⟨_, rfl, h.written hserving rfl id Serving.noConfusion⟩
  | .announcing [] =>
    rw [handlerStep]
    by_cases hfull : s.controller.output.isSome
    · refine ⟨_, if_pos hfull, ?_⟩
      exact { h with
        settled := fun _ => hsettled
        asked := fun _ _ => .inr trivial
        byteThere := fun _ => hfull
        served := fun _ => h.served hnone
        ends := endsOnly_endMaster }
    · obtain ⟨k, a', hk, -, hrep', -, hsends⟩ := finishKeyboard_sends hrep 0 0
      refine ⟨_, by rw [if_neg hfull, runHandler, hk]; rfl, ?_⟩
      exact h.dispatched h4 hsends ⟨a', hrep'⟩ (h.served hnone) rfl hmaster hsettled
        fun hfull' => absurd hfull' hfull
  | .reading =>
    rw [handlerStep]
    obtain ⟨k, a', hk, -, hrep', -, hsends⟩ :=
      finishKeyboard_sends hrep 1 (s.controller.output.getD 0)
    refine ⟨_, by rw [runHandler, hk]; rfl, ?_⟩
    exact h.dispatched h4 (t := { s with
      controller := { s.controller with output := none }
      handled := s.handled ++ s.controller.output.toList }) hsends ⟨a', hrep'⟩ (h.served hnone) rfl
      hmaster hsettled fun hfull => absurd hfull Bool.false_ne_true
  | .ending (w :: rest) =>
    exact ⟨_, rfl, h.written hserving rfl id Serving.noConfusion⟩
  | .ending [] =>
    rw [handlerStep]
    refine ⟨_, rfl, .of_main rfl h.shell h.timerGate h.keyboardGate h.master (fun _ => hsettled) ?_⟩
    exact fun _ hfull => (hasked hfull).resolve_right id

theorem vector_initial {p : Ports} (hmaster : p.master = initialMaster) :
    vector p 0 = 32 ∧ vector p 1 = 33 := by
  have hline (i : Fin 8) : vector p (Fin.castAdd 8 i) = 0x20 &&& 0xF8 ||| UInt8.ofNat i := by
    rw [vector_castAdd, hmaster]
    rfl
  exact ⟨hline 0, hline 1⟩

theorem Invariant.idle (h : Invariant b s) (hserving : s.serving = none) (h3 : 3 ≤ stage s.point) :
    SameServices s.chips quietChips := by
  have hsettled := h.settled h3
  rw [hserving] at hsettled
  exact hsettled

/-- The timer's interrupt: its handler runs to the end, with two ends still to be written. -/
theorem Invariant.timerTaken (h : Invariant b s) (hserving : s.serving = none)
    (hp : s.point.interruptible) : ∃ k, takeInterrupt b 0 s = some { s with
        chips := s.chips.acknowledge 0
        kernel := k
        serving := some (.ending (newWrites s.kernel.ports k.ports)) } ∧
      irqHandler 32 0 0 s.kernel = some k ∧ Invariant b { s with
        chips := s.chips.acknowledge 0
        kernel := k
        serving := some (.ending (newWrites s.kernel.ports k.ports)) } := by
  have h4 := stage_interruptible hp
  have hmaster := h.master (by omega)
  obtain ⟨a, hrep⟩ := h.shell
  obtain ⟨husable, haddress⟩ := gate_deliversTo b.stubs.irq0
  obtain ⟨k, hk, hkeyboard, -, -, hsends⟩ := irqHandler_timer s.kernel
  have hends := acknowledge_ends 0 (by decide) (h.idle hserving (by omega))
  have hasked := h.asked h4.ge
  rw [hserving] at hasked
  refine ⟨k, ?_, hk, h.dispatched h4 (t := { s with chips := s.chips.acknowledge 0 }) hsends
    ⟨a, by rw [hkeyboard]; exact hrep⟩ hp rfl hmaster ?_ ?_⟩
  · rw [takeInterrupt, (vector_initial hmaster).1, h.timerGate (by omega), if_pos husable,
      if_pos haddress, runHandler, hk]
    rfl
  · have htwo := replay_append [endMaster] [endMaster] (s.chips.acknowledge 0)
    change SameServices ((s.chips.acknowledge 0).replay ([endMaster] ++ [endMaster])) quietChips
    rw [htwo]
    exact (hends.replay [endMaster]).trans quiet_ends
  · intro hfull
    exact Finset.mem_erase_of_ne_of_mem (by decide) ((hasked hfull).resolve_right id)

/-- The state in which the keyboard's handler has its message to write. -/
def announcing (s : System) : System := { s with
  chips := s.chips.acknowledge 1
  kernel := announce keyboardMessage s.kernel
  serving := some (.announcing ((writeSerial (ascii keyboardMessage)).map fun c => (serialData, c))) }

theorem Invariant.keyboardTaken (h : Invariant b s) (hserving : s.serving = none)
    (hp : s.point.interruptible) :
    takeInterrupt b 1 s = some (announcing s) ∧ Invariant b (announcing s) := by
  have h4 := stage_interruptible hp
  have hmaster := h.master (by omega)
  have hcalm : Calm s.kernel.ports (announce keyboardMessage s.kernel).ports :=
    calm_writeSerialText _ _
  obtain ⟨husable, haddress⟩ := gate_deliversTo b.stubs.irq1
  have hother : ¬ (gate b.stubs.irq1 0x8E).address = b.stubs.irq0 := by
    rw [haddress]
    exact b.stubs_ne.symm
  constructor
  · rw [takeInterrupt, (vector_initial hmaster).2, h.keyboardGate (by omega), if_pos husable,
      if_neg hother, if_pos haddress, announcing, ← newWrites_announce]
    rfl
  · refine { h with
      master := fun _ => hcalm.master hmaster
      settled := fun _ => ?_
      asked := fun _ _ => .inr trivial
      byteThere := fun heq => Serving.noConfusion (Option.some.inj heq)
      served := fun _ => hp
      ends := fun w hw hcommand => ?_ }
    · change SameServices ((s.chips.acknowledge 1).replay (_ ++ [endMaster])) quietChips
      rw [replay_append, replay_serial]
      exact acknowledge_ends 1 (by decide) (h.idle hserving (by omega))
    · obtain hserial | hend := List.mem_append.mp hw
      · obtain ⟨c, -, rfl⟩ := List.mem_map.mp hserial
        exact absurd hcommand serialData_not_command
      · rw [List.mem_singleton.mp hend]

/-- The timer's line first, then the keyboard's, and no other. -/
theorem Invariant.interrupting_eq (h : Invariant b s) (hserving : s.serving = none)
    (hp : s.point.interruptible) : interrupting s.kernel.ports s.chips =
      if 0 ∈ s.chips.master.lines.requested then some 0
      else if 1 ∈ s.chips.master.lines.requested then some 1 else none := by
  have h3 : 3 ≤ stage s.point := by rw [stage_interruptible hp]; decide
  have hmask : s.kernel.ports.master.mask = 0xFC := by rw [h.master h3]; rfl
  exact interrupting_initial hmask (h.idle hserving h3).1

theorem Invariant.taken (h : Invariant b s) (hserving : s.serving = none)
    (hp : s.point.interruptible) {line : Fin 16}
    (hline : interrupting s.kernel.ports s.chips = some line) :
    ∃ s', takeInterrupt b line s = some s' ∧ Invariant b s' := by
  rw [h.interrupting_eq hserving hp] at hline
  split at hline
  · obtain ⟨k, htake, -, hinv⟩ := h.timerTaken hserving hp
    rw [← Option.some.inj hline]
    exact ⟨_, htake, hinv⟩
  · split at hline
    · rw [← Option.some.inj hline]
      exact ⟨_, h.keyboardTaken hserving hp⟩
    · exact absurd hline.symm (Option.some_ne_none _)

theorem Invariant.processor (h : Invariant b s) : ∃ s', processorStep b s = some s' ∧ Invariant b s' := by
  rw [processorStep]
  cases hserving : s.serving with
  | some serving => exact h.handler hserving
  | none =>
    by_cases hp : s.point.interruptible
    · simp only [if_pos hp]
      cases hline : interrupting s.kernel.ports s.chips with
      | none => exact h.main hserving
      | some line => exact h.taken hserving hp hline
    · simp only [if_neg hp]
      exact h.main hserving

/-- A device changes requests, and no service. -/
theorem Invariant.requests (h : Invariant b s) {c : Chips} {n : ℕ} (hc : SameServices c s.chips)
    (hasked : s.controller.output.isSome → 1 ∈ s.chips.master.lines.requested →
      1 ∈ c.master.lines.requested) :
    Invariant b { s with chips := c, lostPulses := n } :=
  { h with
    settled := fun h3 => (hc.replay _).trans (h.settled h3)
    asked := fun h4 hfull => (h.asked h4 hfull).imp_left (hasked hfull) }

theorem onLine_keeps {change : Lines (Fin 8) → Fin 8 → Lines (Fin 8)} {line : Fin 16} {c : Chips}
    {i : Fin 8} (h : ∀ j : Fin 8, (line : ℕ) = j → i ∈ c.master.lines.requested →
      i ∈ (change c.master.lines j).requested) (hi : i ∈ c.master.lines.requested) :
    i ∈ (c.onLine change line).master.lines.requested := by
  rw [Chips.onLine]
  split
  · exact h _ rfl hi
  · exact hi

theorem Invariant.step (h : Invariant b s) (e : Event) : ∃ s', step b s e = some s' ∧ Invariant b s' := by
  cases e with
  | processor => exact h.processor
  | raise line =>
    rw [InterruptSystem.step]
    split
    · exact ⟨s, rfl, h⟩
    · refine ⟨_, rfl, h.requests (request_sameServices line s.chips) fun _ hone => ?_⟩
      exact onLine_keeps (fun _ _ => Finset.mem_insert_of_mem) hone
  | withdraw line =>
    rw [InterruptSystem.step]
    split
    case isTrue => exact ⟨s, rfl, h⟩
    case isFalse hallowed =>
      refine ⟨_, rfl, h.requests (withdraw_sameServices line s.chips) fun hfull hone => ?_⟩
      refine onLine_keeps (fun j hj hmem => Finset.mem_erase.mpr ⟨?_, hmem⟩) hone
      rintro rfl
      exact hallowed ⟨Fin.ext hj, hfull⟩
  | send byte => exact ⟨_, rfl, { h with }⟩
  | deliver =>
    rw [InterruptSystem.step]
    split
    · refine ⟨_, rfl, ?_⟩
      exact { h with
        settled := fun h3 => ((request_sameServices 1 s.chips).replay _).trans (h.settled h3)
        asked := fun _ _ => .inl (Finset.mem_insert_self 1 _)
        byteThere := fun _ => rfl }
    · exact ⟨s, rfl, h⟩
  | accept => exact ⟨_, rfl, { h with }⟩
  | transmitted => exact ⟨_, rfl, { h with }⟩

theorem Invariant.run (h : Invariant b s) (events : List Event) :
    ∃ s', run b events s = some s' ∧ Invariant b s' := by
  induction events generalizing s with
  | nil => exact ⟨s, rfl, h⟩
  | cons e rest ih =>
    obtain ⟨s₁, hstep, hs₁⟩ := h.step e
    obtain ⟨s', hrest, hs'⟩ := ih hs₁
    exact ⟨s', by rw [InterruptSystem.run, hstep, Option.bind_some, hrest], hs'⟩

end BinOs.InterruptInvariant
