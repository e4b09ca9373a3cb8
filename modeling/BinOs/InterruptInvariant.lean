import BinOs.CalmPorts

/-! # The invariant of the kernel under interrupts

Every stage of the boot sets up one thing that interrupts need, and no later step undoes it. -/
namespace BinOs.InterruptInvariant
open FramebufferDrawing LineEditor ShellSession LineEditorRefinement LineEditorRuns
open HandlerServices CalmPorts InterruptTable InterruptDispatch InterruptLines InterruptSystem
open PicPair TimedWaits
open GateSequences (idtInit installExceptions initTimerIrq initKeyboardIrq)

/-- How far the boot has come: the timer's gate, the keyboard's gate, the controllers, the empty
output buffer. -/
def stage : Point → ℕ
  | .idtInit | .installExceptions | .initTimerIrq => 0
  | .initKeyboardIrq => 1
  | .idtLoad | .initPic => 2
  | .acpiInit | .initTimer | .clearFlags | .pollOutput | .readOutput | .halted => 3
  | .awaitReady | .enableKeyboard | .awaitAccepted | .enableKeyboardIrq | .initTimerInterrupts
  | .sti | .shellInit | .idle => 4

theorem stage_interruptible {p : Point} (h : p.interruptible = true) : stage p = 4 := by
  cases p
  case shellInit => rfl
  case idle => rfl
  all_goals exact absurd h Bool.false_ne_true

/-- The port writes that the handler still has to make, bytes of the driver's messages apart. -/
def toWrite : Option Serving → List (UInt16 × UInt8)
  | none => []
  | some (.announcing writes) => writes ++ [endMaster]
  | some .reading => [endMaster]
  | some (.ending writes) => writes

/-- The handler has yet to look for the keyboard's byte. -/
def looking : Option Serving → Prop
  | some (.announcing _) => True
  | some .reading => True
  | _ => False

/-- What holds at every point of the boot and of the run after it. When the handler has made
its writes no line is in service, and a byte in the output buffer is asked for, or about to be
read. -/
structure Invariant (b : Boot) (s : System) : Prop where
  shell : ∃ a, Represents s.kernel.keyboard.shell a
  timerGate : 1 ≤ stage s.point → s.idt 32 = gate b.stubs.irq0 0x8E
  keyboardGate : 2 ≤ stage s.point → s.idt 33 = gate b.stubs.irq1 0x8E
  master : 3 ≤ stage s.point → s.kernel.ports.master = initialMaster
  settled : 3 ≤ stage s.point → SameServices (s.chips.replay (toWrite s.serving)) quietChips
  asked : 4 ≤ stage s.point → s.controller.output.isSome →
    1 ∈ s.chips.master.lines.requested ∨ looking s.serving
  byteThere : s.serving = some .reading → s.controller.output.isSome
  served : s.serving ≠ none → s.point.interruptible
  ends : EndsOnly (toWrite s.serving)

variable {b : Boot} {s s' : System}

theorem endsOnly_nil : EndsOnly [] := fun _ hw => absurd hw List.not_mem_nil

theorem endsOnly_endMaster : EndsOnly [endMaster] := by
  intro w hw _
  rw [List.mem_singleton.mp hw]

/-- The invariant when no handler runs. -/
theorem Invariant.of_main (hserving : s.serving = none)
    (shell : ∃ a, Represents s.kernel.keyboard.shell a)
    (timerGate : 1 ≤ stage s.point → s.idt 32 = gate b.stubs.irq0 0x8E)
    (keyboardGate : 2 ≤ stage s.point → s.idt 33 = gate b.stubs.irq1 0x8E)
    (master : 3 ≤ stage s.point → s.kernel.ports.master = initialMaster)
    (settled : 3 ≤ stage s.point → SameServices s.chips quietChips)
    (asked : 4 ≤ stage s.point → s.controller.output.isSome → 1 ∈ s.chips.master.lines.requested) :
    Invariant b s where
  shell := shell
  timerGate := timerGate
  keyboardGate := keyboardGate
  master := master
  settled := by
    rw [hserving]
    exact settled
  asked h hfull := .inl (asked h hfull)
  byteThere h := by
    rw [hserving] at h
    exact absurd h.symm (Option.some_ne_none _)
  served h := absurd hserving h
  ends := by
    rw [hserving]
    exact endsOnly_nil

/-- Before the timer's gate is installed nothing but the shell matters. -/
theorem Invariant.of_start (hserving : s.serving = none) (hstage : stage s.point = 0)
    (shell : ∃ a, Represents s.kernel.keyboard.shell a) : Invariant b s := by
  refine .of_main hserving shell ?_ ?_ ?_ ?_ ?_
  all_goals
    rw [hstage]
    intro h
    exact absurd h (by decide)

/-- A step of the boot that reaches no new stage. -/
theorem Invariant.advance (h : Invariant b s) (hserving : s.serving = none)
    (hstage : stage s'.point = stage s.point) (hserving' : s'.serving = none)
    (hshell : ∃ a, Represents s'.kernel.keyboard.shell a) (hidt : s'.idt = s.idt)
    (hmaster : s.kernel.ports.master = initialMaster → s'.kernel.ports.master = initialMaster)
    (hchips : s'.chips = s.chips)
    (houtput : s'.controller.output.isSome → s.controller.output.isSome) :
    Invariant b s' := by
  have hsettled := h.settled
  have hasked := h.asked
  rw [hserving] at hsettled hasked
  refine .of_main hserving' hshell ?_ ?_ ?_ ?_ ?_
  all_goals rw [hstage]
  · rw [hidt]
    exact h.timerGate
  · rw [hidt]
    exact h.keyboardGate
  · exact fun h3 => hmaster (h.master h3)
  · rw [hchips]
    exact hsettled
  · rw [hchips]
    exact fun h4 hfull => (hasked h4 (houtput hfull)).resolve_right id

/-- A function of the boot that leaves the table, calm at the ports. -/
theorem Invariant.calmly (h : Invariant b s) (hserving : s.serving = none) (f : Ports → Ports)
    (hf : Calm s.kernel.ports (f s.kernel.ports)) {p : Point} (hp : stage p = stage s.point) :
    Invariant b { onPorts f s with point := p } :=
  h.advance hserving hp hserving h.shell rfl hf.master (hf.replay s.chips) id

theorem Invariant.controllersReady (h : Invariant b s) (hserving : s.serving = none)
    (hp : s.point = .initPic) {n : ℕ} :
    Invariant b { onPorts initPic s with point := .acpiInit, lostPulses := n } := by
  have h32 := h.timerGate (by rw [hp]; decide)
  have h33 := h.keyboardGate (by rw [hp]; decide)
  have hquiet : s.chips.replay (newWrites s.kernel.ports (initPic s.kernel.ports)) =
    quietChips := replay_initPic _ _
  refine .of_main hserving h.shell (fun _ => h32) (fun _ => h33) (fun _ => initPic_master _) ?_ ?_
  · intro _
    change SameServices (s.chips.replay _) _
    rw [hquiet]
    exact ⟨rfl, rfl⟩
  · exact fun hstage => absurd hstage (by decide : ¬ _ ≤ stage .acpiInit)

theorem Invariant.acpiAsked (h : Invariant b s) (hserving : s.serving = none)
    (hp : s.point = .acpiInit) {p : Point} (hstage : stage p = 3) :
    Invariant b { onControllers (installRequested b.requests) s with point := p } := by
  have h3 : stage s.point = 3 := by
    rw [hp]
    rfl
  have hsettled := h.settled h3.ge
  rw [hserving] at hsettled
  obtain ⟨hcalm, h32, h33⟩ := calm_installRequested b.requests_slave ⟨s.idt, s.kernel.ports⟩
  refine .of_main hserving h.shell (fun _ => ?_) (fun _ => ?_) (fun _ => ?_) (fun _ => ?_) ?_
  · exact h32.trans (h.timerGate (by omega))
  · exact h33.trans (h.keyboardGate (by omega))
  · exact hcalm.master (h.master h3.ge)
  · change SameServices (s.chips.replay _) _
    rw [hcalm.replay]
    exact hsettled
  · intro h4
    change 4 ≤ stage p at h4
    omega

theorem Invariant.polled (h : Invariant b s) (hserving : s.serving = none)
    (hp : s.point = .pollOutput) :
    Invariant b { s with
      point := if s.controller.output.isSome then .readOutput else .awaitReady } := by
  have h3 : stage s.point = 3 := by
    rw [hp]
    rfl
  have hsettled := h.settled h3.ge
  rw [hserving] at hsettled
  refine .of_main hserving h.shell (fun _ => h.timerGate (by omega))
    (fun _ => h.keyboardGate (by omega)) (fun _ => h.master h3.ge) (fun _ => hsettled) ?_
  intro h4 hfull
  change 4 ≤ stage (if s.controller.output.isSome then .readOutput else .awaitReady) at h4
  rw [if_pos hfull] at h4
  exact absurd h4 (by decide)

/-- The table's first calls. -/
theorem Invariant.started (h : Invariant b s) (hserving : s.serving = none)
    (f : Controllers → Controllers) {p : Point} (hp : stage p = 0) :
    Invariant b { onControllers f s with point := p } := .of_start hserving hp h.shell

theorem Invariant.main (h : Invariant b s) (hserving : s.serving = none) :
    ∃ s', mainStep b s = some s' ∧ Invariant b s' := by
  rw [mainStep]
  cases hp : s.point with
  | idtInit => exact ⟨_, rfl, h.started hserving idtInit rfl⟩
  | installExceptions => exact ⟨_, rfl, h.started hserving (installExceptions b.stubs.isr) rfl⟩
  | initTimerIrq =>
    refine ⟨_, rfl, .of_main hserving h.shell (fun _ => rfl) ?_ ?_ ?_ ?_⟩
    all_goals exact fun hstage => absurd hstage (by decide : ¬ _ ≤ stage .initKeyboardIrq)
  | initKeyboardIrq =>
    have h32 := h.timerGate (by rw [hp]; decide)
    refine ⟨_, rfl, .of_main hserving h.shell (fun _ => h32) (fun _ => rfl) ?_ ?_ ?_⟩
    all_goals exact fun hstage => absurd hstage (by decide : ¬ _ ≤ stage .idtLoad)
  | idtLoad => exact ⟨_, rfl, h.calmly hserving _ (calm_writeSerialText _ _) (by rw [hp]; rfl)⟩
  | initPic => exact ⟨_, rfl, h.controllersReady hserving hp⟩
  | acpiInit =>
    refine ⟨_, rfl, h.acpiAsked hserving hp ?_⟩
    split
    · rfl
    · rfl
  | initTimer => exact ⟨_, rfl, h.calmly hserving initTimer (calm_initTimer _) (by rw [hp]; rfl)⟩
  | clearFlags =>
    exact ⟨_, rfl, h.advance hserving (by rw [hp]; rfl) hserving h.shell rfl id rfl id⟩
  | pollOutput => exact ⟨_, rfl, h.polled hserving hp⟩
  | readOutput =>
    exact ⟨_, rfl, h.advance hserving (by rw [hp]; rfl) hserving h.shell rfl id rfl
      fun hfull => absurd hfull Bool.false_ne_true⟩
  | awaitReady =>
    refine ⟨_, rfl, h.advance hserving ?_ hserving h.shell rfl id rfl id⟩
    rw [hp]
    change stage (ite _ _ _) = _
    split
    · rfl
    · rfl
  | enableKeyboard =>
    have hcalm := calm_enableKeyboard s.kernel.ports
    exact ⟨_, rfl, h.advance hserving (by rw [hp]; rfl) hserving h.shell rfl hcalm.master
      (hcalm.replay s.chips) id⟩
  | awaitAccepted =>
    refine ⟨_, rfl, h.advance hserving ?_ hserving h.shell rfl id rfl id⟩
    rw [hp]
    change stage (ite _ _ _) = _
    split
    · rfl
    · rfl
  | enableKeyboardIrq =>
    exact ⟨_, rfl, h.calmly hserving keyboardInitialized (calm_keyboardInitialized _)
      (by rw [hp]; rfl)⟩
  | initTimerInterrupts =>
    exact ⟨_, rfl, h.calmly hserving initTimerInterrupts (calm_initTimerInterrupts _)
      (by rw [hp]; rfl)⟩
  | sti => exact ⟨_, rfl, h.calmly hserving _ (calm_writeSerialText _ _) (by rw [hp]; rfl)⟩
  | shellInit =>
    obtain ⟨shell, hshell, hrep⟩ := shellInit_represents s.kernel.keyboard.shell
    rw [hshell]
    exact ⟨_, rfl, h.advance hserving (by rw [hp]; rfl) hserving ⟨_, hrep⟩ rfl id rfl id⟩
  | idle => exact ⟨s, rfl, h⟩
  | halted => exact ⟨s, rfl, h⟩

end BinOs.InterruptInvariant
