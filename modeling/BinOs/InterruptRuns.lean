import BinOs.InterruptProgress

/-! # Runs of the kernel under interrupts

Whatever the state of the table and of the devices when the kernel starts, and whenever lines
are raised and bytes are sent, every interrupt finds its gate, and between two interrupts no
line is in service, although the timer's is ended twice. Handlers return, and a byte that waits
is handled, as long as the serial port gets rid of its characters. -/
namespace BinOs.InterruptRuns
open CheckedBuffers FramebufferDrawing MemoryStrings LineEditor ShellSession LineEditorRefinement
open LineEditorRuns HandlerServices InterruptInvariant InterruptEffects InterruptProgress
open InterruptTable InterruptDispatch InterruptLines InterruptSystem PicPair

variable {b : Boot} {s : System}

/-- The shell's variables as they are loaded. -/
def loadedShell (screen : Screen) : Shell where
  commandBuffer := Vector.replicate _ 0
  inputBuffer := Vector.replicate _ 0
  history := Vector.replicate _ (Vector.replicate _ 0)
  historyIndex := 0
  historyCurrent := 0
  inputIndex := 0
  cursorPos := 0
  cursorBlinkCounter := 0
  cursorVisible := 0
  screen := screen

theorem loadedShell_represents (screen : Screen) : Represents (loadedShell screen) Session.start := by
  have hempty : Holds (Vector.replicate 256 (0 : UInt8)) (bytes []) :=
    holds_nil (by decide) (elem_replicate _ (by decide))
  refine ⟨hempty, rfl, rfl, hempty, fun k => ?_, rfl, rfl⟩
  rw [loadedShell, elem_replicate _ k.2]
  exact hempty

/-- The tables, the controllers and the devices may be in any state when the kernel starts. -/
structure Starts (s : System) : Prop where
  point : s.point = .idtInit
  serving : s.serving = none
  shell : ∃ screen, s.kernel.keyboard.shell = loadedShell screen
  drained : s.drained = []
  handled : s.handled = []
  lostPulses : s.lostPulses = 0

theorem Starts.invariant (h : Starts s) : Invariant b s := by
  obtain ⟨screen, hshell⟩ := h.shell
  refine .of_start h.serving (by rw [h.point]; rfl) ⟨Session.start, ?_⟩
  rw [hshell]
  exact loadedShell_represents screen

theorem picGetIsr_idle {p : Ports} {c : Chips} (h : SameServices c quietChips) :
    (picGetIsr p c).1 = 0 := by
  have hbits := (registers_read p c).2.1
  rw [h.1, h.2] at hbits
  apply UInt16.toBitVec_inj.mp
  apply BitVec.eq_of_getLsbD_eq
  intro i hi
  rw [hbits ⟨i, hi⟩, lineIn]
  split
  · exact BitVec.getLsbD_zero.symm
  · exact BitVec.getLsbD_zero.symm

/-- No run gets stuck: every interrupt finds its gate and its handler. Handlers run only when the
kernel has enabled interrupts, and each returns before the transmitter has become empty 47 times.
While none runs no line is in service: the pair puts forward the timer's line if it is requested,
else the keyboard's if it is, else none. -/
theorem interrupts_served (b : Boot) (h : Starts s) (events : List Event) :
    ∃ s', run b events s = some s' ∧ (s'.serving ≠ none → s'.point.interruptible) ∧
      ReturnsWithin b 47 s' ∧
      (s'.point.interruptible → s'.serving = none →
        (picGetIsr s'.kernel.ports s'.chips).1 = 0 ∧
        interrupting s'.kernel.ports s'.chips =
          if 0 ∈ s'.chips.master.lines.requested then some 0
          else if 1 ∈ s'.chips.master.lines.requested then some 1 else none) := by
  obtain ⟨s', hrun, hs'⟩ := h.invariant.run events
  have hfew : WritesFew s'.serving := writesFew_run h.invariant (by rw [h.serving]; trivial) hrun
  refine ⟨s', hrun, hs'.served, handler_returns hs' hfew, fun hp hserving => ⟨?_, ?_⟩⟩
  · have hstage := stage_interruptible hp
    exact picGetIsr_idle (hs'.idle hserving (by omega))
  · exact hs'.interrupting_eq hserving hp

/-- In a run from any state with interrupts enabled the byte in the output buffer is handled, and
before any other, once the transmitter has become empty before the steps that the handlers have to
make, at most 52 and 4 for every pulse of the timer. -/
theorem byte_handled_soon (b : Boot) (h : Starts s) (before after : List Event) :
    ∃ s₁ s₂, run b before s = some s₁ ∧ run b after s₁ = some s₂ ∧ workLeft s₁ ≤ 52 ∧
      (s₁.point.interruptible → ∀ data, s₁.controller.output = some data →
        workLeft s₁ + 4 * pulses after ≤ readySteps false after →
        s₁.handled ++ [data] <+: s₂.handled) := by
  obtain ⟨s₁, hrun₁, hinv₁⟩ := (h.invariant (b := b)).run before
  obtain ⟨s₂, hrun₂, -⟩ := hinv₁.run after
  have hfew : WritesFew s₁.serving := writesFew_run h.invariant (by rw [h.serving]; trivial) hrun₁
  exact ⟨s₁, s₂, hrun₁, hrun₂, workLeft_le hfew, fun hp data hdata henough =>
    waiting_handled hinv₁ ⟨rfl, hdata, hp⟩ hrun₂ henough⟩

/-- ACPI takes line 9. -/
def smallBoot : Boot where
  stubs := ⟨Vector.replicate _ 0x1000, 0x2000, 0x3000⟩
  stubs_ne := by decide
  requests := [(9, 0x4000, 0)]
  requests_slave := by simp
  acpiSucceeds := true

/-- Left over from before: masks, an unfinished initialization, requests, services, a byte and a
command. -/
def coldStart : System where
  point := .idtInit
  serving := none
  idt := fun _ => gate 0 0
  chips := ⟨⟨⟨{0, 1}, {3}⟩, true⟩, ⟨⟨{4}, {4}⟩, false⟩⟩
  controller := ⟨[], some 0x9C, true⟩
  transmitEmpty := false
  kernel := ⟨⟨⟨0, 8, 2⟩, ⟨0xFF, 0x70, 0⟩, []⟩, 0,
    ⟨⟨true, true, false, false, true⟩, loadedShell ⟨fun _ => 0, 64, 48, 64, 0, 0⟩, [], []⟩⟩
  drained := []
  handled := []
  lostPulses := 0

theorem coldStart_starts : Starts coldStart := ⟨rfl, rfl, ⟨_, rfl⟩, rfl, rfl, rfl⟩

/-- No handler runs, and nothing has been requested since the controllers were initialized. -/
def Unasked (s : System) : Prop :=
  s.serving = none ∧ (3 ≤ stage s.point → s.chips.master.lines.requested = ∅)

theorem Unasked.main (h : Unasked s) {s' : System} (he : MainEffect s s') : Unasked s' := by
  refine ⟨he.serving.trans h.1, fun h3 => ?_⟩
  obtain hquiet | ⟨h3', hsame⟩ := he.requests h3
  · rw [hquiet]
    rfl
  · rw [hsame]
    exact h.2 h3'

theorem Unasked.mainStep (hinv : Invariant b s) (h : Unasked s) :
    step b s .processor = mainStep b s := by
  rw [step, processorStep, h.1]
  by_cases hp : s.point.interruptible
  · have hstage := stage_interruptible hp
    simp only [if_pos hp, hinv.interrupting_eq h.1 hp, h.2 (by omega), Finset.notMem_empty, if_false]
  · simp only [if_neg hp]

/-- While no device asks for anything `kmain` alone runs. -/
theorem Unasked.run (hinv : Invariant b s) (h : Unasked s) {events : List Event}
    (hevents : ∀ e ∈ events, e = .processor ∨ e = .accept) {s' : System}
    (hrun : run b events s = some s') : Unasked s' := by
  induction events generalizing s with
  | nil =>
    rw [← Option.some.inj hrun]
    exact h
  | cons e rest ih =>
    obtain ⟨s₁, hstep, hs₁⟩ := hinv.step e
    rw [InterruptSystem.run, hstep, Option.bind_some] at hrun
    refine ih hs₁ ?_ (fun e he => hevents e (List.mem_cons_of_mem _ he)) hrun
    obtain rfl | rfl := hevents e List.mem_cons_self
    · rw [h.mainStep hinv] at hstep
      exact h.main (main_effect hstep)
    · rw [← Option.some.inj hstep]
      exact h

/-- The keyboard's controller takes the command left over and then the one of `init_keyboard`. -/
def bootEvents : List Event :=
  List.replicate 6 .processor ++ [.accept] ++ List.replicate 8 .processor ++ [.accept] ++
    List.replicate 4 .processor

/-- The kernel waits for the first key. -/
structure Ready (s : System) : Prop where
  point : s.point = .idle
  unasked : Unasked s
  underway : underway s = []
  flags : s.kernel.keyboard.flags = ⟨false, false, false, false, false⟩
  line : s.kernel.keyboard.shell.inputIndex = 0

theorem coldStart_ready : ∃ s, run smallBoot (bootEvents ++ [.processor]) coldStart = some s ∧ Ready s := by
  have hbooted : (run smallBoot bootEvents coldStart).map (fun s => (s.point, underway s,
      s.kernel.keyboard.flags)) = some (.shellInit, [], ⟨false, false, false, false, false⟩) := by
    decide +kernel
  obtain ⟨s, hrun, hs⟩ := Option.map_eq_some_iff.mp hbooted
  obtain ⟨hpoint, hunderway, hflags⟩ := Prod.mk.inj hs |>.imp_right Prod.mk.inj
  obtain ⟨s', hrun', hinv⟩ := (coldStart_starts.invariant (b := smallBoot)).run bootEvents
  obtain rfl : s = s' := Option.some.inj (hrun.symm.trans hrun')
  have hstart : Unasked coldStart := ⟨rfl, fun h3 => absurd h3 (by decide)⟩
  have hunasked : Unasked s := hstart.run coldStart_starts.invariant (by decide) hrun
  obtain ⟨shell, hshell, hrep⟩ := shellInit_represents s.kernel.keyboard.shell
  have hlast : mainStep smallBoot s = some { s with
      point := .idle
      transmitEmpty := false
      kernel := { s.kernel with keyboard := { s.kernel.keyboard with shell } } } := by
    rw [mainStep, hpoint, hshell]
    rfl
  refine ⟨_, ?_, rfl, hunasked.main (main_effect hlast), hunderway, hflags, hrep.index⟩
  rw [run_append, hrun, Option.bind_some, InterruptSystem.run, hunasked.mainStep hinv, hlast]
  rfl

theorem timer_step (hinv : Invariant b s) (hserving : s.serving = none) (hp : s.point.interruptible)
    (hrequest : 0 ∈ s.chips.master.lines.requested) :
    ∃ s', step b s .processor = some s' ∧ s'.serving ≠ none ∧ s'.point = s.point := by
  obtain ⟨k, htake, -, -⟩ := hinv.timerTaken hserving hp
  refine ⟨afterHandler k { s with chips := s.chips.acknowledge 0 }, ?_, Option.some_ne_none _, rfl⟩
  rw [step, processorStep, hserving]
  simp only [if_pos hp, hinv.interrupting_eq hserving hp, if_pos hrequest, htake]
  rfl

/-- A pulse, and then its handler, the idle kernel's first. -/
theorem interrupts_served_cold :
    (∃ s, run smallBoot (bootEvents ++ [.processor] ++ [.raise 0]) coldStart = some s ∧
      (picGetIsr s.kernel.ports s.chips).1 = 0 ∧ interrupting s.kernel.ports s.chips = some 0) ∧
    ∃ s, run smallBoot (bootEvents ++ [.processor] ++ [.raise 0] ++ [.processor]) coldStart = some s ∧
      s.serving ≠ none ∧ s.point.interruptible ∧
      ∃ past t, past <+: turns 47 ∧ run smallBoot past s = some t ∧ t.serving = none := by
  obtain ⟨s₀, hrun₀, hready⟩ := coldStart_ready
  obtain ⟨s₁, hrun₁, -, -, hserved⟩ :=
    interrupts_served smallBoot coldStart_starts (bootEvents ++ [.processor] ++ [.raise 0])
  obtain ⟨s₂, hrun₂, hinterruptible, hreturns, -⟩ :=
    interrupts_served smallBoot coldStart_starts (bootEvents ++ [.processor] ++ [.raise 0] ++ [.processor])
  have hstep₁ := hrun₁
  rw [run_append, hrun₀, Option.bind_some] at hstep₁
  have hs₁ : s₁.serving = none ∧ s₁.point = .idle ∧ 0 ∈ s₁.chips.master.lines.requested := by
    rw [← Option.some.inj hstep₁]
    exact ⟨hready.unasked.1, hready.point, Finset.mem_insert_self 0 _⟩
  have hp : s₁.point.interruptible := by
    rw [hs₁.2.1]
    rfl
  obtain ⟨s', hrun', hinv⟩ :=
    (coldStart_starts.invariant (b := smallBoot)).run (bootEvents ++ [.processor] ++ [.raise 0])
  obtain rfl : s₁ = s' := Option.some.inj (hrun₁.symm.trans hrun')
  obtain ⟨s'', hstep₂, hserving, -⟩ := timer_step hinv hs₁.1 hp hs₁.2.2
  have hsame : s₂ = s'' := by
    rw [run_append, hrun₁, Option.bind_some, run, hstep₂] at hrun₂
    exact (Option.some.inj hrun₂).symm
  have hidle := hserved hp hs₁.1
  rw [if_pos hs₁.2.2] at hidle
  refine ⟨⟨s₁, hrun₁, hidle⟩, s₂, hrun₂, hsame ▸ hserving, hinterruptible (hsame ▸ hserving), ?_⟩
  exact hreturns (turns 47) (readySteps_turns 47 false).ge

/-- A byte for the idle kernel, and a pulse before it is handled. -/
theorem byte_handled_soon_cold : ∃ s₁ s₂,
    run smallBoot (bootEvents ++ [.processor] ++ [.send 0x1E, .deliver]) coldStart = some s₁ ∧
    run smallBoot (.raise 0 :: turns 31) s₁ = some s₂ ∧ s₁.handled ++ [0x1E] <+: s₂.handled := by
  obtain ⟨s₀, hrun₀, hready⟩ := coldStart_ready
  obtain ⟨s₁, s₂, hrun₁, hrun₂, -, hsoon⟩ := byte_handled_soon smallBoot coldStart_starts
    (bootEvents ++ [.processor] ++ [.send 0x1E, .deliver]) (.raise 0 :: turns 31)
  have hdelivered := hrun₁
  rw [run_append, hrun₀, Option.bind_some, run_deliver smallBoot hready.underway] at hdelivered
  have hs₁ : s₁.controller.output = some 0x1E ∧ s₁.point = .idle ∧ workLeft s₁ = 27 := by
    have hstage : 3 ≤ stage s₀.point := by
      rw [hready.point]
      decide
    have hquiet : 0 ∉ s₁.chips.master.lines.requested := by
      rw [← Option.some.inj hdelivered]
      change 0 ∉ (s₀.chips.request 1).master.lines.requested
      rw [mem_request_other (by decide), hready.unasked.2 hstage]
      exact Finset.notMem_empty 0
    have hserving : s₁.serving = none := by
      rw [← Option.some.inj hdelivered]
      exact hready.unasked.1
    rw [workLeft_none hserving, pulsePending, if_neg hquiet, ← Option.some.inj hdelivered]
    exact ⟨rfl, hready.point, rfl⟩
  refine ⟨s₁, s₂, hrun₁, hrun₂, hsoon (by rw [hs₁.2.1]; rfl) 0x1E hs₁.1 ?_⟩
  have hpulses : pulses (.raise 0 :: turns 31) = 1 := by
    have happend := pulses_append [.raise 0] (turns 31)
    rwa [pulses_turns] at happend
  rw [hs₁.2.2, hpulses, readySteps_device Event.noConfusion, readySteps_turns]

end BinOs.InterruptRuns
