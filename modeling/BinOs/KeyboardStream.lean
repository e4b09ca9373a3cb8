import BinOs.InterruptAccounting
import BinOs.KeyboardTyping

/-! # The bytes of the keyboard and the lines typed

Once the kernel is idle its driver receives the bytes from the keyboard in order and each once,
so that a line reaches the shell whatever interrupts come between its bytes. -/
namespace BinOs.KeyboardStream
open CheckedBuffers MemoryStrings ZipperEditor ShellSession LineEditorRefinement LineEditorRuns
open Keyboard KeyboardMessages KeyboardRuns KeyboardTyping HandlerServices InterruptDispatch
open InterruptInvariant InterruptEffects InterruptProgress InterruptRuns InterruptAccounting
open InterruptSystem

variable {b : Boot} {s s' : System}

/-- From a state of the idle kernel the driver has received a first part of the bytes that were
underway or have been sent since. -/
structure Follows (s₁ : System) (sent : List UInt8) (s : System) : Prop where
  idle : s.point = .idle
  driver : ∃ done k, done ++ underway s = underway s₁ ++ sent ∧ s.handled = s₁.handled ++ done ∧
    receiveAll done s₁.kernel.keyboard = some k ∧ silenced k = silenced s.kernel.keyboard

variable {s₁ : System} {sent : List UInt8}

theorem follows_refl (hidle : s.point = .idle) : Follows s [] s :=
  ⟨hidle, [], s.kernel.keyboard, (List.append_nil _).symm, (List.append_nil _).symm, rfl, rfl⟩

/-- A step that handles no byte. -/
theorem Follows.keep (h : Follows s₁ sent s) {more : List UInt8} (hpoint : s'.point = s.point)
    (hbytes : underway s' = underway s ++ more) (hhandled : s'.handled = s.handled)
    (hdriver : silenced s'.kernel.keyboard = silenced s.kernel.keyboard) :
    Follows s₁ (sent ++ more) s' := by
  obtain ⟨done, k, hdone, hsame, hk, halike⟩ := h.driver
  refine ⟨hpoint.trans h.idle, done, k, ?_, hhandled.trans hsame, hk, halike.trans hdriver.symm⟩
  rw [hbytes, ← List.append_assoc, hdone, List.append_assoc]

theorem Follows.same (h : Follows s₁ sent s) (hpoint : s'.point = s.point)
    (hbytes : underway s' = underway s) (hhandled : s'.handled = s.handled)
    (hdriver : silenced s'.kernel.keyboard = silenced s.kernel.keyboard) : Follows s₁ sent s' := by
  have hkeep : Follows s₁ (sent ++ []) s' :=
    h.keep hpoint (by rw [hbytes, List.append_nil]) hhandled hdriver
  rwa [List.append_nil] at hkeep

theorem Follows.processor (h : Follows s₁ sent s) (hinv : Invariant b s)
    (he : ProcessorEffect b s s') : Follows s₁ sent s' := by
  cases he with
  | main _ _ hstep =>
    rw [mainStep, h.idle] at hstep
    rw [← Option.some.inj hstep]
    exact h
  | timer _ _ hk =>
    obtain ⟨k', hk', hkeyboard, -⟩ := irqHandler_timer s.kernel
    rw [← Option.some.inj (hk.symm.trans hk')] at hkeyboard
    exact h.same rfl rfl rfl (congrArg silenced hkeyboard)
  | keyboard _ _ =>
    have hkeyboard : (announcing s).kernel.keyboard = s.kernel.keyboard := by
      rw [announcing, announce]
    exact h.same rfl rfl rfl (congrArg silenced hkeyboard)
  | found _ _ => exact h.same rfl rfl rfl rfl
  | nothing _ _ hk =>
    have hnone := (keyboard_ran hinv hk).1
    rw [keyboardHandler, if_pos (by decide)] at hnone
    have hsilent := congrArg silenced (Option.some.inj hnone)
    exact h.same rfl rfl rfl hsilent.symm
  | @byte k data _ hdata hk =>
    obtain ⟨done, d, hdone, hsame, hd, halike⟩ := h.driver
    obtain ⟨d', hd', halike'⟩ := receive_alike halike (keyboard_ran hinv hk).1
    refine ⟨h.idle, done ++ [data], d', ?_, ?_, ?_, halike'⟩
    · rw [← hdone, underway, underway, hdata, List.append_assoc]
      rfl
    · change s.handled ++ [data] = _
      rw [hsame, List.append_assoc]
    · rw [receiveAll_append, hd, Option.bind_some, receiveAll, hd']
      rfl
  | waits _ _ => exact h
  | write _ _ => exact h.same rfl rfl rfl rfl
  | done _ => exact h.same rfl rfl rfl rfl

theorem Follows.device (h : Follows s₁ sent s) {e : Event} (he : DeviceEffect e s s') :
    Follows s₁ (sent ++ sentBytes [e]) s' :=
  h.keep he.point he.underway he.handled (by rw [he.kernel])

/-- The bytes handled by the idle kernel are a first part of those that were underway and those
that have been sent since, in order and each once, and the driver is as they leave it. -/
theorem Follows.run (hidle : s.point = .idle) (hinv : Invariant b s) {events : List Event}
    (hrun : run b events s = some s') : Follows s (sentBytes events) s' :=
  run_keeps (P := fun past t => Follows s (sentBytes past) t) []
    (fun hinv h he => by
      rw [sentBytes_processor]
      exact h.processor hinv he)
    (fun _ h he => by
      rw [sentBytes_append]
      exact h.device he)
    hinv (follows_refl hidle) hrun

/-- From the start of the kernel on no byte is lost but those that `init_keyboard` throws away,
and none is handled twice or out of order. The idle kernel throws none away, and its driver is
as the bytes that it has handled leave it. -/
theorem keyboard_stream (b : Boot) (h : Starts s) (before after : List Event) :
    ∃ s₁ s₂, run b before s = some s₁ ∧ run b after s₁ = some s₂ ∧
      s₂.drained ++ s₂.handled ++ underway s₂ = underway s ++ sentBytes (before ++ after) ∧
      (s₁.point = .idle → Follows s₁ (sentBytes after) s₂) := by
  obtain ⟨s₁, hrun₁, hinv₁⟩ := (h.invariant (b := b)).run before
  obtain ⟨s₂, hrun₂, -⟩ := hinv₁.run after
  have hstart : Accounted (underway s) s := by
    refine ⟨?_, fun _ => h.handled⟩
    rw [h.drained, h.handled, List.nil_append, List.nil_append]
  have hall := (hstart.run h.invariant hrun₁).run hinv₁ hrun₂
  refine ⟨s₁, s₂, hrun₁, hrun₂, ?_, fun hidle => .run hidle hinv₁ hrun₂⟩
  rw [hall.bytes, sentBytes_append, List.append_assoc]

/-- Each byte is sent when the one before has been handled, and with each comes a pulse. -/
def typedSlowly (sent : List UInt8) : List Event :=
  sent.flatMap fun data => [.send data, .deliver] ++ .raise 0 :: turns 56

theorem sentBytes_turns (n : ℕ) : sentBytes (turns n) = [] := by
  induction n with
  | zero => rfl
  | succ n ih =>
    have hcons : turns (n + 1) = [.transmitted, .processor] ++ turns n := rfl
    rw [hcons, sentBytes_append, ih]
    rfl

theorem sentBytes_typedSlowly (sent : List UInt8) : sentBytes (typedSlowly sent) = sent := by
  induction sent with
  | nil => rfl
  | cons data rest ih =>
    have hturns : sentBytes (.raise 0 :: turns 56) = [] := sentBytes_turns 56
    rw [typedSlowly, List.flatMap_cons, sentBytes_append, sentBytes_append, hturns, List.append_nil]
    exact congrArg (data :: ·) ih

/-- The idle kernel handles a byte before the next one is sent. -/
theorem one_handled (hidle : s.point = .idle) (hinv : Invariant b s) (hfew : WritesFew s.serving)
    (hunderway : underway s = []) (data : UInt8) {events : List Event}
    (henough : 52 + 4 * pulses events ≤ readySteps false events) (hsent : sentBytes events = [])
    (hrun : run b ([.send data, .deliver] ++ events) s = some s') :
    s'.point = .idle ∧ underway s' = [] := by
  obtain ⟨s₁, hrun₁, hinv₁⟩ := hinv.run [.send data, .deliver]
  have hdelivered := hrun₁
  rw [run_deliver b hunderway, Option.some.injEq] at hdelivered
  rw [run_append, hrun₁, Option.bind_some] at hrun
  have hs₁ : s₁.point = .idle ∧ WritesFew s₁.serving ∧ underway s₁ = [data] ∧
      Waits data s.handled s₁ := by
    rw [← hdelivered]
    exact ⟨hidle, hfew, rfl, rfl, rfl, by rw [hidle]; rfl⟩
  obtain ⟨hidle₁, hfew₁, hunderway₁, hwaits⟩ := hs₁
  have hwork := workLeft_le hfew₁
  have hhandled : s.handled ++ [data] <+: s'.handled :=
    waiting_handled hinv₁ hwaits hrun (by omega)
  obtain ⟨hidle', done, k, hdone, hgrown, -⟩ := Follows.run hidle₁ hinv₁ hrun
  rw [hwaits.handled] at hgrown
  rw [hunderway₁, hsent, List.append_nil] at hdone
  rw [hgrown, List.prefix_append_right_inj] at hhandled
  obtain ⟨rest, rfl⟩ := hhandled
  have hnone : rest ++ underway s' = [] := List.append_cancel_left ((List.append_assoc _ _ _).symm.trans hdone)
  exact ⟨hidle', (List.append_eq_nil_iff.mp hnone).2⟩

theorem typedSlowly_handled (hidle : s.point = .idle) (hinv : Invariant b s)
    (hfew : WritesFew s.serving) (hunderway : underway s = []) {sent : List UInt8}
    (hrun : run b (typedSlowly sent) s = some s') : underway s' = [] := by
  induction sent generalizing s with
  | nil =>
    rw [← Option.some.inj hrun]
    exact hunderway
  | cons data rest ih =>
    rw [typedSlowly, List.flatMap_cons, run_append] at hrun
    obtain ⟨s₁, hrun₁, hinv₁⟩ := hinv.run ([.send data, .deliver] ++ .raise 0 :: turns 56)
    rw [hrun₁, Option.bind_some] at hrun
    have hpulses : pulses (.raise 0 :: turns 56) = 1 := by
      have happend := pulses_append [.raise 0] (turns 56)
      rwa [pulses_turns] at happend
    have hready : readySteps false (.raise 0 :: turns 56) = 56 := by
      rw [readySteps_device Event.noConfusion, readySteps_turns]
    have hsent : sentBytes (.raise 0 :: turns 56) = [] := sentBytes_turns 56
    obtain ⟨hidle₁, hunderway₁⟩ :=
      one_handled hidle hinv hfew hunderway data (by rw [hpulses, hready]) hsent hrun₁
    exact ih hidle₁ hinv₁ (writesFew_run hinv hfew hrun₁) hunderway₁ hrun

theorem booted_ready (hrun : run smallBoot (bootEvents ++ [.processor]) coldStart = some s) :
    Ready s := by
  obtain ⟨s₀, hrun₀, hready⟩ := coldStart_ready
  rwa [Option.some.inj (hrun.symm.trans hrun₀)]

theorem booted_typedSlowly (hbooted : run smallBoot (bootEvents ++ [.processor]) coldStart = some s)
    {sent : List UInt8} (hrun : run smallBoot (typedSlowly sent) s = some s') :
    underway s' = [] := by
  have hready := booted_ready hbooted
  obtain ⟨t, hrun', hinv⟩ :=
    (coldStart_starts.invariant (b := smallBoot)).run (bootEvents ++ [.processor])
  obtain rfl : s = t := Option.some.inj (hbooted.symm.trans hrun')
  exact typedSlowly_handled hready.point hinv (by rw [hready.unasked.1]; trivial) hready.underway hrun

/-- The idle kernel handles a byte, with a pulse in between. -/
theorem keyboard_stream_cold : ∃ s₁ s₂,
    run smallBoot (bootEvents ++ [.processor]) coldStart = some s₁ ∧ s₁.point = .idle ∧
    run smallBoot (typedSlowly [0x1E]) s₁ = some s₂ ∧
    s₂.drained ++ s₂.handled = [0x9C, 0x1E] ∧ underway s₂ = [] ∧ Follows s₁ [0x1E] s₂ := by
  obtain ⟨s₁, s₂, hrun₁, hrun₂, hbytes, hfollows⟩ := keyboard_stream smallBoot coldStart_starts
    (bootEvents ++ [.processor]) (typedSlowly [0x1E])
  have hready := booted_ready hrun₁
  have hdone := booted_typedSlowly hrun₁ hrun₂
  have hsent : sentBytes (bootEvents ++ [.processor]) = [] := by
    decide
  rw [sentBytes_append, sentBytes_typedSlowly, hdone, hsent, List.append_nil] at hbytes
  have hidle := hfollows hready.point
  rw [sentBytes_typedSlowly] at hidle
  exact ⟨s₁, s₂, hrun₁, hready.point, hrun₂, hbytes, hdone, hidle⟩

/-- A line typed into a driver at rest is parsed as one command. -/
theorem receive_typed {k : Driver} {a : Session} {caps : Bool} (h : Represents k.shell a)
    (hline : k.shell.inputIndex = 0) (hrest : k.flags = typingFlags caps false)
    {typed : List (Printable × ShiftKey)} (hlength : typed.length ≤ 255) :
    ∃ k' command, receiveAll (typingStream caps typed) k = some k' ∧
      k'.parsed = k.parsed ++ [command] ∧ Holds command (bytes (typed.map Prod.fst)) ∧
      k'.shell.inputIndex = 0 ∧ k'.flags = k.flags := by
  have hempty : a.editor.left.length + a.editor.right.length = 0 := by
    have hindex := h.index
    rw [Editor.length_text] at hindex
    omega
  have hleft : a.editor.left = [] := List.length_eq_zero_iff.mp (by omega)
  have hright : a.editor.right = [] := List.length_eq_zero_iff.mp (by omega)
  obtain ⟨k₁, a₁, hrun, hk₁, hleft₁, hright₁⟩ := receive_line typed h hrest hright (by omega)
  obtain ⟨k', a', command, henter, hk', hnew, hflags, hparsed, hcommand⟩ :=
    receive_enter hk₁.shell (hk₁.flags_eq.trans hrest)
  rw [Editor.text, hleft₁, hright₁, hleft, List.append_nil, List.nil_append] at hcommand
  refine ⟨k', command, ?_, hparsed.trans ?_, hcommand, ?_, hflags.trans hk₁.flags_eq⟩
  · rw [typingStream, receiveAll_append, hrun, Option.bind_some, henter]
  · rw [hk₁.parsed_eq]
  · rw [hk'.index, hnew]
    rfl

/-- A line of up to 255 characters, typed at the keyboard of the idle kernel with its input line
empty, is parsed as one command when all of its bytes have been handled, whatever interrupts
come between them and however long they are held up. -/
theorem typed_line_parsed (b : Boot) (h : Starts s) (before after : List Event) (caps : Bool)
    (typed : List (Printable × ShiftKey)) (hlength : typed.length ≤ 255)
    (hsent : sentBytes after = typingStream caps typed) :
    ∃ s₁ s₂, run b before s = some s₁ ∧ run b after s₁ = some s₂ ∧
      (s₁.point = .idle → underway s₁ = [] → s₁.kernel.keyboard.shell.inputIndex = 0 →
        s₁.kernel.keyboard.flags = typingFlags caps false → underway s₂ = [] →
        ∃ command, s₂.kernel.keyboard.parsed = s₁.kernel.keyboard.parsed ++ [command] ∧
          contents command = some (bytes (typed.map Prod.fst)) ∧
          s₂.kernel.keyboard.shell.inputIndex = 0 ∧
          s₂.kernel.keyboard.flags = typingFlags caps false) := by
  obtain ⟨s₁, hrun₁, hinv₁⟩ := (h.invariant (b := b)).run before
  obtain ⟨s₂, hrun₂, -⟩ := hinv₁.run after
  refine ⟨s₁, s₂, hrun₁, hrun₂, fun hidle hquiet hline hrest hdone => ?_⟩
  obtain ⟨-, done, k, hbytes, -, hk, halike⟩ := Follows.run hidle hinv₁ hrun₂
  rw [hquiet, hdone, hsent, List.append_nil, List.nil_append] at hbytes
  obtain ⟨a, hrep⟩ := hinv₁.shell
  obtain ⟨k', command, hk', hparsed, hcommand, hindex, hflags⟩ :=
    receive_typed hrep hline hrest hlength
  rw [hbytes, hk', Option.some.injEq] at hk
  subst hk
  obtain ⟨hflags₂, hshell₂, hparsed₂⟩ := fields_of_silenced halike
  refine ⟨command, hparsed₂.symm.trans hparsed, hcommand.contents, ?_, ?_⟩
  · rw [← hshell₂, hindex]
  · rw [← hflags₂, hflags, hrest]

/-- `h` and Enter reach the shell. -/
theorem typed_line_parsed_h : ∃ s₁ s₂ command,
    run smallBoot (bootEvents ++ [.processor]) coldStart = some s₁ ∧
    run smallBoot (typedSlowly (typingStream false [(⟨104, by decide⟩, .left)])) s₁ = some s₂ ∧
    s₂.kernel.keyboard.parsed = s₁.kernel.keyboard.parsed ++ [command] ∧
    contents command = some (bytes [⟨104, by decide⟩]) := by
  obtain ⟨s₁, s₂, hrun₁, hrun₂, hparsed⟩ := typed_line_parsed smallBoot coldStart_starts
    (bootEvents ++ [.processor]) (typedSlowly (typingStream false [(⟨104, by decide⟩, .left)]))
    false [(⟨104, by decide⟩, .left)] (by decide) (sentBytes_typedSlowly _)
  have hready := booted_ready hrun₁
  obtain ⟨command, hcommand, hline, -⟩ := hparsed hready.point hready.underway hready.line
    hready.flags (booted_typedSlowly hrun₁ hrun₂)
  exact ⟨s₁, s₂, command, hrun₁, hrun₂, hcommand, hline⟩

end BinOs.KeyboardStream
