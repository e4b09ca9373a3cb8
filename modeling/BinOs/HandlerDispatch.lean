import BinOs.HandlerInstallation
import BinOs.InterruptStubs

/-! # Interrupts for an installed handler

The gate holds the address of the C function itself. An interrupt enters it with whatever
was in the argument register, and its return takes one word off the return frame: the
interrupt is never ended and the interrupted code goes on with another stack pointer. -/
namespace BinOs.HandlerDispatch
open InterruptTable InterruptStubs

def Event.calls (f : UInt64) : Event → Bool
  | .called g _ => g = f
  | _ => false

/-- One call with the context, the end of the interrupt behind it, and the interrupted code
resumed as it was. -/
structure Dispatched (line : Fin 16) (handler ctx : UInt64) (before after : Cpu)
    (events : List Event) : Prop where
  once : events.filter (Event.calls handler) = [.called handler ctx]
  ended : ∃ earlier later, events = earlier ++ .returned handler :: later ∧
    .called handler ctx ∈ earlier ∧
    later.count (.wrote PicPair.pic1Command PicPair.picEoi) = 1 ∧
    later.count (.wrote PicPair.pic2Command PicPair.picEoi) = if 8 ≤ line then 1 else 0
  registers : after.reg = before.reg
  resumed : after.rip = before.rip ∧ after.rsp = before.rsp ∧ after.rflags = before.rflags

/-- Other code, with any effect on the processor, or an interrupt line raised. -/
inductive Step
  | code (effect : Cpu → Cpu)
  | interrupt (line : Fin 16)

def Interruptible (c : Cpu) : Prop := c.rflags &&& 0x200 ≠ 0

instance (c : Cpu) : Decidable (Interruptible c) := inferInstanceAs (Decidable (¬ _))

section Runs
variable (image : Image) (idt : Idt)

/-- Every interrupt of a run that is taken meets a condition on its line, the state before
and how it was served. A raised line has no effect while interrupts are off, and nothing
follows an interrupt that does not come back. -/
def EveryInterrupt (P : Fin 16 → Cpu → Option (Cpu × List Event) → Prop) : List Step → Cpu → Prop
  | [], _ => True
  | .code effect :: rest, c => EveryInterrupt P rest (effect c)
  | .interrupt line :: rest, c =>
    if Interruptible c then
      P line c (serveLine image idt line c) ∧
        ∀ r, serveLine image idt line c = some r → EveryInterrupt P rest r.1
    else EveryInterrupt P rest c

theorem everyInterrupt_congr {P Q : Fin 16 → Cpu → Option (Cpu × List Event) → Prop}
    (h : ∀ line c, P line c (serveLine image idt line c) ↔ Q line c (serveLine image idt line c))
    (steps : List Step) (c : Cpu) :
    EveryInterrupt image idt P steps c ↔ EveryInterrupt image idt Q steps c := by
  induction steps generalizing c with
  | nil => exact Iff.rfl
  | cons step rest ih =>
    cases step with
    | code effect => exact ih _
    | interrupt line =>
      rw [EveryInterrupt, EveryInterrupt]
      split
      · exact and_congr (h line c) (forall₂_congr fun r _ => ih r.1)
      · exact ih c

/-- Every interrupt on the handler's line is dispatched to it. -/
def AllDispatched (line : Fin 16) (handler ctx : UInt64) : List Step → Cpu → Prop :=
  EveryInterrupt image idt fun l before result => l = line →
    ∃ r, result = some r ∧ Dispatched line handler ctx before r.1 r.2

/-- No interrupt on the line is taken. -/
def NeverTaken (line : Fin 16) : List Step → Cpu → Prop :=
  EveryInterrupt image idt fun l _ _ => l ≠ line

end Runs

variable {image : Image} {line : Fin 16} {handler ctx : UInt64} {s : Controllers}

def installed (line : Fin 16) (handler ctx : UInt64) (s : Controllers) : Idt :=
  (installIrqHandler (UInt8.ofNat line) handler ctx s).2.idt

/-- The gate of the line is the function itself. -/
theorem installed_gate (line : Fin 16) (handler ctx : UInt64) (s : Controllers) :
    installed line handler ctx s (vectorOf line) = gate handler 0x8E := by
  rw [installed, HandlerInstallation.installIrqHandler_eq]
  exact Function.update_self ..

/-- An interrupt enters the function with the return frame for a stack. -/
theorem serveLine_installed (h0 : handler ≠ image.irq0) (h1 : handler ≠ image.irq1) (c : Cpu) :
    serveLine image (installed line handler ctx s) line c =
      enterFunction image handler { c.pushFrame with
        rip := handler
        cs := 0x08
        rflags := c.rflags &&& ~~~0x34300 } := by
  have hgate := gate_deliversTo handler
  rw [serveLine, installed_gate, Cpu.take, if_pos hgate.1, Option.bind_some, hgate.2, runFrom,
    if_neg h0, if_neg h1]
  rfl

/-- The argument is what the interrupted code had in `rdi`, nothing follows the return, and
the stack pointer then lies 32 bytes below its old value rounded down. -/
theorem serveLine_installed_spec (h0 : handler ≠ image.irq0) (h1 : handler ≠ image.irq1) {c c' : Cpu}
    {events : List Event}
    (h : serveLine image (installed line handler ctx s) line c = some (c', events)) :
    (∃ writes : List (UInt16 × UInt8), events = .called handler (c.reg .rdi) ::
        writes.map (fun w => .wrote w.1 w.2) ++ [.returned handler]) ∧
      c'.rip = c.rip ∧ c'.rsp = (c.rsp &&& ~~~0xF) - 32 := by
  rw [serveLine_installed h0 h1] at h
  obtain ⟨⟨c₁, writes⟩, hrun, heq⟩ := Option.map_eq_some_iff.mp h
  obtain ⟨hc, hevents⟩ := Prod.mk.inj heq
  obtain ⟨hrip, hrsp⟩ := (image.function handler).returns _ _ _ hrun
  subst hc
  refine ⟨⟨writes, hevents.symm⟩, ?_, ?_⟩
  · exact hrip.trans (pushFrame_top c)
  · have hback : ∀ x : UInt64, x - 40 + 8 = x - 32 := by
      intro x
      grind
    rw [hrsp]
    change c.pushFrame.rsp + 8 = _
    rw [pushFrame_rsp, hback]

/-- The interrupted code never gets its stack pointer back. -/
theorem stack_pointer_lost (h0 : handler ≠ image.irq0) (h1 : handler ≠ image.irq1) {c c' : Cpu}
    {events : List Event}
    (h : serveLine image (installed line handler ctx s) line c = some (c', events)) :
    c'.rsp ≠ c.rsp := by
  obtain ⟨-, -, hrsp⟩ := serveLine_installed_spec h0 h1 h
  intro hsame
  have hnat := congrArg UInt64.toNat (hsame.symm.trans hrsp)
  have hlt := c.rsp.toNat_lt
  have h32 : (32 : UInt64).toNat = 32 := rfl
  rw [UInt64.toNat_sub, aligned_toNat, h32] at hnat
  omega

theorem nothing_after_last {α : Type} {e : α} {xs earlier later : List α}
    (h : xs ++ [e] = earlier ++ e :: later) (hnot : e ∉ xs) : later = [] := by
  cases List.eq_nil_or_concat later with
  | inl hnil => exact hnil
  | inr hconcat =>
    obtain ⟨init, last, rfl⟩ := hconcat
    have hassoc : xs ++ [e] = (earlier ++ e :: init) ++ [last] := by
      rw [h, List.concat_eq_append, List.append_assoc, List.cons_append]
    obtain ⟨hxs, -⟩ := List.append_inj' hassoc rfl
    exact absurd (hxs ▸ List.mem_append_right _ List.mem_cons_self) hnot

/-- Nothing is written behind the return, so that the interrupt is not ended. -/
theorem not_dispatched (h0 : handler ≠ image.irq0) (h1 : handler ≠ image.irq1) (c : Cpu) :
    ¬ ∃ r, serveLine image (installed line handler ctx s) line c = some r ∧
      Dispatched line handler ctx c r.1 r.2 := by
  rintro ⟨⟨c', events⟩, hserve, hdispatched⟩
  obtain ⟨⟨writes, rfl⟩, -, -⟩ := serveLine_installed_spec h0 h1 hserve
  obtain ⟨earlier, later, hsplit, -, hmaster, -⟩ := hdispatched.ended
  have hnot : Event.returned handler ∉
      Event.called handler (c.reg .rdi) :: writes.map fun w => .wrote w.1 w.2 := by
    simp
  rw [nothing_after_last hsplit hnot] at hmaster
  cases hmaster

/-- A run keeps the promise exactly when it never takes an interrupt on the line. -/
theorem dispatched_iff_never_taken (image : Image) (line : Fin 16) (handler ctx : UInt64)
    (s : Controllers) (h0 : handler ≠ image.irq0) (h1 : handler ≠ image.irq1) :
    (installIrqHandler (UInt8.ofNat line) handler ctx s).1 = 0 ∧ ∀ steps c,
      AllDispatched image (installed line handler ctx s) line handler ctx steps c ↔
        NeverTaken image (installed line handler ctx s) line steps c := by
  constructor
  · rw [HandlerInstallation.installIrqHandler_eq]
  · intro steps c
    apply everyInterrupt_congr
    intro l before
    constructor
    · rintro hall rfl
      exact not_dispatched h0 h1 before (hall rfl)
    · exact fun hne heq => absurd heq hne

/-- A function that returns at once. -/
def returnAtOnce : CFunction where
  run c := some ({ c with rip := c.mem c.rsp, rsp := c.rsp + 8 }, [])
  returns c c' out h := by
    cases h
    exact ⟨rfl, rfl⟩
  calleeSaved c c' out h r _ := by
    cases h
    rfl

def smallImage : Image := ⟨fun _ => returnAtOnce, 0x100, 0x200, 0x300, 0x400⟩

/-- Interrupts are on; the stack pointer is not aligned. -/
def running : Cpu := ⟨fun _ => 0, 0x7FF8, 0x5000, 0x202, 0x08, 0x10, fun _ => 0⟩

theorem dispatched_iff_never_taken_nine :
    (installIrqHandler (UInt8.ofNat (9 : Fin 16)) 0x1000 7 HandlerInstallation.afterInit).1 = 0 ∧
      ∀ steps c, AllDispatched smallImage (installed 9 0x1000 7 HandlerInstallation.afterInit) 9
          0x1000 7 steps c ↔
        NeverTaken smallImage (installed 9 0x1000 7 HandlerInstallation.afterInit) 9 steps c :=
  dispatched_iff_never_taken smallImage 9 0x1000 7 _ (by decide) (by decide)

/-- One interrupt on line 9 with a handler installed. -/
theorem line_nine_not_dispatched : ¬ AllDispatched smallImage
    (installed 9 0x1000 7 HandlerInstallation.afterInit) 9 0x1000 7 [.interrupt 9] running := by
  intro hall
  exact not_dispatched (by decide) (by decide) running (hall.1 rfl)

end BinOs.HandlerDispatch
