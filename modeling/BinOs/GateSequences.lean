import BinOs.InterruptTable
import BinOs.LastWriter

/-! # Gates after any sequence of installations

Some calls install one handler, one installs all of the exceptions' and one clears the table.
Of all that came before, a gate shows the last call that wrote it. The processor reads the
16 bytes of a gate, where the address lies in three pieces. -/
namespace BinOs.GateSequences
open InterruptTable LastWriter PackedFields PicPair

def installExceptions (exceptions : Vector UInt64 32) (s : Controllers) : Controllers :=
  let idt := Nat.fold 32 (fun i _ => idtAddEntry (UInt8.ofNat i) exceptions[i] 0x8E) s.idt
  { idt, ports := writeSerialText "IDT: CPU exception handlers installed\n" s.ports }

def initTimerIrq (irq0 : UInt64) (s : Controllers) : Controllers :=
  let idt := installIrqCommon 32 irq0 s.idt
  { idt, ports := writeSerialText "IDT: Timer interrupt (IRQ0) installed\n" s.ports }

def initKeyboardIrq (irq1 : UInt64) (s : Controllers) : Controllers :=
  let idt := installIrqCommon 33 irq1 s.idt
  { idt, ports := writeSerialText "IDT: Keyboard interrupt (IRQ1) installed\n" s.ports }

/-- `(idt_entry_t){0}` -/
def emptyEntry : IdtEntry := ⟨0, 0, 0, 0, 0, 0, 0⟩

def idtInit (s : Controllers) : Controllers :=
  let idt := Nat.fold 256 (fun i _ idt => Function.update idt (UInt8.ofNat i) emptyEntry) s.idt
  { idt, ports := writeSerialText "IDT: Initialized and cleared\n" s.ports }

/-- The addresses of the assembly stubs. -/
structure Stubs where
  isr : Vector UInt64 32
  irq0 : UInt64
  irq1 : UInt64

inductive IdtCall
  | idtInit
  | installExceptions
  | initTimerIrq
  | initKeyboardIrq
  | installIrqCommon (irqVector : UInt8) (handler : UInt64)

def step (stubs : Stubs) (s : Controllers) : IdtCall → Controllers
  | .idtInit => idtInit s
  | .installExceptions => installExceptions stubs.isr s
  | .initTimerIrq => initTimerIrq stubs.irq0 s
  | .initKeyboardIrq => initKeyboardIrq stubs.irq1 s
  | .installIrqCommon irqVector handler =>
    { s with idt := installIrqCommon irqVector handler s.idt }

/-- What a call leaves in a vector's gate: nothing, a handler, or what was there. -/
def installed (stubs : Stubs) (vector : UInt8) : IdtCall → Option (Option UInt64)
  | .idtInit => some none
  | .installExceptions =>
    if h : vector.toNat < 32 then some (some stubs.isr[vector.toNat]) else none
  | .initTimerIrq => if vector = 32 then some (some stubs.irq0) else none
  | .initKeyboardIrq => if vector = 33 then some (some stubs.irq1) else none
  | .installIrqCommon irqVector handler => if vector = irqVector then some (some handler) else none

/-- The entry of a handler or of none. -/
def entryOf : Option UInt64 → IdtEntry
  | none => emptyEntry
  | some handler => gate handler 0x8E

/-- The bytes that the two loops count through. -/
theorem ofNat_injective : ∀ i < 256, ∀ j < 256, UInt8.ofNat i = UInt8.ofNat j → i = j := by
  intro i hi j hj h
  have hbytes := congrArg UInt8.toNat h
  rwa [UInt8.toNat_ofNat_of_lt' hi, UInt8.toNat_ofNat_of_lt' hj] at hbytes

theorem installExceptions_idt (exceptions : Vector UInt64 32) (s : Controllers) (vector : UInt8) :
    (installExceptions exceptions s).idt vector =
      if h : vector.toNat < 32 then gate exceptions[vector.toNat] 0x8E else s.idt vector := by
  let value (i : ℕ) (hi : i < 32) : IdtEntry := gate exceptions[i] 0x8E
  change fill value s.idt UInt8.ofNat vector = _
  by_cases h : vector.toNat < 32
  · rw [dif_pos h]
    have hkey := fill_key value s.idt (fun i hi j hj => ofNat_injective i (by omega) j (by omega))
      vector.toNat h
    rwa [UInt8.ofNat_toNat] at hkey
  · rw [dif_neg h]
    refine fill_of_ne value s.idt fun i hi heq => h ?_
    rw [← heq, UInt8.toNat_ofNat_of_lt' (Nat.lt_trans hi (by decide))]
    exact hi

theorem idtInit_idt (s : Controllers) (vector : UInt8) : (idtInit s).idt vector = emptyEntry := by
  have hkey := fill_key (fun _ _ => emptyEntry) s.idt ofNat_injective vector.toNat vector.toNat_lt
  rwa [UInt8.ofNat_toNat] at hkey

theorem installIrqCommon_eq (irqVector vector : UInt8) (handler : UInt64) (idt : Idt) :
    installIrqCommon irqVector handler idt vector =
      if vector = irqVector then gate handler 0x8E else idt vector :=
  Function.update_apply idt irqVector (gate handler 0x8E) vector

theorem step_idt (stubs : Stubs) (vector : UInt8) (s : Controllers) (call : IdtCall) :
    (step stubs s call).idt vector =
      ((installed stubs vector call).map entryOf).getD (s.idt vector) := by
  have hcommon (irqVector : UInt8) (handler : UInt64) :
      installIrqCommon irqVector handler s.idt vector =
        ((if vector = irqVector then some (some handler) else none).map entryOf).getD
          (s.idt vector) := by
    rw [installIrqCommon_eq]
    split
    · rfl
    · rfl
  cases call with
  | idtInit => exact idtInit_idt s vector
  | installExceptions =>
    rw [step, installExceptions_idt, installed]
    split
    · rfl
    · rfl
  | initTimerIrq => exact hcommon 32 stubs.irq0
  | initKeyboardIrq => exact hcommon 33 stubs.irq1
  | installIrqCommon irqVector handler => exact hcommon irqVector handler

def run (stubs : Stubs) (calls : List IdtCall) (s : Controllers) : Controllers :=
  calls.foldl (step stubs) s

theorem run_idt (stubs : Stubs) (vector : UInt8) (calls : List IdtCall) (s : Controllers) :
    (run stubs calls s).idt vector =
      ((lastEffect (installed stubs vector) calls).map entryOf).getD (s.idt vector) := by
  rw [← lastEffect_map]
  exact observe_foldl (fun s => s.idt vector) (fun _ => True) (fun _ _ _ => trivial)
    (fun s call _ => step_idt stubs vector s call) trivial calls

theorem emptyEntry_descriptor : emptyEntry.descriptor = 0 := rfl

/-- Whatever the table held and in whatever order the calls come, a gate shows the last one
that wrote it: a handler, to all of whose address it decodes, or nothing after the table was
cleared. A call that does not write it does not change it. -/
theorem gates_decode (stubs : Stubs) (s : Controllers) (calls : List IdtCall) (vector : UInt8) :
    (match lastEffect (installed stubs vector) calls with
      | none => (run stubs calls s).idt vector = s.idt vector
      | some none => ((run stubs calls s).idt vector).descriptor = 0
      | some (some handler) =>
        DecodesGate ((run stubs calls s).idt vector).descriptor handler.toNat 0x8E) ∧
      ∀ call, installed stubs vector call = none →
        (step stubs s call).idt vector = s.idt vector := by
  have hrun := run_idt stubs vector calls s
  constructor
  · split
    case h_1 hlast =>
      rw [hlast] at hrun
      exact hrun
    case h_2 hlast =>
      rw [hlast] at hrun
      rw [hrun]
      exact emptyEntry_descriptor
    case h_3 handler hlast =>
      rw [hlast] at hrun
      rw [hrun]
      exact gate_decodes handler 0x8E
  · intro call hcall
    rw [step_idt, hcall]
    rfl

end BinOs.GateSequences
