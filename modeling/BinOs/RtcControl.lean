import BinOs.PicMasks
import BinOs.RealTimeClock

/-! # Setting up the periodic interrupt

Register A of the clock has a divider, which must be 2 for the clock to run, above the rate of
the interrupt, and register B has a bit that turns the interrupt on. Each is changed by reading the
whole register and writing it back. -/
namespace BinOs.RtcControl
open LastWriter PicMasks RealTimeClock

/-- The index and the two registers, and whether the processor takes interrupts. Bit 7 of the
index keeps non-maskable ones away. -/
structure Control where
  index : UInt8
  registerA : UInt8
  registerB : UInt8
  interrupts : Bool

def outbIndex (reg : UInt8) (c : Control) : Control := { c with index := reg }

/-- `status` is what bit 7 of register A is at, which cannot be written. -/
def inbData (status : UInt8) (c : Control) : UInt8 :=
  if c.index &&& 0x7F = 0x0A then (status &&& 0x80) ||| (c.registerA &&& 0x7F)
  else c.registerB

def outbData (data : UInt8) (c : Control) : Control :=
  if c.index &&& 0x7F = 0x0A then { c with registerA := data }
  else { c with registerB := data }

def disableInts (c : Control) : Control := { c with interrupts := false }
def enableInts (c : Control) : Control := { c with interrupts := true }

/-- What `enable_irq8`, `disable_irq8` and `set_rtc_frequency` have in common. -/
def changeRegister (reg : UInt8) (change : UInt8 → UInt8) (status : UInt8) (c : Control) : Control :=
  let c := disableInts c
  let c := outbIndex reg c
  let prev := inbData status c
  let c := outbIndex reg c
  let c := outbData (change prev) c
  enableInts c

def enableIrq8 : UInt8 → Control → Control := changeRegister rtcRegB fun prev => prev ||| 0x40
def disableIrq8 : UInt8 → Control → Control := changeRegister rtcRegB fun prev => prev &&& 0xBF

def setRtcFrequency (rate : UInt8) : UInt8 → Control → Control :=
  changeRegister rtcRegA fun prev => (prev &&& 0xF0) ||| rate

/-- Two messages to the serial port are left out. -/
def initRtc (status : UInt8) (c : Control) : Control :=
  let c := disableInts c
  let c := outbIndex rtcRegA c
  let c := outbData 0x26 c
  let c := enableInts c
  enableIrq8 status c

inductive Call
  | enableIrq8
  | disableIrq8
  | setRtcFrequency (rate : UInt8)
  | initRtc

/-- Each call with what bit 7 of register A is at. -/
def step (c : Control) : Call × UInt8 → Control
  | (.enableIrq8, status) => enableIrq8 status c
  | (.disableIrq8, status) => disableIrq8 status c
  | (.setRtcFrequency rate, status) => setRtcFrequency rate status c
  | (.initRtc, status) => initRtc status c

def run (calls : List (Call × UInt8)) (c : Control) : Control := calls.foldl step c

/-- A byte in whose lower half is the rate of the interrupt that the call sets. -/
def Call.rate : Call → Option UInt8
  | .setRtcFrequency rate => some rate
  | .initRtc => some 0x26
  | _ => none

def Call.periodic : Call → Option Bool
  | .enableIrq8 => some true
  | .disableIrq8 => some false
  | .setRtcFrequency _ => none
  | .initRtc => some true

section OneCall
variable (status : UInt8) (c : Control)

theorem address_A : rtcRegA &&& 0x7F = 0x0A := by decide
theorem address_B : rtcRegB &&& 0x7F ≠ 0x0A := by decide

theorem changeRegister_A (change : UInt8 → UInt8) : changeRegister rtcRegA change status c =
    ⟨rtcRegA, change ((status &&& 0x80) ||| (c.registerA &&& 0x7F)), c.registerB, true⟩ := by
  simp only [changeRegister, disableInts, outbIndex, inbData, outbData, enableInts, address_A,
    if_true]

theorem changeRegister_B (change : UInt8 → UInt8) : changeRegister rtcRegB change status c =
    ⟨rtcRegB, c.registerA, change c.registerB, true⟩ := by
  simp only [changeRegister, disableInts, outbIndex, inbData, outbData, enableInts,
    address_B, if_false]

theorem initRtc_eq : initRtc status c = ⟨rtcRegB, 0x26, c.registerB ||| 0x40, true⟩ := by
  rw [initRtc, enableIrq8, changeRegister_B]
  simp only [disableInts, outbIndex, outbData, enableInts, address_A, if_true]

theorem setRtcFrequency_eq (rate : UInt8) : setRtcFrequency rate status c = ⟨rtcRegA,
    ((status &&& 0x80) ||| (c.registerA &&& 0x7F)) &&& 0xF0 ||| rate, c.registerB, true⟩ :=
  changeRegister_A ..

theorem bit_setRtcFrequency (rate : UInt8) {i : ℕ} (hi : i < 7) :
    bit (setRtcFrequency rate status c).registerA i =
      (bit c.registerA i && decide (4 ≤ i) || bit rate i) := by
  have hmasks : ∀ i < 7, bit 0x80 i = false ∧ bit 0x7F i = true ∧ bit 0xF0 i = decide (4 ≤ i) := by
    decide
  obtain ⟨hstatus, hkept, hupper⟩ := hmasks i hi
  rw [setRtcFrequency_eq, bit_or, bit_and, bit_or, bit_and, bit_and, hstatus, hkept, hupper,
    Bool.and_false, Bool.false_or, Bool.and_true]

theorem step_rate (call : Call) {i : ℕ} (hi : i < 4) : bit (step c (call, status)).registerA i =
    (call.rate.map (bit · i)).getD (bit c.registerA i) := by
  cases call with
  | enableIrq8 =>
    rw [step, enableIrq8, changeRegister_B]
    rfl
  | disableIrq8 =>
    rw [step, disableIrq8, changeRegister_B]
    rfl
  | setRtcFrequency rate =>
    have hlow : ¬ 4 ≤ i := Nat.not_le.mpr hi
    rw [step, bit_setRtcFrequency _ _ _ (Nat.lt_trans hi (by decide)), decide_eq_false hlow,
      Bool.and_false, Bool.false_or]
    rfl
  | initRtc =>
    rw [step, initRtc_eq]
    rfl

/-- Only bit 6 of register B is ever changed. -/
theorem step_periodic (call : Call) {i : ℕ} (hi : i < 8) :
    bit (step c (call, status)).registerB i =
      if i = 6 then call.periodic.getD (bit c.registerB i) else bit c.registerB i := by
  have hmasks : ∀ i < 8, bit 0x40 i = decide (i = 6) ∧ bit 0xBF i = decide (i ≠ 6) := by decide
  have hset : bit (c.registerB ||| 0x40) i = if i = 6 then true else bit c.registerB i := by
    rw [bit_or, (hmasks i hi).1]
    by_cases hsix : i = 6
    · simp [hsix]
    · simp [hsix]
  have hclear : bit (c.registerB &&& 0xBF) i = if i = 6 then false else bit c.registerB i := by
    rw [bit_and, (hmasks i hi).2]
    by_cases hsix : i = 6
    · simp [hsix]
    · simp [hsix]
  cases call with
  | enableIrq8 =>
    rw [step, enableIrq8, changeRegister_B]
    exact hset
  | disableIrq8 =>
    rw [step, disableIrq8, changeRegister_B]
    exact hclear
  | setRtcFrequency rate =>
    rw [step, setRtcFrequency_eq]
    exact (ite_self _).symm
  | initRtc =>
    rw [step, initRtc_eq]
    exact hset

/-- A call leaves interrupts on, even where they were off before it, and the non-maskable ones
kept away, for the index it leaves has bit 7. -/
theorem step_leaves (call : Call) : (step c (call, status)).interrupts = true ∧
    bit (step c (call, status)).index 7 = true := by
  have hA : bit rtcRegA 7 = true := by decide
  have hB : bit rtcRegB 7 = true := by decide
  cases call with
  | enableIrq8 =>
    rw [step, enableIrq8, changeRegister_B]
    exact ⟨rfl, hB⟩
  | disableIrq8 =>
    rw [step, disableIrq8, changeRegister_B]
    exact ⟨rfl, hB⟩
  | setRtcFrequency rate =>
    rw [step, setRtcFrequency_eq]
    exact ⟨rfl, hA⟩
  | initRtc =>
    rw [step, initRtc_eq]
    exact ⟨rfl, hB⟩

end OneCall

/-- The clock runs with a divider of 2, which is in the bits 4 to 6. -/
def Oscillates (c : Control) : Prop :=
  bit c.registerA 4 = false ∧ bit c.registerA 5 = true ∧ bit c.registerA 6 = false

/-- The rates set since the last initialization, after those given. -/
def ratesSince (rates : List UInt8) (calls : List (Call × UInt8)) : List UInt8 :=
  calls.foldl (fun rates call =>
    match call.1 with
    | .setRtcFrequency rate => rates ++ [rate]
    | .initRtc => []
    | _ => rates) rates

/-- A rate that is in its half of the register, but for a bit of the divider that is set
anyway. -/
def Harmless (rate : UInt8) : Prop := bit rate 4 = false ∧ bit rate 6 = false

/-- Once bit 5 is set it stays, and of the other two each rate sets what it has. -/
structure DividerOf (rates : List UInt8) (c : Control) : Prop where
  five : bit c.registerA 5 = true
  others : bit c.registerA 4 = false ∧ bit c.registerA 6 = false ↔ ∀ rate ∈ rates, Harmless rate

theorem DividerOf.oscillates_iff {rates : List UInt8} {c : Control} (h : DividerOf rates c) :
    Oscillates c ↔ ∀ rate ∈ rates, Harmless rate := by
  rw [← h.others]
  exact ⟨fun ⟨hfour, _, hsix⟩ => ⟨hfour, hsix⟩, fun ⟨hfour, hsix⟩ => ⟨hfour, h.five, hsix⟩⟩

theorem dividerOf_initRtc (status : UInt8) (c : Control) : DividerOf [] (initRtc status c) := by
  have hstart : bit 0x26 4 = false ∧ bit 0x26 5 = true ∧ bit 0x26 6 = false := by decide
  rw [initRtc_eq]
  exact ⟨hstart.2.1, iff_of_true ⟨hstart.1, hstart.2.2⟩ fun _ h => nomatch h⟩

theorem DividerOf.run {rates : List UInt8} {c : Control} (h : DividerOf rates c)
    (calls : List (Call × UInt8)) : DividerOf (ratesSince rates calls) (run calls c) := by
  induction calls generalizing rates c with
  | nil => exact h
  | cons call calls ih =>
    obtain ⟨call, status⟩ := call
    rw [RtcControl.run, ratesSince, List.foldl_cons, List.foldl_cons]
    cases call with
    | enableIrq8 =>
      refine ih (c := step c (.enableIrq8, status)) ?_
      rw [step, enableIrq8, changeRegister_B]
      exact ⟨h.five, h.others⟩
    | disableIrq8 =>
      refine ih (c := step c (.disableIrq8, status)) ?_
      rw [step, disableIrq8, changeRegister_B]
      exact ⟨h.five, h.others⟩
    | setRtcFrequency rate =>
      refine ih (c := step c (.setRtcFrequency rate, status)) ?_
      have hbit (i : ℕ) (hi : 4 ≤ i ∧ i < 7) : bit (setRtcFrequency rate status c).registerA i =
          (bit c.registerA i || bit rate i) := by
        rw [bit_setRtcFrequency _ _ _ hi.2, decide_eq_true hi.1, Bool.and_true]
      rw [step]
      constructor
      · rw [hbit 5 (by decide), h.five, Bool.true_or]
      · rw [hbit 4 (by decide), hbit 6 (by decide), List.forall_mem_append, ← h.others,
          List.forall_mem_singleton, Harmless, Bool.or_eq_false_iff, Bool.or_eq_false_iff]
        exact and_and_and_comm
    | initRtc => exact ih (dividerOf_initRtc status c)

theorem dividerOf_run {c : Control} {calls : List (Call × UInt8)}
    (h : Oscillates c ∨ ∃ status, (.initRtc, status) ∈ calls) :
    DividerOf (ratesSince [] calls) (run calls c) := by
  rcases h with ⟨hfour, hfive, hsix⟩ | ⟨status, hmem⟩
  · have hnone : DividerOf [] c := ⟨hfive, iff_of_true ⟨hfour, hsix⟩ fun _ h => nomatch h⟩
    exact hnone.run calls
  · obtain ⟨before, after, rfl⟩ := List.append_of_mem hmem
    rw [RtcControl.run, ratesSince, List.foldl_append, List.foldl_append, List.foldl_cons,
      List.foldl_cons]
    exact (dividerOf_initRtc status (before.foldl step c)).run after

/-- After any calls the rate is the last one set, the interrupt is on or off as the last call
for it left it, and nothing else in register B has changed; interrupts are on, and the
non-maskable ones are kept away. A clock that ran, or has been initialized, runs exactly if no rate
set since has one of two bits outside its half. -/
theorem rtc_control_history (calls : List (Call × UInt8)) (c : Control) :
    (∀ i < 4, bit (run calls c).registerA i =
      ((lastEffect (fun call => call.1.rate) calls).map (bit · i)).getD (bit c.registerA i)) ∧
    (∀ i < 8, bit (run calls c).registerB i =
      if i = 6 then (lastEffect (fun call => call.1.periodic) calls).getD (bit c.registerB i)
      else bit c.registerB i) ∧
    (calls ≠ [] → (run calls c).interrupts = true ∧ bit (run calls c).index 7 = true) ∧
    ((Oscillates c ∨ ∃ status, (.initRtc, status) ∈ calls) →
      (Oscillates (run calls c) ↔ ∀ rate ∈ ratesSince [] calls, Harmless rate)) := by
  refine ⟨fun i hi => ?_, fun i hi => ?_, fun hcalls => ?_, fun h => (dividerOf_run h).oscillates_iff⟩
  · rw [← lastEffect_map]
    exact observe_foldl (fun c => bit c.registerA i) (fun _ => True) (fun _ _ _ => trivial)
      (fun c call _ => step_rate call.2 c call.1 hi) trivial calls
  · by_cases hsix : i = 6
    · rw [if_pos hsix]
      exact observe_foldl (fun c => bit c.registerB i) (fun _ => True) (fun _ _ _ => trivial)
        (fun c call _ => (step_periodic call.2 c call.1 hi).trans (if_pos hsix)) trivial calls
    · rw [if_neg hsix]
      exact observe_foldl_kept (fun c => bit c.registerB i)
        (fun c call => (step_periodic call.2 c call.1 hi).trans (if_neg hsix)) c calls
  · rw [← List.dropLast_append_getLast hcalls, run, List.foldl_append]
    exact step_leaves (calls.getLast hcalls).2 _ (calls.getLast hcalls).1

end BinOs.RtcControl
