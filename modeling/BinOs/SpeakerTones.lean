import BinOs.InterruptLines
import BinOs.LastWriter
import BinOs.TimedWaits

/-! # The programmable timer and the speaker

Three counters divide 1193180 Hz. The first makes the kernel's ticks; the third makes tones, which
the speaker gives while two bits of port `0x61` are set. A counter takes its divisor in two
halves, and the command port tells where the first of them is to go. -/
namespace BinOs.SpeakerTones
open MemoryStrings SerialPort PicMasks PicPair LastWriter InterruptLines TimedWaits

/-- `low` is the half of a divisor that has come, while the other half is awaited. -/
structure Counter where
  access : UInt8
  mode : UInt8
  low : Option UInt8
  divisor : UInt16

def Counter.program (access mode : UInt8) (c : Counter) : Counter :=
  if access = 0 then c else { c with access, mode, low := none }

def Counter.write (data : UInt8) (c : Counter) : Counter :=
  if c.access = 1 then { c with divisor := data.toUInt16 }
  else if c.access = 2 then { c with divisor := data.toUInt16 <<< 8 }
  else
    match c.low with
    | none => { c with low := some data }
    | some low => { c with low := none, divisor := data.toUInt16 <<< 8 ||| low.toUInt16 }

/-- The counters, and the bits of port `0x61` that can be written. -/
structure Board where
  counter0 : Counter
  counter1 : Counter
  counter2 : Counter
  control : UInt8

/-- A command names a counter in its two upper bits; those for none of them are not sent. -/
def outb (port : UInt16) (data : UInt8) (b : Board) : Board :=
  let access := (data >>> 4) &&& 0x03
  let mode := (data >>> 1) &&& 0x07
  if port = 0x40 then { b with counter0 := b.counter0.write data }
  else if port = 0x41 then { b with counter1 := b.counter1.write data }
  else if port = 0x42 then { b with counter2 := b.counter2.write data }
  else if port = 0x43 then
    if data >>> 6 = 0 then { b with counter0 := b.counter0.program access mode }
    else if data >>> 6 = 1 then { b with counter1 := b.counter1.program access mode }
    else if data >>> 6 = 2 then { b with counter2 := b.counter2.program access mode }
    else b
  else if port = 0x61 then { b with control := data &&& 0x0F }
  else b

/-- `inb(0x61)`; the upper bits tell what the counters are at. -/
def inbControl (status : UInt8) (b : Board) : UInt8 := (b.control &&& 0x0F) ||| (status &&& 0xF0)

def replay (writes : List (UInt16 × UInt8)) (b : Board) : Board :=
  writes.foldl (fun b write => outb write.1 write.2 b) b

/-- A frequency of zero is a division fault. -/
def playSound (freq : UInt32) (status : UInt8) (b : Board) : Option Board :=
  if freq = 0 then none
  else
    let div := 1193180 / freq
    let b := outb 0x43 0xb6 b
    let b := outb 0x42 div.toUInt8 b
    let b := outb 0x42 (div >>> 8).toUInt8 b
    let tmp := (inbControl status b).toUInt32
    some (if tmp ≠ (tmp ||| 3) then outb 0x61 (tmp ||| 3).toUInt8 b else b)

def nosound (status : UInt8) (b : Board) : Board :=
  let tmp := inbControl status b &&& 0xFC
  outb 0x61 tmp b

/-- The two bytes are what port `0x61` reads like before the wait and after it. -/
def beep (arrivals : ℕ → ℕ) (fuel : ℕ) (freq duration : UInt32) (status status' : UInt8)
    (b : Board) (w : Waiting) : Option (Board × Waiting) := do
  let b ← playSound freq status b
  let w ← timerWait arrivals fuel duration w
  some (nosound status' b, w)

inductive Call
  | initTimer (s : Ports)
  | playSound (freq : UInt32) (nonzero : freq ≠ 0) (status : UInt8)
  | nosound (status : UInt8)

def step (b : Board) : Call → Board
  | .initTimer s => replay (newWrites s (TimedWaits.initTimer s)) b
  | .playSound freq _ status => (playSound freq status b).getD b
  | .nosound status => nosound status b

def run (calls : List Call) (b : Board) : Board := calls.foldl step b

/-- Of all that is written to start the ticks, three bytes are for the timer. -/
theorem initTimer_writes (s : Ports) : newWrites s (TimedWaits.initTimer s) =
    [(0x43, 0x36), (0x40, 0x9C), (0x40, 0x2E)] ++
      (writeSerial (ascii "PIT: Timer initialized at ~100Hz\n")).map fun c => (serialData, c) := by
  rw [newWrites, TimedWaits.initTimer, writeSerialText, sendSerial_eq]
  simp only [PicPair.outb, List.append_assoc]
  exact List.drop_left

theorem replay_serial (out : List UInt8) (b : Board) :
    replay (out.map fun c => (serialData, c)) b = b := by
  induction out with
  | nil => rfl
  | cons c out ih => exact ih

/-- The square wave of 1193180 / 11932 Hz that makes the ticks. -/
def ticking : Counter := ⟨3, 3, none, 11932⟩

theorem step_initTimer (s : Ports) (b : Board) :
    step b (.initTimer s) = { b with counter0 := ticking } := by
  rw [step, initTimer_writes, replay, List.foldl_append]
  exact replay_serial _ _

theorem halves_joined (d : UInt32) :
    (d >>> 8).toUInt8.toUInt16 <<< 8 ||| d.toUInt8.toUInt16 = d.toUInt16 := by
  apply UInt16.eq_of_toBitVec_eq
  apply BitVec.eq_of_getLsbD_eq
  intro i hi
  have hupper : ∀ j, bit (d >>> 8).toUInt8 j = (decide (j < 8) && d.toBitVec.getLsbD (8 + j)) := by
    intro j
    have hshift : (d >>> 8).toUInt8.toBitVec = (d.toBitVec >>> 8).setWidth 8 := rfl
    rw [bit, hshift, BitVec.getLsbD_setWidth, BitVec.getLsbD_ushiftRight]
  rw [bit_joined _ _ hi, UInt32.toBitVec_toUInt16, BitVec.getLsbD_setWidth]
  split
  case isTrue hlow =>
    rw [bit, UInt32.toBitVec_toUInt8, BitVec.getLsbD_setWidth]
    simp [hlow, hi]
  case isFalse hhigh =>
    have hbyte : i - 8 < 8 := by omega
    rw [hupper, Nat.add_sub_cancel' (Nat.not_lt.mp hhigh)]
    simp [hbyte, hi]

/-- The square wave of a tone. -/
def toneOf (freq : UInt32) : Counter := ⟨3, 3, none, (1193180 / freq).toUInt16⟩

theorem bit_inbControl (status : UInt8) (b : Board) {i : ℕ} (hi : i < 4) :
    bit (inbControl status b) i = bit b.control i := by
  have hlow : ∀ i < 4, bit 0x0F i = true ∧ bit 0xF0 i = false := by decide
  rw [inbControl, bit_or, bit_and, bit_and, (hlow i hi).1, (hlow i hi).2, Bool.and_true,
    Bool.and_false, Bool.or_false]

/-- The speaker's two bits, in the arithmetic of 32 bits in which they are set. -/
theorem toUInt8_or_three (v : UInt8) : (v.toUInt32 ||| 3).toUInt8 = v ||| 3 := by
  rw [UInt32.toUInt8_or, UInt8.toUInt8_toUInt32]
  rfl

theorem programmed_tone (div : UInt32) (b : Board) :
    outb 0x42 (div >>> 8).toUInt8 (outb 0x42 div.toUInt8 (outb 0x43 0xb6 b)) =
      { b with counter2 := ⟨3, 3, none, div.toUInt16⟩ } := by
  rw [← halves_joined div]
  rfl

/-- The write to the control port is left out only where it would change nothing. -/
theorem playSound_eq {freq : UInt32} (hfreq : freq ≠ 0) (status : UInt8) (b : Board) :
    ∃ control, playSound freq status b = some { b with counter2 := toneOf freq, control } ∧
      ∀ i < 4, bit control i = (bit b.control i || decide (i < 2)) := by
  have hbits : ∀ i < 4, bit 3 i = decide (i < 2) ∧ bit 0x0F i = true := by decide
  have hset : ∀ i < 4, bit (inbControl status b ||| 3) i = (bit b.control i || decide (i < 2)) := by
    intro i hi
    rw [bit_or, bit_inbControl status b hi, (hbits i hi).1]
  rw [playSound, if_neg hfreq]
  dsimp only
  rw [programmed_tone, toUInt8_or_three]
  change ∃ control, some (if (inbControl status b).toUInt32 ≠ ((inbControl status b).toUInt32 ||| 3)
    then _ else _) = _ ∧ _
  split
  case isTrue hclear =>
    refine ⟨(inbControl status b ||| 3) &&& 0x0F, rfl, fun i hi => ?_⟩
    rw [bit_and, (hbits i hi).2, Bool.and_true, hset i hi]
  case isFalse hset' =>
    have hsame := congrArg UInt32.toUInt8 (not_not.mp hset')
    rw [toUInt8_or_three, UInt8.toUInt8_toUInt32] at hsame
    refine ⟨b.control, rfl, fun i hi => ?_⟩
    rw [← hset i hi, ← hsame, bit_inbControl status b hi]

theorem nosound_eq (status : UInt8) (b : Board) : ∃ control, nosound status b = { b with control } ∧
    ∀ i < 4, bit control i = (bit b.control i && decide (2 ≤ i)) := by
  have hbits : ∀ i < 4, bit 0xFC i = decide (2 ≤ i) ∧ bit 0x0F i = true := by decide
  refine ⟨inbControl status b &&& 0xFC &&& 0x0F, rfl, fun i hi => ?_⟩
  rw [bit_and, bit_and, bit_inbControl status b hi, (hbits i hi).1, (hbits i hi).2, Bool.and_true]

def Call.tone : Call → Option Counter
  | .playSound freq _ _ => some (toneOf freq)
  | _ => none

def Call.ticks : Call → Option Counter
  | .initTimer _ => some ticking
  | _ => none

def Call.switch : Call → Option Bool
  | .initTimer _ => none
  | .playSound _ _ _ => some true
  | .nosound _ => some false

/-- What each call leaves of the board. -/
theorem step_eq (b : Board) (call : Call) : ∃ control, step b call =
    ⟨call.ticks.getD b.counter0, b.counter1, call.tone.getD b.counter2, control⟩ ∧
      ∀ i < 4, bit control i =
        if i < 2 then call.switch.getD (bit b.control i) else bit b.control i := by
  cases call with
  | initTimer s => exact ⟨b.control, step_initTimer s b, fun i _ => (ite_self _).symm⟩
  | playSound freq nonzero status =>
    obtain ⟨control, hrun, hbit⟩ := playSound_eq nonzero status b
    refine ⟨control, ?_, fun i hi => ?_⟩
    · rw [step, hrun]
      rfl
    · rw [hbit i hi]
      by_cases hswitch : i < 2
      · simp [hswitch, Call.switch]
      · simp [hswitch]
  | nosound status =>
    obtain ⟨control, hrun, hbit⟩ := nosound_eq status b
    refine ⟨control, hrun, fun i hi => ?_⟩
    rw [hbit i hi]
    by_cases hswitch : i < 2
    · simp [hswitch, Call.switch]
    · simp [hswitch, Nat.not_lt.mp hswitch]

theorem step_ticks (b : Board) (call : Call) :
    (step b call).counter0 = call.ticks.getD b.counter0 := by
  obtain ⟨control, heq, -⟩ := step_eq b call
  rw [heq]

theorem step_counter1 (b : Board) (call : Call) : (step b call).counter1 = b.counter1 := by
  obtain ⟨control, heq, -⟩ := step_eq b call
  rw [heq]

theorem step_tone (b : Board) (call : Call) :
    (step b call).counter2 = call.tone.getD b.counter2 := by
  obtain ⟨control, heq, -⟩ := step_eq b call
  rw [heq]

theorem step_switch (b : Board) (call : Call) {i : ℕ} (hi : i < 4) : bit (step b call).control i =
    if i < 2 then call.switch.getD (bit b.control i) else bit b.control i := by
  obtain ⟨control, heq, hbit⟩ := step_eq b call
  rw [heq]
  exact hbit i hi

/-- Whatever has been called, the ticks come as the last initialization has set them, the tone
is that of the last sound, and the speaker is on if that has not been stopped. -/
theorem speaker_history (calls : List Call) (b : Board) :
    (run calls b).counter0 = (lastEffect Call.ticks calls).getD b.counter0 ∧
    (run calls b).counter1 = b.counter1 ∧
    (run calls b).counter2 = (lastEffect Call.tone calls).getD b.counter2 ∧
    ∀ i < 4, bit (run calls b).control i =
      if i < 2 then (lastEffect Call.switch calls).getD (bit b.control i)
      else bit b.control i := by
  refine ⟨?_, ?_, ?_, fun i hi => ?_⟩
  · exact observe_foldl Board.counter0 (fun _ => True) (fun _ _ _ => trivial)
      (fun b call _ => step_ticks b call) trivial calls
  · exact observe_foldl_kept Board.counter1 step_counter1 b calls
  · exact observe_foldl Board.counter2 (fun _ => True) (fun _ _ _ => trivial)
      (fun b call _ => step_tone b call) trivial calls
  · by_cases hswitch : i < 2
    · rw [if_pos hswitch]
      exact observe_foldl (fun b => bit b.control i) (fun _ => True) (fun _ _ _ => trivial)
        (fun b call _ => (step_switch b call hi).trans (if_pos hswitch)) trivial calls
    · rw [if_neg hswitch]
      exact observe_foldl_kept (fun b => bit b.control i)
        (fun b call => (step_switch b call hi).trans (if_neg hswitch)) b calls

/-- How many cycles of 1193180 Hz a period takes; a divisor of zero stands for 65536. -/
def Counter.period (c : Counter) : ℕ := if c.divisor = 0 then 65536 else c.divisor.toNat

/-- The period, which a square wave needs to be at least two, is the longest that is no lower
in frequency. -/
def RightTone (freq : UInt32) (c : Counter) : Prop :=
  2 ≤ c.period ∧ c.period * freq.toNat ≤ 1193180 ∧ 1193180 < (c.period + 1) * freq.toNat

def Sounding (b : Board) : Prop := bit b.control 0 = true ∧ bit b.control 1 = true

theorem period_toneOf {freq : UInt32} (h : 19 ≤ freq.toNat ∧ freq.toNat ≤ 1193180) :
    (toneOf freq).period = 1193180 / freq.toNat := by
  have hsmall : 1193180 / freq.toNat < 2 ^ 16 :=
    Nat.lt_of_le_of_lt (Nat.div_le_div_left h.1 (by decide)) (by decide)
  have hpos : 0 < 1193180 / freq.toNat := Nat.div_pos h.2 (by omega)
  have hdivisor : (toneOf freq).divisor.toNat = 1193180 / freq.toNat := by
    rw [toneOf, UInt32.toNat_toUInt16, UInt32.toNat_div]
    exact Nat.mod_eq_of_lt hsmall
  rw [Counter.period, if_neg, hdivisor]
  intro hzero
  rw [hzero] at hdivisor
  exact hpos.ne hdivisor

theorem period_le (c : Counter) : c.period ≤ 65536 := by
  rw [Counter.period]
  split
  · exact Nat.le_refl _
  · exact Nat.le_of_lt c.divisor.toNat_lt

/-- Of too low a tone only the lower half of the divisor is left; too high a one would need a
period of a single cycle. -/
theorem rightTone_iff {freq : UInt32} (hfreq : freq ≠ 0) :
    RightTone freq (toneOf freq) ↔ 19 ≤ freq.toNat ∧ freq.toNat ≤ 596590 := by
  have hpos : 0 < freq.toNat := Nat.pos_of_ne_zero fun h => hfreq (UInt32.toNat_inj.mp h)
  constructor
  · rintro ⟨htwo, hle, hlt⟩
    have hhigh : 2 * freq.toNat ≤ 1193180 := Nat.le_trans (Nat.mul_le_mul_right _ htwo) hle
    have hlow : 1193180 < 65537 * freq.toNat :=
      Nat.lt_of_lt_of_le hlt (Nat.mul_le_mul_right _ (Nat.succ_le_succ (period_le _)))
    omega
  · rintro ⟨hlow, hhigh⟩
    rw [RightTone, period_toneOf ⟨hlow, by omega⟩]
    refine ⟨?_, Nat.div_mul_le_self .., ?_⟩
    · exact (Nat.le_div_iff_mul_le hpos).mpr (by omega)
    · exact Nat.lt_mul_of_div_lt (Nat.lt_succ_self _) hpos

/-- While the wait of a beep lasts, which is as many ticks as asked for, the speaker is on, and
the tone is right exactly from 19 Hz to 596590 Hz; afterwards it is off, and nothing else has
changed. -/
theorem beep_sounds {arrivals : ℕ → ℕ} {fuel : ℕ} {freq duration : UInt32} {status status' : UInt8}
    {b b' : Board} {w w' : Waiting} (hfar : FarFromEnd arrivals w)
    (h : beep arrivals fuel freq duration status status' b w = some (b', w')) :
    ∃ during, playSound freq status b = some during ∧ Sounding during ∧
      (RightTone freq during.counter2 ↔ 19 ≤ freq.toNat ∧ freq.toNat ≤ 596590) ∧
      duration.toNat ≤ advance w w' ∧
      b' = { b with counter2 := during.counter2, control := b'.control } ∧
      ∀ i < 4, bit b'.control i = (bit b.control i && decide (2 ≤ i)) := by
  obtain ⟨during, hplay, h⟩ := Option.bind_eq_some_iff.mp h
  obtain ⟨waited, hwait, h⟩ := Option.bind_eq_some_iff.mp h
  cases h
  have hfreq : freq ≠ 0 := by
    rintro rfl
    cases hplay
  obtain ⟨sounding, hrun, hon⟩ := playSound_eq hfreq status b
  cases hrun.symm.trans hplay
  obtain ⟨silent, hsilent, hoff⟩ := nosound_eq status' { b with counter2 := toneOf freq,
                                                                control := sounding }
  have hswitched : Sounding { b with counter2 := toneOf freq, control := sounding } :=
    ⟨(hon 0 (by decide)).trans (Bool.or_true _), (hon 1 (by decide)).trans (Bool.or_true _)⟩
  refine ⟨_, hplay, hswitched, rightTone_iff hfreq, timerWait_passed hfar hwait, ?_, ?_⟩
  · rw [hsilent]
  · intro i hi
    rw [hsilent, hoff i hi, hon i hi]
    by_cases hswitch : i < 2
    · have hoff : ¬ 2 ≤ i := by omega
      simp [hoff]
    · simp [hswitch]

def quietBoard : Board := ⟨ticking, ticking, ticking, 0x05⟩

/-- The tone of 440 Hz for one tick. -/
theorem beep_sounds_once : ∃ b' w', FarFromEnd steady startingWait ∧
    beep steady 2 440 1 0x30 0x20 quietBoard startingWait = some (b', w') ∧
    ∃ during, Sounding during ∧ RightTone 440 during.counter2 ∧ bit b'.control 0 = false ∧
      bit b'.control 2 = true := by
  have hrun : ∃ result, beep steady 2 440 1 0x30 0x20 quietBoard startingWait = some result :=
    ⟨_, rfl⟩
  obtain ⟨⟨b', w'⟩, hrun⟩ := hrun
  obtain ⟨during, -, hon, hright, -, -, hoff⟩ := beep_sounds startingWait_far hrun
  refine ⟨b', w', startingWait_far, hrun, during, hon, hright.mpr (by decide), ?_, ?_⟩
  · rw [hoff 0 (by decide)]
    rfl
  · rw [hoff 2 (by decide)]
    rfl

end BinOs.SpeakerTones
