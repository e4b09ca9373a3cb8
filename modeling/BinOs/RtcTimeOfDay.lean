import BinOs.RtcSnapshot

/-! # The time of day

With registers that stay as they are, reading the clock ends, and its result is what the
registers encode, but for the two hours called 12 of a twelve-hour clock: the past-noon
bit always adds twelve and its absence never takes twelve away. -/
namespace BinOs.RtcTimeOfDay
open CheckedBuffers MemoryStrings RealTimeClock CmosEncoding RtcSnapshot

/-- The registers hold this time of day and do not move; sooner or later register A says
that no update is under way. -/
structure Encodes (w : Chip) (d : Rtc) (hour : Fin 24) (minute second : Fin 60) : Prop where
  still : ∀ n, w.advance n = 0
  ready : ∀ n, ∃ k, n ≤ k ∧ w.registerA k &&& 0x80 = 0
  hour : (w.clock.registers d.time).hour = encodeHour w.registerB hour
  minute : (w.clock.registers d.time).minute = encodeNumber w.registerB minute
  second : (w.clock.registers d.time).second = encodeNumber w.registerB second

variable {w : Chip} {d : Rtc} {hour : Fin 24} {minute second : Fin 60}

section Still
variable (hstill : ∀ n, w.advance n = 0)
include hstill

theorem access_time_still (d : Rtc) : (access w d).time = d.time := by
  rw [access, hstill, Nat.add_zero]

theorem readRtcRegister_time_still (reg : UInt8) (d : Rtc) :
    (readRtcRegister w reg d).2.time = d.time := by
  have htwice : (access w (outbIndex w reg d)).time = d.time := by
    rw [access_time_still hstill, outbIndex]
    exact access_time_still hstill d
  rw [readRtcRegister, inbData]
  split_ifs
  · exact htwice
  · exact htwice
  · exact htwice

theorem readRegisters_still (d : Rtc) : (readRegisters w d).1 = w.clock.registers d.time ∧
    (readRegisters w d).2.time = d.time := by
  have htime : (readRegisters w d).2.time = d.time := by
    rw [readRegisters, readRtcRegister_time_still hstill, readRtcRegister_time_still hstill,
      readRtcRegister_time_still hstill, readRtcRegister_time_still hstill,
      readRtcRegister_time_still hstill, readRtcRegister_time_still hstill,
      readRtcRegister_time_still hstill]
  obtain ⟨first, hstart, hread⟩ := readRegisters_readFrom (w := w) d
  have hle := hread.first_le
  rw [access_time_still hstill] at hstart
  rw [htime] at hread hle
  rw [Nat.le_antisymm hle hstart] at hread
  exact ⟨hread.snapshot, htime⟩

theorem rtcIsUpdating_still (d : Rtc) :
    (rtcIsUpdating w d).1 = w.registerA d.readingsA &&& 0x80 ∧
      (rtcIsUpdating w d).2.readingsA = d.readingsA + 1 ∧
      (rtcIsUpdating w d).2.time = d.time := by
  have hindex : (access w (outbIndex w rtcRegA d)).index &&& 0x7F = 0x0A := by
    have hreg : (access w (outbIndex w rtcRegA d)).index = rtcRegA := rfl
    rw [hreg]
    decide
  have htime : (rtcIsUpdating w d).2.time = d.time := readRtcRegister_time_still hstill rtcRegA d
  refine ⟨?_, ?_, htime⟩
  · rw [rtcIsUpdating, inbData, if_pos hindex]
    rfl
  · rw [rtcIsUpdating, inbData, if_pos hindex]
    rfl

theorem waitForRtcUpdate_succ (fuel : ℕ) (d : Rtc) : waitForRtcUpdate w (fuel + 1) d =
    if w.registerA d.readingsA &&& 0x80 ≠ 0 then waitForRtcUpdate w fuel (rtcIsUpdating w d).2
    else some (rtcIsUpdating w d).2 := by
  rw [waitForRtcUpdate, (rtcIsUpdating_still hstill d).1]

/-- Waiting ends with the first reading of register A that says so. -/
theorem waitForRtcUpdate_ends {gap : ℕ} {d : Rtc}
    (hready : w.registerA (d.readingsA + gap) &&& 0x80 = 0) :
    ∃ d', d'.time = d.time ∧ ∀ fuel, gap ≤ fuel → waitForRtcUpdate w (fuel + 1) d = some d' := by
  induction gap generalizing d with
  | zero =>
    refine ⟨(rtcIsUpdating w d).2, (rtcIsUpdating_still hstill d).2.2, fun fuel _ => ?_⟩
    rw [waitForRtcUpdate_succ hstill]
    exact if_neg (not_not_intro hready)
  | succ gap ih =>
    obtain ⟨-, hcount, htime⟩ := rtcIsUpdating_still hstill d
    by_cases hnow : w.registerA d.readingsA &&& 0x80 = 0
    · refine ⟨(rtcIsUpdating w d).2, htime, fun fuel _ => ?_⟩
      rw [waitForRtcUpdate_succ hstill, if_neg (not_not_intro hnow)]
    · have hrest : w.registerA ((rtcIsUpdating w d).2.readingsA + gap) &&& 0x80 = 0 := by
        rw [hcount, Nat.add_assoc, Nat.add_comm 1 gap]
        exact hready
      obtain ⟨d', htime', hends⟩ := ih hrest
      refine ⟨d', htime'.trans htime, fun fuel hfuel => ?_⟩
      obtain ⟨fuel, rfl⟩ := Nat.exists_eq_add_of_le' (Nat.le_trans (Nat.le_add_left 1 gap) hfuel)
      rw [waitForRtcUpdate_succ hstill, if_pos hnow]
      exact hends fuel (by omega)

end Still

section Ready
variable (hstill : ∀ n, w.advance n = 0) (hready : ∀ n, ∃ k, n ≤ k ∧ w.registerA k &&& 0x80 = 0)
include hstill hready

theorem waitForRtcUpdate_still (d : Rtc) : ∃ enough d', d'.time = d.time ∧
    ∀ fuel, enough ≤ fuel → waitForRtcUpdate w (fuel + 1) d = some d' := by
  obtain ⟨k, hk, hclear⟩ := hready d.readingsA
  obtain ⟨gap, rfl⟩ := Nat.exists_eq_add_of_le hk
  obtain ⟨d', htime, hends⟩ := waitForRtcUpdate_ends hstill hclear
  exact ⟨gap, d', htime, hends⟩

/-- Reading ends, and what is decoded is the registers' content. -/
theorem readRtcTime_still (d : Rtc) : ∃ enough d', ∀ fuel, enough ≤ fuel →
    readRtcTime w (fuel + 1) d = some (decode w.registerB (w.clock.registers d.time), d') := by
  let d₀ : Rtc := { d with uart := d.uart ++ SerialPort.writeSerial (ascii "read_rtc_time") }
  obtain ⟨n₁, d₁, htime₁, hwait₁⟩ := waitForRtcUpdate_still hstill hready d₀
  obtain ⟨hlast, htime⟩ := readRegisters_still hstill d₁
  obtain ⟨n₂, d₂, htime₂, hwait₂⟩ := waitForRtcUpdate_still hstill hready (readRegisters w d₁).2
  obtain ⟨hkept, -⟩ := readRegisters_still hstill d₂
  rw [htime₁] at hlast
  rw [htime₂, htime, htime₁] at hkept
  let i : Comparison :=
    ⟨(access w d₁).time, (readRegisters w d₁).1, (readRegisters w d₂).1, (readRegisters w d₂).2.time⟩
  let d₃ : Rtc :=
    { (readRegisters w d₂).2 with history := (readRegisters w d₂).2.history ++ [i] }
  refine ⟨n₁ + n₂, (readRtcRegister w rtcRegB d₃).2, fun fuel hfuel => ?_⟩
  have hpass : readTwice w (fuel + 1) d₁ = some (i, d₃) := by
    rw [readTwice, hwait₂ fuel (by omega)]
    rfl
  have hloop : readUntilStable w (fuel + 1) (fuel + 1) d₁ =
      some (w.clock.registers d.time, d₃) := by
    have hd₀ : d₀.time = d.time := rfl
    rw [readUntilStable, hpass, Option.bind_eq_bind, Option.bind_some, ← hd₀, ← hkept]
    exact if_neg (not_not_intro (hlast.trans hkept.symm))
  rw [readRtcTime, hwait₁ fuel (by omega), Option.bind_eq_bind, Option.bind_some, hloop]
  change some (decode (readRtcRegister w rtcRegB d₃).1 _, _) = _
  rw [readRtcRegister_registerB]

end Ready

theorem Encodes.readRtcTime_eq (h : Encodes w d hour minute second) :
    ∃ enough d', ∀ fuel, enough ≤ fuel → readRtcTime w (fuel + 1) d =
      some (decode w.registerB (w.clock.registers d.time), d') :=
  readRtcTime_still h.still h.ready d

/-- The hour that comes out: the two twelves of a twelve-hour clock are exchanged. -/
def decodedHour (registerB : UInt8) (hour : Fin 24) : ℕ :=
  if fullDayMode registerB then hour
  else if hour = 0 then 12
  else if hour = 12 then 0
  else hour

/-- The hour of a twelve-hour clock in 24-hour terms, as `read_rtc_time` has it. -/
def withoutFlag (v : UInt8) : UInt8 := if v &&& 0x80 ≠ 0 then ((v &&& 0x7F) + 12) % 24 else v

def hourFromBcd (v : UInt8) : UInt8 := bcdToBinary (v &&& 0x7F) ||| (v &&& 0x80)

theorem decode_hour_eq (registerB : UInt8) (r : Registers) : (decode registerB r).hour =
    let v := if binaryMode registerB then r.hour else hourFromBcd r.hour
    if fullDayMode registerB then v else withoutFlag v := by
  by_cases hbinary : binaryMode registerB
  · have hbit : ¬ registerB &&& 0x04 = 0 := hbinary
    by_cases hfull : fullDayMode registerB
    · have hbit' : ¬ registerB &&& 0x02 = 0 := hfull
      simp [decode, hbinary, hbit, hfull, hbit']
    · have hbit' : registerB &&& 0x02 = 0 := not_not.mp hfull
      simp [decode, hbinary, hbit, hfull, hbit', withoutFlag]
  · have hbit : registerB &&& 0x04 = 0 := not_not.mp hbinary
    by_cases hfull : fullDayMode registerB
    · have hbit' : ¬ registerB &&& 0x02 = 0 := hfull
      simp [decode, hbinary, hbit, hfull, hbit', Registers.fromBcd, hourFromBcd]
    · have hbit' : registerB &&& 0x02 = 0 := not_not.mp hfull
      simp [decode, hbinary, hbit, hfull, hbit', Registers.fromBcd, hourFromBcd, withoutFlag]

theorem hour_table : ∀ hour : Fin 24,
    let right := UInt8.ofNat hour
    let swapped := UInt8.ofNat (if hour = 0 then 12 else if hour = 12 then 0 else hour)
    hourFromBcd (bcd hour) = right ∧
      (hour < 12 → withoutFlag (UInt8.ofNat (twelveHour hour)) = swapped ∧
        withoutFlag (hourFromBcd (bcd (twelveHour hour))) = swapped) ∧
      (¬ hour < 12 → withoutFlag (UInt8.ofNat (twelveHour hour) ||| 0x80) = swapped ∧
        withoutFlag (hourFromBcd (bcd (twelveHour hour) ||| 0x80)) = swapped) := by
  decide +kernel

theorem decode_hour {registerB : UInt8} {r : Registers} (h : r.hour = encodeHour registerB hour) :
    (decode registerB r).hour = UInt8.ofNat (decodedHour registerB hour) := by
  obtain ⟨hfullDay, hmorning, hevening⟩ := hour_table hour
  rw [decode_hour_eq, h, encodeHour, encodeNumber, encodeNumber, decodedHour]
  by_cases hfull : fullDayMode registerB
  · simp only [if_pos hfull]
    split
    · rfl
    · exact hfullDay
  · simp only [if_neg hfull]
    by_cases hhalf : (hour : ℕ) < 12
    · simp only [if_pos hhalf]
      split
      · exact (hmorning hhalf).1
      · exact (hmorning hhalf).2
    · simp only [if_neg hhalf]
      split
      · exact (hevening hhalf).1
      · exact (hevening hhalf).2

theorem decode_number (registerB : UInt8) {n : ℕ} (hn : n < 100) :
    (if registerB &&& 0x04 = 0 then bcdToBinary (encodeNumber registerB n)
      else encodeNumber registerB n) = UInt8.ofNat n := by
  rw [encodeNumber]
  by_cases hbinary : binaryMode registerB
  · rw [if_pos hbinary]
    exact if_neg hbinary
  · rw [if_neg hbinary, if_pos (not_not.mp hbinary), bcdToBinary_bcd n hn]

theorem decode_minute (registerB : UInt8) (r : Registers) : (decode registerB r).minute =
    if registerB &&& 0x04 = 0 then bcdToBinary r.minute else r.minute := by
  rw [decode]
  split
  · rfl
  · rfl

theorem decode_second (registerB : UInt8) (r : Registers) : (decode registerB r).second =
    if registerB &&& 0x04 = 0 then bcdToBinary r.second else r.second := by
  rw [decode]
  split
  · rfl
  · rfl

def twoDigits (n : ℕ) : List UInt8 := [UInt8.ofNat (n / 10) + 48, UInt8.ofNat (n % 10) + 48]

def halfDay (hour : Fin 24) : List UInt8 := ascii (if hour < 12 then "AM" else "PM")

/-- `hh:mm:ss AM` and the terminator. -/
def twelveHourText (hour : Fin 24) (minute second : Fin 60) : List UInt8 :=
  twoDigits (twelveHour hour) ++ ascii ":" ++ twoDigits minute ++ ascii ":" ++ twoDigits second ++
    ascii " " ++ halfDay hour ++ [0]

/-- All three readings give this time of day. -/
structure Decodes (w : Chip) (fuel : ℕ) (d : Rtc) (hour : Fin 24) (minute second : Fin 60) : Prop where
  time : ∃ t d', readRtcTime w fuel d = some (t, d') ∧ t.hour = UInt8.ofNat hour ∧
    t.minute = UInt8.ofNat minute ∧ t.second = UInt8.ofNat second
  text : ∀ timeStr, ∃ b d', getRtcTime12Hour w fuel timeStr d = some (b, d') ∧
    b.toList = twelveHourText hour minute second
  components : ∀ amPm, ∃ b d', getRtcTime12HourComponents w fuel amPm d =
    some ((UInt8.ofNat (twelveHour hour), UInt8.ofNat minute, UInt8.ofNat second), b, d') ∧
      b.toList = halfDay hour ++ [0]

theorem digits_table : ∀ n < 60, [UInt8.ofNat n / 10 + 48, UInt8.ofNat n % 10 + 48] = twoDigits n := by
  decide +kernel

theorem length_twelveHourText (hour : Fin 24) (minute second : Fin 60) :
    (twelveHourText hour minute second).length = 12 := by
  have hhalf : (halfDay hour).length = 2 := by
    rw [halfDay]
    split
    · rfl
    · rfl
  simp [twelveHourText, twoDigits, hhalf, ascii]

theorem display_table : ∀ hour : Fin 24, let c := UInt8.ofNat hour
    (if c = 0 then ((12 : UInt8), ascii "AM") else if c < 12 then (c, ascii "AM")
      else if c = 12 then (c, ascii "PM") else (c - 12, ascii "PM")) =
      (UInt8.ofNat (twelveHour hour), halfDay hour) := by
  decide +kernel

theorem components_table : ∀ hour : Fin 24, let c := UInt8.ofNat hour
    (if c = 0 then ((12 : UInt8), ascii "AM") else if c < 12 then (c, ascii "AM")
      else if c = 12 then (12, ascii "PM") else (c - 12, ascii "PM")) =
      (UInt8.ofNat (twelveHour hour), halfDay hour) := by
  decide +kernel

/-- The text and the components always agree with what was read. -/
theorem decodes_of_read {fuel : ℕ} {t : RtcTime} {d' : Rtc}
    (hread : readRtcTime w fuel d = some (t, d')) (hhour : t.hour = UInt8.ofNat hour)
    (hminute : t.minute = UInt8.ofNat minute) (hsecond : t.second = UInt8.ofNat second) :
    Decodes w fuel d hour minute second := by
  constructor
  case time => exact ⟨t, d', hread, hhour, hminute, hsecond⟩
  case text =>
    intro timeStr
    obtain ⟨b, hb, hlist⟩ := writeFrom_zero (length_twelveHourText hour minute second) timeStr
    have htwelve : twelveHour hour < 60 := by
      rw [twelveHour]
      split
      · decide
      · omega
    refine ⟨b, d', ?_, hlist⟩
    simp only [getRtcTime12Hour, hread, Option.bind_eq_bind, Option.bind_some, hhour, hminute,
      hsecond, display_table hour, digits_table _ htwelve, digits_table _ minute.2,
      digits_table _ second.2]
    rw [twelveHourText] at hb
    rw [hb, Option.bind_some]
  case components =>
    intro amPm
    have hlength : (halfDay hour ++ [0]).length = 3 := by
      rw [halfDay]
      split
      · rfl
      · rfl
    obtain ⟨b, hb, hlist⟩ := writeFrom_zero hlength amPm
    refine ⟨b, d', ?_, hlist⟩
    simp only [getRtcTime12HourComponents, hread, Option.bind_eq_bind, Option.bind_some, hhour,
      hminute, hsecond, components_table hour, hb]

/-- Every time of day is read right, except in the hours that begin at midnight and at noon
of a twelve-hour clock. -/
theorem time_of_day_decodes_iff (h : Encodes w d hour minute second) :
    ∃ enough, ∀ fuel, enough ≤ fuel → (Decodes w (fuel + 1) d hour minute second ↔
      fullDayMode w.registerB ∨ hour ≠ 0 ∧ hour ≠ 12) := by
  obtain ⟨enough, d', hread⟩ := h.readRtcTime_eq
  refine ⟨enough, fun fuel hfuel => ?_⟩
  have hread' := hread fuel hfuel
  have hhour := decode_hour (r := w.clock.registers d.time) h.hour
  constructor
  · rintro ⟨⟨t, d'', htime, hright, -⟩, -, -⟩
    rw [hread'] at htime
    cases htime
    rw [hhour] at hright
    by_cases hfull : fullDayMode w.registerB
    · exact .inl hfull
    · rw [decodedHour, if_neg hfull] at hright
      refine .inr ⟨?_, ?_⟩
      · rintro rfl
        exact absurd hright (by decide)
      · rintro rfl
        exact absurd hright (by decide)
  · intro hcondition
    have hsame : decodedHour w.registerB hour = hour := by
      rw [decodedHour]
      rcases hcondition with hfull | ⟨hmidnight, hnoon⟩
      · rw [if_pos hfull]
      · rw [if_neg hmidnight, if_neg hnoon, ite_self]
    refine decodes_of_read hread' (by rw [hhour, hsame]) ?_ ?_
    · rw [decode_minute, h.minute, decode_number _ (by omega)]
    · rw [decode_second, h.second, decode_number _ (by omega)]

/-- A twelve-hour clock in BCD that stands at this time of the first of January 2000. -/
def twelveHourChip (hour : Fin 24) (minute second : Fin 60) : Chip where
  clock := Moment.clock 0 ⟨second, minute, hour, 1, 1, 0, 20⟩
  advance _ := 0
  registerA _ := 0
  registerB := 0

theorem twelveHourChip_encodes (hour : Fin 24) (minute second : Fin 60) :
    Encodes (twelveHourChip hour minute second) unread hour minute second := by
  have hregisters : (twelveHourChip hour minute second).clock.registers unread.time =
      Moment.registers 0 ⟨second, minute, hour, 1, 1, 0, 20⟩ := Moment.clock_zero _ _
  constructor
  case still => exact fun _ => rfl
  case ready => exact fun n => ⟨n, Nat.le_refl n, (by decide : (0 : UInt8) &&& 0x80 = 0)⟩
  case hour =>
    change _ = encodeHour 0 hour
    rw [hregisters]
    rfl
  case minute =>
    change _ = encodeNumber 0 minute
    rw [hregisters]
    rfl
  case second =>
    change _ = encodeNumber 0 second
    rw [hregisters]
    rfl

theorem time_of_day_decodes_evening : ∃ enough, ∀ fuel, enough ≤ fuel →
    (Decodes (twelveHourChip 23 59 58) (fuel + 1) unread 23 59 58 ↔
      fullDayMode (twelveHourChip 23 59 58).registerB ∨ (23 : Fin 24) ≠ 0 ∧ (23 : Fin 24) ≠ 12) :=
  time_of_day_decodes_iff (twelveHourChip_encodes 23 59 58)

/-- Noon of a twelve-hour clock is read as midnight, however long the loops may run. -/
theorem noon_read_as_midnight : Encodes (twelveHourChip 12 0 0) unread 12 0 0 ∧
    ¬ ∃ enough, ∀ fuel, enough ≤ fuel → Decodes (twelveHourChip 12 0 0) (fuel + 1) unread 12 0 0 := by
  have hencodes := twelveHourChip_encodes 12 0 0
  refine ⟨hencodes, ?_⟩
  rintro ⟨enough, hall⟩
  obtain ⟨enough', d', hread⟩ := hencodes.readRtcTime_eq
  obtain ⟨t, d'', htime, hright, -⟩ := (hall (enough + enough') (by omega)).time
  rw [hread _ (by omega)] at htime
  cases htime
  exact absurd hright (by decide)

end BinOs.RtcTimeOfDay
