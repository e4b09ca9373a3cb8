import BinOs.RtcTimeOfDay

/-! # The year

The full year of a century and a year of two digits is stored in a byte, which holds those
of the second century and the first years of the third. -/
namespace BinOs.RtcYear
open RealTimeClock CmosEncoding RtcSnapshot RtcTimeOfDay

/-- A century register of 0 stands for 20. -/
def fullYear (century year : ℕ) : ℕ := (if century = 0 then 20 else century) * 100 + year

/-- The year and century registers hold these numbers from one second to another. -/
def StoresYear (w : Chip) (first final century year : ℕ) : Prop :=
  ∀ t, first ≤ t → t ≤ final →
    (w.clock.registers t).year = encodeNumber w.registerB year ∧
      (w.clock.registers t).century = encodeNumber w.registerB century

variable {w : Chip} {d d' : Rtc} {century year : ℕ}

theorem readRegisters_time_le (d : Rtc) : d.time ≤ (readRegisters w d).2.time := by
  obtain ⟨first, hstart, hread⟩ := readRegisters_readFrom (w := w) d
  exact Nat.le_trans (access_time_le d) (Nat.le_trans hstart hread.first_le)

/-- The loop leaves with the registers that its last pass has read second. -/
theorem readUntilStable_last {fuel passes : ℕ} {raw : Registers}
    (h : readUntilStable w fuel passes d = some (raw, d')) :
    ∃ d₁, d.time ≤ d₁.time ∧ raw = (readRegisters w d₁).1 ∧
      (readRegisters w d₁).2.time = d'.time := by
  induction passes generalizing d with
  | zero => cases h
  | succ passes ih =>
    obtain ⟨⟨i, d₂⟩, hpass, hnext⟩ := Option.bind_eq_some_iff.mp h
    obtain ⟨d₁, hwait, heq⟩ := Option.map_eq_some_iff.mp hpass
    obtain ⟨hi, hd₂⟩ := Prod.mk.inj heq
    have htime : d.time ≤ d₁.time :=
      Nat.le_trans (readRegisters_time_le d) (waitForRtcUpdate_later hwait).1
    have hpassed : (readRegisters w d₁).2.time = d₂.time := by rw [← hd₂]
    dsimp only at hnext
    split at hnext
    · obtain ⟨d₃, hlater, hrest⟩ := ih hnext
      refine ⟨d₃, ?_, hrest⟩
      have hsecond := readRegisters_time_le (w := w) d₁
      omega
    · cases hnext
      refine ⟨d₁, htime, ?_, hpassed⟩
      rw [← hi]

/-- What is delivered is decoded from registers read on the way. -/
theorem readRtcTime_registers {fuel : ℕ} {t : RtcTime} (h : readRtcTime w fuel d = some (t, d')) :
    ∃ raw i j, t = decode w.registerB raw ∧ (d.time ≤ i ∧ i ≤ d'.time) ∧
      (d.time ≤ j ∧ j ≤ d'.time) ∧ raw.year = (w.clock.registers i).year ∧
      raw.century = (w.clock.registers j).century := by
  obtain ⟨d₁, hwait, hrest⟩ := Option.bind_eq_some_iff.mp h
  obtain ⟨⟨raw, d₂⟩, hloop, heq⟩ := Option.bind_eq_some_iff.mp hrest
  obtain ⟨ht, hd'⟩ := Prod.mk.inj (Option.some.inj heq)
  have hbefore : d.time ≤ d₁.time := (waitForRtcUpdate_later hwait).1
  obtain ⟨d₃, hlater, hraw, hend⟩ := readUntilStable_last hloop
  have hafter : d₂.time ≤ d'.time := by
    rw [← hd']
    exact readRtcRegister_time_le rtcRegB d₂
  obtain ⟨first, hstart, hread⟩ := readRegisters_readFrom (w := w) d₃
  have hstart' := Nat.le_trans (access_time_le d₃) hstart
  obtain ⟨i, hi, hi', hyear⟩ := hread.year
  obtain ⟨j, hj, hj', hcentury⟩ := hread.century
  rw [← hraw] at hyear hcentury
  refine ⟨raw, i, j, ?_, ⟨by omega, by omega⟩, ⟨by omega, by omega⟩, hyear, hcentury⟩
  rw [← ht, readRtcRegister_registerB]

theorem decode_year (registerB : UInt8) (r : Registers) : (decode registerB r).year =
    let year := if registerB &&& 0x04 = 0 then bcdToBinary r.year else r.year
    let century := if registerB &&& 0x04 = 0 then bcdToBinary r.century else r.century
    year + (if century = 0 then 20 else century) * 100 := by
  rw [decode]
  split
  · rfl
  · rfl

theorem ofNat_eq_zero_iff {n : ℕ} (hn : n < 256) : UInt8.ofNat n = 0 ↔ n = 0 := by
  rw [← UInt8.toNat_inj, UInt8.toNat_ofNat', Nat.mod_eq_of_lt hn]
  rfl

/-- The sum in a byte is the full year modulo 256. -/
theorem byte_year {century : ℕ} (hcentury : century < 256) (year : ℕ) :
    (UInt8.ofNat year + (if UInt8.ofNat century = 0 then 20 else UInt8.ofNat century) * 100).toNat =
      fullYear century year % 256 := by
  have h100 : (100 : UInt8).toNat = 100 := rfl
  have h20 : (20 : UInt8).toNat = 20 := rfl
  rw [fullYear, if_congr (ofNat_eq_zero_iff hcentury) rfl rfl, UInt8.toNat_add, UInt8.toNat_mul,
    UInt8.toNat_ofNat', h100]
  split
  · rw [h20]
    omega
  · rw [UInt8.toNat_ofNat']
    omega

theorem wrapped_year {registerB : UInt8} {r : Registers} {century year : Fin 100}
    (hyear : r.year = encodeNumber registerB year)
    (hcentury : r.century = encodeNumber registerB century) :
    (decode registerB r).year.toNat = fullYear century year % 256 := by
  rw [decode_year, hyear, hcentury, decode_number registerB year.2,
    decode_number registerB century.2]
  exact byte_year (Nat.lt_trans century.2 (by decide)) year

/-- The year delivered is the full one for the second century and the first 56 years of the
third, and for no other; with registers that stay as they are, it is delivered. -/
theorem year_delivered_iff (w : Chip) (d : Rtc) (century year : Fin 100) :
    (∀ fuel t d', readRtcTime w fuel d = some (t, d') →
      StoresYear w d.time d'.time century year →
      (t.year.toNat = fullYear century year ↔ century = 1 ∨ century = 2 ∧ year ≤ 55)) ∧
    ((∀ n, w.advance n = 0) → (∀ n, ∃ k, n ≤ k ∧ w.registerA k &&& 0x80 = 0) →
      ∃ enough, ∀ fuel, enough ≤ fuel → (readRtcTime w (fuel + 1) d).isSome) := by
  constructor
  · intro fuel t d' hrun hstores
    obtain ⟨raw, i, j, ht, hi, hj, hyear, hcentury⟩ := readRtcTime_registers hrun
    have hwrapped := wrapped_year (hyear.trans (hstores i hi.1 hi.2).1)
      (hcentury.trans (hstores j hj.1 hj.2).2)
    rw [ht, hwrapped]
    have hfits : fullYear century year % 256 = fullYear century year ↔ fullYear century year < 256 :=
      ⟨fun h => h ▸ Nat.mod_lt _ (by decide), Nat.mod_eq_of_lt⟩
    rw [hfits, fullYear]
    split
    · omega
    · omega
  · intro hstill hready
    obtain ⟨enough, d', hread⟩ := readRtcTime_still hstill hready d
    exact ⟨enough, fun fuel hfuel => by rw [hread fuel hfuel, Option.isSome_some]⟩

/-- A BCD clock at the beginning of a year. -/
def newYearChip (century year : ℕ) : Chip where
  clock := Moment.clock 0 ⟨0, 0, 0, 1, 1, year, century⟩
  advance _ := 0
  registerA _ := 0
  registerB := 0

theorem newYearChip_stores (century year : ℕ) :
    StoresYear (newYearChip century year) 0 0 century year := by
  intro t hlo hhi
  obtain rfl : t = 0 := Nat.le_zero.mp hhi
  have hregisters : (newYearChip century year).clock.registers 0 =
      Moment.registers 0 ⟨0, 0, 0, 1, 1, year, century⟩ := Moment.clock_zero _ _
  have hformat : (newYearChip century year).registerB = 0 := rfl
  rw [hregisters, hformat]
  exact ⟨rfl, rfl⟩

/-- What a reading of such a clock delivers, by evaluation. -/
theorem newYear_reads (century year : ℕ) (value : UInt8)
    (h : (readRtcTime (newYearChip century year) 1 unread).any
      fun r => r.2.time = 0 ∧ r.1.year = value) :
    ∃ t d', readRtcTime (newYearChip century year) 1 unread = some (t, d') ∧ d'.time = 0 ∧
      t.year = value := by
  obtain ⟨⟨t, d'⟩, hrun, hr⟩ := (Option.any_eq_true _ _).mp h
  obtain ⟨htime, hyear⟩ := of_decide_eq_true hr
  exact ⟨t, d', hrun, htime, hyear⟩

/-- The last year that fits. -/
theorem year_delivered_iff_255 : ∃ t d', readRtcTime (newYearChip 2 55) 1 unread = some (t, d') ∧
    (t.year.toNat = fullYear 2 55 ↔
      (2 : Fin 100) = 1 ∨ (2 : Fin 100) = 2 ∧ (55 : Fin 100) ≤ 55) := by
  obtain ⟨t, d', hrun, htime, -⟩ :=
    newYear_reads 2 55 255 (by decide +kernel)
  refine ⟨t, d', hrun, (year_delivered_iff (newYearChip 2 55) unread 2 55).1 1 t d' hrun ?_⟩
  rw [htime]
  exact newYearChip_stores 2 55

/-- 2024 is delivered as 232, and 1700 as the year that 1956 is. -/
theorem years_wrap :
    (StoresYear (newYearChip 20 24) 0 0 20 24 ∧ ∃ t d',
      readRtcTime (newYearChip 20 24) 1 unread = some (t, d') ∧ d'.time = 0 ∧
      t.year.toNat ≠ fullYear 20 24) ∧
    ∃ t d' u d'', readRtcTime (newYearChip 17 0) 1 unread = some (t, d') ∧
      readRtcTime (newYearChip 19 56) 1 unread = some (u, d'') ∧ t.year = u.year := by
  constructor
  · obtain ⟨t, d', hrun, htime, hyear⟩ :=
      newYear_reads 20 24 232 (by decide +kernel)
    refine ⟨newYearChip_stores 20 24, t, d', hrun, htime, ?_⟩
    rw [hyear]
    decide
  · obtain ⟨t, d', hrun, -, hyear⟩ :=
      newYear_reads 17 0 164 (by decide +kernel)
    obtain ⟨u, d'', hrun', -, hyear'⟩ :=
      newYear_reads 19 56 164 (by decide +kernel)
    exact ⟨t, d', u, d'', hrun, hrun', hyear.trans hyear'.symm⟩

end BinOs.RtcYear
