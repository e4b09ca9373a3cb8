import BinOs.CmosEncoding

/-! # A consistent reading of the clock

Two readings of the seconds that agree within a minute leave no tick between them, and
everything that the first pass read lies between them. -/
namespace BinOs.RtcSnapshot
open RealTimeClock CmosEncoding

variable {w : Chip} {d d' : Rtc}

/-- A pass that read the seconds at one instant and the rest later, up to another. -/
structure ReadFrom (clock : Clock) (r : Registers) (first final : ℕ) : Prop where
  second : r.second = (clock.registers first).second
  minute : ∃ t, first ≤ t ∧ t ≤ final ∧ r.minute = (clock.registers t).minute
  hour : ∃ t, first ≤ t ∧ t ≤ final ∧ r.hour = (clock.registers t).hour
  day : ∃ t, first ≤ t ∧ t ≤ final ∧ r.day = (clock.registers t).day
  month : ∃ t, first ≤ t ∧ t ≤ final ∧ r.month = (clock.registers t).month
  year : ∃ t, first ≤ t ∧ t ≤ final ∧ r.year = (clock.registers t).year
  century : ∃ t, first ≤ t ∧ t ≤ final ∧ r.century = (clock.registers t).century
  first_le : first ≤ final

/-- Without a tick in between, a pass shows one instant. -/
theorem ReadFrom.snapshot {clock : Clock} {r : Registers} {t : ℕ} (h : ReadFrom clock r t t) :
    r = clock.registers t := by
  have hone : ∀ {f : Registers → UInt8},
      (∃ u, t ≤ u ∧ u ≤ t ∧ f r = f (clock.registers u)) → f r = f (clock.registers t) := by
    rintro f ⟨u, hlo, hhi, hu⟩
    rw [hu, Nat.le_antisymm hhi hlo]
  obtain ⟨hsecond, hminute, hhour, hday, hmonth, hyear, hcentury, -⟩ := h
  have hminute := hone (f := Registers.minute) hminute
  have hhour := hone (f := Registers.hour) hhour
  have hday := hone (f := Registers.day) hday
  have hmonth := hone (f := Registers.month) hmonth
  have hyear := hone (f := Registers.year) hyear
  have hcentury := hone (f := Registers.century) hcentury
  cases r
  simp only at hsecond hminute hhour hday hmonth hyear hcentury
  rw [hsecond, hminute, hhour, hday, hmonth, hyear, hcentury]

theorem readRtcRegister_time_le (reg : UInt8) (d : Rtc) :
    d.time ≤ (readRtcRegister w reg d).2.time :=
  Nat.le_trans (access_time_le d) (readRtcRegister_time reg d)

theorem readRegisters_readFrom (d : Rtc) :
    ∃ first, (access w d).time ≤ first ∧
      ReadFrom w.clock (readRegisters w d).1 first (readRegisters w d).2.time := by
  let d₁ := (readRtcRegister w rtcSeconds d).2
  let d₂ := (readRtcRegister w rtcMinutes d₁).2
  let d₃ := (readRtcRegister w rtcHours d₂).2
  let d₄ := (readRtcRegister w rtcDay d₃).2
  let d₅ := (readRtcRegister w rtcMonth d₄).2
  let d₆ := (readRtcRegister w rtcYear d₅).2
  let d₇ := (readRtcRegister w rtcCentury d₆).2
  have h₂ : d₁.time ≤ d₂.time := readRtcRegister_time_le _ _
  have h₃ : d₂.time ≤ d₃.time := readRtcRegister_time_le _ _
  have h₄ : d₃.time ≤ d₄.time := readRtcRegister_time_le _ _
  have h₅ : d₄.time ≤ d₅.time := readRtcRegister_time_le _ _
  have h₆ : d₅.time ≤ d₆.time := readRtcRegister_time_le _ _
  have h₇ : d₆.time ≤ d₇.time := readRtcRegister_time_le _ _
  have hend : (readRegisters w d).2.time = d₇.time := rfl
  refine ⟨d₁.time, readRtcRegister_time _ _, ?_⟩
  rw [hend]
  constructor
  case second => exact readRtcRegister_clock (by decide) (by decide) d
  case minute =>
    exact ⟨d₂.time, by omega, by omega, readRtcRegister_clock (by decide) (by decide) d₁⟩
  case hour => exact ⟨d₃.time, by omega, by omega, readRtcRegister_clock (by decide) (by decide) d₂⟩
  case day => exact ⟨d₄.time, by omega, by omega, readRtcRegister_clock (by decide) (by decide) d₃⟩
  case month =>
    exact ⟨d₅.time, by omega, by omega, readRtcRegister_clock (by decide) (by decide) d₄⟩
  case year => exact ⟨d₆.time, by omega, by omega, readRtcRegister_clock (by decide) (by decide) d₅⟩
  case century =>
    exact ⟨d₇.time, by omega, by omega, readRtcRegister_clock (by decide) (by decide) d₆⟩
  case first_le => omega

theorem readRegisters_history (d : Rtc) : (readRegisters w d).2.history = d.history := by
  rw [readRegisters, readRtcRegister_history, readRtcRegister_history, readRtcRegister_history,
    readRtcRegister_history, readRtcRegister_history, readRtcRegister_history,
    readRtcRegister_history]

theorem waitForRtcUpdate_later {fuel : ℕ} (h : waitForRtcUpdate w fuel d = some d') :
    d.time ≤ d'.time ∧ d'.history = d.history := by
  have hread : d.time ≤ (rtcIsUpdating w d).2.time ∧
      (rtcIsUpdating w d).2.history = d.history :=
    ⟨readRtcRegister_time_le rtcRegA d, readRtcRegister_history rtcRegA d⟩
  induction fuel generalizing d with
  | zero => cases h
  | succ fuel ih =>
    rw [waitForRtcUpdate] at h
    split at h
    · obtain ⟨htime, hhistory⟩ := ih h
        ⟨readRtcRegister_time_le rtcRegA _, readRtcRegister_history rtcRegA _⟩
      exact ⟨Nat.le_trans hread.1 htime, hhistory.trans hread.2⟩
    · cases h
      exact hread

/-- What every pass of the loop does: a reading, and another that starts after it. -/
def Genuine (clock : Clock) (i : Comparison) : Prop :=
  ∃ first final again, i.started ≤ first ∧ ReadFrom clock i.last first final ∧ final ≤ again ∧
    i.kept.second = (clock.registers again).second ∧ again ≤ i.ended

/-- Two equal readings within a minute are one instant's. -/
theorem Genuine.snapshot {clock : Clock} {i : Comparison} (h : Genuine clock i)
    (hequal : i.last = i.kept) (hspan : i.ended < i.started + 60) :
    ∃ t, i.started ≤ t ∧ t ≤ i.ended ∧ i.kept = clock.registers t := by
  obtain ⟨first, final, again, hstart, hread, hafter, hsecond, hend⟩ := h
  have hfirst := hread.first_le
  have hsame : (clock.registers first).second = (clock.registers again).second := by
    rw [← hsecond, ← hequal, hread.second]
  have hnone : first = again := clock.distinct first again (by omega) (by omega) hsame
  have hfinal : final = first := by omega
  rw [hfinal] at hread
  exact ⟨first, hstart, by omega, hequal ▸ hread.snapshot⟩

theorem readTwice_genuine {fuel : ℕ} {i : Comparison} (h : readTwice w fuel d = some (i, d')) :
    Genuine w.clock i ∧ d'.history = d.history ++ [i] := by
  obtain ⟨d₂, hwait, heq⟩ := Option.map_eq_some_iff.mp h
  obtain ⟨hi, hd'⟩ := Prod.mk.inj heq
  obtain ⟨hlater, hkeeps⟩ := waitForRtcUpdate_later hwait
  obtain ⟨first, hstart, hread⟩ := readRegisters_readFrom (w := w) d
  obtain ⟨again, hagain, hread'⟩ := readRegisters_readFrom (w := w) d₂
  have haccess : d₂.time ≤ (access w d₂).time := access_time_le d₂
  have hafter := Nat.le_trans hlater (Nat.le_trans haccess hagain)
  have hhistory : (readRegisters w d₂).2.history = d.history := by
    rw [readRegisters_history, hkeeps, readRegisters_history]
  rw [← hd', ← hi]
  exact ⟨⟨first, _, again, hstart, hread, hafter, hread'.second, hread'.first_le⟩,
    congrArg (· ++ _) hhistory⟩

/-- The loop leaves with the readings of its last pass, which are equal. -/
theorem readUntilStable_history {fuel passes : ℕ} {raw : Registers}
    (h : readUntilStable w fuel passes d = some (raw, d')) :
    ∃ earlier i, d'.history = d.history ++ (earlier ++ [i]) ∧ Genuine w.clock i ∧
      i.last = i.kept ∧ i.kept = raw := by
  induction passes generalizing d with
  | zero => cases h
  | succ passes ih =>
    obtain ⟨⟨i, d₁⟩, hpass, hnext⟩ := Option.bind_eq_some_iff.mp h
    obtain ⟨hgenuine, hhistory⟩ := readTwice_genuine hpass
    dsimp only at hnext
    split at hnext
    · obtain ⟨earlier, j, hj, hrest⟩ := ih hnext
      refine ⟨i :: earlier, j, ?_, hrest⟩
      rw [hj, hhistory, List.append_assoc]
      rfl
    · rename_i hequal
      cases hnext
      exact ⟨[], i, hhistory, hgenuine, not_not.mp hequal, rfl⟩

/-- The comparisons that a call adds to the history. -/
def comparisons (d d' : Rtc) : List Comparison := d'.history.drop d.history.length

/-- If no pass of the loop takes a minute, the registers kept are those of one instant of
the last pass. -/
theorem readRtcTime_snapshot {fuel : ℕ} {t : RtcTime} (h : readRtcTime w fuel d = some (t, d'))
    (hspan : ∀ i ∈ comparisons d d', i.ended < i.started + 60) :
    ∃ i, (comparisons d d').getLast? = some i ∧ t = decode w.registerB i.kept ∧
      ∃ instant, i.started ≤ instant ∧ instant ≤ i.ended ∧
        i.kept = w.clock.registers instant := by
  obtain ⟨d₁, hwait, hrest⟩ := Option.bind_eq_some_iff.mp h
  obtain ⟨⟨raw, d₂⟩, hloop, heq⟩ := Option.bind_eq_some_iff.mp hrest
  obtain ⟨ht, hd'⟩ := Prod.mk.inj (Option.some.inj heq)
  obtain ⟨earlier, i, hi, hgenuine, hequal, hkept⟩ := readUntilStable_history hloop
  have hnew : comparisons d d' = earlier ++ [i] := by
    rw [comparisons, ← hd', readRtcRegister_history, hi, (waitForRtcUpdate_later hwait).2,
      List.drop_left]
  rw [hnew] at hspan ⊢
  refine ⟨i, List.getLast?_concat, ?_, ?_⟩
  · rw [← ht, hkept, readRtcRegister_registerB]
  · exact hgenuine.snapshot hequal (hspan i (List.mem_append_right _ List.mem_cons_self))

def newYearsEve : Moment := ⟨59, 59, 23, 31, 12, 99, 19⟩

/-- The year 2000 begins between two readings of the first pass. -/
def tickingChip : Chip where
  clock := newYearsEve.clock 0x02
  advance n := if n = 7 then 1 else 0
  registerA _ := 0
  registerB := 0x02

def unread : Rtc := ⟨0, 0, 0, 0, [], []⟩

theorem readRtcTime_snapshot_newYear : ∃ t d', readRtcTime tickingChip 2 unread = some (t, d') ∧
    ∃ i, (comparisons unread d').getLast? = some i ∧ t = decode tickingChip.registerB i.kept ∧
      ∃ instant, i.started ≤ instant ∧ instant ≤ i.ended ∧
        i.kept = tickingChip.clock.registers instant := by
  have hsome : (readRtcTime tickingChip 2 unread).isSome := by decide +kernel
  have hshort : (readRtcTime tickingChip 2 unread).all (fun r =>
      (comparisons unread r.2).all fun i => i.ended < i.started + 60) := by decide +kernel
  obtain ⟨⟨t, d'⟩, hrun⟩ := Option.isSome_iff_exists.mp hsome
  rw [hrun, Option.all_some, List.all_eq_true] at hshort
  exact ⟨t, d', hrun, readRtcTime_snapshot hrun fun i hi => of_decide_eq_true (hshort i hi)⟩

end BinOs.RtcSnapshot
