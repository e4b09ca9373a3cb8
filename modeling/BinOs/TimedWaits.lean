import BinOs.InterruptDispatch
import Mathlib.Algebra.BigOperators.Group.Finset.Basic
import Mathlib.Logic.Function.Iterate

/-! # Waiting for the timer

Any number of timer interrupts may be served before each read of the tick counter. Times
become ticks of 10 ms in arithmetic of 32 bits: only one of the three conversions rounds
up, and two of them wrap. -/
namespace BinOs.TimedWaits
open MemoryStrings SerialPort PicPair InterruptDispatch

def initTimer (s : Ports) : Ports :=
  let divisor : UInt16 := 11932
  let s := outb 0x43 0x36 s
  let s := outb 0x40 (divisor &&& 0xFF).toUInt8 s
  let s := outb 0x40 ((divisor >>> 8) &&& 0xFF).toUInt8 s
  writeSerialText "PIT: Timer initialized at ~100Hz\n" s

/-- The kernel while a function waits, and how often the function has read the counter. -/
structure Waiting where
  kernel : Kernel
  reads : ℕ

section Waits
variable (arrivals : ℕ → ℕ)

def readTicks (w : Waiting) : UInt64 × Waiting :=
  let kernel := onIrq0^[arrivals w.reads] w.kernel
  (kernel.timerTicks, ⟨kernel, w.reads + 1⟩)

/-- `while (timer_ticks < stop) hlt;` -/
def waitLoop (stop : UInt64) : ℕ → Waiting → Option Waiting
  | 0, _ => none
  | fuel + 1, w =>
    let (now, w) := readTicks arrivals w
    if now < stop then waitLoop stop fuel w else some w

def timerWait (fuel : ℕ) (ticks : UInt32) (w : Waiting) : Option Waiting :=
  let (startTicks, w) := readTicks arrivals w
  waitLoop arrivals (startTicks + ticks.toUInt64) fuel w

def timerWaitMicros (fuel : ℕ) (microseconds : UInt32) (w : Waiting) : Option Waiting :=
  if microseconds = 0 then some w
  else timerWait arrivals fuel ((microseconds + 9999) / 10000) w

def timerWaitMs (fuel : ℕ) (milliseconds : UInt32) (w : Waiting) : Option Waiting :=
  timerWait arrivals fuel (milliseconds / 10) w

def timerWaitSeconds (fuel : ℕ) (seconds : UInt32) (w : Waiting) : Option Waiting :=
  timerWait arrivals fuel (seconds * 100) w

end Waits

/-- By how much the counter has advanced. -/
def advance (w w' : Waiting) : ℕ := (w'.kernel.timerTicks - w.kernel.timerTicks).toNat

/-- The counter, when the wait begins, is more than any wait away from its end. -/
def FarFromEnd (arrivals : ℕ → ℕ) (w : Waiting) : Prop :=
  w.kernel.timerTicks.toNat + arrivals w.reads + 2 ^ 32 ≤ 2 ^ 64

/-- The length of a tick in microseconds. -/
abbrev tickMicros : ℕ := 10000

/-- However the interrupts come, when the wait is over as many ticks have passed as make up
this time. -/
def Lasts (wait : (ℕ → ℕ) → ℕ → Waiting → Option Waiting) (micros : ℕ) : Prop :=
  ∀ arrivals fuel w w', FarFromEnd arrivals w → wait arrivals fuel w = some w' →
    micros ≤ advance w w' * tickMicros

/-- The divisor of 1193180 Hz that is written, low byte first, makes a tick no shorter. -/
theorem initTimer_divisor (s : Ports) : ∃ low high rest, (initTimer s).written =
    s.written ++ [(0x43, 0x36), (0x40, low), (0x40, high)] ++ rest ∧
      (∀ write ∈ rest, write.1 = serialData) ∧
      1193180 * tickMicros ≤ (low.toNat + 256 * high.toNat) * 1000000 := by
  let text := writeSerial (ascii "PIT: Timer initialized at ~100Hz\n")
  refine ⟨0x9C, 0x2E, text.map fun c => (serialData, c), ?_, ?_, by decide⟩
  · rw [initTimer, writeSerialText, sendSerial_eq]
    simp only [outb, List.append_assoc]
    rfl
  · intro write hwrite
    obtain ⟨c, -, rfl⟩ := List.mem_map.mp hwrite
    rfl

variable {arrivals : ℕ → ℕ} {w w' : Waiting} {stop : UInt64}

theorem iterate_onIrq0 (n : ℕ) (k : Kernel) :
    (onIrq0^[n] k).timerTicks = k.timerTicks + UInt64.ofNat n := by
  induction n with
  | zero => exact (UInt64.add_zero _).symm
  | succ n ih =>
    rw [Function.iterate_succ_apply', onIrq0, ih, UInt64.ofNat_add, ← UInt64.add_assoc]
    rfl

/-- A read gives the counter after the interrupts served until then. -/
theorem readTicks_toNat (arrivals : ℕ → ℕ) (w : Waiting)
    (hfits : w.kernel.timerTicks.toNat + arrivals w.reads < 2 ^ 64) :
    (readTicks arrivals w).1.toNat = w.kernel.timerTicks.toNat + arrivals w.reads := by
  rw [readTicks, iterate_onIrq0, UInt64.toNat_add, UInt64.toNat_ofNat', Nat.add_mod_mod]
  exact Nat.mod_eq_of_lt hfits

theorem waitLoop_passed {fuel : ℕ} (h : waitLoop arrivals stop fuel w = some w') :
    stop ≤ w'.kernel.timerTicks := by
  induction fuel generalizing w with
  | zero => cases h
  | succ fuel ih =>
    rw [waitLoop] at h
    dsimp only at h
    split at h
    · exact ih h
    · next hpassed =>
      cases h
      exact UInt64.not_lt.mp hpassed

/-- A wait ends no sooner than asked for. -/
theorem timerWait_passed {fuel : ℕ} {ticks : UInt32} (hfar : FarFromEnd arrivals w)
    (h : timerWait arrivals fuel ticks w = some w') : ticks.toNat ≤ advance w w' := by
  have hticks := ticks.toNat_lt
  rw [FarFromEnd] at hfar
  have hstart := readTicks_toNat arrivals w (by omega)
  have hloop : waitLoop arrivals ((readTicks arrivals w).1 + ticks.toUInt64) fuel
      (readTicks arrivals w).2 = some w' := h
  have hpassed := UInt64.le_iff_toNat_le.mp (waitLoop_passed hloop)
  rw [UInt64.toNat_add, hstart, UInt32.toNat_toUInt64, Nat.mod_eq_of_lt (by omega)] at hpassed
  rw [advance, UInt64.toNat_sub_of_le _ _ (UInt64.le_iff_toNat_le.mpr (by omega))]
  omega

/-- No interrupt before the first two reads, and one before every other. -/
def steady (i : ℕ) : ℕ := if i < 2 then 0 else 1

theorem readTicks_early (h : w.reads < 2) :
    readTicks steady w = (w.kernel.timerTicks, { w with reads := w.reads + 1 }) := by
  rw [readTicks, steady, if_pos h]
  rfl

theorem readTicks_steady (h : 2 ≤ w.reads) :
    readTicks steady w = (w.kernel.timerTicks + 1, ⟨onIrq0 w.kernel, w.reads + 1⟩) := by
  rw [readTicks, steady, if_neg (Nat.not_lt.mpr h)]
  rfl

theorem toNat_succ {t : UInt64} (h : t.toNat + 1 < 2 ^ 64) : (t + 1).toNat = t.toNat + 1 := by
  rw [UInt64.toNat_add]
  exact Nat.mod_eq_of_lt h

/-- With one tick a pass the loop ends at its mark. -/
theorem waitLoop_steady (stop : UInt64) (remaining : ℕ) (hreads : 2 ≤ w.reads)
    (hstop : w.kernel.timerTicks.toNat + (remaining + 1) = stop.toNat) :
    ∃ w', waitLoop steady stop (remaining + 1) w = some w' ∧ w'.kernel.timerTicks = stop := by
  have hbound := stop.toNat_lt
  induction remaining generalizing w with
  | zero =>
    have hmark : w.kernel.timerTicks + 1 = stop :=
      UInt64.toNat_inj.mp ((toNat_succ (by omega)).trans hstop)
    refine ⟨⟨onIrq0 w.kernel, w.reads + 1⟩, ?_, hmark⟩
    simp only [waitLoop, readTicks_steady hreads, hmark]
    exact if_neg (UInt64.lt_irrefl stop)
  | succ remaining ih =>
    have hnext := toNat_succ (t := w.kernel.timerTicks) (by omega)
    have hbefore : w.kernel.timerTicks + 1 < stop := UInt64.lt_iff_toNat_lt.mpr (by omega)
    obtain ⟨w', hloop, hmark⟩ :=
      ih (w := ⟨onIrq0 w.kernel, w.reads + 1⟩) (Nat.le_succ_of_le hreads) (by
        change (w.kernel.timerTicks + 1).toNat + _ = _
        omega)
    refine ⟨w', ?_, hmark⟩
    rw [waitLoop, readTicks_steady hreads]
    exact (if_pos hbefore).trans hloop

/-- The kernel at the start of a wait, with no tick counted yet. -/
def startingWait : Waiting := ⟨booted, 0⟩

theorem startingWait_far : FarFromEnd steady startingWait := by
  rw [FarFromEnd]
  decide

/-- A wait that is over as soon as the ticks asked for have passed. -/
theorem timerWait_steady (ticks : UInt32) :
    ∃ fuel w', timerWait steady fuel ticks startingWait = some w' ∧
      advance startingWait w' = ticks.toNat := by
  have hzero : booted.timerTicks = 0 := rfl
  have hsum : (0 + ticks.toUInt64).toNat = ticks.toNat := by
    rw [UInt64.zero_add, UInt32.toNat_toUInt64]
  have hadvance : ∀ w', w'.kernel.timerTicks = 0 + ticks.toUInt64 →
      advance startingWait w' = ticks.toNat := by
    intro w' hmark
    rw [advance, hmark, startingWait, hzero, UInt64.sub_zero, hsum]
  have hstart : ∀ fuel, timerWait steady (fuel + 1) ticks startingWait =
      if 0 < 0 + ticks.toUInt64 then waitLoop steady (0 + ticks.toUInt64) fuel ⟨booted, 2⟩
      else some ⟨booted, 2⟩ := by
    intro fuel
    have hfirst : readTicks steady startingWait = (0, ⟨booted, 1⟩) :=
      readTicks_early (by decide)
    have hsecond : readTicks steady ⟨booted, 1⟩ = (0, ⟨booted, 2⟩) :=
      readTicks_early (by decide)
    rw [timerWait, hfirst]
    change waitLoop steady (0 + ticks.toUInt64) (fuel + 1) ⟨booted, 1⟩ = _
    rw [waitLoop, hsecond]
  by_cases hnone : 0 < 0 + ticks.toUInt64
  · have hpos : 0 < ticks.toNat := hsum ▸ UInt64.lt_iff_toNat_lt.mp hnone
    obtain ⟨w', hloop, hmark⟩ := waitLoop_steady (w := ⟨booted, 2⟩)
      (0 + ticks.toUInt64) (ticks.toNat - 1) (Nat.le_refl 2) (by
        rw [hzero, hsum, Nat.sub_add_cancel hpos]
        exact Nat.zero_add _)
    exact ⟨_, w', (hstart _).trans ((if_pos hnone).trans hloop), hadvance w' hmark⟩
  · have hpast := UInt64.le_iff_toNat_le.mp (UInt64.not_lt.mp hnone)
    have hmark : (0 : UInt64) = 0 + ticks.toUInt64 :=
      UInt64.toNat_inj.mp (Nat.le_antisymm (Nat.zero_le _) hpast)
    exact ⟨1, ⟨booted, 2⟩, (hstart 0).trans (if_neg hnone), hadvance _ hmark⟩

theorem timerWait_lasts_iff (ticks : UInt32) (micros : ℕ) :
    Lasts (fun arrivals fuel => timerWait arrivals fuel ticks) micros ↔
      micros ≤ ticks.toNat * tickMicros := by
  constructor
  · intro h
    obtain ⟨fuel, w', hrun, hadvance⟩ := timerWait_steady ticks
    have hlasts := h steady fuel startingWait w' startingWait_far hrun
    rwa [hadvance] at hlasts
  · intro h arrivals fuel w w' hfar hrun
    exact Nat.le_trans h (Nat.mul_le_mul_right _ (timerWait_passed hfar hrun))

theorem micros_last_iff (u : UInt32) :
    Lasts (fun arrivals fuel => timerWaitMicros arrivals fuel u) u.toNat ↔
      u.toNat ≤ 4294957296 := by
  have hbound := u.toNat_lt
  by_cases hzero : u = 0
  · subst hzero
    exact ⟨fun _ => Nat.zero_le _, fun _ _ _ _ _ _ _ => Nat.zero_le _⟩
  · have hticks : ((u + 9999) / 10000).toNat = (u.toNat + 9999) % 2 ^ 32 / 10000 := by
      rw [UInt32.toNat_div, UInt32.toNat_add]
      rfl
    have hwait : (fun arrivals fuel => timerWaitMicros arrivals fuel u) =
        fun arrivals fuel => timerWait arrivals fuel ((u + 9999) / 10000) := by
      funext arrivals fuel w
      exact if_neg hzero
    have hpos : u.toNat ≠ 0 := fun h => hzero (UInt32.toNat_inj.mp h)
    rw [hwait, timerWait_lasts_iff, hticks, tickMicros]
    omega

theorem ms_last_iff (m : UInt32) :
    Lasts (fun arrivals fuel => timerWaitMs arrivals fuel m) (m.toNat * 1000) ↔
      10 ∣ m.toNat := by
  have hticks : (m / 10).toNat = m.toNat / 10 := UInt32.toNat_div m 10
  have hlasts := timerWait_lasts_iff (m / 10) (m.toNat * 1000)
  rw [hticks, tickMicros] at hlasts
  exact hlasts.trans (by omega)

theorem seconds_last_iff (s : UInt32) :
    Lasts (fun arrivals fuel => timerWaitSeconds arrivals fuel s) (s.toNat * 1000000) ↔
      s.toNat ≤ 42949672 := by
  have hticks : (s * 100).toNat = s.toNat * 100 % 2 ^ 32 := UInt32.toNat_mul s 100
  have hlasts := timerWait_lasts_iff (s * 100) (s.toNat * 1000000)
  rw [hticks, tickMicros] at hlasts
  exact hlasts.trans (by omega)

/-- Whenever the waits end, the ticks that have passed make up the time asked for, exactly
when: for microseconds, rounding up does not wrap; for milliseconds, they make whole ticks;
for seconds, the number of ticks does not wrap. -/
theorem timed_waits_last_iff (u m s : UInt32) :
    (Lasts (fun arrivals fuel => timerWaitMicros arrivals fuel u) u.toNat ↔
      u.toNat ≤ 4294957296) ∧
    (Lasts (fun arrivals fuel => timerWaitMs arrivals fuel m) (m.toNat * 1000) ↔ 10 ∣ m.toNat) ∧
    (Lasts (fun arrivals fuel => timerWaitSeconds arrivals fuel s) (s.toNat * 1000000) ↔
      s.toNat ≤ 42949672) :=
  ⟨micros_last_iff u, ms_last_iff m, seconds_last_iff s⟩

/-- A wait for 5 ms ends with no tick passed, one for the last microsecond and one for
42949673 s too early as well. -/
theorem waits_end_early :
    (∃ w', timerWaitMs steady 1 5 startingWait = some w' ∧ FarFromEnd steady startingWait ∧
      advance startingWait w' = 0) ∧
    ¬ Lasts (fun arrivals fuel => timerWaitMs arrivals fuel 5) ((5 : UInt32).toNat * 1000) ∧
    ¬ Lasts (fun arrivals fuel => timerWaitMicros arrivals fuel 4294967295)
      (4294967295 : UInt32).toNat ∧
    ¬ Lasts (fun arrivals fuel => timerWaitSeconds arrivals fuel 42949673)
      ((42949673 : UInt32).toNat * 1000000) := by
  refine ⟨⟨⟨booted, 2⟩, rfl, startingWait_far, rfl⟩, ?_, ?_, ?_⟩
  · rw [ms_last_iff]
    decide
  · rw [micros_last_iff]
    decide
  · rw [seconds_last_iff]
    decide

theorem waitLoop_returns {n fuel : ℕ} (hfuel : n < fuel)
    (hstop : stop.toNat ≤ w.kernel.timerTicks.toNat +
      ∑ i ∈ Finset.range (n + 1), arrivals (w.reads + i))
    (hfits : w.kernel.timerTicks.toNat + ∑ i ∈ Finset.range (n + 1), arrivals (w.reads + i) <
      2 ^ 64) : (waitLoop arrivals stop fuel w).isSome := by
  induction n generalizing fuel w with
  | zero =>
    obtain ⟨fuel, rfl⟩ := Nat.exists_eq_add_of_le' hfuel
    rw [Finset.sum_range_one, Nat.add_zero] at hstop hfits
    have hread := readTicks_toNat arrivals w hfits
    rw [waitLoop]
    dsimp only
    rw [if_neg (UInt64.not_lt.mpr (UInt64.le_iff_toNat_le.mpr (hread ▸ hstop)))]
    rfl
  | succ n ih =>
    obtain ⟨fuel, rfl⟩ := Nat.exists_eq_add_of_le' (Nat.zero_lt_of_lt hfuel)
    have hfirst : arrivals (w.reads + 0) = arrivals w.reads := rfl
    rw [Finset.sum_range_succ', hfirst] at hstop hfits
    have hread := readTicks_toNat arrivals w (by omega)
    have hrest : ∀ i, arrivals (w.reads + (i + 1)) =
        arrivals ((readTicks arrivals w).2.reads + i) := by
      intro i
      rw [Nat.add_comm i 1, ← Nat.add_assoc]
      rfl
    simp only [hrest] at hstop hfits
    rw [waitLoop]
    dsimp only
    split
    · refine ih (by omega) ?_ ?_
      · change _ ≤ (readTicks arrivals w).1.toNat + _
        omega
      · change (readTicks arrivals w).1.toNat + _ < _
        omega
    · rfl

/-- A wait ends with the read by which the ticks asked for have come. -/
theorem timerWait_returns {n fuel : ℕ} {ticks : UInt32} (hfuel : n < fuel)
    (henough : ticks.toNat ≤ ∑ i ∈ Finset.range (n + 1), arrivals (w.reads + 1 + i))
    (hfits : w.kernel.timerTicks.toNat + arrivals w.reads +
      ∑ i ∈ Finset.range (n + 1), arrivals (w.reads + 1 + i) < 2 ^ 64) :
    (timerWait arrivals fuel ticks w).isSome := by
  have hstart := readTicks_toNat arrivals w (by omega)
  refine waitLoop_returns hfuel ?_ ?_
  · change _ ≤ (readTicks arrivals w).1.toNat + _
    rw [UInt64.toNat_add, UInt32.toNat_toUInt64]
    exact Nat.le_trans (Nat.mod_le _ _) (Nat.add_le_add_left henough _)
  · change (readTicks arrivals w).1.toNat +
      ∑ i ∈ Finset.range (n + 1), arrivals (w.reads + 1 + i) < _
    omega

end BinOs.TimedWaits
