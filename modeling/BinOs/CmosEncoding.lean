import BinOs.RealTimeClock
import Mathlib.Logic.Function.Iterate

/-! # What the clock's registers stand for

Numbers are stored in BCD or in binary and hours counted to 24 or to 12, as bits 2 and 1
of register B say. -/
namespace BinOs.CmosEncoding
open RealTimeClock

def binaryMode (registerB : UInt8) : Prop := registerB &&& 0x04 ≠ 0

def fullDayMode (registerB : UInt8) : Prop := registerB &&& 0x02 ≠ 0

instance (registerB : UInt8) : Decidable (binaryMode registerB) :=
  inferInstanceAs (Decidable (¬ _))

instance (registerB : UInt8) : Decidable (fullDayMode registerB) :=
  inferInstanceAs (Decidable (¬ _))

def bcd (n : ℕ) : UInt8 := UInt8.ofNat (n / 10 * 16 + n % 10)

def encodeNumber (registerB : UInt8) (n : ℕ) : UInt8 :=
  if binaryMode registerB then UInt8.ofNat n else bcd n

/-- Hour 12 stands for midnight and for noon. -/
def twelveHour (hour : ℕ) : ℕ := if hour % 12 = 0 then 12 else hour % 12

/-- With twelve hours, bit 7 says that it is past noon. -/
def encodeHour (registerB : UInt8) (hour : ℕ) : UInt8 :=
  if fullDayMode registerB then encodeNumber registerB hour
  else if hour < 12 then encodeNumber registerB (twelveHour hour)
  else encodeNumber registerB (twelveHour hour) ||| 0x80

theorem bcdToBinary_bcd : ∀ n < 100, bcdToBinary (bcd n) = UInt8.ofNat n := by
  decide +kernel

theorem encodeNumber_injective (registerB : UInt8) {m n : ℕ} (hm : m < 100) (hn : n < 100)
    (h : encodeNumber registerB m = encodeNumber registerB n) : m = n := by
  have hbyte : UInt8.ofNat m = UInt8.ofNat n := by
    rw [encodeNumber, encodeNumber] at h
    split at h
    · exact h
    · rw [← bcdToBinary_bcd m hm, h, bcdToBinary_bcd n hn]
  have hnat := congrArg UInt8.toNat hbyte
  rw [UInt8.toNat_ofNat', UInt8.toNat_ofNat'] at hnat
  omega

/-- Numerals for seconds and minutes, and for hours, are the same terms in every module. -/
instance neZero_sixty : NeZero 60 := ⟨by decide⟩

instance neZero_hours : NeZero 24 := ⟨by decide⟩

structure Moment where
  second : Fin 60
  minute : Fin 60
  hour : Fin 24
  day : ℕ
  month : ℕ
  year : ℕ
  century : ℕ

namespace Moment

def leapYear (m : Moment) : Prop := m.year % 4 = 0 ∧ (m.year ≠ 0 ∨ m.century % 4 = 0)

instance (m : Moment) : Decidable m.leapYear := inferInstanceAs (Decidable (_ ∧ _))

def daysInMonth (m : Moment) : ℕ :=
  if m.month = 2 then if m.leapYear then 29 else 28
  else if m.month ∈ [4, 6, 9, 11] then 30
  else 31

def nextYear (m : Moment) : Moment :=
  if m.year < 99 then { m with year := m.year + 1 }
  else { m with year := 0, century := m.century + 1 }

def nextMonth (m : Moment) : Moment :=
  if m.month < 12 then { m with month := m.month + 1 } else nextYear { m with month := 1 }

def nextDay (m : Moment) : Moment :=
  if m.day < m.daysInMonth then { m with day := m.day + 1 } else nextMonth { m with day := 1 }

def nextHour (m : Moment) : Moment :=
  if m.hour + 1 ≠ 0 then { m with hour := m.hour + 1 } else nextDay { m with hour := 0 }

def nextMinute (m : Moment) : Moment :=
  if m.minute + 1 ≠ 0 then { m with minute := m.minute + 1 } else nextHour { m with minute := 0 }

/-- One second later. -/
def tick (m : Moment) : Moment :=
  if m.second + 1 ≠ 0 then { m with second := m.second + 1 } else nextMinute { m with second := 0 }

def registers (registerB : UInt8) (m : Moment) : Registers where
  second := encodeNumber registerB m.second
  minute := encodeNumber registerB m.minute
  hour := encodeHour registerB m.hour
  day := encodeNumber registerB m.day
  month := encodeNumber registerB m.month
  year := encodeNumber registerB m.year
  century := encodeNumber registerB m.century

theorem nextMinute_second (m : Moment) : m.nextMinute.second = m.second := by
  simp only [nextMinute, nextHour, nextDay, nextMonth, nextYear]
  split_ifs
  all_goals rfl

theorem tick_second (m : Moment) : m.tick.second = m.second + 1 := by
  rw [tick]
  split_ifs with h
  · rfl
  · rw [nextMinute_second, not_not.mp h]

theorem iterate_tick_second (m : Moment) (t : ℕ) :
    ((tick^[t] m).second : ℕ) = (m.second + t) % 60 := by
  induction t with
  | zero => exact (Nat.mod_eq_of_lt m.second.2).symm
  | succ t ih =>
    rw [Function.iterate_succ_apply', tick_second, Fin.val_add, ih, Fin.val_one, Nat.mod_add_mod,
      Nat.add_assoc]

/-- A chip's clock that starts at a moment. -/
def clock (registerB : UInt8) (start : Moment) : Clock where
  registers t := (tick^[t] start).registers registerB
  distinct t u hle hlt h := by
    have hsecond := encodeNumber_injective registerB (by omega) (by omega) h
    rw [iterate_tick_second, iterate_tick_second] at hsecond
    omega

theorem clock_zero (registerB : UInt8) (start : Moment) :
    (clock registerB start).registers 0 = start.registers registerB :=
  congrArg (registers registerB) (Function.iterate_zero_apply tick start)

end Moment

end BinOs.CmosEncoding
