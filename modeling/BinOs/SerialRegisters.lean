import BinOs.SerialLine
import Mathlib.Tactic.IntervalCases

/-! # The serial port while `init_serial` sets it up

What the device does between two port accesses, and the registers and buffers after each access
of `init_serial`, whatever they were at first. -/
namespace BinOs.SerialRegisters
open SharedTransmitter SerialLine

variable {places : ℕ} {u u' : Uart}

/-- What has gone out and what is still in the transmitter. -/
def carried (u : Uart) : List UInt8 := u.line ++ u.transmitter.pending

/-- What the device may do between two port accesses. -/
structure DeviceEffect (u u' : Uart) : Prop where
  divisorLow : u'.divisorLow = u.divisorLow
  divisorHigh : u'.divisorHigh = u.divisorHigh
  lineControl : u'.lineControl = u.lineControl
  modemControl : u'.modemControl = u.modemControl
  fifoEnabled : u'.fifoEnabled = u.fifoEnabled
  lastRead : u'.lastRead = u.lastRead
  lost : u'.transmitter.lost = u.transmitter.lost
  queue : u'.transmitter.queue.length ≤ u.transmitter.queue.length
  silent : u.loops = true → u'.line = u.line
  delivers : u.loops = false → carried u' = carried u
  dropped : (carried u').Sublist (carried u)

theorem DeviceEffect.refl (u : Uart) : DeviceEffect u u :=
  ⟨rfl, rfl, rfl, rfl, rfl, rfl, rfl, Nat.le_refl _, fun _ => rfl, fun _ => rfl,
    List.Sublist.refl _⟩

theorem receive_eq (places : ℕ) (a : UInt8) (u : Uart) :
    ∃ received, u.receive places a = { u with received } := by
  rw [Uart.receive]
  by_cases hroom : u.received.length < u.capacity places
  · exact ⟨_, if_pos hroom⟩
  · rw [if_neg hroom]
    by_cases hfifo : u.fifoEnabled = true
    · exact ⟨u.received, if_pos hfifo⟩
    · exact ⟨_, if_neg hfifo⟩

theorem arrive_effect (a : UInt8) (u : Uart) : DeviceEffect u (u.arrive places a) := by
  rw [Uart.arrive]
  by_cases hloops : u.loops = true
  · rw [if_pos hloops]
    exact .refl u
  · obtain ⟨received, heq⟩ := receive_eq places a u
    rw [if_neg hloops, heq]
    exact ⟨rfl, rfl, rfl, rfl, rfl, rfl, rfl, Nat.le_refl _, fun _ => rfl, fun _ => rfl,
      List.Sublist.refl _⟩

theorem load_effect (u : Uart) : DeviceEffect u u.load := by
  have hcarried : carried u.load = carried u := congrArg (u.line ++ ·) Transmitter.pending_load
  exact ⟨rfl, rfl, rfl, rfl, rfl, rfl, Transmitter.lost_load, Transmitter.length_load,
    fun _ => rfl, fun _ => hcarried, hcarried ▸ List.Sublist.refl _⟩

theorem finish_effect (u : Uart) : DeviceEffect u (u.finish places) := by
  rw [Uart.finish]
  cases hshifting : u.transmitter.shifting with
  | none => exact .refl u
  | some a =>
    have hcarried : carried u = u.line ++ a :: u.transmitter.unload.pending :=
      congrArg (u.line ++ ·) (Transmitter.pending_unload hshifting)
    by_cases hloops : u.loops = true
    · obtain ⟨received, heq⟩ :=
        receive_eq places a { u with transmitter := u.transmitter.unload }
      simp only [if_pos hloops, heq]
      refine ⟨rfl, rfl, rfl, rfl, rfl, rfl, rfl, Nat.le_refl _, fun _ => rfl,
        fun h => absurd hloops (Bool.eq_false_iff.mp h), ?_⟩
      rw [hcarried]
      exact (List.Sublist.refl _).append (List.sublist_cons_self a _)
    · simp only [if_neg hloops]
      have hsame : u.line ++ [a] ++ u.transmitter.unload.pending = carried u := by
        rw [hcarried, List.append_assoc]
        rfl
      exact ⟨rfl, rfl, rfl, rfl, rfl, rfl, rfl, Nat.le_refl _, fun h => absurd h hloops,
        fun _ => hsame, hsame ▸ List.Sublist.refl _⟩

/-- A character after `init_serial` has set up the line. -/
theorem outb_data {a : UInt8} (hline : u.lineControl = 3) (hfifo : u.fifoEnabled = true)
    (hroom : u.transmitter.queue.length < places) :
    u.outb places 0 a = { u with
      transmitter := { u.transmitter with queue := u.transmitter.queue ++ [a] } } := by
  have hlatch : u.latchOpen = false := by rw [Uart.latchOpen, hline]; rfl
  rw [Uart.outb, hlatch, Uart.capacity, if_pos hfifo, Transmitter.put, if_pos hroom]
  rfl

theorem isTransmitEmpty_iff (u : Uart) : isTransmitEmpty u ≠ 0 ↔ u.transmitter.queue = [] := by
  rw [isTransmitEmpty, Uart.lineStatus]
  by_cases hempty : u.transmitter.queue = []
  · simp only [hempty, if_true, iff_true]
    split <;> split <;> decide
  · simp only [hempty, if_false, iff_false]
    split <;> split <;> decide

/-- The registers after so many accesses of `init_serial`. -/
structure Registers (n : ℕ) (u : Uart) : Prop where
  latchOpen : 2 ≤ n → n < 5 → u.lineControl = 0x80
  divisorLow : 3 ≤ n → u.divisorLow = 3
  divisorHigh : 4 ≤ n → u.divisorHigh = 0
  lineControl : 5 ≤ n → u.lineControl = 3
  fifoEnabled : 6 ≤ n → u.fifoEnabled = true
  loops : 8 ≤ n → n < 11 → u.modemControl = 0x1E
  normal : 11 ≤ n → u.modemControl = 0x0F

/-- The buffers then, when the port was at first as `u₀`. -/
structure Buffers (u₀ : Uart) (n : ℕ) (u : Uart) : Prop where
  queue : 6 ≤ n → u.transmitter.queue.length ≤ n / 9
  lastRead : n < 10 → u.lastRead = u₀.lastRead
  lost : u.transmitter.lost = u₀.transmitter.lost
  untested : n < 9 → (carried u).Sublist (carried u₀)
  tested : (carried u).Sublist (carried u₀ ++ [0xAE])

variable {u₀ : Uart} {n : ℕ}

theorem registers_zero (u : Uart) : Registers 0 u := by constructor <;> omega

theorem buffers_zero (u₀ : Uart) : Buffers u₀ 0 u₀ :=
  ⟨by omega, fun _ => rfl, rfl, fun _ => List.Sublist.refl _, List.sublist_append_left _ _⟩

theorem Registers.device (h : Registers n u) (he : DeviceEffect u u') : Registers n u' where
  latchOpen hle hlt := he.lineControl.trans (h.latchOpen hle hlt)
  divisorLow hle := he.divisorLow.trans (h.divisorLow hle)
  divisorHigh hle := he.divisorHigh.trans (h.divisorHigh hle)
  lineControl hle := he.lineControl.trans (h.lineControl hle)
  fifoEnabled hle := he.fifoEnabled.trans (h.fifoEnabled hle)
  loops hle hlt := he.modemControl.trans (h.loops hle hlt)
  normal hle := he.modemControl.trans (h.normal hle)

theorem Buffers.device (h : Buffers u₀ n u) (he : DeviceEffect u u') : Buffers u₀ n u' where
  queue hle := he.queue.trans (h.queue hle)
  lastRead hlt := he.lastRead.trans (h.lastRead hlt)
  lost := he.lost.trans h.lost
  untested hlt := he.dropped.trans (h.untested hlt)
  tested := he.dropped.trans h.tested

/-- An access that leaves the transmitter alone. -/
theorem Buffers.same (h : Buffers u₀ n u) (hn : n ≠ 5) (htransmitter : u'.transmitter = u.transmitter)
    (hline : u'.line = u.line) (hread : u'.lastRead = u.lastRead) : Buffers u₀ (n + 1) u' := by
  have hcarried : carried u' = carried u := by rw [carried, carried, htransmitter, hline]
  refine ⟨fun hle => ?_, fun hlt => hread.trans (h.lastRead (by omega)),
    (congrArg Transmitter.lost htransmitter).trans h.lost,
    fun hlt => hcarried ▸ h.untested (by omega), hcarried ▸ h.tested⟩
  rw [htransmitter]
  exact (h.queue (by omega)).trans (Nat.div_le_div_right (Nat.le_succ n))

theorem outb_latched (h : u.lineControl = 0x80) (value : UInt8) :
    u.outb places 0 value = { u with divisorLow := value } ∧
      u.outb places 1 value = { u with divisorHigh := value } := by
  have hlatch : u.latchOpen = true := by rw [Uart.latchOpen, h]; rfl
  rw [Uart.outb, Uart.outb, if_pos hlatch, if_pos hlatch]
  exact ⟨rfl, rfl⟩

theorem fifoControl_clears (hplaces : 0 < places) (u : Uart) : u.fifoControl places 0xC7 = { u with
    fifoEnabled := true
    received := []
    transmitter := { u.transmitter with queue := [] } } := by
  have henabled : decide (0 < places ∧ (0xC7 : UInt8) &&& 0x01 ≠ 0) = true :=
    decide_eq_true ⟨hplaces, by decide⟩
  rw [Uart.fifoControl, henabled]
  cases u.fifoEnabled <;> rfl

section Access
variable {offset : ℕ} {value : UInt8} {a : Access} {rest : List Access}

theorem lt_of_access (haccess : initSerial.drop n = a :: rest) : n < 12 := by
  by_contra hge
  rw [List.drop_eq_nil_of_le (Nat.le_of_not_lt hge)] at haccess
  cases haccess

variable (hplaces : 0 < places) (haccess : initSerial.drop n = .outb offset value :: rest)
include hplaces haccess

theorem Registers.outb (h : Registers n u) : Registers (n + 1) (u.outb places offset value) := by
  have hn := lt_of_access haccess
  interval_cases n <;> cases haccess
  · constructor <;> omega
  · exact ⟨fun _ _ => rfl, by omega, by omega, by omega, by omega, by omega, by omega⟩
  · have hlatch := h.latchOpen (by decide) (by decide)
    rw [(outb_latched hlatch _).1]
    exact ⟨fun _ _ => hlatch, fun _ => rfl, by omega, by omega, by omega, by omega, by omega⟩
  · have hlatch := h.latchOpen (by decide) (by decide)
    rw [(outb_latched hlatch _).2]
    exact ⟨fun _ _ => hlatch, fun _ => h.divisorLow (by decide), fun _ => rfl, by omega, by omega,
      by omega, by omega⟩
  · exact ⟨by omega, fun _ => h.divisorLow (by decide), fun _ => h.divisorHigh (by decide),
      fun _ => rfl, by omega, by omega, by omega⟩
  · rw [Uart.outb, fifoControl_clears hplaces]
    exact ⟨by omega, fun _ => h.divisorLow (by decide), fun _ => h.divisorHigh (by decide),
      fun _ => h.lineControl (by decide), fun _ => rfl, by omega, by omega⟩
  · exact ⟨by omega, fun _ => h.divisorLow (by decide), fun _ => h.divisorHigh (by decide),
      fun _ => h.lineControl (by decide), fun _ => h.fifoEnabled (by decide), by omega, by omega⟩
  · exact ⟨by omega, fun _ => h.divisorLow (by decide), fun _ => h.divisorHigh (by decide),
      fun _ => h.lineControl (by decide), fun _ => h.fifoEnabled (by decide), fun _ _ => rfl,
      by omega⟩
  · have hline := h.lineControl (by decide)
    have hlatch : u.latchOpen = false := by rw [Uart.latchOpen, hline]; rfl
    rw [Uart.outb, hlatch]
    exact ⟨by omega, fun _ => h.divisorLow (by decide), fun _ => h.divisorHigh (by decide),
      fun _ => hline, fun _ => h.fifoEnabled (by decide), fun _ _ => h.loops (by decide) (by decide),
      by omega⟩
  · exact ⟨by omega, fun _ => h.divisorLow (by decide), fun _ => h.divisorHigh (by decide),
      fun _ => h.lineControl (by decide), fun _ => h.fifoEnabled (by decide), by omega,
      fun _ => rfl⟩

/-- Only the test byte is put into the transmitter, into a queue that has been cleared. -/
theorem Buffers.outb (hregisters : Registers n u) (h : Buffers u₀ n u) :
    Buffers u₀ (n + 1) (u.outb places offset value) := by
  have hn := lt_of_access haccess
  interval_cases n <;> cases haccess
  · refine h.same (by decide) ?_ ?_ ?_ <;> rw [Uart.outb] <;> split <;> rfl
  · exact h.same (by decide) rfl rfl rfl
  · rw [(outb_latched (hregisters.latchOpen (by decide) (by decide)) _).1]
    exact h.same (by decide) rfl rfl rfl
  · rw [(outb_latched (hregisters.latchOpen (by decide) (by decide)) _).2]
    exact h.same (by decide) rfl rfl rfl
  · exact h.same (by decide) rfl rfl rfl
  · have hbefore := h.untested (by decide)
    have hcleared : (carried (u.outb places 2 0xC7)).Sublist (carried u) := by
      rw [Uart.outb, fifoControl_clears hplaces, carried, carried, Transmitter.pending]
      simp only [List.append_nil]
      exact (List.Sublist.refl _).append (List.sublist_append_left _ _)
    refine ⟨fun _ => ?_, fun _ => ?_, ?_, fun _ => hcleared.trans hbefore,
      hcleared.trans h.tested⟩ <;> rw [Uart.outb, fifoControl_clears hplaces]
    · exact Nat.zero_le _
    · exact h.lastRead (by decide)
    · exact h.lost
  · exact h.same (by decide) rfl rfl rfl
  · exact h.same (by decide) rfl rfl rfl
  · have hempty : u.transmitter.queue.length = 0 := Nat.le_zero.mp (h.queue (by decide))
    rw [outb_data (hregisters.lineControl (by decide)) (hregisters.fifoEnabled (by decide))
      (hempty ▸ hplaces)]
    refine ⟨fun _ => ?_, fun _ => h.lastRead (by decide), h.lost, by omega, ?_⟩
    · rw [List.length_append, hempty]
      decide
    · have hcarried := (h.untested (by decide)).append (List.Sublist.refl [(0xAE : UInt8)])
      rwa [carried, Transmitter.pending, List.append_assoc, List.append_assoc] at hcarried
  · exact h.same (by decide) rfl rfl rfl

end Access

end BinOs.SerialRegisters
