import BinOs.KeyboardRuns
import BinOs.PicPair

/-! # Dispatching hardware interrupts

The dispatcher ends every interrupt at the controllers itself. The timer's handler has
done so already. -/
namespace BinOs.InterruptDispatch
open LineEditor Keyboard KeyboardRuns ShellSession LineEditorRefinement LineEditorRuns PicPair

structure Kernel where
  ports : Ports
  timerTicks : UInt64
  keyboard : Driver

def onIrq0 (k : Kernel) : Kernel :=
  { k with timerTicks := k.timerTicks + 1, ports := picSendEoi 0 k.ports }

/-- `keyboard_handler` with the status and the byte that it reads. `uart` holds what this
one call sends. -/
def onKeyboard (status data : UInt8) (k : Kernel) : Option Kernel := do
  let keyboard ← keyboardHandler status data { k.keyboard with uart := [] }
  some { k with keyboard, ports := sendSerial keyboard.uart k.ports }

def announce (text : String) (k : Kernel) : Kernel :=
  { k with ports := writeSerialText text k.ports }

/-- The switch of `irq_handler`. -/
def serve (irqNumber : UInt64) (status data : UInt8) (k : Kernel) : Option Kernel :=
  if irqNumber = 32 then some (onIrq0 k)
  else if irqNumber = 33 then onKeyboard status data (announce "Keyboard IRQ received\n" k)
  else some (announce "Unhandled IRQ\n" k)

def irqHandler (irqNumber : UInt64) (status data : UInt8) (k : Kernel) : Option Kernel := do
  let k ← serve irqNumber status data k
  let ports := if irqNumber ≥ 40 then outb 0xA0 0x20 k.ports else k.ports
  some { k with ports := outb 0x20 0x20 ports }

/-- How often the end of an interrupt has been written to a controller. -/
def eois (port : UInt16) (s : Ports) : ℕ := s.written.count (port, picEoi)

theorem eois_outb (port p : UInt16) (data : UInt8) (s : Ports) :
    eois port (outb p data s) = eois port s + if (p, data) = (port, picEoi) then 1 else 0 := by
  rw [eois, eois, outb, List.count_append, List.count_singleton]
  simp only [beq_iff_eq]

theorem eois_sendSerial {port : UInt16} (hport : serialData ≠ port) (out : List UInt8) (s : Ports) :
    eois port (sendSerial out s) = eois port s := by
  have hnone : (out.map fun c => (serialData, c)).count (port, picEoi) = 0 := by
    apply List.count_eq_zero.mpr
    intro hmem
    obtain ⟨c, -, hc⟩ := List.mem_map.mp hmem
    exact hport (congrArg Prod.fst hc)
  rw [sendSerial_eq, eois, eois, List.count_append, hnone, Nat.add_zero]

/-- A line raised, and what the keyboard's ports answer while it is served. -/
structure Interrupt where
  line : Fin 16
  status : UInt8
  data : UInt8

def Interrupt.vector (i : Interrupt) : UInt64 := 32 + UInt64.ofNat i.line

variable {k : Kernel} {a : Session}

theorem onKeyboard_spec (h : Represents k.keyboard.shell a) (status data : UInt8) :
    ∃ k' a', onKeyboard status data k = some k' ∧ Represents k'.keyboard.shell a' ∧
      ∀ port, serialData ≠ port → eois port k'.ports = eois port k.ports := by
  have hgoes : ∃ d a', keyboardHandler status data { k.keyboard with uart := [] } = some d ∧
      Represents d.shell a' := by
    by_cases hready : status &&& 0x01 = 0
    · exact ⟨{ k.keyboard with uart := [] }, a, by rw [keyboardHandler, if_pos hready], h⟩
    · obtain ⟨d, a', hd, hrep, -⟩ := goesOn_receive (k := { k.keyboard with uart := [] }) h data
      exact ⟨d, a', by rw [keyboardHandler_eq_receive hready, hd], hrep⟩
  obtain ⟨d, a', hd, hrep⟩ := hgoes
  refine ⟨{ k with keyboard := d, ports := sendSerial d.uart k.ports }, a', ?_, hrep, ?_⟩
  · rw [onKeyboard, hd]
    rfl
  · exact fun port hport => eois_sendSerial hport _ _

/-- Serving a line ends the interrupt only for the timer. -/
theorem serve_spec (h : Represents k.keyboard.shell a) (i : Interrupt) :
    ∃ k' a', serve i.vector i.status i.data k = some k' ∧ Represents k'.keyboard.shell a' ∧
      eois pic1Command k'.ports = eois pic1Command k.ports + (if i.vector = 32 then 1 else 0) ∧
      eois pic2Command k'.ports = eois pic2Command k.ports := by
  have hannounce : ∀ text port, serialData ≠ port →
      eois port (announce text k).ports = eois port k.ports :=
    fun text port hport => eois_sendSerial hport _ _
  have hmaster : serialData ≠ pic1Command := by decide
  have hslave : serialData ≠ pic2Command := by decide
  rw [serve]
  by_cases htimer : i.vector = 32
  · rw [if_pos htimer, if_pos htimer]
    refine ⟨_, a, rfl, h, ?_, ?_⟩
    · exact eois_outb _ _ _ _
    · exact eois_outb _ _ _ _
  rw [if_neg htimer, if_neg htimer]
  by_cases hkeyboard : i.vector = 33
  · rw [if_pos hkeyboard]
    obtain ⟨k', a', hk', hrep, hports⟩ :=
      onKeyboard_spec (k := announce "Keyboard IRQ received\n" k) h i.status i.data
    refine ⟨k', a', hk', hrep, ?_, ?_⟩
    · rw [hports _ hmaster, hannounce _ _ hmaster, Nat.add_zero]
    · rw [hports _ hslave, hannounce _ _ hslave]
  · rw [if_neg hkeyboard]
    exact ⟨_, a, rfl, h, hannounce _ _ hmaster, hannounce _ _ hslave⟩

/-- The master is told once more than it should for the timer, the slave as it should. -/
theorem irqHandler_spec (h : Represents k.keyboard.shell a) (i : Interrupt) :
    ∃ k' a', irqHandler i.vector i.status i.data k = some k' ∧ Represents k'.keyboard.shell a' ∧
      eois pic1Command k'.ports =
        eois pic1Command k.ports + 1 + (if i.vector = 32 then 1 else 0) ∧
      eois pic2Command k'.ports = eois pic2Command k.ports + (if i.vector ≥ 40 then 1 else 0) := by
  obtain ⟨k', a', hserve, hrep, hmaster, hslave⟩ := serve_spec h i
  rw [irqHandler, hserve, Option.bind_eq_bind, Option.bind_some]
  refine ⟨_, a', rfl, hrep, ?_, ?_⟩
  · have hlast : ∀ s : Ports, eois pic1Command (outb 0x20 0x20 s) = eois pic1Command s + 1 :=
      fun s => eois_outb _ _ _ _
    have hother : ∀ s : Ports, eois pic1Command (outb 0xA0 0x20 s) = eois pic1Command s :=
      fun s => eois_outb _ _ _ _
    have hif : eois pic1Command (if i.vector ≥ 40 then outb 0xA0 0x20 k'.ports else k'.ports) =
        eois pic1Command k'.ports := by
      split
      · exact hother _
      · rfl
    rw [hlast, hif, hmaster]
    omega
  · have hlast : ∀ s : Ports, eois pic2Command (outb 0x20 0x20 s) = eois pic2Command s :=
      fun s => eois_outb _ _ _ _
    rw [hlast, ← hslave]
    split
    · exact eois_outb _ _ _ _
    · rfl

def handleAll : List Interrupt → Kernel → Option Kernel
  | [], k => some k
  | i :: rest, k => (irqHandler i.vector i.status i.data k).bind (handleAll rest)

theorem handleAll_spec (h : Represents k.keyboard.shell a) (interrupts : List Interrupt) :
    ∃ k', handleAll interrupts k = some k' ∧
      eois pic1Command k'.ports = eois pic1Command k.ports + interrupts.length +
        interrupts.countP (·.vector = 32) ∧
      eois pic2Command k'.ports =
        eois pic2Command k.ports + interrupts.countP (·.vector ≥ 40) := by
  induction interrupts generalizing k a with
  | nil => exact ⟨k, rfl, rfl, rfl⟩
  | cons i rest ih =>
    obtain ⟨k₁, a₁, hone, hrep, hmaster₁, hslave₁⟩ := irqHandler_spec h i
    obtain ⟨k', hrest, hmaster, hslave⟩ := ih hrep
    refine ⟨k', by rw [handleAll, hone, Option.bind_some, hrest], ?_, ?_⟩
    · rw [hmaster, hmaster₁, List.countP_cons, List.length_cons]
      simp only [decide_eq_true_eq]
      omega
    · rw [hslave, hslave₁, List.countP_cons]
      simp only [decide_eq_true_eq]
      omega

/-- One end for each interrupt at the master, and one at the slave for each of its lines. -/
def Acknowledged (interrupts : List Interrupt) (before after : Ports) : Prop :=
  eois pic1Command after = eois pic1Command before + interrupts.length ∧
    eois pic2Command after = eois pic2Command before + interrupts.countP (·.vector ≥ 40)

/-- Any sequence of interrupts is handled, with one acknowledgement each exactly when the
timer is not among them. -/
theorem acknowledged_iff (h : Reachable k.keyboard.shell) (interrupts : List Interrupt) :
    ∃ k', handleAll interrupts k = some k' ∧
      (Acknowledged interrupts k.ports k'.ports ↔ ∀ i ∈ interrupts, i.vector ≠ 32) := by
  obtain ⟨a, ha⟩ := h.represents
  obtain ⟨k', hrun, hmaster, hslave⟩ := handleAll_spec ha interrupts
  have hcount : interrupts.countP (·.vector = 32) = 0 ↔ ∀ i ∈ interrupts, i.vector ≠ 32 := by
    rw [List.countP_eq_zero]
    simp only [decide_eq_true_eq, ne_eq]
  refine ⟨k', hrun, ?_⟩
  rw [Acknowledged, ← hcount, hmaster, hslave]
  constructor
  · rintro ⟨htold, -⟩
    omega
  · intro hnone
    exact ⟨by omega, rfl⟩

/-- After the boot, with controllers that deliver to the vectors from 32 on. -/
def booted : Kernel where
  ports := ⟨⟨0xFC, 0x20, 0⟩, ⟨0xFF, 0x28, 0⟩, []⟩
  timerTicks := 0
  keyboard := ⟨⟨false, false, false, false, false⟩, shellAfter [], [], []⟩

/-- The make code of A and the mouse's line. -/
theorem acknowledged_key_and_mouse : ∃ k', handleAll [⟨1, 1, 0x1E⟩, ⟨12, 0, 0⟩] booted = some k' ∧
    (Acknowledged [⟨1, 1, 0x1E⟩, ⟨12, 0, 0⟩] booted.ports k'.ports ↔
      ∀ i ∈ [⟨1, 1, 0x1E⟩, ⟨12, 0, 0⟩], Interrupt.vector i ≠ 32) :=
  acknowledged_iff (shellAfter_reachable []) _

/-- One tick of the timer and two ends of interrupt. -/
theorem tick_acknowledged_twice :
    ∃ k', handleAll [⟨0, 0, 0⟩] booted = some k' ∧ ¬ Acknowledged [⟨0, 0, 0⟩] booted.ports k'.ports := by
  refine ⟨_, rfl, fun hack => ?_⟩
  exact absurd hack.1 (by decide)

end BinOs.InterruptDispatch
