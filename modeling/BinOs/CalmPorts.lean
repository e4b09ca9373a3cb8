import BinOs.HandlerInstallation
import BinOs.HandlerServices

/-! # Functions that send no command

Between the initialization of the controllers and the first interrupt the kernel writes
messages and enables lines. None of that ends an interrupt or masks the timer or the keyboard. -/
namespace BinOs.CalmPorts
open MemoryStrings SerialPort HandlerInstallation HandlerServices InterruptTable InterruptLines
open InterruptSystem PicMasks PicMaskWord PicPair TimedWaits

/-- The first controller after its initialization: the timer and the keyboard enabled. -/
def initialMaster : Pic := ⟨0xFC, 0x20, 0⟩

/-- No command is sent, and the first controller stays as it was initialized. -/
structure Calm (p p' : Ports) : Prop where
  silent : ∃ writes, p' = outbAll writes p ∧
    ∀ w ∈ writes, w.1 ≠ pic1Command ∧ w.1 ≠ pic2Command
  master : p.master = initialMaster → p'.master = initialMaster

theorem Calm.replay {p p' : Ports} (h : Calm p p') (c : Chips) : c.replay (newWrites p p') = c := by
  obtain ⟨writes, rfl, hwrites⟩ := h.silent
  rw [newWrites_outbAll, replay_other hwrites]

theorem Calm.refl (p : Ports) : Calm p p :=
  ⟨⟨[], rfl, fun _ hw => absurd hw List.not_mem_nil⟩, id⟩

theorem Calm.trans {p p' p'' : Ports} (h : Calm p p') (h' : Calm p' p'') : Calm p p'' := by
  obtain ⟨xs, rfl, hxs⟩ := h.silent
  obtain ⟨ys, rfl, hys⟩ := h'.silent
  refine ⟨⟨xs ++ ys, (outbAll_append xs ys p).symm, fun w hw => ?_⟩, h'.master ∘ h.master⟩
  exact (List.mem_append.mp hw).elim (hxs w) (hys w)

theorem calm_sendSerial (out : List UInt8) (p : Ports) : Calm p (sendSerial out p) := by
  refine ⟨⟨_, sendSerial_eq_outbAll out p, fun w hw => ?_⟩, fun h => ?_⟩
  · obtain ⟨c, -, rfl⟩ := List.mem_map.mp hw
    exact not_or.mp serialData_not_command
  · rw [sendSerial_eq]
    exact h

theorem calm_writeSerialText (text : String) (p : Ports) : Calm p (writeSerialText text p) :=
  calm_sendSerial _ p

theorem calm_printSerialText (text : String) (p : Ports) : Calm p (printSerialText text p) :=
  calm_sendSerial _ p

theorem calm_outb {port : UInt16} (h1 : port ≠ pic1Command) (h2 : port ≠ pic2Command) {data : UInt8}
    {p : Ports} (hmaster : p.master = initialMaster → port = pic1Data → data = 0xFC) :
    Calm p (outb port data p) := by
  refine ⟨⟨[(port, data)], rfl, fun w hw => ?_⟩, fun h => ?_⟩
  · rw [List.mem_singleton.mp hw]
    exact ⟨h1, h2⟩
  · rw [outb, if_neg h1]
    split
    case isTrue hport =>
      rw [h, hmaster h hport]
      rfl
    case isFalse => exact h

theorem calm_outb_other {port : UInt16} (h1 : port ≠ pic1Command) (h2 : port ≠ pic2Command)
    (h3 : port ≠ pic1Data) (data : UInt8) (p : Ports) : Calm p (outb port data p) :=
  calm_outb h1 h2 fun _ hport => absurd hport h3

/-- Enabling a line that is enabled already. -/
theorem calm_enable {line : UInt8} (hline : 0xFC &&& ~~~lineBit line = 0xFC) (p : Ports) :
    Calm p (outb 0x21 (inb 0x21 p &&& ~~~lineBit line) p) := by
  refine calm_outb (by decide) (by decide) fun h _ => ?_
  have hmask : inb 0x21 p = 0xFC := by
    change p.master.mask = 0xFC
    rw [h]
    rfl
  rw [hmask, hline]

theorem calm_initTimer (p : Ports) : Calm p (initTimer p) := by
  have hcommand : ∀ q data, Calm q (outb 0x43 data q) :=
    fun q data => calm_outb_other (by decide) (by decide) (by decide) data q
  have hcount : ∀ q data, Calm q (outb 0x40 data q) :=
    fun q data => calm_outb_other (by decide) (by decide) (by decide) data q
  exact (((hcommand p _).trans (hcount _ _)).trans (hcount _ _)).trans (calm_writeSerialText _ _)

theorem calm_enableKeyboard (p : Ports) : Calm p (outb 0x64 0xAE p) :=
  calm_outb_other (by decide) (by decide) (by decide) 0xAE p

theorem calm_enableKeyboardIrq (p : Ports) : Calm p (enableKeyboardIrq p) :=
  (calm_enable (by decide) p).trans (calm_printSerialText _ _)

theorem calm_keyboardInitialized (p : Ports) : Calm p (keyboardInitialized p) :=
  (calm_printSerialText _ p).trans (calm_enableKeyboardIrq _)

theorem calm_initTimerInterrupts (p : Ports) : Calm p (initTimerInterrupts p) :=
  ((calm_enable (by decide) p).trans (calm_writeSerialText _ _)).trans (calm_writeSerialText _ _)

theorem calm_picEnableIrq {irq : UInt8} (h : 8 ≤ irq) (p : Ports) : Calm p (picEnableIrq irq p) := by
  have hslave : ¬ irq < 8 := UInt8.not_lt.mpr h
  rw [picEnableIrq, changeMask, if_neg hslave]
  exact calm_outb_other (by decide) (by decide) (by decide) _ p

theorem vector_ne {irq : UInt8} (h : 8 ≤ irq) (line : UInt8) (hline : line < 8) :
    line + 32 ≠ irq + 32 := by
  intro heq
  have hsame : line = irq := by grind
  rw [hsame] at hline
  exact absurd hline (UInt8.not_lt.mpr h)

/-- Handlers for lines of the second controller leave the gates of the timer and the keyboard. -/
theorem calm_installRequested {requests : List (UInt32 × UInt64 × UInt64)}
    (h : ∀ r ∈ requests, 8 ≤ r.1.toUInt8) (c : Controllers) :
    Calm c.ports (installRequested requests c).ports ∧
      (installRequested requests c).idt 32 = c.idt 32 ∧
      (installRequested requests c).idt 33 = c.idt 33 := by
  induction requests generalizing c with
  | nil => exact ⟨Calm.refl _, rfl, rfl⟩
  | cons r rest ih =>
    have hline := h r List.mem_cons_self
    let after := (uacpiKernelInstallInterruptHandler r.1 r.2.1 r.2.2 c).2.2
    have hafter : after = { idt := Function.update c.idt (r.1.toUInt8 + 32) (gate r.2.1 0x8E)
                            ports := writeSerialText "IDT: Dynamic IRQ handler installed\n"
                              (picEnableIrq r.1.toUInt8 c.ports) } := by
      change (uacpiKernelInstallInterruptHandler _ _ _ c).2.2 = _
      rw [uacpiKernelInstallInterruptHandler, installIrqHandler_eq]
    have hcalm : Calm c.ports after.ports := by
      rw [hafter]
      exact (calm_picEnableIrq hline c.ports).trans (calm_sendSerial _ _)
    have h32 : after.idt 32 = c.idt 32 := by
      rw [hafter]
      exact Function.update_of_ne (vector_ne hline 0 (by decide)) _ _
    have h33 : after.idt 33 = c.idt 33 := by
      rw [hafter]
      exact Function.update_of_ne (vector_ne hline 1 (by decide)) _ _
    obtain ⟨hrest, hrest32, hrest33⟩ := ih (fun r hr => h r (List.mem_cons_of_mem _ hr)) after
    exact ⟨hcalm.trans hrest, hrest32.trans h32, hrest33.trans h33⟩

def initWrites : List (UInt16 × UInt8) :=
  [(0x20, 0x11), (0xA0, 0x11), (0x21, 0x20), (0xA1, 0x28), (0x21, 0x04), (0xA1, 0x02), (0x21, 0x01),
    (0xA1, 0x01), (0x21, 0xFC), (0xA1, 0xFF)]

theorem initPic_eq (p : Ports) :
    initPic p = writeSerialText "PIC: Initialized - Timer and Keyboard enabled\n" (outbAll initWrites p) :=
  rfl

/-- The initialization clears all requests and services. -/
theorem replay_initPic (p : Ports) (c : Chips) : c.replay (newWrites p (initPic p)) = quietChips := by
  rw [initPic_eq, writeSerialText, sendSerial_eq_outbAll, ← outbAll_append, newWrites_outbAll,
    replay_append, replay_serial]
  rfl

theorem initPic_master (p : Ports) : (initPic p).master = initialMaster := by
  rw [initPic_eq, writeSerialText, sendSerial_eq]
  rfl

end BinOs.CalmPorts
