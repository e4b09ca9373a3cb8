import BinOs.PicMaskWord
import BinOs.PriorityLines
import Mathlib.Data.Fintype.Basic

/-! # Requests and services in the two interrupt controllers

Beside its registers a controller keeps the lines that have been requested and those that
are in service. The second controller puts its line forward on line 2 of the first. -/
namespace BinOs.InterruptLines
open PicMasks PicMaskWord PicPair PriorityLines

/-- Numerals for the lines of one controller are the same terms in every module. -/
instance neZero_controllerLines : NeZero 8 := ⟨by decide⟩

/-- `readsService` tells which of the two a read of the command port gives. -/
structure Chip where
  lines : Lines (Fin 8)
  readsService : Bool

/-- The start of an initialization, a choice of the register to read, and the end of an
interrupt that names no line. Others are not sent. -/
def Chip.command (data : UInt8) (c : Chip) : Chip :=
  if data &&& 0x10 ≠ 0 then ⟨⟨∅, ∅⟩, false⟩
  else if data &&& 0x18 = 0x08 then
    if data &&& 0x03 = 0x02 then { c with readsService := false }
    else if data &&& 0x03 = 0x03 then { c with readsService := true }
    else c
  else if data &&& 0xE0 = 0x20 then { c with lines := c.lines.endOfInterrupt }
  else c

structure Chips where
  master : Chip
  slave : Chip

def Chips.write (c : Chips) (w : UInt16 × UInt8) : Chips where
  master := if w.1 = pic1Command then c.master.command w.2 else c.master
  slave := if w.1 = pic2Command then c.slave.command w.2 else c.slave

def Chips.replay (writes : List (UInt16 × UInt8)) (c : Chips) : Chips := writes.foldl Chips.write c

/-- What has been written between two states of the ports. -/
def newWrites (s s' : Ports) : List (UInt16 × UInt8) := s'.written.drop s.written.length

/-- A change of one line, at the controller that has it. -/
def Chips.onLine (change : Lines (Fin 8) → Fin 8 → Lines (Fin 8)) (line : Fin 16) (c : Chips) :
    Chips :=
  if h : (line : ℕ) < 8 then
    { c with master := { c.master with lines := change c.master.lines ⟨line, h⟩ } }
  else
    { c with slave := { c.slave with lines := change c.slave.lines ⟨line - 8, by omega⟩ } }

def Chips.request : Fin 16 → Chips → Chips := Chips.onLine Lines.request
def Chips.withdraw : Fin 16 → Chips → Chips := Chips.onLine Lines.withdraw

/-- A line of the second controller is acknowledged on line 2 of the first as well. -/
def Chips.acknowledge (line : Fin 16) (c : Chips) : Chips :=
  let c := c.onLine Lines.acknowledge line
  if (line : ℕ) < 8 then c
  else { c with master := { c.master with lines := c.master.lines.acknowledge 2 } }

def enabled (mask : UInt8) : Finset (Fin 8) := Finset.univ.filter fun i => bit mask i = false

def slaveOutput (s : Ports) (c : Chips) : Option (Fin 8) :=
  c.slave.lines.putForward (enabled s.slave.mask)

def masterLines (s : Ports) (c : Chips) : Lines (Fin 8) :=
  if (slaveOutput s c).isSome then c.master.lines.request 2 else c.master.lines

/-- The line with which the pair interrupts the processor. -/
def interrupting (s : Ports) (c : Chips) : Option (Fin 16) :=
  ((masterLines s c).putForward (enabled s.master.mask)).bind fun i =>
    if i = 2 then (slaveOutput s c).map (Fin.natAdd 8) else some (Fin.castAdd 8 i)

/-- The upper five bits of the offset and the number of the line in its controller. -/
def vector (s : Ports) (line : Fin 16) : UInt8 :=
  if (line : ℕ) < 8 then s.master.offset &&& 0xF8 ||| UInt8.ofNat line
  else s.slave.offset &&& 0xF8 ||| UInt8.ofNat (line - 8)

abbrev picReadIrr : UInt8 := 0x0A
abbrev picReadIsr : UInt8 := 0x0B

def ioWait (s : Ports) : Ports := outb 0x80 0 s

/-- The offsets are passed on in their low bytes. -/
def picRemap (offset1 offset2 : ℤ) (s : Ports) : Ports :=
  let s := ioWait (outb pic1Command 0x11 s)
  let s := ioWait (outb pic2Command 0x11 s)
  let s := ioWait (outb pic1Data (UInt8.ofInt offset1) s)
  let s := ioWait (outb pic2Data (UInt8.ofInt offset2) s)
  let s := ioWait (outb pic1Data 4 s)
  let s := ioWait (outb pic2Data 2 s)
  let s := ioWait (outb pic1Data 0x01 s)
  let s := ioWait (outb pic2Data 0x01 s)
  outb pic2Data 0 (outb pic1Data 0 s)

def byteOf (s : Finset (Fin 8)) : UInt8 :=
  ⟨(BitVec.ofBoolListLE ((List.finRange 8).map fun i => decide (i ∈ s))).setWidth 8⟩

/-- A read of a command port. -/
def inbCommand (port : UInt16) (s : Ports) (c : Chips) : UInt8 :=
  let read (chip : Chip) (lines : Lines (Fin 8)) : UInt8 :=
    byteOf (if chip.readsService then lines.inService else lines.requested)
  if port = pic1Command then read c.master (masterLines s c) else read c.slave c.slave.lines

/-- `__pic_get_irq_reg` -/
def picGetIrqReg (ocw3 : UInt8) (s : Ports) (c : Chips) : UInt16 × Ports × Chips :=
  let s' := outb pic2Command ocw3 (outb pic1Command ocw3 s)
  let c' := c.replay (newWrites s s')
  ((inbCommand pic2Command s' c').toUInt16 <<< 8 ||| (inbCommand pic1Command s' c').toUInt16,
    s', c')

def picGetIrr : Ports → Chips → UInt16 × Ports × Chips := picGetIrqReg picReadIrr
def picGetIsr : Ports → Chips → UInt16 × Ports × Chips := picGetIrqReg picReadIsr

def outbAll (writes : List (UInt16 × UInt8)) (s : Ports) : Ports :=
  writes.foldl (fun s w => outb w.1 w.2 s) s

theorem outbAll_append (xs ys : List (UInt16 × UInt8)) (s : Ports) :
    outbAll (xs ++ ys) s = outbAll ys (outbAll xs s) := List.foldl_append

theorem outbAll_written (writes : List (UInt16 × UInt8)) (s : Ports) :
    (outbAll writes s).written = s.written ++ writes := by
  induction writes generalizing s with
  | nil => exact (List.append_nil _).symm
  | cons w rest ih =>
    have hrest := ih (outb w.1 w.2 s)
    rwa [outb, List.append_assoc] at hrest

theorem newWrites_outbAll (writes : List (UInt16 × UInt8)) (s : Ports) :
    newWrites s (outbAll writes s) = writes := by
  rw [newWrites, outbAll_written, List.drop_left]

theorem sendSerial_eq_outbAll (out : List UInt8) (s : Ports) :
    sendSerial out s = outbAll (out.map fun c => (serialData, c)) s := by
  rw [outbAll, List.foldl_map]
  rfl

theorem replay_append (xs ys : List (UInt16 × UInt8)) (c : Chips) :
    c.replay (xs ++ ys) = (c.replay xs).replay ys := List.foldl_append

/-- Only writes to the command ports are commands. -/
theorem replay_other {writes : List (UInt16 × UInt8)}
    (h : ∀ w ∈ writes, w.1 ≠ pic1Command ∧ w.1 ≠ pic2Command) (c : Chips) :
    c.replay writes = c := by
  induction writes with
  | nil => rfl
  | cons w rest ih =>
    obtain ⟨h1, h2⟩ := h w List.mem_cons_self
    have hfirst : c.write w = c := by rw [Chips.write, if_neg h1, if_neg h2]
    have hrest := ih fun w hw => h w (List.mem_cons_of_mem _ hw)
    rwa [Chips.replay, List.foldl_cons, hfirst]

theorem replay_serial (out : List UInt8) (c : Chips) :
    c.replay (out.map fun b => (serialData, b)) = c := by
  have hmaster : serialData ≠ pic1Command := by decide
  have hslave : serialData ≠ pic2Command := by decide
  apply replay_other
  intro w hw
  obtain ⟨b, -, rfl⟩ := List.mem_map.mp hw
  exact ⟨hmaster, hslave⟩

/-- Nothing requested and nothing in service. -/
def quietChips : Chips := ⟨⟨⟨∅, ∅⟩, false⟩, ⟨⟨∅, ∅⟩, false⟩⟩

def remapWrites (offset1 offset2 : UInt8) : List (UInt16 × UInt8) :=
  [(pic1Command, 0x11), (0x80, 0), (pic2Command, 0x11), (0x80, 0), (pic1Data, offset1), (0x80, 0),
    (pic2Data, offset2), (0x80, 0), (pic1Data, 4), (0x80, 0), (pic2Data, 2), (0x80, 0),
    (pic1Data, 0x01), (0x80, 0), (pic2Data, 0x01), (0x80, 0), (pic1Data, 0), (pic2Data, 0)]

theorem picRemap_eq (offset1 offset2 : ℤ) (s : Ports) : picRemap offset1 offset2 s =
    outbAll (remapWrites (UInt8.ofInt offset1) (UInt8.ofInt offset2)) s := rfl

theorem picRemap_controllers (offset1 offset2 : ℤ) (s : Ports) :
    (picRemap offset1 offset2 s).master = ⟨0, UInt8.ofInt offset1, 0⟩ ∧
      (picRemap offset1 offset2 s).slave = ⟨0, UInt8.ofInt offset2, 0⟩ := ⟨rfl, rfl⟩

theorem replay_remapWrites (offset1 offset2 : UInt8) (c : Chips) :
    c.replay (remapWrites offset1 offset2) = quietChips := rfl

theorem bit_zero (i : ℕ) : bit 0 i = false := BitVec.getLsbD_zero

/-- The line's number is added to an offset, as long as its low three bits are clear. -/
theorem offset_aligned : ∀ n < 256, (∀ i : Fin 8,
    UInt8.ofNat n &&& 0xF8 ||| UInt8.ofNat i = UInt8.ofNat n + UInt8.ofNat i) ↔ 8 ∣ n := by
  decide +kernel

theorem ofInt_aligned (offset : ℤ) : (∀ i : Fin 8,
    UInt8.ofInt offset &&& 0xF8 ||| UInt8.ofNat i = UInt8.ofInt offset + UInt8.ofNat i) ↔
      8 ∣ offset := by
  have hbyte := offset_aligned (UInt8.ofInt offset).toNat (UInt8.toNat_lt _)
  rw [UInt8.ofNat_toNat] at hbyte
  have hoffset : (UInt8.ofInt offset).toNat = (offset % 256).toNat :=
    UInt8.toNat_ofNat_of_lt' (by rw [UInt8.size]; omega)
  rw [hbyte, hoffset]
  omega

theorem vector_castAdd (s : Ports) (i : Fin 8) :
    vector s (Fin.castAdd 8 i) = s.master.offset &&& 0xF8 ||| UInt8.ofNat i := if_pos i.2

theorem vector_natAdd (s : Ports) (i : Fin 8) :
    vector s (Fin.natAdd 8 i) = s.slave.offset &&& 0xF8 ||| UInt8.ofNat i := by
  rw [vector, if_neg (by rw [Fin.val_natAdd]; omega), Fin.val_natAdd, Nat.add_sub_cancel_left]

/-- From any state, in the middle of an initialization too, the remapped pair starts afresh
with every line enabled. Its lines come in order from the two offsets exactly when these are
multiples of eight. The kernel's own initialization does the same and sets two masks. -/
theorem picRemap_restarts (offset1 offset2 : ℤ) (s : Ports) (c : Chips) :
    let s' := picRemap offset1 offset2 s
    Operating s' ∧ (∀ line, Deliverable s' line) ∧ c.replay (newWrites s s') = quietChips ∧
      ((∀ i : Fin 8, vector s' (Fin.castAdd 8 i) = UInt8.ofInt offset1 + UInt8.ofNat i ∧
        vector s' (Fin.natAdd 8 i) = UInt8.ofInt offset2 + UInt8.ofNat i) ↔
        8 ∣ offset1 ∧ 8 ∣ offset2) ∧
      SameControllers (initPic s) (outb pic2Data 0xFF (outb pic1Data 0xFC (picRemap 32 40 s))) := by
  have hmasked : ∀ line, masked (picRemap offset1 offset2 s) line = false := by
    intro line
    rw [masked]
    split
    · exact bit_zero _
    · exact bit_zero _
  obtain ⟨hmaster, hslave⟩ := picRemap_controllers offset1 offset2 s
  refine ⟨⟨rfl, rfl⟩, fun line => ⟨hmasked line, fun _ => hmasked 2⟩, ?_, ?_, ?_⟩
  · rw [picRemap_eq, newWrites_outbAll, replay_remapWrites]
  · rw [← ofInt_aligned offset1, ← ofInt_aligned offset2, ← forall_and]
    simp only [vector_castAdd, vector_natAdd, hmaster, hslave]
  · rw [initPic, writeSerialText, sendSerial_eq]
    exact ⟨rfl, rfl⟩

theorem bit_byteOf (s : Finset (Fin 8)) (i : Fin 8) : bit (byteOf s) i = decide (i ∈ s) := by
  have hi := i.2
  rw [bit, byteOf, BitVec.getLsbD_setWidth, BitVec.getLsbD_ofBoolListLE]
  simp [hi]

theorem masterLines_inService (s : Ports) (c : Chips) :
    (masterLines s c).inService = c.master.lines.inService := by
  rw [masterLines]
  split
  · rfl
  · rfl

/-- A word joined from two bytes, bit by bit. -/
theorem bit_joined (high low : UInt8) {i : ℕ} (hi : i < 16) :
    (high.toUInt16 <<< 8 ||| low.toUInt16).toBitVec.getLsbD i =
      if i < 8 then bit low i else bit high (i - 8) := by
  have hshift : (high.toUInt16 <<< 8).toBitVec = high.toBitVec.setWidth 16 <<< 8 := rfl
  rw [UInt16.toBitVec_or, hshift, UInt8.toBitVec_toUInt16, BitVec.getLsbD_or,
    BitVec.getLsbD_shiftLeft, BitVec.getLsbD_setWidth, BitVec.getLsbD_setWidth]
  by_cases hlow : i < 8
  · simp [hlow, hi, bit]
  · have habove : low.toBitVec.getLsbD i = false := BitVec.getLsbD_of_ge _ _ (by omega)
    have hbound : i - 8 < 16 := by omega
    simp [hlow, hi, hbound, habove, bit]

/-- Lines of the two controllers, as one set. -/
def lineIn (master slave : Finset (Fin 8)) (line : Fin 16) : Bool :=
  if h : (line : ℕ) < 8 then decide (⟨line, h⟩ ∈ master) else decide (⟨line - 8, by omega⟩ ∈ slave)

theorem bit_byteOf_joined (master slave : Finset (Fin 8)) (line : Fin 16) :
    ((byteOf slave).toUInt16 <<< 8 ||| (byteOf master).toUInt16).toBitVec.getLsbD line =
      lineIn master slave line := by
  rw [bit_joined _ _ line.2, lineIn]
  split
  case isTrue h => exact bit_byteOf master ⟨line, h⟩
  case isFalse h => exact bit_byteOf slave ⟨line - 8, by omega⟩

/-- What reading a register leaves: only the choice of the register has changed. -/
structure Undisturbed (s : Ports) (c : Chips) (s' : Ports) (c' : Chips) : Prop where
  controllers : SameControllers s s'
  master : c'.master.lines = c.master.lines
  slave : c'.slave.lines = c.slave.lines

/-- The word that is read and what is left, for a choice of the requests or the services. -/
theorem picGetIrqReg_spec (ocw3 : UInt8) (readsService : Bool)
    (hchips : ∀ c : Chip, c.command ocw3 = { c with readsService })
    (hcontrollers : ∀ p : Pic, p.command ocw3 = p) (s : Ports) (c : Chips) :
    let r := picGetIrqReg ocw3 s c
    (∀ line : Fin 16, r.1.toBitVec.getLsbD line = if readsService then
        lineIn c.master.lines.inService c.slave.lines.inService line
      else lineIn (masterLines s c).requested c.slave.lines.requested line) ∧
      Undisturbed s c r.2.1 r.2.2 := by
  have hports : outb pic2Command ocw3 (outb pic1Command ocw3 s) =
      outbAll [(pic1Command, ocw3), (pic2Command, ocw3)] s := rfl
  have hpair : c.replay [(pic1Command, ocw3), (pic2Command, ocw3)] =
      ⟨c.master.command ocw3, c.slave.command ocw3⟩ := rfl
  have hmaster : (outbAll [(pic1Command, ocw3), (pic2Command, ocw3)] s).master =
    s.master.command ocw3 := rfl
  have hslave : (outbAll [(pic1Command, ocw3), (pic2Command, ocw3)] s).slave =
    s.slave.command ocw3 := rfl
  rw [hcontrollers] at hmaster hslave
  rw [hchips, hchips] at hpair
  have hlines : masterLines (outbAll [(pic1Command, ocw3), (pic2Command, ocw3)] s)
      ⟨⟨c.master.lines, readsService⟩, ⟨c.slave.lines, readsService⟩⟩ = masterLines s c := by
    rw [masterLines, masterLines, slaveOutput, slaveOutput, hslave]
  rw [picGetIrqReg, hports, newWrites_outbAll, hpair]
  refine ⟨fun line => ?_, ⟨hmaster.symm, hslave.symm⟩, rfl, rfl⟩
  have hports2 : ¬ pic2Command = pic1Command := by decide
  simp only [inbCommand, if_true, if_neg hports2]
  rw [bit_byteOf_joined, hlines]
  cases readsService with
  | true => rw [if_pos rfl, if_pos rfl, if_pos rfl, masterLines_inService]
  | false => rw [if_neg Bool.false_ne_true, if_neg Bool.false_ne_true, if_neg Bool.false_ne_true]

/-- The request register has the lines that are requested, line 2 while the second controller
puts one forward, and the service register those in service. Reading them changes neither. -/
theorem registers_read (s : Ports) (c : Chips) :
    (∀ line : Fin 16, (picGetIrr s c).1.toBitVec.getLsbD line =
      lineIn (masterLines s c).requested c.slave.lines.requested line) ∧
    (∀ line : Fin 16, (picGetIsr s c).1.toBitVec.getLsbD line =
      lineIn c.master.lines.inService c.slave.lines.inService line) ∧
    Undisturbed s c (picGetIrr s c).2.1 (picGetIrr s c).2.2 ∧
    Undisturbed s c (picGetIsr s c).2.1 (picGetIsr s c).2.2 := by
  have hirr := picGetIrqReg_spec picReadIrr false (fun _ => rfl) (fun _ => rfl) s c
  have hisr := picGetIrqReg_spec picReadIsr true (fun _ => rfl) (fun _ => rfl) s c
  exact ⟨hirr.1, hisr.1, hirr.2, hisr.2⟩

end BinOs.InterruptLines
