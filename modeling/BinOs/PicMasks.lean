import BinOs.LastWriter
import BinOs.PicPair

/-! # Masked and deliverable lines

After the initialization each mask bit is what the last call for its line made it. A
line of the second controller passes through line 2 of the first as well, whose bit no
call for another line touches. -/
namespace BinOs.PicMasks
open LastWriter PicPair

def bit (v : UInt8) (i : ℕ) : Bool := v.toBitVec.getLsbD i

theorem bit_or (v w : UInt8) (i : ℕ) : bit (v ||| w) i = (bit v i || bit w i) := by
  rw [bit, UInt8.toBitVec_or, BitVec.getLsbD_or]
  rfl

theorem bit_and (v w : UInt8) (i : ℕ) : bit (v &&& w) i = (bit v i && bit w i) := by
  rw [bit, UInt8.toBitVec_and, BitVec.getLsbD_and]
  rfl

theorem bit_and_not (v w : UInt8) {i : ℕ} (hi : i < 8) :
    bit (v &&& ~~~w) i = (bit v i && !bit w i) := by
  rw [bit, UInt8.toBitVec_and, BitVec.getLsbD_and, UInt8.toBitVec_not, BitVec.getLsbD_not]
  simp only [hi, decide_true, Bool.true_and]
  rfl

theorem bit_lineBit : ∀ line < 8, ∀ i < 8, bit (lineBit (UInt8.ofNat line)) i = decide (i = line) := by
  decide +kernel

/-- Both controllers take data writes as masks. -/
def Operating (s : Ports) : Prop := s.master.awaited = 0 ∧ s.slave.awaited = 0

def masked (s : Ports) (line : Fin 16) : Bool :=
  if line < 8 then bit s.master.mask line else bit s.slave.mask ((line : ℕ) - 8)

/-- A line's own bit is clear and, for a line of the second controller, that of line 2. -/
def Deliverable (s : Ports) (line : Fin 16) : Prop :=
  masked s line = false ∧ (8 ≤ line → masked s 2 = false)

theorem sendSerial_operating (out : List UInt8) (s : Ports) :
    Operating (sendSerial out s) ↔ Operating s := by
  rw [sendSerial_eq]
  exact Iff.rfl

theorem sendSerial_masked (out : List UInt8) (s : Ports) (line : Fin 16) :
    masked (sendSerial out s) line = masked s line := by
  rw [sendSerial_eq]
  rfl

theorem initPic_operating (s : Ports) : Operating (initPic s) := by
  rw [initPic, writeSerialText, sendSerial_operating]
  exact ⟨rfl, rfl⟩

theorem initial_masks : ∀ line : Fin 16,
    (if line < 8 then bit 0xFC line else bit 0xFF ((line : ℕ) - 8)) = decide (2 ≤ line) := by
  decide

/-- The initialization masks every line but the first two. -/
theorem initPic_masked (s : Ports) (line : Fin 16) : masked (initPic s) line = decide (2 ≤ line) := by
  rw [initPic, writeSerialText, sendSerial_masked]
  exact initial_masks line

section Mask
variable {s : Ports} {combine : UInt8 → UInt8 → UInt8} {f : Bool → Bool → Bool}

theorem outb_pic1Data (h : Operating s) (v : UInt8) : outb pic1Data v s =
    { master := { s.master with mask := v }
      slave := s.slave
      written := s.written ++ [(pic1Data, v)] } := by
  rw [← Pic.data_operating h.1]
  rfl

theorem outb_pic2Data (h : Operating s) (v : UInt8) : outb pic2Data v s =
    { master := s.master
      slave := { s.slave with mask := v }
      written := s.written ++ [(pic2Data, v)] } := by
  rw [← Pic.data_operating h.2]
  rfl

theorem changeMask_operating (h : Operating s) (line : UInt8) :
    Operating (changeMask combine line s) := by
  rw [changeMask]
  split
  · rw [outb_pic1Data h]
    exact h
  · rw [outb_pic2Data h]
    exact h

theorem picEnableIrq_operating (h : Operating s) (line : UInt8) : Operating (picEnableIrq line s) :=
  changeMask_operating h line

/-- A mask change works on its own line's bit and on no other. -/
theorem changeMask_masked (h : Operating s)
    (hcombine : ∀ v w, ∀ i < 8, bit (combine v w) i = f (bit v i) (bit w i))
    (hkeep : ∀ b, f b false = b) (line l : Fin 16) :
    masked (changeMask combine (UInt8.ofNat line) s) l =
      if l = line then f (masked s l) true else masked s l := by
  have hbit : ∀ k < 8, ∀ i < 8, bit (lineBit (UInt8.ofNat k)) i = decide (i = k) := bit_lineBit
  have hl := l.2
  have hline := line.2
  have hsize : (line : ℕ) < UInt8.size := Nat.lt_of_lt_of_le hline (by decide)
  have hport : ¬ pic2Data = pic1Data := by decide
  rw [changeMask]
  by_cases hmaster : line < 8
  · have hlt : (line : ℕ) < 8 := hmaster
    have hbyte : UInt8.ofNat line < 8 := by
      rw [UInt8.lt_iff_toNat_lt, UInt8.toNat_ofNat_of_lt' hsize]
      exact hlt
    rw [if_pos hbyte, outb_pic1Data h]
    by_cases hlm : l < 8
    · have hlt' : (l : ℕ) < 8 := hlm
      simp only [masked, if_pos hlm, inb, if_true, hcombine _ _ _ hlt', hbit _ hlt _ hlt']
      by_cases heq : l = line
      · simp [heq]
      · have hne : (l : ℕ) ≠ line := fun h => heq (Fin.ext h)
        simp [heq, hne, hkeep]
    · have hne : l ≠ line := by
        rintro rfl
        exact hlm hmaster
      rw [if_neg hne, masked, masked, if_neg hlm, if_neg hlm]
  · have hge : 8 ≤ (line : ℕ) := Nat.le_of_not_lt hmaster
    have hbyte : ¬ UInt8.ofNat line < 8 := by
      rw [UInt8.lt_iff_toNat_lt, UInt8.toNat_ofNat_of_lt' hsize]
      exact Nat.not_lt.mpr hge
    have hsub : UInt8.ofNat line - 8 = UInt8.ofNat ((line : ℕ) - 8) := by
      rw [UInt8.ofNat_sub hge]
      rfl
    rw [if_neg hbyte, hsub, outb_pic2Data h]
    by_cases hlm : l < 8
    · have hne : l ≠ line := by
        rintro rfl
        exact hmaster hlm
      rw [if_neg hne, masked, masked, if_pos hlm, if_pos hlm]
    · have hge' : 8 ≤ (l : ℕ) := Nat.le_of_not_lt hlm
      simp only [masked, if_neg hlm, inb, if_neg hport, if_true,
        hcombine _ _ _ (by omega : (l : ℕ) - 8 < 8),
        hbit _ (by omega : (line : ℕ) - 8 < 8) _ (by omega : (l : ℕ) - 8 < 8)]
      by_cases heq : l = line
      · simp [heq]
      · have hne : (l : ℕ) - 8 ≠ (line : ℕ) - 8 := fun h => heq (Fin.ext (by omega))
        simp [heq, hne, hkeep]

theorem irqSetMask_masked (h : Operating s) (line l : Fin 16) :
    masked (irqSetMask (UInt8.ofNat line) s) l = if l = line then true else masked s l := by
  rw [irqSetMask, changeMask_masked h (fun v w i _ => bit_or v w i) (fun b => Bool.or_false b),
    Bool.or_true]

theorem irqClearMask_masked (h : Operating s) (line l : Fin 16) :
    masked (irqClearMask (UInt8.ofNat line) s) l = if l = line then false else masked s l := by
  rw [irqClearMask, changeMask_masked (f := fun b c => b && !c) h
    (fun v w i hi => bit_and_not v w hi) (fun b => Bool.and_true b)]
  simp

end Mask

inductive LineCall
  | enableIrq (line : Fin 16)
  | clearMask (line : Fin 16)
  | setMask (line : Fin 16)
  | enableTimer
  | enableKeyboard

def LineCall.run (s : Ports) : LineCall → Ports
  | .enableIrq line => picEnableIrq (UInt8.ofNat line) s
  | .clearMask line => irqClearMask (UInt8.ofNat line) s
  | .setMask line => irqSetMask (UInt8.ofNat line) s
  | .enableTimer => picEnableTimerIrq s
  | .enableKeyboard => enableKeyboardIrq s

/-- The line a call is for, and whether it masks it. -/
def LineCall.masks : LineCall → Fin 16 × Bool
  | .enableIrq line => (line, false)
  | .clearMask line => (line, false)
  | .setMask line => (line, true)
  | .enableTimer => (0, false)
  | .enableKeyboard => (1, false)

def LineCall.effect (line : Fin 16) (call : LineCall) : Option Bool :=
  if line = call.masks.1 then some call.masks.2 else none

theorem run_operating (s : Ports) (call : LineCall) (h : Operating s) : Operating (call.run s) := by
  cases call with
  | enableIrq line => exact changeMask_operating h _
  | clearMask line => exact changeMask_operating h _
  | setMask line => exact changeMask_operating h _
  | enableTimer => exact (sendSerial_operating _ _).mpr (picEnableIrq_operating h 0)
  | enableKeyboard => exact (sendSerial_operating _ _).mpr (picEnableIrq_operating h 1)

theorem run_masked (line : Fin 16) (s : Ports) (call : LineCall) (h : Operating s) :
    masked (call.run s) line = (call.effect line).getD (masked s line) := by
  have hif : ∀ (l : Fin 16) (b : Bool), (if line = l then b else masked s line) =
      (if line = l then some b else none).getD (masked s line) := by
    intro l b
    split
    · rfl
    · rfl
  rw [LineCall.effect, ← hif]
  cases call with
  | enableIrq l => exact irqClearMask_masked h l line
  | clearMask l => exact irqClearMask_masked h l line
  | setMask l => exact irqSetMask_masked h l line
  | enableTimer => exact (sendSerial_masked _ _ _).trans (irqClearMask_masked h 0 line)
  | enableKeyboard => exact (sendSerial_masked _ _ _).trans (irqClearMask_masked h 1 line)

def runLineCalls (calls : List LineCall) (s : Ports) : Ports := calls.foldl LineCall.run s

/-- A line's bit after any calls: what the last call for the line made it. -/
theorem runLineCalls_masked (s : Ports) (calls : List LineCall) (line : Fin 16) :
    masked (runLineCalls calls (initPic s)) line =
      (lastEffect (LineCall.effect line) calls).getD (decide (2 ≤ line)) := by
  rw [runLineCalls, observe_foldl (masked · line) Operating run_operating (run_masked line)
    (initPic_operating s), initPic_masked]

/-- Whether the last call for the line enabled it. -/
def Enabled (calls : List LineCall) (line : Fin 16) : Prop :=
  lastEffect (LineCall.effect line) calls = some false

theorem masked_of_enabled (s : Ports) {calls : List LineCall} {line : Fin 16}
    (h : Enabled calls line) : masked (runLineCalls calls (initPic s)) line = false := by
  rw [runLineCalls_masked, h]
  rfl

/-- Line 2 is masked at first, so that it passes interrupts on only once enabled itself. -/
theorem cascade_masked_iff (s : Ports) (calls : List LineCall) :
    masked (runLineCalls calls (initPic s)) 2 = false ↔ Enabled calls 2 := by
  rw [runLineCalls_masked, Enabled]
  cases lastEffect (LineCall.effect 2) calls with
  | none => simp
  | some b => simp

/-- The enabled lines can deliver exactly when line 2 is among them or none of the second
controller's is. -/
theorem enabled_lines_deliver_iff (s : Ports) (calls : List LineCall) :
    (∀ line, Enabled calls line → Deliverable (runLineCalls calls (initPic s)) line) ↔
      ((∃ line, 8 ≤ line ∧ Enabled calls line) → Enabled calls 2) := by
  constructor
  · rintro h ⟨line, hslave, henabled⟩
    exact (cascade_masked_iff s calls).mp ((h line henabled).2 hslave)
  · intro h line henabled
    refine ⟨masked_of_enabled s henabled, fun hslave => ?_⟩
    exact (cascade_masked_iff s calls).mpr (h ⟨line, hslave, henabled⟩)

/-- Controllers as they may stand at power-on. -/
def powerOn : Ports := ⟨⟨0, 0, 0⟩, ⟨0, 0, 0⟩, []⟩

/-- Enabling line 12, the mouse's, leaves it cut off by line 2. -/
theorem line_twelve_stays_cut_off : ¬ ∀ line, Enabled [.enableIrq 12] line →
    Deliverable (runLineCalls [.enableIrq 12] (initPic powerOn)) line := by
  intro h
  have hcascade := (h 12 rfl).2 (by decide)
  rw [runLineCalls_masked] at hcascade
  exact absurd hcascade (by decide)

end BinOs.PicMasks
