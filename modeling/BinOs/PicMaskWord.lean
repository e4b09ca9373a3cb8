import BinOs.PicMasks

/-! # The two mask registers as one mask of sixteen lines

Every call that masks or enables lines reads and writes one of the two registers, or
overwrites both. On the sixteen bits together each of them acts on the lines it is for. -/
namespace BinOs.PicMaskWord
open LastWriter PicPair PicMasks

/-- A call for one line, or the one that masks them all. -/
inductive MaskCall
  | line (call : LineCall)
  | disable

def MaskCall.run (s : Ports) : MaskCall → Ports
  | .line call => call.run s
  | .disable => picDisable s

def MaskCall.effect (line : Fin 16) : MaskCall → Option Bool
  | .line call => call.effect line
  | .disable => some true

def runCalls (calls : List MaskCall) (s : Ports) : Ports := calls.foldl MaskCall.run s

/-- The sixteen bits after a call. -/
def maskAfter (mask : Fin 16 → Bool) : MaskCall → Fin 16 → Bool
  | .line call => Function.update mask call.masks.1 call.masks.2
  | .disable => fun _ => true

/-- Both controllers are in the same state; the order of the port writes may differ. -/
def SameControllers (s t : Ports) : Prop := s.master = t.master ∧ s.slave = t.slave

variable {s t : Ports}

theorem bit_ones : ∀ i < 8, bit 0xFF i = true := by
  decide

theorem picDisable_eq (h : Operating s) : ∃ written, picDisable s =
    ⟨{ s.master with mask := 0xFF }, { s.slave with mask := 0xFF }, written⟩ := by
  have hfirst : Operating (outb pic1Data 0xFF s) := by
    rw [outb_pic1Data h]
    exact h
  refine ⟨(picDisable s).written, ?_⟩
  rw [picDisable, outb_pic2Data hfirst, outb_pic1Data h]

theorem maskCall_operating (s : Ports) (call : MaskCall) (h : Operating s) :
    Operating (call.run s) := by
  cases call with
  | line call => exact run_operating s call h
  | disable =>
    obtain ⟨written, heq⟩ := picDisable_eq h
    rw [MaskCall.run, heq]
    exact h

theorem maskCall_masked (line : Fin 16) (s : Ports) (call : MaskCall) (h : Operating s) :
    masked (call.run s) line = (call.effect line).getD (masked s line) := by
  cases call with
  | line call => exact run_masked line s call h
  | disable =>
    obtain ⟨written, heq⟩ := picDisable_eq h
    have hline := line.2
    rw [MaskCall.run, heq, masked]
    split
    · next hmaster => exact bit_ones line hmaster
    · exact bit_ones _ (by omega)

theorem masked_lineRun (call : LineCall) (h : Operating s) :
    masked (call.run s) = Function.update (masked s) call.masks.1 call.masks.2 := by
  funext line
  rw [run_masked line s call h, LineCall.effect]
  by_cases hline : line = call.masks.1
  · rw [if_pos hline, hline, Function.update_self]
    rfl
  · rw [if_neg hline, Function.update_of_ne hline]
    rfl

/-- The pair refines the mask of sixteen bits. -/
theorem masked_run (call : MaskCall) (h : Operating s) :
    masked (call.run s) = maskAfter (masked s) call := by
  cases call with
  | line call => exact masked_lineRun call h
  | disable =>
    funext line
    exact maskCall_masked line s .disable h

/-- All but the masks is the same. -/
def SameButMasks (s t : Ports) : Prop :=
  t.master = { s.master with mask := t.master.mask } ∧
    t.slave = { s.slave with mask := t.slave.mask }

theorem SameButMasks.trans {u : Ports} (h : SameButMasks s t) (h' : SameButMasks t u) :
    SameButMasks s u := by
  constructor
  · rw [h'.1, h.1]
  · rw [h'.2, h.2]

theorem sendSerial_sameButMasks (out : List UInt8) (s : Ports) :
    SameButMasks s (sendSerial out s) := by
  rw [sendSerial_eq]
  exact ⟨rfl, rfl⟩

theorem changeMask_sameButMasks {combine : UInt8 → UInt8 → UInt8} (h : Operating s)
    (line : UInt8) : SameButMasks s (changeMask combine line s) := by
  rw [changeMask]
  split
  · rw [outb_pic1Data h]
    exact ⟨rfl, rfl⟩
  · rw [outb_pic2Data h]
    exact ⟨rfl, rfl⟩

theorem run_sameButMasks (h : Operating s) (call : LineCall) : SameButMasks s (call.run s) := by
  cases call with
  | enableIrq line => exact changeMask_sameButMasks h _
  | clearMask line => exact changeMask_sameButMasks h _
  | setMask line => exact changeMask_sameButMasks h _
  | enableTimer =>
    have hline : SameButMasks s (picEnableIrq 0 s) := changeMask_sameButMasks h 0
    exact hline.trans (sendSerial_sameButMasks _ _)
  | enableKeyboard =>
    have hline : SameButMasks s (picEnableIrq 1 s) := changeMask_sameButMasks h 1
    exact hline.trans (sendSerial_sameButMasks _ _)

theorem eq_of_bits {v w : UInt8} (h : ∀ i < 8, bit v i = bit w i) : v = w :=
  UInt8.toBitVec_inj.mp (BitVec.eq_of_getLsbD_eq h)

/-- A controller's state is its sixteen bits' share and what no call changes. -/
theorem sameControllers_of_masked {u : Ports} (hs : SameButMasks u s) (ht : SameButMasks u t)
    (hmasked : masked s = masked t) : SameControllers s t := by
  have hbit (line : Fin 16) : masked s line = masked t line := congrFun hmasked line
  constructor
  · have hmask : s.master.mask = t.master.mask := by
      apply eq_of_bits
      intro i hi
      have hline := hbit ⟨i, by omega⟩
      have hmaster : (⟨i, by omega⟩ : Fin 16) < 8 := hi
      rwa [masked, masked, if_pos hmaster, if_pos hmaster] at hline
    rw [hs.1, ht.1, hmask]
  · have hmask : s.slave.mask = t.slave.mask := by
      apply eq_of_bits
      intro i hi
      have hline := hbit ⟨i + 8, by omega⟩
      have hslave : ¬ (⟨i + 8, by omega⟩ : Fin 16) < 8 := Nat.not_lt.mpr (Nat.le_add_left 8 i)
      rwa [masked, masked, if_neg hslave, if_neg hslave, Nat.add_sub_cancel] at hline
    rw [hs.2, ht.2, hmask]

theorem lineCalls_commute (h : Operating s) {a b : LineCall} (hne : a.masks.1 ≠ b.masks.1) :
    SameControllers (b.run (a.run s)) (a.run (b.run s)) := by
  have ha := run_operating s a h
  have hb := run_operating s b h
  apply sameControllers_of_masked
    ((run_sameButMasks h a).trans (run_sameButMasks ha b))
    ((run_sameButMasks h b).trans (run_sameButMasks hb a))
  rw [masked_lineRun b ha, masked_lineRun a h, masked_lineRun a hb, masked_lineRun b h]
  exact Function.update_comm hne _ _ _

theorem runCalls_masked (h : Operating s) (calls : List MaskCall) :
    masked (runCalls calls s) = calls.foldl maskAfter (masked s) := by
  induction calls generalizing s with
  | nil => rfl
  | cons call calls ih =>
    rw [List.foldl_cons, ← masked_run call h]
    exact ih (maskCall_operating s call h)

theorem runCalls_operating (h : Operating s) (calls : List MaskCall) :
    Operating (runCalls calls s) := by
  induction calls generalizing s with
  | nil => exact h
  | cons call calls ih => exact ih (maskCall_operating s call h)

/-- The calls act on the sixteen bits as on one mask: a line ends as the last call for it
left it, or as it was at first, and calls for different lines, made after any others,
commute and keep to their own bits. -/
theorem pair_acts_as_one_mask (h : Operating s) (calls : List MaskCall) :
    masked (runCalls calls s) = calls.foldl maskAfter (masked s) ∧
    (∀ line, masked (runCalls calls s) line =
      (lastEffect (MaskCall.effect line) calls).getD (masked s line)) ∧
    (∀ a b : LineCall, a.masks.1 ≠ b.masks.1 →
      SameControllers (b.run (a.run (runCalls calls s))) (a.run (b.run (runCalls calls s)))) ∧
    ∀ (a : LineCall) (line : Fin 16), line ≠ a.masks.1 →
      masked (a.run (runCalls calls s)) line = masked (runCalls calls s) line := by
  have hthere := runCalls_operating h calls
  refine ⟨runCalls_masked h calls, fun line => ?_, fun a b hne => lineCalls_commute hthere hne,
    fun a line hne => ?_⟩
  · exact observe_foldl (masked · line) Operating maskCall_operating (maskCall_masked line) h calls
  · rw [masked_lineRun a hthere, Function.update_of_ne hne]

/-- Initialized controllers with some lines masked. -/
def somePair : Ports := ⟨⟨0xB8, 0x20, 0⟩, ⟨0x5F, 0x28, 0⟩, []⟩

def someCalls : List MaskCall := [.line (.setMask 3), .disable, .line (.enableIrq 9)]

theorem pair_acts_as_one_mask_some :
    masked (runCalls someCalls somePair) = someCalls.foldl maskAfter (masked somePair) ∧
    (∀ line, masked (runCalls someCalls somePair) line =
      (lastEffect (MaskCall.effect line) someCalls).getD (masked somePair line)) ∧
    (∀ a b : LineCall, a.masks.1 ≠ b.masks.1 →
      SameControllers (b.run (a.run (runCalls someCalls somePair)))
        (a.run (b.run (runCalls someCalls somePair)))) ∧
    ∀ (a : LineCall) (line : Fin 16), line ≠ a.masks.1 →
      masked (a.run (runCalls someCalls somePair)) line =
        masked (runCalls someCalls somePair) line :=
  pair_acts_as_one_mask ⟨rfl, rfl⟩ someCalls

end BinOs.PicMaskWord
