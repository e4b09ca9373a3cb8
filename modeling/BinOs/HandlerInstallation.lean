import BinOs.InterruptTable
import BinOs.PicMasks

/-! # What installing a handler reports

The lower function answers 0 for success and the upper one takes 0 for failure, so that
uACPI is told of an error after every installation. The line number is cut to a byte on
the way down. -/
namespace BinOs.HandlerInstallation
open InterruptTable PicPair PicMasks

theorem and_not_eq_self_iff (v w : UInt8) : v &&& ~~~w = v ↔ v &&& w = 0 := by
  have hbits : ∀ a b : UInt8, a = b ↔ ∀ i < 8, bit a i = bit b i := by
    intro a b
    refine ⟨fun h i _ => by rw [h], fun h => ?_⟩
    apply UInt8.toBitVec_inj.mp
    exact BitVec.eq_of_getLsbD_eq fun i hi => h i hi
  have hand : ∀ i, bit (v &&& w) i = (bit v i && bit w i) := by
    intro i
    rw [bit, UInt8.toBitVec_and, BitVec.getLsbD_and]
    rfl
  have hzero : ∀ i, bit 0 i = false := fun i => BitVec.getLsbD_zero
  rw [hbits, hbits]
  refine forall₂_congr fun i hi => ?_
  rw [bit_and_not v w hi, hand, hzero]
  cases bit v i with
  | false => simp
  | true => simp

/-- The mask register that has the line's bit holds a zero there. -/
def Unmasked (irq : UInt8) (s : Ports) : Prop :=
  if irq < 8 then s.master.mask &&& lineBit irq = 0 else s.slave.mask &&& lineBit (irq - 8) = 0

instance (irq : UInt8) (s : Ports) : Decidable (Unmasked irq s) :=
  inferInstanceAs (Decidable (if irq < 8 then _ else _))

def SameMasks (s t : Ports) : Prop := t.master.mask = s.master.mask ∧ t.slave.mask = s.slave.mask

theorem picEnableIrq_sameMasks_iff {s : Ports} (h : Operating s) (irq : UInt8) :
    SameMasks s (picEnableIrq irq s) ↔ Unmasked irq s := by
  rw [picEnableIrq, changeMask, Unmasked, SameMasks]
  by_cases hmaster : irq < 8
  · rw [if_pos hmaster, if_pos hmaster, outb_pic1Data h, ← and_not_eq_self_iff]
    exact and_iff_left rfl
  · rw [if_neg hmaster, if_neg hmaster, outb_pic2Data h, ← and_not_eq_self_iff]
    exact and_iff_right rfl

/-- No byte is above 255: the installation always goes through and answers 0. -/
theorem installIrqHandler_eq (irq : UInt8) (handler ctx : UInt64) (s : Controllers) :
    installIrqHandler irq handler ctx s =
      (0, { idt := Function.update s.idt (irq + 32) (gate handler 0x8E)
            ports := writeSerialText "IDT: Dynamic IRQ handler installed\n"
              (picEnableIrq irq s.ports) }) := by
  have hbyte : ¬ (((irq + 32).toNat : ℕ) : ℤ) ≥ 256 := by
    have hlt := (irq + 32).toNat_lt
    omega
  rw [installIrqHandler, if_neg hbyte]
  rfl

theorem writeSerialText_sameMasks_iff (text : String) (s t : Ports) :
    SameMasks s (writeSerialText text t) ↔ SameMasks s t := by
  rw [writeSerialText, sendSerial_eq]
  exact Iff.rfl

section Upper
variable (irq : UInt32) (handler ctx : UInt64) (s : Controllers)

/-- uACPI is never told of success. -/
theorem uacpiKernelInstallInterruptHandler_status :
    (uacpiKernelInstallInterruptHandler irq handler ctx s).1 = .internalError := by
  rw [uacpiKernelInstallInterruptHandler, installIrqHandler_eq]
  rfl

theorem uacpiKernelInstallInterruptHandler_idt :
    (uacpiKernelInstallInterruptHandler irq handler ctx s).2.2.idt =
      Function.update s.idt (irq.toUInt8 + 32) (gate handler 0x8E) := by
  rw [uacpiKernelInstallInterruptHandler, installIrqHandler_eq]

theorem uacpiKernelInstallInterruptHandler_sameMasks_iff (h : Operating s.ports) :
    SameMasks s.ports (uacpiKernelInstallInterruptHandler irq handler ctx s).2.2.ports ↔
      Unmasked irq.toUInt8 s.ports := by
  rw [uacpiKernelInstallInterruptHandler, installIrqHandler_eq]
  exact (writeSerialText_sameMasks_iff _ _ _).trans (picEnableIrq_sameMasks_iff h _)

end Upper

/-- Success is reported exactly when the line's own gate delivers to the handler, a failure
leaves the gates and the masks as they were, and no other gate ever changes. -/
structure Truthful (irq : UInt32) (handler : UInt64) (before : Controllers)
    (status : UacpiStatus) (after : Controllers) : Prop where
  ok_iff : status = .ok ↔
    irq.toNat + 32 ≤ 255 ∧ (after.idt (UInt8.ofNat (irq.toNat + 32))).deliversTo handler
  atomic : status ≠ .ok → after.idt = before.idt ∧ SameMasks before.ports after.ports
  exceptions : ∀ vector < 32, after.idt vector = before.idt vector
  others : ∀ vector : UInt8, vector.toNat ≠ irq.toNat + 32 → after.idt vector = before.idt vector

/-- Nothing is left for an installation to change. -/
def AlreadyInstalled (irq : UInt8) (handler : UInt64) (s : Controllers) : Prop :=
  s.idt (irq + 32) = gate handler 0x8E ∧ Unmasked irq s.ports

theorem installed_vector (irq : UInt32) : UInt8.ofNat (irq.toNat + 32) = irq.toUInt8 + 32 := by
  rw [UInt8.ofNat_add]
  congr 1

/-- A line number too large for a vector is refused as it should be only where the gate and
the mask it wraps to hold already what would be written. -/
theorem install_truthful_iff (irq : UInt32) (handler ctx : UInt64) (s : Controllers)
    (h : Operating s.ports) :
    Truthful irq handler s (uacpiKernelInstallInterruptHandler irq handler ctx s).1
        (uacpiKernelInstallInterruptHandler irq handler ctx s).2.2 ↔
      223 < irq.toNat ∧ AlreadyInstalled irq.toUInt8 handler s := by
  have hstatus := uacpiKernelInstallInterruptHandler_status irq handler ctx s
  have hidt := uacpiKernelInstallInterruptHandler_idt irq handler ctx s
  have hmasks := uacpiKernelInstallInterruptHandler_sameMasks_iff irq handler ctx s h
  have herror : (uacpiKernelInstallInterruptHandler irq handler ctx s).1 ≠ .ok := by
    rw [hstatus]
    exact UacpiStatus.noConfusion
  constructor
  · rintro ⟨hok, hatomic, -, -⟩
    obtain ⟨hsame, hsameMasks⟩ := hatomic herror
    refine ⟨?_, ?_, hmasks.mp hsameMasks⟩
    · -- below, the gate has been set although an error is reported
      by_contra hle
      have hvector : irq.toNat + 32 ≤ 255 := by omega
      apply herror
      apply hok.mpr
      refine ⟨hvector, ?_⟩
      rw [hidt, installed_vector, Function.update_self]
      exact gate_deliversTo handler
    · have hat := congrFun (hidt.symm.trans hsame) (irq.toUInt8 + 32)
      rw [Function.update_self] at hat
      exact hat.symm
  · rintro ⟨hlarge, hgate, hunmasked⟩
    have hsame : (uacpiKernelInstallInterruptHandler irq handler ctx s).2.2.idt = s.idt := by
      rw [hidt, ← hgate, Function.update_eq_self]
    constructor
    case ok_iff => exact ⟨fun hok => absurd hok herror, fun hfit => absurd hfit.1 (by omega)⟩
    case atomic => exact fun _ => ⟨hsame, hmasks.mpr hunmasked⟩
    case exceptions => exact fun vector _ => congrFun hsame vector
    case others => exact fun vector _ => congrFun hsame vector

/-- An empty table and the masks that the initialization leaves. -/
def afterInit : Controllers :=
  { idt := fun _ => ⟨0, 0, 0, 0, 0, 0, 0⟩
    ports := ⟨⟨0xFC, 0x20, 0⟩, ⟨0xFF, 0x28, 0⟩, []⟩ }

/-- Line 224 and the vector 0 it wraps to, whose gate holds the handler already. -/
theorem line_224_truthful :
    Truthful 224 0x1000 { afterInit with idt := fun _ => gate 0x1000 0x8E, ports.slave.mask := 0 }
      (uacpiKernelInstallInterruptHandler 224 0x1000 0
        { afterInit with idt := fun _ => gate 0x1000 0x8E, ports.slave.mask := 0 }).1
      (uacpiKernelInstallInterruptHandler 224 0x1000 0
        { afterInit with idt := fun _ => gate 0x1000 0x8E, ports.slave.mask := 0 }).2.2 :=
  (install_truthful_iff _ _ _ _ ⟨rfl, rfl⟩).mpr ⟨by decide, rfl, by decide⟩

/-- Line 9, the ACPI interrupt: the gate is set and an error reported. -/
theorem line_nine_reported_as_error : ¬ Truthful 9 0x1000 afterInit
    (uacpiKernelInstallInterruptHandler 9 0x1000 0 afterInit).1
    (uacpiKernelInstallInterruptHandler 9 0x1000 0 afterInit).2.2 := by
  intro h
  have hok := h.ok_iff.mpr ⟨by decide, gate_deliversTo 0x1000⟩
  rw [uacpiKernelInstallInterruptHandler_status] at hok
  cases hok

end BinOs.HandlerInstallation
