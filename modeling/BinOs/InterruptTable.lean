import BinOs.PackedFields
import BinOs.PicPair

/-! # The interrupt descriptor table

A gate holds a handler's address in three pieces. Code addresses and pointers are
64-bit words; the table is indexed by a byte. -/
namespace BinOs.InterruptTable
open PackedFields PicPair

structure IdtEntry where
  isrLow : UInt16
  kernelCs : UInt16
  ist : UInt8
  attributes : UInt8
  isrMid : UInt16
  isrHigh : UInt32
  reserved : UInt32
  deriving DecidableEq

abbrev Idt := UInt8 → IdtEntry

/-- The entry that `idt_add_entry` writes. -/
def gate (isr : UInt64) (flags : UInt8) : IdtEntry :=
  { isrLow := (isr &&& 0xFFFF).toUInt16
    kernelCs := 0x08
    ist := 0
    attributes := flags
    isrMid := ((isr >>> 16) &&& 0xFFFF).toUInt16
    isrHigh := ((isr >>> 32) &&& 0xFFFFFFFF).toUInt32
    reserved := 0 }

def idtAddEntry (vector : UInt8) (isr : UInt64) (flags : UInt8) (idt : Idt) : Idt :=
  Function.update idt vector (gate isr flags)

def installIrqCommon (irqVector : UInt8) (handler : UInt64) : Idt → Idt :=
  idtAddEntry irqVector handler 0x8E

/-- The state that installing a handler works on. -/
structure Controllers where
  idt : Idt
  ports : Ports

/-- The vector is computed in a byte, so that the test for one above 255 never holds. Nothing
keeps `ctx`. The result is 0 for success. -/
def installIrqHandler (irq : UInt8) (handler _ctx : UInt64) (s : Controllers) : ℤ × Controllers :=
  let vector := irq + 32
  if (vector.toNat : ℤ) ≥ 256 then
    (1, { s with ports := writeSerialText "IDT: Invalid IRQ number for installation\n" s.ports })
  else
    let idt := installIrqCommon vector handler s.idt
    let ports := picEnableIrq irq s.ports
    (0, { idt, ports := writeSerialText "IDT: Dynamic IRQ handler installed\n" ports })

/-- The two statuses that installing a handler reports to uACPI. -/
inductive UacpiStatus
  | ok
  | internalError
  deriving DecidableEq

/-- Status, the handle written for the caller, and the state. -/
def uacpiKernelInstallInterruptHandler (irq : UInt32) (handler ctx : UInt64) (s : Controllers) :
    UacpiStatus × UInt64 × Controllers :=
  let (result, s) := installIrqHandler irq.toUInt8 handler ctx s
  (if result ≠ 0 then .ok else .internalError, irq.toUInt64, s)

/-- The three pieces of the address joined. -/
def IdtEntry.address (e : IdtEntry) : UInt64 :=
  UInt64.ofNat (e.isrLow.toNat + e.isrMid.toNat * 2 ^ 16 + e.isrHigh.toNat * 2 ^ 32)

/-- A present 64-bit interrupt gate into the kernel's code segment. -/
def IdtEntry.usable (e : IdtEntry) : Prop :=
  e.attributes &&& 0x80 ≠ 0 ∧ e.attributes &&& 0x1F = 0x0E ∧ e.kernelCs = 0x08

def IdtEntry.deliversTo (e : IdtEntry) (handler : UInt64) : Prop := e.usable ∧ e.address = handler

section Gate
variable (isr : UInt64) (flags : UInt8)

theorem gate_isrLow : (gate isr flags).isrLow.toNat = bits 0 16 isr.toNat := by
  have hmask : (isr &&& 0xFFFF).toNat = bits 0 16 isr.toNat := shiftRight_and 0 16 isr.toNat
  rw [gate, UInt64.toNat_toUInt16, hmask, Nat.mod_eq_of_lt (bits_lt ..)]

theorem gate_isrMid : (gate isr flags).isrMid.toNat = bits 16 16 isr.toNat := by
  have hmask : ((isr >>> 16) &&& 0xFFFF).toNat = bits 16 16 isr.toNat :=
    shiftRight_and 16 16 isr.toNat
  rw [gate, UInt64.toNat_toUInt16, hmask, Nat.mod_eq_of_lt (bits_lt ..)]

theorem gate_isrHigh : (gate isr flags).isrHigh.toNat = bits 32 32 isr.toNat := by
  have hmask : ((isr >>> 32) &&& 0xFFFFFFFF).toNat = bits 32 32 isr.toNat :=
    shiftRight_and 32 32 isr.toNat
  rw [gate, UInt64.toNat_toUInt32, hmask, Nat.mod_eq_of_lt (bits_lt ..)]

/-- The pieces are all of it. -/
theorem address_pieces : bits 0 16 isr.toNat + 2 ^ 16 * bits 16 16 isr.toNat +
    2 ^ 32 * bits 32 32 isr.toNat = isr.toNat :=
  calc bits 0 16 isr.toNat + 2 ^ 16 * bits 16 16 isr.toNat + 2 ^ 32 * bits 32 32 isr.toNat
      = bits 0 32 isr.toNat + 2 ^ 32 * bits 32 32 isr.toNat := by rw [bits_add 0 16 16]
    _ = bits 0 64 isr.toNat := (bits_add 0 32 32 _).symm
    _ = isr.toNat := bits_of_lt isr.toNat_lt

theorem gate_address : (gate isr flags).address = isr := by
  rw [IdtEntry.address, gate_isrLow, gate_isrMid, gate_isrHigh, Nat.mul_comm _ (2 ^ 16),
    Nat.mul_comm _ (2 ^ 32), address_pieces, UInt64.ofNat_toNat]

end Gate

theorem gate_deliversTo (isr : UInt64) : (gate isr 0x8E).deliversTo isr :=
  ⟨⟨(by decide : (0x8E : UInt8) &&& 0x80 ≠ 0), (by decide : (0x8E : UInt8) &&& 0x1F = 0x0E), rfl⟩,
    gate_address isr 0x8E⟩

/-- The members in their order in memory, where the structure is packed. -/
def IdtEntry.fields (e : IdtEntry) : List Field :=
  [⟨16, e.isrLow.toNat, e.isrLow.toNat_lt⟩, ⟨16, e.kernelCs.toNat, e.kernelCs.toNat_lt⟩,
    ⟨8, e.ist.toNat, e.ist.toNat_lt⟩, ⟨8, e.attributes.toNat, e.attributes.toNat_lt⟩,
    ⟨16, e.isrMid.toNat, e.isrMid.toNat_lt⟩, ⟨32, e.isrHigh.toNat, e.isrHigh.toNat_lt⟩,
    ⟨32, e.reserved.toNat, e.reserved.toNat_lt⟩]

def IdtEntry.descriptor (e : IdtEntry) : ℕ := pack e.fields

def offsetOf (d : ℕ) : ℕ := bits 0 16 d + 2 ^ 16 * bits 48 16 d + 2 ^ 32 * bits 64 32 d
def selectorOf (d : ℕ) : ℕ := bits 16 16 d
def istOf (d : ℕ) : ℕ := bits 32 3 d
def attributesOf (d : ℕ) : ℕ := bits 40 8 d

/-- A gate into the kernel's code segment that keeps the stack, with nothing in the bits that
are reserved. -/
structure DecodesGate (d offset attributes : ℕ) : Prop where
  offset : offsetOf d = offset
  selector : selectorOf d = 0x08
  ist : istOf d = 0
  attributes : attributesOf d = attributes
  reserved : bits 35 5 d = 0 ∧ bits 96 32 d = 0

theorem descriptor_fields (e : IdtEntry) :
    bits 0 16 e.descriptor = e.isrLow.toNat ∧ bits 16 16 e.descriptor = e.kernelCs.toNat ∧
      bits 32 8 e.descriptor = e.ist.toNat ∧ bits 40 8 e.descriptor = e.attributes.toNat ∧
      bits 48 16 e.descriptor = e.isrMid.toNat ∧ bits 64 32 e.descriptor = e.isrHigh.toNat ∧
      bits 96 32 e.descriptor = e.reserved.toNat := by
  have hread (k : ℕ) (hk : k < 7) := bits_field e.fields k hk
  exact ⟨hread 0 (by omega), hread 1 (by omega), hread 2 (by omega), hread 3 (by omega),
    hread 4 (by omega), hread 5 (by omega), hread 6 (by omega)⟩

theorem gate_decodes (isr : UInt64) (flags : UInt8) :
    DecodesGate (gate isr flags).descriptor isr.toNat flags.toNat := by
  obtain ⟨hlow, hselector, hist, hattributes, hmid, hhigh, hreserved⟩ :=
    descriptor_fields (gate isr flags)
  rw [gate_isrLow] at hlow
  rw [gate_isrMid] at hmid
  rw [gate_isrHigh] at hhigh
  -- the byte of the stack number, of which three bits are used
  obtain ⟨hused, hunused⟩ : bits 32 3 (gate isr flags).descriptor = 0 ∧
      bits 35 5 (gate isr flags).descriptor = 0 := by
    have hcut : bits 32 8 (gate isr flags).descriptor = bits 32 3 (gate isr flags).descriptor +
        2 ^ 3 * bits 35 5 (gate isr flags).descriptor := bits_add 32 3 5 _
    have hzero : (gate isr flags).ist.toNat = 0 := rfl
    omega
  constructor
  case offset => rw [offsetOf, hlow, hmid, hhigh, address_pieces]
  case selector => exact hselector
  case ist => exact hused
  case attributes => exact hattributes
  case reserved => exact ⟨hunused, hreserved⟩

end BinOs.InterruptTable
