import BinOs.CheckedBuffers
import BinOs.PackedFields

/-! # The global descriptor table

An entry has six fields, over which a descriptor's base and limit are spread. The second
entry of a task state segment keeps the upper half of its base in fields with other names.
The processor knows no fields: it reads 8 or 16 bytes. -/
namespace BinOs.SegmentDescriptors
open CheckedBuffers PackedFields

structure GdtEntry where
  limitLow : UInt16
  baseLow : UInt16
  baseMiddle : UInt8
  access : UInt8
  granularity : UInt8
  baseHigh : UInt8
  deriving DecidableEq, Inhabited

abbrev gdtEntries : ℕ := 7

abbrev Gdt := Vector GdtEntry gdtEntries

/-- The entry that `gdt_set_entry` leaves: every field is set. -/
def segmentEntry (base limit : UInt32) (access granularity : UInt8) : GdtEntry :=
  { baseLow := (base &&& 0xFFFF).toUInt16
    baseMiddle := ((base >>> 16) &&& 0xFF).toUInt8
    baseHigh := ((base >>> 24) &&& 0xFF).toUInt8
    limitLow := (limit &&& 0xFFFF).toUInt16
    granularity := ((limit >>> 16) &&& 0x0F).toUInt8 ||| (granularity &&& 0xF0)
    access := access }

def gdtSetEntry (index : ℤ) (base limit : UInt32) (access granularity : UInt8) (gdt : Gdt) :
    Option Gdt :=
  write gdt index (segmentEntry base limit access granularity)

/-- The second entry of a task state segment. -/
def upperEntry (base : UInt64) : GdtEntry :=
  { limitLow := ((base >>> 32) &&& 0xFFFF).toUInt16
    baseLow := ((base >>> 48) &&& 0xFFFF).toUInt16
    baseMiddle := 0
    access := 0
    granularity := 0
    baseHigh := 0 }

def gdtSetTss (index : ℤ) (base : UInt64) (limit : UInt32) (gdt : Gdt) : Option Gdt := do
  let gdt ← gdtSetEntry index (base &&& 0xFFFFFFFF).toUInt32 limit 0x89 0x00 gdt
  write gdt (index + 1) (upperEntry base)

/-- With the address of the task state segment, which takes 104 bytes. -/
def gdtInit (kernelTss : UInt64) (gdt : Gdt) : Option Gdt := do
  let gdt ← gdtSetEntry 0 0 0 0 0 gdt
  let gdt ← gdtSetEntry 1 0 0xFFFFF 0x9A 0xAF gdt
  let gdt ← gdtSetEntry 2 0 0xFFFFF 0x92 0xCF gdt
  let gdt ← gdtSetEntry 3 0 0xFFFFF 0xFA 0xAF gdt
  let gdt ← gdtSetEntry 4 0 0xFFFFF 0xF2 0xCF gdt
  gdtSetTss 5 kernelTss (104 - 1) gdt

/-- The fields in their order in memory, where the structure is packed. -/
def GdtEntry.fields (e : GdtEntry) : List Field :=
  [⟨16, e.limitLow.toNat, e.limitLow.toNat_lt⟩, ⟨16, e.baseLow.toNat, e.baseLow.toNat_lt⟩,
    ⟨8, e.baseMiddle.toNat, e.baseMiddle.toNat_lt⟩, ⟨8, e.access.toNat, e.access.toNat_lt⟩,
    ⟨8, e.granularity.toNat, e.granularity.toNat_lt⟩, ⟨8, e.baseHigh.toNat, e.baseHigh.toNat_lt⟩]

/-- The 8 bytes of an entry. -/
def GdtEntry.descriptor (e : GdtEntry) : ℕ := pack e.fields

/-- The 16 bytes of two entries. -/
def systemDescriptor (lower upper : GdtEntry) : ℕ := pack (lower.fields ++ upper.fields)

def baseOf (d : ℕ) : ℕ := bits 16 24 d + 2 ^ 24 * bits 56 8 d
def limitOf (d : ℕ) : ℕ := bits 0 16 d + 2 ^ 16 * bits 48 4 d
def accessOf (d : ℕ) : ℕ := bits 40 8 d
def flagsOf (d : ℕ) : ℕ := bits 52 4 d

/-- Of a descriptor of 16 bytes, which has 32 more bits of the base and then 32 reserved
ones. -/
def systemBaseOf (d : ℕ) : ℕ := baseOf d + 2 ^ 32 * bits 64 32 d
def reservedOf (d : ℕ) : ℕ := bits 96 32 d

/-- A descriptor's first 8 bytes, whether 8 more belong to it or not. -/
structure Decodes (d base limit access flags : ℕ) : Prop where
  base : baseOf d = base
  limit : limitOf d = limit
  access : accessOf d = access
  flags : flagsOf d = flags

/-- An available 64-bit task state segment, with nothing in the reserved bits. -/
structure DecodesTss (d base limit : ℕ) : Prop where
  base : systemBaseOf d = base
  limit : limitOf d = limit
  access : accessOf d = 0x89
  flags : flagsOf d = 0
  reserved : reservedOf d = 0

section Entry
variable (base limit : UInt32) (access granularity : UInt8)

theorem segmentEntry_limitLow :
    (segmentEntry base limit access granularity).limitLow.toNat = bits 0 16 limit.toNat := by
  have hmask : (limit &&& 0xFFFF).toNat = bits 0 16 limit.toNat := shiftRight_and 0 16 limit.toNat
  rw [segmentEntry, UInt32.toNat_toUInt16, hmask, Nat.mod_eq_of_lt (bits_lt ..)]

theorem segmentEntry_baseLow :
    (segmentEntry base limit access granularity).baseLow.toNat = bits 0 16 base.toNat := by
  have hmask : (base &&& 0xFFFF).toNat = bits 0 16 base.toNat := shiftRight_and 0 16 base.toNat
  rw [segmentEntry, UInt32.toNat_toUInt16, hmask, Nat.mod_eq_of_lt (bits_lt ..)]

theorem segmentEntry_baseMiddle :
    (segmentEntry base limit access granularity).baseMiddle.toNat = bits 16 8 base.toNat := by
  have hmask : ((base >>> 16) &&& 0xFF).toNat = bits 16 8 base.toNat :=
    shiftRight_and 16 8 base.toNat
  rw [segmentEntry, UInt32.toNat_toUInt8, hmask, Nat.mod_eq_of_lt (bits_lt ..)]

theorem segmentEntry_baseHigh :
    (segmentEntry base limit access granularity).baseHigh.toNat = bits 24 8 base.toNat := by
  have hmask : ((base >>> 24) &&& 0xFF).toNat = bits 24 8 base.toNat :=
    shiftRight_and 24 8 base.toNat
  rw [segmentEntry, UInt32.toNat_toUInt8, hmask, Nat.mod_eq_of_lt (bits_lt ..)]

theorem upper_nibble : ∀ n < 256, (UInt8.ofNat n &&& 0xF0).toNat = 2 ^ 4 * bits 4 4 n := by
  decide +kernel

/-- The byte that the limit and the flags share. -/
theorem segmentEntry_granularity :
    (segmentEntry base limit access granularity).granularity.toNat =
      bits 16 4 limit.toNat + 2 ^ 4 * bits 4 4 granularity.toNat := by
  have hmask : ((limit >>> 16) &&& 0x0F).toNat = bits 16 4 limit.toNat :=
    shiftRight_and 16 4 limit.toNat
  have hlimit := bits_lt 16 4 limit.toNat
  have hflags := upper_nibble granularity.toNat granularity.toNat_lt
  rw [UInt8.ofNat_toNat] at hflags
  rw [segmentEntry, UInt8.toNat_or, UInt32.toNat_toUInt8, hmask, hflags,
    Nat.mod_eq_of_lt (by omega), Nat.or_comm, ← Nat.two_pow_add_eq_or_of_lt hlimit,
    Nat.add_comm]

end Entry

theorem upperEntry_limitLow (base : UInt64) :
    (upperEntry base).limitLow.toNat = bits 32 16 base.toNat := by
  have hmask : ((base >>> 32) &&& 0xFFFF).toNat = bits 32 16 base.toNat :=
    shiftRight_and 32 16 base.toNat
  rw [upperEntry, UInt64.toNat_toUInt16, hmask, Nat.mod_eq_of_lt (bits_lt ..)]

theorem upperEntry_baseLow (base : UInt64) :
    (upperEntry base).baseLow.toNat = bits 48 16 base.toNat := by
  have hmask : ((base >>> 48) &&& 0xFFFF).toNat = bits 48 16 base.toNat :=
    shiftRight_and 48 16 base.toNat
  rw [upperEntry, UInt64.toNat_toUInt16, hmask, Nat.mod_eq_of_lt (bits_lt ..)]

theorem lowHalf_toNat (base : UInt64) :
    (base &&& 0xFFFFFFFF).toUInt32.toNat = bits 0 32 base.toNat := by
  have hmask : (base &&& 0xFFFFFFFF).toNat = bits 0 32 base.toNat := shiftRight_and 0 32 base.toNat
  rw [UInt64.toNat_toUInt32, hmask, Nat.mod_eq_of_lt (bits_lt ..)]

/-- The fields in the bits of 8 bytes or of 16. -/
theorem descriptor_fields (e : GdtEntry) (rest : List Field) :
    let d := pack (e.fields ++ rest)
    bits 0 16 d = e.limitLow.toNat ∧ bits 16 16 d = e.baseLow.toNat ∧
      bits 32 8 d = e.baseMiddle.toNat ∧ bits 40 8 d = e.access.toNat ∧
      bits 48 8 d = e.granularity.toNat ∧ bits 56 8 d = e.baseHigh.toNat := by
  have hread := bits_field (e.fields ++ rest)
  have hlength : 6 ≤ (e.fields ++ rest).length := by
    rw [List.length_append]
    exact Nat.le_add_right 6 _
  exact ⟨hread 0 (by omega), hread 1 (by omega), hread 2 (by omega), hread 3 (by omega),
    hread 4 (by omega), hread 5 (by omega)⟩

/-- The first 8 bytes give back what the entry was made from. -/
theorem segmentEntry_decodes (base limit : UInt32) (access granularity : UInt8)
    (rest : List Field) :
    Decodes (pack ((segmentEntry base limit access granularity).fields ++ rest)) base.toNat
      (bits 0 20 limit.toNat) access.toNat (bits 4 4 granularity.toNat) := by
  let d := pack ((segmentEntry base limit access granularity).fields ++ rest)
  change Decodes d _ _ _ _
  obtain ⟨hlimitLow, hbaseLow, hbaseMiddle, haccess, hgranularity, hbaseHigh⟩ :
      bits 0 16 d = _ ∧ bits 16 16 d = _ ∧ bits 32 8 d = _ ∧ bits 40 8 d = _ ∧ bits 48 8 d = _ ∧
        bits 56 8 d = _ := descriptor_fields (segmentEntry base limit access granularity) rest
  rw [segmentEntry_limitLow] at hlimitLow
  rw [segmentEntry_baseLow] at hbaseLow
  rw [segmentEntry_baseMiddle] at hbaseMiddle
  rw [segmentEntry_baseHigh] at hbaseHigh
  rw [segmentEntry_granularity] at hgranularity
  -- the byte that the limit and the flags share, cut where they meet
  obtain ⟨hlimitHigh, hflags⟩ : bits 48 4 d = bits 16 4 limit.toNat ∧
      bits 52 4 d = bits 4 4 granularity.toNat := by
    have hcut : bits 48 8 d = bits 48 4 d + 2 ^ 4 * bits 52 4 d := bits_add 48 4 4 d
    have h₁ := bits_lt 48 4 d
    have h₂ := bits_lt 52 4 d
    have h₃ := bits_lt 16 4 limit.toNat
    have h₄ := bits_lt 4 4 granularity.toNat
    omega
  constructor
  case base =>
    rw [baseOf, bits_add 16 16 8, hbaseLow, hbaseMiddle, hbaseHigh]
    calc bits 0 16 base.toNat + 2 ^ 16 * bits 16 8 base.toNat + 2 ^ 24 * bits 24 8 base.toNat
        = bits 0 24 base.toNat + 2 ^ 24 * bits 24 8 base.toNat := by rw [bits_add 0 16 8]
      _ = bits 0 32 base.toNat := (bits_add 0 24 8 _).symm
      _ = base.toNat := bits_of_lt base.toNat_lt
  case limit =>
    rw [limitOf, hlimitLow, hlimitHigh]
    exact (bits_add 0 16 4 _).symm
  case access => exact haccess
  case flags => exact hflags

/-- A task state segment: the lower entry gives 32 bits of the base, the upper one the rest. -/
theorem tss_decodes (base : UInt64) (limit : UInt32) :
    DecodesTss (systemDescriptor (segmentEntry (base &&& 0xFFFFFFFF).toUInt32 limit 0x89 0x00)
      (upperEntry base)) base.toNat (bits 0 20 limit.toNat) := by
  let d := systemDescriptor
    (segmentEntry (base &&& 0xFFFFFFFF).toUInt32 limit 0x89 0x00) (upperEntry base)
  change DecodesTss d _ _
  have hlower := segmentEntry_decodes (base &&& 0xFFFFFFFF).toUInt32 limit 0x89 0x00
    (upperEntry base).fields
  obtain ⟨hlimitLow, hbaseLow, hbaseMiddle, haccess, hgranularity, hbaseHigh⟩ :=
    descriptor_fields (upperEntry base) []
  rw [upperEntry_limitLow] at hlimitLow
  rw [upperEntry_baseLow] at hbaseLow
  rw [List.append_nil] at hlimitLow hbaseLow hbaseMiddle haccess hgranularity hbaseHigh
  have hupper (offset width : ℕ) : bits (64 + offset) width d =
      bits offset width (pack (upperEntry base).fields) :=
    bits_append (segmentEntry (base &&& 0xFFFFFFFF).toUInt32 limit 0x89 0x00).fields
      (upperEntry base).fields offset width
  constructor
  case limit => exact hlower.limit
  case access => exact hlower.access
  case flags => exact hlower.flags
  case base =>
    have hlow : baseOf d = bits 0 32 base.toNat := hlower.base.trans (lowHalf_toNat base)
    have hhigh : bits 64 32 d = bits 32 32 base.toNat := by
      rw [hupper 0 32, bits_add 0 16 16, hlimitLow, hbaseLow]
      exact (bits_add 32 16 16 _).symm
    rw [systemBaseOf, hlow, hhigh, ← bits_add 0 32 32]
    exact bits_of_lt base.toNat_lt
  case reserved =>
    rw [reservedOf, hupper 32 32, bits_add 32 8 24, bits_add 40 8 16, bits_add 48 8 8,
      hbaseMiddle, haccess, hgranularity, hbaseHigh]
    rfl

/-- All but the entries at these places is as it was. -/
def SameElsewhere (places : List ℕ) (gdt gdt' : Gdt) : Prop :=
  ∀ j, j ∉ places → elem gdt' j = elem gdt j

theorem SameElsewhere.trans {p q : List ℕ} {gdt gdt' gdt'' : Gdt} (h : SameElsewhere p gdt gdt')
    (h' : SameElsewhere q gdt' gdt'') : SameElsewhere (p ++ q) gdt gdt'' := by
  intro j hj
  rw [List.mem_append, not_or] at hj
  rw [h' j hj.2, h j hj.1]

variable (gdt : Gdt)

theorem gdtSetEntry_spec {index : ℕ} (hindex : index < gdtEntries) (base limit : UInt32)
    (access granularity : UInt8) :
    ∃ gdt', gdtSetEntry index base limit access granularity gdt = some gdt' ∧
      elem gdt' index = segmentEntry base limit access granularity ∧
      SameElsewhere [index] gdt gdt' := by
  obtain ⟨gdt', hwrite, hgdt'⟩ := write_eq gdt (segmentEntry base limit access granularity)
    (by omega : (0 : ℤ) ≤ index) (by omega)
  refine ⟨gdt', hwrite, by rw [hgdt', if_pos rfl], fun j hj => ?_⟩
  rw [List.mem_singleton] at hj
  rw [hgdt', if_neg (by omega)]

theorem gdtSetTss_spec {index : ℕ} (hindex : index + 1 < gdtEntries) (base : UInt64)
    (limit : UInt32) :
    ∃ gdt', gdtSetTss index base limit gdt = some gdt' ∧
      elem gdt' index = segmentEntry (base &&& 0xFFFFFFFF).toUInt32 limit 0x89 0x00 ∧
      elem gdt' (index + 1) = upperEntry base ∧ SameElsewhere [index, index + 1] gdt gdt' := by
  obtain ⟨gdt₁, hlower, hentry, hsame⟩ := gdtSetEntry_spec gdt (Nat.lt_of_succ_lt hindex)
    (base &&& 0xFFFFFFFF).toUInt32 limit 0x89 0x00
  obtain ⟨gdt', hupper, hgdt'⟩ := write_eq gdt₁ (upperEntry base)
    (by omega : (0 : ℤ) ≤ (index : ℤ) + 1) (by omega)
  refine ⟨gdt', ?_, ?_, ?_, fun j hj => ?_⟩
  · rw [gdtSetTss, hlower, Option.bind_eq_bind, Option.bind_some, hupper]
  · rw [hgdt', if_neg (by omega), hentry]
  · rw [hgdt', if_pos (by omega)]
  · rw [List.mem_cons, List.mem_singleton, not_or] at hj
    rw [hgdt', if_neg (by omega), hsame j (by simpa using hj.1)]

/-- Whatever the table holds, an entry set decodes to what was asked for, two entries set for
a task state segment decode to all 64 bits of its base, and no other entry changes. -/
theorem descriptors_decode (limit : UInt32) (hlimit : limit.toNat < 2 ^ 20) :
    (∀ index < gdtEntries, ∀ (base : UInt32) (access granularity : UInt8),
      ∃ gdt', gdtSetEntry index base limit access granularity gdt = some gdt' ∧
        Decodes (elem gdt' index).descriptor base.toNat limit.toNat access.toNat
          (bits 4 4 granularity.toNat) ∧
        SameElsewhere [index] gdt gdt') ∧
    ∀ index, index + 1 < gdtEntries → ∀ base : UInt64,
      ∃ gdt', gdtSetTss index base limit gdt = some gdt' ∧
        DecodesTss (systemDescriptor (elem gdt' index) (elem gdt' (index + 1))) base.toNat
          limit.toNat ∧
        SameElsewhere [index, index + 1] gdt gdt' := by
  have hwhole : bits 0 20 limit.toNat = limit.toNat := bits_of_lt hlimit
  constructor
  · intro index hindex base access granularity
    obtain ⟨gdt', hset, hentry, hsame⟩ :=
      gdtSetEntry_spec gdt hindex base limit access granularity
    have hdecodes := segmentEntry_decodes base limit access granularity []
    rw [hwhole, List.append_nil] at hdecodes
    refine ⟨gdt', hset, ?_, hsame⟩
    rw [hentry]
    exact hdecodes
  · intro index hindex base
    obtain ⟨gdt', hset, hlower, hupper, hsame⟩ := gdtSetTss_spec gdt hindex base limit
    have hdecodes := tss_decodes base limit
    rw [hwhole] at hdecodes
    refine ⟨gdt', hset, ?_, hsame⟩
    rw [hlower, hupper]
    exact hdecodes

/-- The segment at the address of some kernel data, whose upper half has all bits set. -/
theorem descriptors_decode_kernel :
    (∃ gdt', gdtSetEntry ((6 : ℕ) : ℤ) 0x12345678 0xABCDE 0x9A 0xAF default = some gdt' ∧
      Decodes (elem gdt' 6).descriptor (0x12345678 : UInt32).toNat (0xABCDE : UInt32).toNat
        (0x9A : UInt8).toNat (bits 4 4 (0xAF : UInt8).toNat) ∧
      SameElsewhere [6] default gdt') ∧
    ∃ gdt', gdtSetTss ((5 : ℕ) : ℤ) 0xFFFFFFFF80123450 0xABCDE default = some gdt' ∧
      DecodesTss (systemDescriptor (elem gdt' 5) (elem gdt' (5 + 1)))
        (0xFFFFFFFF80123450 : UInt64).toNat (0xABCDE : UInt32).toNat ∧
      SameElsewhere [5, 5 + 1] default gdt' :=
  ⟨(descriptors_decode default 0xABCDE (by decide)).1 6 (by decide) 0x12345678 0x9A 0xAF,
    (descriptors_decode default 0xABCDE (by decide)).2 5 (by decide) 0xFFFFFFFF80123450⟩

/-- The table of the kernel: flat segments, 64-bit code and 32-bit data, for the kernel and
for users, and one task state segment. -/
theorem gdtInit_decodes (kernelTss : UInt64) :
    ∃ gdt', gdtInit kernelTss gdt = some gdt' ∧ (elem gdt' 0).descriptor = 0 ∧
      Decodes (elem gdt' 1).descriptor 0 0xFFFFF 0x9A 0xA ∧
      Decodes (elem gdt' 2).descriptor 0 0xFFFFF 0x92 0xC ∧
      Decodes (elem gdt' 3).descriptor 0 0xFFFFF 0xFA 0xA ∧
      Decodes (elem gdt' 4).descriptor 0 0xFFFFF 0xF2 0xC ∧
      DecodesTss (systemDescriptor (elem gdt' 5) (elem gdt' 6)) kernelTss.toNat 103 := by
  obtain ⟨gdt₀, hset₀, hentry₀, -⟩ := gdtSetEntry_spec gdt (by decide : 0 < gdtEntries) 0 0 0 0
  obtain ⟨gdt₁, hset₁, hentry₁, hsame₁⟩ :=
    gdtSetEntry_spec gdt₀ (by decide : 1 < gdtEntries) 0 0xFFFFF 0x9A 0xAF
  obtain ⟨gdt₂, hset₂, hentry₂, hsame₂⟩ :=
    gdtSetEntry_spec gdt₁ (by decide : 2 < gdtEntries) 0 0xFFFFF 0x92 0xCF
  obtain ⟨gdt₃, hset₃, hentry₃, hsame₃⟩ :=
    gdtSetEntry_spec gdt₂ (by decide : 3 < gdtEntries) 0 0xFFFFF 0xFA 0xAF
  obtain ⟨gdt₄, hset₄, hentry₄, hsame₄⟩ :=
    gdtSetEntry_spec gdt₃ (by decide : 4 < gdtEntries) 0 0xFFFFF 0xF2 0xCF
  obtain ⟨gdt', hset', hlower, hupper, hsame'⟩ :=
    gdtSetTss_spec gdt₄ (by decide : 5 + 1 < gdtEntries) kernelTss (104 - 1)
  -- each table keeps its last entry to the end
  have hkept₃ := hsame₄.trans hsame'
  have hkept₂ := hsame₃.trans hkept₃
  have hkept₁ := hsame₂.trans hkept₂
  have hkept₀ := hsame₁.trans hkept₁
  have hsegment (access granularity : UInt8) :=
    segmentEntry_decodes 0 0xFFFFF access granularity []
  simp only [List.append_nil] at hsegment
  refine ⟨gdt', ?_, ?_, ?_, ?_, ?_, ?_, ?_⟩
  · rw [gdtInit, Option.bind_eq_bind]
    change (gdtSetEntry ((0 : ℕ) : ℤ) 0 0 0 0 gdt).bind _ = _
    rw [hset₀, Option.bind_some]
    change (gdtSetEntry ((1 : ℕ) : ℤ) 0 0xFFFFF 0x9A 0xAF gdt₀).bind _ = _
    rw [hset₁, Option.bind_some]
    change (gdtSetEntry ((2 : ℕ) : ℤ) 0 0xFFFFF 0x92 0xCF gdt₁).bind _ = _
    rw [hset₂, Option.bind_some]
    change (gdtSetEntry ((3 : ℕ) : ℤ) 0 0xFFFFF 0xFA 0xAF gdt₂).bind _ = _
    rw [hset₃, Option.bind_some]
    change (gdtSetEntry ((4 : ℕ) : ℤ) 0 0xFFFFF 0xF2 0xCF gdt₃).bind _ = _
    rw [hset₄, Option.bind_some]
    exact hset'
  · rw [hkept₀ 0 (by decide), hentry₀]
    rfl
  · rw [hkept₁ 1 (by decide), hentry₁]
    exact hsegment 0x9A 0xAF
  · rw [hkept₂ 2 (by decide), hentry₂]
    exact hsegment 0x92 0xCF
  · rw [hkept₃ 3 (by decide), hentry₃]
    exact hsegment 0xFA 0xAF
  · rw [hsame' 4 (by decide), hentry₄]
    exact hsegment 0xF2 0xCF
  · rw [hlower, hupper]
    exact tss_decodes kernelTss (104 - 1)

end BinOs.SegmentDescriptors
