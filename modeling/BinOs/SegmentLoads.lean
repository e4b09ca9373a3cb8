import BinOs.SegmentDescriptors

/-! # Loading the segments

A load looks its selector up in the table in use and takes only a descriptor of the kind that is
asked for. Then the processor marks the descriptor in memory: a segment as accessed, and a task
state segment as busy, so that it is not taken again. -/
namespace BinOs.SegmentLoads
open CheckedBuffers PackedFields SegmentDescriptors

/-- The entry that a selector names: not the null one, not of a local table, and all its bytes
within the limit. -/
def lookup (limit bytes selector : ℕ) : Option ℕ :=
  if selector / 8 = 0 ∨ bits 2 1 selector = 1 ∨ limit < selector / 8 * 8 + bytes - 1 then none
  else some (selector / 8)

def present (d : ℕ) : Bool := bits 7 1 (accessOf d) == 1
def privilege (d : ℕ) : ℕ := bits 5 2 (accessOf d)

/-- 64-bit code of the kernel's privilege. -/
def codeSegment (d : ℕ) : Bool :=
  bits 3 2 (accessOf d) == 3 && privilege d == 0 && bits 1 1 (flagsOf d) == 1 &&
    bits 2 1 (flagsOf d) == 0

/-- Data of the kernel's privilege that can be written, as a stack's must be. -/
def dataSegment (d : ℕ) : Bool :=
  bits 3 2 (accessOf d) == 2 && privilege d == 0 && bits 1 1 (accessOf d) == 1

/-- A 64-bit task state segment that is not busy. The type of its second half is zero. -/
def freeTaskSegment (d : ℕ) : Bool := bits 0 5 (accessOf d) == 9 && bits 104 5 d == 0

/-- The two sizes in which the processor reads descriptors. -/
def segmentAt (gdt : Gdt) (index : ℕ) : ℕ := (elem gdt index).descriptor
def systemAt (gdt : Gdt) (index : ℕ) : ℕ := systemDescriptor (elem gdt index) (elem gdt (index + 1))

def mark (index : ℕ) (bit : UInt8) (gdt : Gdt) : Gdt :=
  if h : index < gdtEntries then
    gdt.set index { elem gdt index with access := (elem gdt index).access ||| bit }
  else gdt

/-- `pointer` is the limit in `gdt_pointer`, `gdtr` the limit of the table in use, where that is
the kernel's, and `tr` the base and the limit of the task state segment in use. -/
structure Tables where
  gdt : Gdt
  pointer : UInt16
  gdtr : Option UInt16
  tr : Option (ℕ × ℕ)

def load (kind : ℕ → Bool) (selector : ℕ) (t : Tables) : Option Tables := do
  let limit ← t.gdtr
  let index ← lookup limit.toNat 8 selector
  let d := segmentAt t.gdt index
  if kind d && present d then some { t with gdt := mark index 1 t.gdt } else none

/-- `ltr` -/
def loadTask (selector : ℕ) (t : Tables) : Option Tables := do
  let limit ← t.gdtr
  let index ← lookup limit.toNat 16 selector
  let d := systemAt t.gdt index
  if freeTaskSegment d && present d then
    some { t with gdt := mark index 2 t.gdt, tr := some (systemBaseOf d, limitOf d) }
  else none

def gdtInit (kernelTss : UInt64) (t : Tables) : Option Tables := do
  let gdt ← SegmentDescriptors.gdtInit kernelTss t.gdt
  some { t with gdt, pointer := 8 * 7 - 1 }

/-- Five registers for data, then the code segment by a far return. -/
def gdtLoad (t : Tables) : Option Tables := do
  let t := { t with gdtr := some t.pointer }
  let t ← load dataSegment 0x10 t
  let t ← load dataSegment 0x10 t
  let t ← load dataSegment 0x10 t
  let t ← load dataSegment 0x10 t
  let t ← load dataSegment 0x10 t
  let t ← load codeSegment 0x08 t
  loadTask 0x28 t

/-- Before anything has run, with the boot loader's table in use. -/
def booted : Tables := ⟨Vector.replicate 7 ⟨0, 0, 0, 0, 0, 0⟩, 0, none, none⟩

inductive GdtCall
  | gdtInit
  | gdtLoad
  deriving DecidableEq

def step (kernelTss : UInt64) (t : Tables) : GdtCall → Option Tables
  | .gdtInit => gdtInit kernelTss t
  | .gdtLoad => gdtLoad t

/-- Up to a fault, after which the kernel goes on with nothing. -/
def run (kernelTss : UInt64) : List GdtCall → Tables → Option Tables
  | [], t => some t
  | call :: calls, t => (step kernelTss t call).bind (run kernelTss calls)

theorem accessOf_descriptor (e : GdtEntry) : accessOf e.descriptor = e.access.toNat := by
  have hfields := descriptor_fields e []
  rw [List.append_nil] at hfields
  exact hfields.2.2.2.1

theorem accessOf_system (lower upper : GdtEntry) :
    accessOf (systemDescriptor lower upper) = lower.access.toNat :=
  (descriptor_fields lower upper.fields).2.2.2.1

/-- An entry's access byte holds none of its base, limit and flags. -/
theorem other_access (e : GdtEntry) (access : UInt8) (rest : List Field) :
    let d := pack (e.fields ++ rest)
    let d' := pack ({ e with access }.fields ++ rest)
    baseOf d' = baseOf d ∧ limitOf d' = limitOf d ∧ flagsOf d' = flagsOf d := by
  intro d d'
  obtain ⟨hlimit, hbase, hmiddle, -, hshared, hhigh⟩ := descriptor_fields e rest
  obtain ⟨hlimit', hbase', hmiddle', -, hshared', hhigh'⟩ :=
    descriptor_fields { e with access } rest
  obtain ⟨hlimitHigh, hflags⟩ : bits 48 4 d' = bits 48 4 d ∧ flagsOf d' = flagsOf d := by
    have hsame : bits 48 8 d' = bits 48 8 d := hshared'.trans hshared.symm
    have hcut : bits 48 8 d = bits 48 4 d + 2 ^ 4 * flagsOf d := bits_add 48 4 4 d
    have hcut' : bits 48 8 d' = bits 48 4 d' + 2 ^ 4 * flagsOf d' := bits_add 48 4 4 d'
    have h₁ := bits_lt 48 4 d
    have h₂ := bits_lt 48 4 d'
    omega
  refine ⟨?_, ?_, hflags⟩
  · rw [baseOf, baseOf, bits_add 16 16 8, bits_add 16 16 8, hbase'.trans hbase.symm,
      hmiddle'.trans hmiddle.symm, hhigh'.trans hhigh.symm]
  · rw [limitOf, limitOf, hlimit'.trans hlimit.symm, hlimitHigh]

section Marking
variable (gdt : Gdt) {index : ℕ} (bit : UInt8)

theorem elem_mark (hindex : index < gdtEntries) (j : ℕ) : elem (mark index bit gdt) j =
    if j = index then { elem gdt index with access := (elem gdt index).access ||| bit }
    else elem gdt j := by
  rw [mark, dif_pos hindex]
  by_cases hj : j = index
  · subst hj
    simp [elem, hindex]
  · rw [if_neg hj]
    simp [elem, Vector.getElem?_set_ne, Ne.symm hj]

theorem flagsOf_mark (hindex : index < gdtEntries) (j : ℕ) :
    flagsOf (segmentAt (mark index bit gdt) j) = flagsOf (segmentAt gdt j) := by
  rw [segmentAt, elem_mark gdt bit hindex]
  split
  · next hj =>
    subst hj
    have hother := (other_access (elem gdt j) ((elem gdt j).access ||| bit) []).2.2
    rwa [List.append_nil, List.append_nil] at hother
  · rfl

end Marking

/-- The table of the kernel, whichever of its segments have been accessed, with this access byte
for the task state segment. -/
structure IsKernels (kernelTss : UInt64) (task : UInt8) (gdt : Gdt) : Prop where
  code : (elem gdt 1).access ||| 1 = 0x9B ∧ flagsOf (segmentAt gdt 1) = 0xA
  data : (elem gdt 2).access ||| 1 = 0x93
  task : (elem gdt 5).access = task
  taskBase : systemBaseOf (systemAt gdt 5) = kernelTss.toNat
  taskLimit : limitOf (systemAt gdt 5) = 103
  taskType : bits 104 5 (systemAt gdt 5) = 0

theorem access_of_toNat {e : GdtEntry} {access : UInt8} (h : accessOf e.descriptor = access.toNat) :
    e.access = access :=
  UInt8.toNat_inj.mp ((accessOf_descriptor e).symm.trans h)

theorem gdtInit_isKernels (kernelTss : UInt64) (gdt : Gdt) :
    ∃ gdt', SegmentDescriptors.gdtInit kernelTss gdt = some gdt' ∧
      IsKernels kernelTss 0x89 gdt' := by
  obtain ⟨gdt', hinit, -, hcode, hdata, -, -, htask⟩ := gdtInit_decodes gdt kernelTss
  refine ⟨gdt', hinit, ?_⟩
  have hcodeAccess : (elem gdt' 1).access = 0x9A := access_of_toNat hcode.access
  have hdataAccess : (elem gdt' 2).access = 0x92 := access_of_toNat hdata.access
  constructor
  case code => exact ⟨by rw [hcodeAccess]; rfl, hcode.flags⟩
  case data =>
    rw [hdataAccess]
    rfl
  case task => exact UInt8.toNat_inj.mp ((accessOf_system _ _).symm.trans htask.access)
  case taskBase => exact htask.base
  case taskLimit => exact htask.limit
  case taskType =>
    -- the reserved bits, of which these are some, are all zero
    have hreserved : bits 96 32 (systemAt gdt' 5) = 0 := htask.reserved
    rw [bits_add 96 8 24, bits_add 104 5 19] at hreserved
    omega

section Loads
variable {kernelTss : UInt64} {task : UInt8} {gdt : Gdt} {t : Tables}

theorem accessed_code : ∀ n < 256, UInt8.ofNat n ||| 1 = 0x9B →
    bits 3 2 n = 3 ∧ bits 5 2 n = 0 ∧ bits 7 1 n = 1 := by
  decide +kernel

theorem accessed_data : ∀ n < 256, UInt8.ofNat n ||| 1 = 0x93 →
    bits 3 2 n = 2 ∧ bits 5 2 n = 0 ∧ bits 1 1 n = 1 ∧ bits 7 1 n = 1 := by
  decide +kernel

theorem IsKernels.code_serves (h : IsKernels kernelTss task gdt) :
    codeSegment (segmentAt gdt 1) = true ∧ present (segmentAt gdt 1) = true := by
  have hcode := accessed_code _ (elem gdt 1).access.toNat_lt
  rw [UInt8.ofNat_toNat, ← accessOf_descriptor] at hcode
  obtain ⟨hkind, hprivilege, hpresent⟩ := hcode h.code.1
  have hlong : bits 1 1 (flagsOf (elem gdt 1).descriptor) = 1 := congrArg (bits 1 1) h.code.2
  have hdefault : bits 2 1 (flagsOf (elem gdt 1).descriptor) = 0 := congrArg (bits 2 1) h.code.2
  simp [codeSegment, present, privilege, segmentAt, hkind, hprivilege, hpresent, hlong, hdefault]

theorem IsKernels.data_serves (h : IsKernels kernelTss task gdt) :
    (dataSegment (segmentAt gdt 2) && present (segmentAt gdt 2)) = true := by
  have hdata := accessed_data _ (elem gdt 2).access.toNat_lt
  rw [UInt8.ofNat_toNat, ← accessOf_descriptor] at hdata
  obtain ⟨hkind, hprivilege, hwritable, hpresent⟩ := hdata h.data
  simp [dataSegment, present, privilege, segmentAt, hkind, hprivilege, hwritable, hpresent]

theorem IsKernels.mark_segment (h : IsKernels kernelTss task gdt) {index : ℕ} (hindex : index < 5) :
    IsKernels kernelTss task (mark index 1 gdt) := by
  have hmark := elem_mark gdt 1 (Nat.lt_trans hindex (by decide : 5 < gdtEntries))
  have haccess (j : ℕ) : (elem (mark index 1 gdt) j).access ||| 1 = (elem gdt j).access ||| 1 := by
    rw [hmark]
    split
    · next hj =>
      subst hj
      exact (UInt8.or_assoc ..).trans (congrArg _ (UInt8.or_self ..))
    · rfl
  have htask (j : ℕ) (hj : 5 ≤ j) : elem (mark index 1 gdt) j = elem gdt j := by
    rw [hmark, if_neg (by omega)]
  have hsystem : systemAt (mark index 1 gdt) 5 = systemAt gdt 5 := by
    rw [systemAt, htask 5 (by omega), htask 6 (by omega), systemAt]
  constructor
  case code =>
    rw [haccess, flagsOf_mark gdt 1 (Nat.lt_trans hindex (by decide))]
    exact h.code
  case data =>
    rw [haccess]
    exact h.data
  case task =>
    rw [htask 5 (by omega)]
    exact h.task
  case taskBase =>
    rw [hsystem]
    exact h.taskBase
  case taskLimit =>
    rw [hsystem]
    exact h.taskLimit
  case taskType =>
    rw [hsystem]
    exact h.taskType

theorem IsKernels.mark_task (h : IsKernels kernelTss 0x89 gdt) :
    IsKernels kernelTss 0x8B (mark 5 2 gdt) := by
  have hmark := elem_mark gdt 2 (by decide : 5 < gdtEntries)
  have hother (j : ℕ) (hj : j ≠ 5) : elem (mark 5 2 gdt) j = elem gdt j := by
    rw [hmark, if_neg hj]
  have hmarked := (hmark 5).trans (if_pos rfl)
  have hupper (offset width : ℕ) : bits (64 + offset) width (systemAt (mark 5 2 gdt) 5) =
      bits (64 + offset) width (systemAt gdt 5) := by
    have hcut := bits_append (elem gdt 5).fields (elem gdt 6).fields offset width
    have hcut' := bits_append (elem (mark 5 2 gdt) 5).fields (elem gdt 6).fields offset width
    rw [systemAt, hother 6 (by decide)]
    exact hcut'.trans hcut.symm
  obtain ⟨hbase, hlimit, -⟩ := other_access (elem gdt 5) ((elem gdt 5).access ||| 2)
    (elem gdt 6).fields
  rw [← hmarked, ← hother 6 (by decide)] at hbase hlimit
  have hsegment (j : ℕ) (hj : j ≠ 5) : segmentAt (mark 5 2 gdt) j = segmentAt gdt j := by
    rw [segmentAt, hother j hj, segmentAt]
  constructor
  case code =>
    rw [hother 1 (by decide), hsegment 1 (by decide)]
    exact h.code
  case data =>
    rw [hother 2 (by decide)]
    exact h.data
  case task =>
    rw [hmarked, h.task]
    rfl
  case taskBase =>
    have hlower : baseOf (systemAt (mark 5 2 gdt) 5) = baseOf (systemAt gdt 5) := by
      rw [systemAt, systemDescriptor, hbase, hother 6 (by decide), systemAt, systemDescriptor]
    rw [systemBaseOf, hlower, hupper 0 32]
    exact h.taskBase
  case taskLimit =>
    have hlower : limitOf (systemAt (mark 5 2 gdt) 5) = limitOf (systemAt gdt 5) := by
      rw [systemAt, systemDescriptor, hlimit, hother 6 (by decide), systemAt, systemDescriptor]
    rw [hlower]
    exact h.taskLimit
  case taskType =>
    rw [hupper 40 5]
    exact h.taskType

theorem load_eq {kind : ℕ → Bool} {selector index : ℕ} {limit : UInt16} (hgdtr : t.gdtr = some limit)
    (hlookup : lookup limit.toNat 8 selector = some index)
    (hserves : (kind (segmentAt t.gdt index) && present (segmentAt t.gdt index)) = true) :
    load kind selector t = some { t with gdt := mark index 1 t.gdt } := by
  rw [load, hgdtr, Option.bind_eq_bind, Option.bind_some, hlookup, Option.bind_eq_bind,
    Option.bind_some]
  exact if_pos hserves

theorem lookups_kernel : lookup 55 8 0x10 = some 2 ∧ lookup 55 8 0x08 = some 1 ∧
    lookup 55 16 0x28 = some 5 := ⟨rfl, rfl, rfl⟩

/-- Up to the task state segment a load of the kernel's table always succeeds. -/
theorem segments_load (h : IsKernels kernelTss task t.gdt) (hpointer : t.pointer = 55) :
    ∃ gdt, IsKernels kernelTss task gdt ∧
      gdtLoad t = loadTask 0x28 { t with gdt, gdtr := some 55 } := by
  have hload (gdt : Gdt) (h : IsKernels kernelTss task gdt) : ∃ gdt', IsKernels kernelTss task gdt' ∧
      load dataSegment 0x10 { t with gdt, gdtr := some 55 } =
        some { t with gdt := gdt', gdtr := some 55 } :=
    ⟨_, h.mark_segment (by decide : 2 < 5), load_eq rfl lookups_kernel.1 h.data_serves⟩
  obtain ⟨gdt₁, h₁, hds⟩ := hload t.gdt h
  obtain ⟨gdt₂, h₂, hes⟩ := hload gdt₁ h₁
  obtain ⟨gdt₃, h₃, hfs⟩ := hload gdt₂ h₂
  obtain ⟨gdt₄, h₄, hgs⟩ := hload gdt₃ h₃
  obtain ⟨gdt₅, h₅, hss⟩ := hload gdt₄ h₄
  have hcs : load codeSegment 0x08 { t with gdt := gdt₅, gdtr := some 55 } =
      some { t with gdt := mark 1 1 gdt₅, gdtr := some 55 } :=
    load_eq rfl lookups_kernel.2.1 ((Bool.and_eq_true ..).mpr h₅.code_serves)
  refine ⟨_, h₅.mark_segment (by decide : 1 < 5), ?_⟩
  have hlimit : ({ t with gdtr := some t.pointer } : Tables) = { t with gdtr := some 55 } := by
    rw [hpointer]
  rw [gdtLoad, hlimit, hds, Option.bind_eq_bind, Option.bind_some, hes, Option.bind_some, hfs,
    Option.bind_some, hgs, Option.bind_some, hss, Option.bind_some, hcs, Option.bind_some]

theorem loadTask_kernel (hgdtr : t.gdtr = some 55) : loadTask 0x28 t =
    let d := systemAt t.gdt 5
    if freeTaskSegment d && present d then
      some { t with gdt := mark 5 2 t.gdt, tr := some (systemBaseOf d, limitOf d) }
    else none := by
  rw [loadTask, hgdtr]
  rfl

theorem IsKernels.task_access (h : IsKernels kernelTss task gdt) :
    accessOf (systemAt gdt 5) = task.toNat :=
  h.task ▸ accessOf_system (elem gdt 5) (elem gdt 6)

/-- A fresh task state segment is taken and marked. -/
theorem loadTask_fresh (h : IsKernels kernelTss 0x89 t.gdt) (hgdtr : t.gdtr = some 55) :
    loadTask 0x28 t =
      some { t with gdt := mark 5 2 t.gdt, tr := some (kernelTss.toNat, 103) } := by
  have hserves : (freeTaskSegment (systemAt t.gdt 5) && present (systemAt t.gdt 5)) = true := by
    rw [freeTaskSegment, present, h.task_access, h.taskType]
    rfl
  rw [loadTask_kernel hgdtr]
  dsimp only
  rw [if_pos hserves, h.taskBase, h.taskLimit]

/-- A busy one is refused. -/
theorem loadTask_busy (h : IsKernels kernelTss 0x8B t.gdt) (hgdtr : t.gdtr = some 55) :
    loadTask 0x28 t = none := by
  have hrefused : freeTaskSegment (systemAt t.gdt 5) = false := by
    rw [freeTaskSegment, h.task_access]
    rfl
  rw [loadTask_kernel hgdtr]
  dsimp only
  rw [hrefused]
  rfl

end Loads

/-- Whether the table has been set up, and whether its task state segment is in use since. -/
inductive Phase
  | empty
  | fresh
  | busy

def Phase.next : Phase → GdtCall → Option Phase
  | _, .gdtInit => some .fresh
  | .fresh, .gdtLoad => some .busy
  | _, .gdtLoad => none

def Phase.Holds (kernelTss : UInt64) (t : Tables) : Phase → Prop
  | .empty => t.pointer = 0
  | .fresh => t.pointer = 55 ∧ IsKernels kernelTss 0x89 t.gdt
  | .busy => t.pointer = 55 ∧ IsKernels kernelTss 0x8B t.gdt

/-- The kernel's table and its task state segment are those in use. -/
structure InUse (kernelTss : UInt64) (t : Tables) : Prop where
  gdtr : t.gdtr = some 55
  tr : t.tr = some (kernelTss.toNat, 103)
  table : ∃ task, IsKernels kernelTss task t.gdt

section Runs
variable {kernelTss : UInt64} {t t' : Tables} {p : Phase}

theorem gdtInit_fresh (kernelTss : UInt64) (t : Tables) : ∃ t', gdtInit kernelTss t = some t' ∧
    Phase.fresh.Holds kernelTss t' ∧ t'.gdtr = t.gdtr ∧ t'.tr = t.tr := by
  obtain ⟨gdt', hinit, hkernels⟩ := gdtInit_isKernels kernelTss t.gdt
  refine ⟨{ t with gdt := gdt', pointer := 55 }, ?_, ⟨rfl, hkernels⟩, rfl, rfl⟩
  rw [gdtInit, hinit]
  rfl

theorem gdtLoad_fresh (h : Phase.fresh.Holds kernelTss t) :
    ∃ t', gdtLoad t = some t' ∧ Phase.busy.Holds kernelTss t' ∧ InUse kernelTss t' := by
  obtain ⟨gdt, hkernels, hload⟩ := segments_load h.2 h.1
  rw [hload, loadTask_fresh hkernels rfl]
  exact ⟨_, rfl, ⟨h.1, hkernels.mark_task⟩, rfl, rfl, _, hkernels.mark_task⟩

theorem gdtLoad_busy (h : Phase.busy.Holds kernelTss t) : gdtLoad t = none := by
  obtain ⟨gdt, hkernels, hload⟩ := segments_load h.2 h.1
  rw [hload, loadTask_busy hkernels rfl]

theorem gdtLoad_empty (h : Phase.empty.Holds kernelTss t) : gdtLoad t = none := by
  have hlimit : ({ t with gdtr := some t.pointer } : Tables) = { t with gdtr := some 0 } := by
    have hpointer : t.pointer = 0 := h
    rw [hpointer]
  rw [gdtLoad, hlimit]
  rfl

/-- What a call leads to is told by the phase. -/
theorem step_phase (h : p.Holds kernelTss t) (call : GdtCall) :
    match p.next call with
    | none => step kernelTss t call = none
    | some p' => ∃ t', step kernelTss t call = some t' ∧ p'.Holds kernelTss t' ∧
      (call = .gdtLoad ∨ InUse kernelTss t → InUse kernelTss t') := by
  cases call with
  | gdtInit =>
    obtain ⟨t', hstep, hfresh, hgdtr, htr⟩ := gdtInit_fresh kernelTss t
    refine ⟨t', hstep, hfresh, ?_⟩
    rintro (hcall | huse)
    · cases hcall
    · exact ⟨hgdtr.trans huse.gdtr, htr.trans huse.tr, _, hfresh.2⟩
  | gdtLoad =>
    cases p with
    | empty => exact gdtLoad_empty h
    | fresh =>
      obtain ⟨t', hstep, hbusy, huse⟩ := gdtLoad_fresh h
      exact ⟨t', hstep, hbusy, fun _ => huse⟩
    | busy => exact gdtLoad_busy h

/-- Each load comes with a set-up of its own before it. -/
def LoadsOnce : Phase → List GdtCall → Prop
  | _, [] => True
  | p, call :: calls => ∃ p', p.next call = some p' ∧ LoadsOnce p' calls

theorem run_isSome_iff (h : p.Holds kernelTss t) (calls : List GdtCall) :
    (run kernelTss calls t).isSome ↔ LoadsOnce p calls := by
  induction calls generalizing p t with
  | nil => exact iff_of_true rfl trivial
  | cons call calls ih =>
    have hstep := step_phase h call
    rw [run, LoadsOnce]
    cases hnext : p.next call with
    | none =>
      rw [hnext] at hstep
      have hfault : step kernelTss t call = none := hstep
      rw [hfault]
      exact iff_of_false nofun fun ⟨p', hnone, _⟩ => nomatch hnone
    | some p' =>
      rw [hnext] at hstep
      obtain ⟨t', hrun, hholds, -⟩ := hstep
      rw [hrun, Option.bind_some, ih hholds]
      exact ⟨fun hrest => ⟨p', rfl, hrest⟩, fun ⟨q, hq, hrest⟩ => Option.some.inj hq ▸ hrest⟩

/-- After a load the kernel's table stays in use and stays what it is. -/
theorem run_inUse (h : p.Holds kernelTss t) {calls : List GdtCall}
    (hrun : run kernelTss calls t = some t') (huse : .gdtLoad ∈ calls ∨ InUse kernelTss t) :
    InUse kernelTss t' := by
  induction calls generalizing p t with
  | nil =>
    cases hrun
    exact huse.resolve_left List.not_mem_nil
  | cons call calls ih =>
    have hstep := step_phase h call
    rw [run] at hrun
    cases hnext : p.next call with
    | none =>
      rw [hnext] at hstep
      have hfault : step kernelTss t call = none := hstep
      rw [hfault] at hrun
      cases hrun
    | some p' =>
      rw [hnext] at hstep
      obtain ⟨u, hcall, hholds, hkeeps⟩ := hstep
      rw [hcall, Option.bind_some] at hrun
      refine ih hholds hrun ?_
      rcases huse with hload | huse
      · rcases List.mem_cons.mp hload with hhead | htail
        · exact Or.inr (hkeeps (Or.inl hhead.symm))
        · exact Or.inl htail
      · exact Or.inr (hkeeps (Or.inr huse))

/-- From the start, a run meets no fault exactly if each load has a set-up of its own, and from
the first load on the kernel's table and its task state segment are in use. -/
theorem loads_fault_iff (kernelTss : UInt64) (calls : List GdtCall) :
    (run kernelTss calls booted = none ↔ ¬ LoadsOnce .empty calls) ∧
    ∀ t, run kernelTss calls booted = some t → .gdtLoad ∈ calls → InUse kernelTss t := by
  have hbooted : Phase.empty.Holds kernelTss booted := rfl
  constructor
  · rw [← run_isSome_iff hbooted calls, Option.not_isSome_iff_eq_none]
  · intro t hrun hload
    exact run_inUse hbooted hrun (Or.inl hload)

end Runs

end BinOs.SegmentLoads
