import BinOs.GateSequences
import BinOs.SegmentLoads

/-! # The way to a handler

The processor goes to a handler through a gate and through the code segment that the gate names.
Where the way is barred it raises a fault, to whose handler it must find the way, and of a fault on
that way comes a double fault. When there is no way to its handler either, the processor
shuts down. -/
namespace BinOs.VectorEntry
open InterruptTable LastWriter GateSequences PackedFields SegmentDescriptors SegmentLoads

def notPresentFault : UInt8 := 11
def protectionFault : UInt8 := 13
def doubleFault : UInt8 := 8

/-- The handler's address, or the fault that is met. Interrupt and trap gates are types 14 and
15. The table in use has all 256 gates; that an address is one that code can have is not
checked here. -/
def enter (limit : ℕ) (gdt : Gdt) (idt : Idt) (vector : UInt8) : Except UInt8 ℕ :=
  let d := (idt vector).descriptor
  if bits 1 4 (attributesOf d) ≠ 7 then .error protectionFault
  else if bits 7 1 (attributesOf d) = 0 then .error notPresentFault
  else
    match lookup limit 8 (selectorOf d) with
    | none => .error protectionFault
    | some index =>
      if codeSegment (segmentAt gdt index) then
        if present (segmentAt gdt index) then .ok (offsetOf d) else .error notPresentFault
      else .error protectionFault

/-- Faults on whose way another makes a double fault. Vectors below 32 are taken for exceptions, as
the lines of the two controllers have others. -/
def contributory : List UInt8 := [0, 10, 11, 12, 13, 14]

def escalate (vector fault : UInt8) : Option UInt8 :=
  if vector = doubleFault then none
  else if vector ∈ contributory then some doubleFault
  else some fault

/-- Which handler is entered in the end, and its address. A way has no more than three parts:
to the vector's handler, to a fault's and to the double fault's. -/
def arrive (limit : ℕ) (gdt : Gdt) (idt : Idt) : ℕ → UInt8 → Option (UInt8 × ℕ)
  | 0, _ => none
  | parts + 1, vector =>
    match enter limit gdt idt vector with
    | .ok address => some (vector, address)
    | .error fault => (escalate vector fault).bind (arrive limit gdt idt parts)

section Ways
variable {kernelTss : UInt64} {task : UInt8} {gdt : Gdt} {idt : Idt} {vector : UInt8}

theorem enter_handler (h : IsKernels kernelTss task gdt) {handler : UInt64}
    (hgate : idt vector = gate handler 0x8E) : enter 55 gdt idt vector = .ok handler.toNat := by
  have hdecodes := gate_decodes handler 0x8E
  rw [enter, hgate, hdecodes.attributes, hdecodes.selector, hdecodes.offset]
  change (if codeSegment (segmentAt gdt 1) then
    if present (segmentAt gdt 1) then _ else _ else _) = _
  rw [if_pos h.code_serves.1, if_pos h.code_serves.2]

theorem enter_none (hgate : idt vector = emptyEntry) :
    enter 55 gdt idt vector = .error protectionFault := by
  rw [enter, hgate, emptyEntry_descriptor]
  rfl

theorem arrive_handler (h : IsKernels kernelTss task gdt) {handler : UInt64} (parts : ℕ)
    (hgate : idt vector = gate handler 0x8E) :
    arrive 55 gdt idt (parts + 1) vector = some (vector, handler.toNat) := by
  rw [arrive, enter_handler h hgate]

/-- Without a gate the way leads to the handler of the protection fault. -/
theorem arrive_none (h : IsKernels kernelTss task gdt) {handler : UInt64} (parts : ℕ)
    (hvector : 32 ≤ vector.toNat) (hgate : idt vector = emptyEntry)
    (hfault : idt protectionFault = gate handler 0x8E) :
    arrive 55 gdt idt (parts + 2) vector = some (protectionFault, handler.toNat) := by
  have hbenign : escalate vector protectionFault = some protectionFault := by
    have hall : (doubleFault :: contributory).all (fun v => v.toNat < 32) = true := rfl
    have hlow := fun v hv => of_decide_eq_true (List.all_eq_true.mp hall v hv)
    rw [escalate, if_neg, if_neg]
    · exact fun hmem => absurd (hlow vector (List.mem_cons_of_mem _ hmem)) (Nat.not_lt.mpr hvector)
    · exact fun heq => absurd (hlow vector (heq ▸ List.mem_cons_self)) (Nat.not_lt.mpr hvector)
  rw [arrive, enter_none hgate]
  dsimp only
  rw [hbenign, Option.bind_some, arrive_handler h parts hfault]

end Ways

section Started
variable (stubs : Stubs)

/-- The handler that a vector has last been given, if it has not been taken away since. -/
def handlerOf (vector : UInt8) (calls : List IdtCall) : Option UInt64 :=
  (lastEffect (installed stubs vector) calls).join

/-- The installation of the exceptions after the table was cleared. -/
def started (before after : List IdtCall) : List IdtCall :=
  before ++ [.idtInit, .installExceptions] ++ after

theorem started_idt (before after : List IdtCall) (s : Controllers) (vector : UInt8) :
    (GateSequences.run stubs (started before after) s).idt vector =
      entryOf (handlerOf stubs vector (started before after)) := by
  have hset : lastEffect (installed stubs vector) (started before after) ≠ none := by
    intro hnone
    have hcleared := lastEffect_eq_none_iff.mp hnone .idtInit (by simp [started])
    cases hcleared
  obtain ⟨handler, hset⟩ := Option.ne_none_iff_exists'.mp hset
  rw [run_idt, handlerOf, hset]
  rfl

theorem ite_installs (p : Prop) [Decidable p] (handler : UInt64) :
    (if p then some (some handler) else none) ≠ some none := by
  split
  · exact fun h => Option.some_ne_none handler (Option.some.inj h)
  · exact (Option.some_ne_none none).symm

/-- Only a clearing takes a handler away. -/
theorem lastEffect_installs {vector : UInt8} {calls : List IdtCall} (hkept : .idtInit ∉ calls) :
    lastEffect (installed stubs vector) calls ≠ some none := by
  induction calls with
  | nil => exact (Option.some_ne_none none).symm
  | cons call calls ih =>
    rw [List.mem_cons, not_or] at hkept
    have hcall : installed stubs vector call ≠ some none := by
      cases call with
      | idtInit => exact absurd rfl hkept.1
      | installExceptions =>
        rw [installed]
        split
        · exact fun h => Option.some_ne_none _ (Option.some.inj h)
        · exact (Option.some_ne_none none).symm
      | initTimerIrq => exact ite_installs _ stubs.irq0
      | initKeyboardIrq => exact ite_installs _ stubs.irq1
      | installIrqCommon irqVector handler => exact ite_installs _ handler
    rw [lastEffect]
    cases hlast : lastEffect (installed stubs vector) calls with
    | none => exact hcall
    | some handler => exact fun heq => ih hkept.2 (hlast.trans heq)

/-- Without another clearing, no exception is without a handler. -/
theorem exception_handled {vector : UInt8} (hvector : vector.toNat < 32)
    (before after : List IdtCall) (hkept : .idtInit ∉ after) :
    ∃ handler, handlerOf stubs vector (started before after) = some handler := by
  have hinstalled : installed stubs vector .installExceptions =
      some (some stubs.isr[vector.toNat]) := dif_pos hvector
  rw [handlerOf, started, lastEffect_append]
  cases hlast : lastEffect (installed stubs vector) after with
  | none =>
    refine ⟨stubs.isr[vector.toNat], ?_⟩
    rw [Option.none_or, lastEffect_append, lastEffect, lastEffect, lastEffect, hinstalled]
    rfl
  | some handler =>
    cases handler with
    | none => exact absurd hlast (lastEffect_installs stubs hkept)
    | some handler => exact ⟨handler, rfl⟩

/-- Once the kernel's segments are loaded, and `idt_load` has put in use a table of gates that was
cleared and given the exceptions, every vector finds its way: to the handler it was last given, or, if it
was given none, to that of the protection fault. The processor does not shut down. -/
theorem every_vector_arrives {kernelTss : UInt64} {gdtCalls : List GdtCall} {t : Tables}
    (hrun : SegmentLoads.run kernelTss gdtCalls booted = some t) (hload : .gdtLoad ∈ gdtCalls)
    {before after : List IdtCall} (hkept : .idtInit ∉ after) (s : Controllers) (vector : UInt8) :
    ∃ limit, t.gdtr = some limit ∧
      let way := arrive limit.toNat t.gdt (GateSequences.run stubs (started before after) s).idt 3
      match handlerOf stubs vector (started before after) with
      | some handler => way vector = some (vector, handler.toNat)
      | none => ∃ handler, handlerOf stubs protectionFault (started before after) = some handler ∧
        way vector = some (protectionFault, handler.toNat) := by
  have huse := (loads_fault_iff kernelTss gdtCalls).2 t hrun hload
  obtain ⟨task, htable⟩ := huse.table
  have hgates := started_idt stubs before after s
  refine ⟨55, huse.gdtr, ?_⟩
  intro way
  cases hhandler : handlerOf stubs vector (started before after) with
  | some handler => exact arrive_handler htable 2 ((hgates vector).trans (congrArg _ hhandler))
  | none =>
    have hthirteen : protectionFault.toNat < 32 := by decide
    obtain ⟨handler, hfault⟩ := exception_handled stubs hthirteen before after hkept
    refine ⟨handler, hfault, arrive_none htable 1 ?_ ((hgates vector).trans (congrArg _ hhandler))
      ((hgates _).trans (congrArg _ hfault))⟩
    by_contra hexception
    obtain ⟨handler', hhandler'⟩ := exception_handled stubs (Nat.not_le.mp hexception) before after
      hkept
    rw [hhandler] at hhandler'
    cases hhandler'

end Started

/-- Stubs one behind the other, and a table with gates that all lead to one place. -/
def someStubs : Stubs := ⟨Vector.ofFn fun i => 0x1000 + 16 * UInt64.ofNat i, 0x2000, 0x2010⟩

def someGates : Controllers := ⟨fun _ => gate 0x7C00 0x8F, ⟨⟨0, 8, 0⟩, ⟨0, 0x70, 0⟩, []⟩⟩

/-- The calls with which the kernel starts, and an interrupt on line 7, for which nothing is
installed. -/
theorem every_vector_arrives_boot : ∃ t limit,
    SegmentLoads.run 0x9000 [.gdtInit, .gdtLoad] booted = some t ∧ t.gdtr = some limit ∧
      arrive limit.toNat t.gdt (GateSequences.run someStubs
        (started [] [.initTimerIrq, .initKeyboardIrq]) someGates).idt 3 39 = some (13, 0x10D0) := by
  have hbooted : Phase.empty.Holds 0x9000 booted := rfl
  obtain ⟨t, hrun⟩ := Option.isSome_iff_exists.mp
    ((run_isSome_iff hbooted [.gdtInit, .gdtLoad]).mpr ⟨.fresh, rfl, .busy, rfl, trivial⟩)
  have hkept : IdtCall.idtInit ∉ [.initTimerIrq, .initKeyboardIrq] := by simp
  obtain ⟨limit, hlimit, hway⟩ :=
    @every_vector_arrives someStubs 0x9000 _ t hrun (by decide) [] _ hkept someGates 39
  obtain ⟨handler, hhandler, hway⟩ := hway
  cases hhandler
  exact ⟨t, limit, hrun, hlimit, hway⟩

end BinOs.VectorEntry
