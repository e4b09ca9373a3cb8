import BinOs.InterruptStubs

/-! # Interrupt stubs do not show

The stubs of the exceptions and of the interrupt lines leave the same layout on the stack:
fifteen registers, the vector, an error code, the processor's return frame. The code calls a
C function in between, which may change every register. -/
namespace BinOs.StubTransparency
open InterruptTable InterruptStubs

/-- The common part, with the address of the C handler: both parts in `isr.asm` are this. -/
def commonStub (handler : UInt64) : List Instr :=
  savedRegisters.map .push ++
  [.movFromStack .rdi 120, .call handler] ++
  savedRegisters.reverse.map .pop ++
  [.addRsp 16, .iretq]

def isrCommonStub (isrHandler : UInt64) : List Instr := commonStub isrHandler

theorem irqCommonStub_eq (image : Image) : irqCommonStub image = commonStub image.irqHandler := rfl

/-- `ISR_NOERRCODE` -/
def isrNoErrcode (isrHandler number : UInt64) : List Instr :=
  [.pushImm 0, .pushImm number] ++ isrCommonStub isrHandler

/-- `ISR_ERRCODE` -/
def isrErrcode (isrHandler number : UInt64) : List Instr :=
  [.pushImm number] ++ isrCommonStub isrHandler

/-- The vectors declared with `ISR_ERRCODE`. -/
def errcodeVectors : List (Fin 34) := [8, 10, 11, 12, 13, 14, 17, 21, 30]

/-- The stub of each vector: the exceptions' and those of the two interrupt lines. -/
def stubOf (image : Image) (isrHandler : UInt64) (vector : Fin 34) : List Instr :=
  if vector < 32 then
    if vector ∈ errcodeVectors then isrErrcode isrHandler (UInt64.ofNat vector)
    else isrNoErrcode isrHandler (UInt64.ofNat vector)
  else irqStub image (UInt64.ofNat vector)

/-- The C function that the stub calls. -/
def handlerOf (image : Image) (isrHandler : UInt64) (vector : Fin 34) : UInt64 :=
  if vector < 32 then isrHandler else image.irqHandler

/-- The processor enters a stub; it pushes an error code for these vectors only. -/
def raise (gate : IdtEntry) (vector : Fin 34) (errorCode : UInt64) (c : Cpu) : Option Cpu :=
  (c.take gate).map fun c => if vector ∈ errcodeVectors then c.push errorCode else c

/-- The word so many places above the top of the stack. -/
def stackWord (c : Cpu) (k : ℕ) : UInt64 := c.mem (c.rsp + UInt64.ofNat (8 * k))

/-- The stack begins, from its top, with these words. -/
def Stacked (c : Cpu) (words : List UInt64) : Prop :=
  ∀ k (hk : k < words.length), stackWord c k = words[k]

variable {c : Cpu} {words : List UInt64} {image : Image}

theorem address_below (x : UInt64) (k : ℕ) :
    x - 8 + UInt64.ofNat (8 * (k + 1)) = x + UInt64.ofNat (8 * k) := by
  have hsplit : UInt64.ofNat (8 * (k + 1)) = UInt64.ofNat (8 * k) + 8 := by
    rw [Nat.mul_succ, UInt64.ofNat_add]
    rfl
  rw [hsplit]
  grind

theorem address_ne {k : ℕ} (hk : k < 2 ^ 60) (x : UInt64) :
    x + UInt64.ofNat (8 * k) ≠ x - 8 := by
  intro h
  have hnat := congrArg UInt64.toNat h
  have h8 : (8 : UInt64).toNat = 8 := rfl
  have hlt := x.toNat_lt
  rw [UInt64.toNat_add, UInt64.toNat_ofNat', UInt64.toNat_sub, h8] at hnat
  omega

/-- The new word comes on top of the ones that were there. -/
theorem Stacked.push (h : Stacked c words) (hshort : words.length < 2 ^ 60) (v : UInt64) :
    Stacked (c.push v) (v :: words) := by
  intro k hk
  cases k with
  | zero =>
    have htop : (c.push v).rsp + UInt64.ofNat (8 * 0) = c.rsp - 8 := UInt64.add_zero _
    rw [stackWord, htop]
    exact Function.update_self ..
  | succ k =>
    rw [List.length_cons] at hk
    have hold := h k (by omega)
    have hplace : (c.push v).rsp + UInt64.ofNat (8 * (k + 1)) = c.rsp + UInt64.ofNat (8 * k) :=
      address_below c.rsp k
    rw [stackWord, hplace, List.getElem_cons_succ, ← hold]
    exact Function.update_of_ne (address_ne (by omega) c.rsp) _ _

theorem Stacked.top {w : UInt64} (h : Stacked c (w :: words)) : c.mem c.rsp = w := by
  have hfirst := h 0 (Nat.zero_lt_succ _)
  have htop : c.rsp + UInt64.ofNat (8 * 0) = c.rsp := UInt64.add_zero _
  rwa [stackWord, htop] at hfirst

theorem Stacked.congr {c' : Cpu} (h : Stacked c words) (hmem : c'.mem = c.mem)
    (hrsp : c'.rsp = c.rsp) : Stacked c' words := by
  intro k hk
  rw [stackWord, hmem, hrsp]
  exact h k hk

/-- What is left when words are taken off the top. -/
theorem Stacked.drop {c' : Cpu} (n : ℕ) (h : Stacked c words) (hmem : c'.mem = c.mem)
    (hrsp : c'.rsp = c.rsp + UInt64.ofNat (8 * n)) : Stacked c' (words.drop n) := by
  intro k hk
  rw [List.length_drop] at hk
  have hold := h (n + k) (by omega)
  have hplace : c'.rsp + UInt64.ofNat (8 * k) = c.rsp + UInt64.ofNat (8 * (n + k)) := by
    rw [hrsp, Nat.mul_add, UInt64.ofNat_add, UInt64.add_assoc]
  rw [stackWord, hplace, hmem, List.getElem_drop, ← hold]
  rfl

/-- Instructions run to a state without an event that can be seen. -/
def Runs (image : Image) (code : List Instr) (c c' : Cpu) : Prop :=
  execAll image code c = some (c', [])

theorem execAll_append (xs ys : List Instr) (c : Cpu) : execAll image (xs ++ ys) c =
    (execAll image xs c).bind fun r =>
      (execAll image ys r.1).map fun r' => (r'.1, r.2 ++ r'.2) := by
  induction xs generalizing c with
  | nil =>
    rw [List.nil_append, execAll, Option.bind_some]
    cases execAll image ys c with
    | none => rfl
    | some r => rfl
  | cons i xs ih =>
    rw [List.cons_append, execAll, execAll]
    cases i.exec image c with
    | none => rfl
    | some r =>
      rw [Option.bind_some, Option.bind_some, ih]
      cases execAll image xs r.1 with
      | none => rfl
      | some r' =>
        rw [Option.bind_some, Option.map_some, Option.bind_some]
        cases execAll image ys r'.1 with
        | none => rfl
        | some r'' => simp [List.append_assoc]

theorem Runs.append {xs ys : List Instr} {c' : Cpu} (h : Runs image xs c c') :
    execAll image (xs ++ ys) c = execAll image ys c' := by
  rw [execAll_append, h, Option.bind_some]
  cases execAll image ys c' with
  | none => rfl
  | some r => rfl

theorem Runs.cons {i : Instr} {rest : List Instr} {c' c'' : Cpu}
    (h : i.exec image c = some (c', [])) (hrest : Runs image rest c' c'') :
    Runs image (i :: rest) c c'' := by
  rw [Runs, execAll, h, Option.bind_some, hrest]
  rfl

/-- The last register pushed is on top, and no register changes. -/
theorem pushes_run (image : Image) (regs : List Reg) (h : Stacked c words)
    (hshort : words.length + regs.length < 2 ^ 60) :
    ∃ c', Runs image (regs.map .push) c c' ∧ Stacked c' ((regs.map c.reg).reverse ++ words) ∧
      c'.reg = c.reg ∧ c'.rsp + UInt64.ofNat (8 * regs.length) = c.rsp := by
  induction regs generalizing c words with
  | nil => exact ⟨c, rfl, h, rfl, UInt64.add_zero _⟩
  | cons r regs ih =>
    rw [List.length_cons] at hshort
    obtain ⟨c', hruns, hstacked, hreg, hrsp⟩ :=
      ih (h.push (by omega) (c.reg r)) (by rw [List.length_cons]; omega)
    refine ⟨c', hruns.cons rfl, ?_, hreg, ?_⟩
    · rw [List.map_cons, List.reverse_cons, List.append_assoc]
      exact hstacked
    · have hsplit : UInt64.ofNat (8 * (regs.length + 1)) = UInt64.ofNat (8 * regs.length) + 8 := by
        rw [Nat.mul_succ, UInt64.ofNat_add]
        rfl
      rw [List.length_cons, hsplit, ← UInt64.add_assoc, hrsp]
      exact UInt64.sub_add_cancel c.rsp 8

/-- Each register popped ends with the word that stood in its place. -/
theorem pops_run (image : Image) (regs : List Reg) (f : Reg → UInt64)
    (h : Stacked c (regs.map f ++ words)) :
    ∃ c', Runs image (regs.map .pop) c c' ∧ Stacked c' words ∧ (∀ r ∈ regs, c'.reg r = f r) ∧
      (∀ r, r ∉ regs → c'.reg r = c.reg r) ∧
      c'.rsp = c.rsp + UInt64.ofNat (8 * regs.length) := by
  induction regs generalizing c with
  | nil =>
    exact ⟨c, rfl, h, fun r hr => absurd hr List.not_mem_nil, fun _ _ => rfl,
      (UInt64.add_zero _).symm⟩
  | cons r regs ih =>
    have htop : c.mem c.rsp = f r := h.top
    have hrest : Stacked (c.pop r) (regs.map f ++ words) := h.drop 1 rfl rfl
    obtain ⟨c', hruns, hstacked, hmem, hother, hrsp⟩ := ih hrest
    have hset : (c.pop r).reg = Function.update c.reg r (f r) := by
      rw [← htop]
      rfl
    refine ⟨c', hruns.cons rfl, hstacked, fun q hq => ?_, fun q hq => ?_, ?_⟩
    · by_cases hin : q ∈ regs
      · exact hmem q hin
      · have hqr : q = r := (List.mem_cons.mp hq).resolve_right hin
        rw [hother q hin, hset, hqr, Function.update_self]
    · rw [List.mem_cons, not_or] at hq
      rw [hother q hq.2, hset, Function.update_of_ne hq.1]
    · have hpop : (c.pop r).rsp = c.rsp + 8 := rfl
      rw [hrsp, hpop, List.length_cons, Nat.mul_succ, UInt64.ofNat_add, UInt64.add_assoc,
        UInt64.add_comm 8]
      rfl

/-- The calling convention for the stack: the words above the return address, as many as a
stub and the processor have pushed, belong to the caller and are left as they are. -/
def KeepsCallerFrame (f : CFunction) : Prop :=
  ∀ c c' out, f.run c = some (c', out) → ∀ k < 22,
    c'.mem (c.rsp + 8 + UInt64.ofNat (8 * k)) = c.mem (c.rsp + 8 + UInt64.ofNat (8 * k))

theorem returned_stacked {f : CFunction} (habi : KeepsCallerFrame f) {c' : Cpu}
    {out : List (UInt16 × UInt8)} {v : UInt64} (hrun : f.run (c.push v) = some (c', out))
    (h : Stacked c words) (hshort : words.length ≤ 22) : Stacked c' words ∧ c'.rsp = c.rsp := by
  have hback : (c.push v).rsp + 8 = c.rsp := UInt64.sub_add_cancel c.rsp 8
  have hrsp : c'.rsp = c.rsp := (f.returns _ _ _ hrun).2.trans hback
  refine ⟨fun k hk => ?_, hrsp⟩
  have hkept := habi _ _ _ hrun k (by omega)
  have hold := (h.push (by omega) v) (k + 1) (by rw [List.length_cons]; omega)
  have hplace : (c.push v).rsp + UInt64.ofNat (8 * (k + 1)) = c.rsp + UInt64.ofNat (8 * k) :=
    address_below c.rsp k
  rw [hback] at hkept
  rw [stackWord, hplace, List.getElem_cons_succ] at hold
  rw [stackWord, hrsp, hkept, hold]

/-- The common part up to the call. -/
def commonEntry : List Instr := savedRegisters.map .push ++ [.movFromStack .rdi 120]

/-- The common part between the call and `iretq`. -/
def commonExit : List Instr := savedRegisters.reverse.map .pop ++ [.addRsp 16]

theorem commonStub_eq (handler : UInt64) :
    commonStub handler = commonEntry ++ .call handler :: (commonExit ++ [.iretq]) := by
  simp only [commonStub, commonEntry, commonExit, List.append_assoc, List.cons_append,
    List.nil_append]

theorem saved_length (f : Reg → UInt64) : (savedRegisters.map f).reverse.length = 15 := by
  rw [List.length_reverse, List.length_map]
  rfl

/-- Below fifteen registers lies the upper of the two words that were on top. -/
theorem commonEntry_runs (image : Image) {number code : UInt64} {frame : List UInt64}
    (h : Stacked c (number :: code :: frame)) (hframe : frame.length = 5) :
    ∃ c', Runs image commonEntry c c' ∧ c'.reg .rdi = number ∧ c'.rsp + 120 = c.rsp ∧
      Stacked c' ((savedRegisters.map c.reg).reverse ++ number :: code :: frame) := by
  obtain ⟨c', hpushes, hstacked, -, hrsp⟩ := pushes_run image savedRegisters h
    (by rw [List.length_cons, List.length_cons, hframe]; decide)
  have hnumber : c'.mem (c'.rsp + 120) = number := by
    have hword := hstacked 15 (by rw [List.length_append, saved_length, List.length_cons]; omega)
    rw [List.getElem_append_right (Nat.le_of_eq (saved_length c.reg))] at hword
    simp only [saved_length, Nat.sub_self, List.getElem_cons_zero] at hword
    exact hword
  refine ⟨c'.load .rdi number, ?_, ?_, hrsp, hstacked⟩
  · rw [commonEntry, Runs, hpushes.append, ← hnumber]
    rfl
  · change Function.update c'.reg .rdi number .rdi = number
    rw [Function.update_self]

theorem mem_savedRegisters (r : Reg) : r ∈ savedRegisters := by
  cases r
  all_goals decide

/-- Whatever the registers hold by then, they end with the words saved. -/
theorem commonExit_runs (image : Image) {f : Reg → UInt64} {number code : UInt64} {frame : List UInt64}
    (h : Stacked c ((savedRegisters.map f).reverse ++ number :: code :: frame)) :
    ∃ c', Runs image commonExit c c' ∧ c'.reg = f ∧ c'.rsp = c.rsp + 136 ∧ Stacked c' frame := by
  rw [← List.map_reverse] at h
  obtain ⟨c₁, hpops, hrest, hrestored, -, hrsp⟩ :=
    pops_run image savedRegisters.reverse f h
  refine ⟨{ c₁ with rsp := c₁.rsp + 16 }, ?_, ?_, ?_, hrest.drop 2 rfl rfl⟩
  · rw [commonExit, Runs, hpops.append]
    rfl
  · funext r
    exact hrestored r (List.mem_reverse.mpr (mem_savedRegisters r))
  · change c₁.rsp + 16 = c.rsp + 136
    rw [hrsp, UInt64.add_assoc]
    rfl

/-- The return frame, from its top. -/
def frameWords (c : Cpu) : List UInt64 := [c.rip, c.cs, c.rflags, c.rsp, c.ss]

theorem stacked_nil (c : Cpu) : Stacked c [] := fun k hk => absurd hk (Nat.not_lt_zero k)

theorem pushFrame_stacked (c : Cpu) : Stacked c.pushFrame (frameWords c) := by
  have h₁ := (stacked_nil { c with rsp := c.rsp &&& ~~~0xF }).push (by simp) c.ss
  have h₂ := h₁.push (by simp) c.rsp
  have h₃ := h₂.push (by simp) c.rflags
  have h₄ := h₃.push (by simp) c.cs
  exact h₄.push (by simp) c.rip

theorem take_spec {gate : IdtEntry} {c c₁ : Cpu} (htake : c.take gate = some c₁) :
    c₁.reg = c.reg ∧ Stacked c₁ (frameWords c) ∧ c₁.rsp = c.pushFrame.rsp := by
  rw [Cpu.take] at htake
  split at htake
  case isFalse => cases htake
  cases htake
  exact ⟨rfl, (pushFrame_stacked c).congr rfl rfl, rfl⟩

theorem errcodeVectors_exceptions {vector : Fin 34} (h : vector ∈ errcodeVectors) : vector < 32 := by
  revert vector
  decide

section Stubs
variable (image : Image) (isrHandler : UInt64) {vector : Fin 34}

theorem stubOf_errcode (h : vector ∈ errcodeVectors) : stubOf image isrHandler vector =
    [.pushImm (UInt64.ofNat vector)] ++ commonStub (handlerOf image isrHandler vector) := by
  have hexception := errcodeVectors_exceptions h
  rw [stubOf, handlerOf, if_pos hexception, if_pos hexception, if_pos h]
  rfl

/-- An exception or an interrupt line, each with its own common part. -/
theorem stubOf_noErrcode (h : vector ∉ errcodeVectors) : stubOf image isrHandler vector =
    [.pushImm 0, .pushImm (UInt64.ofNat vector)] ++
      commonStub (handlerOf image isrHandler vector) := by
  rw [stubOf, handlerOf, if_neg h]
  split
  · rfl
  · rw [irqStub, irqCommonStub_eq]

end Stubs

/-- Every stub comes to the common part with the vector on top, a code and the frame. -/
theorem stub_prologue (image : Image) (isrHandler : UInt64) {gate : IdtEntry} {vector : Fin 34}
    {errorCode : UInt64} {c c₁ : Cpu} (hraise : raise gate vector errorCode c = some c₁) :
    ∃ first c₂ code, stubOf image isrHandler vector =
        first ++ commonStub (handlerOf image isrHandler vector) ∧ Runs image first c₁ c₂ ∧
      Stacked c₂ (UInt64.ofNat vector :: code :: frameWords c) ∧ c₂.reg = c.reg ∧
      c₂.rsp + 16 = c.pushFrame.rsp := by
  have htwo : ∀ x : UInt64, x - 8 + 16 = x + 8 := by
    intro x
    grind
  obtain ⟨c₀, htake, hcode⟩ := Option.map_eq_some_iff.mp hraise
  obtain ⟨hreg, hframe, hrsp⟩ := take_spec htake
  -- whoever pushes the code, the stub goes on from the same stack
  have hentry : ∀ code, Stacked ((c₀.push code).push (UInt64.ofNat vector))
        (UInt64.ofNat vector :: code :: frameWords c) ∧
      ((c₀.push code).push (UInt64.ofNat vector)).rsp + 16 = c.pushFrame.rsp := by
    intro code
    refine ⟨(hframe.push (by simp [frameWords]) code).push (by simp [frameWords]) _, ?_⟩
    exact (htwo (c₀.rsp - 8)).trans ((UInt64.sub_add_cancel c₀.rsp 8).trans hrsp)
  by_cases herr : vector ∈ errcodeVectors
  · rw [if_pos herr] at hcode
    subst hcode
    exact ⟨_, _, errorCode, stubOf_errcode image isrHandler herr, rfl, (hentry errorCode).1, hreg, (hentry errorCode).2⟩
  · rw [if_neg herr] at hcode
    subst hcode
    exact ⟨_, _, 0, stubOf_noErrcode image isrHandler herr, rfl, (hentry 0).1, hreg, (hentry 0).2⟩

/-- Twenty-two quadwords keep the alignment. -/
theorem call_aligned {x y : UInt64} (h : x + 176 = y &&& ~~~0xF) : x.toNat % 16 = 0 := by
  have hnat := congrArg UInt64.toNat h
  have h176 : (176 : UInt64).toNat = 176 := rfl
  rw [UInt64.toNat_add, aligned_toNat, h176] at hnat
  omega

/-- A stub calls the C handler with the vector and on an aligned stack. If the handler
returns, the stub comes to its `iretq` with every register as before the interrupt and the
stack pointer at the return frame. -/
theorem stub_transparent (image : Image) (isrHandler errorCode : UInt64) (gate : IdtEntry)
    (vector : Fin 34) (c c₁ : Cpu) (hraise : raise gate vector errorCode c = some c₁)
    (habi : KeepsCallerFrame (image.function (handlerOf image isrHandler vector))) :
    ∃ before after caller, stubOf image isrHandler vector =
        before ++ .call (handlerOf image isrHandler vector) :: (after ++ [.iretq]) ∧
      Runs image before c₁ caller ∧ caller.reg .rdi = UInt64.ofNat vector ∧
      caller.rsp.toNat % 16 = 0 ∧
      ∀ returned writes, (image.function (handlerOf image isrHandler vector)).run
          (caller.push image.afterCall) = some (returned, writes) →
        ∃ c₂, Runs image after returned c₂ ∧ c₂.reg = c.reg ∧ c₂.rsp = c.pushFrame.rsp ∧
          Stacked c₂ (frameWords c) := by
  obtain ⟨first, c₀, code, hstub, hfirst, hstacked, hreg, hrsp⟩ :=
    stub_prologue image isrHandler hraise
  obtain ⟨caller, hentry, hrdi, hcaller, hsaved⟩ := commonEntry_runs image hstacked rfl
  refine ⟨first ++ commonEntry, commonExit, caller, ?_, ?_, hrdi, ?_, ?_⟩
  · rw [hstub, commonStub_eq, List.append_assoc]
  · rw [Runs, hfirst.append, hentry]
  · apply call_aligned (y := c.rsp)
    have hsum : ∀ x y : UInt64, x + 120 + 16 = y - 40 → x + 176 = y := by
      intro x y
      grind
    apply hsum
    rw [hcaller, hrsp, pushFrame_rsp]
  · intro returned writes hrun
    obtain ⟨hback, hsame⟩ := returned_stacked habi hrun hsaved
      (by rw [List.length_append, saved_length]; exact Nat.le_refl 22)
    obtain ⟨c₂, hexit, hreg', hrsp', hframe⟩ := commonExit_runs image hback
    refine ⟨c₂, hexit, hreg'.trans hreg, ?_, hframe⟩
    have hsum : ∀ x : UInt64, x + 136 = x + 120 + 16 := by
      intro x
      grind
    rw [hrsp', hsame, hsum, hcaller, hrsp]

/-- A function that leaves its own address in every register it may change. -/
def scratching (f : UInt64) : CFunction where
  run c := some ({ c with
    reg := fun r => if r ∈ [Reg.rbx, .rbp, .r12, .r13, .r14, .r15] then c.reg r else f
    rip := c.mem c.rsp
    rsp := c.rsp + 8 }, [])
  returns c c' out h := by
    cases h
    exact ⟨rfl, rfl⟩
  calleeSaved c c' out h r hr := by
    cases h
    exact if_pos hr

theorem scratching_keeps (f : UInt64) : KeepsCallerFrame (scratching f) := by
  intro c c' out h k _
  cases h
  rfl

def scratchImage : Image := ⟨scratching, 0x100, 0x200, 0x300, 0x400⟩

/-- Every register holds a different value, and the stack pointer is not aligned. -/
def interrupted : Cpu :=
  ⟨fun r => UInt64.ofNat (savedRegisters.idxOf r), 0x7FF9, 0x5000, 0x202, 0x08, 0x10, fun _ => 0⟩

/-- A page fault, with its error code. -/
def pageFault : Cpu :=
  { interrupted.pushFrame with rip := 0x900, cs := 0x08, rflags := 0x2 }.push 6

theorem pageFault_raised : raise (gate 0x900 0x8E) 14 6 interrupted = some pageFault := by
  have hgate := gate_deliversTo 0x900
  rw [raise, Cpu.take, if_pos hgate.1, hgate.2, Option.map_some, if_pos (by decide)]
  rfl

theorem stub_transparent_page_fault :
    ∃ before after caller, stubOf scratchImage 0x500 14 =
        before ++ .call (handlerOf scratchImage 0x500 14) :: (after ++ [.iretq]) ∧
      Runs scratchImage before pageFault caller ∧
      caller.reg .rdi = UInt64.ofNat (14 : Fin 34) ∧ caller.rsp.toNat % 16 = 0 ∧
      ∀ returned writes, (scratchImage.function (handlerOf scratchImage 0x500 14)).run
          (caller.push scratchImage.afterCall) = some (returned, writes) →
        ∃ c₂, Runs scratchImage after returned c₂ ∧ c₂.reg = interrupted.reg ∧
          c₂.rsp = interrupted.pushFrame.rsp ∧ Stacked c₂ (frameWords interrupted) :=
  stub_transparent scratchImage 0x500 6 (gate 0x900 0x8E) 14 interrupted pageFault
    pageFault_raised (scratching_keeps _)

end BinOs.StubTransparency
