import BinOs.SerialDelivery

/-! # The kernel gets its text written

Every step of the processor brings it nearer to the end of its text, or it waits for the
transmitter, which brings it nearer too. -/
namespace BinOs.SerialProgress
open SharedTransmitter SerialLine SerialRegisters SerialDelivery

variable {places : ℕ} {u : Uart} {s : Console}

def Writer.owed (w : Writer) : ℕ := 4 * w.text.length + if w.foundEmpty then 0 else 1

def Access.work : Access → ℕ
  | .outb _ _ => 3
  | .test => 2
  | .ret _ => 1

/-- A bound on the work that is left to the processor and the transmitter. -/
def workLeft (s : Console) : ℕ :=
  (s.starting.map Access.work).sum + Writer.owed s.writer +
    (s.later.elim 0 fun text => 4 * text.length + 2) +
    (s.handler.elim 0 fun w => Writer.owed w + 1) + s.uart.transmitter.work

/-- `kmain` has written all of its text. -/
def Finished (s : Console) : Prop := s.starting = [] ∧ s.writer.text = [] ∧ s.later = none

theorem outb_work (places offset : ℕ) (value : UInt8) (u : Uart) :
    (u.outb places offset value).transmitter.work ≤ u.transmitter.work + 2 := by
  rcases offset with _ | _ | _ | offset
  · rw [Uart.outb]
    split
    · exact Nat.le_add_right _ 2
    · exact Transmitter.work_put
  · rw [Uart.outb]
    split <;> exact Nat.le_add_right _ 2
  · rw [Uart.outb, Uart.fifoControl]
    dsimp only
    split
    · rw [Transmitter.work, Transmitter.work, List.length_nil]
      exact (Nat.add_le_add_right (Nat.zero_le _) _).trans (Nat.le_add_right _ 2)
    · exact Nat.le_add_right _ 2
  · rcases offset with _ | _ | offset <;> exact Nat.le_add_right _ 2

theorem step_work (places : ℕ) {w : Writer} (h : w.text ≠ []) (u : Uart) :
    Writer.owed (w.step places u).1 + (w.step places u).2.transmitter.work + 1 ≤
      Writer.owed w + u.transmitter.work ∨
    w.step places u = (w, u) ∧ u.transmitter.queue ≠ [] := by
  rcases w with ⟨_ | ⟨a, rest⟩, _ | _⟩
  · exact absurd rfl h
  · exact absurd rfl h
  · rw [step_polls]
    by_cases hempty : isTransmitEmpty u ≠ 0
    · rw [decide_eq_true hempty]
      exact .inl (Nat.le_of_eq (Nat.add_right_comm _ _ _))
    · rw [decide_eq_false hempty]
      exact .inr ⟨rfl, fun h => hempty ((isTransmitEmpty_iff u).mpr h)⟩
  · have hwork := outb_work places 0 a u
    refine .inl ?_
    change 4 * rest.length + 1 + (u.outb places 0 a).transmitter.work + 1 ≤
      4 * (rest.length + 1) + 0 + u.transmitter.work
    omega

theorem inbData_transmitter (u : Uart) : u.inbData.2.transmitter = u.transmitter := by
  rw [Uart.inbData]
  split
  · rfl
  · cases u.received <;> rfl

theorem access_work (a : Access) (rest : List Access) :
    workLeft (accessStep places a rest s) < workLeft { s with starting := a :: rest } := by
  rw [workLeft, workLeft, List.map_cons, List.sum_cons]
  cases a with
  | outb offset value =>
    have hwork := outb_work places offset value s.uart
    simp only [accessStep, Access.work]
    omega
  | test =>
    simp only [accessStep, Access.work, inbData_transmitter]
    split
    · simp only [List.map_cons, List.map_nil, List.sum_cons, List.sum_nil, Access.work]
      omega
    · omega
  | ret value =>
    simp only [accessStep, Access.work, List.map_nil, List.sum_nil]
    omega

/-- A step does some of the work, or waits for the transmitter. -/
theorem processor_work (places : ℕ) (h : ¬ Finished s) :
    workLeft (processorStep places s) < workLeft s ∨
      processorStep places s = s ∧ s.uart.transmitter.queue ≠ [] := by
  cases hhandler : s.handler with
  | none =>
    have hmain : processorStep places s = mainStep places s := by rw [processorStep, hhandler]
    rw [hmain]
    cases hstarting : s.starting with
    | cons a rest =>
      left
      rw [mainStep, hstarting]
      exact (access_work a rest).trans_eq (by rw [← hstarting])
    | nil =>
      rcases hwriter : s.writer with ⟨_ | ⟨a, rest⟩, b⟩
      · cases hlater : s.later with
        | none => exact absurd ⟨hstarting, by rw [hwriter], hlater⟩ h
        | some later =>
          left
          rw [mainStep_sti hstarting hwriter hlater, workLeft, workLeft, hwriter, hlater]
          simp only [Writer.owed, Option.elim, Bool.false_eq_true, if_false]
          omega
      · obtain hless | ⟨hvain, hqueue⟩ :=
          step_work places (w := ⟨a :: rest, b⟩) (List.cons_ne_nil a rest) s.uart
        · left
          rw [mainStep_writes hstarting hwriter, workLeft, workLeft, hwriter]
          dsimp only
          omega
        · refine .inr ⟨?_, hqueue⟩
          rw [mainStep_writes hstarting hwriter, hvain, ← hwriter]
  | some w =>
    rw [processorStep, hhandler]
    rcases w with ⟨_ | ⟨a, rest⟩, b⟩
    · left
      rw [workLeft, workLeft, hhandler]
      simp only [Option.elim]
      omega
    · obtain hless | ⟨hvain, hqueue⟩ :=
        step_work places (w := ⟨a :: rest, b⟩) (List.cons_ne_nil a rest) s.uart
      · left
        rw [workLeft, workLeft, hhandler]
        simp only [Option.elim]
        omega
      · refine .inr ⟨?_, hqueue⟩
        simp only [hvain]
        rw [← hhandler]

theorem finish_transmitter (u : Uart) : (u.finish places).transmitter = u.transmitter.unload := by
  rw [Uart.finish]
  cases hshifting : u.transmitter.shifting with
  | none => rw [Transmitter.unload_idle hshifting]
  | some a =>
    by_cases hloops : u.loops = true
    · obtain ⟨received, heq⟩ :=
        receive_eq places a { u with transmitter := u.transmitter.unload }
      simp only [if_pos hloops, heq]
    · simp only [if_neg hloops]

/-- Interrupts come with their texts in between, then the transmitter moves on. -/
def block (texts : List (List UInt8)) : List Event :=
  .processor :: texts.map .interrupt ++ [.load, .finish]

def textsWork (texts : List (List UInt8)) : ℕ := (texts.map fun t => 4 * t.length + 2).sum

theorem interrupts_work (places : ℕ) (texts : List (List UInt8)) (s : Console) :
    workLeft (run places (texts.map .interrupt) s) ≤ workLeft s + textsWork texts ∧
      (run places (texts.map .interrupt) s).uart = s.uart := by
  induction texts generalizing s with
  | nil => exact ⟨Nat.le_refl _, rfl⟩
  | cons t texts ih =>
    obtain ⟨hwork, huart⟩ := ih (interrupt t s)
    have hstep : run places ((t :: texts).map .interrupt) s =
      run places (texts.map .interrupt) (interrupt t s) := rfl
    have htexts : textsWork (t :: texts) = 4 * t.length + 2 + textsWork texts := List.sum_cons
    rw [hstep, htexts, huart]
    have hone : workLeft (interrupt t s) ≤ workLeft s + (4 * t.length + 2) ∧
        (interrupt t s).uart = s.uart := by
      rw [SerialLine.interrupt]
      split
      · rename_i hfree
        refine ⟨?_, rfl⟩
        rw [workLeft, workLeft, Option.isNone_iff_eq_none.mp hfree.1]
        simp only [Writer.owed, Option.elim, Bool.false_eq_true, if_false]
        omega
      · exact ⟨Nat.le_add_right _ _, rfl⟩
    exact ⟨by omega, hone.2⟩

theorem workLeft_uart (s : Console) (u : Uart) :
    workLeft { s with uart := u } + s.uart.transmitter.work = workLeft s + u.transmitter.work := by
  rw [workLeft, workLeft]
  dsimp only
  omega

theorem block_work (places : ℕ) (h : ¬ Finished s) (texts : List (List UInt8)) :
    workLeft (run places (block texts) s) < workLeft s + textsWork texts := by
  have hrun : run places (block texts) s = run places [.load, .finish]
      (run places (texts.map .interrupt) (processorStep places s)) := by
    rw [block, ← run_append]
    rfl
  obtain ⟨hinterrupts, huart⟩ := interrupts_work places texts (processorStep places s)
  rw [hrun]
  generalize run places (texts.map .interrupt) (processorStep places s) = m at hinterrupts huart ⊢
  have hsettled := workLeft_uart m (m.uart.load.finish places)
  rw [finish_transmitter] at hsettled
  have hle : m.uart.load.transmitter.unload.work ≤ m.uart.transmitter.work :=
    Transmitter.work_settle
  change workLeft { m with uart := m.uart.load.finish places } < _
  obtain hless | ⟨hvain, hqueue⟩ := processor_work places h
  · omega
  · rw [hvain] at hinterrupts huart
    have hlt : m.uart.load.transmitter.unload.work < m.uart.transmitter.work :=
      Transmitter.work_settle_lt (huart ▸ hqueue)
    omega

theorem Finished.next (h : Finished s) (e : Event) : Finished (step places s e) := by
  obtain ⟨hstarting, htext, hlater⟩ := h
  obtain heq | ⟨t, heq⟩ | ⟨u', heq, -⟩ := device_cases places e s
  · rw [heq, processorStep]
    cases s.handler with
    | none =>
      rcases hwriter : s.writer with ⟨_ | ⟨a, rest⟩, b⟩
      · rw [mainStep_idle hstarting hwriter hlater]
        exact ⟨hstarting, htext, hlater⟩
      · rw [hwriter] at htext
        cases htext
    | some w => rcases w with ⟨_ | ⟨a, rest⟩, b⟩ <;> exact ⟨hstarting, htext, hlater⟩
  · rw [heq, SerialLine.interrupt]
    split <;> exact ⟨hstarting, htext, hlater⟩
  · rw [heq]
    exact ⟨hstarting, htext, hlater⟩

theorem Finished.run (h : Finished s) (events : List Event) : Finished (run places events s) := by
  induction events generalizing s with
  | nil => exact h
  | cons e events ih => exact ih (h.next e)

theorem workLeft_pos (h : ¬ Finished s) : 0 < workLeft s := by
  rw [workLeft]
  cases hstarting : s.starting with
  | cons a rest => cases a <;> simp only [List.map_cons, List.sum_cons, Access.work] <;> omega
  | nil =>
    cases hlater : s.later with
    | some later => simp only [Option.elim]; omega
    | none =>
      cases htext : s.writer.text with
      | cons a rest => simp only [Writer.owed, htext, List.length_cons]; omega
      | nil => exact absurd ⟨hstarting, htext, hlater⟩ h

/-- From any state, whatever handlers write in between and whether the test succeeds or not. -/
theorem kernel_text_written (places : ℕ) (s : Console) (blocks : List (List (List UInt8)))
    (h : workLeft s + (blocks.map textsWork).sum ≤ blocks.length) :
    Finished (run places (blocks.flatMap block) s) := by
  induction blocks generalizing s with
  | nil =>
    by_contra hunfinished
    exact absurd (workLeft_pos hunfinished) (Nat.not_lt.mpr h)
  | cons texts blocks ih =>
    rw [List.flatMap_cons, run_append]
    by_cases hfinished : Finished s
    · exact (hfinished.run _).run _
    · have hwork := block_work places hfinished texts
      rw [List.map_cons, List.sum_cons, List.length_cons] at h
      exact ih _ (by omega)

theorem kernel_text_written_used : Finished (run 16
    ((List.replicate 60 [] ++ [[someText]] ++ List.replicate 20 []).flatMap block) usedPort) :=
  kernel_text_written 16 usedPort (List.replicate 60 [] ++ [[someText]] ++ List.replicate 20 [])
    (by decide)

end BinOs.SerialProgress
