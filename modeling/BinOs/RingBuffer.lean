import Mathlib.Algebra.Group.Fin.Basic
import Mathlib.Data.List.Destutter
import Mathlib.Data.Nat.ModEq
import Mathlib.Logic.Function.Basic

/-! # A ring that keeps the newest entries

Each new entry goes to the slot at the write index, over the oldest one. The slots
read backwards from that index are the entries from the newest on, and blank where
there are no more of them. -/
namespace BinOs.RingBuffer

variable {α β : Type} {n : ℕ}

structure Ring (α : Type) (n : ℕ) where
  slots : Fin n → α
  next : Fin n

section Slots
variable [NeZero n]

namespace Ring

def push (x : α) (r : Ring α n) : Ring α n :=
  ⟨Function.update r.slots r.next x, r.next + 1⟩

/-- The index `d` slots before the write index. -/
def ago (r : Ring α n) : ℕ → Fin n
  | 0 => r.next
  | d + 1 => r.ago d - 1

theorem val_sub_one (i : Fin n) : ((i - 1 : Fin n) : ℕ) + 1 ≡ i [MOD n] := by
  have hstep : ((i - 1 + 1 : Fin n) : ℕ) = i := by rw [sub_add_cancel]
  rw [Fin.val_add, Fin.val_one'] at hstep
  have hmod := Nat.mod_modEq (((i - 1 : Fin n) : ℕ) + 1 % n) n
  rw [hstep] at hmod
  exact ((Nat.ModEq.refl _).add (Nat.mod_modEq 1 n)).symm.trans hmod.symm

theorem val_ago (r : Ring α n) (d : ℕ) : (r.ago d : ℕ) + d ≡ r.next [MOD n] := by
  induction d with
  | zero => rfl
  | succ d ih =>
    have hstep : (r.ago (d + 1) : ℕ) + 1 + d ≡ r.ago d + d [MOD n] :=
      (val_sub_one (r.ago d)).add_right d
    rw [Nat.add_right_comm] at hstep
    exact hstep.trans ih

/-- Going back `n` slots comes round to the same one. -/
theorem ago_eq_ago_iff (r : Ring α n) (d e : ℕ) : r.ago d = r.ago e ↔ d ≡ e [MOD n] := by
  have hmod : (r.ago d : ℕ) + d ≡ r.ago e + e [MOD n] := (r.val_ago d).trans (r.val_ago e).symm
  constructor
  · intro h
    rw [h] at hmod
    exact Nat.ModEq.add_left_cancel' _ hmod
  · intro h
    exact Fin.ext (Nat.ModEq.eq_of_lt_of_lt (Nat.ModEq.add_right_cancel h hmod) (r.ago d).2 (r.ago e).2)

theorem exists_ago (r : Ring α n) (i : Fin n) : ∃ d < n, r.ago (d + 1) = i := by
  let e := (r.next : ℕ) + (n - (i + 1))
  refine ⟨e % n, Nat.mod_lt _ (Nat.pos_of_neZero n), ?_⟩
  have hback : (r.ago (e % n + 1) : ℕ) + (e % n + 1) ≡ i + (e % n + 1) [MOD n] := by
    have hround : (i : ℕ) + (e + 1) = r.next + n := by
      have hlt := i.2
      omega
    have hmod : (i : ℕ) + (e % n + 1) ≡ i + (e + 1) [MOD n] :=
      ((Nat.mod_modEq e n).add_right 1).add_left i
    rw [hround] at hmod
    exact (r.val_ago _).trans (hmod.trans (Nat.add_modEq_right ..)).symm
  exact Fin.ext (Nat.ModEq.eq_of_lt_of_lt (Nat.ModEq.add_right_cancel' _ hback) (Fin.is_lt _) i.2)

theorem ago_push (x : α) (r : Ring α n) (d : ℕ) : (r.push x).ago (d + 1) = r.ago d := by
  induction d with
  | zero => exact add_sub_cancel_right r.next 1
  | succ d ih => exact congrArg (· - 1) ih

/-- The entries in the ring, newest first; those before the last `n` are lost. -/
def Holds (blank : α) (r : Ring α n) (xs : List α) : Prop :=
  ∀ d < n, r.slots (r.ago (d + 1)) = xs.getD d blank

theorem holds_blank (blank : α) (i : Fin n) : Holds blank ⟨fun _ => blank, i⟩ [] :=
  fun _ _ => rfl

variable {blank : α} {r : Ring α n} {xs : List α}

theorem Holds.push (h : Holds blank r xs) (x : α) : Holds blank (r.push x) (x :: xs) := by
  intro d hd
  rw [ago_push]
  cases d with
  | zero => exact Function.update_self ..
  | succ d =>
    have hne : r.ago (d + 1) ≠ r.next := by
      intro hback
      have hmod : d + 1 ≡ 0 [MOD n] := (r.ago_eq_ago_iff (d + 1) 0).mp hback
      rw [Nat.ModEq, Nat.mod_eq_of_lt hd, Nat.zero_mod] at hmod
      exact Nat.succ_ne_zero d hmod
    exact (Function.update_of_ne hne ..).trans (h d (Nat.lt_of_succ_lt hd))

theorem Holds.newest (h : Holds blank r xs) : r.slots (r.next - 1) = xs.headD blank := by
  have hslot := h 0 (Nat.pos_of_neZero n)
  rw [List.headD_eq_head?_getD, List.head?_eq_getElem?, ← List.getD_eq_getElem?_getD]
  exact hslot

end Ring

end Slots

section Repetitions
variable [DecidableEq α]

theorem destutter'_concat (a : α) (l : List α) (x : α) : (l ++ [x]).destutter' (· ≠ ·) a =
    if (l.destutter' (· ≠ ·) a).getLast? = some x then l.destutter' (· ≠ ·) a
    else l.destutter' (· ≠ ·) a ++ [x] := by
  induction l generalizing a with
  | nil =>
    rw [List.nil_append, List.destutter'_singleton, List.destutter'_nil, List.getLast?_singleton]
    by_cases h : a = x
    · rw [if_neg (not_not_intro h), if_pos (congrArg some h)]
    · rw [if_pos h, if_neg fun hsome => h (Option.some_inj.mp hsome)]
      rfl
  | cons b l ih =>
    by_cases h : a ≠ b
    · have hlast : (a :: l.destutter' (· ≠ ·) b).getLast? = (l.destutter' (· ≠ ·) b).getLast? := by
        rw [List.getLast?_cons, List.getLast?_eq_some_getLast (List.destutter'_ne_nil l (· ≠ ·))]
        rfl
      rw [List.cons_append, List.destutter'_cons_pos _ h, List.destutter'_cons_pos _ h, ih, hlast]
      exact apply_ite (a :: ·) _ _ _
    · rw [List.cons_append, List.destutter'_cons_neg _ h, List.destutter'_cons_neg _ h, ih]

theorem destutter_concat (l : List α) (x : α) : (l ++ [x]).destutter (· ≠ ·) =
    if (l.destutter (· ≠ ·)).getLast? = some x then l.destutter (· ≠ ·)
    else l.destutter (· ≠ ·) ++ [x] := by
  cases l with
  | nil => rfl
  | cons a l => exact destutter'_concat a l x

end Repetitions

end BinOs.RingBuffer
