import Mathlib.Data.Nat.Notation
import Mathlib.Data.Option.Basic
import Mathlib.Logic.Function.Basic

/-! # Registers that remember the last write

Of a sequence of events, each either sets an observed value or leaves it alone. A loop
that fills a table is such a sequence for each place of it. -/
namespace BinOs.LastWriter

variable {α β σ : Type}

/-- The value set by the last event that sets one. -/
def lastEffect (effect : α → Option β) : List α → Option β
  | [] => none
  | e :: events => (lastEffect effect events).or (effect e)

theorem lastEffect_append (effect : α → Option β) (xs ys : List α) :
    lastEffect effect (xs ++ ys) = (lastEffect effect ys).or (lastEffect effect xs) := by
  induction xs with
  | nil => rw [List.nil_append, lastEffect, Option.or_none]
  | cons x xs ih => rw [List.cons_append, lastEffect, ih, lastEffect, Option.or_assoc]

theorem lastEffect_eq_none_iff {effect : α → Option β} {xs : List α} :
    lastEffect effect xs = none ↔ ∀ x ∈ xs, effect x = none := by
  induction xs with
  | nil => simp [lastEffect]
  | cons x xs ih => rw [lastEffect, Option.or_eq_none_iff, ih, List.forall_mem_cons, and_comm]

theorem lastEffect_map {γ : Type} (f : β → γ) (effect : α → Option β) (xs : List α) :
    lastEffect (fun x => (effect x).map f) xs = (lastEffect effect xs).map f := by
  induction xs with
  | nil => rfl
  | cons x xs ih => rw [lastEffect, ih, lastEffect, Option.map_or]

/-- An observation that, under an invariant, each event sets or keeps is, after them
all, what the last one to set it has set. -/
theorem observe_foldl {step : σ → α → σ} (observe : σ → β) {effect : α → Option β} (I : σ → Prop)
    (hI : ∀ s e, I s → I (step s e))
    (hstep : ∀ s e, I s → observe (step s e) = (effect e).getD (observe s)) {s : σ} (h : I s)
    (events : List α) :
    observe (events.foldl step s) = (lastEffect effect events).getD (observe s) := by
  induction events generalizing s with
  | nil => rfl
  | cons e events ih =>
    rw [List.foldl_cons, ih (hI s e h), hstep s e h, lastEffect]
    cases lastEffect effect events with
    | none => rfl
    | some b => rfl

/-- What no event sets stays. -/
theorem observe_foldl_kept {step : σ → α → σ} (observe : σ → β)
    (hstep : ∀ s e, observe (step s e) = observe s) (s : σ) (events : List α) :
    observe (events.foldl step s) = observe s := by
  induction events generalizing s with
  | nil => rfl
  | cons e events ih => rw [List.foldl_cons, ih, hstep]

section Fill
variable {κ : Type} [DecidableEq κ] {n : ℕ} {key : ℕ → κ} (value : ∀ i, i < n → β)
  (table : κ → β)

/-- `for (i = 0; i < n; i++) table[key(i)] = value(i)` -/
def fill (key : ℕ → κ) : κ → β :=
  Nat.fold n (fun i hi t => Function.update t (key i) (value i hi)) table

theorem fill_succ (value : ∀ i, i < n + 1 → β) : fill value table key =
    Function.update (fill (fun i hi => value i (Nat.lt_succ_of_lt hi)) table key) (key n)
      (value n (Nat.lt_succ_self n)) :=
  Nat.fold_succ n _ table

theorem fill_of_ne {k : κ} (h : ∀ i < n, key i ≠ k) : fill value table key k = table k := by
  induction n with
  | zero => rfl
  | succ n ih =>
    rw [fill_succ, Function.update_of_ne (h n (Nat.lt_succ_self n)).symm]
    exact ih _ fun i hi => h i (Nat.lt_succ_of_lt hi)

/-- Where no two passes write the same place, each leaves there what it wrote. -/
theorem fill_key (hkey : ∀ i < n, ∀ j < n, key i = key j → i = j) (i : ℕ) (hi : i < n) :
    fill value table key (key i) = value i hi := by
  induction n with
  | zero => exact absurd hi (Nat.not_lt_zero i)
  | succ n ih =>
    rw [fill_succ]
    by_cases hlast : i = n
    · subst hlast
      rw [Function.update_self]
    · have hne : key i ≠ key n := fun h => hlast (hkey i hi n (Nat.lt_succ_self n) h)
      rw [Function.update_of_ne hne]
      exact ih _ (fun a ha b hb => hkey a (Nat.lt_succ_of_lt ha) b (Nat.lt_succ_of_lt hb)) (by omega)

end Fill

end BinOs.LastWriter
