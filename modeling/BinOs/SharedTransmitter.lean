import Mathlib.Data.List.Infix

/-! # A transmitter that several programs share

Items wait in a bounded queue for a shift register. Programs that interrupt one another put
items in; each looks whether the queue is empty before every item. -/
namespace BinOs.SharedTransmitter

/-- `lost` counts the items that were put into a full queue or pushed out of it. -/
structure Transmitter (α : Type*) where
  queue : List α
  shifting : Option α
  lost : ℕ

namespace Transmitter
variable {α : Type*} {capacity : ℕ}

/-- An item that finds the queue full takes the place of the last one. -/
def put (capacity : ℕ) (a : α) (t : Transmitter α) : Transmitter α :=
  if t.queue.length < capacity then { t with queue := t.queue ++ [a] }
  else { t with queue := t.queue.dropLast ++ [a], lost := t.lost + 1 }

def load (t : Transmitter α) : Transmitter α :=
  match t.shifting, t.queue with
  | none, a :: rest => { t with queue := rest, shifting := some a }
  | _, _ => t

def unload (t : Transmitter α) : Transmitter α := { t with shifting := none }

/-- What is still in the transmitter, in order. -/
def pending (t : Transmitter α) : List α := t.shifting.toList ++ t.queue

/-- How many moves the items in the transmitter still have to make. -/
def work (t : Transmitter α) : ℕ := 2 * t.queue.length + t.shifting.toList.length

variable {t : Transmitter α} {a : α}

theorem pending_load : t.load.pending = t.pending := by
  rcases t with ⟨_ | ⟨b, rest⟩, _ | a, lost⟩ <;> rfl

theorem lost_load : t.load.lost = t.lost := by
  rcases t with ⟨_ | ⟨b, rest⟩, _ | a, lost⟩ <;> rfl

theorem length_load : t.load.queue.length ≤ t.queue.length := by
  rcases t with ⟨_ | ⟨b, rest⟩, _ | a, lost⟩
  · exact Nat.le_refl _
  · exact Nat.le_refl _
  · exact Nat.le_succ _
  · exact Nat.le_refl _

theorem pending_unload (h : t.shifting = some a) : t.pending = a :: t.unload.pending := by
  rw [pending, h]
  rfl

theorem unload_idle (h : t.shifting = none) : t.unload = t := by
  rw [unload, ← h]

theorem work_put : (t.put capacity a).work ≤ t.work + 2 := by
  rw [work, work, put]
  split
  all_goals
    simp only [List.length_append, List.length_dropLast, List.length_singleton]
    omega

theorem work_settle : t.load.unload.work ≤ t.work := by
  rcases t with ⟨_ | ⟨b, rest⟩, _ | a, lost⟩
  · exact Nat.le_refl _
  · exact Nat.le_succ _
  · exact Nat.mul_le_mul_left 2 (Nat.le_succ _)
  · exact Nat.le_succ _

theorem work_settle_lt (h : t.queue ≠ []) : t.load.unload.work < t.work := by
  rcases t with ⟨_ | ⟨b, rest⟩, _ | a, lost⟩
  · exact absurd rfl h
  · exact absurd rfl h
  · exact Nat.lt_of_lt_of_le (Nat.lt_succ_self _) (Nat.le_succ _)
  · exact Nat.lt_succ_self _

end Transmitter

/-- With at most `depth` programs at a time, one that counts on room has it, whatever the
programs that interrupt it put in. Each program is given by whether it has found the queue empty
and not put its item in yet, the innermost first. -/
structure RoomKept (depth : ℕ) (waiting : List Bool) (length : ℕ) : Prop where
  nested : waiting.length ≤ depth
  bounded : length ≤ depth
  room : ∀ outer, true :: outer <:+ waiting → length + (outer.length + 1) ≤ depth

namespace RoomKept
variable {depth length : ℕ} {waiting outer : List Bool} {b : Bool}

theorem of_empty (h : waiting.length ≤ depth) : RoomKept depth waiting 0 :=
  ⟨h, Nat.zero_le _, fun _ hsuffix => by
    have hle := hsuffix.length_le
    rw [List.length_cons] at hle
    omega⟩

theorem lt (h : RoomKept depth (true :: outer) length) : length < depth := by
  have hroom := h.room outer (List.suffix_refl _)
  omega

theorem put (h : RoomKept depth (true :: outer) length) :
    RoomKept depth (false :: outer) (length + 1) := by
  refine ⟨h.nested, h.lt, fun further hsuffix => ?_⟩
  have hroom := h.room outer (List.suffix_refl _)
  obtain heq | hsuffix := List.suffix_cons_iff.mp hsuffix
  · cases heq
  · have hle := hsuffix.length_le
    rw [List.length_cons] at hle
    omega

theorem fewer (h : RoomKept depth waiting length) {less : ℕ} (hle : less ≤ length) :
    RoomKept depth waiting less :=
  ⟨h.nested, hle.trans h.bounded, fun further hsuffix =>
    (Nat.add_le_add_right hle _).trans (h.room further hsuffix)⟩

theorem enter (h : RoomKept depth waiting length) (hlt : waiting.length < depth) :
    RoomKept depth (false :: waiting) length := by
  refine ⟨hlt, h.bounded, fun further hsuffix => ?_⟩
  obtain heq | hsuffix := List.suffix_cons_iff.mp hsuffix
  · cases heq
  · exact h.room further hsuffix

theorem leave (h : RoomKept depth (b :: waiting) length) : RoomKept depth waiting length :=
  ⟨(Nat.le_succ _).trans h.nested, h.bounded, fun further hsuffix =>
    h.room further (hsuffix.trans (List.suffix_cons _ _))⟩

end RoomKept

/-- The items of one program, in order, with the whole texts of others between them. -/
inductive Woven {α : Type*} : List α → List (List α) → List α → Prop
  | nil : Woven [] [] []
  | own {own : List α} {texts : List (List α)} {sent : List α} (a : α) :
    Woven own texts sent → Woven (own ++ [a]) texts (sent ++ [a])
  | text {own : List α} {texts : List (List α)} {sent : List α} (t : List α) :
    Woven own texts sent → Woven own (texts ++ [t]) (sent ++ t)

end BinOs.SharedTransmitter
