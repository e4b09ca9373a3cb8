import Mathlib.Data.List.Basic
import Mathlib.Data.Nat.Notation

/-! # A line editor of bounded capacity as two lists

The text before the cursor and the text from the cursor on. The bound on their
total length is a field, so no operation can overrun it. -/
namespace BinOs.ZipperEditor

variable {α : Type} {n : ℕ}

structure Editor (α : Type) (capacity : ℕ) where
  left : List α
  right : List α
  bounded : left.length + right.length ≤ capacity

namespace Editor

@[ext] theorem ext {e e' : Editor α n} (hl : e.left = e'.left) (hr : e.right = e'.right) :
    e = e' := by
  cases e
  cases e'
  cases hl
  cases hr
  rfl

def text (e : Editor α n) : List α := e.left ++ e.right

theorem length_text (e : Editor α n) : e.text.length = e.left.length + e.right.length := by
  simp [text]

theorem length_text_le (e : Editor α n) : e.text.length ≤ n := by
  rw [e.length_text]
  exact e.bounded

def empty : Editor α n := ⟨[], [], Nat.zero_le n⟩

/-- A full line takes no further character. -/
def insert (a : α) (e : Editor α n) : Editor α n :=
  if h : e.left.length + e.right.length < n then
    ⟨e.left ++ [a], e.right, by simp; omega⟩
  else e

def backspace (e : Editor α n) : Editor α n :=
  ⟨e.left.dropLast, e.right, by have := e.bounded; simp; omega⟩

def delete (e : Editor α n) : Editor α n :=
  ⟨e.left, e.right.tail, by have := e.bounded; simp; omega⟩

/-- At the left end there is no last character to move. -/
def moveLeft (e : Editor α n) : Editor α n :=
  ⟨e.left.dropLast, e.left.getLast?.toList ++ e.right, by
    have := e.bounded
    cases h : e.left.getLast? <;> cases hl : e.left <;> simp_all
    omega⟩

def moveRight (e : Editor α n) : Editor α n :=
  ⟨e.left ++ e.right.head?.toList, e.right.tail, by
    have := e.bounded
    cases hr : e.right <;> simp_all
    omega⟩

def moveHome (e : Editor α n) : Editor α n := ⟨[], e.left ++ e.right, by simpa using e.bounded⟩

def moveEnd (e : Editor α n) : Editor α n := ⟨e.left ++ e.right, [], by simpa using e.bounded⟩

def killRight (e : Editor α n) : Editor α n :=
  ⟨e.left, [], by have := e.bounded; simp; omega⟩

/-- Keep the first `k` characters before the cursor. -/
def killLeft (k : ℕ) (e : Editor α n) : Editor α n :=
  ⟨e.left.take k, e.right, by have := e.bounded; simp; omega⟩

/-- A given line with the cursor at its end. -/
def load (t : List α) (h : t.length ≤ n) : Editor α n := ⟨t, [], by simpa using h⟩

theorem text_insert {e : Editor α n} (a : α) (h : e.text.length < n) :
    (e.insert a).text = e.text.take e.left.length ++ a :: e.text.drop e.left.length := by
  rw [length_text] at h
  simp [insert, h, text]

theorem text_killLeft (k : ℕ) (e : Editor α n) :
    (e.killLeft k).text = (e.text.take e.left.length).take k ++ e.text.drop e.left.length := by
  simp [killLeft, text]

theorem backspace_eq_killLeft (e : Editor α n) : e.backspace = e.killLeft (e.left.length - 1) := by
  ext1
  · simp [backspace, killLeft, List.dropLast_eq_take]
  · rfl

theorem text_delete (e : Editor α n) :
    e.delete.text = e.text.take e.left.length ++ e.text.drop (e.left.length + 1) := by
  simp [delete, text, List.drop_append]

theorem text_killRight (e : Editor α n) : e.killRight.text = e.text.take e.left.length := by
  simp [killRight, text]

@[simp] theorem text_moveEnd (e : Editor α n) : e.moveEnd.text = e.text := by
  simp [moveEnd, text]

@[simp] theorem text_load (t : List α) (h : t.length ≤ n) :
    (load t h : Editor α n).text = t := by
  simp [load, text]

@[simp] theorem text_moveLeft (e : Editor α n) : e.moveLeft.text = e.text := by
  rcases List.eq_nil_or_concat e.left with h | ⟨l, a, h⟩
  · simp [moveLeft, text, h]
  · simp [moveLeft, text, h]

@[simp] theorem text_moveRight (e : Editor α n) : e.moveRight.text = e.text := by
  cases h : e.right with
  | nil => simp [moveRight, text, h]
  | cons a r => simp [moveRight, text, h]

theorem moveLeft_of_nil {e : Editor α n} (h : e.left = []) : e.moveLeft = e := by
  ext1
  · simp [moveLeft, h]
  · simp [moveLeft, h]

theorem moveRight_of_nil {e : Editor α n} (h : e.right = []) : e.moveRight = e := by
  ext1
  · simp [moveRight, h]
  · simp [moveRight, h]

end Editor

end BinOs.ZipperEditor
