import Mathlib.Data.Int.Notation

/-! # Comparisons that answer with a sign

The answer is negative, zero or positive as the first argument is less than the second,
equal to it or greater. Lists are compared by the first place where they differ. -/
namespace BinOs.OrderSigns
open Std

variable {α β : Type} {d e f : ℤ}

structure Signs [LT β] (d : ℤ) (x y : β) : Prop where
  neg : d < 0 ↔ x < y
  zero : d = 0 ↔ x = y
  pos : 0 < d ↔ y < x

theorem Signs.sign_swap [LT β] {x y : β} (h : Signs d x y) (h' : Signs e y x) :
    e.sign = -d.sign := by
  rcases Int.lt_trichotomy d 0 with hd | hd | hd
  · have he : 0 < e := h'.pos.mpr (h.neg.mp hd)
    rw [Int.sign_eq_neg_one_of_neg hd, Int.sign_eq_one_of_pos he]
    rfl
  · have he : e = 0 := h'.zero.mpr (h.zero.mp hd).symm
    rw [hd, he]
    rfl
  · have he : e < 0 := h'.neg.mpr (h.pos.mp hd)
    rw [Int.sign_eq_one_of_pos hd, Int.sign_eq_neg_one_of_neg he]

section Strict
variable [LT β] [Asymm (α := β) (· < ·)] {x y : β}

theorem Signs.of_lt (hd : d < 0) (h : x < y) : Signs d x y where
  neg := iff_of_true hd h
  zero := iff_of_false (by omega) fun heq => lt_irrefl (heq ▸ h)
  pos := iff_of_false (by omega) (Asymm.asymm x y h)

theorem Signs.of_gt (hd : 0 < d) (h : y < x) : Signs d x y where
  neg := iff_of_false (by omega) (Asymm.asymm y x h)
  zero := iff_of_false (by omega) fun heq => lt_irrefl (heq ▸ h)
  pos := iff_of_true hd h

theorem Signs.refl (x : β) : Signs 0 x x where
  neg := iff_of_false (by decide) lt_irrefl
  zero := iff_of_true rfl rfl
  pos := iff_of_false (by decide) lt_irrefl

end Strict

section Linear
variable [LE β] [LT β] [IsLinearOrder β] [LawfulOrderLT β] {x y z : β}

/-- Not above is at most. -/
theorem Signs.nonpos_iff (h : Signs d x y) : d ≤ 0 ↔ x ≤ y := by
  rw [← not_lt (a := y), ← h.pos]
  exact Int.not_lt.symm

theorem Signs.nonpos_trans (hxy : Signs d x y) (hyz : Signs e y z) (hxz : Signs f x z)
    (hd : d ≤ 0) (he : e ≤ 0) : f ≤ 0 :=
  hxz.nonpos_iff.mpr (le_trans (hxy.nonpos_iff.mp hd) (hyz.nonpos_iff.mp he))

end Linear

section Lists
variable [LT α] [Asymm (α := α) (· < ·)] {a b : α} {s t : List α}

/-- Different heads decide. -/
theorem Signs.head (h : Signs d a b) (hne : a ≠ b) (s t : List α) :
    Signs d (a :: s) (b :: t) := by
  have hd : d ≠ 0 := fun hzero => hne (h.zero.mp hzero)
  rcases Int.lt_or_gt_of_ne hd with hneg | hpos
  · exact Signs.of_lt hneg (List.cons_lt_cons_iff.mpr (Or.inl (h.neg.mp hneg)))
  · exact Signs.of_gt hpos (List.cons_lt_cons_iff.mpr (Or.inl (h.pos.mp hpos)))

/-- Equal heads leave it to the rest. -/
theorem Signs.cons (h : Signs d s t) (a : α) : Signs d (a :: s) (a :: t) where
  neg := h.neg.trans List.cons_lt_cons_self.symm
  zero := h.zero.trans (List.cons_inj_right a).symm
  pos := h.pos.trans List.cons_lt_cons_self.symm

end Lists

/-- As unsigned numbers, so that the difference of two bytes has their order's sign. -/
theorem signs_byte (x y : UInt8) : Signs ((x.toNat : ℤ) - y.toNat) x y where
  neg := by
    rw [UInt8.lt_iff_toNat_lt]
    omega
  zero := by
    rw [← UInt8.toNat_inj]
    omega
  pos := by
    rw [UInt8.lt_iff_toNat_lt]
    omega

end BinOs.OrderSigns
