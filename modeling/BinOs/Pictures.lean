import BinOs.RowMajor

/-! # Pictures drawn on a raster

A picture gives some points of the plane a colour. Drawing it on a raster colours the
points that are on the raster and leaves every other word of the memory alone. -/
namespace BinOs.Pictures
open BoundedLoops RowMajor

variable {α σ : Type}

abbrev Picture (α : Type) := ℤ → ℤ → Option α

namespace Picture

def dot (x y : ℤ) (c : Option α) : Picture α := fun px py => if px = x ∧ py = y then c else none

/-- The part of a picture at these points. -/
def on (p : Picture α) (P : ℤ → ℤ → Prop) [∀ x y, Decidable (P x y)] : Picture α :=
  fun x y => if P x y then p x y else none

/-- One picture on top of another. -/
def atop (q p : Picture α) : Picture α := fun x y => (q x y).or (p x y)

theorem atop_isSome {q p : Picture α} {x y : ℤ} :
    (q.atop p x y).isSome ↔ (q x y).isSome ∨ (p x y).isSome := by
  rw [atop, Option.isSome_or, Bool.or_eq_true]

end Picture

/-- A raster of `height` rows of `width` points, the rows `stride` words apart. -/
structure Raster where
  stride : ℤ
  width : ℤ
  height : ℤ

namespace Raster

def On (R : Raster) (x y : ℤ) : Prop := 0 ≤ x ∧ x < R.width ∧ 0 ≤ y ∧ y < R.height

instance (R : Raster) (x y : ℤ) : Decidable (R.On x y) := inferInstanceAs (Decidable (_ ∧ _))

def word (R : Raster) (x y : ℤ) : ℤ := y * R.stride + x

/-- The memory `m'` is `m` with the picture drawn on it. -/
structure Draws (R : Raster) (p : Picture α) (m m' : ℤ → α) : Prop where
  covered : ∀ x y c, R.On x y → p x y = some c → m' (R.word x y) = c
  kept : ∀ k, (∀ x y, R.On x y → (p x y).isSome → k ≠ R.word x y) → m' k = m k

variable {R : Raster} {p q : Picture α} {m m' m'' : ℤ → α} {x y x' y' : ℤ}

theorem word_unique (hR : R.width ≤ R.stride) (h : R.On x y) (h' : R.On x' y')
    (heq : R.word x y = R.word x' y') : x = x' ∧ y = y' :=
  (row_unique hR h.1 h.2.1 h'.1 h'.2.1 heq).symm

/-- Every point has a word of its own among the first `stride * height`. -/
theorem word_bounds (hR : R.width ≤ R.stride) (h : R.On x y) :
    0 ≤ R.word x y ∧ R.word x y < R.stride * R.height := by
  obtain ⟨h0, hw, hy, hh⟩ := h
  have hlow : 0 ≤ y * R.stride := Int.mul_nonneg hy (by omega)
  have hrow : (y + 1) * R.stride ≤ R.height * R.stride :=
    Int.mul_le_mul_of_nonneg_right (by omega) (by omega)
  rw [Int.add_mul, Int.one_mul] at hrow
  rw [word, Int.mul_comm R.stride]
  omega

namespace Draws

theorem congr (h : R.Draws p m m') (hpq : ∀ x y, R.On x y → q x y = p x y) : R.Draws q m m' where
  covered x y c hon hq := h.covered x y c hon (hpq x y hon ▸ hq)
  kept k hk := h.kept k fun x y hon hp => hk x y hon (hpq x y hon ▸ hp)

theorem empty (h : ∀ x y, R.On x y → p x y = none) : R.Draws p m m where
  covered x y c hon hp := by
    rw [h x y hon] at hp
    cases hp
  kept _ _ := rfl

theorem atop (hR : R.width ≤ R.stride) (hp : R.Draws p m m') (hq : R.Draws q m' m'') :
    R.Draws (q.atop p) m m'' where
  covered x y c hon hc := by
    cases hqx : q x y with
    | some d =>
      rw [Picture.atop, hqx] at hc
      rw [hq.covered x y d hon hqx]
      exact Option.some_inj.mp hc
    | none =>
      rw [Picture.atop, hqx, Option.none_or] at hc
      refine (hq.kept _ fun x' y' hon' hq' heq => ?_).trans (hp.covered x y c hon hc)
      obtain ⟨rfl, rfl⟩ := word_unique hR hon hon' heq
      rw [hqx] at hq'
      cases hq'
  kept k hk := by
    rw [hq.kept k fun x y hon h => hk x y hon (Picture.atop_isSome.mpr (.inl h)),
      hp.kept k fun x y hon h => hk x y hon (Picture.atop_isSome.mpr (.inr h))]

/-- Drawing a picture where it has just been drawn changes nothing. -/
theorem redraw (h : R.Draws p m m') (h' : R.Draws p m' m'') : m'' = m' := by
  funext k
  by_cases hk : ∃ x y, R.On x y ∧ (p x y).isSome ∧ k = R.word x y
  · obtain ⟨x, y, hon, hp, rfl⟩ := hk
    obtain ⟨c, hc⟩ := Option.isSome_iff_exists.mp hp
    rw [h'.covered x y c hon hc, h.covered x y c hon hc]
  · exact h'.kept k fun x y hon hp heq => hk ⟨x, y, hon, hp, heq⟩

end Draws

theorem draws_update (h : R.On x y) (m : ℤ → α) (c : α) :
    R.Draws (.dot x y (some c)) m (Function.update m (R.word x y) c) where
  covered x' y' c' _ hc := by
    rw [Picture.dot] at hc
    split at hc
    case isTrue hpoint =>
      obtain ⟨rfl, rfl⟩ := hpoint
      rw [Function.update_self]
      exact Option.some_inj.mp hc
    case isFalse => cases hc
  kept k hk := Function.update_of_ne (hk x y h (by rw [Picture.dot, if_pos ⟨rfl, rfl⟩]; rfl)) _ _

/-- A loop of which pass `i` draws the part of a picture where `f` is `i`. `J` is what the
passes keep of the rest of the state. -/
theorem forUp_draws (hR : R.width ≤ R.stride) (mem : σ → ℤ → α) (J : σ → Prop) (f : ℤ → ℤ → ℤ)
    {lo hi : ℤ} {body : ℤ → σ → σ} {s : σ} (hJ : J s)
    (hbody : ∀ i t, lo ≤ i → i < hi → J t →
      J (body i t) ∧ R.Draws (p.on fun x y => f x y = i) (mem t) (mem (body i t))) :
    J (forUp lo hi body s) ∧
      R.Draws (p.on fun x y => lo ≤ f x y ∧ f x y < hi) (mem s) (mem (forUp lo hi body s)) := by
  by_cases hle : lo ≤ hi
  · apply forUp_invariant (fun i t =>
      J t ∧ R.Draws (p.on fun x y => lo ≤ f x y ∧ f x y < i) (mem s) (mem t)) hle
    · refine ⟨hJ, .empty fun x y _ => if_neg (by omega)⟩
    rintro i t hlo hhi ⟨ht, hdraws⟩
    obtain ⟨hJ', hpass⟩ := hbody i t hlo hhi ht
    refine ⟨hJ', (hdraws.atop hR hpass).congr fun x y _ => ?_⟩
    simp only [Picture.on, Picture.atop]
    by_cases hi : f x y = i
    · rw [if_pos hi, if_pos (by omega), if_neg (by omega), Option.or_none]
    · rw [if_neg hi, Option.none_or]
      by_cases hr : lo ≤ f x y ∧ f x y < i
      · rw [if_pos hr, if_pos (by omega)]
      · rw [if_neg hr, if_neg (by omega)]
  · rw [forUp_of_le (by omega)]
    exact ⟨hJ, .empty fun x y _ => if_neg (by omega)⟩

end Raster

end BinOs.Pictures
