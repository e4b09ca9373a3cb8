import BinOs.BoundedLoops
import Mathlib.Logic.Function.Basic

/-! # Rectangles in row-major memory

A rectangle is a set of words, its rows `stride` words apart. A sweep over it that
may read the memory it is painting paints every word with the colour it has in a
plan fixed beforehand, provided each word read still is what the plan took it for. -/
namespace BinOs.RowMajor
open BoundedLoops

variable {α σ : Type} {stride width lo hi : ℤ}

/-- Word `k` lies in one of the first `width` columns of a row from `lo` up to `hi`. -/
def InRows (stride width lo hi k : ℤ) : Prop :=
  ∃ y x, lo ≤ y ∧ y < hi ∧ 0 ≤ x ∧ x < width ∧ k = y * stride + x

theorem inRows_mk {y x : ℤ} (hlo : lo ≤ y) (hhi : y < hi) (h0 : 0 ≤ x) (hw : x < width) :
    InRows stride width lo hi (y * stride + x) := ⟨y, x, hlo, hhi, h0, hw, rfl⟩

theorem not_inRows_of_le (h : hi ≤ lo) (k : ℤ) : ¬ InRows stride width lo hi k := by
  rintro ⟨y, x, hlo, hhi, -⟩
  omega

theorem not_inRows_zero (k : ℤ) : ¬ InRows stride 0 lo hi k := by
  rintro ⟨y, x, -, -, h0, hw, -⟩
  omega

theorem lt_of_inRows (h : 0 ≤ stride) {k : ℤ} (hk : InRows stride width lo hi k) :
    k < (hi - 1) * stride + width := by
  obtain ⟨y, x, hlo, hhi, h0, hw, rfl⟩ := hk
  have hrow : y * stride ≤ (hi - 1) * stride := Int.mul_le_mul_of_nonneg_right (by omega) h
  omega

/-- The rows below `y + 1` are those below `y` and row `y`. -/
theorem inRows_succ {y : ℤ} (h : lo ≤ y) (k : ℤ) : InRows stride width lo (y + 1) k ↔
    InRows stride width lo y k ∨ InRows stride width y (y + 1) k := by
  constructor
  · rintro ⟨v, x, hlo, hhi, h0, hw, rfl⟩
    rcases Int.lt_or_le v y with hv | hv
    · exact .inl (inRows_mk hlo hv h0 hw)
    · exact .inr (inRows_mk hv hhi h0 hw)
  · rintro (⟨v, x, hlo, hhi, h0, hw, rfl⟩ | ⟨v, x, hlo, hhi, h0, hw, rfl⟩)
    · exact inRows_mk hlo (by omega) h0 hw
    · exact inRows_mk (by omega) hhi h0 hw

theorem inRows_mono {lo' hi' k : ℤ} (hlo : lo' ≤ lo) (hhi : hi ≤ hi')
    (h : InRows stride width lo hi k) : InRows stride width lo' hi' k := by
  obtain ⟨y, x, hy, hy', h0, hx, rfl⟩ := h
  exact inRows_mk (Int.le_trans hlo hy) (Int.lt_of_lt_of_le hy' hhi) h0 hx

theorem inRows_cut (mid : ℤ) {k : ℤ} (h : InRows stride width lo hi k) :
    InRows stride width lo mid k ∨ InRows stride width mid hi k := by
  obtain ⟨y, x, hy, hy', h0, hx, rfl⟩ := h
  rcases Int.lt_or_le y mid with hmid | hmid
  · exact .inl (inRows_mk hy hmid h0 hx)
  · exact .inr (inRows_mk hmid hy' h0 hx)

/-- One more column of row `y` is one more word. -/
theorem inRow_succ {y x : ℤ} (h : 0 ≤ x) (k : ℤ) : InRows stride (x + 1) y (y + 1) k ↔
    InRows stride x y (y + 1) k ∨ k = y * stride + x := by
  constructor
  · rintro ⟨v, u, hlo, hhi, h0, hw, rfl⟩
    obtain rfl : v = y := by omega
    rcases Int.lt_or_le u x with hu | hu
    · exact .inl (inRows_mk hlo hhi h0 hu)
    · obtain rfl : u = x := by omega
      exact .inr rfl
  · rintro (⟨v, u, hlo, hhi, h0, hw, rfl⟩ | rfl)
    · exact inRows_mk hlo hhi h0 (by omega)
    · exact inRows_mk (by omega) (by omega) h (by omega)

/-- Rows at least as far apart as they are wide do not overlap. -/
theorem row_unique {y x y' x' : ℤ} (hstride : width ≤ stride) (h0 : 0 ≤ x) (hw : x < width)
    (h0' : 0 ≤ x') (hw' : x' < width) (h : y * stride + x = y' * stride + x') :
    y = y' ∧ x = x' := by
  have hrow : ∀ v u : ℤ, 0 ≤ u → u < width → (v * stride + u) / stride = v := by
    intro v u hu hwu
    rw [Int.add_comm, Int.add_mul_ediv_right _ _ (by omega), Int.ediv_eq_zero_of_lt hu (by omega)]
    exact Int.zero_add v
  have hy : y = y' := by
    have hquot := congrArg (· / stride) h
    simpa only [hrow y x h0 hw, hrow y' x' h0' hw'] using hquot
  subst hy
  exact ⟨rfl, by omega⟩

/-- A colour that the last `step` rows have, where `Q` holds, has spread through all rows if
each of the others has the colour of the row `step` below it. -/
theorem color_spreads {m : ℤ → α} {c : α} {Q : ℤ → Prop} {step : ℤ} (hpos : 0 < step)
    (hlast : ∀ k, InRows stride width (hi - step) hi k → Q k → m k = c)
    (hrest : ∀ k, InRows stride width lo (hi - step) k → ¬ InRows stride width (hi - step) hi k →
      Q k → m (k + step * stride) = m k ∧ Q (k + step * stride))
    {k : ℤ} (hk : InRows stride width lo hi k) (hQ : Q k) : m k = c := by
  obtain ⟨y, x, hlo, hhi, h0, hw, rfl⟩ := hk
  -- the induction is on the number of rows below row `y`
  induction hn : (hi - y).toNat using Nat.strongRecOn generalizing y with
  | ind n ih =>
    by_cases hbottom : InRows stride width (hi - step) hi (y * stride + x)
    · exact hlast _ hbottom hQ
    have hy : y < hi - step := by
      by_contra hge
      exact hbottom (inRows_mk (Int.not_lt.mp hge) hhi h0 hw)
    obtain ⟨hsame, hnext⟩ := hrest _ (inRows_mk hlo hy h0 hw) hbottom hQ
    have hrow : y * stride + x + step * stride = (y + step) * stride + x := by
      rw [Int.add_mul]
      omega
    rw [hrow] at hsame hnext
    rw [← hsame]
    exact ih _ (by omega) (y + step) (by omega) (by omega) hnext rfl

/-- `m'` has the colours of the plan `g` on the words of `P` and those of `m` elsewhere. -/
structure Paints (g : ℤ → α) (P : ℤ → Prop) (m m' : ℤ → α) : Prop where
  on : ∀ k, P k → m' k = g k
  off : ∀ k, ¬ P k → m' k = m k

namespace Paints

variable {g : ℤ → α} {P Q : ℤ → Prop} {m m' : ℤ → α}

theorem refl (h : ∀ k, ¬ P k) : Paints g P m m :=
  ⟨fun k hk => absurd hk (h k), fun _ _ => rfl⟩

theorem congr (h : Paints g P m m') (hPQ : ∀ k, Q k ↔ P k) : Paints g Q m m' :=
  ⟨fun k hk => h.on k ((hPQ k).mp hk), fun k hk => h.off k (mt (hPQ k).mpr hk)⟩

theorem update (h : Paints g P m m') (i : ℤ) :
    Paints g (fun k => P k ∨ k = i) m (Function.update m' i (g i)) where
  on k hk := by
    by_cases hi : k = i
    · subst hi
      exact Function.update_self k (g k) m'
    · rw [Function.update_of_ne hi]
      exact h.on k (hk.resolve_right hi)
  off k hk := by
    rw [Function.update_of_ne (fun hi => hk (.inr hi))]
    exact h.off k (fun hP => hk (.inl hP))

/-- What was not painted is as before, and so is what was painted as it was. -/
theorem eq_of_not_or_eq (h : Paints g P m m') {k : ℤ} (hk : ¬ P k ∨ g k = m k) : m' k = m k := by
  by_cases hP : P k
  · exact (h.on k hP).trans (hk.resolve_left (not_not_intro hP))
  · exact h.off k hP

end Paints

/-- A sweep in rows over the memory `mem` of a state. `J` is what the sweep keeps of
the rest of the state; a pass at `(y, x)` knows what was painted before it. -/
theorem sweep_paints (mem : σ → ℤ → α) (J : σ → Prop) (cols : σ → ℤ) {body : ℤ → ℤ → σ → σ}
    {g : ℤ → α} {s : σ} (hle : lo ≤ hi) (hwidth : 0 ≤ width) (hJ : J s)
    (hcols : ∀ t, J t → cols t = width)
    (hbody : ∀ y x t, lo ≤ y → y < hi → 0 ≤ x → x < width → J t →
      Paints g (fun k => InRows stride width lo y k ∨ InRows stride x y (y + 1) k) (mem s) (mem t) →
      J (body y x t) ∧
        mem (body y x t) = Function.update (mem t) (y * stride + x) (g (y * stride + x))) :
    J (forUp lo hi (fun y t => forUp 0 (cols t) (body y) t) s) ∧
      Paints g (InRows stride width lo hi) (mem s)
        (mem (forUp lo hi (fun y t => forUp 0 (cols t) (body y) t) s)) := by
  apply forUp_invariant (fun y t => J t ∧ Paints g (InRows stride width lo y) (mem s) (mem t)) hle
  · exact ⟨hJ, .refl (not_inRows_of_le (Int.le_refl lo))⟩
  rintro y t hlo hhi ⟨ht, hp⟩
  rw [hcols t ht]
  -- within row `y`, the columns below `x` are painted
  have hrow : J (forUp 0 width (body y) t) ∧ Paints g (fun k => InRows stride width lo y k ∨
      InRows stride width y (y + 1) k) (mem s) (mem (forUp 0 width (body y) t)) := by
    apply forUp_invariant (fun x u => J u ∧
      Paints g (fun k => InRows stride width lo y k ∨ InRows stride x y (y + 1) k) (mem s) (mem u)) hwidth
    · exact ⟨ht, hp.congr (fun k => or_iff_left (not_inRows_zero k))⟩
    rintro x u h0 hx ⟨hu, hpu⟩
    obtain ⟨hJu, hmem⟩ := hbody y x u hlo hhi h0 hx hu hpu
    refine ⟨hJu, ?_⟩
    rw [hmem]
    exact (hpu.update (y * stride + x)).congr (fun k => by rw [inRow_succ h0, or_assoc])
  exact ⟨hrow.1, hrow.2.congr (inRows_succ hlo)⟩

end BinOs.RowMajor
