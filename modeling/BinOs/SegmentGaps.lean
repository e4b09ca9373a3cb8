import BinOs.SegmentTiling

/-! # The gaps between used segments

First fit takes the lowest gap with room, and what is in use determines the whole tiling. -/
namespace BinOs.SegmentTiling

variable {h : ℕ}

variable (h) in
/-- A stretch free of used segments that cannot be extended: each end is an end
of the interval or touches a used segment. -/
structure IsGap (lo hi : ℕ) (us : List (ℕ × Segment)) (s e : ℕ) : Prop where
  ordered : s ≤ e
  left : s = lo ∨ ∃ x ∈ us, s = x.1 + h + x.2.size
  right : e = hi ∨ ∃ x ∈ us, e = x.1
  clear : ∀ x ∈ us, x.1 + h + x.2.size ≤ s ∨ e ≤ x.1

namespace Tiling

variable {lo hi : ℕ}

/-- Every address where a segment may start or the interval may end. -/
theorem boundary_or_inside {T : Tiling h lo hi} {x : ℕ × Segment} (hx : x ∈ T.placed) {e : ℕ}
    (he : e = hi ∨ ∃ y ∈ T.used, e = y.1) (hlt : x.1 < e) : x.1 + h + x.2.size ≤ e := by
  rcases he with rfl | ⟨y, hy, rfl⟩
  · exact (placed_bounds hx).2
  · rcases placed_disjoint hx (mem_used_iff.mp hy).1 with hxy | hxy | hxy
    · rw [hxy] at hlt
      omega
    · exact hxy
    · omega

theorem isGap_of_free (hh : 0 < h) {T : Tiling h lo hi} {x : ℕ × Segment} (hx : x ∈ T.placed)
    (hfree : x.2.free = true) : IsGap h lo hi T.used x.1 (x.1 + h + x.2.size) := by
  obtain ⟨pre, post, hsegs, hx1⟩ := mem_placed_iff.mp hx
  have hmerged := T.merged
  rw [hsegs] at hmerged
  have hplaced : T.placed = SegmentTiling.placed h lo pre ++
      (x.1, x.2) :: SegmentTiling.placed h (x.1 + h + x.2.size) post := by
    rw [placed, hsegs, placed_append, placed_cons, ← hx1]
  refine ⟨by omega, ?_, ?_, ?_⟩
  · rcases List.eq_nil_or_concat pre with rfl | ⟨pre', c, rfl⟩
    · exact Or.inl (by simpa using hx1)
    · right
      have hc : c.free = false := by
        have hc := (List.isChain_append.mp hmerged).2.2 c (by simp) x.2 (by simp)
        simpa [hfree] using hc
      refine ⟨(lo + extent h pre', c), mem_used_iff.mpr ⟨?_, hc⟩, ?_⟩
      · rw [hplaced, List.mem_append]
        exact Or.inl (by simp)
      · rw [hx1, List.concat_eq_append, extent_append]
        simp only [extent_cons, extent_nil]
        omega
  · cases post with
    | nil =>
      left
      have hfills := T.fills
      rw [hsegs, extent_append, extent_cons, extent_nil] at hfills
      omega
    | cons c post =>
      right
      have hc : c.free = false := by
        have hchain := (List.isChain_append.mp hmerged).2.1
        simpa [hfree] using (List.isChain_cons_cons.mp hchain).1
      exact ⟨(x.1 + h + x.2.size, c), mem_used_iff.mpr ⟨by rw [hplaced]; simp, hc⟩, rfl⟩
  · intro y hy
    obtain ⟨hymem, hyfree⟩ := mem_used_iff.mp hy
    rcases placed_disjoint hymem hx with rfl | hxy | hxy
    · simp [hfree] at hyfree
    · exact Or.inl hxy
    · exact Or.inr hxy

/-- A nonempty gap is exactly one free segment, header included. -/
theorem isGap_iff (hh : 0 < h) {T : Tiling h lo hi} {s e : ℕ} (hlt : s < e) :
    IsGap h lo hi T.used s e ↔
      ∃ b, (s, b) ∈ T.placed ∧ b.free = true ∧ e = s + h + b.size := by
  constructor
  · intro hg
    obtain ⟨b, hb⟩ : ∃ b, (s, b) ∈ T.placed := by
      have hehi : e ≤ hi := by
        rcases hg.right with rfl | ⟨y, hy, rfl⟩
        · exact le_rfl
        · have hb := placed_bounds (mem_used_iff.mp hy).1
          omega
      obtain ⟨pre, post, hsegs, hs⟩ : ∃ pre post, T.segments = pre ++ post ∧
          s = lo + extent h pre := by
        rcases hg.left with rfl | ⟨x, hx, rfl⟩
        · exact ⟨[], T.segments, rfl, by simp⟩
        · obtain ⟨pre, post, hsegs, hx1⟩ := mem_placed_iff.mp (mem_used_iff.mp hx).1
          refine ⟨pre ++ [x.2], post, by simp [hsegs], ?_⟩
          rw [extent_append, extent_cons, extent_nil]
          omega
      cases post with
      | nil =>
        have hfills := T.fills
        rw [hsegs, List.append_nil] at hfills
        omega
      | cons b post => exact ⟨b, mem_placed_iff.mpr ⟨pre, post, hsegs, hs⟩⟩
    have hfree : b.free = true := by
      by_contra hf
      rcases hg.clear (s, b) (mem_used_iff.mpr ⟨hb, by simpa using hf⟩) with hc | hc
      · simp only at hc
        omega
      · simp only at hc
        omega
    have hseg := isGap_of_free hh hb hfree
    refine ⟨b, hb, hfree, Nat.le_antisymm ?_ (boundary_or_inside hb hg.right hlt)⟩
    rcases hseg.right with hr | ⟨y, hy, hr⟩
    · rw [hr]
      rcases hg.right with rfl | ⟨y, hy, rfl⟩
      · exact le_rfl
      · have hyb := placed_bounds (mem_used_iff.mp hy).1
        omega
    · rcases hg.clear y hy with hc | hc
      · simp only at hr
        omega
      · exact hc.trans hr.ge
  · rintro ⟨b, hb, hfree, rfl⟩
    exact isGap_of_free hh hb hfree

/-- First fit fails exactly when no gap has room for a header and `n` cells. -/
theorem firstFit_eq_none_iff (hh : 0 < h) {T : Tiling h lo hi} {n : ℕ} :
    T.firstFit n = none ↔ ¬∃ s e, IsGap h lo hi T.used s e ∧ s + (n + h) ≤ e := by
  rw [firstFit, firstFitFrom_eq_none_iff]
  constructor
  · rintro hno ⟨s, e, hg, hroom⟩
    obtain ⟨b, hb, hfree, rfl⟩ := (isGap_iff hh (by omega)).mp hg
    obtain ⟨pre, post, hsegs, -⟩ := mem_placed_iff.mp hb
    have hfit := hno b (by simp [hsegs])
    simp only [Segment.fits, hfree, Bool.true_and, decide_eq_false_iff_not] at hfit
    omega
  · intro hno b hb
    by_contra hfit
    simp only [Segment.fits, Bool.not_eq_false, Bool.and_eq_true, decide_eq_true_eq] at hfit
    obtain ⟨pre, post, hsegs⟩ := List.append_of_mem hb
    have hmem : (lo + extent h pre, b) ∈ T.placed := mem_placed_iff.mpr ⟨pre, post, hsegs, rfl⟩
    refine hno ⟨_, _, isGap_of_free hh hmem hfit.1, ?_⟩
    simp only
    omega

/-- First fit chooses the lowest gap with room. -/
theorem firstFit_lowest (hh : 0 < h) {T : Tiling h lo hi} {n p : ℕ} (hp : T.firstFit n = some p) :
    (∃ e, IsGap h lo hi T.used p e ∧ p + (n + h) ≤ e) ∧
      ∀ s e, IsGap h lo hi T.used s e → s + (n + h) ≤ e → p ≤ s := by
  obtain ⟨pre, b, post, hsegs, rfl, hfit, hpre, -⟩ := firstFitFrom_eq_some hp
  simp only [Segment.fits, Bool.and_eq_true, decide_eq_true_eq] at hfit
  have hmem : (lo + extent h pre, b) ∈ T.placed := mem_placed_iff.mpr ⟨pre, post, hsegs, rfl⟩
  refine ⟨⟨_, isGap_of_free hh hmem hfit.1, by simp only; omega⟩, ?_⟩
  intro s e hg hroom
  obtain ⟨c, hc, hfree, rfl⟩ := (isGap_iff hh (by omega)).mp hg
  rw [placed, hsegs, placed_append, List.mem_append] at hc
  rcases hc with hc | hc
  · obtain ⟨pre', post', rfl, -⟩ := mem_placed_iff.mp hc
    have hno := hpre c (by simp)
    simp only [Segment.fits, hfree, Bool.true_and, decide_eq_false_iff_not] at hno
    omega
  · exact le_of_mem_placed hc

end Tiling

/-- Where merged segments start with a free one, the first one in use comes right behind it. -/
theorem used_behind_free {a : ℕ} {b : Segment} {bs : List Segment} (hb : b.free = true)
    (hm : Merged (b :: bs)) :
    bs = [] ∨ ∃ c rest, bs = c :: rest ∧
      used h a (b :: bs) = (a + h + b.size, c) :: used h (a + h + b.size + h + c.size) rest := by
  rcases bs with _ | ⟨c, rest⟩
  · exact .inl rfl
  · have hc : c.free = false := by
      by_contra hfree
      exact (List.isChain_cons_cons.mp hm).1 ⟨hb, by simpa using hfree⟩
    exact .inr ⟨c, rest, rfl, by rw [used_cons_free a _ hb, used_cons_used _ _ hc]⟩

theorem used_singleton_free (a : ℕ) {b : Segment} (hb : b.free = true) : used h a [b] = [] := by
  rw [used_cons_free a _ hb]
  rfl

/-- Two free segments at one place, with the same used segments behind them, are equal. -/
theorem free_size_eq {a : ℕ} {b c : Segment} {bs cs : List Segment} (hb : b.free = true)
    (hc : c.free = true) (hmb : Merged (b :: bs)) (hmc : Merged (c :: cs))
    (hextent : extent h (b :: bs) = extent h (c :: cs))
    (hused : used h a (b :: bs) = used h a (c :: cs)) : b = c := by
  have hsize : b.size = c.size := by
    obtain rfl | ⟨b', bs', rfl, hbs⟩ := used_behind_free (h := h) (a := a) hb hmb
    · obtain rfl | ⟨c', cs', rfl, hcs⟩ := used_behind_free (h := h) (a := a) hc hmc
      · simp only [extent_cons, extent_nil] at hextent
        omega
      · rw [used_singleton_free a hb, hcs] at hused
        cases hused
    · obtain rfl | ⟨c', cs', rfl, hcs⟩ := used_behind_free (h := h) (a := a) hc hmc
      · rw [used_singleton_free a hc, hbs] at hused
        cases hused
      · rw [hbs, hcs] at hused
        have hplace := congrArg Prod.fst (List.cons.inj hused).1
        simp only at hplace
        omega
  rcases b with ⟨m, f⟩
  rcases c with ⟨n, g⟩
  rw [show f = g from hb.trans hc.symm, show m = n from hsize]

/-- A used segment in front has no counterpart among segments that start with a free one. -/
theorem used_ne_of_free {a : ℕ} {b c : Segment} {bs cs : List Segment} (hh : 0 < h)
    (hb : b.free = false) (hc : c.free = true) : used h a (b :: bs) ≠ used h a (c :: cs) := by
  intro heq
  rw [used_cons_used a bs hb, used_cons_free a cs hc] at heq
  have hmem : (a, b) ∈ used h (a + h + c.size) cs := heq ▸ List.mem_cons_self
  have hle := le_of_mem_placed (mem_used_iff.mp hmem).1
  simp only at hle
  omega

theorem eq_of_used_eq (hh : 0 < h) {bs cs : List Segment} {a : ℕ} (hb : Merged bs) (hc : Merged cs)
    (hextent : extent h bs = extent h cs) (hused : used h a bs = used h a cs) : bs = cs := by
  induction bs generalizing cs a with
  | nil =>
    rcases cs with _ | ⟨c, cs⟩
    · rfl
    · simp only [extent_cons, extent_nil] at hextent
      omega
  | cons b bs ih =>
    rcases cs with _ | ⟨c, cs⟩
    · simp only [extent_cons, extent_nil] at hextent
      omega
    have hhead : b = c := by
      cases hbf : b.free with
      | true =>
        cases hcf : c.free with
        | true => exact free_size_eq hbf hcf hb hc hextent hused
        | false => exact absurd hused.symm (used_ne_of_free hh hcf hbf)
      | false =>
        cases hcf : c.free with
        | true => exact absurd hused (used_ne_of_free hh hbf hcf)
        | false =>
          rw [used_cons_used a bs hbf, used_cons_used a cs hcf] at hused
          exact congrArg Prod.snd (List.cons.inj hused).1
    subst hhead
    have hrest : used h (a + h + b.size) bs = used h (a + h + b.size) cs := by
      cases hbf : b.free with
      | true => rwa [used_cons_free a bs hbf, used_cons_free a cs hbf] at hused
      | false =>
        rw [used_cons_used a bs hbf, used_cons_used a cs hbf] at hused
        exact (List.cons.inj hused).2
    have hbs : Merged bs := List.IsChain.tail hb
    have hcs : Merged cs := List.IsChain.tail hc
    rw [ih hbs hcs (by simpa using hextent) hrest]

theorem Tiling.eq_of_used_eq (hh : 0 < h) {lo hi : ℕ} {T U : Tiling h lo hi}
    (hused : T.used = U.used) : T = U :=
  Tiling.ext (SegmentTiling.eq_of_used_eq hh T.merged U.merged
    (Nat.add_left_cancel (T.fills.trans U.fills.symm)) hused)

end BinOs.SegmentTiling
