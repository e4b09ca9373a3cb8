import BinOs.PlacedSegments

/-! # Segments that tile an interval

First fit takes a free segment and may carve a free remainder off it. Releasing a segment marks
it free and merges. Both keep a tiling in which no two neighbours are free. -/
namespace BinOs.SegmentTiling

variable {h : ℕ}

def Segment.fits (n : ℕ) (b : Segment) : Bool := b.free && decide (n ≤ b.size)

variable (h) in
/-- Address of the first free segment that can hold `n` cells. -/
def firstFitFrom (n : ℕ) : ℕ → List Segment → Option ℕ
  | _, [] => none
  | a, b :: bs => if b.fits n then some a else firstFitFrom n (a + h + b.size) bs

variable (h) in
/-- A used segment of `n` cells with a free remainder, when the remainder has
room for a header and at least one cell; otherwise the whole segment. -/
def carve (n : ℕ) (b : Segment) : List Segment :=
  if n + h < b.size then [⟨n, false⟩, ⟨b.size - n - h, true⟩] else [⟨b.size, false⟩]

variable (h) in
def reserveFirst (n : ℕ) : List Segment → List Segment
  | [] => []
  | b :: bs => if b.fits n then carve h n b ++ bs else b :: reserveFirst n bs

variable (h) in
def freeAt (p : ℕ) : ℕ → List Segment → List Segment
  | _, [] => []
  | a, b :: bs => if a = p then ⟨b.size, true⟩ :: bs else b :: freeAt p (a + h + b.size) bs

theorem firstFitFrom_eq_none_iff {n a : ℕ} {bs : List Segment} :
    firstFitFrom h n a bs = none ↔ ∀ b ∈ bs, b.fits n = false := by
  induction bs generalizing a with
  | nil => simp [firstFitFrom]
  | cons b bs ih =>
    rw [firstFitFrom]
    split_ifs with hf
    · simp [hf]
    · simp [ih, Bool.eq_false_iff.mpr hf]

/-- The selected segment fits, nothing before it does, and it alone is carved. -/
theorem firstFitFrom_eq_some {n a p : ℕ} {bs : List Segment} (hp : firstFitFrom h n a bs = some p) :
    ∃ pre b post, bs = pre ++ b :: post ∧ p = a + extent h pre ∧ b.fits n = true ∧
      (∀ c ∈ pre, c.fits n = false) ∧ reserveFirst h n bs = pre ++ carve h n b ++ post := by
  induction bs generalizing a with
  | nil => simp [firstFitFrom] at hp
  | cons b bs ih =>
    rw [firstFitFrom] at hp
    split_ifs at hp with hf
    · refine ⟨[], b, bs, rfl, ?_, hf, by simp, by simp [reserveFirst, hf]⟩
      simpa using hp.symm
    · obtain ⟨pre, c, post, rfl, rfl, hc, hpre, hres⟩ := ih hp
      refine ⟨b :: pre, c, post, rfl, by rw [extent_cons]; omega, hc, ?_, ?_⟩
      · intro d hd
        rcases List.mem_cons.mp hd with rfl | hd
        · exact Bool.eq_false_iff.mpr hf
        · exact hpre d hd
      · simp [reserveFirst, hf, hres]

theorem reserveFirst_of_none {n a : ℕ} {bs : List Segment} (hp : firstFitFrom h n a bs = none) :
    reserveFirst h n bs = bs := by
  induction bs generalizing a with
  | nil => rfl
  | cons b bs ih =>
    rw [firstFitFrom] at hp
    split_ifs at hp with hf
    rw [reserveFirst, if_neg hf, ih hp]

theorem extent_carve (n : ℕ) (b : Segment) :
    extent h (carve h n b) = h + b.size := by
  rw [carve]
  split_ifs with hs
  · simp only [extent_cons, extent_nil]
    omega
  · simp

theorem extent_reserveFirst (n : ℕ) (bs : List Segment) :
    extent h (reserveFirst h n bs) = extent h bs := by
  induction bs with
  | nil => rfl
  | cons b bs ih =>
    rw [reserveFirst]
    split_ifs with hf
    · rw [extent_append, extent_carve, extent_cons]
    · rw [extent_cons, extent_cons, ih]

theorem carve_shape (n : ℕ) (b : Segment) :
    ∃ s, carve h n b = [⟨s, false⟩] ∨ ∃ r, carve h n b = [⟨s, false⟩, ⟨r, true⟩] := by
  rw [carve]
  split_ifs with hs
  · exact ⟨n, Or.inr ⟨_, rfl⟩⟩
  · exact ⟨b.size, Or.inl rfl⟩

/-- A carved remainder lies where the free segment ended, so its right
neighbour was already a neighbour of a free segment. -/
theorem merged_reserveFirst (n : ℕ) {bs : List Segment} (hm : Merged bs) :
    Merged (reserveFirst h n bs) ∧
      ∀ c ds, reserveFirst h n bs = c :: ds → c.free = true →
        ∃ b bs', bs = b :: bs' ∧ b.free = true := by
  induction bs with
  | nil => exact ⟨hm, by simp [reserveFirst]⟩
  | cons b bs ih =>
    have htail : Merged bs := hm.of_cons
    have hnext : ∀ c ds, bs = c :: ds → ¬(b.free = true ∧ c.free = true) := by
      rintro c ds rfl
      exact (List.isChain_cons_cons.mp hm).1
    rw [reserveFirst]
    split_ifs with hf
    · have hb : b.free = true := by simp [Segment.fits] at hf; exact hf.1
      refine ⟨?_, fun _ _ _ _ => ⟨b, bs, rfl, hb⟩⟩
      have hfree : ∀ r : ℕ, Merged (⟨r, true⟩ :: bs) := by
        intro r
        cases bs with
        | nil => exact List.isChain_singleton _
        | cons c cs => exact List.isChain_cons_cons.mpr ⟨by simpa [hb] using hnext c cs rfl, htail⟩
      have hused : ∀ s : ℕ, ∀ cs, Merged cs → Merged (⟨s, false⟩ :: cs) := by
        intro s cs hcs
        cases cs with
        | nil => exact List.isChain_singleton _
        | cons c cs => exact List.isChain_cons_cons.mpr ⟨by simp, hcs⟩
      obtain ⟨s, hs | ⟨r, hs⟩⟩ := carve_shape (h := h) n b
      · rw [hs]
        exact hused s bs htail
      · rw [hs]
        exact hused s _ (hfree r)
    · obtain ⟨hres, hhead⟩ := ih htail
      refine ⟨?_, fun c ds hc hfree => ⟨b, bs, rfl, ?_⟩⟩
      · cases hr : reserveFirst h n bs with
        | nil => exact List.isChain_singleton _
        | cons c ds =>
          rw [hr] at hres
          refine List.isChain_cons_cons.mpr ⟨?_, hres⟩
          rintro ⟨hb, hc⟩
          obtain ⟨d, ds', rfl, hd⟩ := hhead c ds hr hc
          exact hnext d ds' rfl ⟨hb, hd⟩
      · rw [(List.cons.inj hc).1]
        exact hfree

theorem freeAt_append (hh : 0 < h) (a : ℕ) (pre : List Segment) (b : Segment)
    (post : List Segment) :
    freeAt h (a + extent h pre) a (pre ++ b :: post) = pre ++ ⟨b.size, true⟩ :: post := by
  induction pre generalizing a with
  | nil => simp [freeAt]
  | cons c pre ih =>
    have hne : a ≠ a + extent h (c :: pre) := by
      rw [extent_cons]
      omega
    rw [List.cons_append, freeAt, if_neg hne, extent_cons]
    simpa [Nat.add_assoc] using ih (a + h + c.size)

theorem extent_freeAt (p a : ℕ) (bs : List Segment) :
    extent h (freeAt h p a bs) = extent h bs := by
  induction bs generalizing a with
  | nil => rfl
  | cons b bs ih =>
    rw [freeAt]
    split_ifs
    · rfl
    · rw [extent_cons, extent_cons, ih]

/-- A tiling of `[lo, hi)` in which every maximal run of free cells is one segment. -/
@[ext] structure Tiling (h lo hi : ℕ) where
  segments : List Segment
  fills : lo + extent h segments = hi
  merged : Merged segments

namespace Tiling

variable {lo hi : ℕ}

def placed (T : Tiling h lo hi) : List (ℕ × Segment) := SegmentTiling.placed h lo T.segments

def used (T : Tiling h lo hi) : List (ℕ × Segment) := SegmentTiling.used h lo T.segments

/-- The tiling of a whole interval by one free segment. -/
def whole (hle : lo + h ≤ hi) : Tiling h lo hi where
  segments := [⟨hi - lo - h, true⟩]
  fills := by
    simp only [extent_cons, extent_nil]
    omega
  merged := List.isChain_singleton _

def firstFit (T : Tiling h lo hi) (n : ℕ) : Option ℕ := firstFitFrom h n lo T.segments

/-- The tiling after first fit of `n` cells; unchanged when nothing fits. -/
def reserve (T : Tiling h lo hi) (n : ℕ) : Tiling h lo hi where
  segments := reserveFirst h n T.segments
  fills := by rw [extent_reserveFirst, T.fills]
  merged := (merged_reserveFirst n T.merged).1

def release (T : Tiling h lo hi) (p : ℕ) : Tiling h lo hi where
  segments := mergeAll h (freeAt h p lo T.segments)
  fills := by rw [extent_mergeAll, extent_freeAt, T.fills]
  merged := merged_mergeAll _

@[simp] theorem segments_reserve (T : Tiling h lo hi) (n : ℕ) :
    (T.reserve n).segments = reserveFirst h n T.segments := rfl
@[simp] theorem segments_release (T : Tiling h lo hi) (p : ℕ) :
    (T.release p).segments = mergeAll h (freeAt h p lo T.segments) := rfl

theorem mem_used_iff {T : Tiling h lo hi} {x : ℕ × Segment} :
    x ∈ T.used ↔ x ∈ T.placed ∧ x.2.free = false := SegmentTiling.mem_used_iff

theorem placed_bounds {T : Tiling h lo hi} {x : ℕ × Segment} (hx : x ∈ T.placed) :
    lo ≤ x.1 ∧ x.1 + h + x.2.size ≤ hi :=
  ⟨le_of_mem_placed hx, T.fills ▸ end_le_of_mem_placed hx⟩

theorem used_pairwise (T : Tiling h lo hi) :
    T.used.Pairwise (fun x y => x.1 + h + x.2.size ≤ y.1) :=
  (placed_pairwise lo T.segments).filter _

theorem reserve_of_none {T : Tiling h lo hi} {n : ℕ} (hp : T.firstFit n = none) :
    T.reserve n = T :=
  Tiling.ext (reserveFirst_of_none hp)

/-- First fit adds one used segment at the chosen address and keeps the others. -/
theorem used_reserve {T : Tiling h lo hi} {n p : ℕ} (hp : T.firstFit n = some p) :
    ∃ s xs ys, n ≤ s ∧ T.used = xs ++ ys ∧ (T.reserve n).used = xs ++ (p, ⟨s, false⟩) :: ys := by
  obtain ⟨pre, b, post, hsegs, rfl, hfit, -, hres⟩ := firstFitFrom_eq_some hp
  simp only [Segment.fits, Bool.and_eq_true, decide_eq_true_eq] at hfit
  have hused : T.used = SegmentTiling.used h lo pre ++
      SegmentTiling.used h (lo + extent h pre + h + b.size) post := by
    rw [used, hsegs, used_append, used_cons_free _ _ hfit.1]
  have hafter : (T.reserve n).used = SegmentTiling.used h lo pre ++
      (SegmentTiling.used h (lo + extent h pre) (carve h n b) ++
        SegmentTiling.used h (lo + extent h pre + h + b.size) post) := by
    rw [used, segments_reserve, hres, List.append_assoc, used_append, used_append, extent_carve]
    congr 3
    omega
  rw [hused, hafter, carve]
  split_ifs with hs
  · exact ⟨n, _, _, le_rfl, rfl, rfl⟩
  · exact ⟨b.size, _, _, hfit.2, rfl, rfl⟩

theorem mem_used_reserve {T : Tiling h lo hi} {n p : ℕ} (hp : T.firstFit n = some p) :
    ∃ s, n ≤ s ∧ (p, ⟨s, false⟩) ∈ (T.reserve n).used ∧ (∀ x ∈ T.used, x ∈ (T.reserve n).used ∧
      (x.1 + h + x.2.size ≤ p ∨ p + h + s ≤ x.1)) := by
  obtain ⟨s, xs, ys, hs, hold, hnew⟩ := used_reserve hp
  have hpw := (T.reserve n).used_pairwise
  rw [hnew, List.pairwise_append, List.pairwise_cons] at hpw
  refine ⟨s, hs, by simp [hnew], fun x hx => ?_⟩
  rw [hold, List.mem_append] at hx
  rcases hx with hx | hx
  · exact ⟨by simp [hnew, hx], Or.inl (hpw.2.2 x hx _ List.mem_cons_self)⟩
  · exact ⟨by simp [hnew, hx], Or.inr (hpw.2.1.1 x hx)⟩

/-- Releasing a used segment removes it from the used ones and keeps the others. -/
theorem used_release (hh : 0 < h) {T : Tiling h lo hi} {x : ℕ × Segment} (hx : x ∈ T.used) :
    ∃ xs ys, T.used = xs ++ x :: ys ∧ (T.release x.1).used = xs ++ ys := by
  obtain ⟨hmem, hfree⟩ := mem_used_iff.mp hx
  obtain ⟨pre, post, hsegs, hx1⟩ := mem_placed_iff.mp hmem
  refine ⟨SegmentTiling.used h lo pre, SegmentTiling.used h (x.1 + h + x.2.size) post, ?_, ?_⟩
  · rw [used, hsegs, used_append, used_cons_used _ _ hfree, ← hx1]
  · rw [used, segments_release, used_mergeAll, hsegs, hx1, freeAt_append hh, used_append,
      used_cons_free _ _ rfl]

theorem mem_used_release (hh : 0 < h) {T : Tiling h lo hi} {x y : ℕ × Segment} (hx : x ∈ T.used) :
    y ∈ (T.release x.1).used ↔ y ∈ T.used ∧ y.1 ≠ x.1 := by
  obtain ⟨xs, ys, hold, hnew⟩ := used_release hh hx
  have hpw := T.used_pairwise
  rw [hold, List.pairwise_append, List.pairwise_cons] at hpw
  rw [hold, hnew]
  simp only [List.mem_append, List.mem_cons]
  constructor
  · rintro (hy | hy)
    · have hlt := hpw.2.2 y hy x List.mem_cons_self
      exact ⟨Or.inl hy, by omega⟩
    · have hlt := hpw.2.1.1 y hy
      exact ⟨Or.inr (Or.inr hy), by omega⟩
  · rintro ⟨hy | rfl | hy, hne⟩
    · exact Or.inl hy
    · exact absurd rfl hne
    · exact Or.inr hy

/-- With nothing in use the whole interval is one free segment. -/
theorem eq_whole_of_used_nil (hlt : lo < hi) {T : Tiling h lo hi} (hu : T.used = []) :
    T.segments = [⟨hi - lo - h, true⟩] := by
  have hfree : ∀ x ∈ T.placed, x.2.free = true := by
    intro x hx
    by_contra hf
    have hmem : x ∈ T.used := mem_used_iff.mpr ⟨hx, by simpa using hf⟩
    simp [hu] at hmem
  have hfills := T.fills
  have hmerged := T.merged
  rw [placed] at hfree
  rcases hs : T.segments with _ | ⟨b, _ | ⟨c, cs⟩⟩
  · simp [hs] at hfills
    omega
  · rw [hs] at hfree hfills
    simp only [extent_cons, extent_nil] at hfills
    have hb : b.free = true := hfree (lo, b) (by simp)
    cases b
    simp only at hb hfills
    subst hb
    congr 2
    omega
  · rw [hs] at hfree hmerged
    exact absurd ⟨hfree (lo, b) (by simp), hfree (lo + h + b.size, c) (by simp)⟩
      (List.isChain_cons_cons.mp hmerged).1

end Tiling

end BinOs.SegmentTiling
