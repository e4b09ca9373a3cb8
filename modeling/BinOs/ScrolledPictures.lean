import BinOs.ScreenScrolling

/-! # The pictures that scroll

The wrong stride does no harm to a picture that hides it, and where the pitch is a multiple of 4
to no other. On every screen there are pictures that do not. -/
namespace BinOs.ScreenScrolling
open RowMajor FramebufferDrawing ShellConsole

/-- The words of the code's rows, those it moves and those it clears. -/
def Written (s : Screen) : ℤ → Prop := InRows (s.fbPitch / 4) s.fbWidth 0 s.fbHeight

def Visible (s : Screen) : ℤ → Prop := InRows s.fbPitch s.fbWidth 0 s.fbHeight

/-- A picture that hides the wrong stride: the code's rows and the visible ones differ in
background only, and a line further by either stride a word finds the same colour. The last
two fields matter only where the pitch is not a multiple of 4. -/
structure StrideHidden (s : Screen) : Prop where
  hidden : ∀ k, Written s k → ¬ Visible s k → s.fbPtr k = bgColor
  untouched : ∀ k, Visible s k → ¬ Written s k → s.fbPtr k = bgColor
  moved : ∀ k, InRows s.fbPitch s.fbWidth 0 (s.fbHeight - lineHeight) k →
    InRows (s.fbPitch / 4) s.fbWidth 0 (s.fbHeight - lineHeight) k →
    ¬ InRows (s.fbPitch / 4) s.fbWidth (s.fbHeight - lineHeight) s.fbHeight k →
    s.fbPtr (k + lineHeight * (s.fbPitch / 4)) = s.fbPtr (k + lineHeight * s.fbPitch)
  surfacing : ∀ k, Written s k → ¬ Visible s k → Visible s (k + lineHeight * (s.fbPitch / 4)) →
    s.fbPtr (k + lineHeight * (s.fbPitch / 4)) = bgColor
  entering : ∀ k, Visible s k → ¬ Written s k → Written s (k + lineHeight * s.fbPitch) →
    s.fbPtr (k + lineHeight * s.fbPitch) = bgColor

theorem inRows_line {stride width hi k : ℤ} (h : InRows stride width 0 (hi - lineHeight) k) :
    InRows stride width 0 hi (k + lineHeight * stride) := by
  obtain ⟨y, x, hy, hy', h0, hx, rfl⟩ := h
  rw [lineHeight_eq] at hy'
  rw [line_above, lineHeight_eq]
  exact inRows_mk (by omega) (by omega) h0 hx

section sources
variable {s : Screen} {stride k : ℤ}

theorem rows_of_above (hk : InRows stride s.fbWidth 0 (s.fbHeight - lineHeight) k) :
    InRows stride s.fbWidth 0 s.fbHeight k :=
  inRows_mono (Int.le_refl 0) (Int.sub_le_self _ (by decide)) hk

theorem rows_of_last (h : Geometry s)
    (hk : InRows stride s.fbWidth (s.fbHeight - lineHeight) s.fbHeight k) :
    InRows stride s.fbWidth 0 s.fbHeight k :=
  inRows_mono (Int.sub_nonneg_of_le h.line) (Int.le_refl _) hk

theorem source_outside (h : Geometry s) (hout : ¬ InRows stride s.fbWidth 0 s.fbHeight k) :
    source stride s k = some k :=
  source_kept (fun hk => hout (rows_of_last h hk)) fun hk => hout (rows_of_above hk)

theorem source_last_line (h : InRows stride s.fbWidth (s.fbHeight - lineHeight) s.fbHeight k) :
    source stride s k = none := if_pos h

theorem source_above (h : ¬ InRows stride s.fbWidth (s.fbHeight - lineHeight) s.fbHeight k)
    (h' : InRows stride s.fbWidth 0 (s.fbHeight - lineHeight) k) :
    source stride s k = some (k + lineHeight * stride) := by
  rw [source, if_neg h, if_pos h']

end sources

/-- A visible line behind its last rows the code writes nothing. -/
theorem not_written_below {s : Screen} (h : Geometry s) {k : ℤ}
    (hk : InRows (s.fbPitch / 4) s.fbWidth (s.fbHeight - lineHeight) s.fbHeight k) :
    ¬ Written s (k + lineHeight * s.fbPitch) := by
  obtain ⟨y, x, hy, -, h0, -, rfl⟩ := hk
  intro hwritten
  have hpos := h.pitch_bounds.1
  have hwidth := h.width_le
  have hlt := lt_of_inRows (by omega) hwritten
  have hrow : (s.fbHeight - lineHeight) * (s.fbPitch / 4) ≤ y * (s.fbPitch / 4) :=
    Int.mul_le_mul_of_nonneg_right hy (by omega)
  rw [lineHeight_eq, Int.sub_mul] at hrow
  rw [lineHeight_eq, Int.sub_mul] at hlt
  omega

/-- The last visible line lies behind all words that the code moves. -/
theorem not_moved_of_last {s : Screen} (h : Geometry s) {k : ℤ}
    (hk : InRows s.fbPitch s.fbWidth (s.fbHeight - lineHeight) s.fbHeight k) :
    ¬ InRows (s.fbPitch / 4) s.fbWidth 0 (s.fbHeight - lineHeight) k := by
  obtain ⟨y, x, hy, -, h0, -, rfl⟩ := hk
  intro hmoved
  have hpos := h.pitch_bounds.1
  have hwidth := h.width_le
  have hlt := lt_of_inRows (by omega) hmoved
  obtain ⟨y', -, hy', hy'', -⟩ := hmoved
  have hrow : (s.fbHeight - lineHeight) * s.fbPitch ≤ y * s.fbPitch :=
    Int.mul_le_mul_of_nonneg_right hy (Int.le_of_lt hpos)
  have hquarter : (s.fbHeight - lineHeight - 1) * (s.fbPitch / 4) ≤
      (s.fbHeight - lineHeight - 1) * s.fbPitch :=
    Int.mul_le_mul_of_nonneg_left (by omega) (by omega)
  rw [Int.sub_mul _ 1 s.fbPitch] at hquarter
  omega

theorem not_last_of_above {s : Screen} {stride k : ℤ} (hstride : s.fbWidth ≤ stride)
    (hk : InRows stride s.fbWidth 0 (s.fbHeight - lineHeight) k) :
    ¬ InRows stride s.fbWidth (s.fbHeight - lineHeight) s.fbHeight k := by
  obtain ⟨y, x, -, hy, h0, hx, rfl⟩ := hk
  rintro ⟨y', x', hy', -, h0', hx', heq⟩
  have hrow := (row_unique hstride h0 hx h0' hx' heq).1
  omega

theorem StrideHidden.sources {s : Screen} (hs : StrideHidden s) (h : Geometry s) (k : ℤ) :
    colorOf s (source (s.fbPitch / 4) s k) = colorOf s (source s.fbPitch s k) := by
  by_cases hout : Written s k
  case neg =>
    rw [source_outside h hout]
    by_cases hvisible : Visible s k
    · obtain habove' | hlast' := inRows_cut (s.fbHeight - lineHeight) hvisible
      · rw [source_above (not_last_of_above h.width_le habove') habove']
        refine (hs.untouched k hvisible hout).trans ?_
        by_cases hline : Written s (k + lineHeight * s.fbPitch)
        · exact (hs.entering k hvisible hout hline).symm
        · exact (hs.untouched _ (inRows_line habove') hline).symm
      · rw [source_last_line hlast']
        exact hs.untouched k hvisible hout
    · rw [source_outside h hvisible]
  by_cases hlast : InRows (s.fbPitch / 4) s.fbWidth (s.fbHeight - lineHeight) s.fbHeight k
  case pos =>
    rw [source_last_line hlast]
    by_cases hvisible : Visible s k
    · obtain habove' | hlast' := inRows_cut (s.fbHeight - lineHeight) hvisible
      · rw [source_above (not_last_of_above h.width_le habove') habove']
        exact (hs.untouched _ (inRows_line habove') (not_written_below h hlast)).symm
      · rw [source_last_line hlast']
    · rw [source_outside h hvisible]
      exact (hs.hidden k hout hvisible).symm
  have habove := (inRows_cut _ hout).resolve_right hlast
  rw [source_above hlast habove]
  by_cases hvisible : Visible s k
  · obtain habove' | hlast' := inRows_cut (s.fbHeight - lineHeight) hvisible
    · rw [source_above (not_last_of_above h.width_le habove') habove']
      exact hs.moved k habove' habove hlast
    · exact absurd habove (not_moved_of_last h hlast')
  · rw [source_outside h hvisible]
    refine Eq.trans ?_ (hs.hidden k hout hvisible).symm
    by_cases hline : Visible s (k + lineHeight * (s.fbPitch / 4))
    · exact hs.surfacing k hout hvisible hline
    · exact hs.hidden _ (inRows_line habove) hline

section Multiple
variable {s : Screen} (h : Geometry s) (hpitch : 4 ∣ s.fbPitch) {k : ℤ}
include h hpitch

/-- Sixteen of the code's rows are four visible ones. -/
theorem visible_of_line (hk : Written s k) (hline : Visible s (k + lineHeight * (s.fbPitch / 4))) :
    Visible s k := by
  have hfour := Int.mul_ediv_cancel' hpitch
  have hpos := h.pitch_bounds.1
  have hwidth := h.width_le
  obtain ⟨m, u, hm, -, hu, -, heq⟩ := hk
  have hk0 : 0 ≤ m * (s.fbPitch / 4) := Int.mul_nonneg hm (by omega)
  obtain ⟨y, x, hy, hy', h0, hx, heq'⟩ := hline
  rw [lineHeight_eq] at heq'
  have hup : k = (y - 4) * s.fbPitch + x := by
    rw [Int.sub_mul]
    omega
  refine ⟨y - 4, x, ?_, by omega, h0, hx, hup⟩
  by_contra hneg
  have hbefore : (y - 4) * s.fbPitch ≤ (-1) * s.fbPitch :=
    Int.mul_le_mul_of_nonneg_right (by omega) (Int.le_of_lt hpos)
  omega

theorem written_of_line (hk : Visible s k) (hline : Written s (k + lineHeight * s.fbPitch)) :
    Written s k := by
  have hfour := Int.mul_ediv_cancel' hpitch
  have hpos := h.pitch_bounds.1
  have hheight := h.line
  obtain ⟨y, x, hy, -, h0, -, heq⟩ := hk
  have hk0 : 0 ≤ y * s.fbPitch := Int.mul_nonneg hy (Int.le_of_lt hpos)
  obtain ⟨m, u, hm, hm', hu, hu', heq'⟩ := hline
  rw [lineHeight_eq] at heq' hheight
  have hup : k = (m - 64) * (s.fbPitch / 4) + u := by
    rw [Int.sub_mul]
    omega
  rcases Int.lt_or_le m 64 with hfew | hmany
  · have hbefore : (m - 64) * (s.fbPitch / 4) ≤ 0 * (s.fbPitch / 4) :=
      Int.mul_le_mul_of_nonneg_right (by omega) (by omega)
    exact ⟨0, k, Int.le_refl 0, by omega, by omega, by omega, by omega⟩
  · exact ⟨m - 64, u, by omega, by omega, hu, hu', hup⟩

theorem strideHidden_of_sources (hall : ∀ k, colorOf s (source (s.fbPitch / 4) s k) =
    colorOf s (source s.fbPitch s k)) : StrideHidden s where
  hidden k hwritten hout := by
    refine color_spreads (Q := fun k => ¬ Visible s k) (by decide : 0 < lineHeight) ?_ ?_ hwritten hout
    · intro k hlast hout
      have hsame := hall k
      rw [source_last_line hlast, source_outside h hout] at hsame
      exact hsame.symm
    · intro k habove hlast hout
      have hsame := hall k
      rw [source_above hlast habove, source_outside h hout] at hsame
      exact ⟨hsame, fun hline => hout (visible_of_line h hpitch (rows_of_above habove) hline)⟩
  untouched k hvisible hout := by
    refine color_spreads (Q := fun k => ¬ Written s k) (by decide : 0 < lineHeight) ?_ ?_ hvisible hout
    · intro k hlast hout
      have hsame := hall k
      rw [source_last_line hlast, source_outside h hout] at hsame
      exact hsame
    · intro k habove hlast hout
      have hsame := hall k
      rw [source_above hlast habove, source_outside h hout] at hsame
      exact ⟨hsame.symm, fun hline => hout (written_of_line h hpitch (rows_of_above habove) hline)⟩
  moved k habove' habove hlast := by
    have hsame := hall k
    rwa [source_above hlast habove, source_above (not_last_of_above h.width_le habove') habove'] at hsame
  surfacing k hwritten hout hline := absurd (visible_of_line h hpitch hwritten hline) hout
  entering k hvisible hout hline := absurd (written_of_line h hpitch hvisible hline) hout

end Multiple

/-- The picture scrolls when it hides the wrong stride, and on no other picture where the pitch
is a multiple of 4. -/
theorem scroll_moves_picture {s : Screen} (h : Geometry s) :
    (StrideHidden s → PictureMoved s (shellScrollUp s)) ∧
      (4 ∣ s.fbPitch → PictureMoved s (shellScrollUp s) → StrideHidden s) :=
  ⟨fun hs => (moved_iff_sources h).mpr (hs.sources h),
    fun hpitch hmoved => strideHidden_of_sources h hpitch ((moved_iff_sources h).mp hmoved)⟩

theorem nonneg_of_inRows {stride width hi k : ℤ} (hstride : 0 ≤ stride)
    (hk : InRows stride width 0 hi k) : 0 ≤ k := by
  obtain ⟨y, x, hy, -, h0, -, rfl⟩ := hk
  have hrow : 0 ≤ y * stride := Int.mul_nonneg hy hstride
  omega

/-- With a pitch that is a multiple of 4 the picture may show anything in its first four rows. -/
theorem strideHidden_of_top {s : Screen} (h : Geometry s) (hpitch : 4 ∣ s.fbPitch)
    (htop : ∀ k, s.fbPtr k ≠ bgColor → Visible s k ∧ k < lineHeight * (s.fbPitch / 4)) :
    StrideHidden s := by
  have hfour := Int.mul_ediv_cancel' hpitch
  have hpos := h.pitch_bounds.1
  have hbelow : ∀ k, lineHeight * (s.fbPitch / 4) ≤ k → s.fbPtr k = bgColor := by
    intro k hk
    by_contra hcolor
    have hlt := (htop k hcolor).2
    omega
  have hquarter : ∀ {k}, Written s k → s.fbPtr (k + lineHeight * (s.fbPitch / 4)) = bgColor := by
    intro k hk
    have hk0 := nonneg_of_inRows (by omega) hk
    exact hbelow _ (by omega)
  have hline : ∀ {k}, Visible s k → s.fbPtr (k + lineHeight * s.fbPitch) = bgColor := by
    intro k hk
    have hk0 := nonneg_of_inRows (Int.le_of_lt hpos) hk
    rw [lineHeight_eq] at hbelow ⊢
    exact hbelow _ (by omega)
  refine ⟨?_, ?_, ?_, ?_, ?_⟩
  · intro k _ hout
    by_contra hcolor
    exact hout (htop k hcolor).1
  · rintro k ⟨y, x, hy, -, h0, hx, rfl⟩ hout
    by_contra hcolor
    have hlt := (htop _ hcolor).2
    have hheight := h.line
    rw [lineHeight_eq] at hlt hheight
    have hrow : y < 4 := by
      by_contra hge
      have hfar : 4 * s.fbPitch ≤ y * s.fbPitch :=
        Int.mul_le_mul_of_nonneg_right (by omega) (Int.le_of_lt hpos)
      omega
    have hup : y * s.fbPitch + x = 4 * y * (s.fbPitch / 4) + x := by
      rw [Int.mul_comm 4 y, Int.mul_assoc, hfour]
    exact hout ⟨4 * y, x, by omega, by omega, h0, hx, hup⟩
  · intro k hvisible hwritten _
    rw [hquarter (rows_of_above hwritten), hline (rows_of_above hvisible)]
  · exact fun k hwritten _ _ => hquarter hwritten
  · exact fun k hvisible _ _ => hline hvisible

/-- A screen of eight columns and one row more than a line. -/
def smallScreen (fb : ℤ → UInt32) : Screen :=
  { fbPtr := fb, fbWidth := 8, fbHeight := 17, fbPitch := 8,
    cursorPositionX := 0, cursorPositionY := 16 }

theorem smallScreen_geometry (fb : ℤ → UInt32) : Geometry (smallScreen fb) :=
  ⟨Int.le.intro 7 rfl, Int.le.intro 1 rfl, Int.le_refl 8, Int.le.intro 2147483511 rfl⟩

/-- The one white pixel, in the corner, scrolls out of the picture. -/
def cornerScreen : Screen := smallScreen fun k => if k = 0 then textColor else bgColor

theorem cornerScreen_strideHidden : StrideHidden cornerScreen := by
  refine strideHidden_of_top (smallScreen_geometry _) ⟨2, rfl⟩ fun k hcolor => ?_
  obtain rfl : k = 0 := by
    by_contra hk
    exact hcolor (if_neg hk)
  exact ⟨⟨0, 0, by decide⟩, by decide⟩

theorem scroll_moves_picture_corner :
    PictureMoved cornerScreen (shellScrollUp cornerScreen) ∧ StrideHidden cornerScreen := by
  obtain ⟨hmoves, honly⟩ := scroll_moves_picture (s := cornerScreen) (smallScreen_geometry _)
  have hmoved := hmoves cornerScreen_strideHidden
  exact ⟨hmoved, honly ⟨2, rfl⟩ hmoved⟩

/-- A white pixel at the start of row 16 does not come up to row 0. -/
theorem scroll_loses_a_pixel : ∃ s, Geometry s ∧ ¬ PictureMoved s (shellScrollUp s) := by
  refine ⟨smallScreen fun k => if k = 128 then textColor else bgColor, smallScreen_geometry _, ?_⟩
  rintro ⟨hmoved, -, -⟩
  have hpixel := hmoved 0 0 (by decide) (by decide) (by decide) (by decide)
  revert hpixel
  decide +kernel

/-- The last word of the last row is out of the code's reach. -/
theorem source_last {s : Screen} (h : Geometry s) :
    source (s.fbPitch / 4) s ((s.fbHeight - 1) * s.fbPitch + (s.fbWidth - 1)) =
      some ((s.fbHeight - 1) * s.fbPitch + (s.fbWidth - 1)) := by
  obtain ⟨hw, hl, hp, -⟩ := h
  rw [lineHeight_eq] at hl
  have hreach : (s.fbHeight - 1) * (s.fbPitch / 4) + (s.fbHeight - 1) * 1 ≤
      (s.fbHeight - 1) * s.fbPitch := by
    rw [← Int.mul_add]
    exact Int.mul_le_mul_of_nonneg_left (by omega) (by omega)
  have hout : ∀ lo hi, hi ≤ s.fbHeight → ¬ InRows (s.fbPitch / 4) s.fbWidth lo hi
      ((s.fbHeight - 1) * s.fbPitch + (s.fbWidth - 1)) := by
    intro lo hi hhi hrows
    have hlt := lt_of_inRows (by omega) hrows
    have hrow : (hi - 1) * (s.fbPitch / 4) ≤ (s.fbHeight - 1) * (s.fbPitch / 4) :=
      Int.mul_le_mul_of_nonneg_right (by omega) (by omega)
    omega
  have hline := lineHeight_eq
  exact source_kept (hout _ _ (by omega)) (hout _ _ (by omega))

/-- On no geometry does the picture scroll whatever it shows: the pixel at the bottom right
has to be background before. -/
theorem last_pixel_of_moved {s : Screen} (h : Geometry s) (hmoved : PictureMoved s (shellScrollUp s)) :
    pixel s (s.fbWidth - 1) (s.fbHeight - 1) = bgColor := by
  have hw := h.width_pos
  have hl := h.line
  rw [lineHeight_eq] at hl
  have hlast := hmoved.cleared (s.fbWidth - 1) (s.fbHeight - 1) (by omega) (by omega)
    (by rw [lineHeight_eq]; omega) (by omega)
  rwa [pixel, shellScrollUp_fbPitch h, shellScrollUp_fbPtr h, source_last h] at hlast

end BinOs.ScreenScrolling
