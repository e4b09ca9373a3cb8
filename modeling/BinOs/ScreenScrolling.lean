import BinOs.RowMajor
import BinOs.ShellConsole

/-! # Scrolling the picture

`init_framebuffer` leaves the pitch counted in pixels, and that is how the drawing
routines use it. `shell_scroll_up` divides it by the size of a pixel once more, so
that it moves rows a quarter of the pitch apart. -/
namespace BinOs.ScreenScrolling
open BoundedLoops RowMajor FramebufferDrawing ShellConsole

/-- A screen of at least one line whose last word is within the reach of an `int`. -/
structure Geometry (s : Screen) : Prop where
  width_pos : 0 < s.fbWidth
  line : lineHeight ≤ s.fbHeight
  width_le : s.fbWidth ≤ s.fbPitch
  size : s.fbPitch * s.fbHeight < 2 ^ 31

theorem toInt32_natCast {n : ℕ} (h : n < 2 ^ 31) : toInt32 (n : ℤ) = n :=
  Int.bmod_eq_of_le (by omega) (by omega)

/-- The kernel sets up such a screen, its pitch in pixels, when the boot loader's rows are
as long as their pixels at least. -/
theorem initFramebuffer_geometry {framebuffer : LimineFramebuffer} {rest : List LimineFramebuffer}
    {s s' : Screen} (hinit : initFramebuffer (some (framebuffer :: rest)) s = some s')
    (hw : 0 < framebuffer.width.toNat) (hh : 16 ≤ framebuffer.height.toNat)
    (hp : framebuffer.width.toNat * 4 ≤ framebuffer.pitch.toNat)
    (hsize : framebuffer.pitch.toNat / 4 * framebuffer.height.toNat < 2 ^ 31) :
    Geometry s' ∧ s'.fbPitch = (framebuffer.pitch.toNat / 4 : ℕ) := by
  have hwidth : framebuffer.width.toNat ≤ framebuffer.pitch.toNat / 4 := by omega
  have hrows : framebuffer.pitch.toNat / 4 * 1 ≤
      framebuffer.pitch.toNat / 4 * framebuffer.height.toNat := Nat.mul_le_mul_left _ (by omega)
  have hheight : 1 * framebuffer.height.toNat ≤
      framebuffer.pitch.toNat / 4 * framebuffer.height.toNat := Nat.mul_le_mul_right _ (by omega)
  cases hinit
  have hpitch : toInt32 ((framebuffer.pitch / 4).toNat : ℤ) = (framebuffer.pitch.toNat / 4 : ℕ) := by
    have hdiv : (framebuffer.pitch / 4).toNat = framebuffer.pitch.toNat / 4 := UInt64.toNat_div _ _
    rw [hdiv]
    exact toInt32_natCast (by omega)
  rw [toInt32_natCast (n := framebuffer.width.toNat) (by omega),
    toInt32_natCast (n := framebuffer.height.toNat) (by omega), hpitch]
  refine ⟨⟨?_, ?_, ?_, ?_⟩, rfl⟩
  · exact Int.natCast_pos.mpr hw
  · exact Int.ofNat_le.mpr hh
  · exact Int.ofNat_le.mpr hwidth
  · have hprod : ((framebuffer.pitch.toNat / 4 : ℕ) : ℤ) * framebuffer.height.toNat < 2 ^ 31 := by
      exact_mod_cast hsize
    exact hprod

/-- The pixel at column `x` of row `y`. -/
def pixel (s : Screen) (x y : ℤ) : UInt32 := s.fbPtr (y * s.fbPitch + x)

/-- `s'` shows the picture of `s` one line higher, its last line blank. -/
structure PictureMoved (s s' : Screen) : Prop where
  moved : ∀ x y, 0 ≤ x → x < s.fbWidth → 0 ≤ y → y < s.fbHeight - lineHeight →
    pixel s' x y = pixel s x (y + 16)
  cleared : ∀ x y, 0 ≤ x → x < s.fbWidth → s.fbHeight - lineHeight ≤ y → y < s.fbHeight →
    pixel s' x y = bgColor
  kept : ∀ k, (∀ x y, 0 ≤ x → x < s.fbWidth → 0 ≤ y → y < s.fbHeight →
    k ≠ y * s.fbPitch + x) → s'.fbPtr k = s.fbPtr k

open Classical in
/-- The word that a scroll with rows `stride` apart brings to word `k`; `none` is the
background. -/
noncomputable def source (stride : ℤ) (s : Screen) (k : ℤ) : Option ℤ :=
  if InRows stride s.fbWidth (s.fbHeight - lineHeight) s.fbHeight k then none
  else if InRows stride s.fbWidth 0 (s.fbHeight - lineHeight) k then some (k + lineHeight * stride)
  else some k

def colorOf (s : Screen) : Option ℤ → UInt32
  | none => bgColor
  | some k => s.fbPtr k

theorem lineHeight_eq : lineHeight = 16 := rfl

section source
variable {stride : ℤ} {s : Screen} {x y k : ℤ}

theorem line_above : y * stride + x + lineHeight * stride = (y + lineHeight) * stride + x := by
  rw [Int.add_mul]
  omega

theorem source_cleared (h0 : 0 ≤ x) (hw : x < s.fbWidth) (hlo : s.fbHeight - lineHeight ≤ y)
    (hhi : y < s.fbHeight) : source stride s (y * stride + x) = none :=
  if_pos (inRows_mk hlo hhi h0 hw)

/-- Where rows do not overlap, those above the last line are not on it. -/
theorem source_moved (hstride : s.fbWidth ≤ stride) (h0 : 0 ≤ x) (hw : x < s.fbWidth) (hlo : 0 ≤ y)
    (hhi : y < s.fbHeight - lineHeight) :
    source stride s (y * stride + x) = some ((y + lineHeight) * stride + x) := by
  have hlast : ¬ InRows stride s.fbWidth (s.fbHeight - lineHeight) s.fbHeight (y * stride + x) := by
    rintro ⟨y', x', hlo', -, h0', hw', heq⟩
    have hrow := (row_unique hstride h0 hw h0' hw' heq).1
    omega
  rw [source, if_neg hlast, if_pos (inRows_mk hlo hhi h0 hw), line_above]

theorem source_kept (hlast : ¬ InRows stride s.fbWidth (s.fbHeight - lineHeight) s.fbHeight k)
    (hrest : ¬ InRows stride s.fbWidth 0 (s.fbHeight - lineHeight) k) :
    source stride s k = some k := by
  rw [source, if_neg hlast, if_neg hrest]

end source

/-- The loops leave the shape of the screen alone. -/
structure SameShape (s t : Screen) : Prop where
  width : t.fbWidth = s.fbWidth
  height : t.fbHeight = s.fbHeight
  pitch : t.fbPitch = s.fbPitch

theorem Geometry.pitch_bounds {s : Screen} (h : Geometry s) :
    0 < s.fbPitch ∧ s.fbPitch < 2 ^ 31 := by
  obtain ⟨hw, hl, hp, hs⟩ := h
  rw [lineHeight_eq] at hl
  have hle : s.fbPitch * 1 ≤ s.fbPitch * s.fbHeight :=
    Int.mul_le_mul_of_nonneg_left (by omega) (by omega)
  omega

theorem scrollPitch_eq {s : Screen} (h : Geometry s) : scrollPitch s = s.fbPitch / 4 := by
  obtain ⟨h0, h31⟩ := h.pitch_bounds
  rw [scrollPitch, toInt32, Int.emod_eq_of_lt (by omega) (by omega)]
  exact Int.bmod_eq_of_le (by omega) (by omega)

/-- The first loop: a word read lies a line below the words painted so far, unless the
stride is 0 and the loop copies a row to itself. -/
theorem move_rows {s : Screen} (h : Geometry s) {stride : ℤ} (hs : stride = s.fbPitch / 4) :
    let t := forUp 0 (s.fbHeight - lineHeight) (fun y s =>
      forUp 0 s.fbWidth (fun x s =>
        plot (y * stride + x) (s.fbPtr ((y + lineHeight) * stride + x)) s) s) s
    SameShape s t ∧ Paints (fun k => s.fbPtr (k + lineHeight * stride))
      (InRows stride s.fbWidth 0 (s.fbHeight - lineHeight)) s.fbPtr t.fbPtr := by
  obtain ⟨hw, hl, hp, -⟩ := h
  apply sweep_paints Screen.fbPtr (SameShape s) Screen.fbWidth
    (by omega) (by omega) ⟨rfl, rfl, rfl⟩ (fun t ht => ht.width)
  rintro y x t hlo hhi h0 hx ⟨htw, hth, htp⟩ hpaint
  refine ⟨⟨htw, hth, htp⟩, ?_⟩
  have hread : t.fbPtr ((y + lineHeight) * stride + x) =
      s.fbPtr ((y + lineHeight) * stride + x) := by
    apply hpaint.eq_of_not_or_eq
    rcases Int.lt_or_le 0 stride with hpos | hzero
    · left
      rw [lineHeight_eq, Int.add_mul]
      rintro (hrows | hrow)
      · have hlt := lt_of_inRows (by omega) hrows
        rw [Int.sub_mul] at hlt
        omega
      · have hlt := lt_of_inRows (by omega) hrow
        rw [Int.sub_mul, Int.add_mul] at hlt
        omega
    · right
      rw [show stride = 0 by omega]
      simp only [Int.mul_zero, Int.add_zero]
  rw [line_above, plot, hread]

/-- The second loop. -/
theorem clear_rows {s t : Screen} (h : Geometry s) (ht : SameShape s t) (stride : ℤ) :
    let u := forUp (t.fbHeight - lineHeight) t.fbHeight (fun y s =>
      forUp 0 s.fbWidth (fun x s => plot (y * stride + x) bgColor s) s) t
    SameShape s u ∧ Paints (fun _ => bgColor)
      (InRows stride s.fbWidth (s.fbHeight - lineHeight) s.fbHeight) t.fbPtr u.fbPtr := by
  have hline := lineHeight_eq
  have hw := h.width_pos
  rw [ht.height]
  apply sweep_paints Screen.fbPtr (SameShape s) Screen.fbWidth
    (by omega) (by omega) ht (fun u hu => hu.width)
  rintro y x u - - - - ⟨huw, huh, hup⟩ -
  exact ⟨⟨huw, huh, hup⟩, rfl⟩

@[simp] theorem moveCursorUp_fbPtr (amount : UInt16) (s : Screen) :
    (moveCursorUp amount s).fbPtr = s.fbPtr := by
  unfold moveCursorUp
  split <;> rfl

@[simp] theorem moveCursorUp_fbPitch (amount : UInt16) (s : Screen) :
    (moveCursorUp amount s).fbPitch = s.fbPitch := by
  unfold moveCursorUp
  split <;> rfl

theorem shellScrollUp_fbPitch {s : Screen} (h : Geometry s) :
    (shellScrollUp s).fbPitch = s.fbPitch := by
  have hmove := (move_rows h (scrollPitch_eq h)).1
  rw [shellScrollUp, moveCursorUp_fbPitch]
  exact (clear_rows h hmove (scrollPitch s)).1.pitch

/-- The code brings every word its source at a quarter of the pitch. -/
theorem shellScrollUp_fbPtr {s : Screen} (h : Geometry s) (k : ℤ) :
    (shellScrollUp s).fbPtr k = colorOf s (source (s.fbPitch / 4) s k) := by
  obtain ⟨hshape, hmove⟩ := move_rows h (scrollPitch_eq h)
  obtain ⟨-, hclear⟩ := clear_rows h hshape (scrollPitch s)
  rw [shellScrollUp, moveCursorUp_fbPtr, ← scrollPitch_eq h, source]
  split_ifs with hlast hrest
  · exact hclear.on k hlast
  · exact (hclear.off k hlast).trans (hmove.on k hrest)
  · exact (hclear.off k hlast).trans (hmove.off k hrest)

/-- A scroll moves the picture if it brings every word its source at the full pitch. -/
theorem pictureMoved_iff {s s' : Screen} (h : Geometry s) (hpitch : s'.fbPitch = s.fbPitch) :
    PictureMoved s s' ↔ ∀ k, s'.fbPtr k = colorOf s (source s.fbPitch s k) := by
  obtain ⟨hw, hl, hp, -⟩ := h
  rw [lineHeight_eq] at hl
  constructor
  · rintro ⟨hmoved, hcleared, hkept⟩ k
    simp only [pixel, hpitch] at hmoved hcleared
    by_cases hlast : InRows s.fbPitch s.fbWidth (s.fbHeight - lineHeight) s.fbHeight k
    · obtain ⟨y, x, hlo, hhi, h0, hx, rfl⟩ := hlast
      rw [source_cleared h0 hx hlo hhi]
      exact hcleared x y h0 hx hlo hhi
    by_cases hrest : InRows s.fbPitch s.fbWidth 0 (s.fbHeight - lineHeight) k
    · obtain ⟨y, x, hlo, hhi, h0, hx, rfl⟩ := hrest
      rw [source_moved hp h0 hx hlo hhi]
      exact hmoved x y h0 hx hlo hhi
    rw [source_kept hlast hrest]
    apply hkept
    rintro x y h0 hx hlo hhi rfl
    rcases Int.lt_or_le y (s.fbHeight - lineHeight) with hy | hy
    · exact hrest (inRows_mk hlo hy h0 hx)
    · exact hlast (inRows_mk hy hhi h0 hx)
  · intro hall
    constructor
    · intro x y h0 hx hlo hhi
      rw [pixel, hpitch, hall, source_moved hp h0 hx hlo hhi]
      rfl
    · intro x y h0 hx hlo hhi
      rw [pixel, hpitch, hall, source_cleared h0 hx hlo hhi]
      rfl
    · intro k hk
      have houtside : ∀ lo hi, 0 ≤ lo → hi ≤ s.fbHeight → ¬ InRows s.fbPitch s.fbWidth lo hi k := by
        rintro lo hi hlo hhi ⟨y, x, hy, hy', h0, hx, rfl⟩
        exact hk x y h0 hx (by omega) (by omega) rfl
      have hline := lineHeight_eq
      rw [hall, source_kept (houtside _ _ (by omega) (by omega)) (houtside _ _ (by omega) (by omega))]
      rfl

theorem moved_iff_sources {s : Screen} (h : Geometry s) : PictureMoved s (shellScrollUp s) ↔
    ∀ k, colorOf s (source (s.fbPitch / 4) s k) = colorOf s (source s.fbPitch s k) := by
  rw [pictureMoved_iff h (shellScrollUp_fbPitch h)]
  apply forall_congr'
  intro k
  rw [shellScrollUp_fbPtr h]

end BinOs.ScreenScrolling
