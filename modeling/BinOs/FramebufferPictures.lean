import BinOs.FramebufferDrawing
import BinOs.Pictures

/-! # What the drawing functions draw

Each function draws a picture, clipped at the edges of the screen: a rectangle, the
cell of a character, or the cells of a string side by side. -/
namespace BinOs.FramebufferPictures
open BoundedLoops CheckedBuffers FontTable FramebufferDrawing Pictures

def raster (s : Screen) : Raster := ⟨s.fbPitch, s.fbWidth, s.fbHeight⟩

/-- `t` is `s` with a picture drawn on it. -/
structure Draws (p : Picture UInt32) (s t : Screen) : Prop where
  rest : { t with fbPtr := s.fbPtr } = s
  picture : (raster s).Draws p s.fbPtr t.fbPtr

variable {p q : Picture UInt32} {s t u : Screen} {x y : ℤ}

theorem raster_of_rest {fbPtr : ℤ → UInt32} (h : { t with fbPtr } = s) : raster t = raster s := by
  have hraster := congrArg raster h
  exact hraster

theorem rest_trans (ht : { t with fbPtr := s.fbPtr } = s) (hu : { u with fbPtr := t.fbPtr } = t) :
    { u with fbPtr := s.fbPtr } = s :=
  (congrArg (fun v : Screen => { v with fbPtr := s.fbPtr }) hu).trans ht

namespace Draws

theorem raster_eq (h : Draws p s t) : raster t = raster s := raster_of_rest h.rest

theorem congr (h : Draws p s t) (hpq : ∀ x y, (raster s).On x y → q x y = p x y) : Draws q s t :=
  ⟨h.rest, h.picture.congr hpq⟩

theorem empty (h : ∀ x y, (raster s).On x y → p x y = none) : Draws p s s := ⟨rfl, .empty h⟩

theorem atop (hw : s.fbWidth ≤ s.fbPitch) (hp : Draws p s t) (hq : Draws q t u) :
    Draws (q.atop p) s u :=
  ⟨rest_trans hp.rest hq.rest, hp.picture.atop hw (hp.raster_eq ▸ hq.picture)⟩

theorem redraw (h : Draws p s t) (h' : Draws p t u) : u = t := by
  have hptr : u.fbPtr = t.fbPtr := h.picture.redraw (h.raster_eq ▸ h'.picture)
  have hrest := h'.rest
  rwa [← hptr] at hrest

end Draws

theorem draws_forUp (hw : s.fbWidth ≤ s.fbPitch) (f : ℤ → ℤ → ℤ) {lo hi : ℤ}
    {body : ℤ → Screen → Screen}
    (hbody : ∀ i t, lo ≤ i → i < hi → raster t = raster s →
      Draws (p.on fun x y => f x y = i) t (body i t)) :
    Draws (p.on fun x y => lo ≤ f x y ∧ f x y < hi) s (forUp lo hi body s) := by
  have hpass : ∀ i t, lo ≤ i → i < hi → { t with fbPtr := s.fbPtr } = s →
      { body i t with fbPtr := s.fbPtr } = s ∧
        (raster s).Draws (p.on fun x y => f x y = i) t.fbPtr (body i t).fbPtr := by
    intro i t hlo hhi ht
    have hdraws := hbody i t hlo hhi (raster_of_rest ht)
    exact ⟨rest_trans ht hdraws.rest, raster_of_rest ht ▸ hdraws.picture⟩
  obtain ⟨hrest, hpicture⟩ := Raster.forUp_draws hw Screen.fbPtr
    (fun t => { t with fbPtr := s.fbPtr } = s) f rfl hpass
  exact ⟨hrest, hpicture⟩

/-- One pixel, if it is on the screen. -/
theorem draws_point (x y : ℤ) (c : UInt32) (s : Screen) : Draws (.dot x y (some c)) s
    (if x ≥ 0 ∧ x < s.fbWidth ∧ y ≥ 0 ∧ y < s.fbHeight then plot (y * s.fbPitch + x) c s else s) := by
  by_cases hon : x ≥ 0 ∧ x < s.fbWidth ∧ y ≥ 0 ∧ y < s.fbHeight
  · rw [if_pos hon]
    exact ⟨rfl, Raster.draws_update (R := raster s) hon s.fbPtr c⟩
  · rw [if_neg hon]
    apply Draws.empty
    rintro px py hpoint
    rw [Picture.dot, if_neg]
    rintro ⟨rfl, rfl⟩
    exact hon hpoint

def rect (x y width height : ℤ) (color : UInt32) : Picture UInt32 := fun px py =>
  if x ≤ px ∧ px < x + width ∧ y ≤ py ∧ py < y + height then some color else none

theorem drawRect_draws (hw : s.fbWidth ≤ s.fbPitch) (x y width height : ℤ) (color : UInt32) :
    Draws (rect x y width height color) s (drawRect x y width height color s) := by
  have hrows : Draws (Picture.on (fun px _ => if x ≤ px ∧ px < min (x + width) s.fbWidth
      then some color else none) fun _ py => y ≤ py ∧ py < min (y + height) s.fbHeight) s
      (drawRect x y width height color s) := by
    apply draws_forUp hw (fun _ py => py)
    intro py t hlo hhi ht
    have hwidth : t.fbWidth = s.fbWidth := congrArg Raster.width ht
    have hheight : t.fbHeight = s.fbHeight := congrArg Raster.height ht
    have hpitch : t.fbPitch = s.fbPitch := congrArg Raster.stride ht
    have hrow : Draws (Picture.on (fun _ py' => if py' = py then some color else none)
        fun px _ => x ≤ px ∧ px < min (x + width) t.fbWidth) t
        (forUp x (min (x + width) t.fbWidth) (fun px s =>
          if px ≥ 0 ∧ py ≥ 0 then plot (py * s.fbPitch + px) color s else s) t) := by
      apply draws_forUp (by omega) (fun px _ => px)
      intro px u hxlo hxhi hu
      have hwidth' : u.fbWidth = t.fbWidth := congrArg Raster.width hu
      have hheight' : u.fbHeight = t.fbHeight := congrArg Raster.height hu
      have hclip : (px ≥ 0 ∧ px < u.fbWidth ∧ py ≥ 0 ∧ py < u.fbHeight) ↔ px ≥ 0 ∧ py ≥ 0 := by
        omega
      have hpoint := draws_point px py color u
      simp only [hclip] at hpoint
      refine hpoint.congr fun px' py' _ => ?_
      rw [Picture.on, Picture.dot]
      split_ifs <;> first | rfl | omega
    refine hrow.congr fun px' py' _ => ?_
    rw [Picture.on, Picture.on, hwidth]
    split_ifs <;> rfl
  refine hrows.congr fun px py hon => ?_
  have hon' : 0 ≤ px ∧ px < s.fbWidth ∧ 0 ≤ py ∧ py < s.fbHeight := hon
  rw [rect, Picture.on]
  split_ifs <;> first | rfl | omega

/-- Bit `col` of a scan line, counted from the left. -/
def bitFromLeft (byte : UInt8) (col : ℤ) : Bool := byte.toNat.testBit (7 - col).toNat

theorem bit_table : ∀ byte < 256, ∀ col < 8,
    (UInt8.ofNat byte &&& ((0x80 : UInt8) >>> UInt8.ofInt (col : ℕ)) ≠ 0) ↔
      bitFromLeft (UInt8.ofNat byte) (col : ℕ) = true := by
  decide +kernel

theorem bitFromLeft_iff (byte : UInt8) {col : ℤ} (h0 : 0 ≤ col) (h8 : col < 8) :
    byte &&& ((0x80 : UInt8) >>> UInt8.ofInt col) ≠ 0 ↔ bitFromLeft byte col = true := by
  have htable := bit_table byte.toNat byte.toNat_lt col.toNat (by omega)
  rwa [UInt8.ofNat_toNat, Int.toNat_of_nonneg h0] at htable

/-- Whether the glyph of a character has this bit set; only printable characters have one. -/
def inked (c : UInt8) (row col : ℤ) : Bool :=
  if h : 32 ≤ c ∧ c ≤ 126 then bitFromLeft (elem (glyph c h) row.toNat) col else false

/-- A picture of the size of a character. -/
def cell (x y : ℤ) (g : ℤ → ℤ → Option UInt32) : Picture UInt32 := fun px py =>
  if 0 ≤ px - x ∧ px - x < 8 ∧ 0 ≤ py - y ∧ py - y < 16 then g (py - y) (px - x) else none

theorem cell_draws (hw : s.fbWidth ≤ s.fbPitch) {g : ℤ → ℤ → Option UInt32}
    {body : ℤ → ℤ → Screen → Screen}
    (hbody : ∀ row col t, 0 ≤ row → row < 16 → 0 ≤ col → col < 8 → raster t = raster s →
      Draws (.dot (x + col) (y + row) (g row col)) t (body row col t)) :
    Draws (cell x y g) s
      (forUp 0 fontHeight (fun row s => forUp 0 fontWidth (fun col s => body row col s) s) s) := by
  have hrows : Draws (Picture.on (fun px py => if 0 ≤ px - x ∧ px - x < 8
      then g (py - y) (px - x) else none) fun _ py => 0 ≤ py - y ∧ py - y < fontHeight) s
      (forUp 0 fontHeight (fun row s => forUp 0 fontWidth (fun col s => body row col s) s) s) := by
    apply draws_forUp hw (fun _ py => py - y)
    intro row t hrow hrow' ht
    have hwidth : t.fbWidth ≤ t.fbPitch := by
      have hw' : (raster t).width ≤ (raster t).stride := ht ▸ hw
      exact hw'
    have hcols : Draws (Picture.on (fun px py => if py - y = row then g row (px - x) else none)
        fun px _ => 0 ≤ px - x ∧ px - x < fontWidth) t
        (forUp 0 fontWidth (fun col s => body row col s) t) := by
      apply draws_forUp hwidth (fun px _ => px - x)
      intro col u hcol hcol' hu
      refine (hbody row col u hrow hrow' hcol hcol' (hu.trans ht)).congr fun px py _ => ?_
      rw [Picture.on, Picture.dot]
      by_cases hpx : px - x = col
      · rw [if_pos hpx, hpx]
        split_ifs <;> first | rfl | omega
      · rw [if_neg hpx, if_neg (by omega)]
    refine hcols.congr fun px py _ => ?_
    rw [Picture.on, Picture.on]
    by_cases hpy : py - y = row
    · rw [if_pos hpy, if_pos hpy, hpy]
    · rw [if_neg hpy, if_neg hpy, ite_self]
  have hheight : fontHeight = 16 := rfl
  refine hrows.congr fun px py _ => ?_
  rw [cell, Picture.on, hheight]
  split_ifs <;> first | rfl | omega

theorem drawChar_draws (hw : s.fbWidth ≤ s.fbPitch) (x y : ℤ) (charBitmap : Vector UInt8 16)
    (color : UInt32) :
    Draws (cell x y fun row col =>
      if bitFromLeft (elem charBitmap row.toNat) col then some color else none) s
      (drawChar x y charBitmap color s) := by
  apply cell_draws hw
  intro row col t _ _ hcol hcol' _
  dsimp only
  by_cases hbit : bitFromLeft (elem charBitmap row.toNat) col = true
  · rw [if_pos ((bitFromLeft_iff _ hcol hcol').mpr hbit), if_pos hbit]
    exact draws_point ..
  · rw [if_neg (mt (bitFromLeft_iff _ hcol hcol').mp hbit), if_neg hbit]
    exact .empty fun px py _ => ite_self none

theorem drawCharWithBg_draws (hw : s.fbWidth ≤ s.fbPitch) (x y : ℤ) (charBitmap : Vector UInt8 16)
    (fgColor bgColor : UInt32) :
    Draws (cell x y fun row col =>
      some (if bitFromLeft (elem charBitmap row.toNat) col then fgColor else bgColor)) s
      (drawCharWithBg x y charBitmap fgColor bgColor s) := by
  apply cell_draws hw
  intro row col t _ _ hcol hcol' _
  simp only [bitFromLeft_iff _ hcol hcol']
  exact draws_point ..

/-- A glyph in one colour, nothing behind it. -/
def glyphAlone (color : UInt32) (c : UInt8) (row col : ℤ) : Option UInt32 :=
  if inked c row col then some color else none

def glyphOnBg (fgColor bgColor : UInt32) (c : UInt8) (row col : ℤ) : Option UInt32 :=
  some (if inked c row col then fgColor else bgColor)

theorem drawAsciiChar_draws (hw : s.fbWidth ≤ s.fbPitch) (x y : ℤ) (c : UInt8) (color : UInt32) :
    Draws (cell x y (glyphAlone color c)) s (drawAsciiChar x y c color s) := by
  rw [drawAsciiChar]
  by_cases hc : 32 ≤ c ∧ c ≤ 126
  · rw [dif_pos hc]
    refine (drawChar_draws hw ..).congr fun px py _ => ?_
    simp only [cell, glyphAlone, inked, dif_pos hc]
  · rw [dif_neg hc]
    refine .empty fun px py _ => ?_
    simp only [cell, glyphAlone, inked, dif_neg hc, Bool.false_eq_true, if_false, ite_self]

theorem drawAsciiCharWithBg_draws (hw : s.fbWidth ≤ s.fbPitch) (x y : ℤ) (c : UInt8)
    (fgColor bgColor : UInt32) :
    Draws (cell x y (glyphOnBg fgColor bgColor c)) s
      (drawAsciiCharWithBg x y c fgColor bgColor s) := by
  rw [drawAsciiCharWithBg]
  by_cases hc : 32 ≤ c ∧ c ≤ 126
  · rw [dif_pos hc]
    refine (drawCharWithBg_draws hw ..).congr fun px py _ => ?_
    simp only [cell, glyphOnBg, inked, dif_pos hc]
  · rw [dif_neg hc]
    apply cell_draws hw
    intro row col t _ _ _ _ _
    have hbg : glyphOnBg fgColor bgColor c row col = some bgColor := by
      rw [glyphOnBg, inked, dif_neg hc]
      rfl
    rw [hbg]
    exact draws_point ..

/-- The cells of a string, each with the picture of its character. -/
def text (x y : ℤ) (str : List UInt8) (g : UInt8 → ℤ → ℤ → Option UInt32) : Picture UInt32 :=
  fun px py =>
    if 0 ≤ px - x ∧ 0 ≤ py - y ∧ py - y < 16 then
      str[((px - x) / 8).toNat]?.bind fun c => g c (py - y) ((px - x) % 8)
    else none

section Text
variable {g : UInt8 → ℤ → ℤ → Option UInt32}

theorem text_nil (px py : ℤ) : text x y [] g px py = none := by
  rw [text, List.getElem?_nil, Option.bind_none, ite_self]

theorem text_singleton (c : UInt8) (px py : ℤ) : text x y [c] g px py = cell x y (g c) px py := by
  rw [text, cell]
  by_cases hin : 0 ≤ px - x ∧ px - x < 8 ∧ 0 ≤ py - y ∧ py - y < 16
  · have hcol : ((px - x) / 8).toNat = 0 := by omega
    rw [if_pos hin, if_pos (by omega), hcol, Int.emod_eq_of_lt hin.1 hin.2.1]
    rfl
  · rw [if_neg hin]
    split_ifs with hrow
    · rw [List.getElem?_eq_none (by rw [List.length_singleton]; omega), Option.bind_none]
    · rfl

/-- The second string begins where the first one ends. -/
theorem text_append (str str' : List UInt8) (px py : ℤ) :
    text x y (str ++ str') g px py =
      Picture.atop (text (x + 8 * str.length) y str' g) (text x y str g) px py := by
  rw [Picture.atop, text, text, text]
  by_cases hrow : 0 ≤ px - x ∧ 0 ≤ py - y ∧ py - y < 16
  · rw [if_pos hrow, if_pos hrow]
    by_cases hfront : px - x < 8 * str.length
    · rw [if_neg (by omega), Option.none_or, List.getElem?_append_left (by omega)]
    · have hindex : ((px - x) / 8).toNat - str.length =
          ((px - (x + 8 * str.length)) / 8).toNat := by omega
      have hcol : (px - x) % 8 = (px - (x + 8 * str.length)) % 8 := by omega
      rw [if_pos (by omega), List.getElem?_append_right (by omega), hindex, hcol,
        List.getElem?_eq_none (by omega : str.length ≤ ((px - x) / 8).toNat), Option.bind_none,
        Option.or_none]
  · rw [if_neg hrow, if_neg hrow, if_neg (by omega)]
    rfl

/-- One cell, then the rest of the string eight columns further. -/
theorem text_cons_draws (hw : s.fbWidth ≤ s.fbPitch) {c : UInt8} {str : List UInt8}
    (hc : Draws (cell x y (g c)) s t) (hstr : Draws (text (x + fontWidth) y str g) t u) :
    Draws (text x y (c :: str) g) s u :=
  (hc.atop hw hstr).congr fun px py _ => by
    rw [← List.singleton_append, text_append, Picture.atop, Picture.atop, text_singleton]
    rfl

end Text

theorem width_le_of_draws (hw : s.fbWidth ≤ s.fbPitch) (h : Draws p s t) :
    t.fbWidth ≤ t.fbPitch := by
  have hw' : (raster t).width ≤ (raster t).stride := h.raster_eq ▸ hw
  exact hw'

theorem drawString_draws (hw : s.fbWidth ≤ s.fbPitch) (x y : ℤ) (str : List UInt8) (color : UInt32) :
    Draws (text x y str (glyphAlone color)) s (drawString x y str color s) := by
  induction str generalizing x s with
  | nil => exact .empty fun px py _ => text_nil px py
  | cons c str ih =>
    have hc := drawAsciiChar_draws hw x y c color
    exact text_cons_draws hw hc (ih (width_le_of_draws hw hc) (x + fontWidth))

theorem drawStringWithBg_draws (hw : s.fbWidth ≤ s.fbPitch) (x y : ℤ) (str : List UInt8)
    (fgColor bgColor : UInt32) :
    Draws (text x y str (glyphOnBg fgColor bgColor)) s
      (drawStringWithBg x y str fgColor bgColor s) := by
  induction str generalizing x s with
  | nil => exact .empty fun px py _ => text_nil px py
  | cons c str ih =>
    have hc := drawAsciiCharWithBg_draws hw x y c fgColor bgColor
    exact text_cons_draws hw hc (ih (width_le_of_draws hw hc) (x + fontWidth))

/-- From `s` to `t` the pixels of an area got these colours, as far as they are on the
screen. Nothing else changed, and nothing outside the framebuffer's words. -/
structure Shows (area : ℤ → ℤ → Prop) (color : ℤ → ℤ → UInt32) (s t : Screen) : Prop where
  shown : ∀ px py, 0 ≤ px → px < s.fbWidth → 0 ≤ py → py < s.fbHeight → area px py →
    t.fbPtr (py * s.fbPitch + px) = color px py
  kept : ∀ k, (∀ px py, 0 ≤ px → px < s.fbWidth → 0 ≤ py → py < s.fbHeight → area px py →
    k ≠ py * s.fbPitch + px) → t.fbPtr k = s.fbPtr k
  inside : ∀ k, k < 0 ∨ s.fbPitch * s.fbHeight ≤ k → t.fbPtr k = s.fbPtr k
  rest : { t with fbPtr := s.fbPtr } = s

theorem Draws.shows (hw : s.fbWidth ≤ s.fbPitch) (h : Draws p s t) {area : ℤ → ℤ → Prop}
    [∀ px py, Decidable (area px py)] {color : ℤ → ℤ → UInt32}
    (hp : ∀ px py, p px py = if area px py then some (color px py) else none) :
    Shows area color s t where
  shown px py h0 hx hy hh harea :=
    h.picture.covered px py _ ⟨h0, hx, hy, hh⟩ (by rw [hp, if_pos harea])
  kept k hk := h.picture.kept k fun px py hon hcovered => by
    refine hk px py hon.1 hon.2.1 hon.2.2.1 hon.2.2.2 ?_
    by_contra harea
    rw [hp, if_neg harea] at hcovered
    cases hcovered
  inside k hk := h.picture.kept k fun px py hon _ heq => by
    have hbounds := Raster.word_bounds hw hon
    rw [← heq] at hbounds
    have hhigh : k < s.fbPitch * s.fbHeight := hbounds.2
    omega
  rest := h.rest

/-- Both rectangle functions fill exactly the part of the rectangle that is on the screen. -/
theorem draw_rect_exact {s : Screen} (hw : s.fbWidth ≤ s.fbPitch) (x y width height : ℤ)
    (color : UInt32) :
    Shows (fun px py => x ≤ px ∧ px < x + width ∧ y ≤ py ∧ py < y + height) (fun _ _ => color) s
        (drawRect x y width height color s) ∧
      Shows (fun px py => x ≤ px ∧ px < x + width ∧ y ≤ py ∧ py < y + height) (fun _ _ => color) s
        (removeRect x y width height color s) := by
  have hdraws := drawRect_draws hw x y width height color
  exact ⟨hdraws.shows hw fun _ _ => rfl, hdraws.shows hw fun _ _ => rfl⟩

/-- A screen of ten columns and twenty rows, its rows twelve words apart. -/
def narrowScreen : Screen :=
  { fbPtr := fun _ => 0, fbWidth := 10, fbHeight := 20, fbPitch := 12,
    cursorPositionX := 0, cursorPositionY := 0 }

/-- A rectangle that sticks out to the left and above. -/
theorem draw_rect_exact_corner :
    Shows (fun px py => -3 ≤ px ∧ px < -3 + 5 ∧ -2 ≤ py ∧ py < -2 + 4) (fun _ _ => 7) narrowScreen
        (drawRect (-3) (-2) 5 4 7 narrowScreen) ∧
      Shows (fun px py => -3 ≤ px ∧ px < -3 + 5 ∧ -2 ≤ py ∧ py < -2 + 4) (fun _ _ => 7) narrowScreen
        (removeRect (-3) (-2) 5 4 7 narrowScreen) :=
  draw_rect_exact (by decide) (-3) (-2) 5 4 7

/-- Whether a string drawn at the origin has ink at this point. -/
def inkedAt (str : List UInt8) (dx dy : ℤ) : Bool :=
  str[(dx / 8).toNat]?.any fun c => inked c dy (dx % 8)

/-- The cells of a string. -/
def inText (x y : ℤ) (str : List UInt8) (px py : ℤ) : Prop :=
  x ≤ px ∧ px < x + 8 * str.length ∧ y ≤ py ∧ py < y + 16

instance (x y : ℤ) (str : List UInt8) (px py : ℤ) : Decidable (inText x y str px py) :=
  inferInstanceAs (Decidable (_ ∧ _))

theorem text_eq (x y : ℤ) (str : List UInt8) (g : UInt8 → ℤ → ℤ → Option UInt32) (px py : ℤ) :
    text x y str g px py = if inText x y str px py then
      str[((px - x) / 8).toNat]?.bind fun c => g c (py - y) ((px - x) % 8) else none := by
  rw [text]
  by_cases hin : inText x y str px py
  · rw [if_pos hin]
    obtain ⟨hx, -, hy, hy'⟩ := hin
    rw [if_pos (by omega)]
  · rw [if_neg hin]
    by_cases hrow : 0 ≤ px - x ∧ 0 ≤ py - y ∧ py - y < 16
    · have hout : str.length ≤ ((px - x) / 8).toNat := by
        by_contra hlt
        exact hin ⟨by omega, by omega, by omega, by omega⟩
      rw [List.getElem?_eq_none hout, Option.bind_none, ite_self]
    · rw [if_neg hrow]

/-- A string over a background colours all its cells, a string alone colours its ink. -/
theorem draw_string_exact {s : Screen} (hw : s.fbWidth ≤ s.fbPitch) (x y : ℤ) (str : List UInt8)
    (fgColor bgColor color : UInt32) :
    Shows (inText x y str)
        (fun px py => if inkedAt str (px - x) (py - y) then fgColor else bgColor) s
        (drawStringWithBg x y str fgColor bgColor s) ∧
      Shows (fun px py => inText x y str px py ∧ inkedAt str (px - x) (py - y)) (fun _ _ => color) s
        (drawString x y str color s) ∧
      ∀ c ∈ str, ∀ h : 32 ≤ c ∧ c ≤ 126, ∃ i : Fin 95, (i : ℕ) = c.toNat - 32 ∧
        glyph c h = font8x16.get i := by
  refine ⟨(drawStringWithBg_draws hw ..).shows hw fun px py => ?_,
    (drawString_draws hw ..).shows hw fun px py => ?_, fun c _ h => ⟨_, rfl, rfl⟩⟩
  · rw [text_eq]
    by_cases hin : inText x y str px py
    · obtain ⟨c, hc⟩ : ∃ c, str[((px - x) / 8).toNat]? = some c := by
        obtain ⟨hx, hx', -, -⟩ := hin
        exact ⟨_, List.getElem?_eq_getElem (by omega)⟩
      rw [if_pos hin, if_pos hin, inkedAt, hc]
      rfl
    · rw [if_neg hin, if_neg hin]
  · rw [text_eq]
    by_cases hin : inText x y str px py
    · simp only [hin, true_and, inkedAt]
      cases str[((px - x) / 8).toNat]? with
      | none => rfl
      | some c => rfl
    · rw [if_neg hin, if_neg fun h => hin h.1]

/-- `a` and an unprintable byte, cut off by the right edge. -/
theorem draw_string_exact_edge :
    Shows (inText 3 2 [97, 200]) (fun px py => if inkedAt [97, 200] (px - 3) (py - 2) then 1 else 2)
        narrowScreen (drawStringWithBg 3 2 [97, 200] 1 2 narrowScreen) ∧
      Shows (fun px py => inText 3 2 [97, 200] px py ∧ inkedAt [97, 200] (px - 3) (py - 2))
        (fun _ _ => 3) narrowScreen (drawString 3 2 [97, 200] 3 narrowScreen) ∧
      ∀ c ∈ ([97, 200] : List UInt8), ∀ h : 32 ≤ c ∧ c ≤ 126, ∃ i : Fin 95,
        (i : ℕ) = c.toNat - 32 ∧ glyph c h = font8x16.get i :=
  draw_string_exact (by decide) 3 2 [97, 200] 1 2 3

end BinOs.FramebufferPictures
