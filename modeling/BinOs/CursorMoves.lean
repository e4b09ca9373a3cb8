import BinOs.FramebufferDrawing

/-! # Moving the cursor by characters and lines

A move stops at the edge of the screen, but its distance is first cut to 16 bits: a long
one is taken modulo 65536. The four moves are one step up and one step down along an axis. -/
namespace BinOs.CursorMoves
open FontTable FramebufferDrawing

/-- The cursor is on a screen whose coordinates have 16 bits. -/
structure OnScreen (s : Screen) : Prop where
  width : 1 ≤ s.fbWidth ∧ s.fbWidth ≤ 65536
  height : 1 ≤ s.fbHeight ∧ s.fbHeight ≤ 65536
  x : getCursorX s < s.fbWidth
  y : getCursorY s < s.fbHeight

/-- A position on an axis of so many points. -/
def clamp (limit x : ℤ) : ℤ := max 0 (min x (limit - 1))

/-- A distance fits in 16 bits, or what is left of it still reaches the edge. -/
def Lands (limit position distance : ℤ) : Prop :=
  distance.natAbs < 65536 ∨ (0 < distance ∧ limit - 1 ≤ position + distance % 65536) ∨
    (distance < 0 ∧ position ≤ -distance % 65536)

instance (limit position distance : ℤ) : Decidable (Lands limit position distance) :=
  inferInstanceAs (Decidable (distance.natAbs < 65536 ∨ _ ∨ _))

def stepUp (limit : ℤ) (position amount : UInt16) : UInt16 :=
  if (position.toNat : ℤ) + amount.toNat < limit then position + amount
  else UInt16.ofInt (limit - 1)

def stepDown (position amount : UInt16) : UInt16 :=
  if position ≥ amount then position - amount else 0

def travel (limit : ℤ) (position : UInt16) (distance : ℤ) : UInt16 :=
  if distance > 0 then stepUp limit position (UInt16.ofInt distance)
  else if distance < 0 then stepDown position (UInt16.ofInt (-distance))
  else position

variable {limit : ℤ} {position amount : UInt16}

theorem ofInt_toNat (x : ℤ) : ((UInt16.ofInt x).toNat : ℤ) = x % 65536 := by
  rw [UInt16.ofInt, UInt16.toNat_ofNat']
  omega

theorem stepUp_toNat (hlow : 1 ≤ limit) (hhigh : limit ≤ 65536) :
    ((stepUp limit position amount).toNat : ℤ) =
      min ((position.toNat : ℤ) + amount.toNat) (limit - 1) := by
  rw [stepUp]
  split
  case isTrue h =>
    rw [UInt16.toNat_add, Nat.mod_eq_of_lt (by omega)]
    omega
  case isFalse h =>
    rw [ofInt_toNat, Int.emod_eq_of_lt (by omega) (by omega)]
    omega

theorem stepDown_toNat :
    ((stepDown position amount).toNat : ℤ) = max 0 ((position.toNat : ℤ) - amount.toNat) := by
  rw [stepDown]
  split
  case isTrue h =>
    have hle := UInt16.le_iff_toNat_le.mp h
    rw [UInt16.toNat_sub_of_le _ _ h]
    omega
  case isFalse h =>
    have hlt : ¬ amount.toNat ≤ position.toNat := fun hle => h (UInt16.le_iff_toNat_le.mpr hle)
    have hzero : ((0 : UInt16).toNat : ℤ) = 0 := rfl
    rw [hzero]
    omega

/-- A longer distance ends at the edge, and the rest of it modulo 65536 need not. -/
theorem travel_clamped_iff (hlow : 1 ≤ limit) (hhigh : limit ≤ 65536)
    (hon : (position.toNat : ℤ) < limit) (distance : ℤ) :
    ((travel limit position distance).toNat : ℤ) = clamp limit (position.toNat + distance) ↔
      Lands limit position.toNat distance := by
  rw [travel, clamp, Lands]
  by_cases hup : distance > 0
  · rw [if_pos hup, stepUp_toNat hlow hhigh, ofInt_toNat]
    omega
  · rw [if_neg hup]
    by_cases hdown : distance < 0
    · rw [if_pos hdown, stepDown_toNat, ofInt_toNat]
      omega
    · have hzero : distance = 0 := by omega
      subst hzero
      rw [if_neg hdown]
      omega

theorem travel_mul {k : ℤ} (hk : 0 < k) (n : ℤ) : travel limit position (k * n) =
    if n > 0 then stepUp limit position (UInt16.ofInt (n * k))
    else if n < 0 then stepDown position (UInt16.ofInt (-n * k))
    else position := by
  have hup : k * n > 0 ↔ n > 0 := ⟨fun h => Int.pos_of_mul_pos_right h hk, Int.mul_pos hk⟩
  have hdown : k * n < 0 ↔ n < 0 :=
    ⟨fun h => Int.neg_of_mul_neg_right h hk, Int.mul_neg_of_pos_of_neg hk⟩
  rw [travel, if_congr hup rfl rfl, if_congr hdown rfl rfl, Int.neg_mul, Int.mul_comm k n]

theorem moveCursorRight_eq (amount : UInt16) (s : Screen) : moveCursorRight amount s =
    { s with cursorPositionX := stepUp s.fbWidth s.cursorPositionX amount } := by
  rw [moveCursorRight, stepUp, getCursorX]
  split
  · rfl
  · rfl

theorem moveCursorDown_eq (amount : UInt16) (s : Screen) : moveCursorDown amount s =
    { s with cursorPositionY := stepUp s.fbHeight s.cursorPositionY amount } := by
  rw [moveCursorDown, stepUp, getCursorY]
  split
  · rfl
  · rfl

theorem moveCursorLeft_eq (amount : UInt16) (s : Screen) : moveCursorLeft amount s =
    { s with cursorPositionX := stepDown s.cursorPositionX amount } := by
  rw [moveCursorLeft, stepDown]
  split
  · rfl
  · rfl

theorem moveCursorUp_eq (amount : UInt16) (s : Screen) : moveCursorUp amount s =
    { s with cursorPositionY := stepDown s.cursorPositionY amount } := by
  rw [moveCursorUp, stepDown]
  split
  · rfl
  · rfl

theorem moveCursorByChars_eq (n : ℤ) (s : Screen) : moveCursorByChars n s =
    { s with cursorPositionX := travel s.fbWidth s.cursorPositionX (8 * n) } := by
  rw [travel_mul (by decide), moveCursorByChars, moveCursorRight_eq, moveCursorLeft_eq]
  by_cases hup : n > 0
  · rw [if_pos hup, if_pos hup]
  · rw [if_neg hup, if_neg hup]
    split
    · rfl
    · rfl

theorem moveCursorByLines_eq (n : ℤ) (s : Screen) : moveCursorByLines n s =
    { s with cursorPositionY := travel s.fbHeight s.cursorPositionY (16 * n) } := by
  rw [travel_mul (by decide), moveCursorByLines, moveCursorDown_eq, moveCursorUp_eq]
  by_cases hup : n > 0
  · rw [if_pos hup, if_pos hup]
  · rw [if_neg hup, if_neg hup]
    split
    · rfl
    · rfl

/-- One coordinate becomes what it should, the other stays. -/
theorem cursor_moves_saturate_iff (s : Screen) (h : OnScreen s) (n : ℤ) :
    ((getCursorX (moveCursorByChars n s) = clamp s.fbWidth (getCursorX s + 8 * n) ∧
        getCursorY (moveCursorByChars n s) = getCursorY s) ↔
      Lands s.fbWidth (getCursorX s) (8 * n)) ∧
    ((getCursorY (moveCursorByLines n s) = clamp s.fbHeight (getCursorY s + 16 * n) ∧
        getCursorX (moveCursorByLines n s) = getCursorX s) ↔
      Lands s.fbHeight (getCursorY s) (16 * n)) := by
  rw [moveCursorByChars_eq, moveCursorByLines_eq]
  constructor
  · exact (and_iff_left rfl).trans (travel_clamped_iff h.width.1 h.width.2 h.x (8 * n))
  · exact (and_iff_left rfl).trans (travel_clamped_iff h.height.1 h.height.2 h.y (16 * n))

def smallScreen : Screen := ⟨fun _ => 0, 1024, 768, 1024, 0, 300⟩

theorem smallScreen_onScreen : OnScreen smallScreen where
  width := by decide
  height := by decide
  x := by decide
  y := by decide

theorem cursor_moves_saturate_iff_thousand :
    ((getCursorX (moveCursorByChars 1000 smallScreen) =
          clamp smallScreen.fbWidth (getCursorX smallScreen + 8 * 1000) ∧
        getCursorY (moveCursorByChars 1000 smallScreen) = getCursorY smallScreen) ↔
      Lands smallScreen.fbWidth (getCursorX smallScreen) (8 * 1000)) ∧
    ((getCursorY (moveCursorByLines 1000 smallScreen) =
          clamp smallScreen.fbHeight (getCursorY smallScreen + 16 * 1000) ∧
        getCursorX (moveCursorByLines 1000 smallScreen) = getCursorX smallScreen) ↔
      Lands smallScreen.fbHeight (getCursorY smallScreen) (16 * 1000)) :=
  cursor_moves_saturate_iff smallScreen smallScreen_onScreen 1000

/-- 8192 characters are 65536 pixels: the cursor stays at the left edge. -/
theorem long_move_stays : OnScreen smallScreen ∧
    getCursorX (moveCursorByChars 8192 smallScreen) = getCursorX smallScreen ∧
    getCursorX (moveCursorByChars 8192 smallScreen) ≠
      clamp smallScreen.fbWidth (getCursorX smallScreen + 8 * 8192) :=
  ⟨smallScreen_onScreen, by decide, by decide⟩

end BinOs.CursorMoves
