import Mathlib.Data.Int.Notation

/-! # The 8 by 16 bitmap font

One byte a scan line, its highest bit leftmost, for the characters from the space
(32) to the tilde (126). -/
namespace BinOs.FontTable

abbrev fontWidth : ℤ := 8
abbrev fontHeight : ℤ := 16

def font8x16 : Vector (Vector UInt8 16) 95 := #v[
  -- space to '/'
  #v[0x00,0x00,0x00,0x00,0x00,0x00,0x00,0x00,0x00,0x00,0x00,0x00,0x00,0x00,0x00,0x00],
  #v[0x00,0x18,0x3C,0x3C,0x3C,0x18,0x18,0x18,0x18,0x18,0x00,0x18,0x18,0x00,0x00,0x00],
  #v[0x00,0x36,0x36,0x36,0x24,0x00,0x00,0x00,0x00,0x00,0x00,0x00,0x00,0x00,0x00,0x00],
  #v[0x00,0x36,0x36,0x7F,0x36,0x36,0x36,0x7F,0x36,0x36,0x00,0x00,0x00,0x00,0x00,0x00],
  #v[0x18,0x3E,0x63,0x60,0x3C,0x06,0x06,0x63,0x3E,0x18,0x18,0x00,0x00,0x00,0x00,0x00],
  #v[0x00,0x63,0x33,0x18,0x0C,0x06,0x03,0x31,0x18,0x0C,0x66,0x63,0x00,0x00,0x00,0x00],
  #v[0x1C,0x36,0x36,0x1C,0x38,0x6E,0x6B,0x33,0x33,0x6E,0x00,0x00,0x00,0x00,0x00,0x00],
  #v[0x0C,0x0C,0x0C,0x18,0x10,0x00,0x00,0x00,0x00,0x00,0x00,0x00,0x00,0x00,0x00,0x00],
  #v[0x06,0x0C,0x18,0x18,0x30,0x30,0x30,0x30,0x30,0x18,0x18,0x0C,0x06,0x00,0x00,0x00],
  #v[0x30,0x18,0x0C,0x0C,0x06,0x06,0x06,0x06,0x06,0x0C,0x0C,0x18,0x30,0x00,0x00,0x00],
  #v[0x00,0x18,0x5A,0x3C,0x7E,0x3C,0x5A,0x18,0x00,0x00,0x00,0x00,0x00,0x00,0x00,0x00],
  #v[0x00,0x18,0x18,0x18,0x7E,0x18,0x18,0x18,0x00,0x00,0x00,0x00,0x00,0x00,0x00,0x00],
  #v[0x00,0x00,0x00,0x00,0x00,0x00,0x00,0x00,0x00,0x00,0x18,0x18,0x10,0x30,0x20,0x00],
  #v[0x00,0x00,0x00,0x00,0x7E,0x00,0x00,0x00,0x00,0x00,0x00,0x00,0x00,0x00,0x00,0x00],
  #v[0x00,0x00,0x00,0x00,0x00,0x00,0x00,0x00,0x00,0x00,0x18,0x18,0x00,0x00,0x00,0x00],
  #v[0x00,0x03,0x06,0x0C,0x18,0x30,0x60,0xC0,0x80,0x00,0x00,0x00,0x00,0x00,0x00,0x00],
  -- '0' to '?'
  #v[0x3C,0x66,0x6E,0x76,0x7E,0x7E,0x66,0x66,0x66,0x66,0x66,0x66,0x3C,0x00,0x00,0x00],
  #v[0x18,0x38,0x78,0x18,0x18,0x18,0x18,0x18,0x18,0x18,0x18,0x18,0x7E,0x00,0x00,0x00],
  #v[0x3C,0x66,0x06,0x0C,0x18,0x30,0x60,0x60,0x60,0x60,0x66,0x66,0x7E,0x00,0x00,0x00],
  #v[0x3C,0x66,0x06,0x06,0x1C,0x1C,0x06,0x06,0x06,0x06,0x66,0x66,0x3C,0x00,0x00,0x00],
  #v[0x0C,0x1C,0x3C,0x6C,0x6C,0xCC,0xFE,0x0C,0x0C,0x0C,0x0C,0x0C,0x1E,0x00,0x00,0x00],
  #v[0x7E,0x60,0x60,0x60,0x7C,0x06,0x06,0x06,0x06,0x06,0x66,0x66,0x3C,0x00,0x00,0x00],
  #v[0x1C,0x30,0x60,0x60,0x7C,0x66,0x66,0x66,0x66,0x66,0x66,0x66,0x3C,0x00,0x00,0x00],
  #v[0x7E,0x66,0x06,0x0C,0x18,0x18,0x18,0x18,0x18,0x18,0x18,0x18,0x18,0x00,0x00,0x00],
  #v[0x3C,0x66,0x66,0x66,0x3C,0x3C,0x66,0x66,0x66,0x66,0x66,0x66,0x3C,0x00,0x00,0x00],
  #v[0x3C,0x66,0x66,0x66,0x66,0x66,0x3E,0x06,0x06,0x06,0x0C,0x18,0x70,0x00,0x00,0x00],
  #v[0x00,0x00,0x18,0x18,0x00,0x00,0x00,0x00,0x00,0x00,0x00,0x00,0x18,0x18,0x00,0x00],
  #v[0x00,0x00,0x18,0x18,0x00,0x00,0x00,0x00,0x00,0x00,0x18,0x18,0x10,0x30,0x20,0x00],
  #v[0x00,0x06,0x0C,0x18,0x30,0x60,0xC0,0x60,0x30,0x18,0x0C,0x06,0x00,0x00,0x00,0x00],
  #v[0x00,0x00,0x00,0x7E,0x00,0x00,0x00,0x7E,0x00,0x00,0x00,0x00,0x00,0x00,0x00,0x00],
  #v[0x00,0x60,0x30,0x18,0x0C,0x06,0x03,0x06,0x0C,0x18,0x30,0x60,0x00,0x00,0x00,0x00],
  #v[0x3C,0x66,0x66,0x06,0x0C,0x18,0x18,0x18,0x00,0x18,0x18,0x00,0x00,0x00,0x00,0x00],
  -- '@' to 'O'
  #v[0x3C,0x66,0x6E,0x76,0x7A,0x7A,0x7A,0x7A,0x7A,0x7A,0x6E,0x60,0x3C,0x00,0x00,0x00],
  #v[0x18,0x3C,0x66,0x66,0x66,0x66,0x7E,0x7E,0x66,0x66,0x66,0x66,0x66,0x00,0x00,0x00],
  #v[0x7C,0x66,0x66,0x66,0x7C,0x7C,0x66,0x66,0x66,0x66,0x66,0x66,0x7C,0x00,0x00,0x00],
  #v[0x3C,0x66,0x60,0x60,0x60,0x60,0x60,0x60,0x60,0x60,0x66,0x66,0x3C,0x00,0x00,0x00],
  #v[0x78,0x6C,0x66,0x66,0x66,0x66,0x66,0x66,0x66,0x66,0x66,0x6C,0x78,0x00,0x00,0x00],
  #v[0x7E,0x60,0x60,0x60,0x7C,0x7C,0x60,0x60,0x60,0x60,0x60,0x60,0x7E,0x00,0x00,0x00],
  #v[0x7E,0x60,0x60,0x60,0x7C,0x7C,0x60,0x60,0x60,0x60,0x60,0x60,0x60,0x00,0x00,0x00],
  #v[0x3C,0x66,0x60,0x60,0x60,0x6E,0x6E,0x66,0x66,0x66,0x66,0x66,0x3C,0x00,0x00,0x00],
  #v[0x66,0x66,0x66,0x66,0x7E,0x7E,0x66,0x66,0x66,0x66,0x66,0x66,0x66,0x00,0x00,0x00],
  #v[0x7E,0x18,0x18,0x18,0x18,0x18,0x18,0x18,0x18,0x18,0x18,0x18,0x7E,0x00,0x00,0x00],
  #v[0x0E,0x06,0x06,0x06,0x06,0x06,0x06,0x06,0x06,0x06,0x66,0x66,0x3C,0x00,0x00,0x00],
  #v[0x66,0x6C,0x78,0x70,0x70,0x78,0x7C,0x6C,0x66,0x66,0x66,0x66,0x66,0x00,0x00,0x00],
  #v[0x60,0x60,0x60,0x60,0x60,0x60,0x60,0x60,0x60,0x60,0x60,0x60,0x7E,0x00,0x00,0x00],
  #v[0x63,0x77,0x7F,0x7F,0x6B,0x6B,0x63,0x63,0x63,0x63,0x63,0x63,0x63,0x00,0x00,0x00],
  #v[0x66,0x76,0x7E,0x7E,0x6E,0x66,0x66,0x66,0x66,0x66,0x66,0x66,0x66,0x00,0x00,0x00],
  #v[0x3C,0x66,0x66,0x66,0x66,0x66,0x66,0x66,0x66,0x66,0x66,0x66,0x3C,0x00,0x00,0x00],
  -- 'P' to '_'
  #v[0x7C,0x66,0x66,0x66,0x66,0x7C,0x7C,0x60,0x60,0x60,0x60,0x60,0x60,0x00,0x00,0x00],
  #v[0x3C,0x66,0x66,0x66,0x66,0x66,0x66,0x66,0x66,0x6E,0x6C,0x3C,0x06,0x00,0x00,0x00],
  #v[0x7C,0x66,0x66,0x66,0x66,0x7C,0x7C,0x6C,0x66,0x66,0x66,0x66,0x66,0x00,0x00,0x00],
  #v[0x3C,0x66,0x60,0x60,0x3C,0x3C,0x06,0x06,0x06,0x06,0x66,0x66,0x3C,0x00,0x00,0x00],
  #v[0x7E,0x18,0x18,0x18,0x18,0x18,0x18,0x18,0x18,0x18,0x18,0x18,0x18,0x00,0x00,0x00],
  #v[0x66,0x66,0x66,0x66,0x66,0x66,0x66,0x66,0x66,0x66,0x66,0x66,0x3C,0x00,0x00,0x00],
  #v[0x66,0x66,0x66,0x66,0x66,0x66,0x66,0x66,0x66,0x3C,0x3C,0x18,0x18,0x00,0x00,0x00],
  #v[0x63,0x63,0x63,0x63,0x63,0x63,0x6B,0x7F,0x7F,0x77,0x63,0x63,0x63,0x00,0x00,0x00],
  #v[0x66,0x66,0x66,0x3C,0x3C,0x18,0x18,0x3C,0x3C,0x66,0x66,0x66,0x66,0x00,0x00,0x00],
  #v[0x66,0x66,0x66,0x66,0x3C,0x3C,0x18,0x18,0x18,0x18,0x18,0x18,0x18,0x00,0x00,0x00],
  #v[0x7E,0x06,0x0C,0x18,0x30,0x30,0x60,0x60,0x60,0x60,0x60,0x60,0x7E,0x00,0x00,0x00],
  #v[0x3C,0x30,0x30,0x30,0x30,0x30,0x30,0x30,0x30,0x30,0x30,0x30,0x3C,0x00,0x00,0x00],
  #v[0x00,0xC0,0x60,0x30,0x18,0x0C,0x06,0x03,0x01,0x00,0x00,0x00,0x00,0x00,0x00,0x00],
  #v[0x3C,0x0C,0x0C,0x0C,0x0C,0x0C,0x0C,0x0C,0x0C,0x0C,0x0C,0x0C,0x3C,0x00,0x00,0x00],
  #v[0x10,0x38,0x6C,0xC6,0x00,0x00,0x00,0x00,0x00,0x00,0x00,0x00,0x00,0x00,0x00,0x00],
  #v[0x00,0x00,0x00,0x00,0x00,0x00,0x00,0x00,0x00,0x00,0x00,0x00,0x00,0x00,0xFF,0x00],
  -- the backquote to 'o'
  #v[0x18,0x18,0x0C,0x00,0x00,0x00,0x00,0x00,0x00,0x00,0x00,0x00,0x00,0x00,0x00,0x00],
  #v[0x00,0x00,0x00,0x00,0x3C,0x06,0x3E,0x66,0x66,0x66,0x3E,0x00,0x00,0x00,0x00,0x00],
  #v[0x60,0x60,0x60,0x60,0x7C,0x66,0x66,0x66,0x66,0x66,0x7C,0x00,0x00,0x00,0x00,0x00],
  #v[0x00,0x00,0x00,0x00,0x3C,0x66,0x60,0x60,0x60,0x66,0x3C,0x00,0x00,0x00,0x00,0x00],
  #v[0x06,0x06,0x06,0x06,0x3E,0x66,0x66,0x66,0x66,0x66,0x3E,0x00,0x00,0x00,0x00,0x00],
  #v[0x00,0x00,0x00,0x00,0x3C,0x66,0x66,0x7E,0x60,0x66,0x3C,0x00,0x00,0x00,0x00,0x00],
  #v[0x1C,0x36,0x30,0x30,0x7C,0x30,0x30,0x30,0x30,0x30,0x30,0x00,0x00,0x00,0x00,0x00],
  #v[0x00,0x00,0x00,0x00,0x3E,0x66,0x66,0x66,0x66,0x66,0x3E,0x06,0x66,0x3C,0x00,0x00],
  #v[0x60,0x60,0x60,0x60,0x7C,0x66,0x66,0x66,0x66,0x66,0x66,0x00,0x00,0x00,0x00,0x00],
  #v[0x18,0x18,0x00,0x00,0x38,0x18,0x18,0x18,0x18,0x18,0x3C,0x00,0x00,0x00,0x00,0x00],
  #v[0x06,0x06,0x00,0x00,0x0E,0x06,0x06,0x06,0x06,0x06,0x06,0x66,0x3C,0x00,0x00,0x00],
  #v[0x60,0x60,0x60,0x60,0x66,0x6C,0x78,0x78,0x6C,0x66,0x66,0x00,0x00,0x00,0x00,0x00],
  #v[0x38,0x18,0x18,0x18,0x18,0x18,0x18,0x18,0x18,0x18,0x3C,0x00,0x00,0x00,0x00,0x00],
  #v[0x00,0x00,0x00,0x00,0x6C,0xFE,0xD6,0xD6,0xD6,0xD6,0xC6,0x00,0x00,0x00,0x00,0x00],
  #v[0x00,0x00,0x00,0x00,0x7C,0x66,0x66,0x66,0x66,0x66,0x66,0x00,0x00,0x00,0x00,0x00],
  #v[0x00,0x00,0x00,0x00,0x3C,0x66,0x66,0x66,0x66,0x66,0x3C,0x00,0x00,0x00,0x00,0x00],
  -- 'p' to the tilde
  #v[0x00,0x00,0x00,0x00,0x7C,0x66,0x66,0x66,0x66,0x66,0x7C,0x60,0x60,0x60,0x00,0x00],
  #v[0x00,0x00,0x00,0x00,0x3E,0x66,0x66,0x66,0x66,0x66,0x3E,0x06,0x06,0x06,0x00,0x00],
  #v[0x00,0x00,0x00,0x00,0x76,0x7C,0x60,0x60,0x60,0x60,0x60,0x00,0x00,0x00,0x00,0x00],
  #v[0x00,0x00,0x00,0x00,0x3C,0x66,0x38,0x0C,0x06,0x66,0x3C,0x00,0x00,0x00,0x00,0x00],
  #v[0x30,0x30,0x30,0x7C,0x30,0x30,0x30,0x30,0x30,0x36,0x1C,0x00,0x00,0x00,0x00,0x00],
  #v[0x00,0x00,0x00,0x00,0x66,0x66,0x66,0x66,0x66,0x66,0x3E,0x00,0x00,0x00,0x00,0x00],
  #v[0x00,0x00,0x00,0x00,0x66,0x66,0x66,0x66,0x66,0x3C,0x18,0x00,0x00,0x00,0x00,0x00],
  #v[0x00,0x00,0x00,0x00,0xC6,0xC6,0xC6,0xD6,0xFE,0x6C,0x44,0x00,0x00,0x00,0x00,0x00],
  #v[0x00,0x00,0x00,0x00,0x66,0x66,0x3C,0x18,0x3C,0x66,0x66,0x00,0x00,0x00,0x00,0x00],
  #v[0x00,0x00,0x00,0x00,0x66,0x66,0x66,0x66,0x66,0x3E,0x06,0x66,0x3C,0x00,0x00,0x00],
  #v[0x00,0x00,0x00,0x00,0x7E,0x0C,0x18,0x30,0x60,0x60,0x7E,0x00,0x00,0x00,0x00,0x00],
  #v[0x0E,0x18,0x18,0x18,0x18,0x70,0x18,0x18,0x18,0x18,0x18,0x0E,0x00,0x00,0x00,0x00],
  #v[0x18,0x18,0x18,0x18,0x18,0x18,0x18,0x18,0x18,0x18,0x18,0x18,0x18,0x00,0x00,0x00],
  #v[0x70,0x18,0x18,0x18,0x18,0x0E,0x18,0x18,0x18,0x18,0x18,0x70,0x00,0x00,0x00,0x00],
  #v[0x76,0xDC,0x00,0x00,0x00,0x00,0x00,0x00,0x00,0x00,0x00,0x00,0x00,0x00,0x00,0x00]]

/-- The bitmap of a printable character. -/
def glyph (c : UInt8) (h : 32 ≤ c ∧ c ≤ 126) : Vector UInt8 16 :=
  font8x16.get ⟨c.toNat - 32, by
    have hlo := UInt8.le_iff_toNat_le.mp h.1
    have hhi := UInt8.le_iff_toNat_le.mp h.2
    simp at hlo hhi
    omega⟩

end BinOs.FontTable
