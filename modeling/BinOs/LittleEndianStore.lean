import Mathlib.Logic.Function.Basic
import Mathlib.Data.Nat.Notation
import Mathlib.Tactic.Ring

/-! # A byte-addressed store with little-endian words

Words of any width are loaded from and stored into one array of bytes, so two
records that share the array are compared byte by byte. -/
namespace BinOs.LittleEndianStore

abbrev Store := ℕ → UInt8

/-- The `w` bytes at `a`, least significant byte first. -/
def loadLE (m : Store) : ℕ → ℕ → ℕ
  | 0, _ => 0
  | w + 1, a => (m a).toNat + 256 * loadLE m w (a + 1)

/-- Stores the `w` low bytes of `v` at `a`. -/
def storeLE : Store → ℕ → ℕ → ℕ → Store
  | m, 0, _, _ => m
  | m, w + 1, a, v => storeLE (Function.update m a (UInt8.ofNat v)) w (a + 1) (v / 256)

theorem loadLE_congr {m m' : Store} {w a : ℕ} (h : ∀ k, a ≤ k → k < a + w → m k = m' k) :
    loadLE m w a = loadLE m' w a := by
  induction w generalizing a with
  | zero => rfl
  | succ w ih =>
    rw [loadLE, loadLE, h a (by omega) (by omega), ih (fun k hk hk' => h k (by omega) (by omega))]

theorem storeLE_outside (m : Store) (w a v : ℕ) {k : ℕ} (hk : k < a ∨ a + w ≤ k) :
    storeLE m w a v k = m k := by
  induction w generalizing m a v with
  | zero => rfl
  | succ w ih =>
    rw [storeLE, ih _ _ _ (by omega), Function.update_of_ne (by omega)]

theorem loadLE_storeLE (m : Store) (w a : ℕ) {v : ℕ} (hv : v < 256 ^ w) :
    loadLE (storeLE m w a v) w a = v := by
  induction w generalizing m a v with
  | zero => simp at hv; simp [loadLE, hv]
  | succ w ih =>
    have hdiv : v / 256 < 256 ^ w := by
      rw [Nat.div_lt_iff_lt_mul (by norm_num)]
      simpa [pow_succ] using hv
    rw [storeLE, loadLE, ih _ _ hdiv, storeLE_outside _ _ _ _ (by omega), Function.update_self]
    have hb : (UInt8.ofNat v).toNat = v % 256 := by simp
    omega

theorem loadLE_storeLE_disjoint (m : Store) (v : ℕ) {w w' a b : ℕ}
    (h : a + w ≤ b ∨ b + w' ≤ a) : loadLE (storeLE m w' b v) w a = loadLE m w a :=
  loadLE_congr (fun _ hk hk' => storeLE_outside m w' b v (by omega))

end BinOs.LittleEndianStore
