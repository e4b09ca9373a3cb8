import Mathlib.Data.Nat.Notation
import Mathlib.Data.Int.Notation
import Mathlib.Tactic.ByContra

/-! # Comparing blocks of memory -/
namespace BinOs.MemoryComparison

variable {p1 p2 : ℕ → UInt8} {n i : ℕ}

/-- The loop of `memcmp` with so many bytes to go: the result, and how many bytes of each
block have been read. -/
def memcmpLoop (p1 p2 : ℕ → UInt8) : ℕ → ℕ → ℤ × ℕ
  | 0, i => (0, i)
  | remaining + 1, i =>
    if p1 i ≠ p2 i then (if p1 i < p2 i then -1 else 1, i + 1)
    else memcmpLoop p1 p2 remaining (i + 1)

def memcmp (p1 p2 : ℕ → UInt8) (n : ℕ) : ℤ × ℕ := memcmpLoop p1 p2 n 0

theorem memcmpLoop_eq_zero_iff :
    (memcmpLoop p1 p2 n i).1 = 0 ↔ ∀ j, i ≤ j → j < i + n → p1 j = p2 j := by
  induction n generalizing i with
  | zero => exact ⟨fun _ j hlo hhi => absurd hhi (Nat.not_lt.mpr hlo), fun _ => rfl⟩
  | succ n ih =>
    rw [memcmpLoop]
    by_cases hdiff : p1 i ≠ p2 i
    · rw [if_pos hdiff]
      refine ⟨fun hzero => ?_, fun hall => absurd (hall i (Nat.le_refl i) (by omega)) hdiff⟩
      dsimp only at hzero
      split at hzero
      · cases hzero
      · cases hzero
    · rw [if_neg hdiff, ih]
      constructor
      · intro hall j hlo hhi
        by_cases hj : j = i
        · rw [hj, not_not.mp hdiff]
        · exact hall j (by omega) (by omega)
      · intro hall j hlo hhi
        exact hall j (by omega) (by omega)

theorem memcmpLoop_reads_le : (memcmpLoop p1 p2 n i).2 ≤ i + n := by
  induction n generalizing i with
  | zero => exact Nat.le_refl i
  | succ n ih =>
    rw [memcmpLoop]
    split
    · exact Nat.add_le_add_left (Nat.le_add_left 1 n) i
    · exact Nat.le_trans ih (by omega)

/-- The result is zero exactly for equal blocks. -/
theorem memcmp_eq_zero_iff : (memcmp p1 p2 n).1 = 0 ↔ ∀ j < n, p1 j = p2 j := by
  rw [memcmp, memcmpLoop_eq_zero_iff]
  exact ⟨fun h j hj => h j (Nat.zero_le j) (by omega), fun h j _ hj => h j (by omega)⟩

theorem memcmp_reads_le : (memcmp p1 p2 n).2 ≤ n := by
  have hreads : (memcmpLoop p1 p2 n 0).2 ≤ 0 + n := memcmpLoop_reads_le
  rwa [Nat.zero_add] at hreads

end BinOs.MemoryComparison
