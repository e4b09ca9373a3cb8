import BinOs.KernelHeapOperations

/-! # Moving overlapping bytes

`memmove` copies upwards when the source lies above the destination and downwards when it
lies below, so that no byte of the source is overwritten before it has been read. Both
regions lie inside the address space. -/
namespace BinOs.MemoryMoves
open LittleEndianStore KernelHeap

/-- `for (i = n; i > 0; i--) pdest[i-1] = psrc[i-1];` -/
def copyDown (m : Store) (dest src : ℕ) : ℕ → Store
  | 0 => m
  | i + 1 => copyDown (Function.update m (dest + i) (m (src + i))) dest src i

/-- The loop of the first branch is that of `memcpy`. -/
def memmove (m : Store) (dest src n : ℕ) : Store :=
  if src > dest then memcpy m dest src n
  else if src < dest then copyDown m dest src n
  else m

variable {m : Store} {dest src n : ℕ}

theorem copyDown_outside (m : Store) (dest src n : ℕ) {k : ℕ} (hk : k < dest ∨ dest + n ≤ k) :
    copyDown m dest src n k = m k := by
  induction n generalizing m with
  | zero => rfl
  | succ n ih => rw [copyDown, ih _ (by omega), Function.update_of_ne (by omega)]

/-- The bytes of the source below the ones copied are still the original ones. -/
theorem copyDown_inside (m : Store) (hd : src ≤ dest) {i : ℕ} (hi : i < n) :
    copyDown m dest src n (dest + i) = m (src + i) := by
  induction n generalizing m with
  | zero => exact absurd hi (Nat.not_lt_zero i)
  | succ n ih =>
    rw [copyDown]
    by_cases hin : i = n
    · rw [hin, copyDown_outside _ _ _ _ (by omega), Function.update_self]
    · rw [ih _ (by omega), Function.update_of_ne (by omega)]

theorem memmove_outside (m : Store) (dest src n : ℕ) {k : ℕ} (hk : k < dest ∨ dest + n ≤ k) :
    memmove m dest src n k = m k := by
  rw [memmove]
  split
  · exact memcpy_outside m dest src n hk
  · split
    · exact copyDown_outside m dest src n hk
    · rfl

theorem memmove_inside (m : Store) (dest src : ℕ) {i : ℕ} (hi : i < n) :
    memmove m dest src n (dest + i) = m (src + i) := by
  rw [memmove]
  split
  · exact memcpy_inside m (by omega) hi
  · split
    · exact copyDown_inside m (by omega) hi
    · rw [show dest = src by omega]

/-- Every byte of the destination ends as the source had it, and no other byte changes;
apart from each other, the regions may as well be copied upwards. -/
theorem memmove_exact (m : Store) (dest src n : ℕ) :
    (∀ i < n, memmove m dest src n (dest + i) = m (src + i)) ∧
    (∀ k, k < dest ∨ dest + n ≤ k → memmove m dest src n k = m k) ∧
    (dest + n ≤ src ∨ src + n ≤ dest → memcpy m dest src n = memmove m dest src n) := by
  refine ⟨fun i hi => memmove_inside m dest src hi, fun k hk => memmove_outside m dest src n hk,
    fun hd => ?_⟩
  funext k
  by_cases hk : k < dest ∨ dest + n ≤ k
  · rw [memcpy_outside m dest src n hk, memmove_outside m dest src n hk]
  · obtain ⟨i, rfl⟩ := Nat.exists_eq_add_of_le (by omega : dest ≤ k)
    rw [memcpy_inside m (by omega) (by omega), memmove_inside m dest src (by omega)]

def countingStore : Store := fun k => UInt8.ofNat k

/-- A region moved up by one byte over itself, and one copied to a place of its own. -/
theorem memmove_exact_up : memmove countingStore 101 100 2 102 = countingStore 101 ∧
    memmove countingStore 101 100 2 100 = countingStore 100 ∧
    memcpy countingStore 200 100 2 = memmove countingStore 200 100 2 :=
  ⟨(memmove_exact countingStore 101 100 2).1 1 (by decide),
    (memmove_exact countingStore 101 100 2).2.1 100 (by decide),
    (memmove_exact countingStore 200 100 2).2.2 (by decide)⟩

end BinOs.MemoryMoves
