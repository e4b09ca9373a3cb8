import BinOs.BoundedLoops
import Mathlib.Algebra.Group.Int.Defs
import Mathlib.Algebra.GroupWithZero.Nat
import Mathlib.Data.List.Basic

/-! # Arrays with checked indices, and terminated strings in them

`read` and `write` take any integer index and fault, with `none`, outside the
array. `elem` is the total view used in specifications. `Holds b t` says that `b`
starts with the bytes of `t` and a terminator. -/
namespace BinOs.CheckedBuffers
open BoundedLoops

variable {α : Type} {n : ℕ}

def read (b : Vector α n) (i : ℤ) : Option α := if 0 ≤ i then b[i.toNat]? else none

def write (b : Vector α n) (i : ℤ) (x : α) : Option (Vector α n) :=
  if h : 0 ≤ i ∧ i.toNat < n then some (b.set i.toNat x h.2) else none

/-- Element `i`, or the default past the end. -/
def elem [Inhabited α] (b : Vector α n) (i : ℕ) : α := b[i]?.getD default

section Access
variable [Inhabited α]

theorem read_eq (b : Vector α n) {i : ℤ} (h : 0 ≤ i) (hi : i < n) :
    read b i = some (elem b i.toNat) := by
  have hn : i.toNat < n := by omega
  simp [read, elem, h, hn]

theorem read_natCast (b : Vector α n) {i : ℕ} (hi : i < n) : read b i = some (elem b i) := by
  simpa using read_eq b (i := (i : ℤ)) (by omega) (by omega)

theorem write_eq (b : Vector α n) {i : ℤ} (x : α) (h : 0 ≤ i) (hi : i < n) :
    ∃ b', write b i x = some b' ∧
      ∀ j, elem b' j = if (j : ℤ) = i then x else elem b j := by
  have hn : i.toNat < n := by omega
  refine ⟨b.set i.toNat x hn, by simp [write, h, hn], fun j => ?_⟩
  by_cases hj : (j : ℤ) = i
  · have hj' : i.toNat = j := by omega
    have hjn : j < n := by omega
    simp [elem, hj, hj', hjn]
  · have hj' : i.toNat ≠ j := by omega
    by_cases hjn : j < n
    · simp [elem, hj, hjn, Vector.getElem_set_ne _ _ hj']
    · simp [elem, hj, hjn]

theorem ext_elem {b b' : Vector α n} (h : ∀ j < n, elem b j = elem b' j) : b = b' := by
  ext j hj
  simpa [elem, hj] using h j hj

theorem elem_replicate (x : α) {j : ℕ} (hj : j < n) : elem (Vector.replicate n x) j = x := by
  simp [elem, hj]

/-- `for (i = lo; i < hi; i++) b[i] = b[i + d]` -/
def shiftDown (b : Vector α n) (lo hi d : ℤ) : Option (Vector α n) :=
  forUpM lo hi (fun i b => (read b (i + d)).bind (write b i)) b

/-- `for (i = hi; i > lo; i--) b[i] = b[i - 1]` -/
def shiftUp (b : Vector α n) (hi lo : ℤ) : Option (Vector α n) :=
  forDownM hi lo (fun i b => (read b (i - 1)).bind (write b i)) b

/-- Every element of the range takes the value that stood `d` places further on. -/
theorem shiftDown_eq (b : Vector α n) {lo hi d : ℤ} (hlo : 0 ≤ lo) (hle : lo ≤ hi) (hd : 0 ≤ d)
    (hn : hi + d ≤ n) :
    ∃ b', shiftDown b lo hi d = some b' ∧
      ∀ j, elem b' j = if lo ≤ (j : ℤ) ∧ (j : ℤ) < hi then elem b (j + d.toNat) else elem b j := by
  apply forUpM_invariant (fun i t => ∀ j,
    elem t j = if lo ≤ (j : ℤ) ∧ (j : ℤ) < i then elem b (j + d.toNat) else elem b j) hle
  · intro j
    rw [if_neg (by omega)]
  · intro i t hlt hhi ht
    obtain ⟨t', hw, ht'⟩ := write_eq t (elem t (i + d).toNat) (by omega : 0 ≤ i) (by omega)
    refine ⟨t', by rw [read_eq t (by omega) (by omega)]; exact hw, fun j => ?_⟩
    rw [ht', ht, ht]
    by_cases hj : (j : ℤ) = i
    · rw [if_pos hj, if_neg (by omega), if_pos (by omega)]
      congr 1
      omega
    · rw [if_neg hj]
      by_cases hr : lo ≤ (j : ℤ) ∧ (j : ℤ) < i
      · rw [if_pos hr, if_pos (by omega)]
      · rw [if_neg hr, if_neg (by omega)]

theorem shiftUp_eq (b : Vector α n) {hi lo : ℤ} (hlo : 0 ≤ lo) (hle : lo ≤ hi) (hn : hi < n) :
    ∃ b', shiftUp b hi lo = some b' ∧
      ∀ j, elem b' j = if lo < (j : ℤ) ∧ (j : ℤ) ≤ hi then elem b (j - 1) else elem b j := by
  apply forDownM_invariant (fun i t => ∀ j,
    elem t j = if i < (j : ℤ) ∧ (j : ℤ) ≤ hi then elem b (j - 1) else elem b j) hle
  · intro j
    rw [if_neg (by omega)]
  · intro i t hlt hhi ht
    obtain ⟨t', hw, ht'⟩ := write_eq t (elem t (i - 1).toNat) (by omega : 0 ≤ i) (by omega)
    refine ⟨t', by rw [read_eq t (by omega) (by omega)]; exact hw, fun j => ?_⟩
    rw [ht', ht, ht]
    by_cases hj : (j : ℤ) = i
    · rw [if_pos hj, if_neg (by omega), if_pos (by omega)]
      congr 1
      omega
    · rw [if_neg hj]
      by_cases hr : i < (j : ℤ) ∧ (j : ℤ) ≤ hi
      · rw [if_pos hr, if_pos (by omega)]
      · rw [if_neg hr, if_neg (by omega)]

end Access

/-- The values with the segment from `l` to `r` turned round. -/
def turned (l r : ℕ) (f : ℕ → α) (j : ℕ) : α := if l ≤ j ∧ j ≤ r then f (l + r - j) else f j

theorem turned_of_le {l r : ℕ} (h : r ≤ l) (f : ℕ → α) (j : ℕ) : turned l r f j = f j := by
  rw [turned]
  split
  · congr 1
    omega
  · rfl

/-- The two ends change places and the rest between them is turned round. -/
theorem turned_swap {l r : ℕ} (hlt : l < r) {f g : ℕ → α}
    (hg : ∀ j, g j = if j = l then f r else if j = r then f l else f j) (j : ℕ) :
    turned (l + 1) (r - 1) g j = turned l r f j := by
  rw [turned, turned]
  by_cases hfirst : j = l
  · rw [if_neg (by omega), if_pos (by omega), hg, if_pos hfirst, hfirst, Nat.add_sub_cancel_left]
  · by_cases hlast : j = r
    · rw [if_neg (by omega), if_pos (by omega), hg, if_neg hfirst, if_pos hlast, hlast,
        Nat.add_sub_cancel]
    · by_cases hinner : l ≤ j ∧ j ≤ r
      · rw [if_pos (by omega), if_pos hinner, hg, if_neg (by omega), if_neg (by omega)]
        congr 1
        omega
      · rw [if_neg (by omega), if_neg hinner, hg, if_neg hfirst, if_neg hlast]

/-- The ends of a segment have changed places. -/
def Swapped [Inhabited α] (l r : ℕ) (b b' : Vector α n) : Prop :=
  ∀ j, elem b' j = if j = l then elem b r else if j = r then elem b l else elem b j

/-- A loop that swaps the ends and closes in on what lies between turns the segment round. -/
theorem turns_of_passes [Inhabited α] {loop : ℕ → ℤ → ℤ → Vector α n → Option (Vector α n)}
    (hstop : ∀ fuel l r b, ¬ l < r → loop (fuel + 1) l r b = some b)
    (hpass : ∀ fuel (l r : ℕ) b, l < r → r < n → ∃ b', Swapped l r b b' ∧
      loop (fuel + 1) l r b = loop fuel (l + 1) (r - 1) b')
    (fuel l r : ℕ) (b : Vector α n) (hfuel : r ≤ l + 2 * fuel) (hr : r < n) :
    ∃ b', loop (fuel + 1) l r b = some b' ∧ ∀ j, elem b' j = turned l r (elem b) j := by
  have hdone {fuel l r : ℕ} {b : Vector α n} (hle : r ≤ l) :
      ∃ b', loop (fuel + 1) l r b = some b' ∧ ∀ j, elem b' j = turned l r (elem b) j :=
    ⟨b, hstop fuel l r b (by omega), fun j => (turned_of_le hle (elem b) j).symm⟩
  induction fuel generalizing l r b with
  | zero => exact hdone hfuel
  | succ fuel ih =>
    by_cases hlt : l < r
    · obtain ⟨b₁, hswapped, hloop₁⟩ := hpass (fuel + 1) l r b hlt hr
      obtain ⟨b', hloop, hb'⟩ := ih (l + 1) (r - 1) b₁ (by omega) (by omega)
      have hnext : ((l + 1 : ℕ) : ℤ) = (l : ℤ) + 1 ∧ ((r - 1 : ℕ) : ℤ) = (r : ℤ) - 1 := by omega
      rw [hnext.1, hnext.2] at hloop
      refine ⟨b', hloop₁.trans hloop, fun j => ?_⟩
      rw [hb', turned_swap hlt hswapped]
    · exact hdone (Nat.le_of_not_lt hlt)

/-- Store these values from index `i` on. -/
def writeFrom : ℤ → List α → Vector α n → Option (Vector α n)
  | _, [], b => some b
  | i, x :: xs, b => (write b i x).bind (writeFrom (i + 1) xs)

theorem writeFrom_eq [Inhabited α] (xs : List α) {i : ℕ} (b : Vector α n) (h : i + xs.length ≤ n) :
    ∃ b', writeFrom i xs b = some b' ∧ (∀ j < i, elem b' j = elem b j) ∧
      ∀ k (hk : k < xs.length), elem b' (i + k) = xs[k] := by
  induction xs generalizing i b with
  | nil => exact ⟨b, rfl, fun _ _ => rfl, fun k hk => absurd hk (Nat.not_lt_zero k)⟩
  | cons x xs ih =>
    rw [List.length_cons] at h
    obtain ⟨b₁, hwrite, hb₁⟩ := write_eq b x (by omega : (0 : ℤ) ≤ i) (by omega)
    obtain ⟨b', hrest, hbelow, hfrom⟩ := ih b₁ (by omega : i + 1 + xs.length ≤ n)
    refine ⟨b', ?_, fun j hj => ?_, fun k hk => ?_⟩
    · rw [writeFrom, hwrite, Option.bind_some]
      exact hrest
    · rw [hbelow j (by omega), hb₁, if_neg (by omega)]
    · cases k with
      | zero =>
        rw [Nat.add_zero, hbelow i (Nat.lt_succ_self i), hb₁, if_pos rfl]
        rfl
      | succ k =>
        rw [List.length_cons] at hk
        have hk' := hfrom k (by omega)
        rw [show i + (k + 1) = i + 1 + k by omega, hk']
        rfl

/-- As many values as the array has elements are its new contents. -/
theorem writeFrom_zero [Inhabited α] {xs : List α} (h : xs.length = n) (b : Vector α n) :
    ∃ b', writeFrom 0 xs b = some b' ∧ b'.toList = xs := by
  obtain ⟨b', hb', -, helem⟩ := writeFrom_eq xs (i := 0) b (by omega)
  refine ⟨b', hb', List.ext_getElem (by rw [Vector.length_toList, h]) fun k hk hk' => ?_⟩
  have hkn : k < n := by omega
  have hat := helem k hk'
  rw [Nat.zero_add, elem] at hat
  simpa [hkn] using hat

/-- `b` holds the string `t`: its bytes, none of them zero, and then a zero. -/
structure Holds (b : Vector UInt8 n) (t : List UInt8) : Prop where
  fits : t.length < n
  bytes : ∀ i (h : i < t.length), elem b i = t[i]
  nonzero : ∀ c ∈ t, c ≠ 0
  terminator : elem b t.length = 0

/-- The bytes before the first zero; a scan that finds none runs off the array. -/
def scan : List UInt8 → Option (List UInt8)
  | [] => none
  | c :: cs => if c = 0 then some [] else (scan cs).map (c :: ·)

/-- What a loop `while (*s) … s++` over the array visits. -/
def contents (b : Vector UInt8 n) : Option (List UInt8) := scan b.toList

theorem scan_append {t : List UInt8} (h : ∀ c ∈ t, c ≠ 0) (rest : List UInt8) :
    scan (t ++ 0 :: rest) = some t := by
  induction t with
  | nil => rfl
  | cons c cs ih =>
    rw [List.cons_append, scan, if_neg (h c List.mem_cons_self),
      ih (fun d hd => h d (List.mem_cons_of_mem _ hd))]
    rfl

theorem Holds.toList {b : Vector UInt8 n} {t : List UInt8} (h : Holds b t) :
    ∃ rest, b.toList = t ++ 0 :: rest := by
  have hlen := h.fits
  refine ⟨b.toList.drop (t.length + 1), List.ext_getElem (by simp; omega) fun i hi hi' => ?_⟩
  have hin : i < n := by simpa using hi
  have hbi : b.toList[i] = elem b i := by simp [elem, hin]
  rw [hbi]
  rcases Nat.lt_trichotomy i t.length with hlt | rfl | hgt
  · rw [List.getElem_append_left hlt, h.bytes i hlt]
  · simp [h.terminator]
  · rw [List.getElem_append_right (by omega), List.getElem_cons]
    have hne : i - t.length ≠ 0 := by omega
    have hidx : t.length + 1 + (i - t.length - 1) = i := by omega
    simp [hne, elem, hin, hidx]

theorem Holds.contents {b : Vector UInt8 n} {t : List UInt8} (h : Holds b t) :
    contents b = some t := by
  obtain ⟨rest, hb⟩ := h.toList
  rw [CheckedBuffers.contents, hb, scan_append h.nonzero]

theorem Holds.elem_ne_zero {b : Vector UInt8 n} {t : List UInt8} (h : Holds b t) {i : ℕ}
    (hi : i < t.length) : elem b i ≠ 0 := by
  rw [h.bytes i hi]
  exact h.nonzero _ (List.getElem_mem hi)

theorem holds_nil {b : Vector UInt8 n} (hn : 0 < n) (h : elem b 0 = 0) : Holds b [] where
  fits := hn
  bytes := fun i hi => absurd hi (Nat.not_lt_zero i)
  nonzero := fun _ hc => absurd hc List.not_mem_nil
  terminator := h

theorem Holds.truncate {b : Vector UInt8 n} {t : List UInt8} (h : Holds b t) {k : ℤ}
    (h0 : 0 ≤ k) (hk : k ≤ t.length) :
    ∃ b', write b k 0 = some b' ∧ Holds b' (t.take k.toNat) := by
  have hn := h.fits
  obtain ⟨b', hw, hb'⟩ := write_eq b 0 h0 (by omega)
  have hlen : (t.take k.toNat).length = k.toNat := by simp; omega
  refine ⟨b', hw, by omega, fun i hi => ?_, fun c hc => h.nonzero c (List.mem_of_mem_take hc), ?_⟩
  · rw [hb', if_neg (by omega), h.bytes i (by omega), List.getElem_take]
  · rw [hb', hlen, if_pos (by omega)]

/-- Cutting `d` characters at `lo`: the tail moves down, with its terminator or
without, and a terminator is written after it. -/
theorem Holds.remove {b : Vector UInt8 n} {t : List UInt8} (h : Holds b t) {lo hi d last : ℤ}
    (h0 : 0 ≤ lo) (hd : 0 ≤ d) (hcut : lo + d ≤ t.length) (hlo : t.length - d ≤ hi)
    (hhi : hi + d ≤ t.length + 1) (hlast : last = t.length - d) :
    ∃ b₁, shiftDown b lo hi d = some b₁ ∧ ∃ b₂, write b₁ last 0 = some b₂ ∧
      Holds b₂ (t.take lo.toNat ++ t.drop (lo + d).toNat) := by
  have hn := h.fits
  obtain ⟨b₁, hs, hb₁⟩ := shiftDown_eq b h0 (by omega : lo ≤ hi) hd (by omega)
  obtain ⟨b₂, hw, hb₂⟩ := write_eq b₁ 0 (by omega : 0 ≤ last) (by omega)
  have hlen : ((t.take lo.toNat ++ t.drop (lo + d).toNat).length : ℤ) = last := by simp; omega
  refine ⟨b₁, hs, b₂, hw, by omega, fun i hit => ?_, fun c hc => ?_, ?_⟩
  · rw [hb₂, if_neg (by omega), hb₁]
    by_cases hik : i < lo.toNat
    · rw [if_neg (by omega), List.getElem_append_left (by simp; omega), List.getElem_take,
        h.bytes i (by omega)]
    · rw [if_pos (by omega), List.getElem_append_right (by simp; omega), List.getElem_drop,
        h.bytes (i + d.toNat) (by omega)]
      congr 1
      simp
      omega
  · rcases List.mem_append.mp hc with hc | hc
    · exact h.nonzero c (List.mem_of_mem_take hc)
    · exact h.nonzero c (List.mem_of_mem_drop hc)
  · rw [hb₂, if_pos hlen]

/-- Opening a gap at `k` for one character. -/
theorem Holds.insertAt {b : Vector UInt8 n} {t : List UInt8} (h : Holds b t) {len k last : ℤ}
    {c : UInt8} (hlen : len = t.length) (h0 : 0 ≤ k) (hk : k ≤ t.length)
    (hroom : t.length + 1 < n) (hc : c ≠ 0) (hlast : last = t.length + 1) :
    ∃ b₁, shiftUp b len k = some b₁ ∧ ∃ b₂, write b₁ k c = some b₂ ∧
      ∃ b₃, write b₂ last 0 = some b₃ ∧ Holds b₃ (t.take k.toNat ++ c :: t.drop k.toNat) := by
  obtain ⟨b₁, hs, hb₁⟩ := shiftUp_eq b h0 (by omega : k ≤ len) (by omega)
  obtain ⟨b₂, hw, hb₂⟩ := write_eq b₁ c h0 (by omega)
  obtain ⟨b₃, hz, hb₃⟩ := write_eq b₂ 0 (by omega : 0 ≤ last) (by omega)
  have hlen' : ((t.take k.toNat ++ c :: t.drop k.toNat).length : ℤ) = last := by simp; omega
  refine ⟨b₁, hs, b₂, hw, b₃, hz, by omega, fun i hit => ?_, fun d hd => ?_, ?_⟩
  · rw [hb₃, if_neg (by omega), hb₂]
    rcases Nat.lt_trichotomy i k.toNat with hik | hik | hik
    · rw [if_neg (by omega), hb₁, if_neg (by omega), List.getElem_append_left (by simp; omega),
        List.getElem_take, h.bytes i (by omega)]
    · rw [if_pos (by omega), List.getElem_append_right (by simp; omega), List.getElem_cons,
        dif_pos (by simp; omega)]
    · rw [if_neg (by omega), hb₁, if_pos (by omega), List.getElem_append_right (by simp; omega),
        h.bytes (i - 1) (by omega), List.getElem_cons, dif_neg (by simp; omega),
        List.getElem_drop]
      congr 1
      simp
      omega
  · rcases List.mem_append.mp hd with hd | hd
    · exact h.nonzero d (List.mem_of_mem_take hd)
    · rcases List.mem_cons.mp hd with rfl | hd
      · exact hc
      · exact h.nonzero d (List.mem_of_mem_drop hd)
  · rw [hb₃, if_pos hlen']

end BinOs.CheckedBuffers
