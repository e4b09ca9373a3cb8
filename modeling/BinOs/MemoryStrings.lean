import BinOs.CheckedBuffers
import BinOs.OrderSigns

/-! # The string functions of the kernel's C library

The arguments are whole arrays: every caller passes one, so the `NULL` tests at
the head of each function are not met. A loop has fuel for one pass more than
the source array has elements, and the last pass would read past its end. -/
namespace BinOs.MemoryStrings
open BoundedLoops CheckedBuffers OrderSigns

variable {n m : ℕ}

/-- The bytes of a string literal, without the terminator. -/
def ascii (s : String) : List UInt8 := s.toList.map fun c => UInt8.ofNat c.toNat

/-- A string literal as the array it is. -/
def literal (t : List UInt8) : Vector UInt8 (t.length + 1) := ⟨(t ++ [0]).toArray, by simp⟩

def strlenLoop (str : Vector UInt8 n) : ℕ → ℤ → Option ℤ
  | 0, _ => none
  | fuel + 1, len => do
    let c ← read str len
    if c ≠ 0 then strlenLoop str fuel (len + 1) else some len

def strlen (str : Vector UInt8 n) : Option ℤ := strlenLoop str (n + 1) 0

/-- The last comparison and the result both read the two current bytes. -/
def strcmpLoop (str1 : Vector UInt8 n) (str2 : Vector UInt8 m) : ℕ → ℤ → Option ℤ
  | 0, _ => none
  | fuel + 1, i => do
    let x ← read str1 i
    let y ← read str2 i
    if x ≠ 0 ∧ y ≠ 0 ∧ x = y then strcmpLoop str1 str2 fuel (i + 1)
    else some ((x.toNat : ℤ) - y.toNat)

def strcmp (str1 : Vector UInt8 n) (str2 : Vector UInt8 m) : Option ℤ :=
  strcmpLoop str1 str2 (n + 1) 0

/-- One comparison fewer is left after each pass. -/
def strncmpLoop (s1 : Vector UInt8 n) (s2 : Vector UInt8 m) : ℕ → ℤ → Option ℤ
  | 0, _ => some 0
  | remaining + 1, i => do
    let x ← read s1 i
    let y ← read s2 i
    if x ≠ 0 ∧ y ≠ 0 ∧ x = y then strncmpLoop s1 s2 remaining (i + 1)
    else some ((x.toNat : ℤ) - y.toNat)

def strncmp (s1 : Vector UInt8 n) (s2 : Vector UInt8 m) (k : ℕ) : Option ℤ :=
  strncmpLoop s1 s2 k 0

def strncpyLoop (src : Vector UInt8 m) (k : ℤ) :
    ℕ → ℤ → Vector UInt8 n → Option (Vector UInt8 n × ℤ)
  | 0, _, _ => none
  | fuel + 1, i, dest =>
    if i < k then do
      let c ← read src i
      if c ≠ 0 then strncpyLoop src k fuel (i + 1) (← write dest i c) else some (dest, i)
    else some (dest, i)

def strncpy (dest : Vector UInt8 n) (src : Vector UInt8 m) (k : ℤ) : Option (Vector UInt8 n) := do
  let (dest, i) ← strncpyLoop src k (m + 1) 0 dest
  forUpM i k (fun i dest => write dest i 0) dest

def strcpyLoop (src : Vector UInt8 m) :
    ℕ → ℤ → Vector UInt8 n → Option (Vector UInt8 n × ℤ)
  | 0, _, _ => none
  | fuel + 1, i, dest => do
    let c ← read src i
    if c ≠ 0 then strcpyLoop src fuel (i + 1) (← write dest i c) else some (dest, i)

def strcpy (dest : Vector UInt8 n) (src : Vector UInt8 m) : Option (Vector UInt8 n) := do
  let (dest, i) ← strcpyLoop src (m + 1) 0 dest
  write dest i 0

theorem literal_holds {t : List UInt8} (h : ∀ c ∈ t, c ≠ 0) : Holds (literal t) t where
  fits := Nat.lt_succ_self _
  bytes := fun i hi => by simp [elem, literal, hi, Nat.lt_succ_of_lt hi]
  nonzero := h
  terminator := by simp [elem, literal]

theorem strlenLoop_eq {b : Vector UInt8 n} {t : List UInt8} (h : Holds b t) :
    ∀ (r fuel i : ℕ), i + r = t.length → r < fuel → strlenLoop b fuel i = some (t.length : ℤ)
  | r, 0, _, _, hfuel => absurd hfuel (Nat.not_lt_zero r)
  | 0, fuel + 1, i, hi, _ => by
    obtain rfl : i = t.length := by omega
    simp [strlenLoop, read_natCast b h.fits, h.terminator]
  | r + 1, fuel + 1, i, hi, hfuel => by
    have hn := h.fits
    have hc := h.elem_ne_zero (show i < t.length by omega)
    have hrest := strlenLoop_eq h r fuel (i + 1) (by omega) (by omega)
    simpa [strlenLoop, read_natCast b (show i < n by omega), hc] using hrest

theorem strlen_eq {b : Vector UInt8 n} {t : List UInt8} (h : Holds b t) :
    strlen b = some (t.length : ℤ) := by
  have hn := h.fits
  simpa [strlen] using strlenLoop_eq h t.length (n + 1) 0 (by omega) (by omega)

section Comparison
variable {b : Vector UInt8 n} {b' : Vector UInt8 m} {s t : List UInt8}

/-- The bytes at `k` tell the two sequences apart or end both; those before them are equal
and go on. -/
structure StopsAt (f g : ℕ → Option UInt8) (k : ℕ) (x y : UInt8) : Prop where
  before : ∀ j < k, ∃ c, c ≠ 0 ∧ f j = some c ∧ g j = some c
  first : f k = some x
  second : g k = some y
  stop : ¬ (x ≠ 0 ∧ y ≠ 0 ∧ x = y)

theorem StopsAt.congr {f g f' g' : ℕ → Option UInt8} {k : ℕ} {x y : UInt8}
    (h : StopsAt f g k x y) (hf : ∀ j ≤ k, f' j = f j) (hg : ∀ j ≤ k, g' j = g j) :
    StopsAt f' g' k x y where
  before := fun j hj => by
    rw [hf j (Nat.le_of_lt hj), hg j (Nat.le_of_lt hj)]
    exact h.before j hj
  first := (hf k (Nat.le_refl k)).trans h.first
  second := (hg k (Nat.le_refl k)).trans h.second
  stop := h.stop

def bytesOf (b : Vector UInt8 n) (j : ℕ) : Option UInt8 := read b j

/-- A string and its terminator. -/
def terminated (t : List UInt8) (j : ℕ) : Option UInt8 := (t ++ [0])[j]?

theorem StopsAt.cons {k : ℕ} {x y c : UInt8} (h : StopsAt (terminated s) (terminated t) k x y)
    (hc : c ≠ 0) : StopsAt (terminated (c :: s)) (terminated (c :: t)) (k + 1) x y where
  before := fun j hj => by
    cases j with
    | zero => exact ⟨c, hc, rfl, rfl⟩
    | succ j => exact h.before j (Nat.lt_of_succ_lt_succ hj)
  first := h.first
  second := h.second
  stop := h.stop

/-- Two strings have such a place, and the difference of the bytes there has the sign of
their order. -/
theorem exists_stopsAt (hs : ∀ c ∈ s, c ≠ 0) (ht : ∀ c ∈ t, c ≠ 0) :
    ∃ k x y, StopsAt (terminated s) (terminated t) k x y ∧
      Signs ((x.toNat : ℤ) - y.toNat) s t := by
  have hstart {f g : ℕ → Option UInt8} {x y : UInt8} (hx : f 0 = some x) (hy : g 0 = some y)
      (hstop : ¬ (x ≠ 0 ∧ y ≠ 0 ∧ x = y)) : StopsAt f g 0 x y :=
    ⟨fun j hj => absurd hj (Nat.not_lt_zero j), hx, hy, hstop⟩
  induction s generalizing t with
  | nil =>
    cases t with
    | nil => exact ⟨0, 0, 0, hstart rfl rfl fun h => h.1 rfl, Signs.refl []⟩
    | cons y t =>
      have hy : y ≠ 0 := ht y List.mem_cons_self
      have hlt := (signs_byte 0 y).neg.mpr (UInt8.pos_iff_ne_zero.mpr hy)
      exact ⟨0, 0, y, hstart rfl rfl fun h => h.1 rfl, Signs.of_lt hlt (List.nil_lt_cons y t)⟩
  | cons x s ih =>
    have hx : x ≠ 0 := hs x List.mem_cons_self
    cases t with
    | nil =>
      have hlt := (signs_byte x 0).pos.mpr (UInt8.pos_iff_ne_zero.mpr hx)
      exact ⟨0, x, 0, hstart rfl rfl fun h => h.2.1 rfl, Signs.of_gt hlt (List.nil_lt_cons x s)⟩
    | cons y t =>
      by_cases hxy : x = y
      · subst hxy
        obtain ⟨k, a, b, hstop, hsigns⟩ := ih (fun c hc => hs c (List.mem_cons_of_mem x hc))
          (fun c hc => ht c (List.mem_cons_of_mem x hc))
        exact ⟨k + 1, a, b, hstop.cons hx, hsigns.cons x⟩
      · exact ⟨0, x, y, hstart rfl rfl fun h => hxy h.2.2, (signs_byte x y).head hxy s t⟩

theorem read_of_holds (h : Holds b t) {j : ℕ} (hj : j < (t ++ [0]).length) :
    read b (j : ℤ) = (t ++ [0])[j]? := by
  have hn := h.fits
  rw [List.length_append, List.length_singleton] at hj
  rw [read_natCast b (by omega)]
  by_cases hjt : j < t.length
  · rw [h.bytes j hjt, List.getElem?_append_left hjt, List.getElem?_eq_getElem hjt]
  · have heq : j = t.length := by omega
    simp [heq, h.terminator]

theorem StopsAt.of_holds {k : ℕ} {x y : UInt8} (h : StopsAt (terminated s) (terminated t) k x y)
    (hs : Holds b s) (ht : Holds b' t) : StopsAt (bytesOf b) (bytesOf b') k x y := by
  obtain ⟨hks, -⟩ := List.getElem?_eq_some_iff.mp h.first
  obtain ⟨hkt, -⟩ := List.getElem?_eq_some_iff.mp h.second
  exact h.congr (fun j hj => read_of_holds hs (Nat.lt_of_le_of_lt hj hks))
    (fun j hj => read_of_holds ht (Nat.lt_of_le_of_lt hj hkt))

theorem strcmpLoop_stop {k : ℕ} {x y : UInt8} (h : StopsAt (bytesOf b) (bytesOf b') k x y)
    (fuel i : ℕ) (hi : i ≤ k) (hfuel : k < i + fuel) :
    strcmpLoop b b' fuel i = some ((x.toNat : ℤ) - y.toNat) := by
  induction fuel generalizing i with
  | zero => omega
  | succ fuel ih =>
    by_cases hk : i = k
    · subst hk
      have hx : read b i = some x := h.first
      have hy : read b' i = some y := h.second
      simp only [strcmpLoop, hx, hy, Option.bind_eq_bind, Option.bind_some, if_neg h.stop]
    · obtain ⟨c, hc, hx, hy⟩ := h.before i (by omega)
      have hx : read b i = some c := hx
      have hy : read b' i = some c := hy
      simp only [strcmpLoop, hx, hy, Option.bind_eq_bind, Option.bind_some]
      rw [if_pos ⟨hc, hc, trivial⟩]
      exact ih (i + 1) (by omega) (by omega)

theorem strcmp_stop {k : ℕ} {x y : UInt8} (h : StopsAt (bytesOf b) (bytesOf b') k x y) :
    strcmp b b' = some ((x.toNat : ℤ) - y.toNat) := by
  have hk : k < n := by
    by_contra hout
    have hread : read b k = none := by
      rw [CheckedBuffers.read, if_pos (by omega), Int.toNat_natCast, Vector.getElem?_eq_none (by omega)]
    have hfirst : read b k = some x := h.first
    rw [hread] at hfirst
    cases hfirst
  exact strcmpLoop_stop h (n + 1) 0 (Nat.zero_le k) (by omega)

/-- `strcmp` stays inside the two strings and has the sign of their order. -/
theorem strcmp_signs (hs : Holds b s) (ht : Holds b' t) :
    ∃ d, strcmp b b' = some d ∧ Signs d s t := by
  obtain ⟨k, x, y, hstop, hsigns⟩ := exists_stopsAt hs.nonzero ht.nonzero
  exact ⟨_, strcmp_stop (hstop.of_holds hs ht), hsigns⟩

/-- It is zero on equal ones only. -/
theorem strcmp_eq (hs : Holds b s) (ht : Holds b' t) :
    ∃ d, strcmp b b' = some d ∧ (d = 0 ↔ s = t) := by
  obtain ⟨d, hd, hsigns⟩ := strcmp_signs hs ht
  exact ⟨d, hd, hsigns.zero⟩

end Comparison

theorem strncpyLoop_eq {src : Vector UInt8 m} {t : List UInt8} (h : Holds src t) {k : ℕ}
    (htk : t.length ≤ k) (hkn : k ≤ n) :
    ∀ (r fuel i : ℕ) (dest : Vector UInt8 n), i + r = t.length → r < fuel →
      ∃ dest', strncpyLoop src k fuel i dest = some (dest', (t.length : ℤ)) ∧
        ∀ j, elem dest' j = if i ≤ j ∧ j < t.length then elem src j else elem dest j
  | r, 0, _, _, _, hfuel => absurd hfuel (Nat.not_lt_zero r)
  | 0, fuel + 1, i, dest, hi, _ => by
    obtain rfl : i = t.length := by omega
    refine ⟨dest, ?_, fun j => by rw [if_neg (by omega)]⟩
    by_cases hk : t.length < k
    · simp [strncpyLoop, hk, read_natCast src h.fits, h.terminator]
    · simp [strncpyLoop, hk]
  | r + 1, fuel + 1, i, dest, hi, hfuel => by
    have hm := h.fits
    have hc := h.elem_ne_zero (show i < t.length by omega)
    have hik : (i : ℤ) < k := by omega
    obtain ⟨d, hw, hd⟩ := write_eq dest (elem src i) (show 0 ≤ (i : ℤ) by omega) (by omega)
    obtain ⟨dest', hrest, hdest'⟩ :=
      strncpyLoop_eq h htk hkn r fuel (i + 1) d (by omega) (by omega)
    refine ⟨dest', ?_, fun j => ?_⟩
    · simpa [strncpyLoop, hik, read_natCast src (show i < m by omega), hc, hw] using hrest
    · rw [hdest', hd]
      by_cases hj : i = j
      · subst hj
        rw [if_neg (by omega), if_pos rfl, if_pos (by omega)]
      · by_cases hr : i + 1 ≤ j ∧ j < t.length
        · rw [if_pos hr, if_pos (by omega)]
        · rw [if_neg hr, if_neg (by omega), if_neg (by omega)]

/-- Below its bound the loop of `strncpy` is the loop of `strcpy`. -/
theorem strcpyLoop_of_strncpyLoop {src : Vector UInt8 m} {k : ℤ} :
    ∀ (fuel : ℕ) (i : ℤ) (dest : Vector UInt8 n) {dest' : Vector UInt8 n} {r : ℤ},
      strncpyLoop src k fuel i dest = some (dest', r) → r < k →
      strcpyLoop src fuel i dest = some (dest', r)
  | 0, _, _, _, _, h, _ => nomatch h
  | fuel + 1, i, dest, dest', r, h, hr => by
    rw [strncpyLoop] at h
    by_cases hik : i < k
    · rw [if_pos hik] at h
      cases hc : read src i with
      | none => simp [hc] at h
      | some c =>
        by_cases hc0 : c = 0
        · simpa [strcpyLoop, hc, hc0] using h
        · cases hw : write dest i c with
          | none => simp [hc, hc0, hw] at h
          | some d =>
            have hloop : strncpyLoop src k fuel (i + 1) d = some (dest', r) := by
              simpa [hc, hc0, hw] using h
            simpa [strcpyLoop, hc, hc0, hw] using strcpyLoop_of_strncpyLoop fuel _ d hloop hr
    · rw [if_neg hik] at h
      have hri : i = r := by simpa using congrArg (fun o => o.map Prod.snd) h
      omega

/-- A copy that fits holds the string. -/
theorem strcpy_eq (dest : Vector UInt8 n) {src : Vector UInt8 m} {t : List UInt8}
    (h : Holds src t) (hfit : t.length < n) :
    ∃ dest', strcpy dest src = some dest' ∧ Holds dest' t := by
  have hm := h.fits
  obtain ⟨d, hcopy, hd⟩ := strncpyLoop_eq h (show t.length ≤ t.length + 1 by omega) (by omega)
    t.length (m + 1) 0 dest (by omega) (by omega)
  have hloop : strcpyLoop src (m + 1) 0 dest = some (d, (t.length : ℤ)) :=
    strcpyLoop_of_strncpyLoop (m + 1) 0 dest hcopy (by omega)
  obtain ⟨dest', hw, hdest'⟩ := write_eq d 0 (show 0 ≤ (t.length : ℤ) by omega) (by omega)
  refine ⟨dest', ?_, hfit, fun i hi => ?_, h.nonzero, ?_⟩
  · simp [strcpy, hloop, hw]
  · rw [hdest', if_neg (by omega), hd, if_pos ⟨by omega, hi⟩, h.bytes i hi]
  · rw [hdest', if_pos rfl]

/-- The string, then zeros up to `k`; the rest of the array stays. -/
theorem strncpy_eq (dest : Vector UInt8 n) {src : Vector UInt8 m} {t : List UInt8}
    (h : Holds src t) {k : ℕ} (htk : t.length ≤ k) (hkn : k ≤ n) :
    ∃ dest', strncpy dest src k = some dest' ∧
      ∀ j, elem dest' j =
        if j < t.length then elem src j else if j < k then 0 else elem dest j := by
  have hm := h.fits
  obtain ⟨d, hcopy, hd⟩ := strncpyLoop_eq h htk hkn t.length (m + 1) 0 dest (by omega) (by omega)
  have hloop : strncpyLoop src k (m + 1) 0 dest = some (d, (t.length : ℤ)) := hcopy
  have hzeros : ∃ dest', forUpM t.length k (fun i dest => write dest i 0) d = some dest' ∧
      ∀ j, elem dest' j = if t.length ≤ j ∧ (j : ℤ) < k then 0 else elem d j := by
    apply forUpM_invariant (fun i b => ∀ j, elem b j = if t.length ≤ j ∧ (j : ℤ) < i then 0 else elem d j)
    · omega
    · intro j
      rw [if_neg (by omega)]
    intro i b hlo hhi hb
    obtain ⟨b', hw, hb'⟩ := write_eq b 0 (show 0 ≤ i by omega) (by omega)
    refine ⟨b', hw, fun j => ?_⟩
    rw [hb', hb]
    by_cases hj : (j : ℤ) = i
    · rw [if_pos hj, if_pos (by omega)]
    · rw [if_neg hj]
      by_cases hr : t.length ≤ j ∧ (j : ℤ) < i
      · rw [if_pos hr, if_pos (by omega)]
      · rw [if_neg hr, if_neg (by omega)]
  obtain ⟨dest', hpad, hdest'⟩ := hzeros
  refine ⟨dest', ?_, fun j => ?_⟩
  · simp [strncpy, hloop, hpad]
  · rw [hdest', hd]
    by_cases hj : j < t.length
    · rw [if_neg (by omega), if_pos (by omega), if_pos hj]
    · by_cases hjk : j < k
      · rw [if_pos (by omega), if_neg hj, if_pos hjk]
      · rw [if_neg (by omega), if_neg (by omega), if_neg hj, if_neg hjk]

end BinOs.MemoryStrings
