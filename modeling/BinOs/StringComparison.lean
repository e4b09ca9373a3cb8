import BinOs.MemoryComparison
import BinOs.MemoryStrings

/-! # The order of the comparisons

One loop stops at a terminator, one also after so many bytes, and one after so many bytes
only. All of them stop at the first difference, and compare as lists of unsigned bytes
compare. -/
namespace BinOs.StringComparison
open CheckedBuffers MemoryComparison MemoryStrings OrderSigns

/-- An array with a terminated string in it. -/
structure CString where
  size : ℕ
  array : Vector UInt8 size
  text : List UInt8
  holds : Holds array text

def CString.ofText (t : List UInt8) (h : ∀ c ∈ t, c ≠ 0) : CString :=
  ⟨t.length + 1, literal t, t, literal_holds h⟩

/-- Nothing before `j` stops a comparison. -/
def Reached (f g : ℕ → Option UInt8) (j : ℕ) : Prop :=
  ∀ i < j, ∃ c, c ≠ 0 ∧ f i = some c ∧ g i = some c

theorem Reached.succ {f g : ℕ → Option UInt8} {j : ℕ} {c : UInt8} (h : Reached f g j)
    (hc : c ≠ 0) (hf : f j = some c) (hg : g j = some c) : Reached f g (j + 1) := by
  intro i hi
  by_cases hij : i = j
  · rw [hij]
    exact ⟨c, hc, hf, hg⟩
  · exact h i (by omega)

variable {n m n' m' k : ℕ} {b : Vector UInt8 n} {b' : Vector UInt8 m} {x y : UInt8}
  {s t : List UInt8}

/-- Where the count ends first, nothing was found to differ. -/
theorem strncmpLoop_stop (h : StopsAt (bytesOf b) (bytesOf b') k x y) (remaining i : ℕ)
    (hi : i ≤ k) : strncmpLoop b b' remaining i =
      some (if k < i + remaining then (x.toNat : ℤ) - y.toNat else 0) := by
  induction remaining generalizing i with
  | zero => rw [strncmpLoop, if_neg (by omega)]
  | succ remaining ih =>
    by_cases hk : i = k
    · subst hk
      have hx : read b i = some x := h.first
      have hy : read b' i = some y := h.second
      simp only [strncmpLoop, hx, hy, Option.bind_eq_bind, Option.bind_some, if_neg h.stop]
      rw [if_pos (by omega)]
    · obtain ⟨c, hc, hx, hy⟩ := h.before i (by omega)
      have hx : read b i = some c := hx
      have hy : read b' i = some c := hy
      have hshift : i + 1 + remaining = i + (remaining + 1) := by omega
      have hrest := ih (i + 1) (by omega)
      rw [hshift] at hrest
      simp only [strncmpLoop, hx, hy, Option.bind_eq_bind, Option.bind_some]
      rw [if_pos ⟨hc, hc, trivial⟩]
      exact hrest

/-- The loop depends on no byte behind the count, a difference or a terminator. -/
theorem strncmpLoop_local {u : Vector UInt8 n'} {v : Vector UInt8 m'} (remaining i : ℕ)
    (hi : Reached (bytesOf b) (bytesOf b') i)
    (hsame : ∀ j < i + remaining, Reached (bytesOf b) (bytesOf b') j →
      bytesOf u j = bytesOf b j ∧ bytesOf v j = bytesOf b' j) :
    strncmpLoop u v remaining i = strncmpLoop b b' remaining i := by
  induction remaining generalizing i with
  | zero => rfl
  | succ remaining ih =>
    obtain ⟨hu, hv⟩ := hsame i (by omega) hi
    have hu : read u i = read b i := hu
    have hv : read v i = read b' i := hv
    simp only [strncmpLoop, hu, hv, Option.bind_eq_bind]
    cases hx : read b i with
    | none => rfl
    | some x =>
      cases hy : read b' i with
      | none => rfl
      | some y =>
        simp only [Option.bind_some]
        by_cases hgo : x ≠ 0 ∧ y ≠ 0 ∧ x = y
        · rw [if_pos hgo, if_pos hgo]
          obtain ⟨hc, -, rfl⟩ := hgo
          exact ih (i + 1) (hi.succ hc hx hy) fun j hj => hsame j (by omega)
        · rw [if_neg hgo, if_neg hgo]

theorem terminated_take {j : ℕ} (hj : j < n) (t : List UInt8) :
    terminated (t.take n) j = terminated t j := by
  rw [terminated, terminated]
  by_cases hle : t.length ≤ n
  · rw [List.take_of_length_le hle]
  · rw [List.getElem?_append_left (by rw [List.length_take]; omega),
      List.getElem?_append_left (by omega), List.getElem?_take_of_lt hj]

theorem getElem?_of_terminated {j : ℕ} {c : UInt8} (h : terminated t j = some c) (hc : c ≠ 0) :
    t[j]? = some c := by
  rw [terminated] at h
  by_cases hj : j < t.length
  · rwa [List.getElem?_append_left hj] at h
  · rw [List.getElem?_append_right (by omega)] at h
    obtain ⟨hlast, hzero⟩ := List.getElem?_eq_some_iff.mp h
    rw [List.getElem_singleton] at hzero
    exact absurd hzero.symm hc

/-- Before the place where they stop, two strings are the same. -/
theorem take_eq_of_stopsAt (h : StopsAt (terminated s) (terminated t) k x y) (hn : n ≤ k) :
    s.take n = t.take n := by
  refine List.ext_getElem? fun j => ?_
  by_cases hj : j < n
  · obtain ⟨c, hc, hs, ht⟩ := h.before j (by omega)
    rw [List.getElem?_take_of_lt hj, List.getElem?_take_of_lt hj, getElem?_of_terminated hs hc,
      getElem?_of_terminated ht hc]
  · rw [List.getElem?_take_eq_none (by omega), List.getElem?_take_eq_none (by omega)]

/-- `strncmp` answers as `strcmp` does for strings that end after the count. -/
theorem strncmp_eq_strcmp {a b a' b' : CString} (ha : a'.text = a.text.take n)
    (hb : b'.text = b.text.take n) :
    strncmp a.array b.array n = strcmp a'.array b'.array := by
  obtain ⟨k, x, y, hstop, -⟩ := exists_stopsAt a.holds.nonzero b.holds.nonzero
  have hloop := strncmpLoop_stop (hstop.of_holds a.holds b.holds) n 0 (Nat.zero_le k)
  rw [Nat.zero_add] at hloop
  by_cases hk : k < n
  · rw [if_pos hk] at hloop
    have hstop' : StopsAt (terminated a'.text) (terminated b'.text) k x y := by
      rw [ha, hb]
      exact hstop.congr (fun j hj => terminated_take (Nat.lt_of_le_of_lt hj hk) _)
        (fun j hj => terminated_take (Nat.lt_of_le_of_lt hj hk) _)
    exact hloop.trans (strcmp_stop (hstop'.of_holds a'.holds b'.holds)).symm
  · rw [if_neg hk] at hloop
    obtain ⟨d, hd, hzero⟩ := strcmp_eq a'.holds b'.holds
    have hequal : a'.text = b'.text := by
      rw [ha, hb, take_eq_of_stopsAt hstop (Nat.le_of_not_lt hk)]
    rw [hd, hzero.mpr hequal]
    exact hloop

def block (p : ℕ → UInt8) (n : ℕ) : List UInt8 := (List.range n).map p

theorem memcmpLoop_signs (p1 p2 : ℕ → UInt8) (remaining i : ℕ) :
    Signs (memcmpLoop p1 p2 remaining i).1 ((List.range' i remaining).map p1)
      ((List.range' i remaining).map p2) := by
  induction remaining generalizing i with
  | zero => exact Signs.refl []
  | succ remaining ih =>
    rw [List.range'_succ, List.map_cons, List.map_cons, memcmpLoop]
    by_cases hdiff : p1 i ≠ p2 i
    · rw [if_pos hdiff]
      refine Signs.head ?_ hdiff _ _
      by_cases hlt : p1 i < p2 i
      · rw [if_pos hlt]
        exact Signs.of_lt (by decide : (-1 : ℤ) < 0) hlt
      · rw [if_neg hlt]
        have hle := UInt8.not_lt.mp hlt
        exact Signs.of_gt (by decide : (0 : ℤ) < 1) (UInt8.lt_of_le_of_ne hle (Ne.symm hdiff))
    · rw [if_neg hdiff, not_not.mp hdiff]
      exact (ih (i + 1)).cons (p2 i)

theorem memcmp_signs (p1 p2 : ℕ → UInt8) (n : ℕ) :
    Signs (memcmp p1 p2 n).1 (block p1 n) (block p2 n) := by
  rw [block, block, List.range_eq_range']
  exact memcmpLoop_signs p1 p2 n 0

/-- All that was read is equal, but for the last bytes. -/
theorem memcmpLoop_reads_equal (p1 p2 : ℕ → UInt8) (remaining i j : ℕ) (hi : i ≤ j)
    (hj : j + 1 < (memcmpLoop p1 p2 remaining i).2) : p1 j = p2 j := by
  induction remaining generalizing i with
  | zero =>
    rw [memcmpLoop] at hj
    omega
  | succ remaining ih =>
    rw [memcmpLoop] at hj
    split at hj
    · dsimp only at hj
      omega
    · next hsame =>
      by_cases hij : i = j
      · subst hij
        exact not_not.mp hsame
      · exact ih (i + 1) (by omega) hj

/-- The signs are those of the lists of bytes: of two strings, of the first `n` bytes of
each, and of two blocks of `n` bytes. -/
structure OrdersBytes (a b : CString) (n : ℕ) (p1 p2 : ℕ → UInt8) : Prop where
  strings : ∃ d, strcmp a.array b.array = some d ∧ Signs d a.text b.text
  counted : ∃ d, strncmp a.array b.array n = some d ∧ Signs d (a.text.take n) (b.text.take n)
  firstBytes : ∀ a' b' : CString, a'.text = a.text.take n → b'.text = b.text.take n →
    strncmp a.array b.array n = strcmp a'.array b'.array
  blocks : Signs (memcmp p1 p2 n).1 (block p1 n) (block p2 n)

/-- Arrays that have the bytes a comparison may reach, and may end behind them, give the same
result without a fault. -/
structure ReadsNoFurther (a b : CString) (n : ℕ) (p1 p2 : ℕ → UInt8) : Prop where
  strings : ∀ {n' m' : ℕ} (u : Vector UInt8 n') (v : Vector UInt8 m'),
    (∀ j, Reached (bytesOf a.array) (bytesOf b.array) j →
      bytesOf u j = bytesOf a.array j ∧ bytesOf v j = bytesOf b.array j) →
    strcmp u v = strcmp a.array b.array
  counted : ∀ {n' m' : ℕ} (u : Vector UInt8 n') (v : Vector UInt8 m'),
    (∀ j < n, Reached (bytesOf a.array) (bytesOf b.array) j →
      bytesOf u j = bytesOf a.array j ∧ bytesOf v j = bytesOf b.array j) →
    strncmp u v n = strncmp a.array b.array n
  blocks : (memcmp p1 p2 n).2 ≤ n ∧ ∀ j, j + 1 < (memcmp p1 p2 n).2 → p1 j = p2 j

structure TotallyOrders (a b c : CString) : Prop where
  antisymmetric : ∀ d e, strcmp a.array b.array = some d → strcmp b.array a.array = some e →
    e.sign = -d.sign
  transitive : ∀ d e f, strcmp a.array b.array = some d → strcmp b.array c.array = some e →
    strcmp a.array c.array = some f → d ≤ 0 → e ≤ 0 → f ≤ 0

theorem strcmp_signs_of_eq {a b : CString} {d : ℤ} (h : strcmp a.array b.array = some d) :
    Signs d a.text b.text := by
  obtain ⟨e, he, hsigns⟩ := strcmp_signs a.holds b.holds
  rw [h] at he
  cases he
  exact hsigns

theorem totallyOrders (a b c : CString) : TotallyOrders a b c where
  antisymmetric := fun _ _ hd he => (strcmp_signs_of_eq hd).sign_swap (strcmp_signs_of_eq he)
  transitive := fun _ _ _ hd he hf =>
    (strcmp_signs_of_eq hd).nonpos_trans (strcmp_signs_of_eq he) (strcmp_signs_of_eq hf)

/-- All three comparisons realise the order of lists of unsigned bytes, none reads behind the
place that decides, and `strcmp` orders all strings. -/
theorem comparisons_agree (a b c : CString) (n : ℕ) (p1 p2 : ℕ → UInt8) :
    OrdersBytes a b n p1 p2 ∧ ReadsNoFurther a b n p1 p2 ∧ TotallyOrders a b c := by
  refine ⟨?_, ?_, totallyOrders a b c⟩
  · constructor
    case strings => exact strcmp_signs a.holds b.holds
    case firstBytes => exact fun a' b' ha hb => strncmp_eq_strcmp ha hb
    case blocks => exact memcmp_signs p1 p2 n
    case counted =>
      let a' := CString.ofText (a.text.take n) fun c hc =>
        a.holds.nonzero c (List.mem_of_mem_take hc)
      let b' := CString.ofText (b.text.take n) fun c hc =>
        b.holds.nonzero c (List.mem_of_mem_take hc)
      have hsame : strncmp a.array b.array n = strcmp a'.array b'.array :=
        strncmp_eq_strcmp rfl rfl
      rw [hsame]
      exact strcmp_signs a'.holds b'.holds
  · constructor
    case counted =>
      intro n' m' u v hsame
      refine strncmpLoop_local n 0 (fun i hi => absurd hi (Nat.not_lt_zero i)) fun j hj => ?_
      exact hsame j (by omega)
    case blocks =>
      exact ⟨memcmp_reads_le, fun j hj => memcmpLoop_reads_equal p1 p2 n 0 j (Nat.zero_le j) hj⟩
    case strings =>
      intro n' m' u v hsame
      obtain ⟨k, x, y, hstop, -⟩ := exists_stopsAt a.holds.nonzero b.holds.nonzero
      have hstop := hstop.of_holds a.holds b.holds
      have hreached : ∀ j ≤ k, Reached (bytesOf a.array) (bytesOf b.array) j :=
        fun j hj i hi => hstop.before i (by omega)
      have hstop' := hstop.congr (fun j hj => (hsame j (hreached j hj)).1)
        (fun j hj => (hsame j (hreached j hj)).2)
      rw [strcmp_stop hstop, strcmp_stop hstop']

end BinOs.StringComparison
