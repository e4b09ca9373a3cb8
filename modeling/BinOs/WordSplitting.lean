import Mathlib.Data.List.Basic

/-! # Words between separators, and words cut into pieces -/
namespace BinOs.WordSplitting

variable {α : Type} {sep : α → Bool} {n k : ℕ}

/-- The parts of a list between its separators, of which neighbouring ones enclose none. -/
def words (sep : α → Bool) (t : List α) : List (List α) :=
  (t.splitOnP sep).filter fun w => !w.isEmpty

theorem words_nil (sep : α → Bool) : words sep [] = [] := by
  rw [words, List.splitOnP_nil]
  rfl

theorem words_cons {c : α} (hc : sep c = true) (t : List α) : words sep (c :: t) = words sep t := by
  rw [words, List.splitOnP_cons_eq_if_modifyHead, if_pos hc, List.filter_cons_of_neg (by simp)]
  rfl

theorem words_dropWhile (t : List α) : words sep (t.dropWhile sep) = words sep t := by
  induction t with
  | nil => rfl
  | cons c t ih =>
    by_cases hc : sep c = true
    · rw [List.dropWhile_cons_of_pos hc, ih, words_cons hc]
    · rw [List.dropWhile_cons_of_neg hc]

/-- A word at the front, up to a separator or the end. -/
theorem words_append {w rest : List α} (hne : w ≠ []) (hw : ∀ c ∈ w, sep c = false)
    (hrest : ∀ c ∈ rest.head?, sep c = true) : words sep (w ++ rest) = w :: words sep rest := by
  have hkeep : ∀ ws : List (List α), (w :: ws).filter (fun w => !w.isEmpty) =
      w :: ws.filter fun w => !w.isEmpty := by
    intro ws
    apply List.filter_cons_of_pos
    rw [Bool.not_eq_true', List.isEmpty_eq_false_iff]
    exact hne
  cases rest with
  | nil =>
    rw [List.append_nil, words, List.splitOnP_eq_singleton hw, hkeep, words_nil]
    rfl
  | cons c rest =>
    have hc : sep c = true := hrest c rfl
    rw [words_cons hc, words, List.splitOnP_append_cons_of_forall_mem hw c hc, hkeep, words]

theorem mem_splitOnP {w t : List α} (h : w ∈ t.splitOnP sep) : ∀ c ∈ w, sep c = false := by
  induction t generalizing w with
  | nil =>
    rw [List.splitOnP_nil, List.mem_singleton] at h
    rintro c hc
    rw [h] at hc
    cases hc
  | cons d t ih =>
    rw [List.splitOnP_cons_eq_if_modifyHead] at h
    by_cases hd : sep d = true
    · rw [if_pos hd, List.mem_cons] at h
      rcases h with rfl | h
      · rintro c ⟨⟩
      · exact ih h
    · rw [if_neg hd] at h
      obtain ⟨first, rest, hsplit⟩ := List.exists_cons_of_ne_nil (List.splitOnP_ne_nil sep t)
      rw [hsplit, List.modifyHead_cons, List.mem_cons] at h
      rcases h with rfl | h
      · rintro c hc
        rcases List.mem_cons.mp hc with rfl | hc
        · exact Bool.eq_false_iff.mpr hd
        · exact ih (hsplit ▸ List.mem_cons_self) c hc
      · exact ih (hsplit ▸ List.mem_cons_of_mem _ h)

theorem mem_words {w t : List α} (h : w ∈ words sep t) : w ≠ [] ∧ ∀ c ∈ w, sep c = false := by
  obtain ⟨hsplit, hkeep⟩ := List.mem_filter.mp h
  rw [Bool.not_eq_true', List.isEmpty_eq_false_iff] at hkeep
  exact ⟨hkeep, mem_splitOnP hsplit⟩

/-- Successive pieces of `n` elements, the last one perhaps shorter. -/
def pieces (n : ℕ) (w : List α) : List (List α) :=
  (List.range ((w.length + (n - 1)) / n)).map fun i => (w.drop (n * i)).take n

theorem pieces_nil (hn : 0 < n) : pieces n ([] : List α) = [] := by
  have hnone : (([] : List α).length + (n - 1)) / n = 0 :=
    Nat.div_eq_of_lt (by rw [List.length_nil]; omega)
  rw [pieces, hnone]
  rfl

theorem pieces_cons (hn : 0 < n) {w : List α} (hne : w ≠ []) :
    pieces n w = w.take n :: pieces n (w.drop n) := by
  have hpos := List.length_pos_iff.mpr hne
  have hcount : (w.length + (n - 1)) / n = ((w.drop n).length + (n - 1)) / n + 1 := by
    rw [List.length_drop, ← Nat.add_div_right _ hn]
    by_cases hle : n ≤ w.length
    · congr 1
      omega
    · have hrest : w.length - n = 0 := by omega
      rw [hrest, Nat.zero_add, Nat.add_div_right _ hn, Nat.div_eq_of_lt (by omega : n - 1 < n)]
      exact Nat.div_eq_of_lt_le (by omega) (by omega)
  rw [pieces, hcount, List.range_succ_eq_map, List.map_cons, List.map_map, Nat.mul_zero,
    List.drop_zero, pieces]
  congr 1
  apply List.map_congr_left
  intro i _
  rw [Function.comp_apply, List.drop_drop, Nat.mul_succ, Nat.add_comm n]

theorem pieces_of_length_le (hn : 0 < n) {w : List α} (hne : w ≠ []) (hw : w.length ≤ n) :
    pieces n w = [w] := by
  rw [pieces_cons hn hne, List.take_of_length_le hw, List.drop_of_length_le hw, pieces_nil hn]

theorem mem_pieces {w piece : List α} (h : piece ∈ pieces n w) :
    piece.length ≤ n ∧ ∀ c ∈ piece, c ∈ w := by
  obtain ⟨i, -, rfl⟩ := List.mem_map.mp h
  exact ⟨List.length_take_le .., fun c hc => List.mem_of_mem_drop (List.mem_of_mem_take hc)⟩

theorem ne_nil_of_mem_pieces (hn : 0 < n) {w piece : List α} (h : piece ∈ pieces n w) :
    piece ≠ [] := by
  obtain ⟨i, hi, rfl⟩ := List.mem_map.mp h
  have hcount : (i + 1) * n ≤ w.length + (n - 1) :=
    (Nat.le_div_iff_mul_le hn).mp (List.mem_range.mp hi)
  rw [Nat.succ_mul, Nat.mul_comm i] at hcount
  apply List.ne_nil_of_length_pos
  rw [List.length_take, List.length_drop]
  omega

theorem flatMap_pieces_eq (hn : 0 < n) {ws : List (List α)} (hne : ∀ w ∈ ws, w ≠ [])
    (h : ∀ w ∈ ws, w.length ≤ n) : ws.flatMap (pieces n) = ws := by
  induction ws with
  | nil => rfl
  | cons w ws ih =>
    rw [List.flatMap_cons, pieces_of_length_le hn (hne w List.mem_cons_self) (h w List.mem_cons_self),
      ih (fun v hv => hne v (List.mem_cons_of_mem _ hv)) fun v hv => h v (List.mem_cons_of_mem _ hv)]
    rfl

/-- The first `k` pieces are the words themselves just when no limit is met. -/
theorem take_pieces_eq_iff (hn : 0 < n) {ws : List (List α)} (hne : ∀ w ∈ ws, w ≠ []) :
    (ws.flatMap (pieces n)).take k = ws ↔ ws.length ≤ k ∧ ∀ w ∈ ws, w.length ≤ n := by
  constructor
  · intro heq
    constructor
    · rw [← heq]
      exact List.length_take_le ..
    · intro w hw
      rw [← heq] at hw
      obtain ⟨v, -, hpiece⟩ := List.mem_flatMap.mp (List.mem_of_mem_take hw)
      exact (mem_pieces hpiece).1
  · rintro ⟨hlen, hshort⟩
    rw [flatMap_pieces_eq hn hne hshort, List.take_of_length_le hlen]

/-- A separator after each word but the last one. -/
theorem intercalate_eq_flatMap (x : α) (ws : List (List α)) :
    [x].intercalate ws = (List.range ws.length).flatMap fun i =>
      ws.getD i [] ++ if i + 1 < ws.length then [x] else [] := by
  induction ws with
  | nil => rfl
  | cons w ws ih =>
    rw [List.length_cons, List.range_succ_eq_map, List.flatMap_cons, List.flatMap_map]
    simp only [List.getD_cons_zero, List.getD_cons_succ, Nat.add_lt_add_iff_right, Nat.zero_add]
    rw [← ih]
    cases ws with
    | nil =>
      rw [List.intercalate_singleton, List.length_nil, if_neg (Nat.lt_irrefl 1), List.append_nil,
        List.intercalate_nil, List.append_nil]
    | cons v ws =>
      have hmore : 1 < (v :: ws).length + 1 := Nat.succ_lt_succ (Nat.succ_pos ws.length)
      rw [List.intercalate_cons_cons, if_pos hmore]

/-- Words joined by a separator can be told apart again. -/
theorem intercalate_eq_iff [DecidableEq α] {x : α} {ws vs : List (List α)} (hws : ∀ w ∈ ws, x ∉ w)
    (hvs : ∀ v ∈ vs, x ∉ v) (hne : ws ≠ []) (hne' : vs ≠ []) :
    [x].intercalate ws = [x].intercalate vs ↔ ws = vs := by
  refine ⟨fun heq => ?_, congrArg _⟩
  rw [← List.splitOn_intercalate x hws hne, heq, List.splitOn_intercalate x hvs hne']

end BinOs.WordSplitting
