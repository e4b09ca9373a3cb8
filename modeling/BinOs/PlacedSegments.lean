import Mathlib.Data.List.Chain
import Mathlib.Data.Nat.Notation

/-! # Headed segments laid end to end

A segment is a header of `h` cells followed by a payload of `size` cells, and is used or free.
One pass from the left merges every run of free segments and leaves the used ones where they
are. -/
namespace BinOs.SegmentTiling

structure Segment where
  size : ℕ
  free : Bool
  deriving DecidableEq, Repr

variable (h : ℕ)

/-- Cells covered by a list of segments, headers included. -/
def extent : List Segment → ℕ
  | [] => 0
  | b :: bs => h + b.size + extent bs

/-- The segments paired with the addresses of their headers. -/
def placed : ℕ → List Segment → List (ℕ × Segment)
  | _, [] => []
  | a, b :: bs => (a, b) :: placed (a + h + b.size) bs

/-- Payload cells of the free, or of the used, segments. -/
def payload (free : Bool) : List Segment → ℕ
  | [] => 0
  | b :: bs => (if b.free = free then b.size else 0) + payload free bs

/-- No two neighbours are both free. -/
def Merged (bs : List Segment) : Prop := bs.IsChain (fun b c => ¬(b.free = true ∧ c.free = true))

/-- The placed segments that are in use. -/
def used (a : ℕ) (bs : List Segment) : List (ℕ × Segment) :=
  (placed h a bs).filter (fun x => !x.2.free)

@[simp] theorem extent_nil : extent h [] = 0 := rfl
@[simp] theorem extent_cons (b : Segment) (bs : List Segment) :
    extent h (b :: bs) = h + b.size + extent h bs := rfl

@[simp] theorem extent_append (xs ys : List Segment) :
    extent h (xs ++ ys) = extent h xs + extent h ys := by
  induction xs with
  | nil => simp
  | cons b xs ih => simp [ih]; omega

theorem payload_add_headers (bs : List Segment) :
    payload false bs + payload true bs + h * bs.length = extent h bs := by
  induction bs with
  | nil => simp [payload]
  | cons b bs ih =>
    rw [payload, payload, List.length_cons, Nat.mul_succ, extent_cons, ← ih]
    cases b.free <;> simp <;> omega

theorem length_mul_le_extent (bs : List Segment) : bs.length * h ≤ extent h bs := by
  induction bs with
  | nil => simp
  | cons b bs ih =>
    rw [List.length_cons, Nat.succ_mul, extent_cons]
    omega

@[simp] theorem placed_nil (a : ℕ) : placed h a [] = [] := rfl
@[simp] theorem placed_cons (a : ℕ) (b : Segment) (bs : List Segment) :
    placed h a (b :: bs) = (a, b) :: placed h (a + h + b.size) bs := rfl

@[simp] theorem placed_append (a : ℕ) (xs ys : List Segment) :
    placed h a (xs ++ ys) = placed h a xs ++ placed h (a + extent h xs) ys := by
  induction xs generalizing a with
  | nil => simp
  | cons b xs ih => simp [ih, Nat.add_assoc]

variable {h}

theorem mem_placed_iff {a : ℕ} {bs : List Segment} {x : ℕ × Segment} :
    x ∈ placed h a bs ↔ ∃ pre post, bs = pre ++ x.2 :: post ∧ x.1 = a + extent h pre := by
  constructor
  · intro hx
    induction bs generalizing a with
    | nil => simp at hx
    | cons b bs ih =>
      rcases List.mem_cons.mp hx with rfl | hx
      · exact ⟨[], bs, rfl, by simp⟩
      · obtain ⟨pre, post, rfl, ha⟩ := ih hx
        exact ⟨b :: pre, post, rfl, by rw [ha, extent_cons]; omega⟩
  · rintro ⟨pre, post, rfl, ha⟩
    simp [← ha]

theorem le_of_mem_placed {a : ℕ} {bs : List Segment} {x : ℕ × Segment} (hx : x ∈ placed h a bs) :
    a ≤ x.1 := by
  obtain ⟨pre, post, rfl, ha⟩ := mem_placed_iff.mp hx
  omega

theorem end_le_of_mem_placed {a : ℕ} {bs : List Segment} {x : ℕ × Segment}
    (hx : x ∈ placed h a bs) : x.1 + h + x.2.size ≤ a + extent h bs := by
  obtain ⟨pre, post, rfl, ha⟩ := mem_placed_iff.mp hx
  simp only [extent_append, extent_cons]
  omega

theorem placed_pairwise (a : ℕ) (bs : List Segment) :
    (placed h a bs).Pairwise (fun x y => x.1 + h + x.2.size ≤ y.1) := by
  induction bs generalizing a with
  | nil => simp
  | cons b bs ih =>
    rw [placed_cons, List.pairwise_cons]
    exact ⟨fun y hy => le_of_mem_placed hy, ih _⟩

theorem placed_map_snd (a : ℕ) (bs : List Segment) : (placed h a bs).map Prod.snd = bs := by
  induction bs generalizing a with
  | nil => rfl
  | cons b bs ih => simp [ih]

theorem placed_adjacent (a : ℕ) (bs : List Segment) :
    (placed h a bs).IsChain (fun x y => y.1 = x.1 + h + x.2.size) := by
  induction bs generalizing a with
  | nil => exact List.isChain_nil
  | cons b bs ih =>
    cases bs with
    | nil => exact List.isChain_singleton _
    | cons c bs => exact List.isChain_cons_cons.mpr ⟨rfl, ih _⟩

theorem placed_getLast? (a : ℕ) (bs : List Segment) :
    ∀ x ∈ (placed h a bs).getLast?, x.1 + h + x.2.size = a + extent h bs := by
  induction bs generalizing a with
  | nil => simp
  | cons b bs ih =>
    intro x hx
    cases bs with
    | nil =>
      have hxb : (a, b) = x := by simpa using hx
      simp only [← hxb, extent_cons, extent_nil]
      omega
    | cons c bs =>
      rw [placed_cons, placed_cons, List.getLast?_cons_cons, ← placed_cons] at hx
      rw [ih _ x hx]
      simp only [extent_cons]
      omega

/-- Two placed segments are one and the same or do not overlap. -/
theorem placed_disjoint {a : ℕ} {bs : List Segment} {x y : ℕ × Segment}
    (hx : x ∈ placed h a bs) (hy : y ∈ placed h a bs) :
    x = y ∨ x.1 + h + x.2.size ≤ y.1 ∨ y.1 + h + y.2.size ≤ x.1 := by
  induction bs generalizing a with
  | nil => simp at hx
  | cons b bs ih =>
    rcases List.mem_cons.mp hx with rfl | hx <;> rcases List.mem_cons.mp hy with rfl | hy
    · exact Or.inl rfl
    · exact Or.inr (Or.inl (le_of_mem_placed hy))
    · exact Or.inr (Or.inr (le_of_mem_placed hx))
    · exact ih hx hy

theorem placed_unique (hh : 0 < h) {a : ℕ} {bs : List Segment} {x y : ℕ × Segment}
    (hx : x ∈ placed h a bs) (hy : y ∈ placed h a bs) (he : x.1 = y.1) : x = y := by
  rcases placed_disjoint hx hy with hxy | hxy | hxy
  · exact hxy
  · omega
  · omega

theorem mem_used_iff {a : ℕ} {bs : List Segment} {x : ℕ × Segment} :
    x ∈ used h a bs ↔ x ∈ placed h a bs ∧ x.2.free = false := by
  simp [used]

@[simp] theorem used_append (a : ℕ) (xs ys : List Segment) :
    used h a (xs ++ ys) = used h a xs ++ used h (a + extent h xs) ys := by
  simp [used]

theorem used_cons_free (a : ℕ) {b : Segment} (bs : List Segment) (hb : b.free = true) :
    used h a (b :: bs) = used h (a + h + b.size) bs := by
  simp [used, hb]

theorem used_cons_used (a : ℕ) {b : Segment} (bs : List Segment) (hb : b.free = false) :
    used h a (b :: bs) = (a, b) :: used h (a + h + b.size) bs := by
  simp [used, hb]

variable (h) in
/-- One pass from the left that absorbs a free neighbour into a free segment. -/
def mergeFrom (b : Segment) : List Segment → List Segment
  | [] => [b]
  | c :: cs =>
    if b.free && c.free then mergeFrom ⟨b.size + c.size + h, true⟩ cs else b :: mergeFrom c cs

variable (h) in
def mergeAll : List Segment → List Segment
  | [] => []
  | b :: bs => mergeFrom h b bs

theorem mergeFrom_head (b : Segment) (cs : List Segment) :
    ∃ c ds, mergeFrom h b cs = c :: ds ∧ c.free = b.free := by
  induction cs generalizing b with
  | nil => exact ⟨b, [], rfl, rfl⟩
  | cons c cs ih =>
    rw [mergeFrom]
    split_ifs with hf
    · obtain ⟨d, ds, hd, hfree⟩ := ih ⟨b.size + c.size + h, true⟩
      simp only [Bool.and_eq_true] at hf
      exact ⟨d, ds, hd, hfree.trans hf.1.symm⟩
    · exact ⟨b, _, rfl, rfl⟩

theorem merged_mergeFrom (b : Segment) (cs : List Segment) : Merged (mergeFrom h b cs) := by
  induction cs generalizing b with
  | nil => exact List.isChain_singleton b
  | cons c cs ih =>
    rw [mergeFrom]
    split_ifs with hf
    · exact ih _
    · obtain ⟨d, ds, hd, hfree⟩ := mergeFrom_head (h := h) c cs
      have hc := ih c
      rw [hd] at hc ⊢
      exact List.isChain_cons_cons.mpr ⟨by simpa [hfree] using hf, hc⟩

theorem extent_mergeFrom (b : Segment) (cs : List Segment) :
    extent h (mergeFrom h b cs) = extent h (b :: cs) := by
  induction cs generalizing b with
  | nil => rfl
  | cons c cs ih =>
    rw [mergeFrom]
    split_ifs with hf
    · rw [ih]
      simp only [extent_cons]
      omega
    · simp only [extent_cons, ih]

/-- Merging neither moves, resizes nor loses a used segment. -/
theorem used_mergeFrom (a : ℕ) (b : Segment) (cs : List Segment) :
    used h a (mergeFrom h b cs) = used h a (b :: cs) := by
  induction cs generalizing a b with
  | nil => rfl
  | cons c cs ih =>
    rw [mergeFrom]
    split_ifs with hf
    · simp only [Bool.and_eq_true] at hf
      rw [ih, used_cons_free a cs rfl, used_cons_free a (c :: cs) hf.1, used_cons_free _ cs hf.2]
      congr 1
      simp only
      omega
    · cases hb : b.free with
      | true => rw [used_cons_free a _ hb, used_cons_free a _ hb, ih]
      | false => rw [used_cons_used a _ hb, used_cons_used a _ hb, ih]

theorem merged_mergeAll (bs : List Segment) : Merged (mergeAll h bs) := by
  cases bs with
  | nil => exact List.isChain_nil
  | cons b bs => exact merged_mergeFrom b bs

@[simp] theorem extent_mergeAll (bs : List Segment) : extent h (mergeAll h bs) = extent h bs := by
  cases bs with
  | nil => rfl
  | cons b bs => exact extent_mergeFrom b bs

@[simp] theorem used_mergeAll (a : ℕ) (bs : List Segment) :
    used h a (mergeAll h bs) = used h a bs := by
  cases bs with
  | nil => rfl
  | cons b bs => exact used_mergeFrom a b bs

end BinOs.SegmentTiling
