import BinOs.SegmentTiling

/-! # Tilings with aligned headers

A release moves no header and drops those it swallows. First fit adds one header
when it carves off a remainder, behind exactly the cells asked for. So headers
whose length is a multiple of `d` stay at multiples of `d` as long as every size
behind which a remainder is carved is one. -/
namespace BinOs.SegmentTiling

variable {h : ℕ}

variable (h) in
/-- The addresses of the headers. -/
def addresses (a : ℕ) (bs : List Segment) : List ℕ := (placed h a bs).map Prod.fst

@[simp] theorem addresses_cons (a : ℕ) (b : Segment) (bs : List Segment) :
    addresses h a (b :: bs) = a :: addresses h (a + h + b.size) bs := rfl

theorem addresses_mergeFrom_sublist (a : ℕ) (b : Segment) (cs : List Segment) :
    (addresses h a (mergeFrom h b cs)).Sublist (addresses h a (b :: cs)) := by
  induction cs generalizing a b with
  | nil => exact List.Sublist.refl _
  | cons c cs ih =>
    rw [mergeFrom]
    split_ifs with hf
    · -- the header of `c` is swallowed
      have hmerge := ih a ⟨b.size + c.size + h, true⟩
      have haddr : a + h + (b.size + c.size + h) = a + h + b.size + h + c.size := by omega
      rw [addresses_cons, haddr] at hmerge
      exact hmerge.trans ((List.sublist_cons_self _ _).cons_cons a)
    · exact (ih _ c).cons_cons a

theorem addresses_mergeAll_sublist (a : ℕ) (bs : List Segment) :
    (addresses h a (mergeAll h bs)).Sublist (addresses h a bs) := by
  cases bs with
  | nil => exact List.Sublist.refl _
  | cons b bs => exact addresses_mergeFrom_sublist a b bs

theorem addresses_freeAt (p a : ℕ) (bs : List Segment) :
    addresses h a (freeAt h p a bs) = addresses h a bs := by
  induction bs generalizing a with
  | nil => rfl
  | cons b bs ih =>
    rw [freeAt]
    split_ifs
    · rfl
    · rw [addresses_cons, addresses_cons, ih]

namespace Tiling

variable {lo hi d n p : ℕ} {T : Tiling h lo hi}

/-- Every header lies at a multiple of `d`. -/
def Aligned (d : ℕ) (T : Tiling h lo hi) : Prop := ∀ x ∈ T.placed, d ∣ x.1

theorem aligned_iff_addresses : T.Aligned d ↔ ∀ p ∈ addresses h lo T.segments, d ∣ p := by
  simp [Aligned, addresses, placed]

/-- First fit of `n` cells takes a segment that leaves a remainder. -/
def Carves (T : Tiling h lo hi) (n : ℕ) : Prop :=
  ∃ p b, T.firstFit n = some p ∧ (p, b) ∈ T.placed ∧ n + h < b.size

theorem Aligned.release (hT : T.Aligned d) (p : ℕ) : (T.release p).Aligned d := by
  rw [aligned_iff_addresses] at hT ⊢
  intro q hq
  have hmem := (addresses_mergeAll_sublist lo _).subset hq
  rw [addresses_freeAt] at hmem
  exact hT q hmem

/-- The segment that first fit takes, and what stands in its place. -/
theorem placed_reserve (hp : T.firstFit n = some p) :
    ∃ b xs ys, T.placed = xs ++ (p, b) :: ys ∧
      (T.reserve n).placed = xs ++ SegmentTiling.placed h p (carve h n b) ++ ys := by
  obtain ⟨pre, b, post, hsegs, rfl, -, -, hres⟩ := firstFitFrom_eq_some hp
  refine ⟨b, SegmentTiling.placed h lo pre,
    SegmentTiling.placed h (lo + extent h pre + h + b.size) post, ?_, ?_⟩
  · rw [placed, hsegs, placed_append, placed_cons]
  · rw [placed, segments_reserve, hres, placed_append, placed_append, extent_append, extent_carve]
    simp only [Nat.add_assoc]

theorem Aligned.reserve (hT : T.Aligned d) (hd : d ∣ h) (hn : T.Carves n → d ∣ n) :
    (T.reserve n).Aligned d := by
  cases hp : T.firstFit n with
  | none => rwa [reserve_of_none hp]
  | some p =>
    obtain ⟨b, xs, ys, hold, hnew⟩ := placed_reserve hp
    have hpmem : (p, b) ∈ T.placed := by simp [hold]
    have hpd : d ∣ p := hT _ hpmem
    intro x hx
    rw [hnew, List.mem_append, List.mem_append] at hx
    rcases hx with (hx | hx) | hx
    · exact hT x (by simp [hold, hx])
    · rw [carve] at hx
      split_ifs at hx with hs
      · rcases List.mem_cons.mp hx with rfl | hx
        · exact hpd
        · obtain rfl := List.mem_singleton.mp hx
          exact Nat.dvd_add (Nat.dvd_add hpd hd) (hn ⟨p, b, hp, hpmem, hs⟩)
      · obtain rfl := List.mem_singleton.mp hx
        exact hpd
    · exact hT x (by simp [hold, hx])

/-- A segment that does not end the interval has a right neighbour. -/
theorem exists_next {x : ℕ × Segment} (hx : x ∈ T.placed) (hlt : x.1 + h + x.2.size < hi) :
    ∃ y ∈ T.placed, y.1 = x.1 + h + x.2.size := by
  obtain ⟨pre, post, hsegs, hx1⟩ := mem_placed_iff.mp hx
  cases post with
  | nil =>
    have hfills := T.fills
    rw [hsegs, extent_append, extent_cons, extent_nil] at hfills
    omega
  | cons c post =>
    refine ⟨(x.1 + h + x.2.size, c), ?_, rfl⟩
    rw [placed, hsegs, placed_append, ← hx1]
    simp

/-- What is carved off for `n` cells is in use, has size `n` and does not end the interval. -/
theorem Carves.used (hc : T.Carves n) (hh : 0 < h) :
    ∃ p b, T.firstFit n = some p ∧ (p, b) ∈ T.placed ∧
      (p, ⟨n, false⟩) ∈ (T.reserve n).used ∧ p + h + n < hi := by
  obtain ⟨p, b, hp, hmem, hs⟩ := hc
  obtain ⟨b', xs, ys, hold, hnew⟩ := placed_reserve hp
  obtain rfl : b' = b :=
    congrArg Prod.snd (placed_unique hh (by simp [hold] : (p, b') ∈ T.placed) hmem rfl)
  have hb := placed_bounds hmem
  simp only at hb
  refine ⟨p, b', hp, hmem, mem_used_iff.mpr ⟨?_, rfl⟩, by omega⟩
  rw [hnew, carve, if_pos hs]
  simp

end Tiling

end BinOs.SegmentTiling
