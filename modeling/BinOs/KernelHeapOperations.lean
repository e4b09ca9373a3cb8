import BinOs.KernelHeapRefinement

/-! # The allocator's functions refine first fit, release and the counts

Every function is run from memory that represents a tiling. What it returns and
the tiling it leaves depend on the tiling alone; `Framed` keeps the headers and
payloads of the blocks that stay in use. -/
namespace BinOs.KernelHeap
open LittleEndianStore SegmentTiling

variable {M : HeapMemory}

theorem memcpy_outside (m : Store) (dest src n : ℕ) {k : ℕ} (hk : k < dest ∨ dest + n ≤ k) :
    memcpy m dest src n k = m k := by
  induction n with
  | zero => rfl
  | succ n ih => rw [memcpy, Function.update_of_ne (by omega), ih (by omega)]

/-- Unless the destination begins inside the source, the copy reads what the source held. -/
theorem memcpy_inside (m : Store) {dest src n : ℕ} (hd : dest ≤ src ∨ src + n ≤ dest) {i : ℕ}
    (hi : i < n) : memcpy m dest src n (dest + i) = m (src + i) := by
  induction n with
  | zero => exact absurd hi (Nat.not_lt_zero i)
  | succ n ih =>
    rw [memcpy]
    by_cases hin : i = n
    · rw [hin, Function.update_self, memcpy_outside _ _ _ _ (by omega)]
    · rw [Function.update_of_ne (by omega), ih (by omega) (by omega)]

theorem memset_inside (m : Store) (s c : ℕ) {n i : ℕ} (hi : i < n) :
    memset m s c n (s + i) = UInt8.ofNat c := by
  induction n with
  | zero => exact absurd hi (Nat.not_lt_zero i)
  | succ n ih =>
    rw [memset]
    by_cases hin : i = n
    · rw [hin, Function.update_self]
    · rw [Function.update_of_ne (by omega), ih (by omega)]

theorem memset_outside (m : Store) (s c n : ℕ) {k : ℕ} (hk : k < s ∨ s + n ≤ k) :
    memset m s c n k = m k := by
  induction n with
  | zero => rfl
  | succ n ih => rw [memset, Function.update_of_ne (by omega), ih (by omega)]

/-- `split_block` followed by `is_free = 0` leaves the carved segments in the
place of the free one and writes nowhere else. -/
theorem occupy_headers {m : Store} {a n : ℕ} {b : Segment} (hend : a + sizeofBlock + b.size ≤ M.stop)
    (hb : Header M m a b) (hn : n ≤ b.size) :
    Headers M (setIsFree (splitBlock m a n) a 0) (placed sizeofBlock a (carve sizeofBlock n b)) ∧
      ∀ k, k < a ∨ a + sizeofBlock + b.size ≤ k →
        setIsFree (splitBlock m a n) a 0 k = m k := by
  have hM := M.layout
  rw [splitBlock, wrap_of_lt (by omega), hb.size, carve]
  split_ifs with hs
  · rw [wrapSub_of_le hn (by omega), wrapSub_of_le (by omega) (by omega)]
    set q := a + sizeofBlock + n with hq
    -- the new header is written first, then the two fields of the old one
    set m₂ := setIsFree (setSize m q (b.size - n - sizeofBlock)) q 1 with hm₂
    set m₃ := setNext m₂ q (blockNext m₂ a) with hm₃
    have hold : ∀ k, k < q ∨ q + sizeofBlock ≤ k → m₃ k = m k := by
      intro k hk
      rw [hm₃, setNext_outside _ hk, hm₂, setIsFree_outside _ hk, setSize_outside _ hk]
    have hnext : blockNext m₂ a = M.link (q + sizeofBlock + (b.size - n - sizeofBlock)) := by
      have hkeep : ∀ k, a ≤ k → k < a + sizeofBlock → m₂ k = m k := by
        intro k _ hk
        rw [hm₂, setIsFree_outside _ (by omega), setSize_outside _ (by omega)]
      have haddr : a + sizeofBlock + b.size = q + sizeofBlock + (b.size - n - sizeofBlock) := by
        omega
      rw [blockNext_congr hkeep, hb.next, haddr]
    have hnew : Header M m₃ q ⟨b.size - n - sizeofBlock, true⟩ := by
      refine ⟨?_, ?_, ?_⟩
      · rw [hm₃, blockSize_setNext, hm₂, blockSize_setIsFree, blockSize_setSize _ _ (by omega)]
      · rw [hm₃, blockIsFree_setNext, hm₂, blockIsFree_setIsFree _ _ (by decide)]
        rfl
      · have hlink : M.link (q + sizeofBlock + (b.size - n - sizeofBlock)) < 2 ^ 64 := by
          rw [HeapMemory.link]
          split_ifs <;> omega
        rw [hm₃, hnext, blockNext_setNext _ _ hlink]
    have hout : ∀ k, k < a ∨ a + sizeofBlock ≤ k →
        setIsFree (setNext (setSize m₃ a n) a q) a 0 k = m₃ k := by
      intro k hk
      rw [setIsFree_outside _ hk, setNext_outside _ hk, setSize_outside _ hk]
    refine ⟨?_, fun k hk => (hout k (by omega)).trans (hold k (by omega))⟩
    simp only [placed_cons, placed_nil, headers_cons]
    refine ⟨⟨?_, ?_, ?_⟩, hnew.congr (fun k hk _ => hout k (by omega)), fun x hx => by simp at hx⟩
    · rw [blockSize_setIsFree, blockSize_setNext, blockSize_setSize _ _ (by omega)]
    · rw [blockIsFree_setIsFree _ _ (by decide)]
      rfl
    · rw [blockNext_setIsFree, blockNext_setNext _ _ (by omega), link_of_lt]
      simp only
      omega
  · refine ⟨?_, fun k hk => setIsFree_outside _ (by omega)⟩
    simp only [placed_cons, placed_nil, headers_cons]
    refine ⟨⟨?_, ?_, ?_⟩, fun x hx => by simp at hx⟩
    · rw [blockSize_setIsFree, hb.size]
    · rw [blockIsFree_setIsFree _ _ (by decide)]
      rfl
    · rw [blockNext_setIsFree, hb.next]

/-- What `malloc` returns. -/
def mallocResult (T : HeapTiling M) (n : ℕ) : ℕ :=
  if n = 0 then null else (T.firstFit n).elim null (· + sizeofBlock)

def mallocTiling (T : HeapTiling M) (n : ℕ) : HeapTiling M := if n = 0 then T else T.reserve n

theorem firstFit_ne_null {T : HeapTiling M} {n p : ℕ} (hp : T.firstFit n = some p) : p ≠ null := by
  obtain ⟨pre, b, post, -, rfl, -⟩ := firstFitFrom_eq_some hp
  have hM := M.layout
  omega

theorem malloc_refines {H : Heap} {T : HeapTiling M} (R : Represents M H T) (n : ℕ) :
    ∃ m', malloc M H n = some (mallocResult T n, ⟨m', H.heapStart⟩) ∧
      Represents M ⟨m', H.heapStart⟩ (mallocTiling T n) ∧
      Framed T.used M.base M.stop H.mem m' ∧ (mallocResult T n = null → m' = H.mem) := by
  have hM := M.layout
  by_cases hn : n = 0
  · refine ⟨H.mem, ?_, ?_, Framed.refl _ _ _ _, fun _ => rfl⟩
    · rw [malloc, if_pos hn, mallocResult, if_pos hn]
    · rwa [mallocTiling, if_pos hn]
  have hstart : ¬H.heapStart = null := by
    rw [R.start]
    omega
  simp only [malloc, mallocResult, mallocTiling, if_neg hn, if_neg hstart, findFreeBlock_eq R]
  cases hp : T.firstFit n with
  | none =>
    exact ⟨H.mem, rfl, by rwa [Tiling.reserve_of_none hp], Framed.refl _ _ _ _, fun _ => rfl⟩
  | some p =>
    obtain ⟨pre, b, post, hsegs, hpa, hfit, -, hres⟩ := firstFitFrom_eq_some hp
    simp only [Segment.fits, Bool.and_eq_true, decide_eq_true_eq] at hfit
    have hplaced : T.placed = placed sizeofBlock M.base pre ++
        (p, b) :: placed sizeofBlock (p + sizeofBlock + b.size) post := by
      rw [Tiling.placed, hsegs, placed_append, placed_cons, ← hpa]
    have hpmem : (p, b) ∈ T.placed := by simp [hplaced]
    have hbounds : M.base ≤ p ∧ p + sizeofBlock + b.size ≤ M.stop := Tiling.placed_bounds hpmem
    have hheads := R.headers
    rw [hplaced, headers_append, headers_cons] at hheads
    obtain ⟨hocc, hout⟩ := occupy_headers hbounds.2 hheads.2.1 hfit.2
    refine ⟨setIsFree (splitBlock H.mem p n) p 0, ?_, ⟨R.start, ?_⟩, ?_, ?_⟩
    · simp [firstFit_ne_null hp]
    · rw [Tiling.placed, Tiling.segments_reserve, hres, placed_append, placed_append, headers_append,
        headers_append, extent_append, extent_carve, ← hpa, ← Nat.add_assoc, ← Nat.add_assoc, ← hpa]
      refine ⟨⟨hheads.1.congr fun x hx k hk hk' => hout k (Or.inl ?_), hocc⟩,
        hheads.2.2.congr fun x hx k hk hk' => hout k (Or.inr ?_)⟩
      · have hxe := end_le_of_mem_placed hx
        omega
      · have hxa := le_of_mem_placed hx
        omega
    · intro k hk
      apply hout
      rcases hk with hk | hk | ⟨x, hx, hk, hk'⟩
      · omega
      · omega
      · obtain ⟨hxmem, hxfree⟩ := Tiling.mem_used_iff.mp hx
        rcases placed_disjoint hxmem hpmem with rfl | hd | hd
        · simp [hfit.1] at hxfree
        · simp only at hd
          omega
        · simp only at hd
          omega
    · intro hnull
      simp only [Option.elim_some] at hnull
      omega

/-- A block handed out by `malloc` is new, large enough and clear of the others. -/
theorem mallocResult_ne_null {T : HeapTiling M} {n : ℕ} (hr : mallocResult T n ≠ null) :
    ∃ p s, mallocResult T n = p + sizeofBlock ∧ n ≤ s ∧ T.firstFit n = some p ∧
      mallocTiling T n = T.reserve n ∧ (p, ⟨s, false⟩) ∈ (mallocTiling T n).used ∧
      ∀ x ∈ T.used, x ∈ (mallocTiling T n).used ∧
        (x.1 + sizeofBlock + x.2.size ≤ p ∨ p + sizeofBlock + s ≤ x.1) := by
  by_cases hn : n = 0
  · exact absurd (if_pos hn) hr
  cases hp : T.firstFit n with
  | none => simp [mallocResult, hn, hp] at hr
  | some p =>
    obtain ⟨s, hs, hmem, hothers⟩ := Tiling.mem_used_reserve hp
    exact ⟨p, s, by simp [mallocResult, hn, hp], hs, rfl, by rw [mallocTiling, if_neg hn],
      by rwa [mallocTiling, if_neg hn], by rwa [mallocTiling, if_neg hn]⟩

theorem mallocTiling_of_null {T : HeapTiling M} {n : ℕ} (hr : mallocResult T n = null) :
    mallocTiling T n = T := by
  by_cases hn : n = 0
  · rw [mallocTiling, if_pos hn]
  cases hp : T.firstFit n with
  | none => rw [mallocTiling, if_neg hn, Tiling.reserve_of_none hp]
  | some p =>
    have hM := M.layout
    simp only [mallocResult, if_neg hn, hp, Option.elim_some] at hr
    omega

/-- Bytes stored inside the payload of a used block change no header. -/
theorem Represents.payload_write {H : Heap} {T : HeapTiling M} (R : Represents M H T)
    {x : ℕ × Segment} (hx : x ∈ T.used) {m' : Store}
    (hm : ∀ k, k < x.1 + sizeofBlock ∨ x.1 + sizeofBlock + x.2.size ≤ k → m' k = H.mem k) :
    Represents M ⟨m', H.heapStart⟩ T := by
  refine ⟨R.start, R.headers.congr fun y hy k hk hk' => hm k ?_⟩
  rcases placed_disjoint hy (Tiling.mem_used_iff.mp hx).1 with rfl | hd | hd
  · exact Or.inl (by omega)
  · exact Or.inl (by omega)
  · exact Or.inr (by omega)

theorem used_disjoint {T : HeapTiling M} {x y : ℕ × Segment} (hx : x ∈ T.used) (hy : y ∈ T.used) :
    x = y ∨ x.1 + sizeofBlock + x.2.size ≤ y.1 ∨ y.1 + sizeofBlock + y.2.size ≤ x.1 :=
  placed_disjoint (Tiling.mem_used_iff.mp hx).1 (Tiling.mem_used_iff.mp hy).1

/-- Marking one block free changes its own header and no other. -/
theorem setIsFree_headers {m : Store} {pre post : List Segment} {b : Segment} {a : ℕ}
    (h : Headers M m (placed sizeofBlock a (pre ++ b :: post))) :
    Headers M (setIsFree m (a + extent sizeofBlock pre) 1)
      (placed sizeofBlock a (pre ++ ⟨b.size, true⟩ :: post)) := by
  have hM := M.layout
  rw [placed_append, placed_cons, headers_append, headers_cons] at h ⊢
  obtain ⟨hpre, hb, hpost⟩ := h
  refine ⟨hpre.congr fun y hy k hk hk' => setIsFree_outside _ (Or.inl ?_), ⟨?_, ?_, ?_⟩,
    hpost.congr fun y hy k hk hk' => setIsFree_outside _ (Or.inr ?_)⟩
  · have hye := end_le_of_mem_placed hy
    omega
  · rw [blockSize_setIsFree, hb.size]
  · rw [blockIsFree_setIsFree _ _ (by decide)]
    rfl
  · rw [blockNext_setIsFree, hb.next]
  · have hya := le_of_mem_placed hy
    omega

theorem free_refines {H : Heap} {T : HeapTiling M} (R : Represents M H T) {x : ℕ × Segment}
    (hx : x ∈ T.used) :
    ∃ m', free H (x.1 + sizeofBlock) = some ⟨m', H.heapStart⟩ ∧
      Represents M ⟨m', H.heapStart⟩ (T.release x.1) ∧
      Framed (T.release x.1).used M.base M.stop H.mem m' := by
  have hM := M.layout
  obtain ⟨hxmem, hxfree⟩ := Tiling.mem_used_iff.mp hx
  obtain ⟨pre, post, hsegs, hxa⟩ := mem_placed_iff.mp hxmem
  have hxb := Tiling.placed_bounds hxmem
  set m₁ := setIsFree H.mem x.1 1 with hm₁
  have hmarked : Headers M m₁ (placed sizeofBlock M.base (pre ++ ⟨x.2.size, true⟩ :: post)) := by
    have hheads := R.headers
    rw [Tiling.placed, hsegs] at hheads
    rw [hm₁, hxa]
    exact setIsFree_headers hheads
  have hrel : (T.release x.1).segments =
      mergeAll sizeofBlock (pre ++ ⟨x.2.size, true⟩ :: post) := by
    rw [Tiling.segments_release, hsegs, hxa, freeAt_append sizeofBlock_pos]
  obtain ⟨b, cs, hbc⟩ : ∃ b cs, pre ++ (⟨x.2.size, true⟩ : Segment) :: post = b :: cs := by
    cases pre with
    | nil => exact ⟨_, _, rfl⟩
    | cons b pre => exact ⟨b, _, rfl⟩
  have hend : M.base + extent sizeofBlock (b :: cs) = M.stop := by
    have hfills := T.fills
    rw [hsegs] at hfills
    rw [← hbc, ← hfills]
    simp only [extent_append, extent_cons]
  rw [hbc] at hmarked hrel
  have hfuel : cs.length < heapSize := (Nat.lt_succ_self _).trans (length_lt_heapSize le_rfl hend)
  obtain ⟨m', hrun, hheads, hframe⟩ := coalesceLoop_eq hfuel le_rfl hend hmarked
  refine ⟨m', ?_, ⟨R.start, ?_⟩, ?_⟩
  · have hne : ¬x.1 + sizeofBlock = null := by omega
    rw [free, if_neg hne, Nat.add_sub_cancel, coalesce, R.start, ← hm₁, hrun]
    rfl
  · rw [Tiling.placed, hrel]
    exact hheads
  · have hused : (T.release x.1).used = used sizeofBlock M.base (b :: cs) := by
      rw [Tiling.used, hrel, used_mergeAll]
    intro k hk
    rw [hframe k (hused ▸ hk), hm₁]
    apply setIsFree_outside
    rcases hk with hk | hk | ⟨y, hy, hk, hk'⟩
    · exact Or.inl (by omega)
    · exact Or.inr (by omega)
    · obtain ⟨hyu, hne⟩ := (Tiling.mem_used_release sizeofBlock_pos hx).mp hy
      rcases used_disjoint hyu hx with rfl | hd | hd
      · exact absurd rfl hne
      · exact Or.inl (by omega)
      · exact Or.inr (by omega)

theorem Framed.mono {us vs : List (ℕ × Segment)} {lo hi : ℕ} {m m' : Store}
    (h : Framed us lo hi m m') (hsub : ∀ x ∈ vs, x ∈ us) : Framed vs lo hi m m' := by
  intro k hk
  apply h
  rcases hk with hk | hk | ⟨x, hx, hk⟩
  · exact Or.inl hk
  · exact Or.inr (Or.inl hk)
  · exact Or.inr (Or.inr ⟨x, hsub x hx, hk⟩)

/-- Writes inside a used block that is not among `us` are framed. -/
theorem framed_payload {T : HeapTiling M} {x : ℕ × Segment} (hx : x ∈ T.used)
    {us : List (ℕ × Segment)} (hus : ∀ y ∈ us, y ∈ T.used ∧ y ≠ x) {m m' : Store}
    (hm : ∀ k, k < x.1 + sizeofBlock ∨ x.1 + sizeofBlock + x.2.size ≤ k → m' k = m k) :
    Framed us M.base M.stop m m' := by
  intro k hk
  apply hm
  have hb := Tiling.placed_bounds (Tiling.mem_used_iff.mp hx).1
  rcases hk with hk | hk | ⟨y, hy, hk, hk'⟩
  · exact Or.inl (by omega)
  · exact Or.inr (by omega)
  · rcases used_disjoint (hus y hy).1 hx with hd | hd | hd
    · exact absurd hd (hus y hy).2
    · exact Or.inl (by omega)
    · exact Or.inr (by omega)

theorem calloc_refines {H : Heap} {T : HeapTiling M} (R : Represents M H T) (num size : ℕ) :
    ∃ m', calloc M H num size = some (mallocResult T (wrap (num * size)), ⟨m', H.heapStart⟩) ∧
      Represents M ⟨m', H.heapStart⟩ (mallocTiling T (wrap (num * size))) ∧
      Framed T.used M.base M.stop H.mem m' ∧
      (mallocResult T (wrap (num * size)) = null → m' = H.mem) := by
  obtain ⟨m, hrun, hrep, hframe, hnull⟩ := malloc_refines R (wrap (num * size))
  simp only [calloc, hrun, Option.map_some]
  by_cases hr : mallocResult T (wrap (num * size)) = null
  · exact ⟨m, by rw [if_pos hr], hrep, hframe, hnull⟩
  · obtain ⟨p, s, hres, hs, -, -, hmem, hothers⟩ := mallocResult_ne_null hr
    rw [if_neg hr, hres]
    have hout : ∀ k, k < p + sizeofBlock ∨ p + sizeofBlock + s ≤ k →
        memset m (p + sizeofBlock) 0 (wrap (num * size)) k = m k :=
      fun k hk => memset_outside _ _ _ _ (by omega)
    refine ⟨_, rfl, hrep.payload_write hmem hout, hframe.trans (framed_payload hmem ?_ hout), ?_⟩
    · intro y hy
      obtain ⟨hyu, hd⟩ := hothers y hy
      have hM := M.layout
      refine ⟨hyu, ?_⟩
      rintro rfl
      simp only at hd
      omega
    · intro h
      exact absurd (hres.trans h) hr

/-- What `realloc` returns for the used block `x`. -/
def reallocResult (T : HeapTiling M) (x : ℕ × Segment) (n : ℕ) : ℕ :=
  if n = 0 then null else if n ≤ x.2.size then x.1 + sizeofBlock else mallocResult T n

def reallocTiling (T : HeapTiling M) (x : ℕ × Segment) (n : ℕ) : HeapTiling M :=
  if n = 0 then T.release x.1
  else if n ≤ x.2.size then T
  else if mallocResult T n = null then T
  else (mallocTiling T n).release x.1

/-- A block that grows moves: its bytes are copied before it is released. -/
theorem realloc_moves {H : Heap} {T : HeapTiling M} (R : Represents M H T) {x : ℕ × Segment}
    (hx : x ∈ T.used) {n : ℕ} (hfit : ¬n ≤ x.2.size) (hr : mallocResult T n ≠ null) :
    ∃ m', realloc M H (x.1 + sizeofBlock) n = some (mallocResult T n, ⟨m', H.heapStart⟩) ∧
      Represents M ⟨m', H.heapStart⟩ ((mallocTiling T n).release x.1) ∧
      Framed (T.release x.1).used M.base M.stop H.mem m' ∧
      ∀ i < x.2.size, m' (mallocResult T n + i) = H.mem (x.1 + sizeofBlock + i) := by
  have hM := M.layout
  have hne : ¬x.1 + sizeofBlock = null := by omega
  have hsub : ∀ y ∈ (T.release x.1).used, y ∈ T.used ∧ y ≠ x := by
    intro y hy
    obtain ⟨hyu, hy1⟩ := (Tiling.mem_used_release sizeofBlock_pos hx).mp hy
    exact ⟨hyu, fun he => hy1 (congrArg Prod.fst he)⟩
  have hsize : blockSize H.mem x.1 = x.2.size := (R.headers x (Tiling.mem_used_iff.mp hx).1).size
  obtain ⟨m₁, hrun, hrep, hframe, -⟩ := malloc_refines R n
  obtain ⟨p, s, hres, hs, -, -, hmem, hothers⟩ := mallocResult_ne_null hr
  obtain ⟨hxu, hxd⟩ := hothers x hx
  -- the old header is intact, so exactly its payload is copied
  have hold : blockSize m₁ x.1 = x.2.size := (hrep.headers x (Tiling.mem_used_iff.mp hxu).1).size
  simp only [realloc, if_neg hne, Nat.add_sub_cancel, hsize, if_neg (by omega : ¬n = 0), if_neg hfit,
    hrun, Option.bind_some, if_neg hr, hold, if_pos (Nat.lt_of_not_le hfit)]
  rw [hres]
  set m₂ := memcpy m₁ (p + sizeofBlock) (x.1 + sizeofBlock) x.2.size with hm₂
  have hout : ∀ k, k < p + sizeofBlock ∨ p + sizeofBlock + s ≤ k → m₂ k = m₁ k :=
    fun k hk => memcpy_outside _ _ _ _ (by omega)
  obtain ⟨m', hfree, hrep', hframe'⟩ := free_refines (hrep.payload_write hmem hout) hxu
  refine ⟨m', by rw [hfree]; rfl, hrep', ?_, fun i hi => ?_⟩
  · have hcopy : Framed (T.release x.1).used M.base M.stop m₁ m₂ := by
      refine framed_payload hmem (fun y hy => ?_) hout
      obtain ⟨hyu, hyd⟩ := hothers y (hsub y hy).1
      refine ⟨hyu, ?_⟩
      rintro rfl
      simp only at hyd
      omega
    refine ((hframe.mono (fun y hy => (hsub y hy).1)).trans hcopy).trans
      (hframe'.mono fun y hy => ?_)
    obtain ⟨hyu, hy1⟩ := (Tiling.mem_used_release sizeofBlock_pos hx).mp hy
    exact (Tiling.mem_used_release sizeofBlock_pos hxu).mpr ⟨(hothers y hyu).1, hy1⟩
  · -- `free` leaves the copy alone, and `malloc` left the old block alone
    have hnew : (p, ⟨s, false⟩) ∈ ((mallocTiling T n).release x.1).used :=
      (Tiling.mem_used_release sizeofBlock_pos hxu).mpr ⟨hmem, by simp only; omega⟩
    rw [hframe' _ (Or.inr (Or.inr ⟨_, hnew, by simp only; omega, by simp only; omega⟩))]
    change m₂ _ = _
    rw [hm₂, memcpy_inside m₁ (by omega) hi]
    exact hframe _ (Or.inr (Or.inr ⟨x, hx, by omega, by omega⟩))

theorem realloc_refines {H : Heap} {T : HeapTiling M} (R : Represents M H T) {x : ℕ × Segment}
    (hx : x ∈ T.used) (n : ℕ) :
    ∃ m', realloc M H (x.1 + sizeofBlock) n = some (reallocResult T x n, ⟨m', H.heapStart⟩) ∧
      Represents M ⟨m', H.heapStart⟩ (reallocTiling T x n) ∧
      Framed (T.release x.1).used M.base M.stop H.mem m' ∧
      (n ≠ 0 → reallocResult T x n = null → m' = H.mem) := by
  have hM := M.layout
  have hne : ¬x.1 + sizeofBlock = null := by omega
  have hsize : blockSize H.mem x.1 = x.2.size := (R.headers x (Tiling.mem_used_iff.mp hx).1).size
  rw [reallocResult, reallocTiling]
  by_cases hn : n = 0
  · obtain ⟨m', hrun, hrep, hframe⟩ := free_refines R hx
    simp only [realloc, if_neg hne, if_pos hn, hrun, Option.map_some]
    exact ⟨m', rfl, hrep, hframe, fun h => absurd hn h⟩
  by_cases hfit : n ≤ x.2.size
  · simp only [realloc, if_neg hne, Nat.add_sub_cancel, hsize, if_neg hn, if_pos hfit]
    exact ⟨H.mem, rfl, R, Framed.refl _ _ _ _, fun _ _ => rfl⟩
  by_cases hr : mallocResult T n = null
  · obtain ⟨m₁, hrun, hrep, hframe, hnull⟩ := malloc_refines R n
    simp only [realloc, if_neg hne, Nat.add_sub_cancel, hsize, if_neg hn, if_neg hfit, hrun,
      Option.bind_some, if_pos hr, mallocTiling_of_null hr] at hrep ⊢
    refine ⟨m₁, rfl, hrep, hframe.mono fun y hy => ?_, fun _ => hnull⟩
    exact ((Tiling.mem_used_release sizeofBlock_pos hx).mp hy).1
  · obtain ⟨m', hrun, hrep, hframe, -⟩ := realloc_moves R hx hfit hr
    rw [if_neg hn, if_neg hfit, if_neg hn, if_neg hfit, if_neg hr]
    exact ⟨m', hrun, hrep, hframe, fun _ h => absurd h hr⟩

def wholeHeap (M : HeapMemory) : HeapTiling M :=
  Tiling.whole (Nat.add_le_add_left (by decide) M.base)

theorem initHeap_represents (M : HeapMemory) (H : Heap) : Represents M (initHeap M H) (wholeHeap M) := by
  have hM := M.layout
  refine ⟨rfl, ?_⟩
  intro x hx
  have hx' : x = (M.base, ⟨M.stop - M.base - sizeofBlock, true⟩) := by
    simpa [wholeHeap, Tiling.whole, Tiling.placed] using hx
  subst hx'
  refine ⟨?_, ?_, ?_⟩
  · simp only [initHeap, blockSize_setNext, blockSize_setIsFree]
    rw [blockSize_setSize _ _ (by decide)]
    omega
  · simp only [initHeap, blockIsFree_setNext]
    rw [blockIsFree_setIsFree _ _ (by decide)]
    rfl
  · simp only [initHeap]
    rw [blockNext_setNext _ _ (by decide), HeapMemory.link, if_pos (by omega)]

theorem statsLoop_eq {m : Store} {bs : List Segment} {a fuel u f : ℕ} (hfuel : bs.length < fuel)
    (hbase : M.base ≤ a) (hend : a + extent sizeofBlock bs = M.stop)
    (hm : Headers M m (placed sizeofBlock a bs)) (hu : u + payload false bs < 2 ^ 64)
    (hf : f + payload true bs < 2 ^ 64) :
    statsLoop m fuel (M.link a) u f = some (u + payload false bs, f + payload true bs) := by
  have hM := M.layout
  induction bs generalizing a fuel u f with
  | nil =>
    obtain ⟨fuel, rfl⟩ := Nat.exists_eq_succ_of_ne_zero (Nat.ne_zero_of_lt hfuel)
    have ha : a = M.stop := by simpa using hend
    rw [ha, link_stop]
    rfl
  | cons b bs ih =>
    obtain ⟨fuel, rfl⟩ := Nat.exists_eq_succ_of_ne_zero (Nat.ne_zero_of_lt hfuel)
    rw [placed_cons, headers_cons] at hm
    rw [extent_cons] at hend
    rw [payload] at hu hf
    rw [link_of_lt (by omega), statsLoop, if_neg (by omega), hm.1.isFree, hm.1.size, hm.1.next]
    rw [payload, payload]
    cases hbf : b.free <;> simp only [hbf, if_true, if_false, Bool.toNat_false, Bool.toNat_true,
      reduceCtorEq, ne_eq, not_true_eq_false, one_ne_zero, not_false_eq_true] at hu hf ⊢
    · rw [wrap_of_lt (by omega), ih (by simpa using hfuel) (by omega) (by omega) hm.2 (by omega)
        (by omega)]
      simp only [Option.some.injEq, Prod.mk.injEq]
      omega
    · rw [wrap_of_lt (by omega), ih (by simpa using hfuel) (by omega) (by omega) hm.2 (by omega)
        (by omega)]
      simp only [Option.some.injEq, Prod.mk.injEq]
      omega

theorem getHeapStats_eq {H : Heap} {T : HeapTiling M} (R : Represents M H T) :
    getHeapStats H = some (heapSize, payload false T.segments, payload true T.segments) := by
  have hM := M.layout
  have hsum := payload_add_headers (h := sizeofBlock) T.segments
  have hfills := T.fills
  have hloop := statsLoop_eq (u := 0) (f := 0) (length_lt_heapSize le_rfl T.fills) le_rfl T.fills
    R.headers (by omega) (by omega)
  rw [link_of_lt (by simp)] at hloop
  rw [getHeapStats, R.start, if_neg (by omega), hloop]
  simp

end BinOs.KernelHeap
