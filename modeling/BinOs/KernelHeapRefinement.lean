import BinOs.KernelHeap
import BinOs.SegmentTiling

/-! # The allocator's memory represents a tiling

`Represents` reads the block list out of the bytes of `heap_memory`. Each
function of the allocator is shown to end, to return what first fit on the tiling
returns and to leave memory that represents the next tiling. The bytes that lie
in used blocks or outside the heap are framed in every case. -/
namespace BinOs.KernelHeap
open LittleEndianStore SegmentTiling

/-- One past the last byte of `heap_memory`. -/
abbrev HeapMemory.stop (M : HeapMemory) : ℕ := M.base + heapSize

abbrev HeapTiling (M : HeapMemory) := Tiling sizeofBlock M.base M.stop

/-- The `next` pointer of a block that ends at `e`. -/
def HeapMemory.link (M : HeapMemory) (e : ℕ) : ℕ := if e = M.stop then null else e

structure Header (M : HeapMemory) (m : Store) (p : ℕ) (b : Segment) : Prop where
  size : blockSize m p = b.size
  isFree : blockIsFree m p = b.free.toNat
  next : blockNext m p = M.link (p + sizeofBlock + b.size)

def Headers (M : HeapMemory) (m : Store) (xs : List (ℕ × Segment)) : Prop :=
  ∀ x ∈ xs, Header M m x.1 x.2

structure Represents (M : HeapMemory) (H : Heap) (T : HeapTiling M) : Prop where
  start : H.heapStart = M.base
  headers : Headers M H.mem T.placed

variable {M : HeapMemory}

theorem sizeofBlock_eq : sizeofBlock = 24 := rfl

theorem sizeofBlock_pos : 0 < sizeofBlock := by decide

/-- The numbers behind the names, for linear arithmetic on addresses. -/
theorem HeapMemory.layout (M : HeapMemory) :
    sizeofBlock = 24 ∧ null = 0 ∧ heapSize = 4194304 ∧ M.stop = M.base + heapSize ∧
      0 < M.base ∧ M.stop < 2 ^ 64 :=
  ⟨rfl, rfl, rfl, rfl, M.base_pos, M.fits⟩

theorem link_of_lt {e : ℕ} (he : e < M.stop) : M.link e = e := if_neg (by omega)

@[simp] theorem link_stop : M.link M.stop = null := if_pos rfl

section Fields
variable (m : Store) (p : ℕ)

@[simp] theorem blockSize_setSize {v : ℕ} (hv : v < 2 ^ 64) : blockSize (setSize m p v) p = v :=
  loadLE_storeLE m 8 p (by simpa using hv)

@[simp] theorem blockIsFree_setIsFree {v : ℕ} (hv : v < 2 ^ 32) :
    blockIsFree (setIsFree m p v) p = v :=
  loadLE_storeLE m 4 (p + 8) (by simpa using hv)

@[simp] theorem blockNext_setNext {v : ℕ} (hv : v < 2 ^ 64) : blockNext (setNext m p v) p = v :=
  loadLE_storeLE m 8 (p + 16) (by simpa using hv)

@[simp] theorem blockSize_setIsFree (v : ℕ) : blockSize (setIsFree m p v) p = blockSize m p :=
  loadLE_storeLE_disjoint m v (by omega)

@[simp] theorem blockSize_setNext (v : ℕ) : blockSize (setNext m p v) p = blockSize m p :=
  loadLE_storeLE_disjoint m v (by omega)

@[simp] theorem blockIsFree_setSize (v : ℕ) : blockIsFree (setSize m p v) p = blockIsFree m p :=
  loadLE_storeLE_disjoint m v (by omega)

@[simp] theorem blockIsFree_setNext (v : ℕ) : blockIsFree (setNext m p v) p = blockIsFree m p :=
  loadLE_storeLE_disjoint m v (by omega)

@[simp] theorem blockNext_setSize (v : ℕ) : blockNext (setSize m p v) p = blockNext m p :=
  loadLE_storeLE_disjoint m v (by omega)

@[simp] theorem blockNext_setIsFree (v : ℕ) : blockNext (setIsFree m p v) p = blockNext m p :=
  loadLE_storeLE_disjoint m v (by omega)

variable {m p}

theorem setSize_outside {k : ℕ} (v : ℕ) (hk : k < p ∨ p + sizeofBlock ≤ k) :
    setSize m p v k = m k :=
  storeLE_outside m 8 p v (by rw [sizeofBlock_eq] at hk; omega)

theorem setIsFree_outside {k : ℕ} (v : ℕ) (hk : k < p ∨ p + sizeofBlock ≤ k) :
    setIsFree m p v k = m k :=
  storeLE_outside m 4 (p + 8) v (by rw [sizeofBlock_eq] at hk; omega)

theorem setNext_outside {k : ℕ} (v : ℕ) (hk : k < p ∨ p + sizeofBlock ≤ k) :
    setNext m p v k = m k :=
  storeLE_outside m 8 (p + 16) v (by rw [sizeofBlock_eq] at hk; omega)

theorem blockSize_congr {m' : Store} (he : ∀ k, p ≤ k → k < p + sizeofBlock → m' k = m k) :
    blockSize m' p = blockSize m p :=
  loadLE_congr (fun k hk hk' => he k hk (by rw [sizeofBlock_eq]; omega))

theorem blockIsFree_congr {m' : Store} (he : ∀ k, p ≤ k → k < p + sizeofBlock → m' k = m k) :
    blockIsFree m' p = blockIsFree m p :=
  loadLE_congr (fun k hk hk' => he k (by omega) (by rw [sizeofBlock_eq]; omega))

theorem blockNext_congr {m' : Store} (he : ∀ k, p ≤ k → k < p + sizeofBlock → m' k = m k) :
    blockNext m' p = blockNext m p :=
  loadLE_congr (fun k hk hk' => he k (by omega) (by rw [sizeofBlock_eq]; omega))

end Fields

theorem Header.congr {m m' : Store} {p : ℕ} {b : Segment} (hb : Header M m p b)
    (he : ∀ k, p ≤ k → k < p + sizeofBlock → m' k = m k) : Header M m' p b where
  size := (blockSize_congr he).trans hb.size
  isFree := (blockIsFree_congr he).trans hb.isFree
  next := (blockNext_congr he).trans hb.next

theorem Headers.congr {m m' : Store} {xs : List (ℕ × Segment)} (hx : Headers M m xs)
    (he : ∀ x ∈ xs, ∀ k, x.1 ≤ k → k < x.1 + sizeofBlock → m' k = m k) : Headers M m' xs :=
  fun x hm => (hx x hm).congr (he x hm)

theorem headers_cons {m : Store} {x : ℕ × Segment} {xs : List (ℕ × Segment)} :
    Headers M m (x :: xs) ↔ Header M m x.1 x.2 ∧ Headers M m xs := List.forall_mem_cons

theorem headers_append {m : Store} {xs ys : List (ℕ × Segment)} :
    Headers M m (xs ++ ys) ↔ Headers M m xs ∧ Headers M m ys := List.forall_mem_append

theorem findFreeLoop_eq {m : Store} {n : ℕ} {bs : List Segment} {a fuel : ℕ}
    (hfuel : bs.length < fuel) (hbase : M.base ≤ a) (hend : a + extent sizeofBlock bs = M.stop)
    (hm : Headers M m (placed sizeofBlock a bs)) :
    findFreeLoop m n fuel (M.link a) = some ((firstFitFrom sizeofBlock n a bs).getD null) := by
  have hM := M.layout
  induction bs generalizing a fuel with
  | nil =>
    obtain ⟨fuel, rfl⟩ := Nat.exists_eq_succ_of_ne_zero (Nat.ne_zero_of_lt hfuel)
    have ha : a = M.stop := by simpa using hend
    rw [ha, link_stop]
    rfl
  | cons b bs ih =>
    obtain ⟨fuel, rfl⟩ := Nat.exists_eq_succ_of_ne_zero (Nat.ne_zero_of_lt hfuel)
    rw [placed_cons, headers_cons] at hm
    rw [extent_cons] at hend
    have ha : a ≠ null := by omega
    rw [link_of_lt (by omega), findFreeLoop, if_neg ha, hm.1.isFree, hm.1.size, hm.1.next]
    rw [ih (by simpa using hfuel) (by omega) (by omega) hm.2, firstFitFrom]
    cases hf : b.free <;> by_cases hn : n ≤ b.size <;> simp [Segment.fits, hf, hn]

theorem length_lt_heapSize {bs : List Segment} {a : ℕ} (hbase : M.base ≤ a)
    (hend : a + extent sizeofBlock bs = M.stop) : bs.length < heapSize := by
  have hM := M.layout
  have hlen := length_mul_le_extent (h := sizeofBlock) bs
  rw [hM.1] at hlen hend
  omega

theorem findFreeBlock_eq {H : Heap} {T : HeapTiling M} (R : Represents M H T) (n : ℕ) :
    findFreeBlock H n = some ((T.firstFit n).getD null) := by
  have hloop := findFreeLoop_eq (n := n) (length_lt_heapSize le_rfl T.fills) le_rfl T.fills R.headers
  rw [findFreeBlock, R.start]
  rwa [link_of_lt (by simp)] at hloop

/-- `m'` differs from `m` only inside `[lo, hi)` and outside the used blocks. -/
def Framed (us : List (ℕ × Segment)) (lo hi : ℕ) (m m' : Store) : Prop :=
  ∀ k, (k < lo ∨ hi ≤ k ∨ ∃ x ∈ us, x.1 ≤ k ∧ k < x.1 + sizeofBlock + x.2.size) → m' k = m k

theorem Framed.refl (us : List (ℕ × Segment)) (lo hi : ℕ) (m : Store) : Framed us lo hi m m :=
  fun _ _ => rfl

theorem Framed.trans {us : List (ℕ × Segment)} {lo hi : ℕ} {m₁ m₂ m₃ : Store}
    (h : Framed us lo hi m₁ m₂) (h' : Framed us lo hi m₂ m₃) : Framed us lo hi m₁ m₃ :=
  fun k hk => (h' k hk).trans (h k hk)

theorem wrap_of_lt {n : ℕ} (hn : n < 2 ^ 64) : wrap n = n := Nat.mod_eq_of_lt hn

theorem wrapSub_of_le {a b : ℕ} (hb : b ≤ a) (ha : a < 2 ^ 64) : wrapSub a b = a - b := by
  rw [wrapSub, wrap]
  omega

theorem absorbNext_outside {m : Store} {a k : ℕ} (hk : k < a ∨ a + sizeofBlock ≤ k) :
    absorbNext m a k = m k := by
  rw [absorbNext, setNext_outside _ hk, setSize_outside _ hk]

theorem absorbNext_header {m : Store} {a : ℕ} {b c : Segment} (hbase : M.base ≤ a)
    (hend : a + sizeofBlock + b.size + sizeofBlock + c.size ≤ M.stop)
    (hb : Header M m a b) (hc : Header M m (a + sizeofBlock + b.size) c) (hfree : b.free = true) :
    Header M (absorbNext m a) a ⟨b.size + c.size + sizeofBlock, true⟩ := by
  have hM := M.layout
  have hnext : blockNext m a = a + sizeofBlock + b.size := by
    rw [hb.next, link_of_lt (by omega)]
  have hkeep : ∀ k, a + sizeofBlock + b.size ≤ k → k < a + sizeofBlock + b.size + sizeofBlock →
      setSize m a (b.size + (c.size + sizeofBlock)) k = m k :=
    fun k hk _ => setSize_outside _ (by omega)
  rw [absorbNext, hnext, hb.size, hc.size, wrap_of_lt (by omega : c.size + sizeofBlock < 2 ^ 64),
    wrap_of_lt (by omega)]
  simp only [blockNext_setSize, hnext, blockNext_congr hkeep, hc.next]
  have hlink : M.link (a + sizeofBlock + b.size + sizeofBlock + c.size) < 2 ^ 64 := by
    rw [HeapMemory.link]
    split_ifs <;> omega
  refine ⟨?_, ?_, ?_⟩
  · rw [blockSize_setNext, blockSize_setSize _ _ (by omega)]
    exact (Nat.add_assoc _ _ _).symm
  · rw [blockIsFree_setNext, blockIsFree_setSize, hb.isFree, hfree]
  · have haddr : a + sizeofBlock + b.size + sizeofBlock + c.size =
        a + sizeofBlock + (b.size + c.size + sizeofBlock) := by omega
    rw [blockNext_setNext _ _ hlink, haddr]

/-- Absorbing a free neighbour touches neither used blocks nor what lies outside. -/
theorem absorbNext_framed {cs : List Segment} {m : Store} {a n stop : ℕ} (hstop : a + sizeofBlock ≤ stop) :
    Framed (used sizeofBlock a (⟨n, true⟩ :: cs)) a stop m (absorbNext m a) := by
  intro k hk
  apply absorbNext_outside
  rcases hk with hk | hk | ⟨x, hx, hk, -⟩
  · exact Or.inl hk
  · exact Or.inr (by omega)
  · rw [used_cons_free _ _ rfl] at hx
    have hxa := le_of_mem_placed (mem_used_iff.mp hx).1
    exact Or.inr (by omega)

/-- A change framed behind the first block leaves that block alone too. -/
theorem Framed.cons {bs : List Segment} {b : Segment} {m m' : Store} {a stop : ℕ}
    (h : Framed (used sizeofBlock (a + sizeofBlock + b.size) bs) (a + sizeofBlock + b.size) stop m m') :
    Framed (used sizeofBlock a (b :: bs)) a stop m m' := by
  intro k hk
  apply h
  rcases hk with hk | hk | ⟨x, hx, hk, hk'⟩
  · exact Or.inl (by omega)
  · exact Or.inr (Or.inl hk)
  · cases hb : b.free with
    | true =>
      rw [used_cons_free _ _ hb] at hx
      exact Or.inr (Or.inr ⟨x, hx, hk, hk'⟩)
    | false =>
      rw [used_cons_used _ _ hb] at hx
      rcases List.mem_cons.mp hx with rfl | hx
      · exact Or.inl hk'
      · exact Or.inr (Or.inr ⟨x, hx, hk, hk'⟩)

theorem coalesceLoop_eq {cs : List Segment} {m : Store} {a fuel : ℕ} {b : Segment}
    (hfuel : cs.length < fuel) (hbase : M.base ≤ a)
    (hend : a + extent sizeofBlock (b :: cs) = M.stop)
    (hm : Headers M m (placed sizeofBlock a (b :: cs))) :
    ∃ m', coalesceLoop fuel m a = some m' ∧
      Headers M m' (placed sizeofBlock a (mergeFrom sizeofBlock b cs)) ∧
      Framed (used sizeofBlock a (b :: cs)) a M.stop m m' := by
  have hM := M.layout
  induction cs generalizing m a b fuel with
  | nil =>
    obtain ⟨fuel, rfl⟩ := Nat.exists_eq_succ_of_ne_zero (Nat.ne_zero_of_lt hfuel)
    have hnext : blockNext m a = null := by
      rw [(hm (a, b) (by simp)).next]
      simp only [extent_cons, extent_nil, add_zero] at hend
      rw [Nat.add_assoc, hend, link_stop]
    refine ⟨m, ?_, hm, Framed.refl _ _ _ _⟩
    rw [coalesceLoop, if_neg (by omega), if_pos hnext]
  | cons c cs ih =>
    obtain ⟨fuel, rfl⟩ := Nat.exists_eq_succ_of_ne_zero (Nat.ne_zero_of_lt hfuel)
    have hfuel' : cs.length < fuel := by simpa using hfuel
    simp only [extent_cons] at hend
    simp only [placed_cons, headers_cons] at hm
    obtain ⟨hb, hc, hcs⟩ := hm
    have hnext : blockNext m a = a + sizeofBlock + b.size := by
      rw [hb.next, link_of_lt (by omega)]
    rw [coalesceLoop, if_neg (by omega), hnext, if_neg (by omega), hb.isFree, hc.isFree]
    by_cases hfree : b.free = true ∧ c.free = true
    · -- `b` swallows `c`; nothing after `c` is touched
      have hhead := absorbNext_header hbase (by omega) hb hc hfree.1
      have htail : Headers M (absorbNext m a) (placed sizeofBlock
          (a + sizeofBlock + (b.size + c.size + sizeofBlock)) cs) := by
        have haddr : a + sizeofBlock + (b.size + c.size + sizeofBlock) =
            a + sizeofBlock + b.size + sizeofBlock + c.size := by omega
        rw [haddr]
        refine hcs.congr (fun x hx k hk _ => absorbNext_outside ?_)
        have hxa := le_of_mem_placed hx
        omega
      obtain ⟨m', hrun, hheads, hframe⟩ := ih (b := ⟨b.size + c.size + sizeofBlock, true⟩) hfuel' hbase
        (by simp only [extent_cons]; omega) (headers_cons.mpr ⟨hhead, htail⟩)
      have hused : used sizeofBlock a (b :: c :: cs) =
          used sizeofBlock a (⟨b.size + c.size + sizeofBlock, true⟩ :: cs) := by
        rw [← used_mergeFrom, mergeFrom, hfree.1, hfree.2, if_pos (by simp), used_mergeFrom]
      refine ⟨m', ?_, ?_, ?_⟩
      · simpa [hfree.1, hfree.2] using hrun
      · simpa [mergeFrom, hfree.1, hfree.2] using hheads
      · rw [hused]
        exact (absorbNext_framed (by omega)).trans hframe
    · obtain ⟨m', hrun, hheads, hframe⟩ := ih (b := c) hfuel' (by omega)
        (by simp only [extent_cons]; omega) (headers_cons.mpr ⟨hc, hcs⟩)
      have hfree' : ¬((b.free && c.free) = true) := by simpa using hfree
      refine ⟨m', ?_, ?_, hframe.cons⟩
      · rw [if_neg]
        · exact hrun
        · cases hbf : b.free <;> cases hcf : c.free <;> simp_all
      · rw [mergeFrom, if_neg hfree', placed_cons, headers_cons]
        exact ⟨hb.congr (fun k hk hk' => hframe k (Or.inl (by omega))), hheads⟩

end BinOs.KernelHeap
