import BinOs.KernelHeapIsolation

/-! # What `realloc` and `calloc` do to the contents of the heap

`realloc` either fails and leaves the heap as it was, or hands over the bytes of
the old block. `calloc` takes the product of its arguments modulo `2 ^ 64`, so it
hands out a block that is too small when the product wraps to a size that is served. -/
namespace BinOs.KernelHeap
open LittleEndianStore SegmentTiling

variable {M : HeapMemory}

theorem Inv.live_nodup {w : World} {T : HeapTiling M} (I : Inv M w T) : w.live.Nodup := by
  rw [I.live.nodup_iff]
  refine List.pairwise_map.mpr (T.used_pairwise.imp fun {x y} hxy => ?_)
  have hh := sizeofBlock_pos
  omega

/-- A block kept by a call keeps its header and its payload. -/
theorem Framed.live_block {w : World} {T : HeapTiling M} (I : Inv M w T) {ptr : ℕ} {m : Store}
    (hframe : Framed (T.used.filter (fun x => x.1 + sizeofBlock != ptr)) M.base M.stop w.heap.mem m)
    {q : ℕ} (hq : q ∈ w.live) (hne : q ≠ ptr) :
    payloadSize m q = payloadSize w.heap.mem q ∧
      ∀ k, q ≤ k + sizeofBlock → k < q + payloadSize w.heap.mem q → m k = w.heap.mem k := by
  obtain ⟨x, hx, rfl⟩ := I.mem_live.mp hq
  have hmem : x ∈ T.used.filter (fun x => x.1 + sizeofBlock != ptr) :=
    List.mem_filter.mpr ⟨hx, by simpa using hne⟩
  have hsize := payloadSize_eq I.represents hx
  have hkeep : ∀ k, x.1 ≤ k → k < x.1 + sizeofBlock + x.2.size → m k = w.heap.mem k :=
    fun k hk hk' => hframe k (Or.inr (Or.inr ⟨x, hmem, hk, hk'⟩))
  refine ⟨?_, fun k hk hk' => hkeep k (by omega) (by omega)⟩
  rw [payloadSize, payloadSize, Nat.add_sub_cancel]
  exact blockSize_congr fun k hk hk' => hkeep k hk (by omega)

/-- `realloc` of the live pointer `p` to `n` bytes returned `r` and left `H`. -/
structure Reallocated (M : HeapMemory) (w : World) (p n r : ℕ) (H : Heap) : Prop where
  room : n ≤ payloadSize H.mem r
  copied : ∀ i < min (payloadSize w.heap.mem p) n, H.mem (r + i) = w.heap.mem (p + i)
  fresh : r = p ∨ r ∉ w.live
  inPlace : ∀ q, q ∈ (HeapCall.realloc p n).liveAfter w.live r ↔ q = r ∨ (q ∈ w.live ∧ q ≠ p)
  tiled : ∃ hs, Tiled M ⟨H, (HeapCall.realloc p n).liveAfter w.live r⟩ hs
  untouched : ∀ q ∈ w.live, q ≠ p → payloadSize H.mem q = payloadSize w.heap.mem q ∧
    ∀ k, q ≤ k + sizeofBlock → k < q + payloadSize w.heap.mem q → H.mem k = w.heap.mem k

/-- The bytes under the pointer `realloc` returns. -/
theorem realloc_copies {H H' : Heap} {T : HeapTiling M} (R : Represents M H T)
    {x : ℕ × Segment} (hx : x ∈ T.used) {n r : ℕ} (hn : n ≠ 0)
    (hrun : realloc M H (x.1 + sizeofBlock) n = some (r, H')) (hr : r ≠ null) :
    ∀ i < min x.2.size n, H'.mem (r + i) = H.mem (x.1 + sizeofBlock + i) := by
  have hM := M.layout
  have hne : ¬x.1 + sizeofBlock = null := by omega
  have hsize : blockSize H.mem x.1 = x.2.size := (R.headers x (Tiling.mem_used_iff.mp hx).1).size
  by_cases hfit : n ≤ x.2.size
  · simp only [realloc, if_neg hne, Nat.add_sub_cancel, hsize, if_neg hn, if_pos hfit,
      Option.some.injEq, Prod.mk.injEq] at hrun
    obtain ⟨rfl, rfl⟩ := hrun
    exact fun _ _ => rfl
  · obtain ⟨m, hrun', -⟩ := realloc_refines R hx n
    have hres : r = mallocResult T n := by
      rw [hrun, Option.some.injEq, Prod.mk.injEq, reallocResult, if_neg hn, if_neg hfit] at hrun'
      exact hrun'.1
    subst hres
    obtain ⟨m', hmoves, -, -, hcopy⟩ := realloc_moves R hx hfit hr
    rw [hrun, Option.some.injEq, Prod.mk.injEq] at hmoves
    rw [hmoves.2]
    exact fun i hi => hcopy i (by omega)

theorem Inv.reallocated {w : World} {T : HeapTiling M} (I : Inv M w T) {p n : ℕ}
    (hp : p ∈ w.live) (hn : 0 < n) :
    ∃ r H, realloc M w.heap p n = some (r, H) ∧
      (r = null → H = w.heap ∧ (HeapCall.realloc p n).liveAfter w.live r = w.live) ∧
      (r ≠ null → Reallocated M w p n r H) := by
  have hne : n ≠ 0 := Nat.ne_of_gt hn
  obtain ⟨m, hrun, I', hframe, hnull⟩ := I.call (c := .realloc p n) (Or.inr hp)
  set r := (HeapCall.realloc p n).result T with hr
  have hlive : (HeapCall.realloc p n).liveAfter w.live r =
      if r = null then w.live else r :: w.live.erase p := by
    simp [HeapCall.liveAfter, hne]
  refine ⟨r, _, hrun, fun h => ⟨?_, by rw [hlive, if_pos h]⟩, fun h => ?_⟩
  · rw [hnull hne h]
  · rw [if_neg h] at hlive
    obtain ⟨x, hx, hres, hreq⟩ := HeapCall.result_block (c := .realloc p n) I (Or.inr hp) h
    have hnodup := I'.live_nodup
    rw [hlive, List.nodup_cons] at hnodup
    refine ⟨?_, ?_, ?_, fun q => ?_, ⟨_, I'.tiled⟩, fun q hq => hframe.live_block I hq⟩
    · rw [hr, hres, payloadSize_eq I'.represents hx]
      exact hreq
    · obtain ⟨y, hy, rfl⟩ := I.mem_live.mp hp
      rw [payloadSize_eq I.represents hy]
      exact realloc_copies I.represents hy hne hrun h
    · by_cases hrp : r = p
      · exact Or.inl hrp
      · exact Or.inr fun hmem => hnodup.1 ((List.mem_erase_of_ne hrp).mpr hmem)
    · rw [hlive, List.mem_cons, I.live_nodup.mem_erase_iff, and_comm]

/-- Two calls that do the same to the heap and to the live set. -/
def ActsAs (M : HeapMemory) (w : World) (c d : HeapCall) : Prop :=
  c.exec M w.heap = d.exec M w.heap ∧ ∀ r, c.liveAfter w.live r = d.liveAfter w.live r

theorem realloc_actsAs_free {w : World} {T : HeapTiling M} (I : Inv M w T) {p : ℕ}
    (hp : p ∈ w.live) : ActsAs M w (.realloc p 0) (.free p) := by
  have hne : p ≠ null := fun h => I.null_notMem (h ▸ hp)
  exact ⟨by simp [HeapCall.exec, realloc, hne], fun r => by simp [HeapCall.liveAfter, hne]⟩

theorem realloc_actsAs_malloc {w : World} {T : HeapTiling M} (I : Inv M w T) (n : ℕ) :
    ActsAs M w (.realloc null n) (.malloc n) := by
  refine ⟨by simp [HeapCall.exec, realloc], fun r => ?_⟩
  simp [HeapCall.liveAfter, List.erase_of_not_mem I.null_notMem]

/-- In every state reached, `realloc` of a live pointer fails and changes nothing
or hands over the old bytes; with no size it frees, with no pointer it allocates. -/
theorem realloc_preserves {H : Heap} {tr : List (Event × ℕ)} {w : World}
    (hrun : Runs M (World.start M H) tr w) :
    (∀ p ∈ w.live, ∀ n, 0 < n → ∃ r H', realloc M w.heap p n = some (r, H') ∧
      (r = null → H' = w.heap ∧ (HeapCall.realloc p n).liveAfter w.live r = w.live) ∧
      (r ≠ null → Reallocated M w p n r H')) ∧
    (∀ p ∈ w.live, ActsAs M w (.realloc p 0) (.free p)) ∧
    (∀ n, ActsAs M w (.realloc null n) (.malloc n)) := by
  obtain ⟨T, I⟩ := hrun.inv
  exact ⟨fun p hp n hn => I.reallocated hp hn, fun p hp => realloc_actsAs_free I hp,
    fun n => realloc_actsAs_malloc I n⟩

theorem realloc_preserves_boot : ∃ tr w r H', Runs bootMemory (World.start bootMemory bootHeap) tr w ∧
    realloc bootMemory w.heap 0xffffffff80100174 100 = some (r, H') ∧
    (r ≠ null → Reallocated bootMemory w 0xffffffff80100174 100 r H') := by
  obtain ⟨tr, w, hrun, hlive⟩ := bootEvents_run
  obtain ⟨r, H', hexec, -, hmoved⟩ :=
    (realloc_preserves hrun).1 0xffffffff80100174 (by simp [hlive]) 100 (by decide)
  exact ⟨tr, w, r, H', hrun, hexec, hmoved⟩

/-- `r` is a new allocation that holds `num * size` zero bytes. -/
structure ZeroedArray (M : HeapMemory) (w : World) (num size r : ℕ) (H : Heap) : Prop where
  fresh : r ∉ w.live
  live : ∃ hs, Tiled M ⟨H, r :: w.live⟩ hs
  room : num * size ≤ payloadSize H.mem r
  zeroed : ∀ i < num * size, H.mem (r + i) = 0
  untouched : ∀ q ∈ w.live, payloadSize H.mem q = payloadSize w.heap.mem q ∧
    ∀ k, q ≤ k + sizeofBlock → k < q + payloadSize w.heap.mem q → H.mem k = w.heap.mem k

/-- `calloc` gives the whole array or nothing. -/
def CallocWhole (M : HeapMemory) (w : World) (num size : ℕ) : Prop :=
  ∃ r H, calloc M w.heap num size = some (r, H) ∧ (r = null → H = w.heap) ∧
    (r ≠ null → ZeroedArray M w num size r H)

theorem calloc_zeroes {H H' : Heap} {num size r : ℕ}
    (hrun : calloc M H num size = some (r, H')) (hr : r ≠ null) :
    ∀ i < wrap (num * size), H'.mem (r + i) = 0 := by
  obtain ⟨⟨p, H₁⟩, -, hset⟩ := Option.map_eq_some_iff.mp hrun
  simp only at hset
  split_ifs at hset with hp
  · exact absurd (hp ▸ (Prod.mk.inj hset).1.symm) hr
  · obtain ⟨rfl, rfl⟩ := Prod.mk.inj hset
    exact fun i hi => memset_inside _ _ _ hi

/-- The array asked for modulo `2 ^ 64`, when there is one. -/
theorem Inv.calloc_wraps {w : World} {T : HeapTiling M} (I : Inv M w T) (num size : ℕ) :
    ∃ r H, calloc M w.heap num size = some (r, H) ∧
      (r = null ↔ wrap (num * size) = 0 ∨
        ¬∃ s e, Gap M w s e ∧ wrap (num * size) + sizeofBlock ≤ e - s) ∧
      (r = null → H = w.heap) ∧
      (r ≠ null → payloadSize H.mem r < 2 ^ 64 ∧
        (num * size < 2 ^ 64 → ZeroedArray M w num size r H)) := by
  have hM := M.layout
  obtain ⟨m, hrun, hrep, hframe, hnull⟩ := calloc_refines I.represents num size
  refine ⟨_, _, hrun, I.mallocResult_eq_null_iff, fun h => by rw [hnull h], fun hr => ?_⟩
  have hlive := live_after_malloc I.live (wrap (num * size))
  rw [if_neg hr] at hlive
  have I' : Inv M ⟨⟨m, w.heap.heapStart⟩, mallocResult T (wrap (num * size)) :: w.live⟩
      (mallocTiling T (wrap (num * size))) := ⟨hrep, hlive⟩
  obtain ⟨x, hx, hres, hreq⟩ :=
    HeapCall.result_block (c := .calloc num size) I (Or.inl rfl) hr
  have hsize := payloadSize_eq hrep hx
  have hb := Tiling.placed_bounds (Tiling.mem_used_iff.mp hx).1
  change mallocResult T (wrap (num * size)) = _ at hres
  change wrap (num * size) ≤ _ at hreq
  refine ⟨by rw [hres, hsize]; omega, fun hlt => ?_⟩
  have hwrap := wrap_of_lt hlt
  refine ⟨(List.nodup_cons.mp I'.live_nodup).1, ⟨_, I'.tiled⟩, ?_, fun i hi => ?_, fun q hq => ?_⟩
  · rw [hres, hsize]
    omega
  · exact calloc_zeroes hrun hr i (by omega)
  · have hframe' : Framed (T.used.filter (fun x => x.1 + sizeofBlock != null)) M.base M.stop
        w.heap.mem m := hframe.mono fun y hy => (List.mem_filter.mp hy).1
    exact hframe'.live_block I hq fun h => I.null_notMem (h ▸ hq)

theorem Inv.callocWhole_iff {w : World} {T : HeapTiling M} (I : Inv M w T) (num size : ℕ) :
    CallocWhole M w num size ↔ num * size < 2 ^ 64 ∨ wrap (num * size) = 0 ∨
      ¬∃ s e, Gap M w s e ∧ wrap (num * size) + sizeofBlock ≤ e - s := by
  obtain ⟨r, H, hrun, hnull, hfail, harray⟩ := I.calloc_wraps num size
  rw [← hnull]
  constructor
  · rintro ⟨r', H', hrun', -, hwhole⟩
    rw [hrun, Option.some.injEq, Prod.mk.injEq] at hrun'
    obtain ⟨rfl, rfl⟩ := hrun'
    by_cases hr : r = null
    · exact Or.inr hr
    · -- a payload lies inside the heap, so the product did not wrap
      exact Or.inl ((hwhole hr).room.trans_lt (harray hr).1)
  · rintro (hlt | hr)
    · exact ⟨r, H, hrun, hfail, fun hr => (harray hr).2 hlt⟩
    · exact ⟨r, H, hrun, hfail, fun h => absurd hr h⟩

/-- In every state reached, `calloc` gives the whole array or nothing exactly when
the product does not wrap, wraps to zero, or wraps to a size no gap has room for. -/
theorem calloc_whole_iff {H : Heap} {tr : List (Event × ℕ)} {w : World}
    (hrun : Runs M (World.start M H) tr w) (num size : ℕ) :
    CallocWhole M w num size ↔ num * size < 2 ^ 64 ∨ wrap (num * size) = 0 ∨
      ¬∃ s e, Gap M w s e ∧ wrap (num * size) + sizeofBlock ≤ e - s := by
  obtain ⟨T, I⟩ := hrun.inv
  exact I.callocWhole_iff num size

theorem calloc_whole_boot : ∃ tr w, Runs bootMemory (World.start bootMemory bootHeap) tr w ∧
    CallocWhole bootMemory w 10 4 := by
  obtain ⟨tr, w, hrun, -⟩ := bootEvents_run
  exact ⟨tr, w, hrun, (calloc_whole_iff hrun 10 4).mpr (Or.inl (by decide))⟩

/-- `2 ^ 61 + 1` elements of eight bytes wrap to a block of eight bytes. -/
theorem calloc_wraps_to_eight :
    Runs bootMemory (World.start bootMemory bootHeap) [] (World.start bootMemory bootHeap) ∧
      ¬CallocWhole bootMemory (World.start bootMemory bootHeap) (2 ^ 61 + 1) 8 := by
  refine ⟨.nil _, ?_⟩
  rintro ⟨r, H, hrun, -, hwhole⟩
  have heval : (calloc bootMemory (World.start bootMemory bootHeap).heap (2 ^ 61 + 1) 8).map
      (fun x => (x.1, payloadSize x.2.mem x.1)) = some (0xffffffff80100018, 8) := by
    decide +kernel
  rw [hrun, Option.map_some, Option.some.injEq, Prod.mk.injEq] at heval
  obtain ⟨rfl, hsize⟩ := heval
  have hroom := (hwhole (by decide)).room
  simp only at hroom hsize
  omega

end BinOs.KernelHeap
