import BinOs.KernelHeapRuns

/-! # The blocks tile the heap

What following `next` from the first block finds in memory after any run, and what is left when
every live pointer has been freed. -/
namespace BinOs.KernelHeap
open LittleEndianStore SegmentTiling

variable {M : HeapMemory}

/-- `hs` are the headers visited from `p` by following `next` up to `NULL`. -/
def Visits (m : Store) : ℕ → List ℕ → Prop
  | p, [] => p = null
  | p, q :: qs => p ≠ null ∧ q = p ∧ Visits m (blockNext m p) qs

structure Tiled (M : HeapMemory) (w : World) (hs : List ℕ) : Prop where
  visits : Visits w.heap.mem w.heap.heapStart hs
  first : hs.head? = some M.base
  increasing : hs.Pairwise (· < ·)
  inside : ∀ p ∈ hs, M.base ≤ p ∧ p + sizeofBlock + blockSize w.heap.mem p ≤ M.stop
  adjacent : hs.IsChain (fun p q => q = p + sizeofBlock + blockSize w.heap.mem p)
  last : ∀ p ∈ hs.getLast?, p + sizeofBlock + blockSize w.heap.mem p = M.stop
  merged : hs.IsChain (fun p q =>
    ¬(blockIsFree w.heap.mem p ≠ 0 ∧ blockIsFree w.heap.mem q ≠ 0))
  live : ∀ r, r ∈ w.live ↔ ∃ p ∈ hs, blockIsFree w.heap.mem p = 0 ∧ r = p + sizeofBlock
  stats : ∃ usedSize freeSize, getHeapStats w.heap = some (heapSize, usedSize, freeSize) ∧
    usedSize + freeSize + sizeofBlock * hs.length = heapSize

theorem visits_placed {m : Store} {a : ℕ} {bs : List Segment} (hbase : M.base ≤ a)
    (hend : a + extent sizeofBlock bs = M.stop) (hm : Headers M m (placed sizeofBlock a bs)) :
    Visits m (M.link a) ((placed sizeofBlock a bs).map Prod.fst) := by
  have hM := M.layout
  induction bs generalizing a with
  | nil =>
    have ha : a = M.stop := by simpa using hend
    rw [ha, link_stop]
    rfl
  | cons b bs ih =>
    rw [placed_cons, headers_cons] at hm
    rw [extent_cons] at hend
    rw [link_of_lt (by omega)]
    have hnext : blockNext m a = M.link (a + sizeofBlock + b.size) := hm.1.next
    refine ⟨by omega, rfl, ?_⟩
    rw [hnext]
    exact ih (by omega) (by omega) hm.2

theorem Inv.tiled {w : World} {T : HeapTiling M} (I : Inv M w T) :
    Tiled M w (T.placed.map Prod.fst) := by
  have hM := M.layout
  have hh := I.represents.headers
  have hsize : ∀ x ∈ T.placed, blockSize w.heap.mem x.1 = x.2.size := fun x hx => (hh x hx).size
  have hfree : ∀ x ∈ T.placed, blockIsFree w.heap.mem x.1 = x.2.free.toNat :=
    fun x hx => (hh x hx).isFree
  have hvis := visits_placed le_rfl T.fills hh
  rw [link_of_lt (by simp)] at hvis
  have hne : T.segments ≠ [] := by
    intro hnil
    have hfills := T.fills
    rw [hnil, extent_nil] at hfills
    omega
  refine ⟨by rw [I.represents.start]; exact hvis, ?_, ?_, ?_, ?_, ?_, ?_, ?_, ?_⟩
  · obtain ⟨b, bs, hbs⟩ := List.exists_cons_of_ne_nil hne
    rw [Tiling.placed, hbs]
    rfl
  · refine List.pairwise_map.mpr ((placed_pairwise M.base T.segments).imp fun {x y} hxy => ?_)
    omega
  · rintro _ hp
    obtain ⟨x, hx, rfl⟩ := List.mem_map.mp hp
    rw [hsize x hx]
    exact Tiling.placed_bounds hx
  · refine (List.isChain_map _).mpr ((placed_adjacent M.base T.segments).imp_of_mem_imp ?_)
    intro x y hx _ hxy
    rw [hsize x hx, hxy]
  · intro p hp
    rw [List.getLast?_map] at hp
    obtain ⟨x, hx, rfl⟩ := Option.map_eq_some_iff.mp hp
    rw [hsize x (List.mem_of_getLast? hx), ← T.fills]
    exact placed_getLast? M.base T.segments x hx
  · have hmerged : (T.placed.map Prod.snd).IsChain (fun b c => ¬(b.free = true ∧ c.free = true)) := by
      rw [Tiling.placed, placed_map_snd]
      exact T.merged
    refine (List.isChain_map _).mpr (((List.isChain_map _).mp hmerged).imp_of_mem_imp ?_)
    intro x y hx hy hxy
    rw [hfree x hx, hfree y hy]
    simpa using hxy
  · intro r
    rw [I.mem_live]
    constructor
    · rintro ⟨x, hx, rfl⟩
      obtain ⟨hxp, hxf⟩ := Tiling.mem_used_iff.mp hx
      exact ⟨x.1, List.mem_map_of_mem hxp, by rw [hfree x hxp, hxf]; rfl, rfl⟩
    · rintro ⟨p, hp, hpf, rfl⟩
      obtain ⟨x, hx, rfl⟩ := List.mem_map.mp hp
      rw [hfree x hx] at hpf
      exact ⟨x, Tiling.mem_used_iff.mpr ⟨hx, by simpa using hpf⟩, rfl⟩
  · refine ⟨_, _, getHeapStats_eq I.represents, ?_⟩
    have hsum := payload_add_headers (h := sizeofBlock) T.segments
    have hfills := T.fills
    have hlen : (T.placed.map Prod.fst).length = T.segments.length := by
      rw [List.length_map, ← List.length_map (f := Prod.snd), Tiling.placed, placed_map_snd]
    rw [hlen]
    omega

/-- The tiling invariant: it holds after every run from `init_heap`, and every
allowed call of the next step ends. -/
theorem heap_tiled {H : Heap} {tr : List (Event × ℕ)} {w : World}
    (hrun : Runs M (World.start M H) tr w) :
    (∃ hs, Tiled M w hs) ∧
      ∀ c : HeapCall, c.Allowed w.live → ∃ r H', c.exec M w.heap = some (r, H') := by
  obtain ⟨T, I⟩ := hrun.inv
  refine ⟨⟨_, I.tiled⟩, fun c hc => ?_⟩
  obtain ⟨m, hexec, -⟩ := I.call hc
  exact ⟨_, _, hexec⟩

theorem heap_tiled_boot : ∃ tr w, Runs bootMemory (World.start bootMemory bootHeap) tr w ∧
    w.live.length = 2 ∧ ∃ hs, Tiled bootMemory w hs := by
  obtain ⟨tr, w, hrun, hlive⟩ := bootEvents_run
  exact ⟨tr, w, hrun, by rw [hlive]; rfl, (heap_tiled hrun).1⟩

/-- Frees the pointers of a list in order. -/
def freeAll : Heap → List ℕ → Option Heap
  | H, [] => some H
  | H, p :: ps => (free H p).bind (fun H => freeAll H ps)

theorem Inv.freeAll {order : List ℕ} {w : World} {T : HeapTiling M} (I : Inv M w T)
    (hperm : order.Perm w.live) :
    ∃ m T', freeAll w.heap order = some ⟨m, w.heap.heapStart⟩ ∧
      Inv M ⟨⟨m, w.heap.heapStart⟩, []⟩ T' := by
  induction order generalizing w T with
  | nil =>
    obtain ⟨⟨m, start⟩, live⟩ := w
    obtain rfl : live = [] := List.nil_perm.mp hperm
    exact ⟨m, T, rfl, I⟩
  | cons p ps ih =>
    have hp : p ∈ w.live := hperm.subset List.mem_cons_self
    obtain ⟨m, hrun, hinv, -, -⟩ := I.call (c := .free p) (Or.inr hp)
    have hrest : ps.Perm (w.live.erase p) := by
      have he := hperm.erase p
      rwa [List.erase_cons_head] at he
    obtain ⟨H', hfree, heq⟩ := Option.map_eq_some_iff.mp hrun
    obtain rfl : H' = ⟨m, w.heap.heapStart⟩ := (Prod.mk.inj heq).2
    obtain ⟨m', T', hall, hinv'⟩ := ih hinv hrest
    exact ⟨m', T', by rw [KernelHeap.freeAll, hfree]; exact hall, hinv'⟩

/-- After any run, freeing what is still live, in any order, leaves the one free
block that `init_heap` builds. -/
theorem no_leak {H : Heap} {tr : List (Event × ℕ)} {w : World}
    (hrun : Runs M (World.start M H) tr w) {order : List ℕ} (hperm : order.Perm w.live) :
    ∃ H', freeAll w.heap order = some H' ∧ Visits H'.mem H'.heapStart [M.base] ∧
      blockSize H'.mem M.base = heapSize - sizeofBlock ∧ blockIsFree H'.mem M.base = 1 ∧
      blockNext H'.mem M.base = null ∧
      getHeapStats H' = some (heapSize, 0, heapSize - sizeofBlock) := by
  have hM := M.layout
  obtain ⟨T, I⟩ := hrun.inv
  obtain ⟨m, T', hall, I'⟩ := I.freeAll hperm
  have hnone : T'.used = [] := by
    have hlen := I'.live.length_eq
    rw [List.length_map] at hlen
    exact List.eq_nil_of_length_eq_zero hlen.symm
  have hsegs := Tiling.eq_whole_of_used_nil (by omega) hnone
  have hsize : M.stop - M.base - sizeofBlock = heapSize - sizeofBlock := by omega
  rw [hsize] at hsegs
  have hhead : Header M m M.base ⟨heapSize - sizeofBlock, true⟩ :=
    I'.represents.headers (M.base, _) (by simp [Tiling.placed, hsegs])
  have hnext : blockNext m M.base = null := by
    rw [hhead.next, HeapMemory.link, if_pos]
    simp only
    omega
  have hstart : w.heap.heapStart = M.base := I'.represents.start
  have hstats := getHeapStats_eq I'.represents
  rw [hsegs] at hstats
  refine ⟨_, hall, ?_, hhead.size, hhead.isFree, hnext, hstats⟩
  rw [hstart]
  exact ⟨by omega, rfl, hnext⟩

theorem no_leak_boot : ∃ tr w H', Runs bootMemory (World.start bootMemory bootHeap) tr w ∧
    freeAll w.heap [0xffffffff80100094, 0xffffffff80100174] = some H' ∧
    getHeapStats H' = some (heapSize, 0, heapSize - sizeofBlock) := by
  obtain ⟨tr, w, hrun, hlive⟩ := bootEvents_run
  have hperm : [0xffffffff80100094, 0xffffffff80100174].Perm w.live := by
    rw [hlive]
    exact List.Perm.swap _ _ _
  obtain ⟨H', hall, -, -, -, -, hstats⟩ := no_leak hrun hperm
  exact ⟨tr, w, H', hrun, hall, hstats⟩

end BinOs.KernelHeap
