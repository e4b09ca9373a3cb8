import BinOs.AlignedTiling
import BinOs.KernelHeapIsolation

/-! # Alignment of headers and of the pointers handed out

`split_block` puts the remainder's header right behind the bytes asked for, so a
size that is no multiple of eight moves it, and every block carved from it later,
off the alignment of `block_t`. Sizes for which nothing is split do no harm. -/
namespace BinOs.KernelHeap
open LittleEndianStore SegmentTiling

variable {M : HeapMemory}

/-- The size with which a call reaches `malloc`, if it does. -/
def HeapCall.allocates (m : Store) : HeapCall → Option ℕ
  | .malloc size => some size
  | .calloc num size => some (wrap (num * size))
  | .realloc ptr size =>
    if ptr = null ∨ (size ≠ 0 ∧ payloadSize m ptr < size) then some size else none
  | .free _ => none

/-- A call for which `split_block` splits a block behind a size that is not a
multiple of eight. -/
def SplitsUnevenly (w : World) : Event → Prop
  | .call c => ∃ size block, c.allocates w.heap.mem = some size ∧ ¬8 ∣ size ∧
      findFreeBlock w.heap size = some block ∧ block ≠ null ∧
      size + sizeofBlock < blockSize w.heap.mem block
  | .clientWrite _ _ => False

/-- Every header of the block list is at a multiple of eight. -/
def HeadersAligned (w : World) : Prop :=
  ∃ hs, Visits w.heap.mem w.heap.heapStart hs ∧ ∀ p ∈ hs, 8 ∣ p

/-- A run in which every step satisfies `P`. -/
inductive RunsUnder (M : HeapMemory) (P : World → Event → ℕ → World → Prop) :
    World → List (Event × ℕ) → World → Prop
  | nil (w : World) : RunsUnder M P w [] w
  | cons {w₁ w₂ w₃ : World} {e : Event} {r : ℕ} {tr : List (Event × ℕ)} (step : Step M w₁ e r w₂)
      (holds : P w₁ e r w₂) (rest : RunsUnder M P w₂ tr w₃) : RunsUnder M P w₁ ((e, r) :: tr) w₃

section Runs
variable {P Q : World → Event → ℕ → World → Prop} {w w' : World} {tr : List (Event × ℕ)}

/-- A step condition carried over along an invariant of the worlds. -/
theorem RunsUnder.imp {J : World → Prop} (hJ : J w) (h : RunsUnder M P w tr w')
    (hstep : ∀ v e r v', J v → Step M v e r v' → P v e r v' → Q v e r v' ∧ J v') :
    RunsUnder M Q w tr w' ∧ J w' := by
  induction h with
  | nil w => exact ⟨.nil w, hJ⟩
  | cons step holds rest ih =>
    obtain ⟨hQ, hJ'⟩ := hstep _ _ _ _ hJ step holds
    obtain ⟨hrest, hlast⟩ := ih hJ'
    exact ⟨.cons step hQ hrest, hlast⟩

theorem RunsUnder.results {R : ℕ → Prop} (h : RunsUnder M P w tr w')
    (hP : ∀ v e r v', P v e r v' → R r) : ∀ x ∈ tr, R x.2 := by
  induction h with
  | nil w => simp
  | cons step holds rest ih => exact List.forall_mem_cons.mpr ⟨hP _ _ _ _ holds, ih⟩

theorem Runs.under (h : Runs M w tr w') (hP : ∀ v r v', ∀ x ∈ tr, P v x.1 r v') :
    RunsUnder M P w tr w' := by
  induction h with
  | nil w => exact .nil w
  | cons step rest ih =>
    exact .cons step (hP _ _ _ _ List.mem_cons_self)
      (ih fun v r v' x hx => hP v r v' x (List.mem_cons_of_mem _ hx))

end Runs

section Call
variable {w : World} {T : HeapTiling M}

theorem Inv.headersAligned_iff (I : Inv M w T) : HeadersAligned w ↔ T.Aligned 8 := by
  constructor
  · rintro ⟨hs, hvis, hal⟩ x hx
    apply hal
    rw [visits_unique hvis I.tiled.visits]
    exact List.mem_map_of_mem hx
  · intro hT
    refine ⟨_, I.tiled.visits, fun p hp => ?_⟩
    obtain ⟨x, hx, rfl⟩ := List.mem_map.mp hp
    exact hT x hx

/-- A block is split when first fit on the tiling carves. -/
theorem Inv.splits_iff (I : Inv M w T) {c : HeapCall} :
    SplitsUnevenly w (.call c) ↔
      ∃ size, c.allocates w.heap.mem = some size ∧ ¬8 ∣ size ∧ T.Carves size := by
  have hh := I.represents.headers
  constructor
  · rintro ⟨size, block, halloc, hodd, hfind, hnull, hsplit⟩
    rw [findFreeBlock_eq I.represents] at hfind
    cases hp : T.firstFit size with
    | none => simp [hp] at hfind; omega
    | some p =>
      obtain rfl : p = block := by simpa [hp] using hfind
      obtain ⟨b, xs, ys, hold, -⟩ := Tiling.placed_reserve hp
      have hmem : (p, b) ∈ T.placed := by simp [hold]
      have hsize : blockSize w.heap.mem p = b.size := (hh _ hmem).size
      exact ⟨size, halloc, hodd, p, b, hp, hmem, by omega⟩
  · rintro ⟨size, halloc, hodd, p, b, hp, hmem, hsplit⟩
    have hsize : blockSize w.heap.mem p = b.size := (hh _ hmem).size
    refine ⟨size, p, halloc, hodd, ?_, firstFit_ne_null hp, by omega⟩
    rw [findFreeBlock_eq I.represents, hp]
    rfl

/-- What a call makes of the tiling: without `malloc` it keeps it or releases a
block; with it the result is a first fit, after which a block may be released. -/
theorem Inv.call_cases (I : Inv M w T) {c : HeapCall} (ok : c.Allowed w.live) :
    (c.allocates w.heap.mem = none ∧
      (c.result T = null ∨ ∃ x ∈ T.used, c.result T = x.1 + sizeofBlock) ∧
      (c.tiling T = T ∨ ∃ p, c.tiling T = T.release p)) ∨
    (∃ size, c.allocates w.heap.mem = some size ∧ c.result T = mallocResult T size ∧
      (c.tiling T = mallocTiling T size ∨
        ∃ x ∈ T.used, c.tiling T = (mallocTiling T size).release x.1)) := by
  cases c with
  | malloc size => exact Or.inr ⟨size, rfl, rfl, Or.inl rfl⟩
  | calloc num size => exact Or.inr ⟨_, rfl, rfl, Or.inl rfl⟩
  | free ptr =>
    refine Or.inl ⟨rfl, Or.inl rfl, ?_⟩
    rcases ok with rfl | hp
    · exact Or.inl (HeapCall.tiling_free_null T)
    · obtain ⟨x, hx, rfl⟩ := I.mem_live.mp hp
      exact Or.inr ⟨x.1, HeapCall.tiling_free hx⟩
  | realloc ptr size =>
    rcases ok with rfl | hp
    · exact Or.inr ⟨size, by simp [HeapCall.allocates], HeapCall.result_realloc_null T size,
        Or.inl (HeapCall.tiling_realloc_null T size)⟩
    · obtain ⟨x, hx, rfl⟩ := I.mem_live.mp hp
      have hne : ¬x.1 + sizeofBlock = null := by
        have hM := M.layout
        omega
      simp only [HeapCall.allocates, HeapCall.result_realloc hx, HeapCall.tiling_realloc hx,
        payloadSize_eq I.represents hx, reallocResult, reallocTiling, hne, false_or]
      by_cases hn : size = 0
      · exact Or.inl (by simp [hn])
      by_cases hfit : size ≤ x.2.size
      · exact Or.inl ⟨by simp [hfit], Or.inr ⟨x, hx, by simp [hn, hfit]⟩, Or.inl (by simp [hn, hfit])⟩
      · refine Or.inr ⟨size, by simp [hn, Nat.lt_of_not_le hfit], by simp [hn, hfit], ?_⟩
        by_cases hr : mallocResult T size = null
        · exact Or.inl (by simp [hn, hfit, hr, mallocTiling_of_null hr])
        · exact Or.inr ⟨x, hx, by simp [hn, hfit, hr]⟩

theorem eight_dvd_sizeofBlock : 8 ∣ sizeofBlock := by decide

theorem mallocTiling_aligned (hT : T.Aligned 8) {n : ℕ} (hn : T.Carves n → 8 ∣ n) :
    (mallocTiling T n).Aligned 8 := by
  rw [mallocTiling]
  split_ifs
  · exact hT
  · exact hT.reserve eight_dvd_sizeofBlock hn

theorem mallocResult_aligned (hT : T.Aligned 8) (n : ℕ) : 8 ∣ mallocResult T n := by
  by_cases hr : mallocResult T n = null
  · rw [hr]
    exact Nat.dvd_zero 8
  · obtain ⟨p, s, hres, -, hp, -⟩ := mallocResult_ne_null hr
    obtain ⟨b, xs, ys, hold, -⟩ := Tiling.placed_reserve hp
    rw [hres]
    exact Nat.dvd_add (hT (p, b) (by simp [hold])) eight_dvd_sizeofBlock

/-- Without an uneven split a call keeps the alignment. -/
theorem Inv.call_aligned (I : Inv M w T) (hT : T.Aligned 8) {c : HeapCall}
    (ok : c.Allowed w.live) (heven : ¬SplitsUnevenly w (.call c)) :
    8 ∣ c.result T ∧ (c.tiling T).Aligned 8 := by
  rcases I.call_cases ok with ⟨-, hres, htil⟩ | ⟨size, halloc, hres, htil⟩
  · constructor
    · rcases hres with hres | ⟨x, hx, hres⟩
      · exact hres ▸ Nat.dvd_zero 8
      · rw [hres]
        exact Nat.dvd_add (hT x (Tiling.mem_used_iff.mp hx).1) eight_dvd_sizeofBlock
    · rcases htil with htil | ⟨p, htil⟩
      · rwa [htil]
      · rw [htil]
        exact hT.release p
  · have hsize : T.Carves size → 8 ∣ size := by
      intro hc
      by_contra hodd
      exact heven (I.splits_iff.mpr ⟨size, halloc, hodd, hc⟩)
    have hmalloc := mallocTiling_aligned hT hsize
    refine ⟨hres ▸ mallocResult_aligned hT size, ?_⟩
    rcases htil with htil | ⟨x, -, htil⟩
    · rwa [htil]
    · rw [htil]
      exact hmalloc.release x.1

/-- After an uneven split the remainder's header is off the alignment. -/
theorem Inv.call_misaligned (I : Inv M w T) (hT : T.Aligned 8) {c : HeapCall}
    (ok : c.Allowed w.live) (hsplit : SplitsUnevenly w (.call c)) : ¬(c.tiling T).Aligned 8 := by
  obtain ⟨size, halloc, hodd, hc⟩ := I.splits_iff.mp hsplit
  obtain ⟨p, b, hp, hpmem, hused, hend⟩ := hc.used sizeofBlock_pos
  have hsize : size ≠ 0 := fun h => hodd (h ▸ Nat.dvd_zero 8)
  have hreserve : mallocTiling T size = T.reserve size := by rw [mallocTiling, if_neg hsize]
  rcases I.call_cases ok with ⟨hnone, -⟩ | ⟨size', halloc', -, htil⟩
  · simp [hnone] at halloc
  obtain rfl : size' = size := by simpa [halloc] using halloc'.symm
  have hplaced : (p, ⟨size', false⟩) ∈ (c.tiling T).placed := by
    rcases htil with htil | ⟨x, hx, htil⟩
    · rw [htil, hreserve]
      exact (Tiling.mem_used_iff.mp hused).1
    · -- the block released lies beside the one handed out
      obtain ⟨s, -, -, hothers⟩ := Tiling.mem_used_reserve hp
      obtain ⟨hxu, hxd⟩ := hothers x hx
      have hne : p ≠ x.1 := by
        have hh := sizeofBlock_pos
        omega
      rw [htil, hreserve]
      exact (Tiling.mem_used_iff.mp ((Tiling.mem_used_release sizeofBlock_pos hxu).mpr
        ⟨hused, hne⟩)).1
  obtain ⟨y, hy, hy1⟩ := Tiling.exists_next hplaced hend
  intro hal
  have hyd : 8 ∣ y.1 := hal y hy
  rw [hy1] at hyd
  exact hodd ((Nat.dvd_add_iff_right (Nat.dvd_add (hT _ hpmem) eight_dvd_sizeofBlock)).mpr hyd)

end Call

/-- The invariant of runs that keep the alignment. -/
def AlignedWorld (M : HeapMemory) (w : World) : Prop := ∃ T, Inv M w T ∧ T.Aligned 8

theorem AlignedWorld.start (h16 : 16 ∣ M.base) (H : Heap) : AlignedWorld M (World.start M H) := by
  refine ⟨_, Inv.start M H, fun x hx => ?_⟩
  have hx' : x = (M.base, ⟨M.stop - M.base - sizeofBlock, true⟩) := by
    simpa [wholeHeap, Tiling.whole, Tiling.placed] using hx
  rw [hx']
  exact Nat.dvd_trans (by decide) h16

theorem AlignedWorld.headers {w : World} (h : AlignedWorld M w) : HeadersAligned w := by
  obtain ⟨T, I, hT⟩ := h
  exact I.headersAligned_iff.mpr hT

/-- One step keeps the alignment exactly when it does not split unevenly. -/
theorem AlignedWorld.step {w w' : World} {e : Event} {r : ℕ} (h : AlignedWorld M w)
    (hstep : Step M w e r w') :
    (¬SplitsUnevenly w e ↔ 8 ∣ r ∧ HeadersAligned w') ∧ (¬SplitsUnevenly w e → AlignedWorld M w') := by
  obtain ⟨T, I, hT⟩ := h
  rcases I.step hstep with ⟨c, rfl, rfl, I'⟩ | ⟨addr, byte, rfl, I'⟩
  · cases hstep with
    | call ok run =>
      refine ⟨⟨fun heven => ?_, fun hal hsplit => ?_⟩, fun heven => ?_⟩
      · obtain ⟨hres, htil⟩ := I.call_aligned hT ok heven
        exact ⟨hres, I'.headersAligned_iff.mpr htil⟩
      · exact I.call_misaligned hT ok hsplit (I'.headersAligned_iff.mp hal.2)
      · exact ⟨_, I', (I.call_aligned hT ok heven).2⟩
  · cases hstep with
    | clientWrite live lower upper =>
      have hal := I'.headersAligned_iff.mpr hT
      exact ⟨⟨fun _ => ⟨Nat.dvd_zero 8, hal⟩, fun _ h => h⟩, fun _ => ⟨T, I', hT⟩⟩

/-- With `heap_memory` at a multiple of 16, a run that never splits a block
unevenly returns aligned pointers only and keeps every header aligned, and a run
that does both never splits unevenly. -/
theorem heap_aligned_iff (h16 : 16 ∣ M.base) {H : Heap} {tr : List (Event × ℕ)} {w : World} :
    (RunsUnder M (fun v e _ _ => ¬SplitsUnevenly v e) (World.start M H) tr w →
      HeadersAligned w ∧ ∀ x ∈ tr, 8 ∣ x.2) ∧
    (RunsUnder M (fun v e _ _ => ¬SplitsUnevenly v e) (World.start M H) tr w ↔
      RunsUnder M (fun _ _ r v => 8 ∣ r ∧ HeadersAligned v) (World.start M H) tr w) := by
  have hstart : AlignedWorld M (World.start M H) := AlignedWorld.start h16 H
  have hkeep : RunsUnder M (fun v e _ _ => ¬SplitsUnevenly v e) (World.start M H) tr w →
      RunsUnder M (fun _ _ r v => 8 ∣ r ∧ HeadersAligned v) (World.start M H) tr w ∧
        AlignedWorld M w := by
    intro h
    refine h.imp hstart fun v e r v' hv hstep heven => ?_
    obtain ⟨hiff, hnext⟩ := hv.step hstep
    exact ⟨hiff.mp heven, hnext heven⟩
  refine ⟨fun h => ?_, fun h => (hkeep h).1, fun h => ?_⟩
  · obtain ⟨hal, hw⟩ := hkeep h
    exact ⟨hw.headers, hal.results fun _ _ _ _ hr => hr.1⟩
  · refine (h.imp hstart fun v e r v' hv hstep hal => ?_).1
    obtain ⟨hiff, hnext⟩ := hv.step hstep
    exact ⟨hiff.mpr hal, hnext (hiff.mpr hal)⟩

/-- Sizes that are multiples of eight never split a block unevenly. -/
theorem not_splitsUnevenly {v : World} {size : ℕ} (h : 8 ∣ size) :
    ¬SplitsUnevenly v (.call (.malloc size)) := by
  rintro ⟨size', block, halloc, hodd, -⟩
  obtain rfl : size = size' := Option.some.inj halloc
  exact hodd h

theorem heap_aligned_words : ∃ tr w,
    RunsUnder bootMemory (fun v e _ _ => ¬SplitsUnevenly v e) (World.start bootMemory bootHeap) tr w ∧
      w.live.length = 2 ∧ HeadersAligned w ∧ ∀ x ∈ tr, 8 ∣ x.2 := by
  have hlive : (runEvents bootMemory (World.start bootMemory bootHeap)
      [.call (.malloc 104), .call (.malloc 200)]).map (fun x => x.2.live.length) = some 2 := by
    decide +kernel
  obtain ⟨⟨tr, w⟩, hrun, hlen⟩ := Option.map_eq_some_iff.mp hlive
  have heven : RunsUnder bootMemory (fun v e _ _ => ¬SplitsUnevenly v e)
      (World.start bootMemory bootHeap) tr w := by
    refine (runEvents_runs hrun).under fun v _ _ x hx => ?_
    have hfst := List.mem_map_of_mem (f := Prod.fst) hx
    rw [runEvents_events hrun] at hfst
    rcases List.mem_cons.mp hfst with he | he
    · exact he ▸ not_splitsUnevenly (by decide)
    · exact List.mem_singleton.mp he ▸ not_splitsUnevenly (by decide)
  exact ⟨tr, w, heven, hlen, (heap_aligned_iff (by decide)).1 heven⟩

/-- The first two calls of `test_memory_allocator`: the second pointer is at 4 modulo 8. -/
theorem boot_test_misaligned : 16 ∣ bootMemory.base ∧
    ∃ tr w, Runs bootMemory (World.start bootMemory bootHeap) tr w ∧
      calls tr = [.malloc 100, .malloc 200] ∧ ∃ x ∈ tr, ¬8 ∣ x.2 := by
  refine ⟨by decide, ?_⟩
  have hres : (runEvents bootMemory (World.start bootMemory bootHeap)
      [.call (.malloc 100), .call (.malloc 200)]).map (fun x => (calls x.1, x.1.map Prod.snd)) =
        some ([.malloc 100, .malloc 200], [0xffffffff80100018, 0xffffffff80100094]) := by
    decide +kernel
  obtain ⟨⟨tr, w⟩, hrun, hw⟩ := Option.map_eq_some_iff.mp hres
  obtain ⟨hcalls, hvals⟩ := Prod.mk.inj hw
  have hmem : 0xffffffff80100094 ∈ tr.map Prod.snd := by simp [hvals]
  obtain ⟨x, hx, hx2⟩ := List.mem_map.mp hmem
  exact ⟨tr, w, runEvents_runs hrun, hcalls, x, hx, by rw [hx2]; decide⟩

end BinOs.KernelHeap
