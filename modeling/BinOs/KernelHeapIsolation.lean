import BinOs.KernelHeapTiled
import BinOs.SegmentGaps

/-! # Isolation of clients, and where `malloc` places a block

A call leaves the payloads of the other live pointers alone and hands out memory
that nothing else occupies. Results depend on the calls only, never on the bytes
clients store. `malloc` fails exactly when no gap between live blocks has room,
and otherwise takes the lowest gap that has. -/
namespace BinOs.KernelHeap
open LittleEndianStore SegmentTiling

variable {M : HeapMemory}

/-- The pointer a call returns is the payload of a used block of the size asked for. -/
theorem HeapCall.result_block {w : World} {T : HeapTiling M} (I : Inv M w T) {c : HeapCall}
    (ok : c.Allowed w.live) (hr : c.result T ≠ null) :
    ∃ x ∈ (c.tiling T).used, c.result T = x.1 + sizeofBlock ∧ c.request ≤ x.2.size := by
  have hmalloc : ∀ n, mallocResult T n ≠ null →
      ∃ x ∈ (mallocTiling T n).used, mallocResult T n = x.1 + sizeofBlock ∧ n ≤ x.2.size := by
    intro n hn
    obtain ⟨p, s, hres, hs, -, -, hmem, -⟩ := mallocResult_ne_null hn
    exact ⟨_, hmem, hres, hs⟩
  cases c with
  | malloc n => exact hmalloc n hr
  | calloc k n => exact hmalloc _ hr
  | free p => exact absurd rfl hr
  | realloc p n =>
    rcases ok with rfl | hp
    · rw [HeapCall.result_realloc_null] at hr ⊢
      rw [HeapCall.tiling_realloc_null]
      exact hmalloc n hr
    · obtain ⟨x, hx, rfl⟩ := I.mem_live.mp hp
      simp only [HeapCall.result_realloc hx, HeapCall.tiling_realloc hx, reallocResult,
        reallocTiling, HeapCall.request] at hr ⊢
      by_cases hn : n = 0
      · simp [hn] at hr
      simp only [if_neg hn] at hr ⊢
      by_cases hfit : n ≤ x.2.size
      · simp only [if_pos hfit]
        exact ⟨x, hx, rfl, hfit⟩
      simp only [if_neg hfit] at hr ⊢
      obtain ⟨p, s, hres, hs, -, -, hmem, hothers⟩ := mallocResult_ne_null hr
      obtain ⟨hxu, hxd⟩ := hothers x hx
      have hM := M.layout
      rw [if_neg hr]
      refine ⟨_, (Tiling.mem_used_release sizeofBlock_pos hxu).mpr ⟨hmem, ?_⟩, hres, hs⟩
      simp only
      omega

structure CallIsolates (M : HeapMemory) (w : World) (c : HeapCall) (r : ℕ) (H : Heap) : Prop where
  kept : ∀ q ∈ w.live, q ≠ c.argument →
    ∀ k, q ≤ k → k < q + payloadSize w.heap.mem q → H.mem k = w.heap.mem k
  holds : r ≠ null →
    c.request ≤ payloadSize H.mem r ∧ M.base ≤ r ∧ r + payloadSize H.mem r ≤ M.stop
  clearOfHeaders : r ≠ null → ∃ hs, Visits H.mem H.heapStart hs ∧
    ∀ p ∈ hs, p + sizeofBlock ≤ r ∨ r + payloadSize H.mem r ≤ p
  clearOfPayloads : r ≠ null → ∀ q ∈ c.liveAfter w.live r, q ≠ r →
    q + payloadSize H.mem q ≤ r ∨ r + payloadSize H.mem r ≤ q

theorem Inv.callIsolates {w : World} {T : HeapTiling M} (I : Inv M w T) {c : HeapCall}
    (ok : c.Allowed w.live) :
    ∃ r H, c.exec M w.heap = some (r, H) ∧ CallIsolates M w c r H := by
  obtain ⟨m, hrun, I', hframe, -⟩ := I.call ok
  refine ⟨_, _, hrun, ?_, ?_, ?_, ?_⟩
  · intro q hq hne k hk hk'
    obtain ⟨x, hx, rfl⟩ := I.mem_live.mp hq
    rw [payloadSize_eq I.represents hx] at hk'
    have hmem : x ∈ T.used.filter (fun x => x.1 + sizeofBlock != c.argument) :=
      List.mem_filter.mpr ⟨hx, by simpa using hne⟩
    exact hframe k (Or.inr (Or.inr ⟨x, hmem, by omega, by omega⟩))
  all_goals
    intro hr
    obtain ⟨x, hx, hres, hreq⟩ := HeapCall.result_block I ok hr
    have hb := Tiling.placed_bounds (Tiling.mem_used_iff.mp hx).1
    have hsize := payloadSize_eq I'.represents hx
    rw [hres]
    rw [hsize]
  · exact ⟨hreq, by omega, by omega⟩
  · refine ⟨_, I'.tiled.visits, fun p hp => ?_⟩
    obtain ⟨y, hy, rfl⟩ := List.mem_map.mp hp
    rcases placed_disjoint hy (Tiling.mem_used_iff.mp hx).1 with rfl | hd | hd
    · exact Or.inl le_rfl
    · exact Or.inl (by omega)
    · exact Or.inr (by omega)
  · intro q hq hne
    rw [← hres] at hq
    obtain ⟨y, hy, rfl⟩ := I'.mem_live.mp hq
    rw [payloadSize_eq I'.represents hy]
    rcases used_disjoint hy hx with rfl | hd | hd
    · exact absurd rfl hne
    · exact Or.inl (by omega)
    · exact Or.inr (by omega)

theorem visits_unique {m : Store} {p : ℕ} {xs ys : List ℕ} (hx : Visits m p xs)
    (hy : Visits m p ys) : xs = ys := by
  induction xs generalizing p ys with
  | nil =>
    cases ys with
    | nil => rfl
    | cons y ys => exact absurd hx hy.1
  | cons x xs ih =>
    cases ys with
    | nil => exact absurd hy hx.1
    | cons y ys => rw [hx.2.1, hy.2.1, ih hx.2.2 hy.2.2]

/-- Isolation after every run from `init_heap`: of the calls, of the headers from
client writes, and of all results from the bytes clients stored. -/
theorem heap_isolation {H : Heap} {tr : List (Event × ℕ)} {w : World}
    (hrun : Runs M (World.start M H) tr w) :
    (∀ c : HeapCall, c.Allowed w.live →
      ∃ r H', c.exec M w.heap = some (r, H') ∧ CallIsolates M w c r H') ∧
    (∀ q ∈ w.live, ∀ addr byte, q ≤ addr → addr < q + payloadSize w.heap.mem q →
      ∀ hs, Visits w.heap.mem w.heap.heapStart hs → ∀ p ∈ hs, ∀ k, p ≤ k → k < p + sizeofBlock →
        Function.update w.heap.mem addr byte k = w.heap.mem k) ∧
    (∀ H' tr' w', Runs M (World.start M H') tr' w' → calls tr' = calls tr →
      results tr' = results tr) := by
  obtain ⟨T, I⟩ := hrun.inv
  refine ⟨fun c ok => I.callIsolates ok, ?_, ?_⟩
  · intro q hq addr byte hlo hhi hs hvis p hp k hk hk'
    obtain ⟨x, hx, rfl⟩ := I.mem_live.mp hq
    rw [payloadSize_eq I.represents hx] at hhi
    rw [visits_unique hvis I.tiled.visits] at hp
    obtain ⟨y, hy, rfl⟩ := List.mem_map.mp hp
    apply Function.update_of_ne
    rcases placed_disjoint hy (Tiling.mem_used_iff.mp hx).1 with rfl | hd | hd <;> omega
  · intro H' tr' w' hrun' hcalls
    rw [((Inv.start M H).run hrun).1, ((Inv.start M H').run hrun').1, hcalls]

theorem heap_isolation_boot : ∃ tr w r H', Runs bootMemory (World.start bootMemory bootHeap) tr w ∧
    HeapCall.exec bootMemory w.heap (.malloc 150) = some (r, H') ∧
    CallIsolates bootMemory w (.malloc 150) r H' := by
  obtain ⟨tr, w, hrun, -⟩ := bootEvents_run
  obtain ⟨r, H', hexec, hiso⟩ := (heap_isolation hrun).1 (.malloc 150) (Or.inl rfl)
  exact ⟨tr, w, r, H', hrun, hexec, hiso⟩

/-- A maximal stretch of `heap_memory` that no live allocation occupies, an
allocation being its header and the size recorded in it. -/
structure Gap (M : HeapMemory) (w : World) (s e : ℕ) : Prop where
  ordered : s ≤ e
  left : s = M.base ∨ ∃ q ∈ w.live, s = q + payloadSize w.heap.mem q
  right : e = M.stop ∨ ∃ q ∈ w.live, e = q - sizeofBlock
  clear : ∀ q ∈ w.live, q + payloadSize w.heap.mem q ≤ s ∨ e ≤ q - sizeofBlock

theorem Inv.gap_iff {w : World} {T : HeapTiling M} (I : Inv M w T) {s e : ℕ} :
    Gap M w s e ↔ IsGap sizeofBlock M.base M.stop T.used s e := by
  have hsize : ∀ x ∈ T.used, payloadSize w.heap.mem (x.1 + sizeofBlock) = x.2.size :=
    fun x hx => payloadSize_eq I.represents hx
  constructor
  · intro hg
    refine ⟨hg.ordered, hg.left.imp id ?_, hg.right.imp id ?_, fun x hx => ?_⟩
    · rintro ⟨q, hq, hs⟩
      obtain ⟨x, hx, rfl⟩ := I.mem_live.mp hq
      exact ⟨x, hx, by rw [hs, hsize x hx]⟩
    · rintro ⟨q, hq, he⟩
      obtain ⟨x, hx, rfl⟩ := I.mem_live.mp hq
      exact ⟨x, hx, by rw [he, Nat.add_sub_cancel]⟩
    · have hc := hg.clear _ (I.mem_live.mpr ⟨x, hx, rfl⟩)
      rwa [hsize x hx, Nat.add_sub_cancel] at hc
  · intro hg
    refine ⟨hg.ordered, hg.left.imp id ?_, hg.right.imp id ?_, fun q hq => ?_⟩
    · rintro ⟨x, hx, hs⟩
      exact ⟨_, I.mem_live.mpr ⟨x, hx, rfl⟩, by rw [hs, hsize x hx]⟩
    · rintro ⟨x, hx, he⟩
      exact ⟨_, I.mem_live.mpr ⟨x, hx, rfl⟩, by rw [he, Nat.add_sub_cancel]⟩
    · obtain ⟨x, hx, rfl⟩ := I.mem_live.mp hq
      rw [hsize x hx, Nat.add_sub_cancel]
      exact hg.clear x hx

theorem room_iff {n s e : ℕ} : n + sizeofBlock ≤ e - s ↔ s + (n + sizeofBlock) ≤ e := by
  have hh := sizeofBlock_pos
  omega

/-- `malloc` gives nothing when asked for nothing and when no gap has room. -/
theorem Inv.mallocResult_eq_null_iff {w : World} {T : HeapTiling M} (I : Inv M w T) {n : ℕ} :
    mallocResult T n = null ↔ n = 0 ∨ ¬∃ s e, Gap M w s e ∧ n + sizeofBlock ≤ e - s := by
  simp only [I.gap_iff, room_iff]
  rw [← Tiling.firstFit_eq_none_iff sizeofBlock_pos]
  by_cases hn : n = 0
  · simp [mallocResult, hn]
  · cases hp : T.firstFit n with
    | none => simp [mallocResult, hp]
    | some p => simp [mallocResult, hp, hn]

/-- `malloc` is complete and first fit over the gaps of the live set. -/
theorem malloc_complete {H : Heap} {tr : List (Event × ℕ)} {w : World}
    (hrun : Runs M (World.start M H) tr w) {n : ℕ} (hn : 0 < n) :
    ∃ r H', malloc M w.heap n = some (r, H') ∧
      (r = null ↔ ¬∃ s e, Gap M w s e ∧ n + sizeofBlock ≤ e - s) ∧
      (r ≠ null → ∃ s e, Gap M w s e ∧ n + sizeofBlock ≤ e - s ∧ r = s + sizeofBlock ∧
        ∀ s' e', Gap M w s' e' → n + sizeofBlock ≤ e' - s' → s ≤ s') ∧
      (r = null → H' = w.heap) := by
  have hM := M.layout
  obtain ⟨T, I⟩ := hrun.inv
  obtain ⟨m, hexec, -, -, hnull⟩ := malloc_refines I.represents n
  refine ⟨_, _, hexec, ?_, ?_, ?_⟩
  · rw [I.mallocResult_eq_null_iff, or_iff_right (Nat.ne_of_gt hn)]
  · intro hr
    simp only [I.gap_iff, room_iff]
    obtain ⟨p, s, hres, -, hp, -⟩ := mallocResult_ne_null hr
    obtain ⟨⟨e, hg, he⟩, hlow⟩ := Tiling.firstFit_lowest sizeofBlock_pos hp
    exact ⟨p, e, hg, he, hres, hlow⟩
  · intro hr
    rw [hnull hr]

theorem malloc_complete_boot : ∃ tr w r H', Runs bootMemory (World.start bootMemory bootHeap) tr w ∧
    malloc bootMemory w.heap 150 = some (r, H') ∧
    (r = null ↔ ¬∃ s e, Gap bootMemory w s e ∧ 150 + sizeofBlock ≤ e - s) := by
  obtain ⟨tr, w, hrun, -⟩ := bootEvents_run
  obtain ⟨r, H', hexec, hiff, -⟩ := malloc_complete hrun (n := 150) (by decide)
  exact ⟨tr, w, r, H', hrun, hexec, hiff⟩

end BinOs.KernelHeap
