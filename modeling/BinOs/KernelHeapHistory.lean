import BinOs.KernelHeapContents
import Mathlib.Data.List.Sort

/-! # The heap has no history

What the heap looks like, and what it will answer to any further calls, is determined by the
blocks in use: not by the order in which they came to be, nor by what has been freed between
them. -/
namespace BinOs.KernelHeap
open LittleEndianStore SegmentTiling

variable {M : HeapMemory}

/-- The live pointers with the sizes of their blocks. -/
def World.blocks (w : World) : List (ℕ × ℕ) := w.live.map fun p => (p, payloadSize w.heap.mem p)

/-- The same headers, with the same contents. -/
def LaidOutAlike (H H' : Heap) : Prop :=
  H'.heapStart = H.heapStart ∧ ∃ hs, Visits H.mem H.heapStart hs ∧ Visits H'.mem H.heapStart hs ∧
    ∀ p ∈ hs, blockSize H'.mem p = blockSize H.mem p ∧ blockIsFree H'.mem p = blockIsFree H.mem p

section Tilings
variable {w w' : World} {T T' : HeapTiling M}

theorem Inv.blocks_perm (I : Inv M w T) :
    w.blocks.Perm (T.used.map fun x => (x.1 + sizeofBlock, x.2.size)) := by
  have hperm := I.live.map fun p => (p, payloadSize w.heap.mem p)
  rw [List.map_map] at hperm
  refine hperm.trans (List.Perm.of_eq (List.map_congr_left fun x hx => ?_))
  exact Prod.ext rfl (payloadSize_eq I.represents hx)

/-- The used blocks in the order of their addresses. -/
theorem blocks_sorted (T : HeapTiling M) :
    (T.used.map fun x => (x.1 + sizeofBlock, x.2.size)).Pairwise (fun x y => x.1 < y.1) := by
  refine List.pairwise_map.mpr (T.used_pairwise.imp fun {x y} hxy => ?_)
  have hh := sizeofBlock_pos
  simp only
  omega

theorem used_of_blocks (h : T.used.map (fun x => (x.1 + sizeofBlock, x.2.size)) =
    T'.used.map fun x => (x.1 + sizeofBlock, x.2.size)) : T.used = T'.used := by
  have hback (U : HeapTiling M) : (U.used.map fun x => (x.1 + sizeofBlock, x.2.size)).map
      (fun y : ℕ × ℕ => (y.1 - sizeofBlock, (⟨y.2, false⟩ : Segment))) = U.used := by
    rw [List.map_map]
    refine (List.map_congr_left fun x hx => ?_).trans (List.map_id _)
    have hfree := (Tiling.mem_used_iff.mp hx).2
    rcases x with ⟨a, size, free⟩
    exact Prod.ext (Nat.add_sub_cancel a sizeofBlock) (congrArg (Segment.mk size) hfree.symm)
  rw [← hback T, h, hback T']

theorem Inv.tiling_unique (I : Inv M w T) (I' : Inv M w' T') (h : w.blocks.Perm w'.blocks) :
    T = T' := by
  have hperm := I.blocks_perm.symm.trans (h.trans I'.blocks_perm)
  refine Tiling.eq_of_used_eq sizeofBlock_pos (used_of_blocks ?_)
  exact hperm.eq_of_pairwise (fun x y _ _ hxy hyx => absurd hyx (Nat.lt_asymm hxy))
    (blocks_sorted T) (blocks_sorted T')

theorem Represents.laidOutAlike {H H' : Heap} (R : Represents M H T) (R' : Represents M H' T) :
    LaidOutAlike H H' := by
  have hM := M.layout
  have hvisits := visits_placed le_rfl T.fills R.headers
  have hvisits' := visits_placed le_rfl T.fills R'.headers
  rw [link_of_lt (by simp)] at hvisits hvisits'
  refine ⟨R'.start.trans R.start.symm, T.placed.map Prod.fst, ?_, ?_, fun p hp => ?_⟩
  · rw [R.start]
    exact hvisits
  · rw [R.start]
    exact hvisits'
  obtain ⟨x, hx, rfl⟩ := List.mem_map.mp hp
  exact ⟨(R'.headers x hx).size.trans (R.headers x hx).size.symm,
    (R'.headers x hx).isFree.trans (R.headers x hx).isFree.symm⟩

end Tilings

variable {H₁ H₂ : Heap} {tr₁ tr₂ : List (Event × ℕ)} {w₁ w₂ : World}

/-- Two runs that end with the same blocks in use have made the same heap, and it answers alike
from then on. -/
theorem heap_history_irrelevant (h₁ : Runs M (World.start M H₁) tr₁ w₁)
    (h₂ : Runs M (World.start M H₂) tr₂ w₂) (hsame : w₁.blocks.Perm w₂.blocks) :
    LaidOutAlike w₁.heap w₂.heap ∧ getHeapStats w₁.heap = getHeapStats w₂.heap ∧
    ∀ more₁ more₂ v₁ v₂, Runs M w₁ more₁ v₁ → Runs M w₂ more₂ v₂ → calls more₁ = calls more₂ →
      results more₁ = results more₂ := by
  obtain ⟨T, I₁⟩ := h₁.inv
  obtain ⟨U, I₂⟩ := h₂.inv
  obtain rfl : T = U := I₁.tiling_unique I₂ hsame
  refine ⟨I₁.represents.laidOutAlike I₂.represents, ?_, fun more₁ more₂ v₁ v₂ hmore₁ hmore₂ hcalls => ?_⟩
  · rw [getHeapStats_eq I₁.represents, getHeapStats_eq I₂.represents]
  · rw [(I₁.run hmore₁).1, (I₂.run hmore₂).1, hcalls]

/-- Three calls, and the one of them that leaves something. -/
def detour : List Event := [.call (.malloc 100), .call (.calloc 10 4), .call (.free 0xffffffff80100094)]

theorem heap_history_irrelevant_detour : ∃ tr₁ w₁ tr₂ w₂,
    Runs bootMemory (World.start bootMemory bootHeap) tr₁ w₁ ∧
    Runs bootMemory (World.start bootMemory bootHeap) tr₂ w₂ ∧ LaidOutAlike w₁.heap w₂.heap := by
  have hblocks (events : List Event)
      (h : (runEvents bootMemory (World.start bootMemory bootHeap) events).map
        (fun x => x.2.blocks) = some [(0xffffffff80100018, 100)]) :
      ∃ tr w, Runs bootMemory (World.start bootMemory bootHeap) tr w ∧
        w.blocks = [(0xffffffff80100018, 100)] := by
    obtain ⟨⟨tr, w⟩, hrun, hw⟩ := Option.map_eq_some_iff.mp h
    exact ⟨tr, w, runEvents_runs hrun, hw⟩
  obtain ⟨tr₁, w₁, hrun₁, hw₁⟩ := hblocks [.call (.malloc 100)] (by decide +kernel)
  obtain ⟨tr₂, w₂, hrun₂, hw₂⟩ := hblocks detour (by decide +kernel)
  exact ⟨tr₁, w₁, tr₂, w₂, hrun₁, hrun₂,
    (heap_history_irrelevant hrun₁ hrun₂ (List.Perm.of_eq (hw₁.trans hw₂.symm))).1⟩

end BinOs.KernelHeap
