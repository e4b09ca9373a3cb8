import BinOs.KernelHeapHistory
import BinOs.UnknownConversions

/-! # The kernel's test of its allocator

`kmain` runs the test on the heap that ACPI has already used. It leaves that heap as it was, but
for one case. -/
namespace BinOs.AllocatorTest
open KernelHeap MemoryStrings SerialPort UnknownConversions

/-- The pointers, and what `get_heap_stats` gave three times. -/
structure Report where
  ptr1 : ℕ
  ptr2 : ℕ
  ptr3 : ℕ
  ptr4 : ℕ
  ptr5 : ℕ
  stats : ℕ × ℕ × ℕ
  afterFree : ℕ × ℕ × ℕ
  final : ℕ × ℕ × ℕ

def testMemoryAllocator (M : HeapMemory) (H : Heap) : Option (Report × Heap) := do
  let (ptr1, H) ← malloc M H 100
  let (ptr2, H) ← malloc M H 200
  let (ptr3, H) ← calloc M H 10 4
  let stats ← getHeapStats H
  let H ← free H ptr1
  let afterFree ← getHeapStats H
  let (ptr4, H) ← malloc M H 150
  let (ptr5, H) ← realloc M H ptr2 400
  let H ← free H ptr3
  let H ← free H ptr4
  let H ← free H ptr5
  let final ← getHeapStats H
  some (⟨ptr1, ptr2, ptr3, ptr4, ptr5, stats, afterFree, final⟩, H)

def printText (format : String) (args : List Arg) : Option (List UInt8) :=
  serialPrintf (literal (ascii format)) args

/-- A `size_t` is passed like a pointer, in 64 bits. -/
def wordArg (n : ℕ) : Arg := .pointer (UInt64.ofNat n)

def pointerText (allocated failed : String) (ptr : ℕ) : Option (List UInt8) :=
  if ptr ≠ null then printText allocated [wordArg ptr] else printText failed []

def statsText (format : String) (stats : ℕ × ℕ × ℕ) : Option (List UInt8) :=
  printText format [wordArg stats.1, wordArg stats.2.1, wordArg stats.2.2]

/-- What is printed between the calls, in order. -/
def testText (r : Report) : Option (List UInt8) :=
  ([printText "Testing memory allocator...\r\n" [],
    pointerText "Allocated 100 bytes at %p\r\n" "Failed to allocate 100 bytes\r\n" r.ptr1,
    pointerText "Allocated 200 bytes at %p\r\n" "Failed to allocate 200 bytes\r\n" r.ptr2,
    pointerText "Allocated 40 bytes (calloc) at %p\r\n"
      "Failed to allocate 40 bytes with calloc\r\n" r.ptr3,
    statsText "Heap stats: Total=%zu, Used=%zu, Free=%zu\r\n" r.stats,
    printText "Freed ptr1\r\n" [],
    statsText "After free: Total=%zu, Used=%zu, Free=%zu\r\n" r.afterFree,
    pointerText "Allocated 150 bytes at %p (should reuse freed space)\r\n"
      "Failed to allocate 150 bytes\r\n" r.ptr4,
    pointerText "Reallocated ptr2 to 400 bytes at %p\r\n" "Failed to reallocate ptr2\r\n" r.ptr5,
    statsText "Final heap stats: Total=%zu, Used=%zu, Free=%zu\r\n" r.final,
    printText "Memory allocator test completed\r\n" []].mapM id).map List.flatten

/-- No `%zu` is converted. -/
theorem statsText_eq {format : String} (hnonzero : ∀ c ∈ ascii format, c ≠ 0)
    (hverbatim : Verbatim (ascii format)) (stats : ℕ × ℕ × ℕ) :
    statsText format stats = some (ascii format) :=
  serialPrintf_verbatim (literal_holds hnonzero) hverbatim _

/-- The text does not tell the statistics. -/
theorem testText_stats (r : Report) (stats afterFree final : ℕ × ℕ × ℕ) :
    testText { r with stats, afterFree, final } = testText r := by
  simp only [testText, statsText_eq (by decide +kernel : ∀ c ∈ ascii
      "Heap stats: Total=%zu, Used=%zu, Free=%zu\r\n", c ≠ 0) (by decide +kernel),
    statsText_eq (by decide +kernel : ∀ c ∈ ascii
      "After free: Total=%zu, Used=%zu, Free=%zu\r\n", c ≠ 0) (by decide +kernel),
    statsText_eq (by decide +kernel : ∀ c ∈ ascii
      "Final heap stats: Total=%zu, Used=%zu, Free=%zu\r\n", c ≠ 0) (by decide +kernel)]

variable {M : HeapMemory} {w : World} {H : Heap} {extra rest : List ℕ}

/-- The heap when beside the live blocks of `w`, untouched, these are in use. -/
structure Beside (M : HeapMemory) (w : World) (extra : List ℕ) (H : Heap) : Prop where
  inv : ∃ T, Inv M ⟨H, extra ++ w.live⟩ T
  kept : ∀ q ∈ w.live, payloadSize H.mem q = payloadSize w.heap.mem q ∧
    ∀ k, q ≤ k + sizeofBlock → k < q + payloadSize w.heap.mem q → H.mem k = w.heap.mem k

/-- The block that a call returned, if it returned one. -/
def block (r : ℕ) : List ℕ := if r = null then [] else [r]

theorem Beside.of_inv {T : HeapTiling M} (I : Inv M w T) : Beside M w [] w.heap :=
  ⟨⟨T, I⟩, fun _ _ => ⟨rfl, fun _ _ _ => rfl⟩⟩

theorem Beside.perm (h : Beside M w extra H) {other : List ℕ} (hperm : extra.Perm other) :
    Beside M w other H := by
  obtain ⟨T, I⟩ := h.inv
  exact ⟨⟨T, I.represents, (hperm.symm.append_right _).trans I.live⟩, h.kept⟩

theorem Beside.call (h : Beside M w extra H) {c : HeapCall}
    (harg : c.argument = null ∨ c.argument ∈ extra) :
    ∃ r H', c.exec M H = some (r, H') ∧
      ∀ other, other ++ w.live = c.liveAfter (extra ++ w.live) r → Beside M w other H' := by
  obtain ⟨T, I⟩ := h.inv
  obtain ⟨m, hrun, I', hframe, -⟩ :=
    I.call (c := c) (harg.imp_right fun hextra => List.mem_append_left _ hextra)
  refine ⟨_, _, hrun, fun other hother => ⟨⟨_, hother ▸ I'⟩, fun q hq => ?_⟩⟩
  have hne : q ≠ c.argument := by
    rintro rfl
    obtain hnull | hextra := harg
    · exact I.null_notMem (hnull ▸ List.mem_append_right _ hq)
    · exact (List.nodup_append.mp I.live_nodup).2.2 _ hextra _ hq rfl
  obtain ⟨hsize, hbytes⟩ := hframe.live_block I (List.mem_append_right extra hq) hne
  obtain ⟨hsize', hbytes'⟩ := h.kept q hq
  exact ⟨hsize.trans hsize', fun k hle hlt =>
    (hbytes k hle (hsize' ▸ hlt)).trans (hbytes' k hle hlt)⟩

theorem Beside.malloc (h : Beside M w extra H) (n : ℕ) :
    ∃ r H', KernelHeap.malloc M H n = some (r, H') ∧ Beside M w (block r ++ extra) H' := by
  obtain ⟨r, H', hrun, hnext⟩ := h.call (c := .malloc n) (.inl rfl)
  refine ⟨r, H', hrun, hnext _ ?_⟩
  rw [HeapCall.liveAfter, block]
  split <;> rfl

theorem Beside.calloc (h : Beside M w extra H) (num size : ℕ) :
    ∃ r H', KernelHeap.calloc M H num size = some (r, H') ∧ Beside M w (block r ++ extra) H' := by
  obtain ⟨r, H', hrun, hnext⟩ := h.call (c := .calloc num size) (.inl rfl)
  refine ⟨r, H', hrun, hnext _ ?_⟩
  rw [HeapCall.liveAfter, block]
  split <;> rfl

theorem block_mem {p : ℕ} (rest : List ℕ) : p = null ∨ p ∈ block p ++ rest := by
  by_cases hnull : p = null
  · exact .inl hnull
  · rw [block, if_neg hnull]
    exact .inr List.mem_cons_self

theorem Beside.free {p : ℕ} (h : Beside M w (block p ++ rest) H) :
    ∃ H', KernelHeap.free H p = some H' ∧ Beside M w rest H' := by
  obtain ⟨r, H', hrun, hnext⟩ := h.call (c := .free p) (block_mem rest)
  obtain ⟨H'', hfree, heq⟩ := Option.map_eq_some_iff.mp hrun
  obtain rfl : H'' = H' := (Prod.mk.inj heq).2
  refine ⟨H'', hfree, hnext rest ?_⟩
  rw [HeapCall.liveAfter]
  by_cases hnull : p = null
  · obtain ⟨T, I⟩ := h.inv
    have hnotMem := I.null_notMem
    rw [block, if_pos hnull, List.nil_append] at hnotMem ⊢
    rw [hnull, List.erase_of_not_mem hnotMem]
  · rw [block, if_neg hnull]
    exact (List.erase_cons_head p _).symm

/-- A call that asks for something either moves the block or leaves it. -/
theorem Beside.realloc {p n : ℕ} (h : Beside M w (block p ++ rest) H) (hn : n ≠ 0) :
    ∃ r H', KernelHeap.realloc M H p n = some (r, H') ∧
      Beside M w ((if r = null then block p else block r) ++ rest) H' := by
  obtain ⟨r, H', hrun, hnext⟩ := h.call (c := .realloc p n) (block_mem rest)
  refine ⟨r, H', hrun, hnext _ ?_⟩
  rw [HeapCall.liveAfter, if_neg fun hzero : p ≠ null ∧ n = 0 => hn hzero.2]
  by_cases hr : r = null
  · rw [if_pos hr, if_pos hr]
  · rw [if_neg hr, if_neg hr, block, if_neg hr]
    by_cases hnull : p = null
    · obtain ⟨T, I⟩ := h.inv
      have hnotMem := I.null_notMem
      rw [block, if_pos hnull, List.nil_append] at hnotMem ⊢
      rw [hnull, List.erase_of_not_mem hnotMem]
      rfl
    · rw [block, if_neg hnull]
      exact congrArg (r :: ·) (List.erase_cons_head p _).symm

theorem Beside.stats (h : Beside M w extra H) : ∃ stats, getHeapStats H = some stats := by
  obtain ⟨T, I⟩ := h.inv
  exact ⟨_, getHeapStats_eq I.represents⟩

/-- The blocks of `w`, and nothing else, make up the heap of `w`. -/
theorem Beside.restored {T : HeapTiling M} (I : Inv M w T) (h : Beside M w [] H) :
    LaidOutAlike w.heap H ∧ getHeapStats H = getHeapStats w.heap := by
  obtain ⟨U, J⟩ := h.inv
  have hblocks : w.blocks = World.blocks ⟨H, [] ++ w.live⟩ :=
    List.map_congr_left fun q hq => Prod.ext rfl (h.kept q hq).1.symm
  obtain rfl : T = U := I.tiling_unique J (List.Perm.of_eq hblocks)
  exact ⟨I.represents.laidOutAlike J.represents, by
    rw [getHeapStats_eq I.represents, getHeapStats_eq J.represents]⟩

/-- With one more block in use the heap looks different. -/
theorem Beside.differs {T : HeapTiling M} {p : ℕ} (I : Inv M w T) (h : Beside M w [p] H) :
    ¬ LaidOutAlike w.heap H := by
  obtain ⟨U, J⟩ := h.inv
  rintro ⟨hstart, hs, hvisits, hvisits', hsame⟩
  have hlive := (I.tiled).live p
  have hlive' := (J.tiled).live p
  rw [visits_unique I.tiled.visits hvisits] at hlive
  rw [visits_unique J.tiled.visits (hstart ▸ hvisits')] at hlive'
  have hmem : p ∈ w.live := by
    obtain ⟨q, hq, hfree, rfl⟩ := hlive'.mp List.mem_cons_self
    exact hlive.mpr ⟨q, hq, (hsame q hq).2 ▸ hfree, rfl⟩
  exact (List.nodup_cons.mp J.live_nodup).1 hmem

/-- What the test leaves in use: the block that was not reallocated. -/
def leaked (r : Report) : List ℕ := if r.ptr5 = null then block r.ptr2 else []

theorem testMemoryAllocator_beside {T : HeapTiling M} (I : Inv M w T) :
    ∃ r H', testMemoryAllocator M w.heap = some (r, H') ∧ Beside M w (leaked r) H' ∧
      getHeapStats H' = some r.final := by
  obtain ⟨ptr1, H₁, hrun₁, h₁⟩ := (Beside.of_inv I).malloc 100
  obtain ⟨ptr2, H₂, hrun₂, h₂⟩ := h₁.malloc 200
  obtain ⟨ptr3, H₃, hrun₃, h₃⟩ := h₂.calloc 10 4
  obtain ⟨stats, hstats⟩ := h₃.stats
  have hfirst : (block ptr3 ++ (block ptr2 ++ (block ptr1 ++ []))).Perm
      (block ptr1 ++ (block ptr3 ++ block ptr2)) := by
    rw [List.append_nil, ← List.append_assoc]
    exact List.perm_append_comm
  obtain ⟨H₄, hrun₄, h₄⟩ := (h₃.perm hfirst).free
  obtain ⟨afterFree, hafterFree⟩ := h₄.stats
  obtain ⟨ptr4, H₅, hrun₅, h₅⟩ := h₄.malloc 150
  have hsecond : (block ptr4 ++ (block ptr3 ++ block ptr2)).Perm
      (block ptr2 ++ (block ptr4 ++ block ptr3)) := by
    rw [← List.append_assoc]
    exact List.perm_append_comm
  obtain ⟨ptr5, H₆, hrun₆, h₆⟩ := (h₅.perm hsecond).realloc (n := 400) (by decide)
  have hthird : ((if ptr5 = null then block ptr2 else block ptr5) ++ (block ptr4 ++ block ptr3)).Perm
      (block ptr3 ++ (block ptr4 ++ if ptr5 = null then block ptr2 else block ptr5)) := by
    refine List.perm_append_comm.trans ?_
    rw [← List.append_assoc]
    exact List.perm_append_comm.append_right _
  obtain ⟨H₇, hrun₇, h₇⟩ := (h₆.perm hthird).free
  obtain ⟨H₈, hrun₈, h₈⟩ := h₇.free
  have hlast : ∃ H', KernelHeap.free H₈ ptr5 = some H' ∧
      Beside M w (if ptr5 = null then block ptr2 else []) H' := by
    by_cases hfailed : ptr5 = null
    · rw [if_pos hfailed] at h₈ ⊢
      refine Beside.free ?_
      rwa [block, if_pos hfailed, List.nil_append]
    · rw [if_neg hfailed] at h₈ ⊢
      refine Beside.free ?_
      rwa [List.append_nil]
  obtain ⟨H₉, hrun₉, h₉⟩ := hlast
  obtain ⟨final, hfinal⟩ := h₉.stats
  refine ⟨⟨ptr1, ptr2, ptr3, ptr4, ptr5, stats, afterFree, final⟩, H₉, ?_, h₉, hfinal⟩
  rw [testMemoryAllocator, hrun₁, Option.bind_eq_bind, Option.bind_some]
  simp only [hrun₂, hrun₃, hstats, hrun₄, hafterFree, hrun₅, hrun₆, hrun₇, hrun₈, hrun₉, hfinal,
    Option.bind_eq_bind, Option.bind_some]

/-- In every state of the heap the test comes to its end, touches no block that was in use, and
puts every header back as it was; unless `realloc` finds no room after `malloc(200)` did: then
`ptr2` stays in use. -/
theorem test_restores_heap_iff {H₀ : Heap} {tr : List (Event × ℕ)}
    (hrun : Runs M (World.start M H₀) tr w) :
    ∃ r H', testMemoryAllocator M w.heap = some (r, H') ∧
      (∀ q ∈ w.live, payloadSize H'.mem q = payloadSize w.heap.mem q ∧
        ∀ k, q ≤ k + sizeofBlock → k < q + payloadSize w.heap.mem q →
          H'.mem k = w.heap.mem k) ∧
      (LaidOutAlike w.heap H' ↔ r.ptr2 = null ∨ r.ptr5 ≠ null) ∧
      (LaidOutAlike w.heap H' → getHeapStats w.heap = some r.final) ∧
      (¬ LaidOutAlike w.heap H' → ∃ hs, Tiled M ⟨H', r.ptr2 :: w.live⟩ hs) := by
  obtain ⟨T, I⟩ := hrun.inv
  obtain ⟨r, H', htest, hbeside, hfinal⟩ := testMemoryAllocator_beside I
  refine ⟨r, H', htest, hbeside.kept, ?_⟩
  by_cases hgood : r.ptr2 = null ∨ r.ptr5 ≠ null
  · have hnone : leaked r = [] := by
      rw [leaked, block]
      obtain hnull | hmoved := hgood
      · rw [if_pos hnull, ite_self]
      · rw [if_neg hmoved]
    obtain ⟨halike, hstats⟩ := Beside.restored I (hnone ▸ hbeside)
    exact ⟨iff_of_true halike hgood, fun _ => hstats ▸ hfinal, fun h => absurd halike h⟩
  · obtain ⟨hptr2, hptr5⟩ := not_or.mp hgood
    have hone : leaked r = [r.ptr2] := by
      rw [leaked, if_pos (not_not.mp hptr5), block, if_neg hptr2]
    rw [hone] at hbeside
    obtain ⟨U, J⟩ := hbeside.inv
    have hdiffers := Beside.differs I hbeside
    exact ⟨iff_of_false hdiffers hgood, fun h => absurd h hdiffers, fun _ => ⟨_, J.tiled⟩⟩

theorem test_restores_heap_iff_boot : ∃ tr w r H',
    Runs bootMemory (World.start bootMemory bootHeap) tr w ∧
    testMemoryAllocator bootMemory w.heap = some (r, H') ∧
    (LaidOutAlike w.heap H' ↔ r.ptr2 = null ∨ r.ptr5 ≠ null) := by
  obtain ⟨tr, w, hrun, -⟩ := bootEvents_run
  obtain ⟨r, H', htest, -, halike, -⟩ := test_restores_heap_iff hrun
  exact ⟨tr, w, r, H', hrun, htest, halike⟩

end BinOs.AllocatorTest
