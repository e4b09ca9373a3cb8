import BinOs.KernelHeapOperations

/-! # Runs of heap calls and client writes

A run starts from `init_heap` on any memory. `live` is a ghost list of the
pointers handed out and not yet freed or moved. Clients pass `NULL` or a live
pointer to `free` and `realloc` and store bytes in live payloads only. Sizes range
over all naturals, so over every `size_t`. -/
namespace BinOs.KernelHeap
open LittleEndianStore SegmentTiling

inductive HeapCall
  | malloc (size : ℕ)
  | calloc (num size : ℕ)
  | realloc (ptr size : ℕ)
  | free (ptr : ℕ)
  deriving DecidableEq

inductive Event
  | call (c : HeapCall)
  | clientWrite (addr : ℕ) (byte : UInt8)

structure World where
  heap : Heap
  live : List ℕ

namespace HeapCall

/-- The value returned, `NULL` for `free`, and the heap left behind. -/
def exec (M : HeapMemory) (H : Heap) : HeapCall → Option (ℕ × Heap)
  | malloc size => KernelHeap.malloc M H size
  | calloc num size => KernelHeap.calloc M H num size
  | realloc ptr size => KernelHeap.realloc M H ptr size
  | free ptr => (KernelHeap.free H ptr).map (fun H => (null, H))

/-- The pointer a call is given; `NULL` when it takes none. -/
def argument : HeapCall → ℕ
  | malloc _ | calloc _ _ => null
  | realloc ptr _ | free ptr => ptr

/-- The number of bytes a call asks for, as passed to `malloc`. -/
def request : HeapCall → ℕ
  | malloc size => size
  | calloc num size => wrap (num * size)
  | realloc _ size => size
  | free _ => 0

def Allowed (live : List ℕ) (c : HeapCall) : Prop := c.argument = null ∨ c.argument ∈ live

/-- The live pointers after a call that returned `r`. -/
def liveAfter (live : List ℕ) (r : ℕ) : HeapCall → List ℕ
  | malloc _ | calloc _ _ => if r = null then live else r :: live
  | free ptr => live.erase ptr
  | realloc ptr size =>
    if ptr ≠ null ∧ size = 0 then live.erase ptr
    else if r = null then live
    else r :: live.erase ptr

end HeapCall

/-- The size recorded in the header in front of `ptr`. -/
def payloadSize (m : Store) (ptr : ℕ) : ℕ := blockSize m (ptr - sizeofBlock)

inductive Step (M : HeapMemory) : World → Event → ℕ → World → Prop
  | call {w : World} {c : HeapCall} {r : ℕ} {H : Heap} (allowed : c.Allowed w.live)
      (run : c.exec M w.heap = some (r, H)) : Step M w (.call c) r ⟨H, c.liveAfter w.live r⟩
  | clientWrite {w : World} {addr ptr : ℕ} {byte : UInt8} (live : ptr ∈ w.live) (lower : ptr ≤ addr)
      (upper : addr < ptr + payloadSize w.heap.mem ptr) :
      Step M w (.clientWrite addr byte) null
        ⟨⟨Function.update w.heap.mem addr byte, w.heap.heapStart⟩, w.live⟩

/-- A run with the events and the values they returned, oldest first. -/
inductive Runs (M : HeapMemory) : World → List (Event × ℕ) → World → Prop
  | nil (w : World) : Runs M w [] w
  | cons {w₁ w₂ w₃ : World} {e : Event} {r : ℕ} {tr : List (Event × ℕ)} (step : Step M w₁ e r w₂)
      (rest : Runs M w₂ tr w₃) : Runs M w₁ ((e, r) :: tr) w₃

/-- The world right after `init_heap`. -/
def World.start (M : HeapMemory) (H : Heap) : World := ⟨initHeap M H, []⟩

variable {M : HeapMemory}

structure Inv (M : HeapMemory) (w : World) (T : HeapTiling M) : Prop where
  represents : Represents M w.heap T
  live : w.live.Perm (T.used.map (fun x => x.1 + sizeofBlock))

theorem Inv.start (M : HeapMemory) (H : Heap) : Inv M (World.start M H) (wholeHeap M) :=
  ⟨initHeap_represents M H, List.Perm.refl _⟩

section Live
variable {w : World} {T : HeapTiling M}

theorem Inv.mem_live (I : Inv M w T) {p : ℕ} :
    p ∈ w.live ↔ ∃ x ∈ T.used, p = x.1 + sizeofBlock := by
  rw [I.live.mem_iff, List.mem_map]
  exact ⟨fun ⟨x, hx, hp⟩ => ⟨x, hx, hp.symm⟩, fun ⟨x, hx, hp⟩ => ⟨x, hx, hp.symm⟩⟩

theorem Inv.null_notMem (I : Inv M w T) : null ∉ w.live := by
  intro hnull
  obtain ⟨x, -, hx⟩ := I.mem_live.mp hnull
  have hM := M.layout
  omega

theorem payloadSize_eq {H : Heap} (R : Represents M H T) {x : ℕ × Segment} (hx : x ∈ T.used) :
    payloadSize H.mem (x.1 + sizeofBlock) = x.2.size := by
  rw [payloadSize, Nat.add_sub_cancel]
  exact (R.headers x (Tiling.mem_used_iff.mp hx).1).size

theorem used_eq_of_ptr_eq {x y : ℕ × Segment} (hx : x ∈ T.used) (hy : y ∈ T.used)
    (he : x.1 + sizeofBlock = y.1 + sizeofBlock) : x = y :=
  placed_unique sizeofBlock_pos (Tiling.mem_used_iff.mp hx).1 (Tiling.mem_used_iff.mp hy).1
    (Nat.add_right_cancel he)

theorem live_after_malloc {live : List ℕ} (h : live.Perm (T.used.map (fun x => x.1 + sizeofBlock)))
    (n : ℕ) :
    (if mallocResult T n = null then live else mallocResult T n :: live).Perm
      ((mallocTiling T n).used.map (fun x => x.1 + sizeofBlock)) := by
  split_ifs with hr
  · rwa [mallocTiling_of_null hr]
  · obtain ⟨p, s, hres, -, hp, htil, -⟩ := mallocResult_ne_null hr
    obtain ⟨s, xs, ys, -, hold, hnew⟩ := Tiling.used_reserve hp
    rw [hres, htil, hnew, List.map_append, List.map_cons]
    rw [hold, List.map_append] at h
    exact (h.cons _).trans List.perm_middle.symm

theorem live_after_release {live : List ℕ}
    (h : live.Perm (T.used.map (fun x => x.1 + sizeofBlock))) {x : ℕ × Segment} (hx : x ∈ T.used) :
    (live.erase (x.1 + sizeofBlock)).Perm
      ((T.release x.1).used.map (fun x => x.1 + sizeofBlock)) := by
  obtain ⟨xs, ys, hold, hnew⟩ := Tiling.used_release sizeofBlock_pos hx
  rw [hold, List.map_append, List.map_cons] at h
  have he := (h.trans List.perm_middle).erase (x.1 + sizeofBlock)
  rw [List.erase_cons_head] at he
  rwa [hnew, List.map_append]

/-- A block that moves is allocated anew before its old place is released. -/
theorem live_after_realloc {live : List ℕ}
    (h : live.Perm (T.used.map (fun x => x.1 + sizeofBlock))) {x : ℕ × Segment} (hx : x ∈ T.used)
    (n : ℕ) :
    ((HeapCall.realloc (x.1 + sizeofBlock) n).liveAfter live (reallocResult T x n)).Perm
      ((reallocTiling T x n).used.map (fun x => x.1 + sizeofBlock)) := by
  have hM := M.layout
  have hne : ¬x.1 + sizeofBlock = null := by omega
  simp only [HeapCall.liveAfter, reallocResult, reallocTiling]
  by_cases hn : n = 0
  · simpa [hn, hne] using live_after_release h hx
  simp only [hn, if_false, and_false]
  by_cases hfit : n ≤ x.2.size
  · have hp : x.1 + sizeofBlock ∈ live := h.mem_iff.mpr (List.mem_map_of_mem hx)
    simp only [if_pos hfit, if_neg hne]
    exact (List.perm_cons_erase hp).symm.trans h
  simp only [if_neg hfit]
  by_cases hr : mallocResult T n = null
  · simpa only [if_pos hr] using h
  obtain ⟨q, s, hq, -, -, -, -, hothers⟩ := mallocResult_ne_null hr
  have hlive := live_after_malloc h n
  simp only [if_neg hr] at hlive ⊢
  have hdist : mallocResult T n ≠ x.1 + sizeofBlock := by
    have hd := (hothers x hx).2
    omega
  have herase := live_after_release hlive (hothers x hx).1
  rwa [List.erase_cons_tail (by simpa using hdist)] at herase

end Live

/-- The used block whose payload starts at `ptr`. -/
def blockAt (T : HeapTiling M) (ptr : ℕ) : Option (ℕ × Segment) :=
  T.used.find? (fun x => x.1 + sizeofBlock == ptr)

def HeapCall.result (T : HeapTiling M) (c : HeapCall) : ℕ :=
  match c, blockAt T c.argument with
  | .free _, _ => null
  | .realloc _ size, some x => reallocResult T x size
  | c, _ => mallocResult T c.request

def HeapCall.tiling (T : HeapTiling M) (c : HeapCall) : HeapTiling M :=
  match c, blockAt T c.argument with
  | .free _, some x => T.release x.1
  | .free _, none => T
  | .realloc _ size, some x => reallocTiling T x size
  | c, _ => mallocTiling T c.request

theorem blockAt_of_mem {T : HeapTiling M} {x : ℕ × Segment} (hx : x ∈ T.used) :
    blockAt T (x.1 + sizeofBlock) = some x := by
  cases hf : blockAt T (x.1 + sizeofBlock) with
  | none =>
    have hno := List.find?_eq_none.mp hf x hx
    simp at hno
  | some y =>
    have hy := List.mem_of_find?_eq_some hf
    have hp := List.find?_some hf
    rw [used_eq_of_ptr_eq hy hx (by simpa using hp)]

theorem blockAt_null (T : HeapTiling M) : blockAt T null = none := by
  refine List.find?_eq_none.mpr fun x _ => ?_
  have hM := M.layout
  simp only [beq_iff_eq]
  omega

namespace HeapCall

theorem result_realloc_null (T : HeapTiling M) (n : ℕ) :
    (realloc null n).result T = mallocResult T n := by
  simp [result, argument, request, blockAt_null]

theorem tiling_realloc_null (T : HeapTiling M) (n : ℕ) :
    (realloc null n).tiling T = mallocTiling T n := by
  simp [tiling, argument, request, blockAt_null]

theorem tiling_free_null (T : HeapTiling M) : (free null).tiling T = T := by
  simp [tiling, argument, blockAt_null]

variable {T : HeapTiling M} {x : ℕ × Segment}

theorem result_realloc (hx : x ∈ T.used) (n : ℕ) :
    (realloc (x.1 + sizeofBlock) n).result T = reallocResult T x n := by
  simp [result, argument, blockAt_of_mem hx]

theorem tiling_realloc (hx : x ∈ T.used) (n : ℕ) :
    (realloc (x.1 + sizeofBlock) n).tiling T = reallocTiling T x n := by
  simp [tiling, argument, blockAt_of_mem hx]

theorem tiling_free (hx : x ∈ T.used) : (free (x.1 + sizeofBlock)).tiling T = T.release x.1 := by
  simp [tiling, argument, blockAt_of_mem hx]

end HeapCall

/-- What a call does: it ends, its result and the next tiling are read off the
tiling, and it changes no byte of any other live block, and none at all when it
asked for memory and got none. -/
theorem Inv.call {w : World} {T : HeapTiling M} (I : Inv M w T) {c : HeapCall}
    (ok : c.Allowed w.live) :
    ∃ m, c.exec M w.heap = some (c.result T, ⟨m, w.heap.heapStart⟩) ∧
      Inv M ⟨⟨m, w.heap.heapStart⟩, c.liveAfter w.live (c.result T)⟩ (c.tiling T) ∧
      Framed (T.used.filter (fun x => x.1 + sizeofBlock != c.argument)) M.base M.stop w.heap.mem m ∧
      (c.request ≠ 0 → c.result T = null → m = w.heap.mem) := by
  have hsub : ∀ x ∈ T.used.filter (fun x => x.1 + sizeofBlock != c.argument), x ∈ T.used :=
    fun x hx => (List.mem_filter.mp hx).1
  have hkeep : ∀ y, y ∈ T.used → c.argument = y.1 + sizeofBlock →
      ∀ x ∈ T.used.filter (fun x => x.1 + sizeofBlock != c.argument), x ∈ (T.release y.1).used := by
    intro y hy harg x hx
    obtain ⟨hxu, hne⟩ := List.mem_filter.mp hx
    refine (Tiling.mem_used_release sizeofBlock_pos hy).mpr ⟨hxu, fun he => ?_⟩
    simp [harg, he] at hne
  cases c with
  | malloc n =>
    obtain ⟨m, hrun, hrep, hframe, hnull⟩ := malloc_refines I.represents n
    exact ⟨m, hrun, ⟨hrep, live_after_malloc I.live n⟩, hframe.mono hsub, fun _ => hnull⟩
  | calloc k n =>
    obtain ⟨m, hrun, hrep, hframe, hnull⟩ := calloc_refines I.represents k n
    exact ⟨m, hrun, ⟨hrep, live_after_malloc I.live _⟩, hframe.mono hsub, fun _ => hnull⟩
  | realloc p n =>
    rcases ok with rfl | hp
    · obtain ⟨m, hrun, hrep, hframe, hnull⟩ := malloc_refines I.represents n
      rw [HeapCall.result_realloc_null, HeapCall.tiling_realloc_null]
      refine ⟨m, by simpa [HeapCall.exec, realloc] using hrun, ⟨hrep, ?_⟩, hframe.mono hsub,
        fun _ => hnull⟩
      simpa [HeapCall.liveAfter, List.erase_of_not_mem I.null_notMem] using
        live_after_malloc I.live n
    · obtain ⟨x, hx, rfl⟩ := I.mem_live.mp hp
      obtain ⟨m, hrun, hrep, hframe, hnull⟩ := realloc_refines I.represents hx n
      rw [HeapCall.result_realloc hx, HeapCall.tiling_realloc hx]
      exact ⟨m, hrun, ⟨hrep, live_after_realloc I.live hx n⟩, hframe.mono (hkeep x hx rfl), hnull⟩
  | free p =>
    rcases ok with rfl | hp
    · rw [HeapCall.tiling_free_null]
      refine ⟨w.heap.mem, rfl, ⟨I.represents, ?_⟩, Framed.refl _ _ _ _, fun h => absurd rfl h⟩
      rw [HeapCall.liveAfter, List.erase_of_not_mem I.null_notMem]
      exact I.live
    · obtain ⟨x, hx, rfl⟩ := I.mem_live.mp hp
      obtain ⟨m, hrun, hrep, hframe⟩ := free_refines I.represents hx
      rw [HeapCall.tiling_free hx]
      exact ⟨m, by simp [HeapCall.exec, hrun, HeapCall.result], ⟨hrep, live_after_release I.live hx⟩,
        hframe.mono (hkeep x hx rfl), fun h => absurd rfl h⟩

theorem Inv.clientWrite {w : World} {T : HeapTiling M} (I : Inv M w T) {addr ptr : ℕ} (byte : UInt8)
    (hlive : ptr ∈ w.live) (lower : ptr ≤ addr) (upper : addr < ptr + payloadSize w.heap.mem ptr) :
    Inv M ⟨⟨Function.update w.heap.mem addr byte, w.heap.heapStart⟩, w.live⟩ T := by
  obtain ⟨x, hx, rfl⟩ := I.mem_live.mp hlive
  rw [payloadSize_eq I.represents hx] at upper
  refine ⟨I.represents.payload_write hx fun k hk => ?_, I.live⟩
  exact Function.update_of_ne (by omega) _ _

/-- The calls of a run, client writes left out. -/
def calls (tr : List (Event × ℕ)) : List HeapCall :=
  tr.filterMap (fun x => match x.1 with
    | .call c => some c
    | .clientWrite _ _ => none)

/-- The values the calls of a run returned. -/
def results (tr : List (Event × ℕ)) : List ℕ :=
  tr.filterMap (fun x => match x.1 with
    | .call _ => some x.2
    | .clientWrite _ _ => none)

def resultsFrom (T : HeapTiling M) : List HeapCall → List ℕ
  | [] => []
  | c :: cs => c.result T :: resultsFrom (c.tiling T) cs

theorem Inv.step {w w' : World} {T : HeapTiling M} (I : Inv M w T) {e : Event} {r : ℕ}
    (h : Step M w e r w') :
    (∃ c, e = .call c ∧ r = c.result T ∧ Inv M w' (c.tiling T)) ∨
      (∃ addr byte, e = .clientWrite addr byte ∧ Inv M w' T) := by
  cases h with
  | call allowed run =>
    rename_i c H
    obtain ⟨m, hrun, hinv, -, -⟩ := I.call allowed
    rw [run, Option.some.injEq, Prod.mk.injEq] at hrun
    obtain ⟨rfl, rfl⟩ := hrun
    exact Or.inl ⟨c, rfl, rfl, hinv⟩
  | clientWrite live lower upper =>
    rename_i addr ptr byte
    exact Or.inr ⟨addr, byte, rfl, I.clientWrite byte live lower upper⟩

theorem Inv.run {w w' : World} {T : HeapTiling M} (I : Inv M w T) {tr : List (Event × ℕ)}
    (h : Runs M w tr w') :
    results tr = resultsFrom T (calls tr) ∧ ∃ T', Inv M w' T' := by
  induction h generalizing T with
  | nil w => exact ⟨rfl, T, I⟩
  | cons step rest ih =>
    rcases I.step step with ⟨c, rfl, rfl, hI⟩ | ⟨addr, byte, rfl, hI⟩
    · obtain ⟨hres, hinv⟩ := ih hI
      exact ⟨by simpa [results, calls, resultsFrom] using hres, hinv⟩
    · obtain ⟨hres, hinv⟩ := ih hI
      exact ⟨by simpa [results, calls] using hres, hinv⟩

theorem Runs.inv {H : Heap} {tr : List (Event × ℕ)} {w : World}
    (h : Runs M (World.start M H) tr w) : ∃ T, Inv M w T := ((Inv.start M H).run h).2

/-- An event as a computation, which refuses what a client may not do. -/
def Event.exec (M : HeapMemory) (w : World) : Event → Option (ℕ × World)
  | .call c =>
    if c.argument = null ∨ c.argument ∈ w.live then
      (c.exec M w.heap).map (fun x => (x.1, ⟨x.2, c.liveAfter w.live x.1⟩))
    else none
  | .clientWrite addr byte =>
    if ∃ ptr ∈ w.live, ptr ≤ addr ∧ addr < ptr + payloadSize w.heap.mem ptr then
      some (null, ⟨⟨Function.update w.heap.mem addr byte, w.heap.heapStart⟩, w.live⟩)
    else none

def runEvents (M : HeapMemory) : World → List Event → Option (List (Event × ℕ) × World)
  | w, [] => some ([], w)
  | w, e :: es =>
    (e.exec M w).bind fun x => (runEvents M x.2 es).map fun y => ((e, x.1) :: y.1, y.2)

theorem Event.exec_step {w w' : World} {e : Event} {r : ℕ} (h : e.exec M w = some (r, w')) :
    Step M w e r w' := by
  cases e with
  | call c =>
    rw [Event.exec] at h
    split_ifs at h with hok
    obtain ⟨⟨r', H⟩, hrun, heq⟩ := Option.map_eq_some_iff.mp h
    obtain ⟨rfl, rfl⟩ := Prod.mk.inj heq
    exact .call hok hrun
  | clientWrite addr byte =>
    rw [Event.exec] at h
    split_ifs at h with hok
    obtain ⟨rfl, rfl⟩ := Prod.mk.inj (Option.some.inj h)
    obtain ⟨ptr, hlive, lower, upper⟩ := hok
    exact .clientWrite hlive lower upper

theorem runEvents_cons {e : Event} {es : List Event} {w w' : World} {tr : List (Event × ℕ)}
    (h : runEvents M w (e :: es) = some (tr, w')) :
    ∃ r w₁ tr', e.exec M w = some (r, w₁) ∧ runEvents M w₁ es = some (tr', w') ∧
      tr = (e, r) :: tr' := by
  obtain ⟨⟨r, w₁⟩, hstep, hrest⟩ := Option.bind_eq_some_iff.mp h
  obtain ⟨⟨tr', w₂⟩, hrun, heq⟩ := Option.map_eq_some_iff.mp hrest
  obtain ⟨rfl, rfl⟩ := Prod.mk.inj heq
  exact ⟨r, w₁, tr', hstep, hrun, rfl⟩

theorem runEvents_runs {es : List Event} {w w' : World} {tr : List (Event × ℕ)}
    (h : runEvents M w es = some (tr, w')) : Runs M w tr w' := by
  induction es generalizing w tr with
  | nil =>
    obtain ⟨rfl, rfl⟩ := Prod.mk.inj (Option.some.inj h)
    exact .nil _
  | cons e es ih =>
    obtain ⟨r, w₁, tr', hstep, hrun, rfl⟩ := runEvents_cons h
    exact .cons (Event.exec_step hstep) (ih hrun)

theorem runEvents_events {es : List Event} {w w' : World} {tr : List (Event × ℕ)}
    (h : runEvents M w es = some (tr, w')) : tr.map Prod.fst = es := by
  induction es generalizing w tr with
  | nil =>
    obtain ⟨rfl, rfl⟩ := Prod.mk.inj (Option.some.inj h)
    rfl
  | cons e es ih =>
    obtain ⟨r, w₁, tr', -, hrun, rfl⟩ := runEvents_cons h
    rw [List.map_cons, ih hrun]

/-- A place for `heap_memory` in the higher half of the address space. -/
def bootMemory : HeapMemory := ⟨0xffffffff80100000, by decide, by decide⟩

/-- Zeroed memory with `heap_start` still `NULL`. -/
def bootHeap : Heap := ⟨fun _ => 0, null⟩

/-- The first calls of `test_memory_allocator`, with one byte stored by the client. -/
def bootEvents : List Event :=
  [.call (.malloc 100), .call (.malloc 200), .clientWrite 0xffffffff80100095 7,
    .call (.calloc 10 4), .call (.free 0xffffffff80100018)]

theorem bootEvents_run : ∃ tr w, Runs bootMemory (World.start bootMemory bootHeap) tr w ∧
    w.live = [0xffffffff80100174, 0xffffffff80100094] := by
  have hlive : (runEvents bootMemory (World.start bootMemory bootHeap) bootEvents).map
      (fun x => x.2.live) = some [0xffffffff80100174, 0xffffffff80100094] := by decide +kernel
  obtain ⟨⟨tr, w⟩, hrun, hw⟩ := Option.map_eq_some_iff.mp hlive
  exact ⟨tr, w, runEvents_runs hrun, hw⟩

end BinOs.KernelHeap
