import BinOs.LittleEndianStore

/-! # The allocator of `memory.c`

Block headers and payloads share one array of bytes, `heap_memory`. A header is a
`block_t`: `size` at offset 0, `is_free` at offset 8 (four bytes, then four bytes
of padding), `next` at offset 16. Pointers are addresses and `NULL` is zero;
`size_t` arithmetic wraps at `2 ^ 64`. A list walk is given one unit of fuel for
each byte of `heap_memory`, and `none` stands for a walk that has not ended. -/
namespace BinOs.KernelHeap
open LittleEndianStore

/-- `HEAP_SIZE` -/
abbrev heapSize : ℕ := 4096 * 1024

/-- `sizeof(block_t)` -/
abbrev sizeofBlock : ℕ := 24

/-- `NULL` -/
abbrev null : ℕ := 0

/-- The value of a `size_t` expression. -/
def wrap (n : ℕ) : ℕ := n % 2 ^ 64

/-- Subtraction of `size_t` values. -/
def wrapSub (a b : ℕ) : ℕ := wrap (a + 2 ^ 64 - b)

/-- The place of the static array `heap_memory` in the address space. -/
structure HeapMemory where
  base : ℕ
  base_pos : 0 < base
  fits : base + heapSize < 2 ^ 64

/-- Memory and the static pointer `heap_start`. -/
structure Heap where
  mem : Store
  heapStart : ℕ

def blockSize (m : Store) (p : ℕ) : ℕ := loadLE m 8 p
def blockIsFree (m : Store) (p : ℕ) : ℕ := loadLE m 4 (p + 8)
def blockNext (m : Store) (p : ℕ) : ℕ := loadLE m 8 (p + 16)

def setSize (m : Store) (p v : ℕ) : Store := storeLE m 8 p v
def setIsFree (m : Store) (p v : ℕ) : Store := storeLE m 4 (p + 8) v
def setNext (m : Store) (p v : ℕ) : Store := storeLE m 8 (p + 16) v

/-- `memcpy`, byte `n` being copied after the first `n` bytes. -/
def memcpy (m : Store) (dest src : ℕ) : ℕ → Store
  | 0 => m
  | n + 1 =>
    let m' := memcpy m dest src n
    Function.update m' (dest + n) (m' (src + n))

def memset (m : Store) (s c : ℕ) : ℕ → Store
  | 0 => m
  | n + 1 => Function.update (memset m s c n) (s + n) (UInt8.ofNat c)

def initHeap (M : HeapMemory) (H : Heap) : Heap :=
  let m := setSize H.mem M.base (heapSize - sizeofBlock)
  let m := setIsFree m M.base 1
  ⟨setNext m M.base null, M.base⟩

/-- The loop of `find_free_block`. -/
def findFreeLoop (m : Store) (size : ℕ) : ℕ → ℕ → Option ℕ
  | 0, _ => none
  | fuel + 1, current =>
    if current = null then some null
    else if blockIsFree m current ≠ 0 ∧ size ≤ blockSize m current then some current
    else findFreeLoop m size fuel (blockNext m current)

def findFreeBlock (H : Heap) (size : ℕ) : Option ℕ :=
  findFreeLoop H.mem size heapSize H.heapStart

def splitBlock (m : Store) (block size : ℕ) : Store :=
  if wrap (size + sizeofBlock) < blockSize m block then
    let newBlock := block + sizeofBlock + size
    let m := setSize m newBlock (wrapSub (wrapSub (blockSize m block) size) sizeofBlock)
    let m := setIsFree m newBlock 1
    let m := setNext m newBlock (blockNext m block)
    let m := setSize m block size
    setNext m block newBlock
  else m

/-- The two assignments of `coalesce` that swallow the next block. -/
def absorbNext (m : Store) (current : ℕ) : Store :=
  let m := setSize m current
    (wrap (blockSize m current + wrap (blockSize m (blockNext m current) + sizeofBlock)))
  setNext m current (blockNext m (blockNext m current))

/-- The loop of `coalesce`. -/
def coalesceLoop : ℕ → Store → ℕ → Option Store
  | 0, _, _ => none
  | fuel + 1, m, current =>
    if current = null then some m
    else if blockNext m current = null then some m
    else if blockIsFree m current ≠ 0 ∧ blockIsFree m (blockNext m current) ≠ 0 then
      coalesceLoop fuel (absorbNext m current) current
    else coalesceLoop fuel m (blockNext m current)

def coalesce (H : Heap) : Option Heap :=
  (coalesceLoop heapSize H.mem H.heapStart).map (fun m => { H with mem := m })

def malloc (M : HeapMemory) (H : Heap) (size : ℕ) : Option (ℕ × Heap) :=
  if size = 0 then some (null, H)
  else
    let H := if H.heapStart = null then initHeap M H else H
    (findFreeBlock H size).map fun block =>
      if block = null then (null, H)
      else
        let m := splitBlock H.mem block size
        let m := setIsFree m block 0
        (block + sizeofBlock, { H with mem := m })

def free (H : Heap) (ptr : ℕ) : Option Heap :=
  if ptr = null then some H
  else
    let block := ptr - sizeofBlock
    coalesce { H with mem := setIsFree H.mem block 1 }

def calloc (M : HeapMemory) (H : Heap) (num size : ℕ) : Option (ℕ × Heap) :=
  let totalSize := wrap (num * size)
  (malloc M H totalSize).map fun (ptr, H) =>
    if ptr = null then (ptr, H) else (ptr, { H with mem := memset H.mem ptr 0 totalSize })

def realloc (M : HeapMemory) (H : Heap) (ptr size : ℕ) : Option (ℕ × Heap) :=
  if ptr = null then malloc M H size
  else if size = 0 then (free H ptr).map (fun H => (null, H))
  else
    let block := ptr - sizeofBlock
    if size ≤ blockSize H.mem block then some (ptr, H)
    else
      (malloc M H size).bind fun (newPtr, H) =>
        if newPtr = null then some (newPtr, H)
        else
          -- the old header is read again, after `malloc` may have split another block
          let copySize := if blockSize H.mem block < size then blockSize H.mem block else size
          let H := { H with mem := memcpy H.mem newPtr ptr copySize }
          (free H ptr).map (fun H => (newPtr, H))

/-- The loop of `get_heap_stats`, with the sums of used and free sizes so far. -/
def statsLoop (m : Store) : ℕ → ℕ → ℕ → ℕ → Option (ℕ × ℕ)
  | 0, _, _, _ => none
  | fuel + 1, current, usedSize, freeSize =>
    if current = null then some (usedSize, freeSize)
    else if blockIsFree m current ≠ 0 then
      statsLoop m fuel (blockNext m current) usedSize (wrap (freeSize + blockSize m current))
    else
      statsLoop m fuel (blockNext m current) (wrap (usedSize + blockSize m current)) freeSize

/-- `get_heap_stats`: total, used and free size. -/
def getHeapStats (H : Heap) : Option (ℕ × ℕ × ℕ) :=
  if H.heapStart = null then some (0, 0, 0)
  else (statsLoop H.mem heapSize H.heapStart 0 0).map fun (u, f) => (heapSize, u, f)

end BinOs.KernelHeap
