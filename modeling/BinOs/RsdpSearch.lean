import BinOs.LittleEndianStore
import BinOs.MemoryComparison
import BinOs.MemoryStrings
import Mathlib.Order.Bounds.Basic

/-! # The search for the root system description pointer

`uacpi_kernel_get_rsdp` looks for the signature at every sixteenth address of the first
kilobyte of the extended BIOS data area and then of the BIOS area. The addresses of all
bytes read are recorded. -/
namespace BinOs.RsdpSearch
open LittleEndianStore MemoryComparison MemoryStrings

inductive Status
  | ok
  | notFound
  deriving DecidableEq

/-- What a call returns, what it stores through its pointer, and what it has read. -/
structure Result where
  status : Status
  outRsdpAddr : Option ℕ
  reads : List ℕ

/-- The string literal's bytes. -/
def signature (i : ℕ) : UInt8 := (ascii "RSD PTR ").getD i 0

/-- `for (; addr < stop; addr += 16)` with the comparison in its body: the address of the
first match, and the addresses read. -/
def searchLoop (m : Store) (stop addr : ℕ) : Option ℕ × List ℕ :=
  if addr < stop then
    let comparison := memcmp (fun i => m (addr + i)) signature 8
    let read := (List.range comparison.2).map (addr + ·)
    if comparison.1 = 0 then (some addr, read)
    else
      let rest := searchLoop m stop (addr + 16)
      (rest.1, read ++ rest.2)
  else (none, [])
termination_by stop - addr

def uacpiKernelGetRsdp (m : Store) : Result :=
  let ebdaSeg := loadLE m 2 0x40E
  let ebdaAddr := ebdaSeg * 16
  let inEbda := if ebdaSeg ≠ 0 then searchLoop m (ebdaAddr + 1024) ebdaAddr else (none, [])
  let reads := [0x40E, 0x40F] ++ inEbda.2
  match inEbda.1 with
  | some addr => ⟨.ok, some addr, reads⟩
  | none =>
    let inBios := searchLoop m 0x100000 0xE0000
    match inBios.1 with
    | some addr => ⟨.ok, some addr, reads ++ inBios.2⟩
    | none => ⟨.notFound, none, reads ++ inBios.2⟩

/-- The addresses, multiples of 16, at which the eight bytes lie in a window. -/
def occurrences (m : Store) (start stop : ℕ) : Set ℕ :=
  {a | 16 ∣ a ∧ start ≤ a ∧ a + 8 ≤ stop ∧ ∀ i < 8, m (a + i) = signature i}

def ebdaStart (m : Store) : ℕ := loadLE m 2 0x40E * 16

/-- None without a segment. -/
def ebdaOccurrences (m : Store) : Set ℕ :=
  {a | loadLE m 2 0x40E ≠ 0 ∧ a ∈ occurrences m (ebdaStart m) (ebdaStart m + 1024)}

def biosOccurrences (m : Store) : Set ℕ := occurrences m 0xE0000 0x100000

/-- The addresses that may be read: the segment word and the two windows. -/
def Readable (m : Store) (a : ℕ) : Prop :=
  a = 0x40E ∨ a = 0x40F ∨
    loadLE m 2 0x40E ≠ 0 ∧ ebdaStart m ≤ a ∧ a < ebdaStart m + 1024 ∨
    0xE0000 ≤ a ∧ a ≤ 0xFFFFF

variable {m : Store} {start stop : ℕ}

/-- No occurrence lies between one candidate and the next. -/
theorem occurrences_step (hstart : 16 ∣ start)
    (hnone : ¬ ∀ i < 8, m (start + i) = signature i) :
    occurrences m start stop = occurrences m (start + 16) stop := by
  ext a
  constructor
  · rintro ⟨haligned, hlo, hhi, hmatch⟩
    refine ⟨haligned, ?_, hhi, hmatch⟩
    have hne : a ≠ start := by
      rintro rfl
      exact hnone hmatch
    omega
  · rintro ⟨haligned, hlo, hhi, hmatch⟩
    exact ⟨haligned, by omega, hhi, hmatch⟩

theorem mem_read {addr count a : ℕ} (ha : a ∈ (List.range count).map (addr + ·)) :
    addr ≤ a ∧ a < addr + count := by
  obtain ⟨i, hi, rfl⟩ := List.mem_map.mp ha
  have hlt := List.mem_range.mp hi
  omega

/-- What a search of a window does: it finds the first occurrence, or there is none, and it
stays inside. -/
structure Searches (m : Store) (start stop : ℕ) (found : Option ℕ × List ℕ) : Prop where
  least : ∀ a, found.1 = some a → IsLeast (occurrences m start stop) a
  absent : found.1 = none → occurrences m start stop = ∅
  inside : ∀ a ∈ found.2, start ≤ a ∧ a < stop

theorem searchLoop_searches (hstart : 16 ∣ start) (hstop : 16 ∣ stop) :
    Searches m start stop (searchLoop m stop start) := by
  induction start using searchLoop.induct m stop with
  | case1 addr hlt comparison hzero =>
    have hmatch := memcmp_eq_zero_iff.mp hzero
    have hcount : (memcmp (fun i => m (addr + i)) signature 8).2 ≤ 8 := memcmp_reads_le
    rw [searchLoop, if_pos hlt, if_pos hzero]
    constructor
    case least =>
      rintro a ⟨⟩
      exact ⟨⟨hstart, Nat.le_refl addr, by omega, hmatch⟩, fun b hb => hb.2.1⟩
    case absent =>
      intro hnone
      cases hnone
    case inside =>
      intro a ha
      have hread := mem_read ha
      omega
  | case2 addr hlt comparison hdiff ih =>
    have hnone : ¬ ∀ i < 8, m (addr + i) = signature i := fun h => hdiff (memcmp_eq_zero_iff.mpr h)
    have hcount : (memcmp (fun i => m (addr + i)) signature 8).2 ≤ 8 := memcmp_reads_le
    obtain ⟨hleast, habsent, hinside⟩ := ih (by omega)
    rw [searchLoop, if_pos hlt, if_neg hdiff]
    rw [← occurrences_step hstart hnone] at hleast habsent
    refine ⟨hleast, habsent, fun a ha => ?_⟩
    rcases List.mem_append.mp ha with hread | hrest
    · have hnow := mem_read hread
      omega
    · have hlater := hinside a hrest
      omega
  | case3 addr hge =>
    rw [searchLoop, if_neg hge]
    constructor
    case least =>
      intro a hnone
      cases hnone
    case absent =>
      intro _
      apply Set.eq_empty_of_forall_notMem
      rintro a ⟨-, hlo, hhi, -⟩
      omega
    case inside => exact fun a ha => absurd ha List.not_mem_nil

theorem ebda_searches (m : Store) :
    Searches m (ebdaStart m) (ebdaStart m + 1024)
      (searchLoop m (ebdaStart m + 1024) (ebdaStart m)) := by
  have hstart : 16 ∣ ebdaStart m := Nat.dvd_mul_left 16 _
  exact searchLoop_searches hstart (by omega)

theorem bios_searches (m : Store) :
    Searches m 0xE0000 0x100000 (searchLoop m 0x100000 0xE0000) :=
  searchLoop_searches (by decide) (by decide)

/-- The search of the extended BIOS data area, made or left out. -/
def ebdaSearch (m : Store) : Option ℕ × List ℕ :=
  if loadLE m 2 0x40E ≠ 0 then searchLoop m (ebdaStart m + 1024) (ebdaStart m) else (none, [])

theorem ebdaSearch_spec (m : Store) :
    (∀ a, (ebdaSearch m).1 = some a → IsLeast (ebdaOccurrences m) a) ∧
      ((ebdaSearch m).1 = none → ebdaOccurrences m = ∅) ∧
      ∀ a ∈ (ebdaSearch m).2, Readable m a := by
  by_cases hseg : loadLE m 2 0x40E ≠ 0
  · obtain ⟨hleast, habsent, hinside⟩ := ebda_searches m
    have hsame : ebdaOccurrences m = occurrences m (ebdaStart m) (ebdaStart m + 1024) := by
      ext a
      exact and_iff_right hseg
    rw [ebdaSearch, if_pos hseg, hsame]
    exact ⟨hleast, habsent, fun a ha => .inr (.inr (.inl ⟨hseg, hinside a ha⟩))⟩
  · have hnone : ebdaOccurrences m = ∅ := by
      apply Set.eq_empty_of_forall_notMem
      exact fun a ha => hseg ha.1
    rw [ebdaSearch, if_neg hseg, hnone]
    refine ⟨fun a h => ?_, fun _ => rfl, fun a ha => absurd ha List.not_mem_nil⟩
    cases h

/-- The function by what its two searches deliver. -/
theorem uacpiKernelGetRsdp_eq (m : Store) : uacpiKernelGetRsdp m =
    match (ebdaSearch m).1 with
    | some addr => ⟨.ok, some addr, [0x40E, 0x40F] ++ (ebdaSearch m).2⟩
    | none =>
      match (searchLoop m 0x100000 0xE0000).1 with
      | some addr => ⟨.ok, some addr, [0x40E, 0x40F] ++ (ebdaSearch m).2 ++
          (searchLoop m 0x100000 0xE0000).2⟩
      | none => ⟨.notFound, none, [0x40E, 0x40F] ++ (ebdaSearch m).2 ++
          (searchLoop m 0x100000 0xE0000).2⟩ := rfl

theorem readable_word {m : Store} : ∀ a ∈ [0x40E, 0x40F], Readable m a := by
  intro a ha
  rcases List.mem_cons.mp ha with rfl | hhigh
  · exact .inl rfl
  · exact .inr (.inl (List.mem_singleton.mp hhigh))

/-- For any memory: a pointer is delivered exactly when there is an occurrence, the first
one of the extended BIOS data area or, with none there, the first one of the BIOS area;
without any the output is not written; and only the segment word and the windows are read. -/
theorem rsdp_search_exact (m : Store) :
    ((uacpiKernelGetRsdp m).status = .ok ↔ (ebdaOccurrences m ∪ biosOccurrences m).Nonempty) ∧
    ((uacpiKernelGetRsdp m).status = .ok → ∃ a, (uacpiKernelGetRsdp m).outRsdpAddr = some a ∧
      (IsLeast (ebdaOccurrences m) a ∨
        ebdaOccurrences m = ∅ ∧ IsLeast (biosOccurrences m) a)) ∧
    ((uacpiKernelGetRsdp m).status = .notFound → (uacpiKernelGetRsdp m).outRsdpAddr = none) ∧
    ∀ a ∈ (uacpiKernelGetRsdp m).reads, Readable m a := by
  obtain ⟨hleast, habsent, hebda⟩ := ebdaSearch_spec m
  obtain ⟨hleast', habsent', hinside'⟩ := bios_searches m
  have hfirst : ∀ a ∈ [0x40E, 0x40F] ++ (ebdaSearch m).2, Readable m a := by
    intro a ha
    exact (List.mem_append.mp ha).elim (readable_word a) (hebda a)
  have hall : ∀ a ∈ [0x40E, 0x40F] ++ (ebdaSearch m).2 ++ (searchLoop m 0x100000 0xE0000).2,
      Readable m a := by
    intro a ha
    rcases List.mem_append.mp ha with hbefore | hbios
    · exact hfirst a hbefore
    · have hwindow := hinside' a hbios
      exact .inr (.inr (.inr ⟨hwindow.1, by omega⟩))
  rw [uacpiKernelGetRsdp_eq]
  cases hin : (ebdaSearch m).1 with
  | some addr =>
    have haddr := hleast addr hin
    refine ⟨⟨fun _ => ⟨addr, .inl haddr.1⟩, fun _ => rfl⟩, fun _ => ⟨addr, rfl, .inl haddr⟩,
      fun h => ?_, hfirst⟩
    cases h
  | none =>
    have hempty := habsent hin
    cases hbios : (searchLoop m 0x100000 0xE0000).1 with
    | some addr =>
      have haddr := hleast' addr hbios
      refine ⟨⟨fun _ => ⟨addr, .inr haddr.1⟩, fun _ => rfl⟩,
        fun _ => ⟨addr, rfl, .inr ⟨hempty, haddr⟩⟩, fun h => ?_, hall⟩
      cases h
    | none =>
      have hnone : biosOccurrences m = ∅ := habsent' hbios
      rw [hempty, hnone, Set.empty_union]
      refine ⟨⟨fun h => ?_, fun h => absurd h Set.not_nonempty_empty⟩, fun h => ?_, fun _ => rfl,
        hall⟩
      · cases h
      · cases h

end BinOs.RsdpSearch
