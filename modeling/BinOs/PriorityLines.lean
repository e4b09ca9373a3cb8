import Mathlib.Data.Finset.Max

/-! # Prioritized interrupt lines

The lines of one interrupt controller, ordered by priority, the least of them first. A
requested line is put forward when it is enabled and comes before every line in service.
The end of an interrupt takes the first of the lines in service out of it. -/
namespace BinOs.PriorityLines

structure Lines (ι : Type*) where
  requested : Finset ι
  inService : Finset ι

section Lines
variable {ι : Type*} [LinearOrder ι]

def first (s : Finset ι) : Option ι := if h : s.Nonempty then some (s.min' h) else none

def dropFirst (s : Finset ι) : Finset ι := if h : s.Nonempty then s.erase (s.min' h) else s

namespace Lines
variable (enabled : Finset ι) (l : Lines ι)

/-- What may interrupt now. -/
def waiting : Finset ι :=
  (l.requested ∩ enabled).filter fun i => ∀ j ∈ l.inService, i < j

def putForward : Option ι := first (l.waiting enabled)

def request (i : ι) : Lines ι := { l with requested := insert i l.requested }

def withdraw (i : ι) : Lines ι := { l with requested := l.requested.erase i }

def acknowledge (i : ι) : Lines ι :=
  { requested := l.requested.erase i, inService := insert i l.inService }

def endOfInterrupt : Lines ι := { l with inService := dropFirst l.inService }

end Lines

variable {s : Finset ι} {i : ι}

theorem first_eq_none_iff : first s = none ↔ s = ∅ := by
  rw [first]
  by_cases h : s.Nonempty
  · rw [dif_pos h]
    simp only [reduceCtorEq, false_iff]
    exact h.ne_empty
  · rw [dif_neg h]
    simp only [true_iff]
    exact Finset.not_nonempty_iff_eq_empty.mp h

theorem first_eq_some_iff : first s = some i ↔ i ∈ s ∧ ∀ j ∈ s, i ≤ j := by
  rw [first]
  by_cases h : s.Nonempty
  · rw [dif_pos h, Option.some.injEq]
    constructor
    · rintro rfl
      exact ⟨s.min'_mem h, fun j hj => s.min'_le j hj⟩
    · rintro ⟨hi, hleast⟩
      exact le_antisymm (s.min'_le i hi) (hleast _ (s.min'_mem h))
  · rw [dif_neg h]
    simp only [reduceCtorEq, false_iff, not_and]
    exact fun hi => absurd ⟨i, hi⟩ h

/-- What came in before all others goes out first. -/
theorem dropFirst_insert (h : ∀ j ∈ s, i < j) : dropFirst (insert i s) = s := by
  have hnonempty : (insert i s).Nonempty := Finset.insert_nonempty i s
  have hnew : i ∉ s := fun hi => lt_irrefl i (h i hi)
  have hmin : (insert i s).min' hnonempty = i := by
    apply le_antisymm ((insert i s).min'_le i (Finset.mem_insert_self i s))
    apply Finset.le_min'
    intro j hj
    rcases Finset.mem_insert.mp hj with rfl | hj
    · exact le_rfl
    · exact (h j hj).le
  rw [dropFirst, dif_pos hnonempty, hmin, Finset.erase_insert hnew]

namespace Lines
variable {enabled : Finset ι} {l : Lines ι}

/-- With nothing in service the first of the enabled requests is put forward. -/
theorem putForward_idle (h : l.inService = ∅) :
    l.putForward enabled = first (l.requested ∩ enabled) := by
  rw [putForward, waiting, h]
  simp only [Finset.notMem_empty, false_implies, implies_true, Finset.filter_true]

end Lines

end Lines

end BinOs.PriorityLines
