import Mathlib.Data.Int.Notation
import Mathlib.Data.Nat.Notation

/-! # Counted loops over the integers

`forUp` and `forDown` are `for` loops whose bounds the body does not change. A
body that may fault works on an `Option`; a fault ends the loop with `none`. -/
namespace BinOs.BoundedLoops

variable {σ : Type}

/-- `for (i = lo; i < hi; i++) s = body(i, s)` -/
def forUp (lo hi : ℤ) (body : ℤ → σ → σ) (s : σ) : σ :=
  Nat.fold (hi - lo).toNat (fun k _ s => body (lo + k) s) s

/-- `for (i = hi; i > lo; i--) s = body(i, s)` -/
def forDown (hi lo : ℤ) (body : ℤ → σ → σ) (s : σ) : σ :=
  Nat.fold (hi - lo).toNat (fun k _ s => body (hi - k) s) s

def forUpM (lo hi : ℤ) (body : ℤ → σ → Option σ) (s : σ) : Option σ :=
  forUp lo hi (fun i o => o.bind (body i)) (some s)

def forDownM (hi lo : ℤ) (body : ℤ → σ → Option σ) (s : σ) : Option σ :=
  forDown hi lo (fun i o => o.bind (body i)) (some s)

theorem forUp_of_le {lo hi : ℤ} (h : hi ≤ lo) (body : ℤ → σ → σ) (s : σ) :
    forUp lo hi body s = s := by
  rw [forUp, Int.toNat_of_nonpos (by omega)]
  rfl

theorem forUp_succ {lo hi : ℤ} (h : lo ≤ hi) (body : ℤ → σ → σ) (s : σ) :
    forUp lo (hi + 1) body s = body hi (forUp lo hi body s) := by
  have hn : (hi + 1 - lo).toNat = (hi - lo).toNat + 1 := by omega
  have hk : lo + ((hi - lo).toNat : ℤ) = hi := by omega
  rw [forUp, hn, Nat.fold_succ, hk, forUp]

theorem forDown_of_le {hi lo : ℤ} (h : hi ≤ lo) (body : ℤ → σ → σ) (s : σ) :
    forDown hi lo body s = s := by
  rw [forDown, Int.toNat_of_nonpos (by omega)]
  rfl

theorem forDown_pred {hi lo : ℤ} (h : lo ≤ hi) (body : ℤ → σ → σ) (s : σ) :
    forDown hi (lo - 1) body s = body lo (forDown hi lo body s) := by
  have hn : (hi - (lo - 1)).toNat = (hi - lo).toNat + 1 := by omega
  have hk : hi - ((hi - lo).toNat : ℤ) = lo := by omega
  rw [forDown, hn, Nat.fold_succ, hk, forDown]

theorem forUpM_of_le {lo hi : ℤ} (h : hi ≤ lo) (body : ℤ → σ → Option σ) (s : σ) :
    forUpM lo hi body s = some s := forUp_of_le h _ _

theorem forUpM_succ {lo hi : ℤ} (h : lo ≤ hi) (body : ℤ → σ → Option σ) (s : σ) :
    forUpM lo (hi + 1) body s = (forUpM lo hi body s).bind (body hi) := forUp_succ h _ _

/-- A property of the index and the state that holds at the start and that each
pass hands on to the next index holds at the end. -/
theorem forUp_invariant {lo hi : ℤ} {body : ℤ → σ → σ} {s : σ} (I : ℤ → σ → Prop)
    (hle : lo ≤ hi) (start : I lo s)
    (step : ∀ i t, lo ≤ i → i < hi → I i t → I (i + 1) (body i t)) :
    I hi (forUp lo hi body s) := by
  obtain ⟨n, rfl⟩ := Int.le.dest hle
  clear hle
  induction n with
  | zero =>
    rw [forUp_of_le (by omega)]
    simpa using start
  | succ n ih =>
    have hn : lo + ((n + 1 : ℕ) : ℤ) = lo + (n : ℤ) + 1 := by omega
    rw [hn, forUp_succ (by omega)]
    exact step _ _ (by omega) (by omega) (ih (fun i t hlo hhi => step i t hlo (by omega)))

/-- What no pass of a loop changes. -/
theorem forUp_keeps {β : Type} (f : σ → β) {body : ℤ → σ → σ} (h : ∀ i t, f (body i t) = f t)
    (lo hi : ℤ) (s : σ) : f (forUp lo hi body s) = f s := by
  by_cases hle : lo ≤ hi
  · exact forUp_invariant (fun _ t => f t = f s) hle rfl fun i t _ _ ht => (h i t).trans ht
  · rw [forUp_of_le (by omega)]

/-- Two loops whose passes agree wherever `f` has kept its first value. -/
theorem forUp_congr {β : Type} (f : σ → β) {lo hi : ℤ} {body body' : ℤ → σ → σ} {s : σ}
    (hf : ∀ i t, f (body' i t) = f t)
    (h : ∀ i t, lo ≤ i → i < hi → f t = f s → body i t = body' i t) :
    forUp lo hi body s = forUp lo hi body' s := by
  by_cases hle : lo ≤ hi
  · obtain ⟨n, rfl⟩ := Int.le.dest hle
    clear hle
    induction n with
    | zero => rw [forUp_of_le (by omega), forUp_of_le (by omega)]
    | succ n ih =>
      have hn : lo + ((n + 1 : ℕ) : ℤ) = lo + (n : ℤ) + 1 := by omega
      rw [hn, forUp_succ (by omega), forUp_succ (by omega),
        ih fun i t hlo hhi => h i t hlo (by omega)]
      exact h _ _ (by omega) (by omega) (forUp_keeps f hf _ _ s)
  · rw [forUp_of_le (by omega), forUp_of_le (by omega)]

theorem forDown_invariant {hi lo : ℤ} {body : ℤ → σ → σ} {s : σ} (I : ℤ → σ → Prop)
    (hle : lo ≤ hi) (start : I hi s)
    (step : ∀ i t, lo < i → i ≤ hi → I i t → I (i - 1) (body i t)) :
    I lo (forDown hi lo body s) := by
  obtain ⟨n, hn⟩ := Int.le.dest hle
  induction n generalizing lo with
  | zero =>
    rw [forDown_of_le (by omega)]
    rwa [show lo = hi by omega]
  | succ n ih =>
    have hrest := ih (by omega : lo + 1 ≤ hi) (fun i t hlo hhi => step i t (by omega) hhi) (by omega)
    have hlo : lo + 1 - 1 = lo := by omega
    have hloop := forDown_pred (by omega : lo + 1 ≤ hi) body s
    rw [hlo] at hloop
    rw [hloop]
    have hstep := step (lo + 1) _ (by omega) (by omega) hrest
    rwa [hlo] at hstep

/-- A loop whose every pass succeeds under the invariant succeeds and keeps it. -/
theorem forUpM_invariant {lo hi : ℤ} {body : ℤ → σ → Option σ} {s : σ} (I : ℤ → σ → Prop)
    (hle : lo ≤ hi) (start : I lo s)
    (step : ∀ i t, lo ≤ i → i < hi → I i t → ∃ t', body i t = some t' ∧ I (i + 1) t') :
    ∃ t, forUpM lo hi body s = some t ∧ I hi t := by
  apply forUp_invariant (fun i o => ∃ t, o = some t ∧ I i t) hle ⟨s, rfl, start⟩
  rintro i o hlo hhi ⟨t, rfl, ht⟩
  obtain ⟨t', ht', hI⟩ := step i t hlo hhi ht
  exact ⟨t', ht', hI⟩

theorem forDownM_invariant {hi lo : ℤ} {body : ℤ → σ → Option σ} {s : σ} (I : ℤ → σ → Prop)
    (hle : lo ≤ hi) (start : I hi s)
    (step : ∀ i t, lo < i → i ≤ hi → I i t → ∃ t', body i t = some t' ∧ I (i - 1) t') :
    ∃ t, forDownM hi lo body s = some t ∧ I lo t := by
  apply forDown_invariant (fun i o => ∃ t, o = some t ∧ I i t) hle ⟨s, rfl, start⟩
  rintro i o hlo hhi ⟨t, rfl, ht⟩
  obtain ⟨t', ht', hI⟩ := step i t hlo hhi ht
  exact ⟨t', ht', hI⟩

end BinOs.BoundedLoops
