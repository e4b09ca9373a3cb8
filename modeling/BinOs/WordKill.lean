import BinOs.LineEditorRuns
import Mathlib.Data.FinEnum
import Mathlib.Data.List.DropRight

/-! # Killing the word before the cursor

The two backward scans drop the spaces and then the other characters at the end of the
text before the cursor, unless it is made of spaces only: then one of them stays. -/
namespace BinOs.WordKill
open CheckedBuffers LineEditor ShellSession LineEditorRefinement LineEditorRuns ZipperEditor

/-- What should be left of the text before the cursor. -/
def wordKilled (l : List UInt8) : List UInt8 := (l.rdropWhile (· == 32)).rdropWhile (· != 32)

section Scans
variable {b : Buffer} {l : List UInt8}

/-- A scan back stops at the last character that it does not drop, or at the first one. -/
theorem skipBack_eq (hb : ∀ i (hi : i < l.length), elem b i = l[i]) (hlen : l.length ≤ 256)
    (p : UInt8 → Bool) {start : ℕ} (hstart : start < l.length) :
    skipBack b p start = some (((l.take (start + 1)).rdropWhile p).length - 1) := by
  induction start with
  | zero =>
    have hinit := (List.rdropWhile_prefix p (l.take 1)).length_le
    have hone : (l.take 1).length ≤ 1 := List.length_take_le ..
    have hzero : ((l.take 1).rdropWhile p).length - 1 = 0 := by omega
    rw [skipBack, Nat.zero_add, hzero]
  | succ start ih =>
    rw [skipBack, read_natCast b (by omega), Option.bind_eq_bind, Option.bind_some, hb _ hstart,
      ← List.take_append_getElem hstart]
    by_cases hp : p l[start + 1] = true
    · rw [if_pos hp, List.rdropWhile_concat_pos p _ _ hp, ih (by omega)]
    · rw [if_neg hp, List.rdropWhile_concat_neg p _ _ hp, List.length_append, List.length_take,
        List.length_singleton]
      congr 1
      omega

theorem take_rdropWhile (p : UInt8 → Bool) (l : List UInt8) (hne : l.rdropWhile p ≠ []) :
    l.take ((l.rdropWhile p).length - 1 + 1) = l.rdropWhile p := by
  have hpos := List.length_pos_iff.mpr hne
  rw [Nat.sub_add_cancel hpos]
  exact (List.prefix_iff_eq_take.mp (List.rdropWhile_prefix p l)).symm

theorem wordStart_eq (hb : ∀ i (hi : i < l.length), elem b i = l[i]) (hlen : l.length ≤ 255)
    (hne : l ≠ []) : wordStart b l.length =
      some (if l.rdropWhile (· == 32) = [] then 1 else ((wordKilled l).length : ℤ)) := by
  have hpos := List.length_pos_iff.mpr hne
  have hfrom : ((l.length : ℤ) - 1).toNat = l.length - 1 := by omega
  have hspaces := skipBack_eq hb (by omega) (· == 32) (by omega : l.length - 1 < l.length)
  rw [Nat.sub_add_cancel hpos, List.take_length] at hspaces
  rw [wordStart, hfrom, hspaces, Option.bind_eq_bind, Option.bind_some]
  have hread : ∀ i : ℕ, ∀ hi : i < l.length, read b i = some l[i] :=
    fun i hi => by rw [read_natCast b (by omega), hb i hi]
  by_cases hall : l.rdropWhile (· == 32) = []
  · -- both loops end at index 0, on a space
    have hspace : l[0] = 32 :=
      eq_of_beq (List.rdropWhile_eq_nil_iff.mp hall _ (List.getElem_mem hpos))
    rw [if_pos hall, hall, List.length_nil, Nat.zero_sub, skipBack, Option.bind_eq_bind,
      Option.bind_some, hread 0 hpos, Option.bind_some, if_pos hspace]
    rfl
  · have hinit : (wordKilled l) <+: l :=
      (List.rdropWhile_prefix _ _).trans (List.rdropWhile_prefix _ _)
    have hle := (List.rdropWhile_prefix (· == (32 : UInt8)) l).length_le
    have hword : skipBack b (· != 32) ((l.rdropWhile (· == 32)).length - 1) =
        some ((wordKilled l).length - 1) := by
      have hscan := skipBack_eq hb (by omega) (· != 32)
        (by omega : (l.rdropWhile (· == 32)).length - 1 < l.length)
      rwa [take_rdropWhile _ l hall] at hscan
    rw [if_neg hall, hword, Option.bind_eq_bind, Option.bind_some]
    by_cases hnil : wordKilled l = []
    · -- nothing stands before the word
      have hfirst := (List.rdropWhile_prefix (· == (32 : UInt8)) l).getElem
        (List.length_pos_iff.mpr hall)
      have hkept := List.rdropWhile_eq_nil_iff.mp hnil _
        (List.getElem_mem (List.length_pos_iff.mpr hall))
      rw [hfirst, bne_iff_ne] at hkept
      rw [hnil, List.length_nil, hread 0 hpos, Option.bind_some, if_neg hkept]
    · have hposWord := List.length_pos_iff.mpr hnil
      have hleWord := hinit.length_le
      have hlast : (wordKilled l).getLast hnil = 32 := by
        have hstop := List.rdropWhile_last_not (· != (32 : UInt8)) _ hnil
        rwa [Bool.not_eq_true, bne_eq_false_iff_eq] at hstop
      rw [List.getLast_eq_getElem] at hlast
      have hspace := (hinit.getElem (by omega : (wordKilled l).length - 1 < _)).symm.trans hlast
      rw [hread _ (by omega), Option.bind_some, if_pos hspace]
      congr 1
      omega

end Scans

/-- Byte 23 leaves `l` before the cursor and everything from the cursor on. -/
def KillsTo (s : Shell) (l : List UInt8) : Prop :=
  ∃ s', input 23 s = some (s', false) ∧ textBefore s' = l ∧ textFrom s' = textFrom s ∧
    s'.cursorPos = l.length

section Kill
variable {s : Shell} {a : Session}

theorem input_killWord {s' : Shell} (h : inputKillWord s = some s') :
    input 23 s = some (s', false) := by
  rw [input, inputEffect_killWord, h]
  rfl

/-- The kill keeps the first `k` characters of the text before the cursor. -/
theorem killsTo_take (h : Represents s a) (hpos : s.cursorPos > 0) {k : ℕ}
    (hk : wordStart s.inputBuffer s.cursorPos = some (k : ℤ)) (hkc : k ≤ a.editor.left.length) :
    KillsTo s ((textBefore s).take k) := by
  obtain ⟨s', hs', hrep⟩ := h.killWord_from hpos hk hkc
  obtain ⟨hleft, hright⟩ := represents_shows h
  obtain ⟨hleft', hright'⟩ := represents_shows hrep
  refine ⟨s', input_killWord hs', ?_, ?_, ?_⟩
  · rw [hleft', hleft, ← bytes_take]
    rfl
  · rw [hright', hright]
    rfl
  · rw [hrep.cursor, hleft, ← bytes_take, length_bytes]
    rfl

theorem killsTo_unique {l l' : List UInt8} (h : KillsTo s l) (h' : KillsTo s l') : l = l' := by
  obtain ⟨s₁, hs₁, hl, -⟩ := h
  obtain ⟨s₂, hs₂, hl', -⟩ := h'
  rw [hs₁] at hs₂
  cases hs₂
  exact hl.symm.trans hl'

theorem rdropWhile_spaces_iff (l : List UInt8) :
    l.rdropWhile (· == 32) = [] ↔ ∀ c ∈ l, c = 32 := by
  rw [List.rdropWhile_eq_nil_iff]
  exact forall₂_congr fun c _ => beq_iff_eq

theorem elem_before (h : Represents s a) {i : ℕ} (hi : i < (textBefore s).length) :
    elem s.inputBuffer i = (textBefore s)[i] := by
  obtain ⟨hleft, -⟩ := represents_shows h
  simp only [hleft] at hi ⊢
  have htext : bytes a.editor.text = bytes a.editor.left ++ bytes a.editor.right := bytes_append _ _
  have hlt : i < (bytes a.editor.text).length := by
    rw [htext, List.length_append]
    omega
  rw [h.line.bytes i hlt]
  simp only [htext, List.getElem_append_left hi]

/-- One space is left of a text of spaces only. -/
theorem kill_spec (h : Represents s a) :
    KillsTo s (if textBefore s ≠ [] ∧ ∀ c ∈ textBefore s, c = 32 then [32]
      else wordKilled (textBefore s)) := by
  have hcursor := h.cursor
  have hle := h.cursor_le
  have hmax := h.index_le
  have hlen : (textBefore s).length = a.editor.left.length := by
    rw [(represents_shows h).1, length_bytes]
  by_cases hnil : textBefore s = []
  · have hzero : s.cursorPos = 0 := by
      rw [hnil, List.length_nil] at hlen
      omega
    have hkill : inputKillWord s = some s := if_neg (by omega)
    rw [if_neg fun hall => hall.1 hnil, hnil]
    exact ⟨s, input_killWord hkill, hnil, rfl, hzero⟩
  · have hpos := List.length_pos_iff.mpr hnil
    have hstart := wordStart_eq (fun i hi => elem_before h hi) (by omega) hnil
    rw [hlen, ← hcursor] at hstart
    by_cases hall : ∀ c ∈ textBefore s, c = 32
    · rw [if_pos ((rdropWhile_spaces_iff _).mpr hall)] at hstart
      have htake := killsTo_take h (by omega) (k := 1) hstart (by omega)
      obtain ⟨c, rest, hbefore⟩ := List.exists_cons_of_ne_nil hnil
      have hc : c = 32 := hall c (hbefore ▸ List.mem_cons_self)
      rw [if_pos ⟨hnil, hall⟩]
      rwa [hbefore, hc, List.take_succ_cons, List.take_zero] at htake
    · rw [if_neg (mt (rdropWhile_spaces_iff _).mp hall)] at hstart
      have hinit : wordKilled (textBefore s) <+: textBefore s :=
        (List.rdropWhile_prefix _ _).trans (List.rdropWhile_prefix _ _)
      have htake := killsTo_take h (by omega) hstart (by rw [← hlen]; exact hinit.length_le)
      rw [if_neg fun hspaces => hall hspaces.2]
      rwa [← List.prefix_iff_eq_take.mp hinit] at htake

theorem wordKilled_spaces {l : List UInt8} (h : ∀ c ∈ l, c = 32) : wordKilled l = [] := by
  rw [wordKilled, (rdropWhile_spaces_iff l).mpr h, List.rdropWhile_nil]

theorem killsTo_iff (h : Represents s a) :
    KillsTo s (wordKilled (textBefore s)) ↔ (textBefore s = [] ∨ ∃ c ∈ textBefore s, c ≠ 32) := by
  have hspec := kill_spec h
  by_cases hall : textBefore s ≠ [] ∧ ∀ c ∈ textBefore s, c = 32
  · rw [if_pos hall] at hspec
    constructor
    · intro hkill
      have heq := killsTo_unique hspec hkill
      rw [wordKilled_spaces hall.2] at heq
      cases heq
    · rintro (hnil | ⟨c, hc, hne⟩)
      · exact absurd hnil hall.1
      · exact absurd (hall.2 c hc) hne
  · rw [if_neg hall] at hspec
    refine ⟨fun _ => ?_, fun _ => hspec⟩
    by_contra hno
    exact hall ⟨fun hnil => hno (.inl hnil), fun c hc => by_contra fun hne => hno (.inr ⟨c, hc, hne⟩)⟩

end Kill

/-- The word kill does what it should unless there are spaces and nothing else before the
cursor. -/
theorem kill_word_iff {s : Shell} (h : Reachable s) :
    KillsTo s (wordKilled (textBefore s)) ↔ (textBefore s = [] ∨ ∃ c ∈ textBefore s, c ≠ 32) := by
  obtain ⟨a, ha⟩ := h.represents
  exact killsTo_iff ha

theorem kill_word_ab : KillsTo (shellAfter [.input 97, .input 32, .input 98])
      (wordKilled (textBefore (shellAfter [.input 97, .input 32, .input 98]))) ↔
    (textBefore (shellAfter [.input 97, .input 32, .input 98]) = [] ∨
      ∃ c ∈ textBefore (shellAfter [.input 97, .input 32, .input 98]), c ≠ 32) :=
  kill_word_iff (shellAfter_reachable [.input 97, .input 32, .input 98])

/-- A space typed on an empty line survives the kill. -/
theorem kill_keeps_single_space : Reachable (shellAfter [.input 32]) ∧
    textBefore (shellAfter [.input 32]) = [32] ∧
    ¬ KillsTo (shellAfter [.input 32]) (wordKilled (textBefore (shellAfter [.input 32]))) := by
  have hreach := shellAfter_reachable [.input 32]
  obtain ⟨a, ha, hleft, -⟩ := shellAfter_typed (t := [32]) (by decide +kernel) (by decide)
  have hbefore : textBefore (shellAfter [.input 32]) = [32] := (represents_shows ha).1.trans hleft
  refine ⟨hreach, hbefore, fun hkill => ?_⟩
  have hcond := (killsTo_iff ha).mp hkill
  rw [List.map_singleton, hbefore] at hcond
  simp at hcond

end BinOs.WordKill
