import Mathlib.Data.List.DropRight
import Mathlib.Data.List.TakeWhile
import SungScore.Proofs.Text.Cut
import SungScore.Score

set_option autoImplicit false

/-!
# Ends of lines

What is dropped at the end of a line is blank. So a line that is filled up with spaces is itself, a
gap of blanks, and then the end of the next line is the only one that is dropped
(`dropLineEnd_rightpad`).
-/

namespace SungScore

namespace Text

/-- Characters of a kind are dropped at the end, and no character of the kind is left there. -/
theorem exists_dropEnd (p : Char → Bool) (s : Text) :
    ∃ ending : Text, s = s.dropEndWhile p ++ ending ∧ (∀ c ∈ ending, p c = true) ∧
      ∀ c ∈ (s.dropEndWhile p).getLast?, p c = false := by
  refine ⟨s.rtakeWhile p, List.rdropWhile_append_rtakeWhile.symm,
    fun c hc => List.mem_rtakeWhile_imp hc, fun c hc => ?_⟩
  obtain ⟨hne, rfl⟩ := List.mem_getLast?_eq_getLast hc
  exact Bool.eq_false_iff.mpr (List.rdropWhile_last_not p s hne)

/-- What is dropped at the end of a line is blank. -/
theorem exists_lineEnd (s : Text) :
    ∃ ending : Text, s = s.dropLineEnd ++ ending ∧ ending.allBlank = true := by
  obtain ⟨ending, hs, hending, -⟩ := exists_dropEnd (fun c => c == '\n' || c == '\r') s
  refine ⟨ending, hs, ?_⟩
  rw [allBlank, List.all_eq_true]
  intro c hc
  have hend := hending c hc
  rw [Bool.or_eq_true, beq_iff_eq, beq_iff_eq] at hend
  rcases hend with rfl | rfl <;> decide

/-- Nothing is dropped of a text without the characters of line ends. -/
theorem dropLineEnd_eq_self {s : Text} (h : ∀ c ∈ s, c ≠ '\n' ∧ c ≠ '\r') : s.dropLineEnd = s := by
  have hdrop : s.reverse.dropWhile (fun c => c == '\n' || c == '\r') = s.reverse := by
    rw [List.dropWhile_eq_self_iff]
    intro hl
    rw [Bool.not_eq_true, Bool.or_eq_false_iff, beq_eq_false_iff_ne, beq_eq_false_iff_ne]
    exact h _ (List.mem_reverse.mp (List.getElem_mem hl))
  rw [dropLineEnd, dropEndWhile, hdrop, List.reverse_reverse]

/-- Only the end of the last line is dropped. -/
theorem dropLineEnd_append (a : Text) {b : Text} (h : b.dropLineEnd ≠ []) :
    (a ++ b).dropLineEnd = a ++ b.dropLineEnd := by
  rw [dropLineEnd, dropEndWhile, Ne, List.reverse_eq_nil_iff] at h
  rw [dropLineEnd, dropLineEnd, dropEndWhile, dropEndWhile, List.reverse_append,
    List.dropWhile_append, if_neg (by simpa using h), List.reverse_append, List.reverse_reverse]

theorem allBlank_append (a b : Text) : (a ++ b).allBlank = (a.allBlank && b.allBlank) :=
  List.all_append

end Text

theorem LineKind.ne_nil_of_content {a : Text} (h : LineKind.of a = .content) : a ≠ [] := by
  rintro rfl
  cases h

theorem LineKind.of_eq_ignored {l : Text} :
    LineKind.of l = .ignored ↔ l.allBlank = true ∨ l.head? = some '!' := by
  unfold LineKind.of
  rw [← beq_iff_eq (b := some '!'), ← Bool.or_eq_true]
  split
  · rename_i h
    simp only [h]
  · rename_i h
    rw [iff_false_intro h, iff_false]
    split <;> intro hc <;> cases hc

/-- The kind of a line does not depend on its end. -/
theorem LineKind.of_dropLineEnd (l : Text) : LineKind.of l.dropLineEnd = LineKind.of l := by
  obtain ⟨ending, hl, hblank⟩ := Text.exists_lineEnd l
  generalize l.dropLineEnd = a at hl
  subst hl
  unfold LineKind.of
  rw [Text.allBlank_append, hblank, Bool.and_true]
  cases a with
  | nil => simp [Text.allBlank]
  | cons c a => rw [List.cons_append, List.head?_cons, List.head?_cons]

/-- A line for lyrics or a melody stays one when it gets longer. -/
theorem LineKind.of_append {a : Text} (h : LineKind.of a = .content) (b : Text) :
    LineKind.of (a ++ b) = .content := by
  have hhead : (a ++ b).head? = a.head? := by
    rw [List.head?_append_of_ne_nil _ (ne_nil_of_content h)]
  unfold LineKind.of at h ⊢
  rw [hhead, Text.allBlank_append]
  split at h
  · cases h
  · rename_i hcase
    rw [Bool.or_eq_true, not_or, Bool.not_eq_true] at hcase
    rw [hcase.1, Bool.false_and, Bool.false_or, if_neg hcase.2]
    exact h

/-- A line that is filled up with spaces, and another one behind it. -/
theorem Text.dropLineEnd_rightpad {l m : Text} {w : Nat} (hw : l.length < w)
    (hm : LineKind.of m.dropLineEnd = .content) :
    ∃ gap : Text, gap.allBlank = true ∧ gap ≠ [] ∧ (l.dropLineEnd ++ gap).length = w ∧
      dropLineEnd (l.rightpad w ' ' ++ m) = l.dropLineEnd ++ (gap ++ m.dropLineEnd) := by
  obtain ⟨ending, hl, hblank⟩ := exists_lineEnd l
  have hspaces : allBlank (List.replicate (w - l.length) ' ') = true := by
    rw [allBlank, List.all_eq_true]
    intro c hc
    rw [List.eq_of_mem_replicate hc]
    decide
  have hgap : l.dropLineEnd ++ (ending ++ List.replicate (w - l.length) ' ')
      = l.rightpad w ' ' := by
    rw [← List.append_assoc, ← hl]
    rfl
  refine ⟨ending ++ List.replicate (w - l.length) ' ', ?_, ?_, ?_, ?_⟩
  · rw [allBlank_append, hblank, hspaces]
    rfl
  · rw [Ne, List.append_eq_nil_iff, List.replicate_eq_nil_iff]
    omega
  · rw [hgap, List.rightpad, List.length_append, List.length_replicate]
    omega
  · rw [dropLineEnd_append _ (LineKind.ne_nil_of_content hm), ← hgap, List.append_assoc]

end SungScore
