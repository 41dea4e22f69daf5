import SungScore.Text
import Mathlib.Tactic

set_option autoImplicit false

/-!
# Sources as they are written

A line is written with a line feed at its end, or with a carriage return and a line feed; the last line
of a source may have no end. `Text.Written` says which lines a source is written in. They are the lines
that it is read in, but for carriage returns at their ends (`Text.Written.map_dropLineEnd_lines`), and
every source is written in the lines that it is read in (`Text.written_lines`).
-/

namespace SungScore

/-- How a line ends: with a line feed, or with a carriage return in front of it. -/
inductive LineEnd
  | feed
  | returnFeed
deriving DecidableEq

/-- The characters at the end of a line. -/
def LineEnd.text : LineEnd → Text
  | feed => ['\n']
  | returnFeed => ['\r', '\n']

namespace Text

/-- The text is written in the lines given. Every line has an end of either kind, but the last one may
have none. -/
inductive Written : List Text → Text → Prop
  | nil : Written [] []
  | last {l : Text} (hl : '\n' ∉ l) (hne : l ≠ []) : Written [l] l
  | cons {l : Text} {ls : List Text} {s : Text} (hl : '\n' ∉ l) (ending : LineEnd)
      (h : Written ls s) : Written (l :: ls) (l ++ (ending.text ++ s))

/-! ## The end of a line -/

theorem dropEndWhile_cons (p : Char → Bool) (c : Char) (s : Text) :
    dropEndWhile p (c :: s)
      = if (dropEndWhile p s).isEmpty then (if p c then [] else [c]) else c :: dropEndWhile p s := by
  unfold dropEndWhile
  rw [List.reverse_cons, List.dropWhile_append, List.isEmpty_reverse]
  by_cases hs : (List.dropWhile p s.reverse).isEmpty = true
  · rw [if_pos hs, if_pos hs, List.dropWhile_cons]
    split <;> rfl
  · rw [if_neg hs, if_neg hs, List.reverse_append]
    rfl

theorem dropLineEnd_cons_congr (c : Char) {s s' : Text} (h : s.dropLineEnd = s'.dropLineEnd) :
    dropLineEnd (c :: s) = dropLineEnd (c :: s') := by
  rw [dropLineEnd, dropLineEnd] at h ⊢
  rw [dropEndWhile_cons, dropEndWhile_cons, h]

/-! ## Reading what is written -/

theorem lines_cons {c : Char} {s : Text} (hc : c ≠ '\n')
    (hs : c = '\r' → s.head? ≠ some '\n') :
    lines (c :: s) = match lines s with
      | [] => [[c]]
      | l :: ls => (c :: l) :: ls := by
  have hreturn : ∀ s', c = '\r' → s = '\n' :: s' → False := by
    rintro s' rfl rfl
    exact hs rfl rfl
  exact lines.eq_4 c s hreturn hc

/-- A text without a line feed is one line. -/
theorem lines_of_not_mem {l : Text} (hl : '\n' ∉ l) (hne : l ≠ []) : lines l = [l] := by
  induction l with
  | nil => exact absurd rfl hne
  | cons c l ih =>
      rw [List.mem_cons, not_or] at hl
      have hhead : l.head? ≠ some '\n' := fun h => hl.2 (List.mem_of_head? h)
      rw [lines_cons (Ne.symm hl.1) (fun _ => hhead)]
      cases l with
      | nil => rfl
      | cons d l => rw [ih hl.2 (List.cons_ne_nil d l)]

/-- A line is read up to its end; of a carriage return at the end it does not matter to which of the two
it belongs. -/
theorem lines_written_cons {l : Text} (hl : '\n' ∉ l) (ending : LineEnd) (s : Text) :
    ∃ l', lines (l ++ (ending.text ++ s)) = l' :: lines s ∧ l'.dropLineEnd = l.dropLineEnd := by
  induction l with
  | nil =>
      refine ⟨[], ?_, rfl⟩
      cases ending <;> simp [LineEnd.text, lines]
  | cons c l ih =>
      rw [List.mem_cons, not_or] at hl
      obtain ⟨l', hread, hend⟩ := ih hl.2
      by_cases hreturn : c = '\r' ∧ (l ++ (ending.text ++ s)).head? = some '\n'
      · -- the carriage return is taken for a part of the line's end
        obtain ⟨rfl, hhead⟩ := hreturn
        obtain rfl : l = [] := by
          cases l with
          | nil => rfl
          | cons d l =>
              obtain rfl : d = '\n' := by simpa using hhead
              simp at hl
        obtain rfl : ending = .feed := by
          cases ending with
          | feed => rfl
          | returnFeed => simp [LineEnd.text] at hhead
        exact ⟨[], by simp [LineEnd.text, lines], rfl⟩
      · refine ⟨c :: l', ?_, dropLineEnd_cons_congr c hend⟩
        rw [List.cons_append, lines_cons (Ne.symm hl.1) (fun hc h => hreturn ⟨hc, h⟩), hread]

/-- A source is read in the lines that it is written in. -/
theorem Written.map_dropLineEnd_lines {ls : List Text} {s : Text} (h : Written ls s) :
    s.lines.map dropLineEnd = ls.map dropLineEnd := by
  induction h with
  | nil => rfl
  | last hl hne => rw [lines_of_not_mem hl hne]
  | cons hl ending _ ih =>
      obtain ⟨l', hread, hend⟩ := lines_written_cons hl ending _
      rw [hread, List.map_cons, List.map_cons, ih, hend]

/-- Every source is written in the lines that it is read in. -/
theorem written_lines (s : Text) : Written s.lines s := by
  fun_induction lines s with
  | case1 => exact .nil
  | case2 s ih => exact .cons List.not_mem_nil .returnFeed ih
  | case3 s ih => exact .cons List.not_mem_nil .feed ih
  | case4 c s hreturn hfeed hnone ih =>
      rw [hnone] at ih
      cases ih
      exact .last (by simpa using Ne.symm hfeed) (List.cons_ne_nil c [])
  | case5 c s hreturn hfeed l ls hsome ih =>
      rw [hsome] at ih
      have hmem : ∀ l : Text, '\n' ∉ l → '\n' ∉ c :: l := by
        intro l hl
        rw [List.mem_cons, not_or]
        exact ⟨Ne.symm hfeed, hl⟩
      cases ih with
      | last hl hne => exact .last (hmem _ hl) (List.cons_ne_nil c _)
      | cons hl ending h => exact .cons (hmem _ hl) ending h

end Text

end SungScore
