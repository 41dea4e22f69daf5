import SungScore.Proofs.Lyrics
import SungScore.Proofs.Score.Segments
import SungScore.Proofs.Text.Lines

set_option autoImplicit false

/-!
# Lyrics and melody take turns

Of the lines that belong to the lyrics or the melody, the first is a lyric line, the second its melody
line, and so on. Whether lyrics wait for their melody can be told from the number of such lines; if they
do, they are the syllables of the last one (`lines_alternate`).

The lyrics that wait are never empty. A line without a word is blank, and so it is no lyric line: the
blanks that decide what a line is for are the ones between words. Hence a score cannot be finished
before the last lyrics are sung.
-/

namespace SungScore

/-! ## Words of a line -/

namespace Text

theorem wordsFrom_ne_nil {s : Text} (h : s.allBlank = false) (column : Nat) :
    wordsFrom 0 column s ≠ [] := by
  induction s generalizing column with
  | nil => cases h
  | cons c s ih =>
      rw [wordsFrom]
      by_cases hc : isBlank c = true
      · rw [allBlank, List.all_cons, hc, Bool.true_and] at h
        rw [if_pos hc]
        exact ih h (column + 1)
      · rw [if_neg hc]
        exact List.cons_ne_nil _ _

/-- What is dropped at the end of a line belongs to no word. -/
theorem words_dropLineEnd (l : Text) : l.dropLineEnd.words = l.words := by
  obtain ⟨ending, hl, hblank⟩ := exists_lineEnd l
  by_cases hne : ending = []
  · rw [hne, List.append_nil] at hl
    rw [← hl]
  · have happend := words_append hblank hne l.dropLineEnd []
    rw [List.append_nil, ← hl] at happend
    rw [happend]
    exact (List.append_nil _).symm

end Text

namespace Lyrics

theorem read_dropLineEnd (line : Nat) (l : Text) : read line l.dropLineEnd = read line l := by
  rw [read, read, Text.words_dropLineEnd]

/-- A line that belongs to the lyrics has a first word, and the first syllable is the one of this
word. -/
theorem exists_first {line : Nat} {l : Text} {ss : List Syllable}
    (hkind : LineKind.of l = .content) (h : read line l = .ok ss) :
    ∃ w ws first later, l.words = w :: ws ∧ ss = first :: later ∧
      ∀ cause, first.fault cause = .misplaced line w.column w.text cause := by
  have hblank : l.allBlank = false := by
    rw [← Bool.not_eq_true]
    intro hall
    rw [LineKind.of_eq_ignored.mpr (Or.inl hall)] at hkind
    cases hkind
  obtain ⟨w, ws, hwords⟩ := List.exists_cons_of_ne_nil (Text.wordsFrom_ne_nil hblank 1)
  have hread : ofWords line (w :: ws) = .ok ss := by
    rw [← hwords]
    exact h
  obtain ⟨first, later, hfirst, -, rfl⟩ := ofWords_cons_ok.mp hread
  refine ⟨w, ws, first, later, hwords, rfl, fun cause => ?_⟩
  obtain ⟨hparts, hline, hcolumn⟩ := Syllable.read_ok.mp hfirst
  rw [Syllable.fault, hparts.display, hcolumn, hline]

end Lyrics

/-! ## Taking turns -/

/-- The number of lines that belong to the lyrics or the melody. -/
def contentCount (ls : List Text) : Nat := ls.countP (fun l => LineKind.of l == .content)

/-- The last of the lines that belong to the lyrics or the melody, with its number where the lines are
counted on from `start`. -/
def LastContent (start : Nat) (ls : List Text) (number : Nat) (l : Text) : Prop :=
  ∃ before after, ls = before ++ l :: after ∧ number = start + before.length + 1 ∧
    LineKind.of l = .content ∧ ∀ x ∈ after, LineKind.of x ≠ .content

theorem contentCount_concat_of_content {l : Text} (hl : LineKind.of l = .content)
    (ls : List Text) : contentCount (ls ++ [l]) = contentCount ls + 1 := by
  simp [contentCount, hl]

theorem contentCount_concat_of_not_content {l : Text} (hl : LineKind.of l ≠ .content)
    (ls : List Text) : contentCount (ls ++ [l]) = contentCount ls := by
  simp [contentCount, hl]

theorem LastContent.concat {start number : Nat} {ls : List Text} {l x : Text}
    (h : LastContent start ls number l) (hx : LineKind.of x ≠ .content) :
    LastContent start (ls ++ [x]) number l := by
  obtain ⟨before, after, rfl, hnumber, hl, hafter⟩ := h
  refine ⟨before, after ++ [x], by simp, hnumber, hl, fun y hy => ?_⟩
  rcases List.mem_append.mp hy with hy | hy
  · exact hafter y hy
  · obtain rfl := List.mem_singleton.mp hy
    exact hx

namespace Score

variable {l : Text} {ls : List Text} {s s' : Score} {start : Nat}

/-- Lyrics wait after an odd number of lines that belong to the lyrics or the melody, and are those of
the last one. -/
structure TakesTurns (start : Nat) (ls : List Text) (s : Score) : Prop where
  even : s.pending = none → Even (contentCount ls)
  odd : ∀ ss, s.pending = some ss → Odd (contentCount ls) ∧
    ∃ number l, LastContent start ls number l ∧ Lyrics.read number l = .ok ss

/-- A line that does not belong to the lyrics or the melody touches neither the lyrics that wait nor
the engine. -/
theorem Reads.of_not_content (hl : LineKind.of l ≠ .content) (h : Reads l s s') :
    s'.engine = s.engine ∧ s'.pending = s.pending := by
  rw [← LineKind.of_dropLineEnd] at hl
  cases h with
  | ignored => exact ⟨rfl, rfl⟩
  | pragma => exact ⟨rfl, rfl⟩
  | lyrics hkind => exact absurd hkind hl
  | melody hkind => exact absurd hkind hl

/-- One more line that does not belong to the lyrics or the melody. -/
theorem TakesTurns.not_content (h : s.TakesTurns start ls) (hl : LineKind.of l ≠ .content)
    (hread : Reads l s s') : s'.TakesTurns start (ls ++ [l]) := by
  have hpending := (hread.of_not_content hl).2
  have hcount := contentCount_concat_of_not_content hl ls
  constructor
  · intro hnone
    rw [hcount]
    exact h.even (hpending ▸ hnone)
  · intro ss hss
    obtain ⟨hodd, number, x, hlast, hx⟩ := h.odd ss (hpending ▸ hss)
    rw [hcount]
    exact ⟨hodd, number, x, hlast.concat hl, hx⟩

/-- One more line. -/
theorem TakesTurns.reads (h : s.TakesTurns start ls) (hline : s.line = start + ls.length)
    (hread : Reads l s s') : s'.TakesTurns start (ls ++ [l]) := by
  by_cases hl : LineKind.of l = .content
  · have hcount := contentCount_concat_of_content hl ls
    have hkind := (LineKind.of_dropLineEnd l).trans hl
    cases hpending : s.pending with
    | none =>
        obtain ⟨ss, hlyrics, rfl⟩ := (reads_lyrics_iff hkind hpending).mp hread
        refine ⟨fun hnone => (by cases hnone), fun ss' hss => ?_⟩
        obtain rfl : ss = ss' := Option.some.inj hss
        rw [Lyrics.read_dropLineEnd, hline] at hlyrics
        rw [hcount]
        exact ⟨(h.even hpending).add_one, _, l, ⟨ls, [], rfl, rfl, hl, by simp⟩, hlyrics⟩
    | some ss =>
        obtain ⟨ns, octave, e, -, -, rfl⟩ := (reads_melody_iff hkind hpending).mp hread
        refine ⟨fun _ => ?_, fun ss' hss => (by cases hss)⟩
        rw [hcount]
        exact (h.odd ss hpending).1.add_one
  · exact h.not_content hl hread

/-- **Lines that can be read** take turns. -/
theorem takesTurns_of_feedLines {u : Unit} (hs : s.TakesTurns start []) (hline : s.line = start)
    (h : feedLines ls s = .ok u s') : s'.TakesTurns start ls := by
  induction ls using List.reverseRecOn generalizing s' with
  | nil =>
      cases h
      exact hs
  | append_singleton ls l ih =>
      obtain ⟨s₁, hbefore, hlast⟩ := feedLines_append_ok.mp h
      obtain ⟨s₂, hread, hend⟩ := feedLines_cons_ok.mp hlast
      cases hend
      have hcounted := feedLines_line hbefore
      rw [hline] at hcounted
      exact (ih hbefore).reads hcounted hread

end Score

/-- **Lyrics and melody take turns.** After lines that can all be read, lyrics wait exactly if the number
of lines that belong to the lyrics or the melody is odd. They are then the syllables of the last such
line, of which there are some, and the score cannot be finished: its first word has no note. A line of
another kind leaves the engine and the lyrics that wait as they are, and every line is counted. -/
theorem lines_alternate (σ : Settings) (start : Nat) (ls : List Text) (s : Score)
    (h : Score.feedLines ls { settings := σ, line := start } = .ok () s) :
    (s.pending.isSome ↔ Odd (contentCount ls)) ∧
      (∀ ss, s.pending = some ss → ss ≠ [] ∧ ∃ number l, LastContent start ls number l ∧
        Lyrics.read number l = .ok ss ∧ ∃ w ws, l.words = w :: ws ∧
          s.finish = .error (.misplaced number w.column w.text .noNote)) ∧
      (∀ before l after, ls = before ++ l :: after → LineKind.of l ≠ .content →
        ∃ t t', Score.feedLines before { settings := σ, line := start } = .ok () t ∧
          Score.feedLine l t = .ok () t' ∧ t'.engine = t.engine ∧ t'.pending = t.pending) ∧
      s.line = start + ls.length := by
  have hnew : ({ settings := σ, line := start } : Score).TakesTurns start [] :=
    ⟨fun _ => Even.zero, fun ss hss => (by cases hss)⟩
  have hturns : s.TakesTurns start ls := Score.takesTurns_of_feedLines hnew rfl h
  refine ⟨?_, ?_, ?_, Score.feedLines_line h⟩
  · cases hpending : s.pending with
    | none => simp [Nat.not_odd_iff_even.mpr (hturns.even hpending)]
    | some ss => simp [(hturns.odd ss hpending).1]
  · intro ss hss
    obtain ⟨-, number, l, hlast, hread⟩ := hturns.odd ss hss
    have hkind : LineKind.of l = .content := by
      obtain ⟨-, -, -, -, hkind, -⟩ := hlast
      exact hkind
    obtain ⟨w, ws, first, later, hwords, rfl, hfault⟩ := Lyrics.exists_first hkind hread
    refine ⟨List.cons_ne_nil first later, number, l, hlast, hread, w, ws, hwords, ?_⟩
    rw [Score.finish, hss, ← hfault]
  · rintro before l after rfl hl
    obtain ⟨t, hbefore, hrest⟩ := Score.feedLines_append_ok.mp h
    obtain ⟨t', hread, -⟩ := Score.feedLines_cons_ok.mp hrest
    exact ⟨t, t', hbefore, Score.feedLine_of_reads hread, hread.of_not_content hl⟩

/-- The second lyric line waits. It is the seventh line where the lines are counted on from two, and its
first word stands in the third column. -/
theorem lines_alternate_ka_ta :
    let ls : List Text :=
      ["! x".toList, "ka".toList, "\r\n".toList, "c\n".toList, "\u3000 ta na".toList,
        "# octave 5".toList]
    ∃ s : Score, Score.feedLines ls { line := 2 } = .ok () s ∧ contentCount ls = 3 ∧
      s.pending.isSome = true ∧ s.line = 8 ∧
      s.finish = .error (.misplaced 7 3 "ta".toList .noNote) := by
  intro ls
  have hread : (Score.after? ls { line := 2 }).isSome = true := by decide +kernel
  have hend : ∀ s ∈ Score.after? ls { line := 2 },
      s.finish = .error (.misplaced 7 3 "ta".toList .noNote) := by decide +kernel
  have hcount : contentCount ls = 3 := by decide +kernel
  unfold Score.after? at hread hend
  cases h : Score.feedLines ls { line := 2 } with
  | error f s =>
      rw [h] at hread
      cases hread
  | ok u s =>
      rw [h] at hend
      obtain ⟨hodd, -, -, hline⟩ := lines_alternate {} 2 ls s h
      refine ⟨s, rfl, hcount, hodd.mpr ?_, hline, hend s rfl⟩
      rw [hcount]
      decide

end SungScore
