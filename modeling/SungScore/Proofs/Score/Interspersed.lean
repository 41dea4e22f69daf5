import SungScore.Proofs.Score.Renumbered
import SungScore.Proofs.Text.Lines
import SungScore.Proofs.Text.Written

set_option autoImplicit false

/-!
# Lines that do not matter

Blank lines and comments can be put anywhere into a source, also between a lyric line and its melody
line, and every line can end in either way: the morae stay the same, and a fault stays the same but
for its line (`read_interspersed`).

A line that is ignored only counts. So two scores, one of which has read such lines besides, differ in
nothing but lines (`Score.SameButLines`), and every line that both read keeps them so. It does not matter
any more how the numbers of earlier lines differ: for the next line some renumbering is chosen that
maps them as before, and the number of this line as it should be.
-/

namespace SungScore

/-- The second list of lines is the first one with blank lines and comments inserted. -/
inductive Interspersed : List Text → List Text → Prop
  | nil : Interspersed [] []
  | kept (l : Text) {ls ls' : List Text} (h : Interspersed ls ls') : Interspersed (l :: ls) (l :: ls')
  | inserted {l : Text} (hl : l.allBlank = true ∨ l.head? = some '!') {ls ls' : List Text}
      (h : Interspersed ls ls') : Interspersed ls (l :: ls')

namespace Score

variable {l : Text} {ls ls' : List Text} {s s' : Score}

/-! ## Single lines -/

/-- How lines end does not matter. -/
theorem feedLines_congr (h : ls.map Text.dropLineEnd = ls'.map Text.dropLineEnd) :
    feedLines ls = feedLines ls' := by
  induction ls generalizing ls' with
  | nil =>
      rw [List.map_nil, eq_comm, List.map_eq_nil_iff] at h
      rw [h]
  | cons l ls ih =>
      cases ls' with
      | nil => cases h
      | cons l' ls' =>
          rw [List.map_cons, List.map_cons, List.cons.injEq] at h
          rw [feedLines, feedLines, feedLine_congr h.1, ih h.2]

theorem feedLines_cons_ignored (hl : LineKind.of l = .ignored) (ls : List Text) (s : Score) :
    feedLines (l :: ls) s = feedLines ls { s with line := s.line + 1 } := by
  have hread : Reads l s { s with line := s.line + 1 } :=
    .ignored ((LineKind.of_dropLineEnd l).trans hl)
  rw [feedLines]
  simp only [bind, EStateM.bind, feedLine_of_reads hread]

/-- The syllables that wait are from earlier lines. -/
theorem Reads.line_of_mem_waiting (h : Reads l s s') (hs : ∀ x ∈ s.waiting, x.line ≤ s.line) :
    ∀ x ∈ s'.waiting, x.line ≤ s'.line := by
  intro x hx
  rw [h.line]
  cases h with
  | ignored => exact (hs x hx).trans (Nat.le_succ _)
  | pragma => exact (hs x hx).trans (Nat.le_succ _)
  | lyrics _ _ hread => exact (Lyrics.line_of_mem_read hread x hx).le
  | melody => cases hx

/-! ## Scores that differ in lines -/

/-- The scores differ in nothing but lines: in how many there were, and in the numbers of those that
syllables are from. -/
structure SameButLines (s s' : Score) : Prop where
  settings : s'.settings = s.settings
  pending : ∃ f, s'.pending = s.pending.map (List.map (.moved f id))
  engine : (Likeness.renumbered Set.univ id trivial).Engines s.engine s'.engine

open Likeness

theorem SameButLines.of_renumbered {f : Nat → Nat}
    (h : (renumbered Set.univ f trivial).Scores s s') : SameButLines s s' :=
  ⟨h.settings, ⟨f, h.pending⟩, ⟨h.engine.morae, h.engine.current, h.engine.notes, h.engine.carried⟩⟩

/-- For the next line there is a renumbering of all lines so far. -/
theorem SameButLines.renumber (h : SameButLines s s') (hs : ∀ x ∈ s.waiting, x.line ≤ s.line) :
    ∃ f, (renumbered Set.univ f trivial).Scores { s with line := s.line + 1 }
      { s' with line := s'.line + 1 } := by
  obtain ⟨g, hpending⟩ := h.pending
  have hengine := h.engine
  refine ⟨fun k => if k ≤ s.line then g k else s'.line + 1, h.settings, ?_, ?_, ?_, ?_,
    ⟨hengine.morae, hengine.current, hengine.notes, hengine.carried⟩⟩
  · exact congrArg Settings.tickUnit h.settings
  · exact congrArg Settings.octave h.settings
  · exact (if_neg (Nat.not_succ_le_self s.line)).symm
  · show s'.pending = s.pending.map _
    rw [hpending]
    unfold waiting at hs
    cases hsome : s.pending with
    | none => rfl
    | some ss =>
        rw [hsome] at hs
        refine congrArg some (List.map_congr_left (fun x hx => ?_))
        show x.moved g id = x.moved (fun k => if k ≤ s.line then g k else s'.line + 1) id
        rw [Syllable.moved, Syllable.moved, if_pos (hs x hx)]

/-- A line keeps the scores the same but for lines. -/
theorem SameButLines.feedLine (h : SameButLines s s') (hs : ∀ x ∈ s.waiting, x.line ≤ s.line)
    (l : Text) :
    AlikeResult Fault.SameButLine SameButLines (Score.feedLine l s) (Score.feedLine l s') := by
  obtain ⟨f, hnext⟩ := h.renumber hs
  have hstep := feedLine_alike (ofLines_renumbered (Set.mem_univ f)) l hnext
    (fun _ c _ => congrArg (Settings.apply · c) h.settings) (fun n _ => rfl)
  obtain ⟨_, t, t', hx, hy, ht⟩ | ⟨_, _, t, t', hx, hy, ⟨g, -, rfl⟩, ht⟩ := hstep.cases
  · rw [hx, hy]
    exact .ok _ (.of_renumbered ht)
  · rw [hx, hy]
    exact .error ⟨g, rfl⟩ (.of_renumbered ht)

/-- **Ignored lines in between** keep the scores the same but for lines. -/
theorem SameButLines.feedLines (hls : Interspersed ls ls') (h : SameButLines s s')
    (hs : ∀ x ∈ s.waiting, x.line ≤ s.line) :
    AlikeResult Fault.SameButLine SameButLines (Score.feedLines ls s)
      (Score.feedLines ls' s') := by
  induction hls generalizing s s' with
  | nil => exact .ok () h
  | kept l _ ih =>
      rw [Score.feedLines, Score.feedLines]
      simp only [bind, EStateM.bind]
      obtain ⟨_, t, t', hx, hy, ht⟩ | ⟨f, f', t, t', hx, hy, hf, ht⟩ := (h.feedLine hs l).cases
      · rw [hx, hy]
        exact ih ht ((reads_of_feedLine hx).line_of_mem_waiting hs)
      · rw [hx, hy]
        exact .error hf ht
  | inserted hl _ ih =>
      rw [feedLines_cons_ignored (LineKind.of_eq_ignored.mpr hl)]
      exact ih ⟨h.settings, h.pending, h.engine⟩ hs

theorem SameButLines.finish (h : SameButLines s s') :
    AlikeExcept Fault.SameButLine Eq s.finish s'.finish := by
  have hengine : (renumbered Set.univ (fun _ => s'.line) trivial).Engines s.engine s'.engine :=
    ⟨h.engine.morae, h.engine.current, h.engine.notes, h.engine.carried⟩
  have hend : AlikeExcept Fault.SameButLine Eq (s.engine.finish s.settings s.line)
      (s'.engine.finish s'.settings s'.line) := by
    refine (finish_alike s.line h.settings hengine).imp ?_ ?_
    · rintro f _ ⟨g, -, rfl⟩
      exact ⟨g, rfl⟩
    · rintro ms _ rfl
      exact (map_mora_renumbered (Set.mem_univ _) ms).symm
  obtain ⟨f, hpending⟩ := h.pending
  unfold Score.finish
  rw [hpending]
  cases s.pending with
  | none => exact hend
  | some ss =>
      cases ss with
      | nil => exact hend
      | cons first later => exact .error ⟨f, rfl⟩

end Score

/-- **Blank lines, comments and the ends of lines do not matter.** A score is written once in some
lines, and once in these lines with blank lines and comments inserted, with any ends. Then it has the
same morae both times, or the same fault but for its line. Where nothing was inserted, the line is
the same, too. -/
theorem read_interspersed (σ : Settings) (start : Nat) (source source' : Text)
    (ls ls' : List Text) (hls : Interspersed ls ls') (hsource : Text.Written ls source)
    (hsource' : Text.Written ls' source') :
    let s : Score := { settings := σ, line := start }
    AlikeExcept Fault.SameButLine Eq (s.read source) (s.read source') ∧
      (ls' = ls → s.read source' = s.read source) := by
  intro s
  have hread := Score.feedLines_congr hsource.map_dropLineEnd_lines
  have hread' := Score.feedLines_congr hsource'.map_dropLineEnd_lines
  have hsame : s.SameButLines s := ⟨rfl, ⟨id, rfl⟩, Likeness.engines_new _⟩
  unfold Score.read
  rw [hread, hread']
  constructor
  · obtain ⟨_, t, t', hx, hy, ht⟩ | ⟨f, f', t, t', hx, hy, hf, -⟩ :=
      (hsame.feedLines hls (fun x hx => (by cases hx))).cases
    · rw [hx, hy]
      exact ht.finish
    · rw [hx, hy]
      exact .error hf
  · rintro rfl
    rfl

/-- The syllable "ta" has no note. It is from the fourth line when a comment stands in front of its
line, and a blank one in front of the melody before. -/
theorem read_interspersed_kan_ta :
    let ls : List Text := ["kan".toList, "c-.".toList, "ta".toList]
    let ls' : List Text := ["kan".toList, [' '], "c-.".toList, "! x".toList, "ta".toList]
    let source : Text := "kan\nc-.\nta".toList
    let source' : Text := "kan\r\n \nc-.\n! x\r\nta\r\n".toList
    Interspersed ls ls' ∧ Text.Written ls source ∧ Text.Written ls' source' ∧
      compile {} source = .error (.misplaced 3 1 "ta".toList .noNote) ∧
      ∃ number, compile {} source' = .error (.misplaced number 1 "ta".toList .noNote) := by
  intro ls ls' source source'
  have hls : Interspersed ls ls' :=
    .kept _ (.inserted (Or.inl (by decide)) (.kept _ (.inserted (Or.inr rfl) (.kept _ .nil))))
  have hsource : Text.Written ls source :=
    .cons (by decide) .feed (.cons (by decide) .feed (.last (by decide) (by decide)))
  have hsource' : Text.Written ls' source' :=
    .cons (by decide) .returnFeed (.cons (by decide) .feed (.cons (by decide) .feed
      (.cons (by decide) .returnFeed (.cons (by decide) .returnFeed .nil))))
  have h : compile {} source = .error (.misplaced 3 1 "ta".toList .noNote) := by decide +kernel
  refine ⟨hls, hsource, hsource', h, ?_⟩
  have halike := (read_interspersed {} 0 source source' ls ls' hls hsource hsource').1
  rw [show ({ settings := {}, line := 0 } : Score).read source = _ from h] at halike
  generalize hend : ({ settings := {}, line := 0 } : Score).read source' = result at halike
  cases halike with
  | error hf =>
      obtain ⟨g, rfl⟩ := hf
      exact ⟨g 3, hend⟩

end SungScore
