import SungScore.Proofs.Engine.Likeness
import SungScore.Proofs.Score.Heard

set_option autoImplicit false

/-!
# Scores side by side

Two scores that are alike may stand at different lines and under different settings, as long as they
read a beat and an octave in the same way. Then a line that both read gives the same syllables, at
another line, and the same notes. Where these are alike, so are the scores after the line
(`feedLine_alike`) and after all lines (`feedLines_alike`), and in the end so are their morae
(`read_alike`).
-/

namespace SungScore

namespace Likeness

/-- What is read of a line is alike where it is read at another line. -/
structure OfLines (L : Likeness) : Prop where
  syllable : ∀ s, L.syllable s (s.moved L.lines id)
  fault : ∀ f, L.fault f (f.moved L.lines id)
  settings : ∀ {σ σ'}, L.settings σ σ' → ∀ octave, L.settings { σ with octave } { σ' with octave }

/-- Two scores that are alike. -/
structure Scores (L : Likeness) (s s' : Score) : Prop where
  settings : L.settings s.settings s'.settings
  tickUnit : s'.settings.tickUnit = s.settings.tickUnit
  octave : s'.settings.octave = s.settings.octave
  line : s'.line = L.lines s.line
  pending : s'.pending = s.pending.map (List.map (.moved L.lines id))
  engine : L.Engines s.engine s'.engine

variable {L : Likeness} {σ σ' : Settings} (line : Nat)

/-! ## Pairs of lines -/

theorem cuesAt_alike (hσ : L.settings σ σ') {xs xs' : List Event}
    (h : List.Forall₂ L.Events xs xs') :
    List.Forall₂ L.Cues (Engine.cuesAt σ line xs) (Engine.cuesAt σ' (L.lines line) xs') := by
  rw [Engine.cuesAt, Engine.cuesAt, List.forall₂_map_left_iff, List.forall₂_map_right_iff]
  exact h.imp (fun _ _ hx => ⟨hσ, rfl, hx⟩)

variable {lyrics : List Syllable} {melody : List Note}

theorem interleave_alike (hL : L.OfLines) (hmelody : ∀ n ∈ melody, L.note n n) :
    List.Forall₂ L.Events (Event.interleave lyrics melody)
      ((Event.interleave lyrics melody).map (.moved L.lines id)) := by
  rw [List.forall₂_map_right_iff, List.forall₂_same]
  intro x hx
  rcases Event.mem_interleave hx with ⟨s, -, rfl⟩ | ⟨n, hn, rfl⟩
  · exact .syllable (hL.syllable s)
  · exact .note (hmelody n hn)

theorem refuse_alike (hL : L.OfLines) (ss : List Syllable) :
    SideBySide L.fault L.Engines (Engine.refuse ss)
      (Engine.refuse (ss.map (.moved L.lines id))) := by
  cases ss with
  | nil => exact SideBySide.pure ()
  | cons s ss => exact fun _ _ he => .error (L.syllable_fault (hL.syllable s) .noNote) he

theorem merge_alike (hL : L.OfLines) (hσ : L.settings σ σ') (lyrics : List Syllable)
    (hmelody : ∀ n ∈ melody, L.note n n) :
    SideBySide L.fault L.Engines (Engine.merge σ line lyrics melody)
      (Engine.merge σ' (L.lines line) (lyrics.map (.moved L.lines id)) melody) := by
  obtain ⟨hinterleave, hleft⟩ :=
    Event.interleave_moved L.lines (g := id) (fun _ _ => Iff.rfl) lyrics melody
  rw [Note.map_moved_id] at hinterleave hleft
  rw [Engine.merge_eq, Engine.merge_eq, hinterleave, hleft]
  refine (feedAll_alike (cuesAt_alike line hσ (interleave_alike hL hmelody))).bind (fun _ => ?_)
  exact refuse_alike hL _

/-! ## Lines -/

section

variable {s s' : Score} {text : Text}

theorem feedPragma_alike (hL : L.OfLines) (h : L.Scores s s')
    (hchange : ∀ c, Change.read text = .ok c →
      L.settings (s.settings.apply c) (s'.settings.apply c)) :
    AlikeResult L.fault L.Scores (Score.feedPragma text s) (Score.feedPragma text s') := by
  unfold Score.feedPragma
  cases hread : Change.read text with
  | error cause =>
      rw [h.line]
      exact .error (hL.fault (.pragma s.line text cause)) h
  | ok c =>
      -- a beat or an octave that is set is the same whatever it was before
      have htickUnit := h.tickUnit
      have hoctave := h.octave
      refine .ok () ⟨hchange c hread, ?_, ?_, h.line, h.pending, h.engine⟩
      · cases c <;> first | rfl | exact htickUnit
      · cases c <;> first | rfl | exact hoctave

theorem feedLyrics_alike (hL : L.OfLines) (h : L.Scores s s') :
    AlikeResult L.fault L.Scores (Score.feedLyrics text s) (Score.feedLyrics text s') := by
  have hread := Lyrics.read_moved L.lines s.line text
  rw [← h.line] at hread
  unfold Score.feedLyrics
  rw [hread]
  cases Lyrics.read s.line text with
  | error f => exact .error (hL.fault f) h
  | ok ss => exact .ok () ⟨h.settings, h.tickUnit, h.octave, h.line, rfl, h.engine⟩

theorem feedMelody_alike (hL : L.OfLines) (h : L.Scores s s') (lyrics : List Syllable)
    (hnotes : ∀ ns octave,
      Melody.read s.settings.tickUnit s.line text s.settings.octave = .ok ns octave →
        ∀ n ∈ ns, L.note n n) :
    AlikeResult L.fault L.Scores (Score.feedMelody lyrics text s)
      (Score.feedMelody (lyrics.map (.moved L.lines id)) text s') := by
  have hmoved := Melody.read_moved L.lines s.settings.tickUnit s.line text s.settings.octave
  rw [← h.line, ← h.tickUnit, ← h.octave] at hmoved
  have hset := hL.settings h.settings
  unfold Score.feedMelody
  rw [hmoved, h.tickUnit, h.octave]
  cases hread : Melody.read s.settings.tickUnit s.line text s.settings.octave with
  | error f octave =>
      exact .error (hL.fault f) ⟨hset octave, h.tickUnit, rfl, h.line, h.pending, h.engine⟩
  | ok ns octave =>
      have hmerge := merge_alike s.line hL (hset octave) lyrics (hnotes ns octave hread)
        s.engine s'.engine h.engine
      rw [← h.line] at hmerge
      simp only [Melody.movedResult, Note.map_moved_id]
      obtain ⟨_, e, e', hx, hy, he⟩ | ⟨f, f', e, e', hx, hy, hf, he⟩ := hmerge.cases
      · rw [hx, hy]
        exact .ok () ⟨hset octave, h.tickUnit, rfl, h.line, h.pending, he⟩
      · rw [hx, hy]
        exact .error hf ⟨hset octave, h.tickUnit, rfl, h.line, h.pending, he⟩

theorem feedContent_alike (hL : L.OfLines) (h : L.Scores s s')
    (hnotes : ∀ lyrics, s.pending = some lyrics → ∀ ns octave,
      Melody.read s.settings.tickUnit s.line text s.settings.octave = .ok ns octave →
        ∀ n ∈ ns, L.note n n) :
    AlikeResult L.fault L.Scores (Score.feedContent text s) (Score.feedContent text s') := by
  unfold Score.feedContent
  rw [h.pending]
  cases hpending : s.pending with
  | none => exact feedLyrics_alike hL h
  | some lyrics =>
      have hsung : L.Scores { s with pending := none } { s' with pending := none } :=
        ⟨h.settings, h.tickUnit, h.octave, h.line, rfl, h.engine⟩
      exact feedMelody_alike hL hsung lyrics (hnotes lyrics hpending)

/-- **Lines side by side**: of scores that are alike when the line is counted, only what a pragma
does to the settings and which notes a melody has can make a difference. -/
theorem feedLine_alike (hL : L.OfLines) (l : Text)
    (h : L.Scores { s with line := s.line + 1 } { s' with line := s'.line + 1 })
    (hchange : LineKind.of l.dropLineEnd = .pragma → ∀ c, Change.read l.dropLineEnd = .ok c →
      L.settings (s.settings.apply c) (s'.settings.apply c))
    (hnotes : ∀ n ∈ Score.lineNotes l s, L.note n n) :
    AlikeResult L.fault L.Scores (Score.feedLine l s) (Score.feedLine l s') := by
  unfold Score.feedLine
  dsimp only
  cases hkind : LineKind.of l.dropLineEnd with
  | ignored => exact .ok () h
  | pragma => exact feedPragma_alike hL h (hchange hkind)
  | content =>
      refine feedContent_alike hL h (fun lyrics hpending ns octave hread n hn => hnotes n ?_)
      simp only [Score.lineNotes, hkind, show s.pending = some lyrics from hpending, hread]
      exact hn

/-- Lines side by side, one after another, with the pragmas and the notes that are among them. -/
theorem feedLines_alike_of_mem (hL : L.OfLines) (ls : List Text) (h : L.Scores s s')
    (hlines : ∀ k, L.lines (s.line + k) = s'.line + k)
    (hchange : ∀ l ∈ ls, LineKind.of l.dropLineEnd = .pragma → ∀ c,
      Change.read l.dropLineEnd = .ok c →
        ∀ {σ σ'}, L.settings σ σ' → L.settings (σ.apply c) (σ'.apply c))
    (hnotes : ∀ number n, Score.NoteAt ls s number n → L.note n n) :
    AlikeResult L.fault L.Scores (Score.feedLines ls s) (Score.feedLines ls s') := by
  induction ls generalizing s s' with
  | nil => exact .ok () h
  | cons l ls ih =>
      have hnext : L.Scores { s with line := s.line + 1 } { s' with line := s'.line + 1 } :=
        ⟨h.settings, h.tickUnit, h.octave, (hlines 1).symm, h.pending, h.engine⟩
      have hfirst := feedLine_alike hL l hnext
        (fun hkind c hread => hchange l (by simp) hkind c hread h.settings)
        (fun n hn => hnotes (s.line + 1) n ⟨0, l, s, rfl, rfl, rfl, hn⟩)
      rw [Score.feedLines]
      simp only [bind, EStateM.bind]
      obtain ⟨_, t, t', hx, hy, ht⟩ | ⟨f, f', t, t', hx, hy, hf, ht⟩ := hfirst.cases
      · have hreads := Score.reads_of_feedLine hx
        have hrest : ∀ k, L.lines (t.line + k) = t'.line + k := by
          intro k
          rw [hreads.line, (Score.reads_of_feedLine hy).line, Nat.add_assoc, Nat.add_assoc]
          exact hlines (1 + k)
        rw [hx, hy]
        exact ih ht hrest (fun x hx => hchange x (List.mem_cons_of_mem _ hx))
          (fun number n hn => hnotes number n (hn.cons hreads))
      · rw [hx, hy]
        exact .error hf ht

/-- Lines side by side, where no pragma and no note makes a difference. -/
theorem feedLines_alike (hL : L.OfLines) (hnote : ∀ n, L.note n n)
    (hchange : ∀ {σ σ'}, L.settings σ σ' → ∀ c, L.settings (σ.apply c) (σ'.apply c))
    (h : L.Scores s s') (hlines : ∀ k, L.lines (s.line + k) = s'.line + k) (ls : List Text) :
    AlikeResult L.fault L.Scores (Score.feedLines ls s) (Score.feedLines ls s') :=
  feedLines_alike_of_mem hL ls h hlines (fun _ _ _ c _ _ _ hσ => hchange hσ c)
    (fun _ n _ => hnote n)

/-! ## The end -/

theorem finishScore_alike (hL : L.OfLines) (h : L.Scores s s') :
    AlikeExcept L.fault (fun ms ms' => ms' = ms.map L.mora) s.finish s'.finish := by
  have hengine := finish_alike s.line h.settings h.engine
  rw [← h.line] at hengine
  unfold Score.finish
  rw [h.pending]
  cases s.pending with
  | none => exact hengine
  | some ss =>
      cases ss with
      | nil => exact hengine
      | cons first later => exact .error (L.syllable_fault (hL.syllable first) .noNote)

/-- **Sources side by side**: where their lines leave scores that are alike, so are their morae. -/
theorem read_alike (hL : L.OfLines) {source : Text}
    (h : AlikeResult L.fault L.Scores (Score.feedLines source.lines s)
      (Score.feedLines source.lines s')) :
    AlikeExcept L.fault (fun ms ms' => ms' = ms.map L.mora) (s.read source) (s'.read source) := by
  unfold Score.read
  obtain ⟨_, t, t', hx, hy, ht⟩ | ⟨f, f', t, t', hx, hy, hf, -⟩ := h.cases
  · rw [hx, hy]
    exact finishScore_alike hL ht
  · rw [hx, hy]
    exact .error hf

end

end Likeness

end SungScore
