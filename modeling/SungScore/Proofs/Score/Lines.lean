import SungScore.Proofs.Steps
import SungScore.Score

set_option autoImplicit false

/-!
# What a line does

A line that is read is ignored, changes a setting, gives the syllables that wait for a melody line,
or is the melody line of the syllables that wait. `Score.Reads` lists these four cases with all that
a score needs for them and becomes by them; `feedLine_iff` says that there are no others.

A line can be refused as a pragma, as lyrics, as a melody, or by the engine that the melody is merged
into. `Score.Refuses` lists these cases with the fault and the score that is left
(`feedLine_error_iff`).
-/

namespace SungScore

namespace Score

/-- The score takes the line and becomes the one given. -/
inductive Reads (l : Text) (s : Score) : Score → Prop
  /-- A line that is blank or a comment is only counted. -/
  | ignored (hkind : LineKind.of l.dropLineEnd = .ignored) :
      Reads l s { s with line := s.line + 1 }
  /-- A pragma changes a setting. -/
  | pragma {change : Change} (hkind : LineKind.of l.dropLineEnd = .pragma)
      (hread : Change.read l.dropLineEnd = .ok change) :
      Reads l s { s with line := s.line + 1, settings := s.settings.apply change }
  /-- Where none wait, the line gives the syllables that wait. -/
  | lyrics {ss : List Syllable} (hkind : LineKind.of l.dropLineEnd = .content)
      (hpending : s.pending = none) (hread : Lyrics.read (s.line + 1) l.dropLineEnd = .ok ss) :
      Reads l s { s with line := s.line + 1, pending := some ss }
  /-- Where syllables wait, they are sung to the line. -/
  | melody {ss : List Syllable} {ns : List Note} {octave : Int} {e : Engine}
      (hkind : LineKind.of l.dropLineEnd = .content) (hpending : s.pending = some ss)
      (hread : Melody.read s.settings.tickUnit (s.line + 1) l.dropLineEnd s.settings.octave
        = .ok ns octave)
      (hmerge : Engine.merge { s.settings with octave } (s.line + 1) ss ns s.engine = .ok () e) :
      Reads l s ⟨{ s.settings with octave }, s.line + 1, none, e⟩

variable {l : Text} {ls ls' : List Text} {s s' : Score} {u : Unit}

theorem reads_of_feedLine (h : feedLine l s = .ok u s') : Reads l s s' := by
  unfold feedLine at h
  dsimp only at h
  split at h
  · rename_i hkind
    cases h
    exact .ignored hkind
  · rename_i hkind
    unfold feedPragma at h
    dsimp only at h
    split at h
    · cases h
    · rename_i change hread
      cases h
      exact .pragma hkind hread
  · rename_i hkind
    unfold feedContent at h
    dsimp only at h
    split at h
    · rename_i hpending
      unfold feedLyrics at h
      dsimp only at h
      split at h
      · cases h
      · rename_i ss hread
        cases h
        exact .lyrics hkind hpending hread
    · rename_i ss hpending
      unfold feedMelody at h
      dsimp only at h
      split at h
      · cases h
      · rename_i ns octave hread
        split at h
        · cases h
        · rename_i e hmerge
          cases h
          exact .melody hkind hpending hread hmerge

theorem feedLine_of_reads (h : Reads l s s') : feedLine l s = .ok () s' := by
  cases h with
  | ignored hkind => simp only [feedLine, hkind]
  | pragma hkind hread => simp only [feedLine, hkind, feedPragma, hread]
  | lyrics hkind hpending hread =>
      simp only [feedLine, hkind, feedContent, hpending, feedLyrics, hread]
  | melody hkind hpending hread hmerge =>
      simp only [feedLine, hkind, feedContent, hpending, feedMelody, hread, hmerge]

/-- **What a line does**, if it can be read. -/
theorem feedLine_iff : feedLine l s = .ok u s' ↔ Reads l s s' :=
  ⟨reads_of_feedLine, feedLine_of_reads⟩

/-- How a line ends does not matter. -/
theorem feedLine_congr {l l' : Text} (h : l.dropLineEnd = l'.dropLineEnd) :
    feedLine l = feedLine l' := by
  funext s
  rw [feedLine, feedLine, h]

/-- Every line is counted. -/
theorem Reads.line (h : Reads l s s') : s'.line = s.line + 1 := by
  cases h <;> rfl

/-- The score refuses the line with the fault, and becomes the one given. -/
inductive Refuses (l : Text) (s : Score) : Fault → Score → Prop
  /-- A pragma that asks for no change. -/
  | pragma {cause : PragmaCause} (hkind : LineKind.of l.dropLineEnd = .pragma)
      (hread : Change.read l.dropLineEnd = .error cause) :
      Refuses l s (.pragma (s.line + 1) l.dropLineEnd cause) { s with line := s.line + 1 }
  /-- Lyrics with a word that is no syllable. -/
  | lyrics {f : Fault} (hkind : LineKind.of l.dropLineEnd = .content)
      (hpending : s.pending = none) (hread : Lyrics.read (s.line + 1) l.dropLineEnd = .error f) :
      Refuses l s f { s with line := s.line + 1 }
  /-- A melody that cannot be read. Its syllables are lost, and its octave is kept. -/
  | melody {ss : List Syllable} {f : Fault} {octave : Int}
      (hkind : LineKind.of l.dropLineEnd = .content) (hpending : s.pending = some ss)
      (hread : Melody.read s.settings.tickUnit (s.line + 1) l.dropLineEnd s.settings.octave
        = .error f octave) :
      Refuses l s f ⟨{ s.settings with octave }, s.line + 1, none, s.engine⟩
  /-- A melody that its syllables cannot be sung to. -/
  | merge {ss : List Syllable} {ns : List Note} {octave : Int} {f : Fault} {e : Engine}
      (hkind : LineKind.of l.dropLineEnd = .content) (hpending : s.pending = some ss)
      (hread : Melody.read s.settings.tickUnit (s.line + 1) l.dropLineEnd s.settings.octave
        = .ok ns octave)
      (hmerge : Engine.merge { s.settings with octave } (s.line + 1) ss ns s.engine = .error f e) :
      Refuses l s f ⟨{ s.settings with octave }, s.line + 1, none, e⟩

/-- **How a line is refused**, if it cannot be read. -/
theorem feedLine_error_iff {f : Fault} : feedLine l s = .error f s' ↔ Refuses l s f s' := by
  constructor
  · intro h
    unfold feedLine at h
    dsimp only at h
    split at h
    · cases h
    · rename_i hkind
      unfold feedPragma at h
      dsimp only at h
      split at h
      · rename_i cause hread
        cases h
        exact .pragma hkind hread
      · cases h
    · rename_i hkind
      unfold feedContent at h
      dsimp only at h
      split at h
      · rename_i hpending
        unfold feedLyrics at h
        dsimp only at h
        split at h
        · rename_i g hread
          cases h
          exact .lyrics hkind hpending hread
        · cases h
      · rename_i ss hpending
        unfold feedMelody at h
        dsimp only at h
        split at h
        · rename_i g octave hread
          cases h
          exact .melody hkind hpending hread
        · rename_i ns octave hread
          split at h
          · rename_i g e hmerge
            cases h
            exact .merge hkind hpending hread hmerge
          · cases h
  · intro h
    cases h with
    | pragma hkind hread => simp only [feedLine, hkind, feedPragma, hread]
    | lyrics hkind hpending hread =>
        simp only [feedLine, hkind, feedContent, hpending, feedLyrics, hread]
    | melody hkind hpending hread =>
        simp only [feedLine, hkind, feedContent, hpending, feedMelody, hread]
    | merge hkind hpending hread hmerge =>
        simp only [feedLine, hkind, feedContent, hpending, feedMelody, hread, hmerge]

/-- Where no syllables wait, a line of the lyrics gives them. -/
theorem reads_lyrics_iff (hkind : LineKind.of l.dropLineEnd = .content)
    (hpending : s.pending = none) :
    Reads l s s' ↔ ∃ ss, Lyrics.read (s.line + 1) l.dropLineEnd = .ok ss ∧
      s' = { s with line := s.line + 1, pending := some ss } := by
  constructor
  · intro h
    cases h with
    | ignored hkind' => cases hkind.symm.trans hkind'
    | pragma hkind' => cases hkind.symm.trans hkind'
    | lyrics _ _ hread => exact ⟨_, hread, rfl⟩
    | melody _ hpending' => cases hpending.symm.trans hpending'
  · rintro ⟨ss, hread, rfl⟩
    exact .lyrics hkind hpending hread

/-- Where syllables wait, they are merged with the line. -/
theorem reads_melody_iff {ss : List Syllable} (hkind : LineKind.of l.dropLineEnd = .content)
    (hpending : s.pending = some ss) :
    Reads l s s' ↔ ∃ ns octave e,
      Melody.read s.settings.tickUnit (s.line + 1) l.dropLineEnd s.settings.octave = .ok ns octave ∧
      Engine.merge { s.settings with octave } (s.line + 1) ss ns s.engine = .ok () e ∧
      s' = ⟨{ s.settings with octave }, s.line + 1, none, e⟩ := by
  constructor
  · intro h
    cases h with
    | ignored hkind' => cases hkind.symm.trans hkind'
    | pragma hkind' => cases hkind.symm.trans hkind'
    | lyrics _ hpending' => cases hpending.symm.trans hpending'
    | melody _ hpending' hread hmerge =>
        obtain rfl := Option.some.inj (hpending.symm.trans hpending')
        exact ⟨_, _, _, hread, hmerge, rfl⟩
  · rintro ⟨ns, octave, e, hread, hmerge, rfl⟩
    exact .melody hkind hpending hread hmerge

/-! ## Lines one after another -/

theorem feedLines_cons_ok :
    feedLines (l :: ls) s = .ok u s' ↔
      ∃ s₁, Reads l s s₁ ∧ feedLines ls s₁ = .ok () s' := by
  rw [run_cons_ok (fun _ _ => rfl)]
  simp only [feedLine_iff]

theorem feedLines_append_ok :
    feedLines (ls ++ ls') s = .ok u s' ↔
      ∃ s₁, feedLines ls s = .ok () s₁ ∧ feedLines ls' s₁ = .ok () s' :=
  run_append_ok rfl (fun _ _ => rfl)

/-- All lines are counted. -/
theorem feedLines_line (h : feedLines ls s = .ok u s') : s'.line = s.line + ls.length := by
  induction ls generalizing s with
  | nil =>
      cases h
      rfl
  | cons l ls ih =>
      obtain ⟨s₁, hreads, hlater⟩ := feedLines_cons_ok.mp h
      rw [ih hlater, hreads.line, List.length_cons]
      omega

/-- A lyric line and its melody line. -/
theorem feedLines_pair_ok {m : Text} (hl : LineKind.of l.dropLineEnd = .content)
    (hm : LineKind.of m.dropLineEnd = .content) (hpending : s.pending = none) :
    feedLines [l, m] s = .ok u s' ↔ ∃ ss ns octave e,
      Lyrics.read (s.line + 1) l.dropLineEnd = .ok ss ∧
      Melody.read s.settings.tickUnit (s.line + 2) m.dropLineEnd s.settings.octave = .ok ns octave ∧
      Engine.merge { s.settings with octave } (s.line + 2) ss ns s.engine = .ok () e ∧
      s' = ⟨{ s.settings with octave }, s.line + 2, none, e⟩ := by
  simp only [feedLines_cons_ok]
  constructor
  · rintro ⟨s₁, h₁, s₂, h₂, hend⟩
    obtain ⟨ss, hread, rfl⟩ := (reads_lyrics_iff hl hpending).mp h₁
    obtain ⟨ns, octave, e, hmelody, hmerge, rfl⟩ := (reads_melody_iff hm rfl).mp h₂
    cases hend
    exact ⟨ss, ns, octave, e, hread, hmelody, hmerge, rfl⟩
  · rintro ⟨ss, ns, octave, e, hread, hmelody, hmerge, rfl⟩
    exact ⟨_, (reads_lyrics_iff hl hpending).mpr ⟨ss, hread, rfl⟩,
      _, (reads_melody_iff hm rfl).mpr ⟨ns, octave, e, hmelody, hmerge, rfl⟩, rfl⟩

end Score

end SungScore
