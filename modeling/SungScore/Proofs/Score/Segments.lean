import SungScore.Proofs.Engine.ClosedForm
import SungScore.Proofs.Score.Lines

set_option autoImplicit false

/-!
# The segments of a score

A score drives its engine by the cues of its melody lines: the syllables that wait for the line
and its notes, in the order of their columns, all under the settings that the line leaves. So a
source has segments (`Score.segments`), and what is compiled is the description of them
(`compile_ok`).
-/

namespace SungScore

namespace Score

open Engine Segment

/-! ## Cues -/

/-- The cues of a line. Only a melody line has any. -/
def lineCues (text : Text) (s : Score) : List (Cue Event) :=
  match LineKind.of text.dropLineEnd, s.pending with
  | .content, some lyrics =>
      match Melody.read s.settings.tickUnit (s.line + 1) text.dropLineEnd s.settings.octave with
      | .ok melody octave =>
          cuesAt { s.settings with octave } (s.line + 1) (Event.interleave lyrics melody)
      | .error _ _ => []
  | _, _ => []

/-- The cues of lines that are read one after another. -/
def cues : List Text → Score → List (Cue Event)
  | [], _ => []
  | l :: ls, s =>
      match feedLine l s with
      | .ok _ s' => lineCues l s ++ cues ls s'
      | .error _ _ => []

variable {l : Text} {ls ls' : List Text} {s s' : Score} {u : Unit}

/-- A line gives its cues to the engine, and nothing else. -/
theorem Reads.feedAll (h : Reads l s s') :
    Engine.feedAll (lineCues l s) s.engine = .ok () s'.engine := by
  unfold lineCues
  cases h with
  | ignored hkind =>
      rw [hkind]
      rfl
  | pragma hkind hread =>
      rw [hkind]
      rfl
  | lyrics hkind hpending hread =>
      rw [hkind, hpending]
      rfl
  | melody hkind hpending hread hmerge =>
      simp only [hkind, hpending, hread]
      exact (merge_ok.mp hmerge).1

theorem cues_cons (h : Reads l s s') : cues (l :: ls) s = lineCues l s ++ cues ls s' := by
  rw [cues, feedLine_of_reads h]

/-- Lines give their cues to the engine. -/
theorem feedLines_ok (h : feedLines ls s = .ok u s') :
    feedAll (cues ls s) s.engine = .ok () s'.engine := by
  induction ls generalizing s with
  | nil =>
      cases h
      rfl
  | cons l ls ih =>
      obtain ⟨s₁, h₁, h₂⟩ := feedLines_cons_ok.mp h
      rw [cues_cons h₁]
      exact feedAll_append_ok.mpr ⟨s₁.engine, h₁.feedAll, ih h₂⟩

theorem cues_append (h : feedLines ls s = .ok u s') :
    cues (ls ++ ls') s = cues ls s ++ cues ls' s' := by
  induction ls generalizing s with
  | nil =>
      cases h
      rfl
  | cons l ls ih =>
      obtain ⟨s₁, h₁, h₂⟩ := feedLines_cons_ok.mp h
      rw [List.cons_append, cues_cons h₁, cues_cons h₁, ih h₂, List.append_assoc]

/-! ## Segments -/

/-- The score after lines that can be read. -/
def after? (ls : List Text) (s : Score) : Option Score :=
  match feedLines ls s with
  | .ok _ s' => some s'
  | .error _ _ => none

/-- The segments of lines that are read one after another. The last syllable is finished with
the settings at their end. -/
def segments (ls : List Text) (s : Score) : List Segment :=
  match after? ls s with
  | some s' => ofCues s'.settings (cues ls s)
  | none => []

theorem after?_eq (h : feedLines ls s = .ok u s') : after? ls s = some s' := by
  rw [after?, h]

theorem segments_eq (h : feedLines ls s = .ok u s') :
    segments ls s = ofCues s'.settings (cues ls s) := by
  rw [segments, after?_eq h]

end Score

/-- The segments of a source. -/
def segmentsOf (σ : Settings) (source : Text) : List Segment :=
  Score.segments source.lines { settings := σ }

/-- The syllables that wait for a melody line. -/
def Score.waiting (s : Score) : List Syllable := s.pending.getD []

/-- A score is finished when no syllable waits any more. -/
theorem Score.finish_ok {s : Score} {ms : List Mora} :
    s.finish = .ok ms ↔ s.waiting = [] ∧ s.engine.finish s.settings s.line = .ok ms := by
  unfold Score.finish waiting
  cases s.pending with
  | none => simp
  | some lyrics => cases lyrics <;> simp

theorem compile_eq_ok {σ : Settings} {source : Text} {ms : List Mora} :
    compile σ source = .ok ms ↔
      ∃ s, Score.feedLines source.lines { settings := σ } = .ok () s ∧ s.finish = .ok ms := by
  unfold compile Score.read
  cases Score.feedLines source.lines { settings := σ } with
  | error f s => simp
  | ok u s => simp

/-- A source that is compiled is read to its end and finished. -/
theorem compile_read {σ : Settings} {source : Text} {ms : List Mora}
    (h : compile σ source = .ok ms) :
    ∃ s, Score.feedLines source.lines { settings := σ } = .ok () s ∧
      s.engine.finish s.settings s.line = .ok ms := by
  obtain ⟨s, hs, hfinish⟩ := compile_eq_ok.mp h
  exact ⟨s, hs, (Score.finish_ok.mp hfinish).2⟩

/-- **Whole sources**: what is compiled is the description of the segments, refrained. -/
theorem compile_ok {σ : Settings} {source : Text} {ms : List Mora}
    (h : compile σ source = .ok ms) :
    Segment.AllSung none (segmentsOf σ source) ∧
      ms = refrain (Segment.describe none (segmentsOf σ source)) := by
  obtain ⟨s, hs, hf⟩ := compile_read h
  rw [segmentsOf, Score.segments_eq hs]
  exact Engine.finish_eq_describe (Score.feedLines_ok hs) hf

end SungScore
