import SungScore.Proofs.Engine.Merge
import SungScore.Proofs.Score.Reading

set_option autoImplicit false

/-!
# What a score has heard

The cues of a score are the ones of lines that can all be read. A score that stops at a line has given
its engine some of the cues of that line, too. `Score.heard` are the cues up to the end of the line
at which a score stops, or up to its last line.

Every cue that is heard comes from a line of the score: its syllable waited for the line
(`mem_lineCues`), and its note stands on the line with its number (`noteAt_of_mem_heard`).
-/

namespace SungScore

namespace Score

open Engine

/-- The cues of lines, up to the first one that is refused. -/
def heard : List Text → Score → List (Cue Event)
  | [], _ => []
  | l :: ls, s =>
      lineCues l s ++
        match feedLine l s with
        | .ok _ s' => heard ls s'
        | .error _ _ => []

variable {l : Text} {ls : List Text} {s s' : Score} {u : Unit} {f : Fault} {c : Cue Event}

theorem heard_cons_reads (h : Reads l s s') :
    heard (l :: ls) s = lineCues l s ++ heard ls s' := by
  rw [heard, feedLine_of_reads h]

theorem heard_cons_refuses (h : Refuses l s f s') : heard (l :: ls) s = lineCues l s := by
  rw [heard, feedLine_error_iff.mpr h]
  exact List.append_nil _

/-- A cue that is heard comes from the first line, or from a later one if that line is read. -/
theorem mem_heard_cons (h : c ∈ heard (l :: ls) s) :
    c ∈ lineCues l s ∨ ∃ s', Reads l s s' ∧ c ∈ heard ls s' := by
  rcases List.mem_append.mp h with hnow | hlater
  · exact Or.inl hnow
  · split at hlater
    · rename_i u s' hread
      exact Or.inr ⟨s', feedLine_iff.mp hread, hlater⟩
    · cases hlater

/-- Of lines that can be read, all cues are heard. -/
theorem heard_eq_cues (h : feedLines ls s = .ok u s') : heard ls s = cues ls s := by
  induction ls generalizing s with
  | nil => rfl
  | cons l ls ih =>
      obtain ⟨s₁, h₁, h₂⟩ := feedLines_cons_ok.mp h
      rw [heard_cons_reads h₁, cues_cons h₁, ih h₂]

/-! ## Where cues come from -/

/-- A cue of a line is a syllable that waited for the line or a note of the line. -/
theorem mem_lineCues (h : c ∈ lineCues l s) :
    c.line = s.line + 1 ∧
      ((∃ x ∈ s.waiting, c.what = .syllable x) ∨ ∃ n ∈ lineNotes l s, c.what = .note n) := by
  unfold lineCues at h
  split at h
  · rename_i ss hkind hpending
    split at h
    · rename_i ns octave hread
      obtain ⟨x, hx, rfl⟩ := List.mem_map.mp h
      have hwaiting : s.waiting = ss := by rw [waiting, hpending, Option.getD_some]
      have hnotes : lineNotes l s = ns := by simp only [lineNotes, hkind, hpending, hread]
      rw [hwaiting, hnotes]
      exact ⟨rfl, Event.mem_interleave hx⟩
    · cases h
  · cases h

/-- The note is on the line of the score with the given number, counted from one. -/
def NoteAt (ls : List Text) (s : Score) (number : Nat) (n : Note) : Prop :=
  ∃ k text before, number = s.line + k + 1 ∧ ls[k]? = some text ∧
    after? (ls.take k) s = some before ∧ n ∈ lineNotes text before

theorem NoteAt.cons {number : Nat} {n : Note} (hread : Reads l s s')
    (h : NoteAt ls s' number n) : NoteAt (l :: ls) s number n := by
  obtain ⟨k, text, before, hnumber, htext, hbefore, hn⟩ := h
  refine ⟨k + 1, text, before, ?_, by simpa using htext, ?_, hn⟩
  · rw [hread.line] at hnumber
    omega
  · rw [List.take_succ_cons, after?, feedLines]
    simp only [bind, EStateM.bind, feedLine_of_reads hread]
    exact hbefore

/-- A note that is heard is on the line with the number of its cue. -/
theorem noteAt_of_mem_heard {n : Note} (h : c ∈ heard ls s) (hn : c.what = .note n) :
    NoteAt ls s c.line n := by
  induction ls generalizing s with
  | nil => cases h
  | cons l ls ih =>
      rcases mem_heard_cons h with hnow | ⟨s', hread, hlater⟩
      · obtain ⟨hline, ⟨x, -, hx⟩ | ⟨m, hm, hwhat⟩⟩ := mem_lineCues hnow
        · rw [hx] at hn
          cases hn
        · rw [hwhat] at hn
          cases hn
          exact ⟨0, l, s, hline, rfl, rfl, hm⟩
      · exact (ih hlater).cons hread

end Score

end SungScore
