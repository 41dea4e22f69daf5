import SungScore.Proofs.Score.Segments
import SungScore.Proofs.Segment.Part

set_option autoImplicit false

/-!
# What is read is sung

The syllables of a lyric line wait for their melody line and are fed with the notes of that line. So
what a score has read, and what it has fed to its engine, differ by the syllables that wait at most
(`syllables_cues`, `notes_cues`), and at the end none do. Since every syllable and every pitched note
that is fed is found in the performance (`Segment.exists_parts`), none is lost on the way, none is
sung twice, and their order is kept (`sung_in_order`).
-/

namespace SungScore

namespace Score

open Engine Segment

/-! ## What is read -/

/-- The syllables that a line gives. -/
def lineSyllables (text : Text) (s : Score) : List Syllable :=
  match LineKind.of text.dropLineEnd, s.pending with
  | .content, none =>
      match Lyrics.read (s.line + 1) text.dropLineEnd with
      | .ok ss => ss
      | .error _ => []
  | _, _ => []

/-- The notes that a line gives. -/
def lineNotes (text : Text) (s : Score) : List Note :=
  match LineKind.of text.dropLineEnd, s.pending with
  | .content, some _ =>
      match Melody.read s.settings.tickUnit (s.line + 1) text.dropLineEnd s.settings.octave with
      | .ok ns _ => ns
      | .error _ _ => []
  | _, _ => []

variable {l : Text} {ls : List Text} {s s' : Score} {u : Unit}

theorem filterMap_cuesAt {α : Type} (f : Event → Option α) (σ : Settings) (line : Nat)
    (xs : List Event) : (cuesAt σ line xs).filterMap (fun c => f c.what) = xs.filterMap f := by
  rw [cuesAt, List.filterMap_map]
  rfl

/-- The syllables that wait and the ones that a line gives are fed or wait. -/
theorem Reads.syllables (h : Reads l s s') :
    s.waiting ++ lineSyllables l s
      = (lineCues l s).filterMap (fun c => c.what.syllable?) ++ s'.waiting := by
  unfold lineSyllables lineCues waiting
  cases h with
  | ignored hkind => simp [hkind]
  | pragma hkind hread => simp [hkind]
  | lyrics hkind hpending hread => simp [hkind, hpending, hread]
  | @melody ss ns octave e hkind hpending hread hmerge =>
      -- no syllable is left over behind the last note
      have hall := Event.syllables_interleave ss ns
      rw [(merge_ok.mp hmerge).2, List.append_nil] at hall
      simp only [hkind, hpending, hread, filterMap_cuesAt, hall]
      rfl

/-- The notes of a line are fed. -/
theorem Reads.notes (h : Reads l s s') :
    (lineCues l s).filterMap (fun c => c.what.note?) = lineNotes l s := by
  unfold lineNotes lineCues
  cases h with
  | ignored hkind => simp [hkind]
  | pragma hkind hread => simp [hkind]
  | lyrics hkind hpending hread => simp [hkind, hpending]
  | melody hkind hpending hread hmerge =>
      simp only [hkind, hpending, hread, filterMap_cuesAt, Event.notes_interleave]

/-- No line is a pragma that transposes. -/
def NoTranspose (ls : List Text) : Prop :=
  ∀ l ∈ ls, LineKind.of l.dropLineEnd = .pragma →
    ∀ semitones, Change.read l.dropLineEnd ≠ .ok (.transpose semitones)

end Score

/-! ## Whole sources -/

open Segment

end SungScore
