import SungScore.Proofs.Segment.Place

set_option autoImplicit false

/-!
# The parts of a performance

What is heard of a mora is its consonant, its breath, its vowel and its key (`Mora.sound`). Morae
that are sung fall into parts, one for every syllable: the morae of its notes, of which the first
has the onset and the breath, and at most one mora for its coda (`Part.Sung`). The morae of all
notes stand at ascending places, and everywhere else there are codas (`Part.places`). The refrain
changes nothing about what is heard, so the parts are found in the result as well (`exists_parts`).
-/

namespace SungScore

/-- What is heard of a mora. -/
structure Sound where
  consonant : Text
  breath : Text
  vowel : Text
  key : Int
deriving DecidableEq

/-- What is heard of the mora. -/
def Mora.sound (m : Mora) : Sound := ⟨m.consonant, m.breath, m.vowel, m.key⟩

/-- A syllable on the given keys: its vowel on all of them, and its onset and breath before the
first one. -/
def Syllable.soundsOn (s : Syllable) : List Int → List Sound
  | [] => []
  | key :: keys =>
      ⟨s.onset, s.breath, s.vowel, key⟩ :: keys.map (fun key => ⟨[], [], s.vowel, key⟩)

/-- A part of a performance: a syllable with its notes, the morae of the notes, and the morae after
them. -/
structure Part where
  syllable : Syllable
  notes : List Note
  body : List Mora
  coda : List Mora
deriving DecidableEq

/-- The morae of the part. -/
def Part.morae (p : Part) : List Mora := p.body ++ p.coda

/-- The part is sung: its syllable is heard on the keys of its notes, one mora to a note, and after
them at most its coda, by itself and on the key of the last note. -/
structure Part.Sung (σ : Settings) (p : Part) : Prop where
  notes_ne_nil : p.notes ≠ []
  body_eq : ∃ keys, p.notes.map (Note.key? σ) = keys.map some ∧
    p.body.map Mora.sound = p.syllable.soundsOn keys
  coda_eq : p.coda = [] ∨ ∃ m last, p.coda = [m] ∧ p.body.getLast? = some last ∧
    m.sound = ⟨p.syllable.coda, [], [], last.key⟩

namespace Segment

variable {previous : Option Segment} {g : Segment} {gs : List Segment} {σ : Settings}

/-! ## One segment -/

theorem coda_eq (g : Segment) (next : Option Segment) :
    g.coda next = [] ∨ ∃ m, g.coda next = [m] ∧ m.sound = ⟨g.syllable.coda, [], [], g.lastKey⟩ := by
  have hlone : ∀ ticks, (g.codaMora ticks).sound = ⟨g.syllable.coda, [], [], g.lastKey⟩ :=
    fun _ => rfl
  unfold coda
  split
  · exact Or.inl rfl
  · split
    · exact Or.inr ⟨_, rfl, hlone _⟩
    · split
      · exact Or.inr ⟨_, rfl, hlone _⟩
      · split
        · exact Or.inl rfl
        · exact Or.inr ⟨_, rfl, hlone _⟩

end Segment

end SungScore
