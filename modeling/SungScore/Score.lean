import SungScore.Engine
import SungScore.Melody.Voice

set_option autoImplicit false

/-!
# Scores

A score is read line by line. Blank lines and lines that begin with `!` are passed over, and
a line that begins with `#` is a pragma. All other lines come in pairs: a lyric line, and the
melody line that it is sung to.

`Score.feedLine` reads one line and `compile` a whole source. The lines are counted, for the
places of faults.
-/

namespace SungScore

/-! ## Kinds of lines -/

/-- What a line is for. Blank lines and comments are ignored. -/
inductive LineKind
  | ignored
  | pragma
  | content
deriving DecidableEq

def LineKind.of (text : Text) : LineKind :=
  if text.allBlank || text.head? == some '!' then .ignored
  else if text.head? == some '#' then .pragma
  else .content

/-! ## Reading -/

/-- A score that is being read, after a number of lines. The syllables of a lyric line are pending
until its melody line comes. -/
structure Score where
  settings : Settings := {}
  line : Nat := 0
  pending : Option (List Syllable) := none
  engine : Engine := {}
deriving DecidableEq

namespace Score

def feedLyrics (text : Text) : EStateM Fault Score Unit := fun s =>
  match Lyrics.read s.line text with
  | .error f => .error f s
  | .ok lyrics => .ok () { s with pending := some lyrics }

/-- Reads the melody line of the given syllables. -/
def feedMelody (lyrics : List Syllable) (text : Text) : EStateM Fault Score Unit := fun s =>
  match Melody.read s.settings.tickUnit s.line text s.settings.octave with
  | .error f octave => .error f { s with settings := { s.settings with octave } }
  | .ok melody octave =>
      let σ := { s.settings with octave }
      match Engine.merge σ s.line lyrics melody s.engine with
      | .error f engine => .error f { s with settings := σ, engine }
      | .ok _ engine => .ok () { s with settings := σ, engine }

def feedPragma (text : Text) : EStateM Fault Score Unit := fun s =>
  match Change.read text with
  | .error cause => .error (.pragma s.line text cause) s
  | .ok change => .ok () { s with settings := s.settings.apply change }

def feedContent (text : Text) : EStateM Fault Score Unit := fun s =>
  match s.pending with
  | none => feedLyrics text s
  | some lyrics => feedMelody lyrics text { s with pending := none }

def feedLine (text : Text) : EStateM Fault Score Unit := fun s =>
  let s := { s with line := s.line + 1 }
  let text := text.dropLineEnd
  match LineKind.of text with
  | .ignored => .ok () s
  | .pragma => feedPragma text s
  | .content => feedContent text s

def feedLines : List Text → EStateM Fault Score Unit
  | [] => pure ()
  | l :: ls => do
      feedLine l
      feedLines ls

/-- Ends the score and gives its morae. -/
def finish (s : Score) : Except Fault (List Mora) :=
  match s.pending with
  | some (first :: _) => .error (first.fault .noNote)
  | some [] | none => s.engine.finish s.settings s.line

/-- Reads the lines of a source and ends the score. -/
def read (source : Text) (s : Score) : Except Fault (List Mora) :=
  match feedLines source.lines s with
  | .error f _ => .error f
  | .ok _ s => s.finish

end Score

/-- The morae of a source, with the settings to begin with. -/
def compile (σ : Settings) (source : Text) : Except Fault (List Mora) :=
  ({ settings := σ } : Score).read source

end SungScore
