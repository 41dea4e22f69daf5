import SungScore.Melody.Token

set_option autoImplicit false

/-!
# Reading a melody line

While the tokens of a melody line are read from left to right, two things are remembered:
the octave, and the group that is open. Every token adds notes to the melody; the notes of a
group are added when it is closed. `Melody.read` reads a whole line. The octave is kept
also where the line turns out to be faulty.

The members of a group share its time. Each member but the last takes the quotient of the
time that remains by the members that remain, rounded to the nearest integer with ties to
the even one; the last takes what is left. So the shares always add up to the time of the
group.
-/

namespace SungScore

/-! ## Subdivision -/

/-- A quotient rounded to the nearest integer, ties to the even one. -/
def roundHalfEven (numerator denominator : Nat) : Nat :=
  let quotient := numerator / denominator
  let twice := 2 * (numerator % denominator)
  if denominator < twice ∨ (twice = denominator ∧ quotient % 2 = 1) then quotient + 1
  else quotient

/-- Shares the remaining time among notes, whose number is given. -/
def shareAmong (remaining : Ticks) : Nat → List Note → List Note
  | _, [] => []
  | _, [n] => [{ n with length := remaining }]
  | count, n :: ns =>
      let length := UInt32.ofNat (roundHalfEven remaining.toNat count)
      { n with length } :: shareAmong (remaining - length) (count - 1) ns

def subdivide (time : Ticks) (members : List Note) : List Note :=
  shareAmong time members.length members

/-! ## Faults -/

/-- What a message quotes for a token: the line from it on, without the blanks at the
end. -/
def Lexeme.quote (x : Lexeme) : Text := x.source.trimEnd

def Lexeme.unrecognizable (x : Lexeme) (line : Nat) : Fault :=
  .unrecognizable line x.column x.quote

def Lexeme.misplaced (x : Lexeme) (line : Nat) (cause : Misplacement) : Fault :=
  .misplaced line x.column x.quote cause

/-! ## The voice -/

/-- An open group: the token that opened it and the members read so far. -/
structure Group where
  opening : Lexeme
  members : Array Note := #[]
deriving DecidableEq

structure Voice where
  octave : Int
  group : Option Group := none
deriving DecidableEq

namespace Voice

/-- Puts a note into the melody, or into the open group. -/
def place (n : Note) : EStateM Fault Voice (List Note) := fun v =>
  match v.group with
  | none => .ok [n] v
  | some g => .ok [] { v with group := some { g with members := g.members.push n } }

def setOctave (octave : Int) (fault : Fault) : EStateM Fault Voice (List Note) := fun v =>
  match signed? octave with
  | some octave => .ok [] { v with octave }
  | none => .error fault v

/-- The time of a group in ticks, where it can be counted. A group without a number of beats,
or with none, lasts one beat. -/
def time? (unit : Ticks) (beats : Option Nat) : Option Ticks :=
  match beats with
  | none | some 0 => some unit
  | some beats => (unsigned? beats).bind (fun n => unsigned? (n.toNat * unit.toNat))

/-- Takes a token and gives the notes that it adds to the melody. -/
def step (unit : Ticks) (line : Nat) (x : Lexeme) : EStateM Fault Voice (List Note) := fun v =>
  match x.token with
  | .pitch p none => place ⟨.pitched p v.octave, unit, x.column⟩ v
  | .pitch p (some octave) =>
      match signed? octave with
      | some octave => place ⟨.pitched p octave, unit, x.column⟩ v
      | none => .error (x.unrecognizable line) v
  | .octave number => setOctave number (x.unrecognizable line) v
  | .raise => setOctave (v.octave + 1) (x.misplaced line .octaveOutOfRange) v
  | .lower => setOctave (v.octave - 1) (x.misplaced line .octaveOutOfRange) v
  | .tie => place ⟨.tie, unit, x.column⟩ v
  | .rest => place ⟨.rest, unit, x.column⟩ v
  | .opening =>
      match v.group with
      | none => .ok [] { v with group := some { opening := x } }
      | some _ => .error (x.misplaced line .nestedGroup) v
  | .closing beats =>
      match v.group with
      | none => .error (x.misplaced line .unopenedGroup) v
      | some g =>
          if g.members.isEmpty then .error (x.misplaced line .emptyGroup) v
          else
            match time? unit beats with
            | some time => .ok (subdivide time g.members.toList) { v with group := none }
            | none => .error (x.unrecognizable line) v

def run (unit : Ticks) (line : Nat) : List Lexeme → EStateM Fault Voice (List Note)
  | [] => pure []
  | x :: xs => do
      let now ← step unit line x
      let later ← run unit line xs
      return now ++ later

end Voice

/-! ## The line -/

/-- The notes of a melody line, with the given ticks to a beat. The octave is the one in
effect before the line and is left as the one in effect after it. -/
def Melody.read (unit : Ticks) (line : Nat) (text : Text) : EStateM Fault Int (List Note) :=
  fun octave =>
    match Voice.run unit line (Lexeme.scan text) { octave } with
    | .error e v => .error e v.octave
    | .ok notes v =>
        match v.group with
        | none => .ok notes v.octave
        | some g => .error (g.opening.misplaced line .unclosedGroup) v.octave

end SungScore
