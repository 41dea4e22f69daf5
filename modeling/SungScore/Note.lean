import SungScore.Settings

set_option autoImplicit false

/-!
# Notes

A pitch is a letter with an accidental, in the German naming: `h` is a semitone below the
next `c`, and what is written `b` is `h` lowered. A key counts semitones, twelve to the
octave, from the `c` of octave zero.

A melody is a list of notes: pitches, ties that lengthen the pitch before them, and rests.
`runs` joins every pitch with its ties and every block of rests into one note each.
-/

namespace SungScore

/-! ## Pitches and keys -/

inductive Letter
  | c | d | e | f | g | a | h
deriving DecidableEq

def Letter.semitone : Letter → Int
  | c => 0
  | d => 2
  | e => 4
  | f => 5
  | g => 7
  | a => 9
  | h => 11

inductive Accidental
  | natural | sharp | flat
deriving DecidableEq

def Accidental.offset : Accidental → Int
  | natural => 0
  | sharp => 1
  | flat => -1

structure Pitch where
  letter : Letter
  accidental : Accidental
deriving DecidableEq

/-- The semitones of a pitch above the `c` of its octave, from `-1` for `ces` to `12` for
`his`. -/
def Pitch.semitone (p : Pitch) : Int := p.letter.semitone + p.accidental.offset

def Pitch.key (p : Pitch) (octave : Int) : Int := octave * 12 + p.semitone

/-- The name of a key within its octave, with sharps for the keys between the letters. -/
def className : Nat → Text
  | 0 => ['C']
  | 1 => ['C', '#']
  | 2 => ['D']
  | 3 => ['D', '#']
  | 4 => ['E']
  | 5 => ['F']
  | 6 => ['F', '#']
  | 7 => ['G']
  | 8 => ['G', '#']
  | 9 => ['A']
  | 10 => ['A', '#']
  | _ => ['B']

/-- The name of a key: its name within the octave and the octave, so `C4` for 48 and `B-1`
for the key below zero. -/
def keyName (key : Int) : Text := className (key % 12).toNat ++ Decimal.ofInt (key / 12)

/-! ## Notes -/

inductive NoteKind
  | pitched (pitch : Pitch) (octave : Int)
  | tie
  | rest
deriving DecidableEq

/-- A note of a melody line, with the column where it is written. -/
structure Note where
  kind : NoteKind
  length : Ticks
  column : Nat
deriving DecidableEq

namespace Note

def isRest (n : Note) : Bool := n.kind == .rest

def isTie (n : Note) : Bool := n.kind == .tie

/-- The key of a pitched note, transposed and then brought into the configured range. Ties
and rests have no key of their own. -/
def key? (σ : Settings) (n : Note) : Option Int :=
  match n.kind with
  | .pitched p octave => some (σ.clampKey (p.key octave + σ.transpose))
  | .tie | .rest => none

/-- The sound of a note in a message: the name of its key, a dash or a point. -/
def sound (n : Note) : Text :=
  match n.kind with
  | .pitched p octave => keyName (p.key octave)
  | .tie => ['-']
  | .rest => ['.']

/-- A note in a message: its column, length and sound between angle brackets. -/
def display (n : Note) : Text :=
  ['<'] ++ Decimal.ofNat n.column ++ [':'] ++ Decimal.ofNat n.length.toNat ++ ['@'] ++ n.sound
    ++ ['>']

def fault (n : Note) (line : Nat) (cause : Misplacement) : Fault :=
  .misplaced line n.column n.display cause

/-! ## Runs -/

/-- Whether the note goes on with the run that begins with the given one: a tie with a
sound, a rest with a rest. -/
def continues (n first : Note) : Bool :=
  if first.isRest then n.isRest else n.isTie

def extend (line : Nat) (run n : Note) : Except Fault Note :=
  match Ticks.add? run.length n.length with
  | some length => .ok { run with length }
  | none => .error (n.fault line .ticksOverflow)

/-- The runs of a list of notes, of which the first is under way. -/
def runsFrom (line : Nat) (run : Note) : List Note → Except Fault (List Note)
  | [] => .ok [run]
  | n :: ns =>
      if n.continues run then
        match run.extend line n with
        | .ok longer => runsFrom line longer ns
        | .error e => .error e
      else if n.isTie then
        .error (.misplaced line n.column ['-'] .tieWithoutNote)
      else
        match runsFrom line n ns with
        | .ok others => .ok (run :: others)
        | .error e => .error e

/-- The runs of a list of notes: a pitch with the ties after it, or a block of rests. Each
is given as its first note with the length of the whole run. -/
def runs (line : Nat) : List Note → Except Fault (List Note)
  | [] => .ok []
  | n :: ns =>
      if n.isTie then .error (.misplaced line n.column ['-'] .tieWithoutNote)
      else runsFrom line n ns

end Note

end SungScore
