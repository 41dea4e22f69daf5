import SungScore.Fault

set_option autoImplicit false

/-!
# Syllables

A word of a lyric line is a syllable, made of four parts in this order, each of which may
be empty:

    onset    consonants and underscores
    breath   digits
    vowel    vowels and underscores
    coda     consonants and underscores

Every part but the last is as long as it can be.

The breath digits choose one of a few levels of breath: the level nearest to the number that
they denote, the upper one where two are equally near.
-/

namespace SungScore

/-! ## Letters -/

/-- The consonants of a lyric, and the underscore between the segments of a part, which is a vowel
too. -/
def isConsonant (c : Char) : Bool := "bdfghjklmnprstvwyz_".toList.contains c

def isVowel (c : Char) : Bool := "aeiou_".toList.contains c

/-! ## Syllables -/

/-- A syllable with the place where it is written. -/
structure Syllable where
  onset : Text
  breath : Text
  vowel : Text
  coda : Text
  line : Nat
  column : Nat
deriving DecidableEq

namespace Syllable

def display (s : Syllable) : Text := s.onset ++ s.breath ++ s.vowel ++ s.coda

def fault (s : Syllable) (cause : Misplacement) : Fault :=
  .misplaced s.line s.column s.display cause

/-- The syllable that a word stands for, at the given place. -/
def read (line column : Nat) (word : Text) : Except Fault Syllable :=
  let onset := word.takeWhile isConsonant
  let afterOnset := word.dropWhile isConsonant
  let breath := afterOnset.takeWhile Char.isDigit
  let afterBreath := afterOnset.dropWhile Char.isDigit
  let vowel := afterBreath.takeWhile isVowel
  let coda := afterBreath.dropWhile isVowel
  if coda.all isConsonant then .ok { onset, breath, vowel, coda, line, column }
  else .error (.unrecognizable line column word)

end Syllable

/-! ## Lyric lines -/

/-- The syllables of the words of a line. -/
def Lyrics.ofWords (line : Nat) : List Text.Word → Except Fault (List Syllable)
  | [] => .ok []
  | w :: ws =>
      match Syllable.read line w.column w.text with
      | .error e => .error e
      | .ok s =>
          match ofWords line ws with
          | .error e => .error e
          | .ok later => .ok (s :: later)

def Lyrics.read (line : Nat) (text : Text) : Except Fault (List Syllable) :=
  ofWords line (text.words)

/-! ## Breath -/

namespace Breath

def levels : List Nat := [0, 34, 46, 51, 57, 60, 80]

/-- The level for a number, among a level and the ones above it. -/
def snapFrom (n level : Nat) : List Nat → Nat
  | [] => level
  | next :: above => if n < (level + next) / 2 then level else snapFrom n next above

def snap (n : Nat) : Nat := snapFrom n 0 levels.tail

/-- The name of the level for a breath text, which is empty where there is no breath. A text
that denotes no number counts as the loudest breath. -/
def tag (s : Text) : Text :=
  if s.isEmpty then []
  else
    let level := (Decimal.plusNat? s).elim 80 snap
    ['b', 'r', 'e', 'a', 't', 'h'] ++ Decimal.ofNat level

end Breath

end SungScore
