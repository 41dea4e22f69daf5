import SungScore.Note

set_option autoImplicit false

/-!
# Tokens of a melody line

Blanks separate the tokens of a melody line, but need not. At every other character the
longest token that begins there is taken:

    c cis ces d dis des e eis es f fis fes       a pitch
    g gis ges a ais as h his b                   a pitch
    b and digits                                 a pitch in an octave of its own
    o and digits                                 sets the octave
    < >                                          raises and lowers the octave
    -                                            holds the pitch before it
    ( and ), with digits after the latter        open and close a group
    any other character                          a rest

`Token.read` reads one token and `Lexeme.scan` all tokens of a line, each with its column
and with the part of the line that begins there.
-/

namespace SungScore

/-- A token of a melody line. A pitch may name its octave, and the end of a group its beats. -/
inductive Token
  | pitch (pitch : Pitch) (octave : Option Nat)
  | octave (number : Nat)
  | raise
  | lower
  | tie
  | opening
  | closing (beats : Option Nat)
  | rest
deriving DecidableEq

/-! ## Spellings -/

def Letter.ofChar? : Char → Option Letter
  | 'c' => some .c
  | 'd' => some .d
  | 'e' => some .e
  | 'f' => some .f
  | 'g' => some .g
  | 'a' => some .a
  | 'h' => some .h
  | _ => none

/-- What is written behind a letter to lower it; `h` lowered has a letter of its own. -/
def Letter.flatEnding? : Letter → Option Text
  | .e | .a => some ['s']
  | .c | .d | .f | .g => some ['e', 's']
  | .h => none

/-- The accidental that is written behind a letter, and the number of its characters. -/
def Letter.ending (l : Letter) (s : Text) : Accidental × Nat :=
  if ['i', 's'].isPrefixOf s then (.sharp, 2)
  else
    match l.flatEnding? with
    | some flat => if flat.isPrefixOf s then (.flat, flat.length) else (.natural, 0)
    | none => (.natural, 0)

/-! ## Reading a line -/

/-- The token that begins with a character, and the number of characters that it takes of
the text behind that character. -/
def Token.read (c : Char) (s : Text) : Token × Nat :=
  match Letter.ofChar? c with
  | some l =>
      let (accidental, count) := l.ending s
      (.pitch ⟨l, accidental⟩ none, count)
  | none =>
      let digits := s.takeWhile Char.isDigit
      match c with
      | 'b' => (.pitch ⟨.h, .flat⟩ (Decimal.nat? digits), digits.length)
      | 'o' =>
          match Decimal.nat? digits with
          | some n => (.octave n, digits.length)
          | none => (.rest, 0)
      | '<' => (.raise, 0)
      | '>' => (.lower, 0)
      | '-' => (.tie, 0)
      | '(' => (.opening, 0)
      | ')' => (.closing (Decimal.nat? digits), digits.length)
      | _ => (.rest, 0)

/-- A token in its line, with the part of the line that begins with it. -/
structure Lexeme where
  token : Token
  column : Nat
  source : Text
deriving DecidableEq

/-- The tokens of a text whose first character stands in the given column. A number of
characters in front belong to a token that was read before, and are passed over. -/
def Lexeme.scanFrom : (taken column : Nat) → Text → List Lexeme
  | _, _, [] => []
  | taken + 1, column, _ :: s => scanFrom taken (column + 1) s
  | 0, column, c :: s =>
      if Text.isBlank c then scanFrom 0 (column + 1) s
      else
        let (token, count) := Token.read c s
        ⟨token, column, c :: s⟩ :: scanFrom count (column + 1) s

def Lexeme.scan (line : Text) : List Lexeme := scanFrom 0 1 line

end SungScore
