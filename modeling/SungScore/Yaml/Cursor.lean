import SungScore.Text

set_option autoImplicit false

/-!
# Places in a document

A document is read from left to right. `Cursor` is the place reached: the text that remains
with the line, the column and the number of characters before it, all counted from zero.
Before it is read, a document is put into a form in which every line ends in a line feed
(`prepare?`). A byte order mark is a character of its line like any other.
-/

namespace SungScore.Yaml

/-! ## Preparing a document -/

def isAllowed (c : Char) : Bool :=
  let n := c.toNat
  n == 0x09 || n == 0x0A || n == 0x0D || (0x20 ≤ n && n ≤ 0x7E) || n == 0x85
    || (0xA0 ≤ n && n ≤ 0xFFFD) || 0x10000 ≤ n

/-- A text whose lines all end in a line feed, in place of a carriage return with or without
one, and of the line ends beyond the first 128 characters. -/
def withLineFeeds : Text → Text
  | [] => []
  | '\r' :: '\n' :: s => '\n' :: withLineFeeds s
  | c :: s =>
      (if c == '\r' || c.toNat == 0x85 || c.toNat == 0x2028 || c.toNat == 0x2029 then '\n' else c)
        :: withLineFeeds s

/-- A document ready to be read, refused if it contains a character that it may not. -/
def prepare? (s : Text) : Option Text :=
  if s.all isAllowed then some (withLineFeeds s) else none

/-! ## Cursors -/

/-- A place in a document, with the text from there on. -/
structure Cursor where
  rest : Text
  line : Nat := 0
  column : Nat := 0
  index : Nat := 0
deriving DecidableEq

namespace Cursor

def afterChar (c : Cursor) (d : Char) (rest : Text) : Cursor :=
  if d == '\n' then { rest, line := c.line + 1, column := 0, index := c.index + 1 }
  else { rest, line := c.line, column := c.column + 1, index := c.index + 1 }

def skip (c : Cursor) : Nat → Cursor
  | 0 => c
  | n + 1 =>
      match c.rest with
      | [] => c
      | d :: r => (c.afterChar d r).skip n

def span (c : Cursor) (p : Char → Bool) : Text := c.rest.takeWhile p

def skipWhile (c : Cursor) (p : Char → Bool) : Cursor := c.skip (c.span p).length

def atText (c : Cursor) (s : Text) : Bool := s.isPrefixOf c.rest

def atChar (c : Cursor) (d : Char) : Bool := c.rest.head? == some d

end Cursor

/-! ## Classes of characters -/

def isGap (c : Char) : Bool := c == ' ' || c == '\t'

def isGapOrFeed (c : Char) : Bool := isGap c || c == '\n'

/-- Whether a token ends in front of a text: at a space, a tab, a line feed or the end. -/
def isApart : Text → Bool
  | [] => true
  | c :: _ => isGapOrFeed c

def isNameChar (c : Char) : Bool := c.isAlphanum || c == '_' || c == '-'

/-- Whether a line begins here that separates documents: three dashes or three points, and
nothing directly behind them. -/
def Cursor.atDocumentMark (c : Cursor) : Bool :=
  c.column == 0 && (c.atText ['-', '-', '-'] || c.atText ['.', '.', '.']) && isApart (c.rest.drop 3)

end SungScore.Yaml
