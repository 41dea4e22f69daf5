set_option autoImplicit false

/-!
# Text

Scores are read by columns, and a column counts characters. So a text is the list of its
characters here, and it is cut and measured with the functions of lists.

A source is cut into lines at its line feeds. One carriage return directly before a line feed
belongs to the line's end, and a source that ends in a line feed has no empty line after it.
A line is cut into words at its blanks; every word is kept together with the column of its first
character.

Numbers are written with the digits `0` to `9` and no leading zeros, a negative one behind a
minus sign. They are read more freely: leading zeros are accepted, and so is a plus sign where a
sign may stand.
-/

namespace SungScore

/-- A text, as the list of its characters. -/
abbrev Text := List Char

namespace Text

/-- The counterpart of `dropWhile` at the other end. -/
def dropEndWhile (p : Char → Bool) (s : Text) : Text :=
  (s.reverse.dropWhile p).reverse

/-! ## Lines -/

/-- The lines of a source, without their ends. -/
def lines : Text → List Text
  | [] => []
  | '\r' :: '\n' :: s => [] :: lines s
  | '\n' :: s => [] :: lines s
  | c :: s =>
      match lines s with
      | [] => [[c]]
      | l :: ls => (c :: l) :: ls

def dropLineEnd (s : Text) : Text :=
  s.dropEndWhile (fun c => c == '\n' || c == '\r')

/-! ## Blank characters -/

/-- The characters of the Unicode property `White_Space`. -/
def isBlank (c : Char) : Bool :=
  let n := c.toNat
  (0x09 ≤ n && n ≤ 0x0D) || n == 0x20 || n == 0x85 || n == 0xA0 || n == 0x1680
    || (0x2000 ≤ n && n ≤ 0x200A) || n == 0x2028 || n == 0x2029 || n == 0x202F
    || n == 0x205F || n == 0x3000

def allBlank (s : Text) : Bool := s.all isBlank

def trimEnd (s : Text) : Text := s.dropEndWhile isBlank

/-! ## Words -/

/-- A word of a line: a longest run of characters that are not blank, with the column of its
first character. -/
structure Word where
  column : Nat
  text : Text
deriving DecidableEq

/-- The words of a text whose first character stands in the given column. A number of
characters in front belong to a word that was read before, and are passed over. -/
def wordsFrom : (taken column : Nat) → Text → List Word
  | _, _, [] => []
  | taken + 1, column, _ :: s => wordsFrom taken (column + 1) s
  | 0, column, c :: s =>
      if isBlank c then wordsFrom 0 (column + 1) s
      else
        let more := s.takeWhile (fun d => !isBlank d)
        ⟨column, c :: more⟩ :: wordsFrom more.length (column + 1) s

def words (line : Text) : List Word := wordsFrom 0 1 line

end Text

/-! ## Decimal numbers -/

namespace Decimal

def ofNat (n : Nat) : Text := Nat.toDigits 10 n

def ofInt : Int → Text
  | .ofNat n => ofNat n
  | .negSucc n => '-' :: ofNat (n + 1)

/-- The number that a text of digits denotes; the empty text denotes none. -/
def nat? (s : Text) : Option Nat :=
  if !s.isEmpty && s.all Char.isDigit then some (Nat.ofDigitChars 10 s 0) else none

/-- The number that a text denotes which may begin with a plus sign. -/
def plusNat? : Text → Option Nat
  | '+' :: s => nat? s
  | s => nat? s

def int? : Text → Option Int
  | '-' :: s => (nat? s).map (fun n => -(n : Int))
  | s => (plusNat? s).map Int.ofNat

end Decimal

end SungScore
