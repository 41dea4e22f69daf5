import SungScore.Mora
import SungScore.Yaml.Scalar

set_option autoImplicit false

/-!
# Morae as a document

Morae are also written as a YAML list, for inspection. Every mora is a mapping of its fields
in a fixed order, with the digits of its breath and the number of its key as they are. The
bends are left out where there are none.

A string is written in the first of these styles that suits it:

* literally, line by line, if it contains a line feed;
* plain, if it then reads back as the same string;
* between single quotes, if all its characters can be shown;
* between double quotes, with escapes.

`scalarLine` writes a string that is the value of a key in a mapping which is an item of a
list. Such a value goes on at the fourth column of the lines after the first.
-/

namespace SungScore.Yaml

/-! ## Classes of characters -/

def isBreak (c : Char) : Bool :=
  c == '\n' || c == '\r' || c.toNat == 0x85 || c.toNat == 0x2028 || c.toNat == 0x2029

def isSeparator (c : Char) : Bool := c == ' ' || c == '\t' || isBreak c || c.toNat == 0

def separated : Text → Bool
  | [] => true
  | c :: _ => isSeparator c

def isPrintable (c : Char) : Bool :=
  let n := c.toNat
  n == 0x0A || (0x20 ≤ n && n ≤ 0x7E) || (0xA0 ≤ n && n ≤ 0xD7FF)
    || (0xE000 ≤ n && n ≤ 0xFFFD && n != 0xFEFF) || 0x10000 ≤ n

def adjacent (p q : Char → Bool) : Text → Bool
  | a :: b :: s => (p a && q b) || adjacent p q (b :: s)
  | _ => false

/-! ## The choice of a style -/

/-- The characters that cannot begin a plain string. -/
def indicators : Text := "#,[]\x7b\x7d&*!|>'\"%@\x60".toList

/-- Whether a colon in front of a separator, or a number sign behind one, stands behind the
given character. -/
def hasInnerIndicator (before : Char) : Text → Bool
  | [] => false
  | c :: s =>
      (c == ':' && separated s) || (c == '#' && isSeparator before) || hasInnerIndicator c s

/-- Whether a text would be taken for something else than a plain string. -/
def hasIndicator : Text → Bool
  | [] => false
  | c :: s =>
      ['-', '-', '-'].isPrefixOf (c :: s) || ['.', '.', '.'].isPrefixOf (c :: s)
        || indicators.contains c || ((c == '?' || c == ':' || c == '-') && separated s)
        || hasInnerIndicator c s

/-- Whether a text begins or ends with a space or a break. -/
def hasBareEnd (s : Text) : Bool :=
  let isBare := fun c => c == ' ' || isBreak c
  s.head?.any isBare || s.getLast?.any isBare

/-- Whether a text can only be written with escapes. -/
def needsEscapes (s : Text) : Bool :=
  adjacent (· == ' ') isBreak s || !s.all isPrintable

def suitsPlain (s : Text) : Bool :=
  !readsAsOther s && !hasIndicator s && !hasBareEnd s && !s.any isBreak && s.all isPrintable

def suitsSingle (s : Text) : Bool := !adjacent isBreak (· == ' ') s && !needsEscapes s

def suitsLiteral (s : Text) : Bool := s.getLast? != some ' ' && !needsEscapes s

/-! ## The styles -/

def margin : Text := [' ', ' ', ' ', ' ']

/-- A text with a margin in front of every line but those that are empty; the first line has
none if it is already begun. -/
def indented (begun : Bool) : Text → Text
  | [] => []
  | c :: s =>
      if isBreak c then c :: indented false s
      else if begun then c :: indented true s
      else margin ++ c :: indented true s

def doubleQuotes : Text → Text
  | [] => []
  | '\x27' :: s => '\x27' :: '\x27' :: doubleQuotes s
  | c :: s => c :: doubleQuotes s

def single (s : Text) : Text := '\x27' :: indented true (doubleQuotes s ++ ['\x27'])

/-- The given number of hexadecimal digits of a number, in capitals. -/
def hex (count n : Nat) : Text :=
  let digits := (Nat.toDigits 16 n).map Char.toUpper
  List.replicate (count - digits.length) '0' ++ digits

def escape (c : Char) : Text :=
  match c.toNat with
  | 0x00 => ['\\', '0']
  | 0x07 => ['\\', 'a']
  | 0x08 => ['\\', 'b']
  | 0x09 => ['\\', 't']
  | 0x0A => ['\\', 'n']
  | 0x0B => ['\\', 'v']
  | 0x0C => ['\\', 'f']
  | 0x0D => ['\\', 'r']
  | 0x1B => ['\\', 'e']
  | 0x22 => ['\\', '\x22']
  | 0x5C => ['\\', '\\']
  | 0x85 => ['\\', 'N']
  | 0x2028 => ['\\', 'L']
  | 0x2029 => ['\\', 'P']
  | n =>
      if isPrintable c then [c]
      else if n ≤ 0xFF then '\\' :: 'x' :: hex 2 n
      else if n ≤ 0xFFFF then '\\' :: 'u' :: hex 4 n
      else '\\' :: 'U' :: hex 8 n

def double (s : Text) : Text := ['\x22'] ++ s.flatMap escape ++ ['\x22']

/-- The mark behind the bar of a literal text that says how it ends: in no break, in one or in
more. -/
def endMark (s : Text) : Text :=
  match s.reverse with
  | [] => ['-']
  | [c] => if isBreak c then ['+'] else ['-']
  | c :: b :: _ => if !isBreak c then ['-'] else if isBreak b then ['+'] else []

/-- The mark behind the bar of a literal text that says how far it is indented, where its
first line does not show that. -/
def indentMark (s : Text) : Text :=
  if s.head?.any (fun c => c == ' ' || isBreak c) then ['2'] else []

/-- A literal text with the line that it ends. -/
def literal (s : Text) : Text :=
  ['|'] ++ indentMark s ++ endMark s ++ ['\n'] ++ indented false s
    ++ (if s.getLast?.any isBreak then [] else ['\n'])

/-- A string with the end of its line. -/
def scalarLine (s : Text) : Text :=
  if s.contains '\n' then
    if suitsLiteral s then literal s else double s ++ ['\n']
  else if suitsPlain s then s ++ ['\n']
  else if suitsSingle s then single s ++ ['\n']
  else double s ++ ['\n']

/-! ## Morae -/

/-- A key of a mapping, with the colon behind it. -/
def label (name : String) : Text := name.toList ++ [':']

def numberField (name : String) (n : Int) : Text :=
  label name ++ [' '] ++ Decimal.ofInt n ++ ['\n']

def textField (name : String) (s : Text) : Text := label name ++ [' '] ++ scalarLine s

def itemIndent : Text := [' ', ' ']

def bendsField (bends : List Int) : Text :=
  if bends.isEmpty then []
  else
    itemIndent ++ label "pitchbend" ++ ['\n']
      ++ bends.flatMap (fun b => itemIndent ++ ['-', ' '] ++ Decimal.ofInt b ++ ['\n'])

def moraItem (m : Mora) : Text :=
  ['-', ' '] ++ numberField "attenuation" m.attenuation
    ++ itemIndent ++ textField "consonant1" m.consonant
    ++ itemIndent ++ textField "consonant2" m.breath
    ++ itemIndent ++ textField "vowel" m.vowel
    ++ itemIndent ++ numberField "key" m.key
    ++ itemIndent ++ numberField "tick" m.tick.toNat
    ++ itemIndent ++ numberField "on_tick" m.onTick.toNat
    ++ itemIndent ++ numberField "off_tick" m.offTick.toNat
    ++ itemIndent ++ numberField "tenseness" m.tenseness
    ++ bendsField m.bends

def ofMorae (ms : List Mora) : Text :=
  if ms.isEmpty then ['[', ']', '\n'] else ms.flatMap moraItem

end SungScore.Yaml
