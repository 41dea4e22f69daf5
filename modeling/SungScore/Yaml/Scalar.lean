import SungScore.Settings

set_option autoImplicit false

/-!
# Scalars

A scalar of a document is a text together with the style in which it is written and the tag
in front of it. What it stands for as the value of a setting depends on all three.

A scalar without quotes may read as something other than a string: as nothing, as a truth
value, as an integer or as a decimal fraction. `natural?` and `integer?` say which integer;
`readsAsOther` says whether a text reads as anything but a string. Integers are decimal, or have
another base that is named by `0x`, `0o` or `0b`. A decimal number with a zero in front of other
digits is no number at all.
-/

namespace SungScore.Yaml

/-! ## Nothing and truth values -/

def isNull (s : Text) : Bool :=
  ["null", "Null", "NULL", "~"].any (fun t => t.toList == s)

def isTruth (s : Text) : Bool :=
  ["true", "True", "TRUE", "false", "False", "FALSE"].any (fun t => t.toList == s)

/-! ## Integers -/

/-- The value of a digit in a base up to sixteen. -/
def digit? (base : Nat) (c : Char) : Option Nat :=
  let n := c.toNat
  let value :=
    if '0' ≤ c ∧ c ≤ '9' then n - 48
    else if 'a' ≤ c ∧ c ≤ 'f' then n - 87
    else if 'A' ≤ c ∧ c ≤ 'F' then n - 55
    else base
  if value < base then some value else none

def digitsFrom? (base : Nat) (front : Nat) : Text → Option Nat
  | [] => some front
  | c :: s =>
      match digit? base c with
      | some d => digitsFrom? base (base * front + d) s
      | none => none

def inBase? (base : Nat) (s : Text) : Option Nat :=
  if s.isEmpty then none else digitsFrom? base 0 s

def dropSign : Text → Text
  | '+' :: s => s
  | '-' :: s => s
  | s => s

/-- Digits of which the first is a zero too many, behind a sign or not. -/
def isZeroPadded (s : Text) : Bool :=
  match dropSign s with
  | '0' :: d :: s => (d :: s).all Char.isDigit
  | _ => false

def magnitude? : Text → Option Nat
  | '0' :: 'x' :: s => inBase? 16 s
  | '0' :: 'o' :: s => inBase? 8 s
  | '0' :: 'b' :: s => inBase? 2 s
  | s => if isZeroPadded s then none else Decimal.nat? s

/-- The natural number that a text denotes, which may begin with a plus sign. -/
def natural? : Text → Option Nat
  | '+' :: s => magnitude? s
  | s => magnitude? s

/-- The integer that a text denotes. -/
def integer? : Text → Option Int
  | '-' :: s => (magnitude? s).map (fun n => -(n : Int))
  | s => (natural? s).map Int.ofNat

def readsAsInteger (s : Text) : Bool :=
  match integer? s with
  | some (.ofNat n) => n < Nat.pow 2 128
  | some (.negSucc n) => n < Nat.pow 2 127
  | none => false

/-! ## Decimal fractions -/

/-- A decimal number in scientific writing: `digits` times ten to the power `exponent`. -/
structure Scientific where
  digits : Nat
  exponent : Int
deriving DecidableEq

/-- The number that a text without a sign denotes: digits with or without a point among
them, and an exponent behind them or none. -/
def scientific? (s : Text) : Option Scientific :=
  let whole := s.takeWhile Char.isDigit
  let afterWhole := s.dropWhile Char.isDigit
  let (fraction, tail) :=
    match afterWhole with
    | '.' :: r => (r.takeWhile Char.isDigit, r.dropWhile Char.isDigit)
    | r => ([], r)
  let exponent? : Option Int :=
    match tail with
    | [] => some 0
    | e :: r => if e == 'e' || e == 'E' then Decimal.int? r else none
  match Decimal.nat? (whole ++ fraction), exponent? with
  | some digits, some exponent => some ⟨digits, exponent - fraction.length⟩
  | _, _ => none

/-- Whether a number is small enough for the format of sixty-four bits, where everything from
`2 ^ 1024 - 2 ^ 970` on counts as infinite. The number of digits decides for all but the
numbers next to that bound. -/
def Scientific.isFinite (x : Scientific) : Bool :=
  if x.digits = 0 then true
  else
    let size := (Decimal.ofNat x.digits).length + x.exponent
    if size < 309 then true
    else if 309 < size then false
    else
      x.digits * Nat.pow 10 x.exponent.toNat
        < (Nat.pow 2 1024 - Nat.pow 2 970) * Nat.pow 10 (-x.exponent).toNat

/-- A text that reads as a decimal fraction, infinity or no number. -/
def readsAsFraction (s : Text) : Bool :=
  let unsigned := match s with
    | '+' :: '+' :: _ | '+' :: '-' :: _ => []
    | '+' :: r => r
    | '-' :: r => r
    | r => r
  [".inf", ".Inf", ".INF"].any (fun t => t.toList == unsigned)
    || [".nan", ".NaN", ".NAN"].any (fun t => t.toList == s)
    || (scientific? unsigned).any Scientific.isFinite

/-! ## Strings -/

/-- A text that, written without quotes, would read as something other than a string, or
would look like a number. -/
def readsAsOther (s : Text) : Bool :=
  s.isEmpty || isNull s || isTruth s || readsAsInteger s || isZeroPadded s || readsAsFraction s

/-! ## Scalars with their styles and tags -/

/-- How a scalar is written: without quotes, between quotes of either kind, behind a bar line by
line, or behind an angle bracket with its lines joined. -/
inductive Style
  | plain
  | quoted
  | literal
  | folded
deriving DecidableEq

structure Scalar where
  style : Style
  tag : Option Text := none
  text : Text
deriving DecidableEq

namespace Scalar

def empty (tag : Option Text) : Scalar := { style := .plain, tag, text := [] }

def intTag : Text := "tag:yaml.org,2002:int".toList

def nullTag : Text := "tag:yaml.org,2002:null".toList

/-- Whether a scalar leaves a setting as it is. With a tag it does so only if that is the one for
nothing: an exclamation mark alone is a tag like any other. -/
def isUnset (v : Scalar) : Bool :=
  v.style == .plain
    && match v.tag with
      | none => v.text.isEmpty || isNull v.text
      | some tag => tag == nullTag && isNull v.text

/-- Whether a scalar may stand for an integer, by its style and its tag. -/
def mayBeInteger (v : Scalar) : Bool :=
  match v.style with
  | .plain => v.tag != some nullTag
  | .literal => v.tag == some intTag
  | .quoted | .folded => false

/-- The count that a scalar gives to a setting. The outer layer is empty where the setting
refuses the scalar, and the inner one where it is left as it is. -/
def count? (v : Scalar) : Option (Option UInt32) :=
  if v.isUnset then some none
  else if v.mayBeInteger then
    match natural? v.text with
    | some n => (unsigned? n).map some
    | none => none
  else none

/-- The number with a sign that a scalar gives to a setting, in the same two layers. -/
def number? (v : Scalar) : Option (Option Int) :=
  if v.isUnset then some none
  else if v.mayBeInteger then
    match integer? v.text with
    | some n => (signed? n).map some
    | none => none
  else none

end Scalar

end SungScore.Yaml
