import SungScore.Yaml.Content

set_option autoImplicit false

/-!
# Names and tags

An anchor or an alias is a sign with a name behind it. A tag is a handle between exclamation
marks with a suffix behind it, or stands in full between angle brackets. The handles are made
known by directives at the head of a document. Tags are sequences of bytes: each of their
characters stands for the byte with its number.

Every reader gives what it reads with the place behind it, and nothing if it is faulty.
-/

namespace SungScore.Yaml

/-! ## Names -/

/-- The name behind the sign of an anchor or an alias. -/
def anchorName? (c : Cursor) : Option (Text × Cursor) :=
  let c₁ := c.skip 1
  let name := c₁.span isNameChar
  let c₂ := c₁.skip name.length
  if name.isEmpty then none
  else if isApart c₂.rest || c₂.rest.head?.any "?:,]\x7d%@\x60".toList.contains then
    some (name, c₂)
  else none

/-! ## The characters of tags -/

/-- The characters that stand for themselves in a tag. Those of brackets and the comma do so
only between angle brackets. -/
def isTagChar (bracketed : Bool) (c : Char) : Bool :=
  isNameChar c || ";/?:@&=+$.!~*'()".toList.contains c || (bracketed && ",[]".toList.contains c)

def byte? : Text → Option Nat
  | '%' :: s => hexCode? 2 s
  | _ => none

def trailingCount? (b : Nat) : Option Nat :=
  if b < 128 then some 0
  else if b / 32 = 6 then some 1
  else if b / 16 = 14 then some 2
  else if b / 8 = 30 then some 3
  else none

def trailingBytes? : Nat → Text → Option Text
  | 0, _ => some []
  | n + 1, s =>
      match byte? s with
      | some b =>
          if b / 64 = 2 then (trailingBytes? n (s.drop 3)).map (Char.ofNat b :: ·) else none
      | none => none

/-- The bytes of the character at the beginning of a text that is given by escapes. Whether a
shorter sequence of bytes would do for the character is not asked. -/
def escapedBytes? (s : Text) : Option Text :=
  match byte? s with
  | none => none
  | some b =>
      match trailingCount? b with
      | some n => (trailingBytes? n (s.drop 3)).map (Char.ofNat b :: ·)
      | none => none

/-- The characters of a tag, behind others that are given backwards. -/
def tagTextFrom? (bracketed : Bool) (before : Text) (c : Cursor) : Option (Text × Cursor) :=
  match c.rest with
  | [] => some (before.reverse, c)
  | d :: _ =>
      let next? : Option (Text × Cursor) :=
        if isTagChar bracketed d then some (d :: before, c.skip 1)
        else if d == '%' then
          (escapedBytes? c.rest).map
            (fun bytes => (bytes.reverse ++ before, c.skip (3 * bytes.length)))
        else none
      match next? with
      | none => if d == '%' then none else some (before.reverse, c)
      | some (before, c') =>
          if _h : c'.rest.length < c.rest.length then tagTextFrom? bracketed before c' else none
termination_by c.rest.length

/-- The part of a tag in front of the first zero byte, where it ends. -/
def upToZero (tag : Text) : Text := tag.takeWhile (·.toNat != 0)

/-- The characters of a tag up to a zero byte. There must be some, and be it that byte. -/
def tagText? (bracketed : Bool) (c : Cursor) : Option (Text × Cursor) :=
  ((tagTextFrom? bracketed [] c).filter (fun r => !r.1.isEmpty)).map
    (fun (text, c') => (upToZero text, c'))

/-! ## Tags -/

/-- The handle at the beginning of a tag: an exclamation mark, and a name with another one
behind it if there is one. -/
def tagHandle (c : Cursor) : Text × Cursor :=
  let c₁ := c.skip 1
  let name := c₁.span isNameChar
  let c₂ := c₁.skip name.length
  if c₂.atChar '!' then ('!' :: name ++ ['!'], c₂.skip 1) else ('!' :: name, c₂)

def fullTag? (c : Cursor) : Option (Text × Text × Cursor) :=
  match tagText? true (c.skip 2) with
  | some (suffix, c') => if c'.atChar '>' then some ([], suffix, c'.skip 1) else none
  | none => none

/-- A tag with a handle. A name that is no handle belongs to the suffix. A lone exclamation
mark has no handle. -/
def shortTag? (c : Cursor) : Option (Text × Text × Cursor) :=
  let (handle, c₁) := tagHandle c
  if 1 < handle.length && handle.getLast? == some '!' then
    (tagText? false c₁).map (fun (suffix, c₂) => (handle, suffix, c₂))
  else
    match tagTextFrom? false [] c₁ with
    | none => none
    | some (more, c₂) =>
        let suffix := upToZero (handle.drop 1 ++ more)
        if suffix.isEmpty then some ([], ['!'], c₂) else some (['!'], suffix, c₂)

/-- A tag as a handle and a suffix. A blank must follow it, or a comma in a mapping in
braces. -/
def tag? (flow : Bool) (c : Cursor) : Option (Text × Text × Cursor) :=
  (if c.atText ['!', '<'] then fullTag? c else shortTag? c).filter
    (fun r => isApart r.2.2.rest || (flow && r.2.2.atChar ','))

/-! ## Directives -/

inductive Directive
  | version (major minor : Nat)
  | tagHandle (handle beginning : Text)
deriving DecidableEq

def versionNumber? (c : Cursor) : Option (Nat × Cursor) :=
  let digits := c.span Char.isDigit
  if digits.isEmpty || 9 < digits.length then none
  else some (Nat.ofDigitChars 10 digits 0, c.skip digits.length)

def version? (c : Cursor) : Option (Directive × Cursor) :=
  match versionNumber? c with
  | none => none
  | some (major, c₁) =>
      if !c₁.atChar '.' then none
      else
        (versionNumber? (c₁.skip 1)).map (fun (minor, c₂) => (.version major minor, c₂))

/-- A handle and the beginning that it stands for, with blanks between them. -/
def handleRule? (c : Cursor) : Option (Directive × Cursor) :=
  if !c.atChar '!' then none
  else
    let (handle, c₁) := tagHandle c
    if handle != ['!'] && !(1 < handle.length && handle.getLast? == some '!') then none
    else if !c₁.rest.head?.any isGap then none
    else
      match tagText? true (c₁.skipWhile isGap) with
      | some (beginning, c₂) =>
          if isApart c₂.rest then some (.tagHandle handle beginning, c₂) else none
      | none => none

def directive? (c : Cursor) : Option (Directive × Cursor) :=
  let c₁ := c.skip 1
  let name := c₁.span isNameChar
  let c₂ := c₁.skip name.length
  if !isApart c₂.rest then none
  else
    let c₃ := c₂.skipWhile isGap
    let read? :=
      if name = "YAML".toList then version? c₃
      else if name = "TAG".toList then handleRule? c₃
      else none
    match read? with
    | none => none
    | some (d, c₄) =>
        let c₅ := c₄.skipWhile isGap
        let c₆ := if c₅.atChar '#' then c₅.skipWhile (· != '\n') else c₅
        if c₆.rest.isEmpty || c₆.atChar '\n' then some (d, c₆.skip 1) else none

end SungScore.Yaml
