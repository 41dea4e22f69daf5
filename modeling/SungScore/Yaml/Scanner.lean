import SungScore.Yaml.Tag

set_option autoImplicit false

/-!
# Scanning a document

The scanner cuts a document into tokens. Whether a scalar is a key shows only at the colon
behind it. So where a key may begin, its place among the tokens is remembered, and the token
that announces it is put there when the colon comes. A key of this kind stands on one line
and has no more than 1024 characters.

The first key of a mapping without braces fixes its indentation. Lists and mappings inside the
mapping, which have tokens of their own in general, are refused, since no setting takes them.
-/

namespace SungScore.Yaml

/-! ## Tokens -/

/-- A token of a document. The marks at the start and the end of a block stand around a mapping that
is told by its indentation, those of a flow around one in braces. -/
inductive Token
  | version (major minor : Nat)
  | tagHandle (handle beginning : Text)
  | documentStart
  | documentEnd
  | blockStart
  | blockEnd
  | flowStart
  | flowEnd
  | comma
  | key
  | value
  | alias (name : Text)
  | anchor (name : Text)
  | tag (handle suffix : Text)
  | scalar (style : Style) (text : Text)
deriving DecidableEq

/-! ## The scanner -/

/-- A place where a key may have begun, behind a number of tokens, and whether nothing but a key can
stand there. -/
structure KeyMark where
  tokens : Nat
  required : Bool
  place : Cursor

/-- The state of the scanner between two tokens: the column of the keys of the open mapping without
braces, whether a mapping in braces is open, and whether a key may begin at the cursor. -/
structure Scanner where
  cursor : Cursor
  tokens : Array Token := #[]
  indent : Option Nat := none
  flow : Bool := false
  keyAllowed : Bool := true
  key : Option KeyMark := none

namespace Scanner

/-! ## Blanks and comments -/

/-- Passes a byte order mark at the beginning of a line. What follows it stands in the next
column. -/
def skipMark (c : Cursor) : Cursor :=
  if c.column == 0 && c.atChar '\ufeff' then c.skip 1 else c

/-- Passes blanks, comments and line feeds. A tab is a blank only where no key may begin. -/
def skipBlanks (flow keyAllowed : Bool) (c : Cursor) : Bool × Cursor :=
  let c₁ := (skipMark c).skipWhile (fun d => d == ' ' || (d == '\t' && (flow || !keyAllowed)))
  let c₂ := if c₁.atChar '#' then c₁.skipWhile (· != '\n') else c₁
  if c₂.atChar '\n' then
    let c₃ := c₂.skip 1
    if _h : c₃.rest.length < c.rest.length then skipBlanks flow (keyAllowed || !flow) c₃
    else (keyAllowed, c₂)
  else (keyAllowed, c₂)
termination_by c.rest.length

/-! ## Keys and indentation -/

def dropKey (s : Scanner) : Option Scanner :=
  if s.key.any (·.required) then none else some { s with key := none }

def dropStaleKey (s : Scanner) : Option Scanner :=
  match s.key with
  | some k =>
      if k.place.line < s.cursor.line || k.place.index + 1024 < s.cursor.index then s.dropKey
      else some s
  | none => some s

def markKey (s : Scanner) : Option Scanner :=
  if s.keyAllowed then
    s.dropKey.map (fun s => { s with
      key := some {
        tokens := s.tokens.size
        required := !s.flow && s.indent == some s.cursor.column
        place := s.cursor } })
  else some s

/-- Opens a mapping without braces for a key in the given column, at a place among the
tokens, if none is open. A deeper key would need a mapping inside it. -/
def openBlock (s : Scanner) (column place : Nat) : Option Scanner :=
  if s.flow then some s
  else
    match s.indent with
    | some i => if i < column then none else some s
    | none =>
        let tokens := s.tokens.insertIdxIfInBounds place .blockStart
        some { s with indent := some column, tokens }

/-- Closes the mapping without braces, if its keys are indented further than the column; with
no column it is closed in any case. -/
def closeBlock (s : Scanner) (column : Option Nat) : Scanner :=
  if !s.flow && s.indent.any (fun i => column.all (· < i)) then
    { s with indent := none, tokens := s.tokens.push .blockEnd }
  else s

/-! ## Adding tokens -/

def push (s : Scanner) (t : Token) (after : Cursor) (keyAllowed : Bool) : Scanner :=
  { s with tokens := s.tokens.push t, cursor := after, keyAllowed }

/-- A sign that ends every mapping: a directive or a mark between documents. -/
def pushOutside (s : Scanner) (t : Token) (after : Cursor) : Option Scanner :=
  (s.closeBlock none).dropKey.map (fun s => s.push t after false)

def pushKey (s : Scanner) : Option Scanner :=
  if !s.flow && !s.keyAllowed then none
  else
    match s.openBlock s.cursor.column s.tokens.size with
    | none => none
    | some s => s.dropKey.map (fun s => s.push .key (s.cursor.skip 1) (!s.flow))

/-- The colon before a value. If a key may have begun before it, that is a key now. -/
def pushValue (s : Scanner) : Option Scanner :=
  match s.key with
  | some k =>
      let s := { s with tokens := s.tokens.insertIdxIfInBounds k.tokens .key, key := none }
      (s.openBlock k.place.column k.tokens).map (fun s => s.push .value (s.cursor.skip 1) false)
  | none =>
      if !s.flow && !s.keyAllowed then none
      else
        (s.openBlock s.cursor.column s.tokens.size).map
          (fun s => s.push .value (s.cursor.skip 1) (!s.flow))

def pushDirective (s : Scanner) : Option Scanner :=
  match directive? s.cursor with
  | some (.version major minor, after) => s.pushOutside (.version major minor) after
  | some (.tagHandle handle beginning, after) => s.pushOutside (.tagHandle handle beginning) after
  | none => none

def pushFlowStart (s : Scanner) : Option Scanner :=
  if s.flow || s.indent.isSome then none
  else s.dropKey.map (fun s => { s.push .flowStart (s.cursor.skip 1) true with flow := true })

def pushFlowEnd (s : Scanner) : Option Scanner :=
  if !s.flow then none
  else s.dropKey.map (fun s => { s.push .flowEnd (s.cursor.skip 1) false with flow := false })

def pushComma (s : Scanner) : Option Scanner :=
  if !s.flow then none else s.dropKey.map (fun s => s.push .comma (s.cursor.skip 1) true)

def pushPart (s : Scanner) (read? : Option (Token × Cursor)) : Option Scanner :=
  match s.markKey, read? with
  | some s, some (t, after) => some (s.push t after false)
  | _, _ => none

def pushBlockScalar (s : Scanner) (style : Style) : Option Scanner :=
  match s.dropKey, block? (style == .folded) s.indent s.cursor with
  | some s, some (text, after) => some (s.push (.scalar style text) after true)
  | _, _ => none

/-- A plain scalar. Behind one that is followed by a line feed a key may begin. -/
def pushPlain (s : Scanner) : Option Scanner :=
  match s.markKey, plain? s.flow (s.indent.elim 0 (· + 1)) s.cursor with
  | some s, some p => some (s.push (.scalar .plain p.text) p.after p.broken)
  | _, _ => none

/-! ## The next token -/

/-- Whether a plain scalar can begin with a character in front of the given text. -/
def beginsPlain (flow : Bool) (d : Char) (r : Text) : Bool :=
  if d == '-' then !r.head?.any isGap
  else if d == '?' || d == ':' then !flow && !isApart r
  else !isGapOrFeed d && !",[]\x7b\x7d#&*!|>'\"%@\x60".toList.contains d

/-- Adds the token that begins at the cursor with the given character. -/
def pushToken (s : Scanner) (d : Char) (r : Text) : Option Scanner :=
  let c := s.cursor
  if c.column == 0 && d == '%' then s.pushDirective
  else if c.atDocumentMark then
    s.pushOutside (if d == '-' then .documentStart else .documentEnd) (c.skip 3)
  else
    match d with
    | '\x7b' => s.pushFlowStart
    | '\x7d' => s.pushFlowEnd
    | ',' => s.pushComma
    | '*' => s.pushPart ((anchorName? c).map (fun (name, after) => (.alias name, after)))
    | '&' => s.pushPart ((anchorName? c).map (fun (name, after) => (.anchor name, after)))
    | '!' =>
        s.pushPart ((tag? s.flow c).map
          (fun (handle, suffix, after) => (.tag handle suffix, after)))
    | '\x27' | '\x22' =>
        s.pushPart ((quoted? d c).map (fun (text, after) => (.scalar .quoted text, after)))
    | '|' => if s.flow then none else s.pushBlockScalar .literal
    | '>' => if s.flow then none else s.pushBlockScalar .folded
    | _ =>
        if d == '?' && (s.flow || isApart r) then s.pushKey
        else if d == ':' && (s.flow || isApart r) then s.pushValue
        else if d == '-' && isApart r then none
        else if beginsPlain s.flow d r then s.pushPlain
        else none

def close (s : Scanner) : Option (List Token) :=
  (s.closeBlock none).dropKey.map (fun s => s.tokens.toList)

def run (s : Scanner) : Option (List Token) :=
  let (keyAllowed, cursor) := skipBlanks s.flow s.keyAllowed s.cursor
  match ({ s with keyAllowed, cursor } : Scanner).dropStaleKey with
  | none => none
  | some s₁ =>
      let s₂ := s₁.closeBlock (some s₁.cursor.column)
      match s₂.cursor.rest with
      | [] => s₂.close
      | d :: r =>
          match s₂.pushToken d r with
          | none => none
          | some s₃ =>
              if _h : s₃.cursor.rest.length < s.cursor.rest.length then s₃.run else none
termination_by s.cursor.rest.length

end Scanner

/-- The tokens of a document. -/
def tokens? (document : Text) : Option (List Token) :=
  match prepare? document with
  | some rest => ({ cursor := { rest } } : Scanner).run
  | none => none

end SungScore.Yaml
