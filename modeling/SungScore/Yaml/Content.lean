import SungScore.Yaml.Cursor
import SungScore.Yaml.Scalar

set_option autoImplicit false

/-!
# The content of scalars

The text that a scalar denotes, in each of the styles in which it can be written. Over the
end of a line a scalar goes on by the same rule everywhere but in literal texts: blanks around
the line feeds vanish, a single line feed becomes a space, and of several the first vanishes.

Every reader gives the content with the place behind it, and nothing if the scalar is faulty.
A reader that goes on in rounds stops when a round takes no character, which keeps it total.
-/

namespace SungScore.Yaml

/-- What a run of blanks and line feeds between two words stands for. -/
def joint (run : Text) : Text :=
  match run.count '\n' with
  | 0 => run
  | 1 => [' ']
  | n + 1 => List.replicate n '\n'

/-! ## Plain scalars -/

def isFlowSign (c : Char) : Bool := ",[]\x7b\x7d".toList.contains c

/-- The part of a plain scalar up to the next blank. In a mapping in braces it also ends at
the signs of such mappings, and a colon directly before one of them is a fault. -/
def plainWord? (flow : Bool) : Text → Option Text
  | [] => some []
  | c :: s =>
      if isGapOrFeed c then some []
      else if flow && c == ':' && s.head?.any (fun d => isFlowSign d || d == '?') then none
      else if (c == ':' && isApart s) || (flow && isFlowSign c) then some []
      else (plainWord? flow s).map (c :: ·)

/-- Whether a run of blanks has a tab in the indentation of a line, which has the given
number of columns. -/
def hasTabInMargin (margin : Nat) : Option Nat → Text → Bool
  | _, [] => false
  | _, '\n' :: s => hasTabInMargin margin (some 0) s
  | column, c :: s =>
      (c == '\t' && column.any (· < margin))
        || hasTabInMargin margin (column.map (· + 1)) s

/-- A plain scalar that was read: its content, whether line feeds were passed behind it, and
the place behind both. -/
structure PlainText where
  text : Text
  broken : Bool
  after : Cursor

/-- The rest of a plain scalar, behind a content and a joint to what follows. Lines that go on
with it are indented by a number of columns. -/
def plainFrom? (flow : Bool) (margin : Nat) (text link : Text) (broken : Bool) (c : Cursor) :
    Option PlainText :=
  if c.atDocumentMark || c.atChar '#' then some ⟨text, broken, c⟩
  else
    match plainWord? flow c.rest with
    | none => none
    | some word =>
        let text := if word.isEmpty then text else text ++ link ++ word
        let c₁ := c.skip word.length
        let run := c₁.span isGapOrFeed
        if run.isEmpty then some ⟨text, broken && word.isEmpty, c₁⟩
        else if hasTabInMargin margin none run then none
        else
          let c₂ := c₁.skip run.length
          if !flow && c₂.column < margin then some ⟨text, run.contains '\n', c₂⟩
          else if _h : c₂.rest.length < c.rest.length then
            plainFrom? flow margin text (joint run) (run.contains '\n') c₂
          else none
termination_by c.rest.length

def plain? (flow : Bool) (margin : Nat) (c : Cursor) : Option PlainText :=
  plainFrom? flow margin [] [] false c

/-! ## Quoted scalars -/

/-- The number that the given count of hexadecimal digits at the beginning of a text
denotes. -/
def hexCode? (count : Nat) (s : Text) : Option Nat :=
  let digits := s.take count
  if digits.length = count then inBase? 16 digits else none

def charOf? (n : Nat) : Option Char :=
  if n.isValidChar then some (Char.ofNat n) else none

/-- The character that an escape stands for, and the number of characters behind the
backslash. -/
def unescape? : Text → Option (Char × Nat)
  | 'x' :: s => ((hexCode? 2 s).bind charOf?).map (·, 3)
  | 'u' :: s => ((hexCode? 4 s).bind charOf?).map (·, 5)
  | 'U' :: s => ((hexCode? 8 s).bind charOf?).map (·, 9)
  | c :: _ =>
      let code? : Option Nat :=
        match c with
        | '0' => some 0x00
        | 'a' => some 0x07
        | 'b' => some 0x08
        | 't' | '\t' => some 0x09
        | 'n' => some 0x0A
        | 'v' => some 0x0B
        | 'f' => some 0x0C
        | 'r' => some 0x0D
        | 'e' => some 0x1B
        | ' ' | '/' | '\\' | '\x22' => some c.toNat
        | 'N' => some 0x85
        | '_' => some 0xA0
        | 'L' => some 0x2028
        | 'P' => some 0x2029
        | _ => none
      (code?.bind charOf?).map (·, 1)
  | [] => none

/-- The next piece of a quoted scalar: characters of its content with the number of those that are
taken for them, or the quote at its end, or a fault. -/
inductive Piece
  | content (text : Text) (count : Nat)
  | close
  | fault

def Piece.of (quote : Char) : Text → Piece
  | [] => .fault
  | c :: s =>
      if isGapOrFeed c then
        let run := (c :: s).takeWhile isGapOrFeed
        .content (joint run) run.length
      else if c == quote then
        if quote == '\x27' && s.head? == some quote then .content [quote] 2 else .close
      else if quote == '\x22' && c == '\\' then
        if s.head? == some '\n' then
          let run := s.tail.takeWhile isGapOrFeed
          .content (List.replicate (run.count '\n') '\n') (2 + run.length)
        else
          match unescape? s with
          | some (d, count) => .content [d] (1 + count)
          | none => .fault
      else .content [c] 1

/-- The rest of a scalar between the given quotes, behind a content given backwards. -/
def quotedFrom? (quote : Char) (before : Text) (c : Cursor) : Option (Text × Cursor) :=
  if c.atDocumentMark then none
  else
    match Piece.of quote c.rest with
    | .fault => none
    | .close => some (before.reverse, c.skip 1)
    | .content text count =>
        let c' := c.skip count
        if _h : c'.rest.length < c.rest.length then
          quotedFrom? quote (text.reverse ++ before) c'
        else none
termination_by c.rest.length

def quoted? (quote : Char) (c : Cursor) : Option (Text × Cursor) := quotedFrom? quote [] (c.skip 1)

/-! ## Literal and folded scalars -/

/-- How a literal or folded scalar ends: without a line feed, with the one of its last line or
with all behind it. -/
inductive Chomping
  | strip | clip | keep
deriving DecidableEq

/-- What stands behind the sign of a literal or folded scalar. Columns of indentation beyond the
surrounding ones may be given. -/
structure BlockHeader where
  chomping : Chomping := .clip
  increment : Option Nat := none

def chomping? : Text → Option Chomping
  | '+' :: _ => some .keep
  | '-' :: _ => some .strip
  | _ => none

/-- The header of a block scalar and the number of its characters. A digit may stand in it, but
not zero. -/
def blockHeader? (s : Text) : Option (BlockHeader × Nat) :=
  let digit? := fun (r : Text) => r.head?.filter Char.isDigit
  let withDigit := fun (chomping : Chomping) (d : Char) (count : Nat) =>
    if d == '0' then none
    else some ({ chomping, increment := some (d.toNat - 48) : BlockHeader }, count)
  match chomping? s, digit? s with
  | some chomping, _ =>
      match digit? s.tail with
      | some d => withDigit chomping d 2
      | none => some ({ chomping }, 1)
  | none, some d =>
      match chomping? s.tail with
      | some chomping => withDigit chomping d 2
      | none => withDigit .clip d 1
  | none, none => some ({}, 0)

/-- The empty lines at a place: their number, the deepest indentation among them and the line
behind, and the first place that is not indentation. Where the indentation is known, no more
than that is passed; a tab inside of it is a fault. -/
structure EmptyLines where
  count : Nat
  depth : Nat
  after : Cursor

/-- Passes empty lines, behind a number of them. -/
def emptyLinesFrom? (indent : Option Nat) (count depth : Nat) (c : Cursor) : Option EmptyLines :=
  let inside := fun (column : Nat) => indent.all (column < ·)
  let spaces := (c.span (· == ' ')).length
  let c₁ := c.skip (indent.elim spaces (fun i => min spaces (i - c.column)))
  let depth := max depth c₁.column
  if c₁.atChar '\t' && inside c₁.column then none
  else if c₁.atChar '\n' then
    let c₂ := c₁.skip 1
    if _h : c₂.rest.length < c.rest.length then emptyLinesFrom? indent (count + 1) depth c₂
    else none
  else some ⟨count, depth, c₁⟩
termination_by c.rest.length

/-- What is known of a block scalar between two of its lines: the content, whether the last
line ended in a line feed and began with a blank, and the number of empty lines behind it. -/
structure BlockText where
  text : Text := []
  ended : Bool := false
  blank : Bool := false
  empty : Nat := 0

/-- The line feeds between the content and the next line, which begins with a blank or not. In
a folded scalar a single one between two lines without blanks becomes a space. -/
def BlockText.link (b : BlockText) (folded blank : Bool) : Text :=
  let first :=
    if !b.ended then []
    else if folded && !b.blank && !blank then (if b.empty = 0 then [' '] else [])
    else ['\n']
  first ++ List.replicate b.empty '\n'

def BlockText.chomp (b : BlockText) (chomping : Chomping) : Text :=
  let feed := if b.ended then ['\n'] else []
  match chomping with
  | .strip => b.text
  | .clip => b.text ++ feed
  | .keep => b.text ++ feed ++ List.replicate b.empty '\n'

/-- Reads the lines of a block scalar that are indented as far as the first. -/
def blockLines? (folded : Bool) (indent : Nat) (b : BlockText) (c : Cursor) :
    Option (BlockText × Cursor) :=
  if c.column ≠ indent ∨ c.rest.isEmpty then some (b, c)
  else
    let line := c.span (· != '\n')
    let blank := line.head?.any isGap
    let c₁ := c.skip line.length
    let ended := c₁.atChar '\n'
    match emptyLinesFrom? (some indent) 0 0 (c₁.skip 1) with
    | none => none
    | some lines =>
        let next : BlockText :=
          { text := b.text ++ b.link folded blank ++ line, ended, blank, empty := lines.count }
        if _h : lines.after.rest.length < c.rest.length then
          blockLines? folded indent next lines.after
        else none
termination_by c.rest.length

/-- A literal or folded scalar inside a mapping with the given indentation. -/
def block? (folded : Bool) (outer : Option Nat) (c : Cursor) : Option (Text × Cursor) :=
  match blockHeader? (c.rest.drop 1) with
  | none => none
  | some (header, count) =>
      let c₁ := (c.skip (1 + count)).skipWhile isGap
      let c₂ := if c₁.atChar '#' then c₁.skipWhile (· != '\n') else c₁
      if !c₂.rest.isEmpty && !c₂.atChar '\n' then none
      else
        let given := header.increment.map (outer.getD 0 + ·)
        match emptyLinesFrom? given 0 0 (c₂.skip 1) with
        | none => none
        | some lines =>
            let least := outer.elim 1 (· + 1)
            let indent := given.getD (max lines.depth least)
            match blockLines? folded indent { empty := lines.count } lines.after with
            | none => none
            | some (b, after) => some (b.chomp header.chomping, after)

end SungScore.Yaml
