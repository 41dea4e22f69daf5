import SungScore.Yaml.Scanner

set_option autoImplicit false

/-!
# The mapping of a document

A document holds one mapping of scalars to scalars, without braces or in them, or nothing at
all. `entries?` gives the entries of the mapping in their order, and `readConfig` takes them for
a configuration. Aliases and the handles of tags are resolved here.

An anchor names a scalar or the mapping of the document; an alias stands for what is named.
Names go through numbers. An anchor gives its name the number of the names known before it, and
an alias takes the number that its name has where the alias stands. So a name that is given again
can share its number with the next new name. What an alias denotes is settled at the end of the
document, where a number stands for what it was given to last.
-/

namespace SungScore.Yaml

/-! ## Directives -/

/-- The handles that every document knows, with the beginnings that they stand for. -/
def knownHandles : List (Text × Text) :=
  [(['!'], ['!']), (['!', '!'], "tag:yaml.org,2002:".toList)]

/-- The head of a document: whether it names a version, and the handles that it makes known. -/
structure Head where
  hasVersion : Bool := false
  handles : List (Text × Text) := []

/-- Reads the directives at the head of a document. A version must be one of two, and neither a
version nor a handle may be given twice. -/
def Head.extend? (h : Head) : List Token → Option (Head × List Token)
  | .version major minor :: ts =>
      if h.hasVersion || major ≠ 1 || (minor ≠ 1 && minor ≠ 2) then none
      else extend? { h with hasVersion := true } ts
  | .tagHandle handle beginning :: ts =>
      if (h.handles.lookup handle).isSome then none
      else extend? { h with handles := h.handles ++ [(handle, beginning)] } ts
  | ts => some (h, ts)

/-! ## Names -/

/-- The names of a document up to some place, each with its number, and what the numbers were given
to, latest first. The mapping is no scalar. -/
structure Anchors where
  numbers : List (Text × Nat) := []
  targets : List (Nat × Option Scalar) := []

def Anchors.add (a : Anchors) (name : Text) (target : Option Scalar) : Anchors :=
  let number := a.numbers.length
  { numbers := (name, number) :: a.numbers.filter (fun known => known.1 != name)
    targets := (number, target) :: a.targets }

/-- A scalar as it is written: itself, or an alias with its number. -/
inductive Part
  | scalar (v : Scalar)
  | alias (number : Nat)

def Part.scalar? (a : Anchors) : Part → Option Scalar
  | .scalar v => some v
  | .alias number =>
      match a.targets.lookup number with
      | some target => target
      | none => none

/-! ## Scalars with their tags and names -/

structure Known where
  handles : List (Text × Text)
  anchors : Anchors := {}

/-- What stands in front of a scalar or the mapping. -/
structure Properties where
  anchor : Option Text := none
  tag : Option Text := none

def Known.tag? (k : Known) (handle suffix : Text) : Option Text :=
  if handle.isEmpty then some suffix else (k.handles.lookup handle).map (· ++ suffix)

/-- The properties at the beginning of a list of tokens: a name and a tag in either order, or
one of them, or none. -/
def Known.properties? (k : Known) : List Token → Option (Properties × List Token)
  | .anchor name :: .tag handle suffix :: ts | .tag handle suffix :: .anchor name :: ts =>
      (k.tag? handle suffix).map (fun tag => ({ anchor := some name, tag := some tag }, ts))
  | .anchor name :: ts => some ({ anchor := some name }, ts)
  | .tag handle suffix :: ts =>
      (k.tag? handle suffix).map (fun tag => ({ tag := some tag }, ts))
  | ts => some ({}, ts)

def Known.name (k : Known) (p : Properties) (target : Option Scalar) : Known :=
  match p.anchor with
  | some name => { k with anchors := k.anchors.add name target }
  | none => k

/-- The scalar at the beginning of a list of tokens. Properties alone make an empty scalar. -/
def Known.part? (k : Known) : List Token → Option (Part × Known × List Token)
  | .alias name :: ts =>
      (k.anchors.numbers.lookup name).map (fun number => (.alias number, k, ts))
  | ts =>
      match k.properties? ts with
      | none => none
      | some (p, .scalar style text :: rest) =>
          let v : Scalar := { style, tag := p.tag, text }
          some (.scalar v, k.name p (some v), rest)
      | some (_, .blockStart :: _) | some (_, .flowStart :: _) => none
      | some (p, rest) =>
          if p.anchor.isNone && p.tag.isNone then none
          else
            let v := Scalar.empty p.tag
            some (.scalar v, k.name p (some v), rest)

/-- The scalar at the beginning of a list of tokens, or an empty one if the list begins with a
token that can stand behind a scalar. -/
def Known.partOr? (k : Known) (isNext : Token → Bool) (ts : List Token) :
    Option (Part × Known × List Token) :=
  if ts.head?.any isNext then some (.scalar (.empty none), k, ts) else k.part? ts

/-! ## Mappings -/

abbrev Entry := Scalar × Scalar

/-- An entry as it is written, with its aliases. -/
structure Written where
  key : Part
  value : Part

def Written.entry? (a : Anchors) (w : Written) : Option Entry :=
  match w.key.scalar? a, w.value.scalar? a with
  | some key, some value => some (key, value)
  | _, _ => none

/-- The entry behind a token that announces a key, given the tokens that can stand behind a
key and a value. -/
def Known.entry? (k : Known) (isNext : Token → Bool) (ts : List Token) :
    Option (Written × Known × List Token) :=
  match k.partOr? (fun t => t == .value || isNext t) ts with
  | none => none
  | some (key, k₁, .value :: ts₁) =>
      (k₁.partOr? isNext ts₁).map (fun (value, k₂, ts₂) => ({ key, value }, k₂, ts₂))
  | some (key, k₁, ts₁) => some ({ key, value := .scalar (.empty none) }, k₁, ts₁)

/-- The tokens behind a value in a mapping without braces. A colon for which there is no key is
among them, so that it is found in the place of a key. -/
def isBlockNext : Token → Bool
  | .key | .value | .blockEnd => true
  | _ => false

def isFlowNext : Token → Bool
  | .comma | .flowEnd => true
  | _ => false

/-- What is read of a document: the entries of its mapping, what is known behind it and the
tokens that are left. -/
structure Body where
  entries : List Written
  known : Known
  rest : List Token

def Body.cons (w : Written) (b : Body) : Body := { b with entries := w :: b.entries }

def blockBody? (k : Known) : List Token → Option Body
  | .blockEnd :: rest => some ⟨[], k, rest⟩
  | .key :: rest =>
      match k.entry? isBlockNext rest with
      | none => none
      | some (w, k₁, rest₁) =>
          if _h : rest₁.length ≤ rest.length then (blockBody? k₁ rest₁).map (.cons w) else none
  | _ => none
termination_by ts => ts.length
decreasing_by simp; omega

/-- The entry at the beginning of a list of tokens inside braces. A scalar that is not
announced as a key has no value. -/
def Known.flowEntry? (k : Known) : List Token → Option (Written × Known × List Token)
  | .key :: ts => k.entry? isFlowNext ts
  | ts => (k.part? ts).map (fun (key, k₁, ts₁) => (⟨key, .scalar (.empty none)⟩, k₁, ts₁))

/-- The body that is a mapping in braces. A comma may stand behind the last entry. -/
def flowBody? (k : Known) : List Token → Option Body
  | .flowEnd :: rest => some ⟨[], k, rest⟩
  | ts =>
      match k.flowEntry? ts with
      | none => none
      | some (w, k₁, .flowEnd :: rest) => some ⟨[w], k₁, rest⟩
      | some (w, k₁, .comma :: rest) =>
          if _h : rest.length < ts.length then (flowBody? k₁ rest).map (.cons w) else none
      | some _ => none
termination_by ts => ts.length

/-! ## Documents -/

/-- The body at the beginning of a list of tokens: a mapping, with properties of its own or
without. A document that begins with a mark may hold nothing, and so may one that has only
properties. -/
def body? (handles : List (Text × Text)) (marked : Bool) (ts : List Token) :
    Option Body :=
  let k : Known := { handles }
  match k.properties? ts with
  | some (p, .blockStart :: rest) => blockBody? (k.name p none) rest
  | some (p, .flowStart :: rest) => flowBody? (k.name p none) rest
  | some (p, rest) =>
      let hasProperties := p.anchor.isSome || p.tag.isSome
      let isOver := rest.head?.all (· == .documentEnd)
      if isOver && (hasProperties || marked) then some ⟨[], k, rest⟩ else none
  | none => none

/-- The entries of a body that is followed by nothing but marks, with its aliases
resolved. -/
def Body.entries? (b : Body) : Option (List Entry) :=
  if b.rest.all (· == .documentEnd) then b.entries.mapM (Written.entry? b.known.anchors) else none

/-- The entries of a list of tokens that make one document or none. -/
def entriesOf? : List Token → Option (List Entry)
  | [] => some []
  | ts =>
      let body :=
        match Head.extend? {} ts with
        | some (h, .documentStart :: rest) => body? (h.handles ++ knownHandles) true rest
        | some ({ hasVersion := false, handles := [] }, rest) => body? knownHandles false rest
        | _ => none
      match body with
      | some b => b.entries?
      | none => none

def entries? (document : Text) : Option (List Entry) :=
  match tokens? document with
  | some ts => entriesOf? ts
  | none => none

/-! ## Configurations -/

def names : List Text :=
  ["tick_unit", "tempo", "octave", "lowest_key", "highest_key", "maximal_suffix",
    "transpose"].map String.toList

/-- The value that entries give to a name, by a reading of scalars. Where the name is missing,
the value is. -/
def valueOf? {α : Type} (read? : Scalar → Option (Option α)) (entries : List Entry)
    (name : String) : Option (Option α) :=
  match entries.find? (fun e => e.1.text == name.toList) with
  | some e => read? e.2
  | none => some none

/-- The configuration that entries make, if every name is a setting and none is repeated. -/
def configOf? (entries : List Entry) : Option Config := do
  let keys := entries.map (·.1.text)
  guard (keys.all names.contains ∧ keys.Nodup)
  let count? := valueOf? Scalar.count? entries
  let number? := valueOf? Scalar.number? entries
  return {
    tickUnit := ← count? "tick_unit"
    tempo := ← count? "tempo"
    octave := ← number? "octave"
    lowestKey := ← number? "lowest_key"
    highestKey := ← number? "highest_key"
    maximalSuffix := ← count? "maximal_suffix"
    transpose := ← number? "transpose" }

/-- The configuration in a document that is not blank. -/
def readConfig : Config.Reader := fun document =>
  match (entries? document).bind configOf? with
  | some c => .ok c
  | none => .error .document

end SungScore.Yaml
