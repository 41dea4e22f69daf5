import SungScore.Engine

set_option autoImplicit false

/-!
# Durations without bounds

An engine counts ticks in thirty-two bits. Here its way of finishing a syllable is carried out in
integers instead: no sum overflows, no difference wraps around, and the only faults left are those of
the arrangement of notes. `Exact.close` is this finishing, on an engine whose notes, morae and carries
have durations of any size. A tie or a rest is *overlong* if it cannot be counted in thirty-two bits,
and so is a first mora with all that it takes in (`Exact.Overlong`).

What is read off an engine in integers has the name `exact`.
-/

namespace SungScore

namespace Exact

/-- The largest duration that can be counted in thirty-two bits. -/
def longest : Int := 4294967295

/-! ## Notes -/

/-- A note of any length. -/
structure Note where
  kind : NoteKind
  length : Int
  column : Nat
deriving DecidableEq

namespace Note

def isRest (n : Note) : Bool := n.kind == .rest

def isTie (n : Note) : Bool := n.kind == .tie

def key? (σ : Settings) (n : Note) : Option Int :=
  match n.kind with
  | .pitched p octave => some (σ.clampKey (p.key octave + σ.transpose))
  | .tie | .rest => none

def continues (n first : Note) : Bool :=
  if first.isRest then n.isRest else n.isTie

/-- The run lengthened by one more note, as far as it goes. -/
def extend (run n : Note) : Note := { run with length := run.length + n.length }

def runsFrom (run : Note) : List Note → Except Misplacement (List Note)
  | [] => .ok [run]
  | n :: ns =>
      if n.continues run then runsFrom (run.extend n) ns
      else if n.isTie then .error .tieWithoutNote
      else
        match runsFrom n ns with
        | .ok others => .ok (run :: others)
        | .error cause => .error cause

/-- The runs of a list of notes, with their whole lengths. -/
def runs : List Note → Except Misplacement (List Note)
  | [] => .ok []
  | n :: ns => if n.isTie then .error .tieWithoutNote else runsFrom n ns

/-- Some run of the notes cannot be counted in thirty-two bits. -/
def SomeRunOverlong (ns : List Note) : Prop :=
  ∃ rs, runs ns = .ok rs ∧ ∃ r ∈ rs, longest < r.length

end Note

/-! ## Phrases -/

/-- A mora of any duration. -/
structure Mora where
  consonant : Text := []
  breath : Text := []
  vowel : Text := []
  key : Int := 0
  tick : Int := 0
  onTick : Int := 0
  offTick : Int := 0
deriving DecidableEq

def Mora.loneConsonant (text : Text) (key tick : Int) : Mora :=
  { consonant := text, key, tick, offTick := max (tick - 1) 0 }

/-- The time that a phrase leaves to the next one. -/
inductive Carry
  | silence (ticks : Int)
  | coda (text : Text) (ticks : Int)
deriving DecidableEq

structure Phrase where
  syllable : Syllable
  first : Note
  more : List Note
  silence : Int
deriving DecidableEq

namespace Phrase

def splitRest (runs : List Note) : List Note × Int :=
  match runs.getLast? with
  | some n => if n.isRest then (runs.dropLast, n.length) else (runs, 0)
  | none => ([], 0)

def ofNotes (s : Syllable) (notes : List Note) : Except Misplacement Phrase :=
  match Note.runs notes with
  | .error cause => .error cause
  | .ok runs =>
      match splitRest runs with
      | (first :: more, silence) => .ok ⟨s, first, more, silence⟩
      | ([], _) => .error (if notes.isEmpty then .noNote else .onlyRests)

def last (p : Phrase) : Note := p.more.getLast?.getD p.first

def codaTicks (σ : Settings) (p : Phrase) : Int :=
  if p.syllable.coda.isEmpty || p.last.length < 15 then 0
  else min σ.maximalSuffix.toNat (p.last.length / 2)

def keptTicks (σ : Settings) (p : Phrase) (n : Note) (after : List Note) : Int :=
  if after.isEmpty then n.length - p.codaTicks σ else n.length

def carry (σ : Settings) (p : Phrase) : Option Carry :=
  if 0 < p.silence then some (.silence p.silence)
  else if 0 < p.codaTicks σ then some (.coda p.syllable.coda (p.codaTicks σ))
  else none

def firstMora (σ : Settings) (p : Phrase) (key : Int) : Mora :=
  let tick := p.keptTicks σ p.first p.more
  { consonant := p.syllable.onset
    breath := p.syllable.breath
    vowel := p.syllable.vowel
    key
    tick
    offTick := min 30 (tick / 2) }

/-- What the first mora takes in of what is carried. -/
def takenIn (p : Phrase) : Option Carry → Int
  | none => 0
  | some (.silence t) => t
  | some (.coda text t) => if text = p.syllable.onset then t else 0

def openWith (p : Phrase) (before : Option Int) (m : Mora) :
    Option Carry → Except Misplacement (List Mora)
  | none => .ok [m]
  | some (.silence t) => .ok [{ m with tick := m.tick + t, onTick := m.onTick + t }]
  | some (.coda text t) =>
      if text = p.syllable.onset then
        .ok [{ m with tick := m.tick + t, offTick := m.offTick + t }]
      else
        match before with
        | some key => .ok [Mora.loneConsonant text key t, m]
        | none => .error .noPrecedingNote

def closing (σ : Settings) (p : Phrase) (key : Int) : List Mora :=
  if 0 < p.silence ∧ 0 < p.codaTicks σ then
    [Mora.loneConsonant p.syllable.coda key (p.codaTicks σ)]
  else []

def laterMorae (σ : Settings) (p : Phrase) (key : Int) : List Note → List Mora
  | [] => p.closing σ key
  | n :: after =>
      let key := (n.key? σ).getD key
      { vowel := p.syllable.vowel, key, tick := p.keptTicks σ n after }
        :: laterMorae σ p key after

end Phrase

/-! ## Engines -/

/-- An engine with durations of any size. -/
structure Engine where
  morae : List Mora
  current : Option Syllable
  notes : List Note
  carried : Option Carry
deriving DecidableEq

def lastKey? (e : Engine) : Option Int := e.morae.getLast?.map (·.key)

def sing (σ : Settings) (p : Phrase) (e : Engine) : Except Misplacement Engine :=
  match (p.first.key? σ).or (lastKey? e) with
  | none => .error .noPitch
  | some key =>
      match p.openWith (lastKey? e) (p.firstMora σ key) e.carried with
      | .error cause => .error cause
      | .ok opening =>
          .ok { e with
            morae := e.morae ++ (opening ++ p.laterMorae σ key p.more)
            carried := p.carry σ }

/-- Finishes the current syllable, if there is one, and counts as far as is needed. -/
def close (σ : Settings) (e : Engine) : Except Misplacement Engine :=
  match e.current with
  | none => .ok e
  | some s =>
      match Phrase.ofNotes s e.notes with
      | .error cause => .error cause
      | .ok p => sing σ p { e with current := none, notes := [] }

/-- Some run of the current syllable cannot be counted in thirty-two bits, or its first mora cannot
with what it takes in. -/
def Overlong (σ : Settings) (e : Engine) : Prop :=
  Note.SomeRunOverlong e.notes ∨
    ∃ s p, e.current = some s ∧ Phrase.ofNotes s e.notes = .ok p ∧
      longest < p.keptTicks σ p.first p.more + p.takenIn e.carried

end Exact

/-! ## Counting in integers -/

def Note.exact (n : Note) : Exact.Note := ⟨n.kind, n.length.toNat, n.column⟩

def Mora.exact (m : Mora) : Exact.Mora :=
  { consonant := m.consonant
    breath := m.breath
    vowel := m.vowel
    key := m.key
    tick := m.tick.toNat
    onTick := m.onTick.toNat
    offTick := m.offTick.toNat }

def Carry.exact : Carry → Exact.Carry
  | silence t => .silence t.toNat
  | coda text t => .coda text t.toNat

def Phrase.exact (p : Phrase) : Exact.Phrase :=
  ⟨p.syllable, p.first.exact, p.more.map Note.exact, p.silence.toNat⟩

def Engine.exact (e : Engine) : Exact.Engine :=
  { morae := e.morae.toList.map Mora.exact
    current := e.current
    notes := e.notes.toList.map Note.exact
    carried := e.carried.map Carry.exact }

end SungScore
