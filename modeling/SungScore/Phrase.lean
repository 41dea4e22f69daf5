import SungScore.Mora

set_option autoImplicit false

/-!
# Phrases

A phrase is a syllable with the notes that it is sung on and the silence after them. It is
sung as one mora for every note. The first carries the onset. Of the last, some ticks are
kept back for the coda; these, or the silence, are carried into the phrase that follows:

* silence lengthens its first mora, and delays it;
* a coda that is the same consonant as its onset lengthens that onset;
* any other coda becomes a mora of its own, on the key before.

A coda that is followed by silence cannot be carried, and becomes a mora of its own at once.
-/

namespace SungScore

/-! ## What is carried -/

/-- The time that a phrase leaves to the next one: the rest after its last note, or its coda. -/
inductive Carry
  | silence (ticks : Ticks)
  | coda (text : Text) (ticks : Ticks)
deriving DecidableEq

def Carry.ticks : Carry → Ticks
  | silence t => t
  | coda _ t => t

/-- A phrase: a syllable, at least one sounding note, and the silence after the notes. Every
note stands with its ties as one, and the silence is one rest. -/
structure Phrase where
  syllable : Syllable
  first : Note
  more : List Note
  silence : Ticks
deriving DecidableEq

namespace Phrase

/-! ## Making a phrase -/

/-- The sounding notes and the length of the rest after them. -/
def splitRest (runs : List Note) : List Note × Ticks :=
  match runs.getLast? with
  | some n => if n.isRest then (runs.dropLast, n.length) else (runs, 0)
  | none => ([], 0)

/-- The phrase of a syllable and the notes after it. Faults in the notes are reported on the
given line, and a missing note at the syllable. -/
def ofNotes (line : Nat) (s : Syllable) (notes : List Note) : Except Fault Phrase :=
  match Note.runs line notes with
  | .error e => .error e
  | .ok runs =>
      match splitRest runs with
      | (first :: more, silence) => .ok ⟨s, first, more, silence⟩
      | ([], _) => .error (s.fault (if notes.isEmpty then .noNote else .onlyRests))

/-! ## Allotting the ticks -/

def last (p : Phrase) : Note := p.more.getLast?.getD p.first

def onsetLimit : Ticks := 30

/-- The shortest note that leaves room for a coda. -/
def codaRoom : Ticks := 15

/-- The ticks that are kept for the coda: half of the last note within the configured bound,
and none if that note is short. -/
def codaTicks (σ : Settings) (p : Phrase) : Ticks :=
  if p.syllable.coda.isEmpty || p.last.length < codaRoom then 0
  else min σ.maximalSuffix (p.last.length / 2)

/-- The ticks that are left to a note, which is the last one if none come after it. -/
def keptTicks (σ : Settings) (p : Phrase) (n : Note) (after : List Note) : Ticks :=
  if after.isEmpty then n.length - p.codaTicks σ else n.length

def carry (σ : Settings) (p : Phrase) : Option Carry :=
  if 0 < p.silence then some (.silence p.silence)
  else if 0 < p.codaTicks σ then some (.coda p.syllable.coda (p.codaTicks σ))
  else none

/-! ## Singing -/

/-- The mora of the first note, before anything carried is added to it. -/
def firstMora (σ : Settings) (p : Phrase) (key : Int) : Mora :=
  let tick := p.keptTicks σ p.first p.more
  { consonant := p.syllable.onset
    breath := p.syllable.breath
    vowel := p.syllable.vowel
    key
    tick
    offTick := min onsetLimit (tick / 2) }

/-- The first mora with what was carried into it, after a mora for a coda that does not fit
its onset. That one takes the key of the mora before, which is given where there is one. -/
def openWith (line : Nat) (p : Phrase) (before : Option Int) (m : Mora) :
    Option Carry → Except Fault (List Mora)
  | none => .ok [m]
  | some (.silence t) =>
      match Ticks.add? m.tick t with
      | some tick => .ok [{ m with tick, onTick := m.onTick + t }]
      | none => .error (p.syllable.fault .ticksOverflow)
  | some (.coda text t) =>
      if text = p.syllable.onset then
        match Ticks.add? m.tick t with
        | some tick => .ok [{ m with tick, offTick := m.offTick + t }]
        | none => .error (p.syllable.fault .ticksOverflow)
      else
        match before with
        | some key => .ok [Mora.loneConsonant text key t, m]
        | none => .error (.misplaced line 1 text .noPrecedingNote)

/-- The coda as a mora of its own, where silence comes after it. -/
def closing (σ : Settings) (p : Phrase) (key : Int) : List Mora :=
  if 0 < p.silence ∧ 0 < p.codaTicks σ then
    [Mora.loneConsonant p.syllable.coda key (p.codaTicks σ)]
  else []

/-- The morae of the notes after the first, given the key of the mora before them, and the
coda after them. -/
def laterMorae (σ : Settings) (p : Phrase) (key : Int) : List Note → List Mora
  | [] => p.closing σ key
  | n :: after =>
      let key := (n.key? σ).getD key
      { vowel := p.syllable.vowel, key, tick := p.keptTicks σ n after }
        :: laterMorae σ p key after

end Phrase

end SungScore
