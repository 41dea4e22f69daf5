import SungScore.Phrase

set_option autoImplicit false

/-!
# The engine

The engine joins syllables with notes. A syllable becomes current when it is fed, and takes
the notes that are fed after it until the next syllable comes. Then it is finished: it
becomes a phrase, which is sung, and only what it carries is remembered.

`Engine.merge` feeds a lyric line and a melody line together, in the order of their columns.
`Engine.finish` ends the score. Every operation leaves an engine behind also when it fails;
a current syllable whose phrase fails is lost with its notes.
-/

namespace SungScore

/-- The state of a score that is being sung: the morae so far, not yet refrained, the syllable that
notes are fed to with the ones it has, and what the phrase before leaves to it. -/
structure Engine where
  morae : Array Mora := #[]
  current : Option Syllable := none
  notes : Array Note := #[]
  carried : Option Carry := none
deriving DecidableEq

namespace Engine

def lastKey? (e : Engine) : Option Int := e.morae.back?.map (·.key)

/-! ## Single steps -/

/-- Sings a phrase: its first note needs a key, and takes what is carried. -/
def sing (σ : Settings) (line : Nat) (p : Phrase) : EStateM Fault Engine Unit := fun e =>
  match (p.first.key? σ).or e.lastKey? with
  | none => .error (p.first.fault line .noPitch) e
  | some key =>
      match p.openWith line e.lastKey? (p.firstMora σ key) e.carried with
      | .error f => .error f { e with carried := none }
      | .ok opening =>
          .ok () { e with
            morae := e.morae ++ (opening ++ p.laterMorae σ key p.more)
            carried := p.carry σ }

def close (σ : Settings) (line : Nat) : EStateM Fault Engine Unit := fun e =>
  match e.current with
  | none => .ok () e
  | some s =>
      let e' := { e with current := none, notes := #[] }
      match Phrase.ofNotes line s e.notes.toList with
      | .error f => .error f e'
      | .ok p => sing σ line p e'

/-- Makes a syllable current, and finishes the one before it. -/
def feedSyllable (σ : Settings) (line : Nat) (s : Syllable) : EStateM Fault Engine Unit := do
  close σ line
  modify (fun e => { e with current := some s })

/-- Adds a note to the current syllable. In a syllable no sound follows a rest. -/
def feedNote (line : Nat) (n : Note) : EStateM Fault Engine Unit := fun e =>
  match e.current, e.notes.back? with
  | none, _ => .error (n.fault line .noSyllable) e
  | some _, some last =>
      if last.isRest && !n.isRest then
        .error (.misplaced line last.column (last.display ++ n.display) .soundAfterRest) e
      else .ok () { e with notes := e.notes.push n }
  | some _, none => .ok () { e with notes := e.notes.push n }

/-! ## Pairs of lines -/

/-- Feeds the syllables that begin up to the given column, and gives the ones after it. -/
def feedReached (σ : Settings) (line column : Nat) :
    List Syllable → EStateM Fault Engine (List Syllable)
  | [] => pure []
  | s :: ss =>
      if s.column ≤ column then do
        feedSyllable σ line s
        feedReached σ line column ss
      else pure (s :: ss)

/-- Feeds the syllables of a lyric line and the notes of its melody line in the order of their
columns, a syllable before a note in the same one. Notes before the first syllable belong to
the current one; a syllable after the last note has nothing to be sung on. -/
def merge (σ : Settings) (line : Nat) : List Syllable → List Note → EStateM Fault Engine Unit
  | [], [] => pure ()
  | s :: _, [] => throw (s.fault .noNote)
  | lyrics, n :: ns => do
      let later ← feedReached σ line n.column lyrics
      feedNote line n
      merge σ line later ns

/-! ## The end -/

def finalCodaLimit : Ticks := 31

/-- The morae with the coda that the last phrase leaves, if it does. Silence at the end is not
sung. -/
def withFinalCoda (line : Nat) (e : Engine) : Except Fault (List Mora) :=
  match e.carried with
  | some (.coda text t) =>
      match e.lastKey? with
      | some key => .ok (e.morae.toList ++ [Mora.loneConsonant text key (min t finalCodaLimit)])
      | none => .error (.misplaced line 1 text .noPrecedingNote)
  | some (.silence _) | none => .ok e.morae.toList

def finish (σ : Settings) (line : Nat) (e : Engine) : Except Fault (List Mora) :=
  match close σ line e with
  | .error f _ => .error f
  | .ok _ e => (withFinalCoda line e).map refrain

end Engine

end SungScore
