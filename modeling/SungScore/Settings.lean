import SungScore.Fault

set_option autoImplicit false

/-!
# Settings

The settings in effect while a score is read: how long a beat is, which octave a pitch belongs
to, and how keys and codas are bounded. They start from their defaults or from a configuration.
Pragmas and the octave commands of a melody change them.

* A pragma is a line `# name value` that changes one setting (`Change.read`).
* A configuration gives values to some of the settings. It is valid if it sets the length of a
  beat only once and to something, and if its range of keys is not inverted; then the settings
  it does not name have their defaults (`Config.settings`). It is written as a document, and how
  such documents are read is left to a `Config.Reader`.

The numbers of a score are kept in thirty-two bits: counts of ticks without a sign, octaves and
keys with one. Counts are `UInt32`, so that an addition nobody guards wraps around; numbers with
a sign are `Int`, and what is read into them passes `signed?` first.
-/

namespace SungScore

/-! ## Bounded numbers -/

/-- The integers of thirty-two bits with a sign. Those without one are given by `unsigned?`. -/
def signed? (n : Int) : Option Int :=
  if -2147483648 ≤ n ∧ n ≤ 2147483647 then some n else none

def unsigned? (n : Int) : Option UInt32 :=
  if 0 ≤ n ∧ n ≤ 4294967295 then some (UInt32.ofNat n.toNat) else none

/-- A number of ticks, the unit of time. -/
abbrev Ticks := UInt32

def Ticks.add? (a b : Ticks) : Option Ticks :=
  if a.toNat + b.toNat < 4294967296 then some (a + b) else none

/-- One tick less, but never less than none. -/
def Ticks.pred (a : Ticks) : Ticks := if a = 0 then 0 else a - 1

/-! ## Settings -/

/-- The settings of a score, with their defaults. A beat has `tickUnit` ticks, and no more than
`maximalSuffix` ticks are kept for a coda. -/
structure Settings where
  tickUnit : Ticks := 220
  octave : Int := 4
  lowestKey : Int := 0
  highestKey : Int := 127
  maximalSuffix : Ticks := 110
  transpose : Int := 0
deriving DecidableEq

/-- The key of the configured range that is nearest to the given one. -/
def Settings.clampKey (σ : Settings) (key : Int) : Int :=
  max σ.lowestKey (min σ.highestKey key)

/-- The ticks of one beat at a tempo in beats per minute: `26400 / tempo` rounded to the
nearest integer, halves upward. There are none at tempo zero, and none where the quotient
rounds to zero. -/
def tickUnitOfTempo? (tempo : UInt32) : Option Ticks :=
  if tempo = 0 then none
  else
    let ticks := (52800 + tempo.toNat) / (2 * tempo.toNat)
    if ticks = 0 then none else some (UInt32.ofNat ticks)

/-! ## Changes -/

inductive Change
  | tickUnit (ticks : Ticks)
  | octave (number : Int)
  | transpose (semitones : Int)
  | maximalSuffix (ticks : Ticks)
deriving DecidableEq

def Settings.apply (σ : Settings) : Change → Settings
  | .tickUnit ticks => { σ with tickUnit := ticks }
  | .octave number => { σ with octave := number }
  | .transpose semitones => { σ with transpose := semitones }
  | .maximalSuffix ticks => { σ with maximalSuffix := ticks }

namespace Change

def positive (value : Int) : Except PragmaCause UInt32 :=
  match unsigned? value with
  | some n => if n = 0 then .error .notPositive else .ok n
  | none => .error .notPositive

def signed (value : Int) : Except PragmaCause Int :=
  match signed? value with
  | some n => .ok n
  | none => .error .outOfRange

/-- The change that a name and a value ask for. -/
def ofSetting (name : Text) (value : Int) : Except PragmaCause Change :=
  if name = "tick_unit".toList then (positive value).map .tickUnit
  else if name = "tempo".toList then
    match positive value with
    | .error cause => .error cause
    | .ok tempo =>
        match tickUnitOfTempo? tempo with
        | some ticks => .ok (.tickUnit ticks)
        | none => .error .tooFast
  else if name = "octave".toList then (signed value).map .octave
  else if name = "transpose".toList then (signed value).map .transpose
  else if name = "maximal_suffix".toList then
    match unsigned? value with
    | some ticks => .ok (.maximalSuffix ticks)
    | none => .error .negative
  else .error .unknown

/-- The integer of sixty-four bits that a text denotes. -/
def value? (s : Text) : Option Int :=
  (Decimal.int? s).filter (fun n => -9223372036854775808 ≤ n ∧ n ≤ 9223372036854775807)

def read (text : Text) : Except PragmaCause Change :=
  match text.words with
  | [mark, name, value] =>
      if mark.text = ['#'] then
        match value? value.text with
        | some n => ofSetting name.text n
        | none => .error .notInteger
      else .error .malformed
  | _ => .error .malformed

end Change

/-! ## Configurations -/

/-- The values that a configuration gives. The length of a beat is set in ticks or by a
tempo. -/
structure Config where
  tickUnit : Option Ticks := none
  tempo : Option UInt32 := none
  octave : Option Int := none
  lowestKey : Option Int := none
  highestKey : Option Int := none
  maximalSuffix : Option Ticks := none
  transpose : Option Int := none
deriving DecidableEq

namespace Config

def beat (c : Config) : Except ConfigCause Ticks :=
  match c.tickUnit, c.tempo with
  | some _, some _ => .error .tickUnitAndTempo
  | some ticks, none => if ticks = 0 then .error .zeroTickUnit else .ok ticks
  | none, some tempo =>
      match tickUnitOfTempo? tempo with
      | some ticks => .ok ticks
      | none => .error (.tempoWithoutTicks tempo)
  | none, none => .ok ({} : Settings).tickUnit

/-- The settings of a configuration, if it is valid. -/
def settings (c : Config) : Except ConfigCause Settings :=
  match c.beat with
  | .error cause => .error cause
  | .ok tickUnit =>
      let σ : Settings := {}
      let lowestKey := c.lowestKey.getD σ.lowestKey
      let highestKey := c.highestKey.getD σ.highestKey
      if highestKey < lowestKey then .error (.invertedKeys lowestKey highestKey)
      else
        .ok {
          tickUnit
          octave := c.octave.getD σ.octave
          lowestKey
          highestKey
          maximalSuffix := c.maximalSuffix.getD σ.maximalSuffix
          transpose := c.transpose.getD σ.transpose }

/-- A way of reading documents that are not blank. -/
abbrev Reader := Text → Except ConfigCause Config

/-- The configuration in a document. A blank one sets nothing, and is not given to the
reader. -/
def ofDocument (reader : Reader) (document : Text) : Except ConfigCause Config :=
  if document.allBlank then .ok {} else reader document

end Config

def Settings.ofDocument (reader : Config.Reader) (document : Text) : Except Fault Settings :=
  match Config.ofDocument reader document with
  | .error cause => .error (.config cause)
  | .ok c => c.settings.mapError .config

end SungScore
