import SungScore.Note
import SungScore.Syllable

set_option autoImplicit false

/-!
# Morae

A mora is the unit that is played: a consonant and a vowel on one key, for some ticks. The
first ticks may be silent and the last ones belong to the consonant; the vowel sounds in
between.

A mora is refrained when the key changes after it: it loses its last tick and its pitch is
held flat, so that the next key is attacked and not approached in a glide.

For the synthesizer a mora is written as one line of nine fields with commas between them:
attenuation, consonant, breath, vowel, pitch, and the four numbers of ticks and tenseness.
-/

namespace SungScore

/-- A unit to be played, with the digits of its breath. It lasts `tick` ticks, of which the first
`onTick` are silent and the last `offTick` belong to the consonant. The bends of its pitch have
forty-four ticks each. -/
structure Mora where
  attenuation : Int := 0
  consonant : Text := []
  breath : Text := []
  vowel : Text := []
  key : Int := 0
  tick : Ticks := 0
  onTick : Ticks := 0
  offTick : Ticks := 0
  tenseness : Int := 0
  bends : List Int := []
deriving DecidableEq

namespace Mora

def vowelTick (m : Mora) : Int := (m.tick.toNat : Int) - m.onTick.toNat - m.offTick.toNat

def breathTag (m : Mora) : Text := Breath.tag m.breath

/-- Bends, with semicolons between them. -/
def bendsText : List Int → Text
  | [] => []
  | [b] => Decimal.ofInt b
  | b :: bs => Decimal.ofInt b ++ [';'] ++ bendsText bs

/-- The pitch of the mora: the name of its key and its bends, if there are any. -/
def pitchName (m : Mora) : Text :=
  if m.bends.isEmpty then keyName m.key else keyName m.key ++ ['['] ++ bendsText m.bends ++ [']']

/-- A consonant that is sung by itself, on the key of the mora before it. -/
def loneConsonant (text : Text) (key : Int) (tick : Ticks) : Mora :=
  { consonant := text, key, tick, offTick := tick.pred }

/-! ## The refrain -/

/-- The number of bends that cover a duration. -/
def bendCount (tick : Ticks) : Nat := (tick.toNat + 43) / 44

def refrained (m : Mora) : Mora :=
  { m with tick := m.tick.pred, bends := List.replicate (bendCount m.tick) 0 }

end Mora

/-- The morae with each one refrained that stands before a mora of another key. -/
def refrain : List Mora → List Mora
  | [] => []
  | [m] => [m]
  | m :: next :: later =>
      (if next.key = m.key then m else m.refrained) :: refrain (next :: later)

/-! ## Records -/

namespace Record

def fields (m : Mora) : List Text :=
  [Decimal.ofInt m.attenuation, m.consonant, m.breathTag, m.vowel, m.pitchName,
    Decimal.ofNat m.tick.toNat, Decimal.ofNat m.onTick.toNat, Decimal.ofNat m.offTick.toNat,
    Decimal.ofInt m.tenseness]

def separate : List Text → Text
  | [] => []
  | [f] => f
  | f :: fs => f ++ [','] ++ separate fs

def ofMora (m : Mora) : Text := separate (fields m)

/-- The records of morae, each on a line of its own. -/
def ofMorae : List Mora → Text
  | [] => []
  | m :: ms => ofMora m ++ ['\n'] ++ ofMorae ms

end Record

end SungScore
