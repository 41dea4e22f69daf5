import SungScore.Text

set_option autoImplicit false

/-!
# Faults

A fault is the reason why a score, a setting or a configuration is refused. It says where
the reason lies and which one it is. What the reasons mean is said by their wording, which is
given in one place, by `Fault.message`.
-/

namespace SungScore

/-! ## Causes -/

/-- What is wrong with the arrangement of tokens that are fine by themselves. -/
inductive Misplacement
  | octaveOutOfRange
  | nestedGroup
  | unopenedGroup
  | emptyGroup
  | unclosedGroup
  | noNote
  | onlyRests
  | noSyllable
  | soundAfterRest
  | tieWithoutNote
  | ticksOverflow
  | noPitch
  | noPrecedingNote
deriving DecidableEq

/-- What is wrong with a pragma. -/
inductive PragmaCause
  | malformed
  | notInteger
  | notPositive
  | tooFast
  | outOfRange
  | negative
  | unknown
deriving DecidableEq

/-- What is wrong with a configuration. It is `document` if nothing could be read from it at
all. -/
inductive ConfigCause
  | document
  | unreadable (name reason : Text)
  | tickUnitAndTempo
  | zeroTickUnit
  | tempoWithoutTicks (tempo : UInt32)
  | invertedKeys (lowest highest : Int)
deriving DecidableEq

/-- Why a score or a configuration is refused. Lines and columns count from one. -/
inductive Fault
  | unrecognizable (line column : Nat) (text : Text)
  | misplaced (line column : Nat) (text : Text) (cause : Misplacement)
  | pragma (line : Nat) (text : Text) (cause : PragmaCause)
  | config (cause : ConfigCause)
deriving DecidableEq

/-! ## Wording -/

def Misplacement.message : Misplacement → String
  | octaveOutOfRange => "octave out of range"
  | nestedGroup => "nested parentheses are not supported"
  | unopenedGroup => "unbalanced right parenthesis"
  | emptyGroup => "empty parentheses"
  | unclosedGroup => "unclosed parenthesis"
  | noNote => "no note for syllable"
  | onlyRests => "syllable has only rests"
  | noSyllable => "note has no syllable to be sung on"
  | soundAfterRest => "tacet should be placed at the end of a syllable"
  | tieWithoutNote => "repeat has no preceding note in its syllable"
  | ticksOverflow => "tick count overflows"
  | noPitch => "note has no pitch to resolve"
  | noPrecedingNote => "consonant has no preceding note"

def PragmaCause.message : PragmaCause → String
  | malformed => "expected '# <name> <integer>'"
  | notInteger => "value is not an integer"
  | notPositive => "value must be a positive integer"
  | tooFast => "tempo is too fast for one tick per beat"
  | outOfRange => "value is out of range"
  | negative => "value must not be negative"
  | unknown => "unknown pragma"

/-- A natural number inside a message. -/
def natText (n : Nat) : String := String.ofList (Decimal.ofNat n)

/-- An integer inside a message. -/
def intText (n : Int) : String := String.ofList (Decimal.ofInt n)

def ConfigCause.message : ConfigCause → String
  | document => "the document is not a mapping of settings"
  | unreadable name reason =>
      "cannot read '" ++ String.ofList name ++ "': " ++ String.ofList reason
  | tickUnitAndTempo => "tick_unit and tempo cannot both be set"
  | zeroTickUnit => "tick_unit must be positive"
  | tempoWithoutTicks tempo => "tempo " ++ natText tempo.toNat ++ " gives no ticks per beat"
  | invertedKeys lowest highest =>
      "lowest_key (" ++ intText lowest ++ ") is above highest_key (" ++ intText highest ++ ")"

/-- The wording of a fault: its place, what stands there and what is wrong with it. -/
def Fault.message : Fault → String
  | unrecognizable line column text =>
      "L" ++ natText line ++ ":" ++ natText column ++ ": '" ++ String.ofList text
        ++ "' unrecognizable"
  | misplaced line column text cause =>
      "L" ++ natText line ++ ":" ++ natText column ++ ": '" ++ String.ofList text ++ "' "
        ++ cause.message
  | pragma line text cause =>
      "L" ++ natText line ++ ": invalid pragma '" ++ String.ofList text ++ "': " ++ cause.message
  | config cause => "Invalid configuration: " ++ cause.message

end SungScore
