import SungScore.CommandLine.Job
import SungScore.Yaml.Dump
import SungScore.Yaml.Mapping

set_option autoImplicit false

/-!
# The command line

`Toolkit.standard` is the toolkit that the command is made with here. Configurations and the
morae of the other form are documents in YAML.

The arguments of a command are options and free arguments, in any order. An option has a long
name behind two dashes and a short name behind one; several short names can share a dash. Its
value stands behind the name in the same argument, after an equals sign if the name is long,
or else it is the whole next argument. Two dashes alone end the options. Faults are found in the
order of the arguments, and options given twice are looked for after that.
-/

namespace SungScore

/-- The settings that the text of a configuration gives. -/
def Settings.configured (document : Text) : Except Fault Settings :=
  Settings.ofDocument Yaml.readConfig document

namespace CommandLine

/-! ## Names of options -/

namespace Switch

def hasValue (o : Switch) : Bool := o.hint?.isSome

def ofShort? (c : Char) : Option Switch := all.find? (fun o => o.short == c)

/-- The option with a name behind two dashes. A name of one character is a short one there
too. -/
def ofName? : Text → Option Switch
  | [c] => ofShort? c
  | name => all.find? (fun o => o.long == name)

/-- The line that describes an option: its names and the name of its value, and what it is for
from the same column on for all. -/
def line (o : Switch) : Text :=
  let names :=
    "    -".toList ++ [o.short] ++ ", --".toList ++ o.long ++ o.hint?.elim [] (' ' :: ·)
  names ++ List.replicate (24 - names.length) ' ' ++ o.description ++ ['\n']

end Switch

/-- A title and the description of all options. -/
def optionTable (title : Text) : Text :=
  title ++ "\n\nOptions:\n".toList ++ Switch.all.flatMap Switch.line

/-! ## Faults -/

/-- Why arguments are refused. Names are given as they are written, but the long name where an
option is repeated. -/
inductive OptionFault
  | unrecognized (name : Text)
  | missingValue (name : Text)
  | unexpectedValue (name : Text)
  | repeated (name : Text)
deriving DecidableEq

def OptionFault.message : OptionFault → Text
  | unrecognized name => "Unrecognized option: '".toList ++ name ++ "'".toList
  | missingValue name => "Argument to option '".toList ++ name ++ "' missing".toList
  | unexpectedValue name => "Option '".toList ++ name ++ "' does not take an argument".toList
  | repeated name => "Option '".toList ++ name ++ "' given more than once".toList

/-! ## Reading arguments -/

/-- What an argument says that holds options: those it gives in full, and one that waits for
its value in the next argument, with its name. -/
structure OptionText where
  given : List (Switch × Text) := []
  waiting : Option (Switch × Text) := none

/-- Options with short names behind one dash. The first one with a value takes all that
follows. -/
def readShort : Text → Except OptionFault OptionText
  | [] => .ok {}
  | c :: s =>
      match Switch.ofShort? c with
      | none => .error (.unrecognized [c])
      | some o =>
          if o.hasValue then
            if s.isEmpty then .ok { waiting := some (o, [c]) } else .ok { given := [(o, s)] }
          else (readShort s).map (fun t => { t with given := (o, []) :: t.given })

/-- An option with a long name, behind its two dashes. -/
def readLong (s : Text) : Except OptionFault OptionText :=
  let name := s.takeWhile (· != '=')
  match Switch.ofName? name, s.dropWhile (· != '=') with
  | none, _ => .error (.unrecognized name)
  | some o, [] =>
      if o.hasValue then .ok { waiting := some (o, name) } else .ok { given := [(o, [])] }
  | some o, _ :: value =>
      if o.hasValue then .ok { given := [(o, value)] } else .error (.unexpectedValue name)

inductive ArgumentKind
  | free
  | optionsEnd
  | longOption (s : Text)
  | shortOptions (s : Text)
deriving DecidableEq

/-- The kind of an argument by its first characters. A dash alone is no option. -/
def ArgumentKind.of : Text → ArgumentKind
  | ['-', '-'] => .optionsEnd
  | '-' :: '-' :: s => .longOption s
  | '-' :: c :: s => .shortOptions (c :: s)
  | _ => .free

def readOptions : ArgumentKind → Except OptionFault OptionText
  | .longOption s => readLong s
  | .shortOptions s => readShort s
  | .free | .optionsEnd => .ok {}

/-- Reads arguments one after another. -/
def readArguments : List Text → Except OptionFault Arguments
  | [] => .ok {}
  | arg :: args =>
      match ArgumentKind.of arg with
      | .optionsEnd => .ok { free := args }
      | .free => (readArguments args).map (fun a => { a with free := arg :: a.free })
      | kind =>
          match readOptions kind with
          | .error e => .error e
          | .ok ⟨given, none⟩ =>
              (readArguments args).map (fun a => { a with options := given ++ a.options })
          | .ok ⟨given, some (o, name)⟩ =>
              match args with
              | [] => .error (.missingValue name)
              | value :: later =>
                  (readArguments later).map
                    (fun a => { a with options := given ++ (o, value) :: a.options })

def Arguments.repeats (a : Arguments) (o : Switch) : Bool :=
  1 < a.options.countP (fun p => p.1 == o)

/-- The arguments of a command, in which no option may be repeated. -/
def Arguments.read (args : List Text) : Except OptionFault Arguments :=
  match readArguments args with
  | .error e => .error e
  | .ok a =>
      match Switch.all.find? a.repeats with
      | some o => .error (.repeated o.long)
      | none => .ok a

/-! ## The command -/

/-- The toolkit of the command. Every list of morae can be written as a document. -/
def Toolkit.standard : Toolkit where
  parse args := (Arguments.read args).mapError OptionFault.message
  describe := optionTable
  readConfig := Yaml.readConfig
  dump ms := .ok (Yaml.ofMorae ms)

/-- Runs the command with its arguments. -/
def run {m : Type → Type} [Monad m] (files : Access m) (args : List Text) : m Outcome :=
  Toolkit.standard.run files args

end CommandLine

end SungScore
