import SungScore.CommandLine.Directory
import SungScore.Score

set_option autoImplicit false

/-!
# The course of the command

The command compiles a score, from a file or the standard input, and writes the morae, to a
file or the standard output. All that can fail comes before the single step that writes.

The command runs in any monad that gives access to files, and with any `Toolkit`. So it is not
said here how arguments are taken apart and how the options are described, how a configuration
is read, and how morae are written as a document.
-/

namespace SungScore.CommandLine

/-! ## Options -/

inductive Switch
  | config | format | output | help
deriving DecidableEq

namespace Switch

/-- All options, in the order in which they are described. -/
def all : List Switch := [config, format, output, help]

def long : Switch → Text
  | config => "config".toList
  | format => "format".toList
  | output => "output".toList
  | help => "help".toList

def short : Switch → Char
  | config => 'c'
  | format => 'f'
  | output => 'o'
  | help => 'h'

/-- The name of the value of an option, if it has one. -/
def hint? : Switch → Option Text
  | config => some "CONFIG".toList
  | format => some "FORMAT".toList
  | output => some "OUTPUT".toList
  | help => none

def description : Switch → Text
  | config => "YAML file with initial settings".toList
  | format => "output format: records (default) or yaml".toList
  | output => "write to OUTPUT instead of stdout".toList
  | help => "print this help".toList

end Switch

/-- The options and free arguments that are given, in their order. An option without a value
has an empty one. -/
structure Arguments where
  options : List (Switch × Text) := []
  free : List Text := []
deriving DecidableEq

def Arguments.value? (a : Arguments) (o : Switch) : Option Text := a.options.lookup o

/-! ## The toolkit -/

/-- What the command is made with. `parse` takes the arguments apart, or says why it refuses
them. `describe` puts the description of all options behind a title. `dump` writes morae as a
document, or says why it cannot. -/
structure Toolkit where
  parse : List Text → Except Text Arguments
  describe : Text → Text
  readConfig : Config.Reader
  dump : List Mora → Except Text Text

/-- The description of the command and its options. -/
def Toolkit.usage (t : Toolkit) : Text := t.describe "Usage: morae [options] [INPUT]".toList

/-! ## What is asked for -/

inductive Format
  | records | yaml
deriving DecidableEq

/-- The form with a name; without a name it is the records. -/
def Format.ofName? : Option Text → Except Text Format
  | none => .ok .records
  | some name =>
      if name = "records".toList then .ok .records
      else if name = "yaml".toList then .ok .yaml
      else .error name

/-- A score to be compiled: where it comes from, where its morae go and in which form, and the
configuration for it. -/
structure Job where
  input : Option Text
  output : Option Text
  config : Option Text
  format : Format
deriving DecidableEq

inductive Request
  | help
  | job (job : Job)
deriving DecidableEq

/-! ## Failures -/

/-- Why the command fails. A fault is one of the configuration or of the score. -/
inductive Failure
  | options (reason : Text)
  | unknownFormat (name : Text)
  | tooManyInputs (usage : Text)
  | fault (fault : Fault)
  | unreadable (name reason : Text)
  | unreadableInput (reason : Text)
  | unserializable (reason : Text)
  | unwritable (name reason : Text)
deriving DecidableEq

def Failure.message : Failure → String
  | options reason => String.ofList reason
  | unknownFormat name => "unknown format '" ++ String.ofList name ++ "'"
  | tooManyInputs usage => String.ofList usage
  | fault f => f.message
  | unreadable name reason =>
      "Error reading file '" ++ String.ofList name ++ "': " ++ String.ofList reason
  | unreadableInput reason => "Error reading standard input: " ++ String.ofList reason
  | unserializable reason => "Error serializing morae: " ++ String.ofList reason
  | unwritable name reason =>
      "Error writing to '" ++ String.ofList name ++ "': " ++ String.ofList reason

/-- What the command leaves behind, files apart. -/
structure Outcome where
  exit : Nat
  output : Text
  errors : Text
deriving DecidableEq

/-- The outcome of a success with something on the standard output, or of a failure. -/
def Outcome.of : Except Failure Text → Outcome
  | .ok text => { exit := 0, output := text, errors := [] }
  | .error e =>
      { exit := 1, output := [], errors := ("Compilation error: " ++ e.message ++ "\n").toList }

/-! ## Doing it -/

/-- What the arguments ask for. Help goes before all else, and the form before the number of
free arguments. -/
def Request.read (t : Toolkit) (args : List Text) : Except Failure Request :=
  match t.parse args with
  | .error reason => .error (.options reason)
  | .ok a =>
      if (a.value? .help).isSome then .ok .help
      else
        match Format.ofName? (a.value? .format) with
        | .error name => .error (.unknownFormat name)
        | .ok format =>
            if 1 < a.free.length then .error (.tooManyInputs t.usage)
            else
              .ok (.job {
                input := a.free.head?
                output := a.value? .output
                config := a.value? .config
                format })

/-- The text of morae in a form. -/
def Format.write (t : Toolkit) (ms : List Mora) : Format → Except Failure Text
  | .records => .ok (Record.ofMorae ms)
  | .yaml => (t.dump ms).mapError .unserializable

section

variable {m : Type → Type} [Monad m] (t : Toolkit) (files : Access m)

def Job.settings (j : Job) : m (Except Failure Settings) :=
  match j.config with
  | none => pure (.ok {})
  | some name => do
      match ← files.read name with
      | .error reason => return .error (.fault (.config (.unreadable name reason)))
      | .ok document => return (Settings.ofDocument t.readConfig document).mapError .fault

def Job.source (j : Job) : m (Except Failure Text) :=
  match j.input with
  | none => do
      match ← files.input with
      | .error reason => return .error (.unreadableInput reason)
      | .ok source => return .ok source
  | some name => do
      match ← files.read name with
      | .error reason => return .error (.unreadable name reason)
      | .ok source => return .ok source

def Job.result (j : Job) : m (Except Failure Text) := do
  match ← j.settings t files with
  | .error e => return .error e
  | .ok σ =>
      match ← j.source files with
      | .error e => return .error e
      | .ok source =>
          match compile σ source with
          | .error f => return .error (.fault f)
          | .ok ms => return j.format.write t ms

/-- Does a job and gives what goes to the standard output. -/
def Job.perform (j : Job) : m (Except Failure Text) := do
  match ← j.result t files with
  | .error e => return .error e
  | .ok text =>
      match j.output with
      | none => return .ok text
      | some name =>
          match ← files.write name text with
          | .error reason => return .error (.unwritable name reason)
          | .ok _ => return .ok []

/-- Runs the command with its arguments. -/
def Toolkit.run (args : List Text) : m Outcome :=
  match Request.read t args with
  | .error e => pure (.of (.error e))
  | .ok .help => pure (.of (.ok t.usage))
  | .ok (.job j) => do return .of (← j.perform t files)

end

end SungScore.CommandLine
