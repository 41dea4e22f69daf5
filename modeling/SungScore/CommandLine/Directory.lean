import SungScore.Text

set_option autoImplicit false

/-!
# Files in a directory

Files are reached through `Access`: reading and writing by name, and reading the standard
input. A `Directory` is a set of files held in memory, most of them under the directory at
hand; it gives the access that the command line is tested with, and about which statements are
proved. Of what lies outside of it only the directories above are known to be there.

A path is a text of components with slashes between them. It is followed component by
component, from the root of all directories or from the directory at hand. A point stays
where it is and two points go up. Lengths are bounded in bytes: a component has no more than
255 and a path no more than 4095.
-/

namespace SungScore.CommandLine

/-! ## Why a file cannot be reached -/

inductive FileFault
  | missing
  | isDirectory
  | notDirectory
  | nameTooLong
deriving DecidableEq

def FileFault.reason : FileFault → Text
  | missing => "No such file or directory (os error 2)".toList
  | isDirectory => "Is a directory (os error 21)".toList
  | notDirectory => "Not a directory (os error 20)".toList
  | nameTooLong => "File name too long (os error 36)".toList

/-! ## The parts of a path -/

def splitAtSlashes : Text → List Text
  | [] => [[]]
  | '/' :: s => [] :: splitAtSlashes s
  | c :: s =>
      match splitAtSlashes s with
      | [] => [[c]]
      | first :: more => (c :: first) :: more

/-- The components of a path. Slashes side by side count as one. -/
def components (path : Text) : List Text := (splitAtSlashes path).filter (fun c => !c.isEmpty)

def isAbsolute (path : Text) : Bool := path.head? == some '/'

/-- Whether a path ends in a slash, as only that of a directory may. -/
def isOpen (path : Text) : Bool := path.getLast? == some '/'

def byteCount (s : Text) : Nat := s.foldr (fun c n => c.utf8Size + n) 0

def checkPath (path : Text) : Except FileFault Unit :=
  if path.isEmpty then .error .missing
  else if 4095 < byteCount path then .error .nameTooLong
  else .ok ()

/-! ## Places -/

/-- A directory from which names lead down: the one that lies a number of levels above the
directory at hand, or the root. -/
inductive Origin
  | above (levels : Nat)
  | root
deriving DecidableEq

/-- The directory above an origin. The root is above itself. -/
def Origin.up : Origin → Origin
  | above levels => above (levels + 1)
  | root => root

/-- A place in the tree of files: the names that lead there from an origin. -/
structure Place where
  origin : Origin := .above 0
  names : List Text := []
deriving DecidableEq

def Place.start (path : Text) : Place :=
  if isAbsolute path then { origin := .root } else {}

def Place.enter (p : Place) (component : Text) : Place :=
  if component = ['.'] then p
  else if component = ['.', '.'] then
    if p.names.isEmpty then { p with origin := p.origin.up }
    else { p with names := p.names.dropLast }
  else { p with names := p.names ++ [component] }

/-! ## Access to files -/

/-- Reading and writing files by name, and reading the standard input to its end, in a monad. A
failing operation gives its reason. -/
structure Access (m : Type → Type) where
  read : Text → m (Except Text Text)
  write : Text → Text → m (Except Text Unit)
  input : m (Except Text Text)

/-! ## Directories in memory -/

structure Directory where
  files : List (Place × Text) := []
deriving DecidableEq

namespace Directory

inductive Found
  | file (content : Text)
  | directory
  | nothing
deriving DecidableEq

/-- What is at a place in the tree. A directory is there where a file is below it. -/
def look (d : Directory) (p : Place) : Found :=
  match d.files.lookup p with
  | some content => .file content
  | none =>
      let isAbove := fun (f : Place × Text) =>
        p.origin == f.1.origin && p.names.isPrefixOf f.1.names
      if p.names.isEmpty || d.files.any isAbove then .directory else .nothing

def checkDirectory (d : Directory) (p : Place) : Except FileFault Unit :=
  match d.look p with
  | .directory => .ok ()
  | .file _ => .error .notDirectory
  | .nothing => .error .missing

/-- Follows the components of a path from a place. Each but the last must lead to a
directory. -/
def follow (d : Directory) (p : Place) : List Text → Except FileFault Place
  | [] => .ok p
  | c :: cs =>
      match d.checkDirectory p with
      | .error e => .error e
      | .ok _ => if 255 < byteCount c then .error .nameTooLong else d.follow (p.enter c) cs

def read (d : Directory) (path : Text) : Except FileFault Text := do
  checkPath path
  let p ← d.follow (.start path) (components path)
  match d.look p with
  | .file content => if isOpen path then .error .notDirectory else .ok content
  | .directory => .error .isDirectory
  | .nothing => .error .missing

def put (p : Place) (content : Text) : List (Place × Text) → List (Place × Text)
  | [] => [(p, content)]
  | f :: fs => if f.1 = p then (p, content) :: fs else f :: put p content fs

/-- The directory after a text was written to a path. A path that ends in a slash is taken for
that of a directory, whether there is one or not. -/
def write (d : Directory) (path content : Text) : Except FileFault Directory := do
  checkPath path
  if isOpen path then
    let p ← d.follow (.start path) (components path).dropLast
    d.checkDirectory p
    .error .isDirectory
  else
    let p ← d.follow (.start path) (components path)
    if d.look p = .directory then .error .isDirectory
    else .ok { files := put p content d.files }

/-- The directory with the given files, whose names are paths below it. -/
def ofFiles (files : List (Text × Text)) : Directory :=
  { files := files.map (fun f => ((components f.1).foldl Place.enter {}, f.2)) }

/-- The access to the files of a directory, with a text as the standard input. -/
def access (input : Text) : Access (StateM Directory) where
  read path := fun d => (match d.read path with
    | .ok content => .ok content
    | .error e => .error e.reason, d)
  write path content := fun d =>
    match d.write path content with
    | .ok d' => (.ok (), d')
    | .error e => (.error e.reason, d)
  input := pure (.ok input)

end Directory

end SungScore.CommandLine
