import EdeLang.Text.Layout

/-!
# Directories

A directory holds files by their paths. A path is followed part by part, and every part but the
last has to lead to a directory. Nothing is known of what lies outside but that there are
directories, that files can be put into them, and that none is there to be read.
-/

namespace EdeLang

/-- Why a file cannot be read or written. -/
inductive FileError where
  | notFound
  | notADirectory
  | isADirectory
  | nameTooLong
deriving DecidableEq, Repr

def FileError.message : FileError → String
  | .notFound => "No such file or directory (os error 2)"
  | .notADirectory => "Not a directory (os error 20)"
  | .isADirectory => "Is a directory (os error 21)"
  | .nameTooLong => "File name too long (os error 36)"

/-- Files with their contents. -/
structure Directory where
  files : List (String × Array UInt8)

namespace Directory

/-- The parts of a path that lead somewhere. -/
def parts (path : String) : List String :=
  (path.splitOn "/").filter fun part => part ≠ "" ∧ part ≠ "."

/-- The file with the given parts. -/
def find? (d : Directory) (target : List String) : Option (Array UInt8) :=
  (d.files.find? fun f => parts f.1 == target).map Prod.snd

/-- Some file lies below the path. -/
def isDirectory (d : Directory) (target : List String) : Bool :=
  target.isEmpty || d.files.any fun f => target.isPrefixOf (parts f.1) && parts f.1 != target

/-! ## Following a path -/

/-- A directory that a path goes through: one inside, given by its parts, or one outside. -/
inductive Location where
  | inside (parts : List String)
  | outside
deriving DecidableEq, Repr

def Location.parent : Location → Location
  | .inside [] => .outside
  | .inside parts => .inside parts.dropLast
  | .outside => .outside

/-- What a name stands for in a directory. -/
inductive Entry where
  | directory (location : Location)
  | file (parts : List String) (bytes : Array UInt8)
  | missing (location : Location)

/-- The most bytes of a name. -/
def longestName : Nat := 255

/-- The most bytes of a path. -/
def longestPath : Nat := 4095

/-- What a part of a path stands for in a directory. -/
def entry (d : Directory) (location : Location) (part : String) : Except FileError Entry :=
  if part = "." then .ok (.directory location)
  else if part = ".." then .ok (.directory location.parent)
  else if longestName < part.utf8ByteSize then .error .nameTooLong
  else
    match location with
    | .outside => .ok (.missing .outside)
    | .inside parts =>
      let target := parts ++ [part]
      if d.isDirectory target then .ok (.directory (.inside target))
      else
        match d.find? target with
        | some bytes => .ok (.file target bytes)
        | none => .ok (.missing location)

/-- Follows the parts of a path from a directory. -/
def follow (d : Directory) (location : Location) : List String → Except FileError Entry
  | [] => .ok (.directory location)
  | [part] => d.entry location part
  | part :: parts =>
    match d.entry location part with
    | .error e => .error e
    | .ok (.directory location) => d.follow location parts
    | .ok (.file _ _) => .error .notADirectory
    | .ok (.missing _) => .error .notFound

/-- What a path leads to. -/
def lookup (d : Directory) (path : String) : Except FileError Entry :=
  if path = "" then .error .notFound
  else if longestPath < path.utf8ByteSize then .error .nameTooLong
  else
    let start := if path.startsWith "/" then Location.outside else .inside []
    d.follow start ((path.splitOn "/").filter (· ≠ ""))

/-- The path ends in a slash, so that it can only lead to a directory. -/
def wantsDirectory (path : String) : Bool := path.endsWith "/"

/-! ## Reading and writing -/

/-- The content of the file at a path. -/
def read (d : Directory) (path : String) : Except FileError (Array UInt8) :=
  match d.lookup path with
  | .error e => .error e
  | .ok (.directory _) => .error .isADirectory
  | .ok (.file _ bytes) => if wantsDirectory path then .error .notADirectory else .ok bytes
  | .ok (.missing _) => .error .notFound

/-- Replaces the content of the file with the given parts. -/
def replace (target : List String) (bytes : Array UInt8) :
    List (String × Array UInt8) → List (String × Array UInt8)
  | [] => []
  | f :: files => (if parts f.1 == target then (f.1, bytes) else f) :: replace target bytes files

/-- Writes a file. The directory that it lies in has to be there. -/
def write (d : Directory) (path : String) (bytes : Array UInt8) : Except FileError Directory :=
  match d.lookup path with
  | .error e => .error e
  | .ok (.directory _) => .error .isADirectory
  | .ok (.file target _) =>
    if wantsDirectory path then .error .isADirectory else .ok ⟨replace target bytes d.files⟩
  | .ok (.missing location) =>
    if wantsDirectory path then .error .isADirectory
    else
      match location, (parts path).getLast? with
      | .inside above, some name =>
        .ok ⟨d.files ++ [(Text.joined "/" (above ++ [name]), bytes)]⟩
      | _, _ => .ok d

/-- The files that are new or have another content than before. -/
def changes (before after : Directory) : List (String × Array UInt8) :=
  after.files.filter fun f => before.files.lookup f.1 != some f.2

end Directory
end EdeLang
