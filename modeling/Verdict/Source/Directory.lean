/-! # Directories

What is found from a directory by a path. The names in a path are divided by slashes; `.` stays where
it is and `..` goes up. Of what is above the directory nothing is known but that it is a directory
too. -/

namespace Verdict

/-- What a path leads to. -/
inductive Entry where
  | file (text : List Char)
  | directory
deriving DecidableEq, Repr

/-- Why a path leads nowhere. -/
inductive PathError where
  | missing
  /-- The path goes on behind a file. -/
  | notDirectory
  | nameTooLong
  /-- The path has a character that ends texts. -/
  | invalid
deriving DecidableEq, Repr

def PathError.message : PathError → String
  | missing => "no such file or directory"
  | notDirectory => "not a directory"
  | nameTooLong => "file name too long"
  | invalid => "invalid argument"

/-- Why a file cannot be read. -/
inductive FileError where
  | path (e : PathError)
  | directory
  | denied
deriving DecidableEq, Repr

def FileError.message (name : String) : FileError → String
  | path e => "open " ++ name ++ ": " ++ e.message
  | directory => "read " ++ name ++ ": is a directory"
  | denied => "open " ++ name ++ ": permission denied"

/-- A directory: the files in and below it, each with the names that lead to it. -/
structure Directory where
  files : List (List String × List Char)
deriving DecidableEq, Repr

/-- A place in or above a directory. -/
inductive Position where
  | above
  /-- Where some names lead to. -/
  | at (names : List String)
deriving DecidableEq, Repr

/-- The place one level higher. -/
def Position.parent : Position → Position
  | above => above
  | .at [] => above
  | .at names => .at names.dropLast

namespace Directory

/-- The names in a path. A slash at its end says that it leads to a directory. -/
def names (path : String) : List String :=
  (path.splitOn "/").filter (· ≠ "") ++ if path.toList.getLast? = some '/' then ["."] else []

/-- The directory with some files, given by their paths. -/
def ofFiles (files : List (String × String)) : Directory :=
  ⟨files.map fun (path, text) => (names path, text.toList)⟩

/-- What some names lead to. -/
def entry? (d : Directory) (names : List String) : Option Entry :=
  match d.files.find? fun f => f.1 == names with
  | some f => some (.file f.2)
  | none =>
    if names.isEmpty || d.files.any fun f => names.isPrefixOf f.1 then some .directory else none

/-- What is at a place. -/
def entryAt (d : Directory) : Position → Option Entry
  | .above => some .directory
  | .at names => d.entry? names

/-- The greatest number of bytes in a name. -/
def nameLimit : Nat := 255

/-- The greatest number of bytes in a path. -/
def pathLimit : Nat := 4095

/-- The place with a name in the directory at another place. -/
def enter (d : Directory) (name : String) : Position → Except PathError Position
  | .above => .error .missing
  | .at names =>
    if (d.entry? (names ++ [name])).isSome then .ok (.at (names ++ [name])) else .error .missing

/-- Goes on from a place by one name. -/
def step (d : Directory) (p : Position) (name : String) : Except PathError Position :=
  match d.entryAt p with
  | none => .error .missing
  | some (.file _) => .error .notDirectory
  | some .directory =>
    if name = "." then .ok p
    else if name = ".." then .ok p.parent
    else if name.utf8ByteSize > nameLimit then .error .nameTooLong
    else d.enter name p

/-- Goes on from a place by some names. -/
def walk (d : Directory) (p : Position) : List String → Except PathError Position
  | [] => .ok p
  | name :: names => do walk d (← d.step p name) names

/-- What a path leads to. -/
def find (d : Directory) (path : String) : Except PathError Entry := do
  if path.toList.contains '\x00' then throw .invalid
  if path = "" then throw .missing
  if path.utf8ByteSize > pathLimit then throw .nameTooLong
  let start := if path.toList.head? = some '/' then .above else .at []
  match d.entryAt (← d.walk start (names path)) with
  | some e => return e
  | none => throw .missing

/-- Reads the file that a path leads to. -/
def read (d : Directory) (path : String) : Except FileError (List Char) :=
  match d.find path with
  | .error e => .error (.path e)
  | .ok .directory => .error .directory
  | .ok (.file text) => .ok text

end Directory

end Verdict
