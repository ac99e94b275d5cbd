/-! # Directories

A directory in memory: files by their names, and what a path denotes in it. -/

namespace TinyScript.CommandLine

/-- Why a file cannot be read. -/
inductive FileError where
  | missing
  | notDirectory
  | isDirectory
  | nameTooLong
  /-- Another reason, in the words of the system. -/
  | other (text : String)
  deriving DecidableEq, Repr, Inhabited

def FileError.message : FileError → String
  | .missing => "No such file or directory (os error 2)"
  | .notDirectory => "Not a directory (os error 20)"
  | .isDirectory => "Is a directory (os error 21)"
  | .nameTooLong => "File name too long (os error 36)"
  | .other text => text

/-- Files with their texts. -/
structure Directory where
  files : List (String × String)
  deriving DecidableEq, Repr, Inhabited

namespace Directory

/-- Whether some parts of a path lead to a directory. -/
def isDirectory (d : Directory) (parts : List String) : Bool :=
  d.files.any fun (name, _) =>
    let ps := name.splitOn "/"
    parts.length < ps.length && parts.isPrefixOf ps

/-- What a path denotes that leads out of the directory. -/
def outside (parts : List String) : FileError :=
  if parts.all (· ∈ ["", ".", ".."]) then .isDirectory else .missing

/-- The name of the file that a path denotes, from the place `here` on. -/
def resolve (d : Directory) (here : List String) : List String → Except FileError String
  | [] => .error .isDirectory
  | part :: rest =>
    if part = "" ∨ part = "." then d.resolve here rest
    else if part = ".." then
      if here.isEmpty then .error (outside rest) else d.resolve here.dropLast rest
    else if 255 < part.utf8ByteSize then .error .nameTooLong
    else
      let next := here ++ [part]
      let name := "/".intercalate next
      if d.isDirectory next then d.resolve next rest
      else if (d.files.lookup name).isNone then .error .missing
      else if rest.isEmpty then .ok name
      else .error .notDirectory

/-- The name of the file that a path denotes. -/
def nameOf (d : Directory) (path : String) : Except FileError String :=
  match path.splitOn "/" with
  | "" :: rest => .error (outside rest)
  | parts => d.resolve [] parts

/-- The text of the file that a path denotes. -/
def read (d : Directory) (path : String) : Except FileError String := do
  let name ← d.nameOf path
  match d.files.lookup name with
  | some text => .ok text
  | none => .error .missing

/-- Changes the text of the file that a path denotes. -/
def write (d : Directory) (path text : String) : Directory :=
  match d.nameOf path with
  | .ok name => ⟨d.files.map fun (n, t) => if n = name then (n, text) else (n, t)⟩
  | .error _ => d

end Directory

end TinyScript.CommandLine
