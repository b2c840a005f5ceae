import MonkeyLang.Text.Split

/-!
# Looking files up

A path leads from the working directory, or from the root of the file system, through directories
to a file.  `read` follows a path and gives the contents of the file, or the `PathProblem` that it
met; `normalize` writes a path without what does not matter for where it leads, as far as that can
be told without looking.

The working directory holds the files that are given, and the directories that their names imply.
Above it there are directories of which only the root is known to hold anything: the directories
that every system has there.
-/

namespace MonkeyLang.Files

/-- Why a path leads to no file. -/
inductive PathProblem
  | missing
  | isDirectory
  | notDirectory
  | nameTooLong
  | nulCharacter
  deriving DecidableEq

/-- The names on a path, from the first to the last; slashes in a row count as one. -/
def names (path : String) : List String :=
  ((Text.splitOn '/' path.toList).filter (!·.isEmpty)).map String.ofList

/-- The slashes that a path from the root starts with.  Two of them are kept apart from one; more
are the same as one. -/
def rootText (path : String) : String :=
  match path.toList with
  | '/' :: '/' :: '/' :: _ => "/"
  | '/' :: '/' :: _ => "//"
  | '/' :: _ => "/"
  | _ => ""

/-- The path without empty names and names for the directory they stand in. -/
def normalize (path : String) : String :=
  let text := rootText path ++ "/".intercalate ((names path).filter (· != "."))
  if text.isEmpty then "." else text

/-! ### Following a path -/

/-- A directory: one inside the working directory, by the names that lead there; the root; or one of
which nothing is known. -/
inductive Directory
  | working (path : List String)
  | root
  | elsewhere

/-- What a path leads to. -/
inductive Entry
  | directory (directory : Directory)
  | file (contents : String)

/-- The directories that every system has under its root. -/
def rootDirectories : List String :=
  ["bin", "boot", "dev", "etc", "lib", "media", "mnt", "opt", "run", "sbin", "srv", "tmp", "usr",
   "var"]

/-- The directory around a directory. -/
def Directory.parent : Directory → Directory
  | working [] => elsewhere
  | working path => working path.dropLast
  | root => root
  | elsewhere => elsewhere

/-- The greatest number of bytes in a name. -/
def maxNameBytes : Nat := 255

/-- The number of bytes with which a path is too long. -/
def maxPathBytes : Nat := 4096

/-- What a directory holds under a name. -/
def Directory.find? (files : List (String × String)) (directory : Directory) (name : String) :
    Option Entry :=
  match directory with
  | working path =>
    let target := path ++ [name]
    match files.find? fun file => names file.1 == target with
    | some file => some (.file file.2)
    | none =>
      if files.any fun file => target.isPrefixOf (names file.1) then
        some (.directory (.working target))
      else none
  | root => if rootDirectories.contains name then some (.directory .elsewhere) else none
  | elsewhere => none

/-- Follows one name from an entry. -/
def follow (files : List (String × String)) (entry : Entry) (name : String) :
    Except PathProblem Entry :=
  match entry with
  | .file _ => .error .notDirectory
  | .directory directory =>
    if name = "." then .ok entry
    else if name = ".." then .ok (.directory directory.parent)
    else if maxNameBytes < name.utf8ByteSize then .error .nameTooLong
    else
      match directory.find? files name with
      | some entry => .ok entry
      | none => .error .missing

/-- The directory that a path starts from. -/
def start (path : String) : Entry :=
  if path.toList.head? = some '/' then .directory .root else .directory (.working [])

/-- The contents of the file that a path leads to. -/
def read (files : List (String × String)) (path : String) : Except PathProblem String :=
  if path.toList.contains '\x00' then .error .nulCharacter
  else if path.isEmpty then .error .missing
  else if maxPathBytes ≤ path.utf8ByteSize then .error .nameTooLong
  else
    match (names path).foldlM (follow files) (start path) with
    | .error problem => .error problem
    | .ok (.directory _) => .error .isDirectory
    | .ok (.file contents) =>
      if path.toList.getLast? = some '/' then .error .notDirectory else .ok contents

end MonkeyLang.Files
