/-!
# File trees

Files and directories as a value. A path is the list of names that lead to a place; the functions
say what becomes of the tree, or why nothing can be done.
-/

namespace PointScope

/-- Why a file cannot be read or written. -/
inductive FileFault where
  /-- There is nothing at the path. -/
  | notFound
  /-- The path leads through a file. -/
  | notADirectory
  /-- There is a directory where a file is needed. -/
  | isADirectory
  /-- There is a file where a directory is needed. -/
  | alreadyExists
  /-- The content of the file cannot be understood. -/
  | invalidData
deriving DecidableEq, Repr

/-- A file, or a directory with its entries by name. -/
inductive FileTree where
  | file (content : ByteArray)
  | directory (entries : List (String × FileTree))
deriving Inhabited

namespace FileTree

/-- An empty directory. -/
def empty : FileTree := .directory []

/-- The entries of a directory with one added or replaced. -/
def putEntry (name : String) (t : FileTree) (entries : List (String × FileTree)) :
    List (String × FileTree) :=
  (name, t) :: entries.filter fun (other, _) => other != name

/-- What there is at a path. -/
def lookup : FileTree → List String → Except FileFault FileTree
  | t, [] => .ok t
  | .file _, _ :: _ => .error .notADirectory
  | .directory entries, name :: path =>
    match entries.lookup name with
    | some t => t.lookup path
    | none => .error .notFound

/-- Reads the file at a path. -/
def read (t : FileTree) (path : List String) : Except FileFault ByteArray := do
  match ← t.lookup path with
  | .file content => return content
  | .directory _ => throw .isADirectory

/-- Makes sure that there is a directory at a path, with all directories on the way. -/
def createDirectories : FileTree → List String → Except FileFault FileTree
  | .directory entries, [] => .ok (.directory entries)
  | .file _, [] => .error .alreadyExists
  | .file _, _ :: _ => .error .notADirectory
  | .directory entries, name :: path => do
    let child ← ((entries.lookup name).getD empty).createDirectories path
    return .directory (putEntry name child entries)

/-- Writes the file at a path; the directory that it is in has to be there. -/
def write (content : ByteArray) : FileTree → List String → Except FileFault FileTree
  | .directory _, [] => .error .isADirectory
  | .file _, [] => .ok (.file content)
  | .file _, _ :: _ => .error .notADirectory
  | .directory entries, name :: path => do
    let child ← match entries.lookup name with
      | some t => t.write content path
      | none => if path.isEmpty then .ok (.file content) else .error .notFound
    return .directory (putEntry name child entries)

end FileTree

end PointScope
