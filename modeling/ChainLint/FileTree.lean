import ChainLint.Path
import ChainLint.Table
import ChainLint.Text.Utf8

/-!
# ChainLint.FileTree

Files and directories by their absolute paths.

* `FileTree.entry?`: what is found at a path; the top directory is always there.
* `FileTree.read`: the text of a file, or why it cannot be read.
* `FileTree.filesBelow`: the files below a directory, by their paths from there.
* `FileTree.write`, `FileTree.makeDirectory`, `FileTree.remove`.
-/

namespace ChainLint

inductive Entry where
  | file (content : List UInt8)
  /-- A file that cannot be read, with what the system says. -/
  | locked (message : String)
  | directory
  deriving DecidableEq

def Entry.isFile : Entry → Bool
  | .file _ | .locked _ => true
  | .directory => false

/-- Why a path cannot be used as asked. -/
inductive FileError where
  | notFound (path : String)
  | isDirectory
  | denied (message : String)
  /-- What was attempted with a path that leads through, or to, a file. -/
  | notDirectory (action path : String)
  deriving DecidableEq

def FileError.message : FileError → String
  | .notFound path => "ENOENT: no such file or directory, open '" ++ path ++ "'"
  | .isDirectory => "EISDIR: illegal operation on a directory, read"
  | .denied message => message
  | .notDirectory action path => "ENOTDIR: not a directory, " ++ action ++ " '" ++ path ++ "'"

/-- Every path is held once. -/
structure FileTree where
  entries : Table Path.Parts Entry := []
  nodup : entries.keys.Nodup := by first | exact List.nodup_nil | decide

namespace FileTree

def entry? (t : FileTree) (p : Path.Parts) : Option Entry :=
  if p = [] then some .directory else t.entries.get? p

def contains (t : FileTree) (p : Path.Parts) : Bool := (t.entry? p).isSome

def isDirectory (t : FileTree) (p : Path.Parts) : Bool := t.entry? p = some .directory

def isFile (t : FileTree) (p : Path.Parts) : Bool := (t.entry? p).any Entry.isFile

/-- The directories on the way to a path, from the top down. -/
def ancestors (p : Path.Parts) : List Path.Parts := (List.range p.length).map (fun n => p.take n)

/-- Some directory on the way is a file. -/
def leadsThroughFile (t : FileTree) (p : Path.Parts) : Bool := (ancestors p).any t.isFile

def read (t : FileTree) (p : Path.Parts) : Except FileError String :=
  match t.entry? p with
  | some (.file content) => .ok (Text.Utf8.decode content)
  | some (.locked message) => .error (.denied message)
  | some .directory => .error .isDirectory
  | none =>
    if t.leadsThroughFile p then .error (.notDirectory "open" (Path.toText p))
    else .error (.notFound (Path.toText p))

/-- The rest of `p` below `dir`. -/
def below? (dir p : Path.Parts) : Option Path.Parts :=
  if dir.isPrefixOf p then some (p.drop dir.length) else none

/-- Paths, seen from `dir`, of the files below it. -/
def filesBelow (t : FileTree) (dir : Path.Parts) : List Path.Parts :=
  t.entries.filterMap (fun e => if e.2.isFile then below? dir e.1 else none)

def put (t : FileTree) (p : Path.Parts) (e : Entry) : FileTree :=
  ⟨Table.put p e t.entries, Table.nodup_keys_put t.nodup⟩

/-- Makes a directory where there is nothing. -/
def makeDirectory (t : FileTree) (p : Path.Parts) : FileTree :=
  if t.contains p then t else t.put p .directory

/-- Makes the directories on the way to a path. -/
def makeParents (t : FileTree) (p : Path.Parts) : FileTree :=
  (ancestors p).foldl makeDirectory t

/-- Writes a file, with the directories it needs. -/
def write (t : FileTree) (p : Path.Parts) (content : List UInt8) : FileTree :=
  (t.makeParents p).put p (.file content)

def addDirectory (t : FileTree) (p : Path.Parts) : FileTree := (t.makeParents p).makeDirectory p

def remove (t : FileTree) (p : Path.Parts) : FileTree :=
  ⟨Table.erase p t.entries, Table.nodup_keys_erase t.nodup⟩

end FileTree
end ChainLint
