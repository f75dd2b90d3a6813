import ChainLint.FileTree
import ChainLint.Glob
import ChainLint.Sorted

/-!
# ChainLint.Discovery

Which files are checked.

* `isSource`: names that end in `.py` or `.pyw`.
* `isExcluded`: a pattern matches the file, or leaves out a directory on the way to it.
* `findFiles`: a source file stands for itself, a directory for the source files below it, in the
  order of their paths.
-/

namespace ChainLint
namespace Discovery

def isSource (name : String) : Bool := Text.endsWith name ".py" || Text.endsWith name ".pyw"

/-- Directories that hold no code of the project. -/
def ignoredDirectories : List String :=
  ["node_modules", ".git", ".venv", "venv", "__pycache__", ".tox", "build", "dist"]

def ignorePattern (directory : String) : String := "**/" ++ directory ++ "/**"

def patterns (exclude : List String) : List Glob :=
  (ignoredDirectories.map ignorePattern ++ exclude).flatMap Glob.parse

def isHidden (name : String) : Bool := Text.startsWith name "."

/-- The directories on the way to a relative path. -/
def directories (path : Path.Parts) : List Path.Parts :=
  (FileTree.ancestors path).filter (fun p => !p.isEmpty)

def isExcluded (globs : List Glob) (path : Path.Parts) : Bool :=
  globs.any (fun g => g.covers path || (g.prunes && (directories path).any g.covers))

/-- A file below the checked directory, given by its relative path, is checked. -/
def isChecked (globs : List Glob) (path : Path.Parts) : Bool :=
  (path.getLast?.any isSource) && !path.any isHidden && !isExcluded globs path

/-- Paths of the files to check for a target. A directory that is missing holds none. -/
def findFiles (t : FileTree) (target : Path.Parts) (exclude : List String) :
    Except FileError (List Path.Parts) :=
  if isSource (Path.toText target) then .ok [target]
  else if t.isFile target || t.leadsThroughFile target then
    .error (.notDirectory "scandir" (Path.toText target))
  else
    let files := (t.filesBelow target).filter (isChecked (patterns exclude))
    .ok (sortBy (fun a b => Text.le (Path.toText a) (Path.toText b)) (files.map (target ++ ·)))

end Discovery
end ChainLint
