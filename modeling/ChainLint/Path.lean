import ChainLint.Text.Units

/-!
# ChainLint.Path

Paths with `/` between their components. An absolute, normalised path is a list of components
without `.`, `..` and empty ones.

* `normalize`: drops `.` and empty components and lets `..` take back the one before.
* `resolve`: the absolute path that a text names, seen from a directory.
* `relative`: the way from one place to another.
* `display`: a path as it is shown, relative where that is shorter.
-/

namespace ChainLint
namespace Path

/-- Components of an absolute path. -/
abbrev Parts := List String

def isAbsolute (s : String) : Bool := Text.startsWith s "/"

def components (s : String) : List String := Text.splitAt '/' s

/-- Follows components from a place. -/
def walk (start : Parts) (cs : List String) : Parts :=
  cs.foldl (fun here c =>
    if c = "" ∨ c = "." then here
    else if c = ".." then here.dropLast
    else here ++ [c]) start

def toText (p : Parts) : String := "/" ++ Text.joinWith "/" p

/-- The place a text names, seen from the directory `base`. -/
def resolve (base : Parts) (s : String) : Parts :=
  walk (if isAbsolute s then [] else base) (components s)

/-- The way from `a` to `b`: up from what is only in `a`, then down to `b`. -/
def relativeParts : Parts → Parts → List String
  | a :: as, b :: bs =>
    if a = b then relativeParts as bs else List.replicate (as.length + 1) ".." ++ b :: bs
  | as, bs => List.replicate as.length ".." ++ bs

/-- The way from `start` to `goal`, both seen from `base`; empty when they are the same. -/
def relative (base : Parts) (start goal : String) : String :=
  Text.joinWith "/" (relativeParts (resolve base start) (resolve base goal))

/-- A path as shown to someone at `cwd`: relative to it, unless that is empty or begins with two
dots. -/
def display (base : Parts) (cwd path : String) : String :=
  let way := relative base cwd path
  if way = "" ∨ Text.startsWith way ".." then path else way

/-- The directory that holds a place. -/
def parent (p : Parts) : Parts := p.dropLast

end Path
end ChainLint
