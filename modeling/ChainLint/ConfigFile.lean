import ChainLint.Config
import ChainLint.FileTree

/-!
# ChainLint.ConfigFile

Settings from a file: the named one, or the first that exists of those with a usual name.
-/

namespace ChainLint
namespace ConfigFile

/-- Names looked for in the checked directory. -/
def names : List String := [".pmc.yml", ".pmc.yaml"]

def ofFile (yaml : Yaml.Loader) (t : FileTree) (p : Path.Parts) : Except ConfigError Config :=
  match t.read p with
  | .error e => .error ⟨.unreadable e.message, Path.toText p⟩
  | .ok text => Config.ofText yaml text (Path.toText p)

/-- The file that decides, if any. An empty name counts as none. -/
def consulted (t : FileTree) (cwd configDir : Path.Parts) (named : Option String) :
    Option Path.Parts :=
  match named with
  | some name =>
    if name = "" then (names.map (fun n => configDir ++ [n])).find? t.contains
    else some (Path.resolve cwd name)
  | none => (names.map (fun n => configDir ++ [n])).find? t.contains

/-- Settings are the default ones when there is no file. -/
def load (yaml : Yaml.Loader) (t : FileTree) (cwd configDir : Path.Parts) (named : Option String) :
    Except ConfigError Config :=
  match consulted t cwd configDir named with
  | none => .ok {}
  | some p => ofFile yaml t p

end ConfigFile
end ChainLint
