import ChainLint.Json.Value
import ChainLint.Rule.Selection
import ChainLint.Yaml.Value

/-!
# ChainLint.Config

Settings of a run, from a YAML text and from the command line.

* `Config`, `Config.merge`: lists are joined, and suppression comments are disabled when either
  side says so.
* `ConfigError`: why a text is no configuration, and where it came from.
* `Config.ofYaml`, `Config.ofText`: the first violated condition decides the error, in the order
  top level, `select`, `ignore`, `exclude`, `disable_noqa`.
-/

namespace ChainLint

structure Config where
  select : List String := []
  ignore : List String := []
  exclude : List String := []
  disableNoqa : Bool := false
  deriving DecidableEq

/-- Settings given in addition; a missing flag changes nothing. -/
structure Overrides where
  select : List String := []
  ignore : List String := []
  exclude : List String := []
  disableNoqa : Option Bool := none
  deriving DecidableEq

inductive ConfigCause where
  | unreadable (message : String)
  | invalidYaml
  | notMapping
  | notStrings (key : String)
  | notBool (key : String)
  deriving DecidableEq

def ConfigCause.text : ConfigCause → String
  | .unreadable message => "cannot read config: " ++ message
  | .invalidYaml => "invalid YAML"
  | .notMapping => "expected a mapping at the top level"
  | .notStrings key => "'" ++ key ++ "' must be a string or a list of strings"
  | .notBool key => "'" ++ key ++ "' must be true or false"

structure ConfigError where
  cause : ConfigCause
  path : String
  deriving DecidableEq

def ConfigError.message (e : ConfigError) : String := e.path ++ ": " ++ e.cause.text

namespace Config

def selection (c : Config) : Selection := ⟨c.select, c.ignore⟩

def merge (base : Config) (more : Overrides) : Config where
  select := base.select ++ more.select
  ignore := base.ignore ++ more.ignore
  exclude := base.exclude ++ more.exclude
  disableNoqa := base.disableNoqa || more.disableNoqa.getD false

def asString : Yaml.Value → Option String
  | .string s => some s
  | _ => none

/-- A list of strings; one string is a list of one, nothing is the empty list. -/
def stringList (entries : List (String × Yaml.Value)) (key : String) :
    Except ConfigCause (List String) :=
  match entries.lookup key with
  | none | some .null => .ok []
  | some (.string s) => .ok [s]
  | some (.sequence items) =>
    match items.mapM asString with
    | some l => .ok l
    | none => .error (.notStrings key)
  | some _ => .error (.notStrings key)

def flag (entries : List (String × Yaml.Value)) (key : String) : Except ConfigCause Bool :=
  match entries.lookup key with
  | none => .ok false
  | some (.bool b) => .ok b
  | some _ => .error (.notBool key)

def ofEntries (entries : List (String × Yaml.Value)) : Except ConfigCause Config := do
  let select ← stringList entries "select"
  let ignore ← stringList entries "ignore"
  let exclude ← stringList entries "exclude"
  let disableNoqa ← flag entries "disable_noqa"
  return { select, ignore, exclude, disableNoqa }

/-- Points in time and bytes count as mappings without entries. -/
def ofYaml : Yaml.Value → Except ConfigCause Config
  | .null => .ok {}
  | .mapping entries => ofEntries entries
  | .instant _ | .bytes _ => ofEntries []
  | _ => .error .notMapping

def ofText (yaml : Yaml.Loader) (text path : String) : Except ConfigError Config :=
  let result : Except ConfigCause Config := match yaml text with
    | none => .error .invalidYaml
    | some v => ofYaml v
  match result with
  | .ok c => .ok c
  | .error cause => .error ⟨cause, path⟩

def toJson (c : Config) : Json.Value :=
  .object [("select", Json.strings c.select), ("ignore", Json.strings c.ignore),
    ("exclude", Json.strings c.exclude), ("disableNoqa", .bool c.disableNoqa)]

end Config
end ChainLint
