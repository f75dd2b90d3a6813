import ChainLint.CommandLine.Run
import ChainLint.Grammar.Parse
import ChainLint.Yaml.Document

/-!
# ChainLint.Main

The program. Files are read once, the rest is `CommandLine.run`. While watching, the files are read
again at intervals, and what differs from the time before makes the events.
-/

namespace ChainLint
namespace Main

/-- Adds a file with its content, or with the reason why it cannot be read. -/
def addFile (t : FileTree) (parts : Path.Parts) (here : String) : IO FileTree := do
  try return t.write parts (← IO.FS.readBinFile here).toList
  catch e => return (t.makeParents parts).put parts (.locked e.toString)

/-- Reads what is at a path into a tree, without directories that are neither checked nor watched.
Only the content of source files is kept. -/
partial def readPath (t : FileTree) (parts : Path.Parts) : IO FileTree := do
  let here := (← IO.currentDir) / Path.toText parts
  if ← here.isDir then
    let mut tree := t.addDirectory parts
    for entry in ← here.readDir do
      unless Session.unwatched.contains entry.fileName do
        tree ← readPath tree (parts ++ [entry.fileName])
    return tree
  else if ← here.pathExists then
    if Discovery.isSource (Path.toText parts) then addFile t parts here.toString
    else return t.write parts []
  else return t

/-- Reads a file as it is. -/
def readFile (t : FileTree) (parts : Path.Parts) : IO FileTree := do
  let here := (← IO.currentDir) / Path.toText parts
  if ← here.isDir then return t.addDirectory parts
  else if ← here.pathExists then addFile t parts here.toString
  else return t

/-- The files that a command line may need. -/
def readFiles (cwd : Path.Parts) (a : CommandLine.Arguments) : IO FileTree := do
  let target := Path.resolve cwd a.path
  let mut tree ← readPath {} target
  for name in ConfigFile.names do
    tree ← readFile tree (target ++ [name])
    tree ← readFile tree (Path.parent target ++ [name])
  match a.config with
  | some name => readFile tree (Path.resolve cwd name)
  | none => return tree

def sources (t : FileTree) (target : Path.Parts) (exclude : List String) :
    List (Path.Parts × Option Entry) :=
  ((t.filesBelow target).filter (fun p =>
    Session.isWatched exclude p && Discovery.isSource (Path.toText (target ++ p)))).map
    (fun p => (target ++ p, t.entry? (target ++ p)))

/-- What happened to the source files between two readings. -/
def eventsBetween (target : Path.Parts) (exclude : List String) (old new : FileTree) :
    List WatchEvent :=
  let before := sources old target exclude
  let after := sources new target exclude
  (before.filter (fun e => !after.any (fun f => f.1 = e.1))).map (fun e => .removed e.1)
    ++ after.filterMap (fun e =>
      match before.find? (fun f => f.1 = e.1) with
      | none => some (.added e.1)
      | some f => if f.2 = e.2 then none else some (.changed e.1))

/-- Writes messages, then output, and waits until everything is taken. -/
def write (messages : String) (output : List UInt8) : IO Unit := do
  IO.eprint messages
  let out ← IO.getStdout
  out.write ⟨output.toArray⟩
  out.flush

partial def watch (target : Path.Parts) (session : Session) (state : WatchState)
    (old : FileTree) : IO Unit := do
  IO.sleep 500
  let new ← readPath {} target
  let mut st := state
  for event in eventsBetween target session.config.exclude old new do
    let (next, streams) := session.step ⟨new, Grammar.parse⟩ st event
    write streams.stderr (Text.Utf8.encode streams.stdout)
    st := next
  watch target session st new

/-- Styles are used on a terminal, unless the environment says otherwise. -/
def useColour : IO Bool := do
  if (← IO.getEnv "NO_COLOR").isSome then return false
  else if (← IO.getEnv "FORCE_COLOR").isSome then return true
  else (← IO.getStdout).isTty

end Main
end ChainLint

open ChainLint in
def main (args : List String) : IO UInt32 := do
  let cwd := Path.resolve [] (← IO.currentDir).toString
  let files ← match CommandLine.parse args with
    | .run a => Main.readFiles cwd a
    | _ => pure {}
  let surroundings := ⟨⟨files, Grammar.parse⟩, Yaml.load, cwd, ← Main.useColour⟩
  let outcome := CommandLine.run surroundings args
  Main.write outcome.streams.stderr (outcome.received .direct)
  match outcome.ending with
  | .exit _ | .finished => pure ()
  | .crashed e => IO.eprintln e.message
  | .watching target session state => Main.watch target session state files
  return (outcome.ending.code?.getD 0).toUInt32
