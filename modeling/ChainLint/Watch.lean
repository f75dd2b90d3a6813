import ChainLint.Log
import ChainLint.Report.Grouped
import ChainLint.Report.Summary
import ChainLint.Scan.Check
import ChainLint.Streams

/-!
# ChainLint.Watch

Checking files again as they change.

* `WatchState`: for every path the result of its latest check, and the number of files.
* `WatchState.ofScan`, `WatchState.record`, `WatchState.forget`.
* `Session.isWatched`: the paths whose events are delivered.
* `Session.step`: the state after an event, and what is written. A check that ends in an error
  leaves the state as it was.
-/

namespace ChainLint

structure WatchState where
  diagnostics : Table String (List Diagnostic)
  failures : Table String Failure
  totalFiles : Int

namespace WatchState

def ofScan (r : ScanOutcome) : WatchState where
  diagnostics := groupBy Diagnostic.filePath r.diagnostics
  failures := r.failures.foldl (fun t f => t.put f.filePath f) []
  totalFiles := r.totalFiles

/-- Keeps the result of a check in place of an earlier one. -/
def record (st : WatchState) (path : String) (r : Verdict) : WatchState where
  diagnostics :=
    if r.diagnostics.isEmpty then st.diagnostics.erase path
    else st.diagnostics.put path r.diagnostics
  failures :=
    match r.failure with
    | some f => st.failures.put path f
    | none => st.failures.erase path
  totalFiles := st.totalFiles

/-- Drops a deleted file. -/
def forget (st : WatchState) (path : String) : WatchState where
  diagnostics := st.diagnostics.erase path
  failures := st.failures.erase path
  totalFiles := max 0 (st.totalFiles - 1)

end WatchState

inductive WatchEvent where
  | changed (path : Path.Parts)
  | added (path : Path.Parts)
  | removed (path : Path.Parts)
  /-- Watching itself went wrong. -/
  | troubled (message : String)

/-- What stays the same while files are watched. -/
structure Session where
  config : Config
  /-- How many findings are shown; all, unless it is positive. -/
  limit : Int
  setting : Report.Setting
  verbose : Bool

namespace Session

/-- Directories that are not watched. -/
def unwatched : List String := ["node_modules", ".git", ".venv", "venv", "__pycache__", ".tox"]

/-- Patterns of paths that are not watched. -/
def ignored (exclude : List String) : List String :=
  unwatched.map Discovery.ignorePattern ++ exclude

/-- Events on a path below the watched directory, given as seen from there, are delivered. -/
def isWatched (exclude : List String) (path : Path.Parts) : Bool :=
  !((ignored exclude).flatMap Glob.parse).any (fun g => g.covers path)

def waiting : String := "\nWatching for changes..."

/-- The whole report on a cleared screen. -/
def screen (s : Session) (st : WatchState) : String :=
  let ds := st.diagnostics.values.flatten
  let fs := st.failures.values
  "\x1bc" ++ Report.text (Report.diagnostics s.setting s.limit ds ++ Report.failures s.setting fs
    ++ Report.summary s.setting ds fs st.totalFiles ++ [waiting])

def debug (s : Session) (messages : List String) : String :=
  Log.debugLines s.setting.colour s.verbose messages

def error (s : Session) (message : String) : String := Log.line s.setting.colour .error message

/-- Checks a file again; `more` is the number of files that came with it. -/
def recheck (s : Session) (w : Workplace) (st : WatchState) (path : Path.Parts) (verb : String)
    (more : Int) : WatchState × Streams :=
  let name := Path.toText path
  if !Discovery.isSource name then (st, {})
  else
    let note := verb ++ ": " ++ name
    match Scan.checkUnder w s.config path with
    | .error e =>
      (st, ⟨"", s.debug [note] ++ s.error ("re-scan of " ++ name ++ " failed: " ++ e.message)⟩)
    | .ok (r, notes) =>
      let next := { st with totalFiles := st.totalFiles + more }.record name r
      (next, ⟨s.screen next, s.debug (note :: notes)⟩)

def step (s : Session) (w : Workplace) (st : WatchState) : WatchEvent → WatchState × Streams
  | .changed path => s.recheck w st path "changed" 0
  | .added path => s.recheck w st path "added" 1
  | .removed path =>
    let name := Path.toText path
    if !Discovery.isSource name then (st, {})
    else
      let next := st.forget name
      (next, ⟨s.screen next, s.debug ["removed: " ++ name]⟩)
  | .troubled message => (st, ⟨"", s.error ("watcher error: " ++ message)⟩)

end Session
end ChainLint
