import ChainLint.Grammar.Parse
import ChainLint.Proofs.Files.Found
import ChainLint.Proofs.Watch.Events

/-!
# ChainLint.Proofs.Watch.Latest

For every name, the result of its latest check is kept.

* `LastChecked`: the files with which a path was checked last, by an event or by the scan.
* `Keeps`: what is kept after a history of events, and which events leave it as it is.
* `run_keeps_latest`: it is so after every history.
-/

namespace ChainLint

namespace Session

variable {s : Session} {w : Workplace} {out : ScanOutcome} {path : Path.Parts}
  {history : List (FileTree × WatchEvent)} {st : WatchState}

/-- The files at the latest check of a path that came to a verdict, made by an event or by the scan,
when the path is not gone since. -/
inductive LastChecked (s : Session) (w : Workplace) (out : ScanOutcome)
    (history : List (FileTree × WatchEvent)) (path : Path.Parts) : FileTree → Prop where
  | event {before after : List (FileTree × WatchEvent)} {files : FileTree} {event : WatchEvent}
      {v : Verdict} : history = before ++ (files, event) :: after →
      event = .changed path ∨ event = .added path →
      Settles s w.parser (files, event) (Path.toText path) (some v) →
      Unsettled s w.parser after (Path.toText path) → LastChecked s w out history path files
  | scan : Path.toText path ∈ out.scannedFiles →
      Unsettled s w.parser history (Path.toText path) → LastChecked s w out history path w.files

/-- The state keeps, for every name, the result of its latest check. -/
structure Keeps (s : Session) (w : Workplace) (out : ScanOutcome)
    (history : List (FileTree × WatchEvent)) (st : WatchState) : Prop where
  latest : ∀ {before x after name r}, history = before ++ x :: after →
    Settles s w.parser x name r → Unsettled s w.parser after name → st.Holds name r
  initial : ∀ {name}, Unsettled s w.parser history name →
    (WatchState.ofScan out).Agrees st name
  scanned : ∀ {path v}, Path.Proper path → Path.toText path ∈ out.scannedFiles →
    Scan.verdict w s.config path = .ok v → Unsettled s w.parser history (Path.toText path) →
    st.Holds (Path.toText path) (some v)
  unscanned : ∀ {name}, name ∉ out.scannedFiles → Unsettled s w.parser history name →
    st.Holds name none
  wellKept : ∀ name, st.WellKept name
  distinct : st.Distinct
  otherNames : ∀ {path}, Discovery.isSource (Path.toText path) = false → ∀ files,
    ∀ event ∈ [WatchEvent.changed path, .added path, .removed path],
      (s.step ⟨files, w.parser⟩ st event).1 = st
  failing : ∀ {files path e}, Scan.verdict ⟨files, w.parser⟩ s.config path = .error e →
    ∀ event ∈ [WatchEvent.changed path, .added path],
      (s.step ⟨files, w.parser⟩ st event).1 = st
  unchanged : ∀ {files old path}, Path.Proper path → LastChecked s w out history path old →
    files.read path = old.read path → (s.step ⟨files, w.parser⟩ st (.changed path)).1 = st

theorem step_of_other {files : FileTree} {parser : Parser} {event : WatchEvent}
    (h : Discovery.isSource (Path.toText path) = false)
    (hevent : event ∈ [WatchEvent.changed path, .added path, .removed path]) :
    (s.step ⟨files, parser⟩ st event).1 = st := by
  have hrecheck : ∀ verb more, (s.recheck ⟨files, parser⟩ st path verb more).1 = st :=
    recheck_eq_self fun htrue => absurd (h.symm.trans htrue) Bool.false_ne_true
  simp only [List.mem_cons, List.not_mem_nil, or_false] at hevent
  rcases hevent with rfl | rfl | rfl
  · exact hrecheck _ _
  · exact hrecheck _ _
  · simp [step, h]

theorem step_of_error {files : FileTree} {parser : Parser} {event : WatchEvent} {e : Fault}
    (h : Scan.verdict ⟨files, parser⟩ s.config path = .error e)
    (hevent : event ∈ [WatchEvent.changed path, .added path]) :
    (s.step ⟨files, parser⟩ st event).1 = st := by
  have hrecheck : ∀ verb more, (s.recheck ⟨files, parser⟩ st path verb more).1 = st :=
    recheck_eq_self fun _ => ⟨e, h⟩
  simp only [List.mem_cons, List.not_mem_nil, or_false] at hevent
  rcases hevent with rfl | rfl
  · exact hrecheck _ _
  · exact hrecheck _ _

theorem verdict_of_settles {files : FileTree} {parser : Parser} {event : WatchEvent} {v : Verdict}
    (hevent : event = .changed path ∨ event = .added path)
    (h : Settles s parser (files, event) (Path.toText path) (some v)) :
    Scan.verdict ⟨files, parser⟩ s.config path = .ok v := by
  rcases hevent with rfl | rfl
  · cases h with
    | changed _ hv => exact hv
  · cases h with
    | added _ hv => exact hv

/-- A change to what has been checked before leaves the state as it is. -/
theorem step_changed_of_holds {files : FileTree} {parser : Parser} {v : Verdict}
    (h : st.Holds (Path.toText path) (some v))
    (hv : Scan.verdict ⟨files, parser⟩ s.config path = .ok v) :
    (s.step ⟨files, parser⟩ st (.changed path)).1 = st := by
  rw [step]
  cases hsource : Discovery.isSource (Path.toText path) with
  | false =>
    exact recheck_eq_self (fun htrue => absurd (hsource.symm.trans htrue) Bool.false_ne_true) _ _
  | true =>
    rw [recheck_of_verdict hsource hv, Int.add_zero]
    exact WatchState.record_of_holds h

/-- Whatever happens to the files after a scan, the state keeps the result of each file's latest
check. -/
theorem run_keeps_latest (s : Session) (w : Workplace) (target : Path.Parts) (out : ScanOutcome)
    (hfiles : w.files.Proper) (htarget : Path.Proper target)
    (hscan : (Scan.scan w s.config target).outcome = .ok out)
    (history : List (FileTree × WatchEvent)) :
    Keeps s w out history (s.run w.parser (WatchState.ofScan out) history) := by
  obtain ⟨paths, verdicts, hfound, hverdicts, rfl⟩ := Scan.scan_eq_ok.1 hscan
  have hnames : (paths.map Path.toText).Nodup :=
    (Discovery.findFiles_increasing hfiles hfound).imp Text.Before.ne
  obtain ⟨hscanned, hunscanned⟩ := WatchState.holds_ofScan hnames hverdicts
  have hproper := Discovery.findFiles_proper hfiles htarget hfound
  have hlatest : ∀ {before x after name r}, history = before ++ x :: after →
      Settles s w.parser x name r → Unsettled s w.parser after name →
      (s.run w.parser (WatchState.ofScan (Scan.resultOf paths verdicts)) history).Holds name r := by
    rintro before x after name r rfl hx hafter
    exact run_holds hx hafter
  have hmem : ∀ {path}, Path.Proper path → Path.toText path ∈ paths.map Path.toText →
      path ∈ paths := by
    intro path hpath hname
    obtain ⟨path', hpath', htext⟩ := List.mem_map.1 hname
    rw [← Path.toText_injective (hproper path' hpath') hpath htext]
    exact hpath'
  have hkept : ∀ {path v}, Path.Proper path → Path.toText path ∈ paths.map Path.toText →
      Scan.verdict w s.config path = .ok v → Unsettled s w.parser history (Path.toText path) →
      (s.run w.parser (WatchState.ofScan (Scan.resultOf paths verdicts)) history).Holds
        (Path.toText path) (some v) :=
    fun hpath hname hv hunsettled =>
      (hscanned _ (hmem hpath hname) _ hv).of_agrees (run_agrees hunsettled)
  refine ⟨hlatest, run_agrees, hkept, ?_,
    run_wellKept (WatchState.wellKept_ofScan hnames hverdicts),
    run_distinct (WatchState.distinct_ofScan _), fun hother _ _ => step_of_other hother,
    fun herror _ => step_of_error herror, ?_⟩
  · intro name hname hunsettled
    exact (hunscanned name hname).of_agrees (run_agrees hunsettled)
  · intro files old path hpath hlast hread
    cases hlast with
    | event hhistory hevent hsettles hafter =>
      refine step_changed_of_holds (hlatest hhistory hsettles hafter) ?_
      rw [Scan.verdict_congr hread]
      exact verdict_of_settles hevent hsettles
    | scan hname hunsettled =>
      obtain ⟨v, hv⟩ := exists_mapM_eq_ok.1 ⟨verdicts, hverdicts⟩ path (hmem hpath hname)
      refine step_changed_of_holds (hkept hpath hname hv hunsettled) ?_
      rw [Scan.verdict_congr hread]
      exact hv

namespace Sample

def session : Session := ⟨{}, 0, .here false [], false⟩

/-- A file with a finding and one that breaks off. -/
def start : Workplace where
  files := (({} : FileTree).write ["p", "a.py"] "df.index = 1\n".toUTF8.toList).write
    ["p", "b.py"] "x = (\n".toUTF8.toList
  parser := Grammar.parse

/-- The second file gets its end, then the first one goes and comes back. -/
def mending : List (FileTree × WatchEvent) :=
  let mended := start.files.write ["p", "b.py"] "x = ()\n".toUTF8.toList
  [(mended, .changed ["p", "b.py"]), (mended.remove ["p", "a.py"], .removed ["p", "a.py"]),
    (mended, .added ["p", "a.py"])]

end Sample

theorem run_keeps_latest_mended :
    ∃ out, (Scan.scan Sample.start {} ["p"]).outcome = .ok out ∧
      (WatchState.ofScan out).failures.keys = ["/p/b.py"] ∧
      (Sample.session.run Grammar.parse (WatchState.ofScan out) Sample.mending).failures.keys = [] ∧
      Keeps Sample.session Sample.start out Sample.mending
        (Sample.session.run Grammar.parse (WatchState.ofScan out) Sample.mending) := by
  have hkeys : (Scan.scan Sample.start {} ["p"]).outcome.map (fun out =>
      ((WatchState.ofScan out).failures.keys,
        (Sample.session.run Grammar.parse (WatchState.ofScan out) Sample.mending).failures.keys)) =
      .ok (["/p/b.py"], []) := by decide +kernel
  cases hscan : (Scan.scan Sample.start {} ["p"]).outcome with
  | error e =>
    rw [hscan] at hkeys
    cases hkeys
  | ok out =>
    rw [hscan] at hkeys
    obtain ⟨hbefore, hafter⟩ := Prod.mk.inj (Except.ok.inj hkeys)
    exact ⟨out, rfl, hbefore, hafter,
      run_keeps_latest Sample.session Sample.start ["p"] out (by decide +kernel)
        (by decide +kernel) hscan Sample.mending⟩

end Session
end ChainLint
