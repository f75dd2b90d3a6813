import ChainLint.Proofs.Watch.Latest
import Mathlib.Data.Finset.Card

/-!
# ChainLint.Proofs.Watch.Totals

The number of files while they are watched.

* `WatchState.Accounts`: the state counts the files of a set of names, and keeps nothing under
  another name.
* `WatchEvent.Possible`, `WatchEvent.advance`: an event that can happen to a set of files, and the
  files there are after it. `Consistent`, `liveAfter`: the same for a history.
* `step_accounts`, `run_accounts`: when every check that is asked for returns, the state counts the
  files there are.
* `length_distinct_filePath`, `screen_eq`: the two numbers that are shown.
* `run_tallies`: what is counted, kept and shown at every time of a consistent history.
-/

namespace ChainLint

/-! ## Counted names -/

namespace WatchState

variable {st : WatchState} {names : Finset String} {name : String}

theorem holds_none_iff : st.Holds name none ↔ name ∉ st.diagnostics.keys ++ st.failures.keys := by
  constructor
  · intro h hname
    rcases List.mem_append.1 hname with hkey | hkey
    · obtain ⟨ds, hds⟩ := Table.mem_keys_iff.1 hkey
      cases hds.symm.trans h.diagnostics
    · obtain ⟨f, hf⟩ := Table.mem_keys_iff.1 hkey
      cases hf.symm.trans h.failure
  · intro h
    obtain ⟨hd, hf⟩ := not_or.1 (mt List.mem_append.2 h)
    constructor
    · exact Option.eq_none_iff_forall_ne_some.2 fun ds hds => hd (Table.mem_keys_iff.2 ⟨ds, hds⟩)
    · exact Option.eq_none_iff_forall_ne_some.2 fun f hf' => hf (Table.mem_keys_iff.2 ⟨f, hf'⟩)

/-- The state counts these names, and keeps nothing under others. -/
structure Accounts (st : WatchState) (names : Finset String) : Prop where
  total : st.totalFiles = names.card
  kept : ∀ name ∉ names, st.Holds name none

theorem Accounts.added (h : st.Accounts names) (hname : name ∉ names) (v : Verdict) :
    ({ st with totalFiles := st.totalFiles + 1 }.record name v).Accounts (insert name names) := by
  constructor
  · rw [Finset.card_insert_of_notMem hname, Int.natCast_succ, ← h.total]
    rfl
  · intro other hother
    obtain ⟨hne, hold⟩ := not_or.1 (mt Finset.mem_insert.2 hother)
    exact (h.kept other hold).of_agrees
      ((agrees_totalFiles st _ other).trans (agrees_record hne v))

theorem Accounts.changed (h : st.Accounts names) (hname : name ∈ names) (v : Verdict) :
    (st.record name v).Accounts names := by
  refine ⟨h.total, fun other hother => ?_⟩
  have hne : other ≠ name := fun heq => hother (heq ▸ hname)
  exact (h.kept other hother).of_agrees (agrees_record hne v)

/-- A name that is counted can be taken off the count. -/
theorem Accounts.forget_totalFiles (h : st.Accounts names) (hname : name ∈ names) :
    (st.forget name).totalFiles = st.totalFiles - 1 := by
  have hpos : 0 < names.card := Finset.card_pos.2 ⟨name, hname⟩
  have htotal := h.total
  unfold forget
  exact max_eq_right (by omega)

theorem Accounts.removed (h : st.Accounts names) (hname : name ∈ names) :
    (st.forget name).Accounts (names.erase name) := by
  constructor
  · rw [h.forget_totalFiles hname, h.total, ← Finset.card_erase_add_one hname,
      Int.natCast_succ, Int.add_sub_cancel]
  · intro other hother
    by_cases hne : other = name
    · rw [hne]
      exact holds_forget st name
    · have hold : other ∉ names := fun hmem => hother (Finset.mem_erase.2 ⟨hne, hmem⟩)
      exact (h.kept other hold).of_agrees (agrees_forget hne)

theorem Accounts.mem_of_mem_keys (h : st.Accounts names)
    (hname : name ∈ st.diagnostics.keys ++ st.failures.keys) : name ∈ names := by
  by_contra hnot
  exact holds_none_iff.1 (h.kept name hnot) hname

/-- No name is kept twice, be it once with diagnostics and once with a failure. -/
theorem nodup_keys (hkept : ∀ name, st.WellKept name) (hdistinct : st.Distinct) :
    (st.diagnostics.keys ++ st.failures.keys).Nodup := by
  refine hdistinct.diagnostics.append hdistinct.failures fun name hd hf => ?_
  obtain ⟨ds, hds⟩ := Table.mem_keys_iff.1 hd
  obtain ⟨f, hf⟩ := Table.mem_keys_iff.1 hf
  rcases (hkept name).exclusive with hnone | hnone
  · cases hds.symm.trans hnone
  · cases hf.symm.trans hnone

theorem Accounts.length_keys_le (h : st.Accounts names) (hkept : ∀ name, st.WellKept name)
    (hdistinct : st.Distinct) :
    ((st.diagnostics.keys.length + st.failures.keys.length : Nat) : Int) ≤ st.totalFiles := by
  have hsubset : (st.diagnostics.keys ++ st.failures.keys).toFinset ⊆ names :=
    fun name hname => h.mem_of_mem_keys (List.mem_toFinset.1 hname)
  have hcard := Finset.card_le_card hsubset
  rw [List.toFinset_card_of_nodup (nodup_keys hkept hdistinct), List.length_append] at hcard
  rw [h.total]
  exact Int.ofNat_le.2 hcard

/-- As many files are spoken of by diagnostics as have diagnostics kept under their names. -/
theorem length_distinct_filePath (hkept : ∀ name, st.WellKept name) (hdistinct : st.Distinct) :
    (distinct (st.diagnostics.values.flatten.map Diagnostic.filePath)).length =
      st.diagnostics.keys.length := by
  refine ((List.perm_ext_iff_of_nodup (nodup_distinct _) hdistinct.diagnostics).2
    fun name => ?_).length_eq
  rw [mem_distinct, List.mem_map]
  constructor
  · rintro ⟨d, hd, rfl⟩
    obtain ⟨ds, hds, hmem⟩ := List.mem_flatten.1 hd
    obtain ⟨⟨k, _⟩, he, rfl⟩ := List.mem_map.1 hds
    rw [(hkept k).own _ (Table.get?_of_mem hdistinct.diagnostics he) d hmem]
    exact List.mem_map_of_mem he
  · intro hname
    obtain ⟨ds, hds⟩ := Table.mem_keys_iff.1 hname
    obtain ⟨d, hd⟩ := List.exists_mem_of_ne_nil ds fun hnil => (hkept name).nonempty (hnil ▸ hds)
    have hvalue : ds ∈ st.diagnostics.values := List.mem_map_of_mem (Table.mem_of_get? hds)
    exact ⟨d, List.mem_flatten.2 ⟨ds, hvalue, hd⟩, (hkept name).own ds hds d hd⟩

theorem accounts_ofScan {w : Workplace} {c : Config} {paths : List Path.Parts}
    {verdicts : List Verdict} (hnames : (paths.map Path.toText).Nodup)
    (hverdicts : paths.mapM (Scan.verdict w c) = .ok verdicts) :
    (ofScan (Scan.resultOf paths verdicts)).Accounts (paths.map Path.toText).toFinset := by
  constructor
  · rw [List.toFinset_card_of_nodup hnames, List.length_map]
    rfl
  · intro name hname
    exact (holds_ofScan hnames hverdicts).2 name (mt List.mem_toFinset.2 hname)

end WatchState

/-! ## Events and the files there are -/

namespace WatchEvent

/-- A source file comes when it is not there, and changes or goes when it is. Of other names, and of
watching itself, anything may be told. -/
def Possible (live : Finset String) : WatchEvent → Prop
  | .added path => Discovery.isSource (Path.toText path) = true → Path.toText path ∉ live
  | .changed path | .removed path =>
    Discovery.isSource (Path.toText path) = true → Path.toText path ∈ live
  | .troubled _ => True

instance (live : Finset String) : DecidablePred (Possible live)
  | .added path =>
    inferInstanceAs (Decidable
      (Discovery.isSource (Path.toText path) = true → Path.toText path ∉ live))
  | .changed path | .removed path =>
    inferInstanceAs (Decidable
      (Discovery.isSource (Path.toText path) = true → Path.toText path ∈ live))
  | .troubled _ => inferInstanceAs (Decidable True)

/-- The names of the source files after the event. -/
def advance (live : Finset String) : WatchEvent → Finset String
  | .added path =>
    if Discovery.isSource (Path.toText path) then insert (Path.toText path) live else live
  | .removed path =>
    if Discovery.isSource (Path.toText path) then live.erase (Path.toText path) else live
  | .changed _ | .troubled _ => live

end WatchEvent

namespace Session

variable {s : Session} {parser : Parser} {st : WatchState} {live : Finset String}
  {x : FileTree × WatchEvent} {history before after : List (FileTree × WatchEvent)}

/-- The check that the event asks for, if any, returns. -/
def Rechecks (s : Session) (parser : Parser) : FileTree × WatchEvent → Prop
  | (files, .added path) | (files, .changed path) =>
    Discovery.isSource (Path.toText path) = true → Scan.Quiet ⟨files, parser⟩ s.config path
  | (_, .removed _) | (_, .troubled _) => True

instance (s : Session) (parser : Parser) : DecidablePred (Rechecks s parser)
  | (files, .added path) | (files, .changed path) =>
    inferInstanceAs (Decidable
      (Discovery.isSource (Path.toText path) = true → Scan.Quiet ⟨files, parser⟩ s.config path))
  | (_, .removed _) | (_, .troubled _) => inferInstanceAs (Decidable True)

theorem step_accounts (h : st.Accounts live) (hpossible : x.2.Possible live)
    (hrechecks : s.Rechecks parser x) :
    (s.step ⟨x.1, parser⟩ st x.2).1.Accounts (x.2.advance live) := by
  obtain ⟨files, event⟩ := x
  cases event with
  | troubled message => exact h
  | added path =>
    rw [step, WatchEvent.advance]
    by_cases hsource : Discovery.isSource (Path.toText path) = true
    · obtain ⟨v, hv⟩ := Scan.verdict_ok_iff.2 (hrechecks hsource)
      rw [recheck_of_verdict hsource hv, if_pos hsource]
      exact h.added (hpossible hsource) v
    · rw [recheck_eq_self (fun htrue => absurd htrue hsource), if_neg hsource]
      exact h
  | changed path =>
    rw [step, WatchEvent.advance]
    by_cases hsource : Discovery.isSource (Path.toText path) = true
    · obtain ⟨v, hv⟩ := Scan.verdict_ok_iff.2 (hrechecks hsource)
      rw [recheck_of_verdict hsource hv, Int.add_zero]
      exact h.changed (hpossible hsource) v
    · rw [recheck_eq_self (fun htrue => absurd htrue hsource)]
      exact h
  | removed path =>
    by_cases hsource : Discovery.isSource (Path.toText path) = true
    · simp only [step, WatchEvent.advance, hsource]
      exact h.removed (hpossible hsource)
    · simp only [step, WatchEvent.advance, hsource]
      exact h

/-- Every event can happen to the files there are at its time. -/
def Consistent : Finset String → List (FileTree × WatchEvent) → Prop
  | _, [] => True
  | live, x :: history => x.2.Possible live ∧ Consistent (x.2.advance live) history

instance Consistent.decidable : (live : Finset String) → DecidablePred (Consistent live)
  | _, [] => inferInstanceAs (Decidable True)
  | live, x :: history =>
    have := Consistent.decidable (x.2.advance live) history
    inferInstanceAs (Decidable (x.2.Possible live ∧ Consistent (x.2.advance live) history))

/-- The names of the source files after a history. -/
def liveAfter (live : Finset String) (history : List (FileTree × WatchEvent)) : Finset String :=
  history.foldl (fun live x => x.2.advance live) live

theorem Consistent.of_append (h : Consistent live (before ++ after)) : Consistent live before := by
  induction before generalizing live with
  | nil => trivial
  | cons x before ih => exact ⟨h.1, ih h.2⟩

theorem run_accounts (h : st.Accounts live) (hconsistent : Consistent live history)
    (hrechecks : ∀ x ∈ history, s.Rechecks parser x) :
    (s.run parser st history).Accounts (liveAfter live history) := by
  induction history generalizing st live with
  | nil => exact h
  | cons x history ih =>
    obtain ⟨hx, hrest⟩ := List.forall_mem_cons.1 hrechecks
    exact ih (step_accounts h hconsistent.1 hx) hconsistent.2 hrest

/-! ## What is shown -/

/-- Unless there is nothing to report, the last line of the report says in how many of the files
there are findings. -/
theorem screen_eq (h : st.diagnostics.values.flatten ≠ [] ∨ st.failures.values ≠ []) :
    ∃ report left right, s.screen st = "\x1bc" ++ Report.text (report ++
      [left ++ s.setting.paint .dim
          ("in " ++ toString (distinct (st.diagnostics.values.flatten.map
            Diagnostic.filePath)).length ++ "/" ++ toString st.totalFiles ++ " files") ++ right,
        waiting]) := by
  have hsome : ¬ (st.diagnostics.values.flatten.isEmpty = true ∧
      st.failures.values.isEmpty = true) := by
    rw [List.isEmpty_iff, List.isEmpty_iff, not_and_or]
    exact h
  unfold screen
  simp only [Report.summary, if_neg hsome]
  rw [List.append_assoc _ [_] [waiting]]
  exact ⟨_, _, _, rfl⟩

/-- What the state and the screen say about the files there are. -/
structure Tallies (s : Session) (st : WatchState) (live : Finset String) : Prop where
  total : st.totalFiles = live.card
  /-- Taking off a file that goes never meets the bound at zero. -/
  unclamped : ∀ name ∈ live, (st.forget name).totalFiles = st.totalFiles - 1
  tracked : ∀ name ∈ st.diagnostics.keys ++ st.failures.keys, name ∈ live
  within : ((st.diagnostics.keys.length + st.failures.keys.length : Nat) : Int) ≤ st.totalFiles
  shown : st.diagnostics.keys ≠ [] ∨ st.failures.keys ≠ [] →
    ∃ (affected : Nat) (report : List String) (left right : String),
      affected = st.diagnostics.keys.length ∧ (affected : Int) ≤ st.totalFiles ∧
      s.screen st = "\x1bc" ++ Report.text (report ++
        [left ++ s.setting.paint .dim
            ("in " ++ toString affected ++ "/" ++ toString st.totalFiles ++ " files") ++ right,
          waiting])

theorem tallies_of_accounts (h : st.Accounts live) (hkept : ∀ name, st.WellKept name)
    (hdistinct : st.Distinct) : Tallies s st live where
  total := h.total
  unclamped _ hname := h.forget_totalFiles hname
  tracked _ hname := h.mem_of_mem_keys hname
  within := h.length_keys_le hkept hdistinct
  shown hsome := by
    have haffected := WatchState.length_distinct_filePath hkept hdistinct
    have hle := h.length_keys_le hkept hdistinct
    have hreport : st.diagnostics.values.flatten ≠ [] ∨ st.failures.values ≠ [] := by
      refine hsome.imp (fun hkeys hnil => hkeys ?_) (fun hkeys hnil => hkeys ?_)
      · rw [hnil] at haffected
        exact List.length_eq_zero_iff.1 haffected.symm
      · rw [Table.keys, List.map_eq_nil_iff.1 hnil, List.map_nil]
    obtain ⟨report, left, right, hscreen⟩ := screen_eq (s := s) hreport
    rw [haffected] at hscreen
    exact ⟨_, report, left, right, rfl, by omega, hscreen⟩

/-- At every time of a history that is consistent with the scanned files, and whose checks all
return, the state counts the files there are. -/
theorem run_tallies (s : Session) (w : Workplace) (target : Path.Parts) (out : ScanOutcome)
    (hfiles : w.files.Proper) (hscan : (Scan.scan w s.config target).outcome = .ok out)
    (history : List (FileTree × WatchEvent))
    (hconsistent : Consistent out.scannedFiles.toFinset history)
    (hrechecks : ∀ x ∈ history, s.Rechecks w.parser x) :
    ∀ before after, history = before ++ after →
      Tallies s (s.run w.parser (WatchState.ofScan out) before)
        (liveAfter out.scannedFiles.toFinset before) := by
  rintro before after rfl
  obtain ⟨paths, verdicts, hfound, hverdicts, rfl⟩ := Scan.scan_eq_ok.1 hscan
  have hnames : (paths.map Path.toText).Nodup :=
    (Discovery.findFiles_increasing hfiles hfound).imp Text.Before.ne
  have haccounts := run_accounts (s := s) (WatchState.accounts_ofScan hnames hverdicts)
    hconsistent.of_append fun x hx => hrechecks x (List.mem_append_left after hx)
  exact tallies_of_accounts haccounts (run_wellKept (WatchState.wellKept_ofScan hnames hverdicts))
    (run_distinct (WatchState.distinct_ofScan _))

theorem run_tallies_mended :
    ∃ out, (Scan.scan Sample.start {} ["p"]).outcome = .ok out ∧
      Tallies Sample.session
        (Sample.session.run Grammar.parse (WatchState.ofScan out) (Sample.mending.take 2))
        {"/p/b.py"} := by
  have hnames : (Scan.scan Sample.start {} ["p"]).outcome.map ScanOutcome.scannedFiles =
      .ok ["/p/a.py", "/p/b.py"] := by decide +kernel
  cases hscan : (Scan.scan Sample.start {} ["p"]).outcome with
  | error e =>
    rw [hscan] at hnames
    cases hnames
  | ok out =>
    rw [hscan] at hnames
    have hscanned : out.scannedFiles = ["/p/a.py", "/p/b.py"] := Except.ok.inj hnames
    have htallies := run_tallies Sample.session Sample.start ["p"] out (by decide +kernel) hscan
      Sample.mending (by rw [hscanned]; decide +kernel) (by decide +kernel)
      (Sample.mending.take 2) (Sample.mending.drop 2) (List.take_append_drop 2 _).symm
    have hlive : liveAfter out.scannedFiles.toFinset (Sample.mending.take 2) = {"/p/b.py"} := by
      rw [hscanned]
      decide +kernel
    rw [hlive] at htallies
    exact ⟨out, rfl, htallies⟩

end Session
end ChainLint
