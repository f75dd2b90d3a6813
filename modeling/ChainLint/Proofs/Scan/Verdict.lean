import ChainLint.Proofs.Outcome
import ChainLint.Scan.Check

/-!
# ChainLint.Proofs.Scan.Verdict

What one file comes to, and a scan as the verdicts on its files.

* `Scan.verdict`: the result for a file, without the notes on it.
* `Quiet`: reading and checking the file ends in no error that says nothing about it.
  `verdict_ok_iff`: that is what it takes to get a verdict.
* `verdict_eq_failed_or`: a failure stands alone. `isOf_of_verdict`: a verdict speaks of its own
  file.
* `verdict_ne_malformed`, `scan_ne_malformed`: no malformed tree ends a scan.
* `verdict_congr`: it depends on nothing of the files but what that one holds.
* `scan_eq_ok`: a scan returns when the files are found and each has a verdict, and is composed of
  these.
-/

namespace ChainLint

/-- All that the verdict says is said of the file of this name. -/
structure Verdict.IsOf (v : Verdict) (name : String) : Prop where
  diagnostics : ∀ d ∈ v.diagnostics, d.filePath = name
  failure : ∀ f, v.failure = some f → f.filePath = name

namespace Scan

/-- The result for a file, without the notes. -/
def verdict (w : Workplace) (c : Config) (path : Path.Parts) : Except Fault Verdict :=
  (checkUnder w c path).map Prod.fst

/-- Whatever error the file leads to, it is a malformed tree. -/
structure Quiet (w : Workplace) (c : Config) (path : Path.Parts) : Prop where
  reads : ∀ {source e}, w.files.read path = .ok source →
    readSource w.parser source (Path.toText path) = .error e → ∃ cause, e = .malformed cause
  checks : ∀ {source root lines e}, w.files.read path = .ok source →
    readSource w.parser source (Path.toText path) = .ok (.tree root lines) →
    check (rulesOf c) root = .error e → ∃ cause, e = .malformed cause

/-! ## One file -/

section File

variable {w : Workplace} {c : Config} {path : Path.Parts} {v : Verdict}

/-- The ways to a verdict: a text that cannot be read or understood, or findings in a tree. -/
theorem verdict_cases (h : verdict w c path = .ok v) :
    (∃ f, v = failed f ∧ f.filePath = Path.toText path) ∨
      ∃ lines found, v = (report (Path.toText path) lines c.disableNoqa found).1 := by
  unfold verdict checkUnder checkPath at h
  split at h
  · exact .inl ⟨_, (Except.ok.inj h).symm, rfl⟩
  · unfold checkSource at h
    split at h
    · exact .inl ⟨_, (Except.ok.inj h).symm, rfl⟩
    · cases h
    · exact .inl ⟨_, (Except.ok.inj h).symm, rfl⟩
    · rename_i lines _
      split at h
      · exact .inl ⟨_, (Except.ok.inj h).symm, rfl⟩
      · cases h
      · rename_i found _
        exact .inr ⟨lines, found, (Except.ok.inj h).symm⟩

theorem verdict_eq_failed_or (h : verdict w c path = .ok v) :
    (∃ f, v = failed f) ∨ v.failure = none := by
  rcases verdict_cases h with ⟨f, hv, -⟩ | ⟨lines, found, rfl⟩
  · exact .inl ⟨f, hv⟩
  · exact .inr rfl

theorem isOf_of_verdict (h : verdict w c path = .ok v) : v.IsOf (Path.toText path) := by
  rcases verdict_cases h with ⟨f, rfl, hf⟩ | ⟨lines, found, rfl⟩
  · refine ⟨fun d hd => (nomatch hd), fun g hg => ?_⟩
    rw [← Option.some.inj hg]
    exact hf
  · refine ⟨fun d hd => ?_, fun f hf => nomatch hf⟩
    obtain ⟨finding, -, rfl⟩ := List.mem_map.1 hd
    rfl

theorem verdict_ok_iff : (∃ v, verdict w c path = .ok v) ↔ Quiet w c path := by
  constructor
  · rintro ⟨v, h⟩
    unfold verdict checkUnder checkPath at h
    constructor
    · intro source e hread he
      rw [hread] at h
      simp only [checkSource, he] at h
      cases e with
      | malformed cause => exact ⟨cause, rfl⟩
      | plain message => cases h
    · intro source root lines e hread htree he
      rw [hread] at h
      simp only [checkSource, htree, he] at h
      cases e with
      | malformed cause => exact ⟨cause, rfl⟩
      | unhandled kind position => cases h
  · intro hquiet
    unfold verdict checkUnder checkPath
    cases hread : w.files.read path with
    | error e => exact ⟨_, rfl⟩
    | ok source =>
      simp only [checkSource]
      cases hreading : readSource w.parser source (Path.toText path) with
      | error e =>
        obtain ⟨cause, rfl⟩ := hquiet.reads hread hreading
        exact ⟨_, rfl⟩
      | ok reading =>
        cases reading with
        | failure f => exact ⟨_, rfl⟩
        | tree root lines =>
          cases hcheck : check (rulesOf c) root with
          | error e =>
            obtain ⟨cause, rfl⟩ := hquiet.checks hread hreading hcheck
            simp only [hcheck]
            exact ⟨_, rfl⟩
          | ok found =>
            simp only [hcheck]
            exact ⟨_, rfl⟩

/-- A malformed tree is a verdict on its file, never the end of a scan. -/
theorem verdict_ne_malformed (cause : Malformed) :
    verdict w c path ≠ .error (.malformed cause) := by
  intro h
  unfold verdict checkUnder checkPath at h
  split at h
  · cases h
  · unfold checkSource at h
    split at h
    · cases h
    · rename_i hnot _
      cases h
      exact hnot cause rfl
    · cases h
    · split at h
      · cases h
      · rename_i e hnot _
        cases e with
        | malformed cause => exact hnot cause rfl
        | unhandled kind position => cases h
      · cases h

instance : Decidable (Quiet w c path) :=
  decidable_of_iff ((verdict w c path).toBool = true) <| by
    rw [← verdict_ok_iff]
    cases verdict w c path <;> simp [Except.toBool]

/-- Of all files, only the content of the one at hand matters. -/
theorem verdict_congr {files files' : FileTree} {parser : Parser}
    (h : files'.read path = files.read path) :
    verdict ⟨files', parser⟩ c path = verdict ⟨files, parser⟩ c path := by
  unfold verdict checkUnder checkPath
  rw [h]

end File

/-! ## All files -/

section Files

variable {w : Workplace} {c : Config} {target : Path.Parts}

theorem checkAll_outcome (w : Workplace) (c : Config) (paths : List Path.Parts) :
    (checkAll w c paths).outcome = paths.mapM (verdict w c) := by
  induction paths with
  | nil => rfl
  | cons path paths ih =>
    rw [checkAll, List.mapM_cons, ← ih, verdict]
    cases checkUnder w c path with
    | error e => rfl
    | ok r =>
      change (checkAll w c paths).outcome.map (r.1 :: ·) = _
      cases (checkAll w c paths).outcome <;> rfl

theorem scan_of_found {paths : List Path.Parts}
    (h : Discovery.findFiles w.files target c.exclude = .ok paths) :
    (scan w c target).outcome = (paths.mapM (verdict w c)).map (resultOf paths) := by
  simp only [scan, h, checkAll_outcome]

theorem scan_eq_ok {out : ScanOutcome} :
    (scan w c target).outcome = .ok out ↔
      ∃ paths verdicts, Discovery.findFiles w.files target c.exclude = .ok paths ∧
        paths.mapM (verdict w c) = .ok verdicts ∧ out = resultOf paths verdicts := by
  cases hfound : Discovery.findFiles w.files target c.exclude with
  | error e => simp [scan, hfound]
  | ok paths =>
    rw [scan_of_found hfound]
    cases hverdicts : paths.mapM (verdict w c) with
    | error e => simp [Except.map, hverdicts]
    | ok verdicts => simp [Except.map, hverdicts, eq_comm]

theorem scan_ne_malformed (cause : Malformed) :
    (scan w c target).outcome ≠ .error (.malformed cause) := by
  intro h
  cases hfound : Discovery.findFiles w.files target c.exclude with
  | error e => simp [scan, hfound] at h
  | ok paths =>
    rw [scan_of_found hfound] at h
    cases hverdicts : paths.mapM (verdict w c) with
    | ok verdicts => simp [hverdicts, Except.map] at h
    | error e =>
      rw [hverdicts] at h
      obtain ⟨path, -, hpath⟩ := exists_of_mapM_eq_error hverdicts
      cases h
      exact verdict_ne_malformed cause hpath

end Files
end Scan
end ChainLint
