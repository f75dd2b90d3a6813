import ChainLint.Proofs.Scan.Verdict
import ChainLint.Proofs.Table
import ChainLint.Watch

/-!
# ChainLint.Proofs.Watch.State

What is kept while files are watched.

* `WatchState.Holds`: the verdict that is kept under a name, or none. `Agrees`: two states keep the
  same.
* `record_of_holds`: recording what is kept already changes nothing, not even the order of
  the names.
* `WellKept`, `Distinct`: what is kept under a name is one failure or some diagnostics, is about the
  file of that name, and is kept once.
* `holds_ofScan`: at the start, the verdicts of the scan are kept, and nothing else.
-/

namespace ChainLint

/-! ## What is kept under a name -/

namespace WatchState

variable {st st' : WatchState} {name other : String} {v : Verdict}

/-- What is kept under the name. An empty list of diagnostics is not. -/
structure Holds (st : WatchState) (name : String) (r : Option Verdict) : Prop where
  diagnostics : st.diagnostics.get? name =
    r.bind (fun v => if v.diagnostics.isEmpty then none else some v.diagnostics)
  failure : st.failures.get? name = r.bind Verdict.failure

/-- The same is kept under the name. -/
structure Agrees (st st' : WatchState) (name : String) : Prop where
  diagnostics : st'.diagnostics.get? name = st.diagnostics.get? name
  failures : st'.failures.get? name = st.failures.get? name

theorem Agrees.refl (st : WatchState) (name : String) : Agrees st st name := ⟨rfl, rfl⟩

theorem Agrees.trans {st₁ st₂ st₃ : WatchState} (h : Agrees st₁ st₂ name)
    (h' : Agrees st₂ st₃ name) : Agrees st₁ st₃ name :=
  ⟨h'.diagnostics.trans h.diagnostics, h'.failures.trans h.failures⟩

theorem agrees_totalFiles (st : WatchState) (n : Int) (name : String) :
    Agrees st { st with totalFiles := n } name := ⟨rfl, rfl⟩

theorem Holds.of_agrees {r : Option Verdict} (h : Holds st name r) (h' : Agrees st st' name) :
    Holds st' name r :=
  ⟨h'.diagnostics.trans h.diagnostics, h'.failures.trans h.failure⟩

theorem holds_record (st : WatchState) (name : String) (v : Verdict) :
    (st.record name v).Holds name (some v) := by
  constructor
  · rw [Option.bind_some]
    unfold record
    by_cases hempty : v.diagnostics.isEmpty = true
    · simp only [if_pos hempty, Table.get?_erase, if_true]
    · simp only [if_neg hempty, Table.get?_put, if_true]
  · unfold record
    cases hfailure : v.failure with
    | none => simp [hfailure, Table.get?_erase]
    | some f => simp [hfailure, Table.get?_put]

theorem agrees_record (h : other ≠ name) (v : Verdict) : Agrees st (st.record name v) other := by
  constructor
  · unfold record
    by_cases hempty : v.diagnostics.isEmpty
    · simp [hempty, Table.get?_erase, h]
    · simp [hempty, Table.get?_put, h]
  · unfold record
    cases v.failure with
    | none => simp [Table.get?_erase, h]
    | some f => simp [Table.get?_put, h]

theorem holds_forget (st : WatchState) (name : String) : (st.forget name).Holds name none := by
  constructor
  · simp [forget, Table.get?_erase]
  · simp [forget, Table.get?_erase]

theorem agrees_forget (h : other ≠ name) : Agrees st (st.forget name) other := by
  constructor
  · simp [forget, Table.get?_erase, h]
  · simp [forget, Table.get?_erase, h]

/-- Recording what is kept already leaves the state as it is. -/
theorem record_of_holds (h : st.Holds name (some v)) : st.record name v = st := by
  have hdiagnostics : (st.record name v).diagnostics = st.diagnostics := by
    have hkept := h.diagnostics
    unfold record
    by_cases hempty : v.diagnostics.isEmpty
    · rw [Option.bind_some, if_pos hempty] at hkept
      rw [if_pos hempty]
      exact Table.erase_of_get? hkept
    · rw [Option.bind_some, if_neg hempty] at hkept
      rw [if_neg hempty]
      exact Table.put_of_get? hkept
  have hfailures : (st.record name v).failures = st.failures := by
    have hkept := h.failure
    rw [Option.bind_some] at hkept
    unfold record
    cases hfailure : v.failure with
    | none => exact Table.erase_of_get? (hkept.trans hfailure)
    | some f => exact Table.put_of_get? (hkept.trans hfailure)
  calc st.record name v
      = ⟨(st.record name v).diagnostics, (st.record name v).failures, st.totalFiles⟩ := rfl
    _ = st := by rw [hdiagnostics, hfailures]

/-! ## Well-kept states -/

/-- What is kept under a name is one failure or some diagnostics, and is about the file. -/
structure WellKept (st : WatchState) (name : String) : Prop where
  exclusive : st.diagnostics.get? name = none ∨ st.failures.get? name = none
  nonempty : st.diagnostics.get? name ≠ some []
  own : ∀ ds, st.diagnostics.get? name = some ds → ∀ d ∈ ds, d.filePath = name

theorem WellKept.of_agrees (h : WellKept st name) (h' : Agrees st st' name) :
    WellKept st' name := by
  constructor
  · rw [h'.diagnostics, h'.failures]
    exact h.exclusive
  · rw [h'.diagnostics]
    exact h.nonempty
  · rw [h'.diagnostics]
    exact h.own

theorem wellKept_of_none (h : st.Holds name none) : WellKept st name := by
  constructor
  · exact .inl h.diagnostics
  · rw [h.diagnostics]
    exact nofun
  · rw [h.diagnostics]
    exact nofun

theorem wellKept_of_verdict {w : Workplace} {c : Config} {path : Path.Parts}
    (hv : Scan.verdict w c path = .ok v) (h : st.Holds (Path.toText path) (some v)) :
    WellKept st (Path.toText path) := by
  have hkept := h.diagnostics
  have hfailure := h.failure
  rw [Option.bind_some] at hkept hfailure
  constructor
  · rcases Scan.verdict_eq_failed_or hv with ⟨f, rfl⟩ | hnone
    · exact .inl hkept
    · exact .inr (hfailure.trans hnone)
  · rw [hkept]
    split
    · exact nofun
    · rename_i hempty
      intro heq
      rw [Option.some.inj heq] at hempty
      exact hempty rfl
  · intro ds hds
    rw [hkept] at hds
    split at hds
    · cases hds
    · rw [← Option.some.inj hds]
      exact (Scan.isOf_of_verdict hv).diagnostics

/-- No name is kept twice. -/
structure Distinct (st : WatchState) : Prop where
  diagnostics : st.diagnostics.keys.Nodup
  failures : st.failures.keys.Nodup

theorem Distinct.record (h : st.Distinct) (name : String) (v : Verdict) :
    (st.record name v).Distinct := by
  constructor
  · unfold WatchState.record
    split
    · exact Table.nodup_keys_erase h.diagnostics
    · exact Table.nodup_keys_put h.diagnostics
  · unfold WatchState.record
    cases v.failure with
    | some f => exact Table.nodup_keys_put h.failures
    | none => exact Table.nodup_keys_erase h.failures

theorem Distinct.forget (h : st.Distinct) (name : String) : (st.forget name).Distinct :=
  ⟨Table.nodup_keys_erase h.diagnostics, Table.nodup_keys_erase h.failures⟩

/-! ## The scan at the start -/

variable {w : Workplace} {c : Config} {paths : List Path.Parts} {verdicts : List Verdict}

instance : Inhabited Verdict := ⟨{}⟩

theorem holds_of_filter {out : ScanOutcome} {name : String} {v : Verdict}
    (hd : out.diagnostics.filter (fun d => d.filePath = name) = v.diagnostics)
    (hf : out.failures.filter (fun f => f.filePath = name) = v.failure.toList) :
    (ofScan out).Holds name (some v) := by
  constructor
  · rw [ofScan, get?_groupBy, hd]
    rfl
  · rw [ofScan, Table.get?_foldl_put, hf, Option.bind_some]
    cases v.failure <;> rfl

/-- The state at the start keeps the verdict on every scanned file, and nothing else. -/
theorem holds_ofScan (hnames : (paths.map Path.toText).Nodup)
    (hverdicts : paths.mapM (Scan.verdict w c) = .ok verdicts) :
    (∀ path ∈ paths, ∀ v, Scan.verdict w c path = .ok v →
      (ofScan (Scan.resultOf paths verdicts)).Holds (Path.toText path) (some v)) ∧
    ∀ name ∉ paths.map Path.toText, (ofScan (Scan.resultOf paths verdicts)).Holds name none := by
  obtain ⟨verdictOf, rfl, heach⟩ := exists_eq_map_of_mapM hverdicts
  have hdiagnostics : ∀ path ∈ paths, ∀ d ∈ (verdictOf path).diagnostics,
      d.filePath = Path.toText path :=
    fun path hpath => (Scan.isOf_of_verdict (heach path hpath)).diagnostics
  have hfailures : ∀ path ∈ paths, ∀ f ∈ (verdictOf path).failure.toList,
      f.filePath = Path.toText path :=
    fun path hpath f hf =>
      (Scan.isOf_of_verdict (heach path hpath)).failure f (Option.mem_toList.1 hf)
  have hd : (Scan.resultOf paths (paths.map verdictOf)).diagnostics =
      paths.flatMap (fun path => (verdictOf path).diagnostics) := by
    simp [Scan.resultOf, List.flatMap_map]
  have hf : (Scan.resultOf paths (paths.map verdictOf)).failures =
      paths.flatMap (fun path => (verdictOf path).failure.toList) := by
    simp [Scan.resultOf, List.filterMap_eq_flatMap_toList, List.flatMap_map]
  constructor
  · intro path hpath v hv
    rw [heach path hpath] at hv
    cases hv
    refine holds_of_filter ?_ ?_
    · rw [hd]
      exact filter_flatMap_of_mem hdiagnostics hnames hpath
    · rw [hf]
      exact filter_flatMap_of_mem hfailures hnames hpath
  · intro name hname
    -- Nothing is kept for a file that was not scanned, as for one without findings.
    have hclean : (ofScan (Scan.resultOf paths (paths.map verdictOf))).Holds name
        (some ({} : Verdict)) := by
      refine holds_of_filter ?_ ?_
      · rw [hd]
        exact filter_flatMap_of_not_mem hdiagnostics hname
      · rw [hf]
        exact filter_flatMap_of_not_mem hfailures hname
    exact ⟨hclean.diagnostics, hclean.failure⟩

theorem distinct_ofScan (out : ScanOutcome) : (ofScan out).Distinct :=
  ⟨nodup_keys_groupBy _ _, Table.nodup_keys_foldl_put _ _ List.nodup_nil⟩

theorem wellKept_ofScan (hnames : (paths.map Path.toText).Nodup)
    (hverdicts : paths.mapM (Scan.verdict w c) = .ok verdicts) (name : String) :
    (ofScan (Scan.resultOf paths verdicts)).WellKept name := by
  obtain ⟨hscanned, hother⟩ := holds_ofScan hnames hverdicts
  by_cases hname : name ∈ paths.map Path.toText
  · obtain ⟨path, hpath, rfl⟩ := List.mem_map.1 hname
    obtain ⟨v, hv⟩ := exists_mapM_eq_ok.1 ⟨verdicts, hverdicts⟩ path hpath
    exact wellKept_of_verdict hv (hscanned path hpath v hv)
  · exact wellKept_of_none (hother name hname)

end WatchState

end ChainLint
