import ChainLint.Proofs.Watch.State

/-!
# ChainLint.Proofs.Watch.Events

What events do to what is kept.

* `Session.Settles`: the event changes what is kept, for which name and to what.
* `step_cases`: all that one event can do to the state. What it keeps up follows from there:
  `step_agrees`, `step_wellKept`, `step_distinct`.
* `Session.run`: the state after a history of events. `run_agrees`, `run_holds`: the last event that
  settles a name decides what is kept under it. `run_wellKept`, `run_distinct`.
-/

namespace ChainLint

/-! ## Events -/

/-- How many files come with the event. -/
def WatchEvent.arrivals : WatchEvent → Int
  | .added _ => 1
  | _ => 0

namespace Session

variable {s : Session} {parser : Parser} {st : WatchState} {name : String} {r : Option Verdict}
variable {x : FileTree × WatchEvent}

/-- The event changes what is kept under the name: a source file is gone, or has been checked with a
verdict. -/
inductive Settles (s : Session) (parser : Parser) :
    FileTree × WatchEvent → String → Option Verdict → Prop where
  | removed {files : FileTree} {path : Path.Parts} :
      Discovery.isSource (Path.toText path) = true →
      Settles s parser (files, .removed path) (Path.toText path) none
  | changed {files : FileTree} {path : Path.Parts} {v : Verdict} :
      Discovery.isSource (Path.toText path) = true →
      Scan.verdict ⟨files, parser⟩ s.config path = .ok v →
      Settles s parser (files, .changed path) (Path.toText path) (some v)
  | added {files : FileTree} {path : Path.Parts} {v : Verdict} :
      Discovery.isSource (Path.toText path) = true →
      Scan.verdict ⟨files, parser⟩ s.config path = .ok v →
      Settles s parser (files, .added path) (Path.toText path) (some v)

theorem Settles.unique {name' : String} {r' : Option Verdict} (h : Settles s parser x name r)
    (h' : Settles s parser x name' r') : name = name' ∧ r = r' := by
  cases h with
  | removed _ =>
    cases h'
    exact ⟨rfl, rfl⟩
  | changed _ hv =>
    cases h' with
    | changed _ hv' => exact ⟨rfl, congrArg some (Except.ok.inj (hv.symm.trans hv'))⟩
  | added _ hv =>
    cases h' with
    | added _ hv' => exact ⟨rfl, congrArg some (Except.ok.inj (hv.symm.trans hv'))⟩

/-- A file that is no source, or comes to no verdict, leaves the state as it is. -/
theorem recheck_eq_self {w : Workplace} {path : Path.Parts}
    (h : Discovery.isSource (Path.toText path) = true →
      ∃ e, Scan.verdict w s.config path = .error e) (verb : String) (more : Int) :
    (s.recheck w st path verb more).1 = st := by
  unfold recheck
  cases hsource : Discovery.isSource (Path.toText path) with
  | false => simp [hsource]
  | true =>
    obtain ⟨e, he⟩ := h hsource
    unfold Scan.verdict at he
    cases hcheck : Scan.checkUnder w s.config path with
    | error e' => simp [hsource]
    | ok result =>
      rw [hcheck] at he
      cases he

theorem recheck_of_verdict {w : Workplace} {path : Path.Parts} {v : Verdict}
    (hsource : Discovery.isSource (Path.toText path) = true)
    (h : Scan.verdict w s.config path = .ok v) (verb : String) (more : Int) :
    (s.recheck w st path verb more).1 =
      { st with totalFiles := st.totalFiles + more }.record (Path.toText path) v := by
  unfold Scan.verdict at h
  unfold recheck
  cases hcheck : Scan.checkUnder w s.config path with
  | error e =>
    rw [hcheck] at h
    cases h
  | ok result =>
    rw [hcheck] at h
    rw [← Except.ok.inj h]
    simp [hsource]

theorem verdict_or (w : Workplace) (c : Config) (path : Path.Parts) :
    (Discovery.isSource (Path.toText path) = true → ∃ e, Scan.verdict w c path = .error e) ∨
      Discovery.isSource (Path.toText path) = true ∧ ∃ v, Scan.verdict w c path = .ok v := by
  cases Discovery.isSource (Path.toText path) with
  | false => exact .inl nofun
  | true =>
    cases Scan.verdict w c path with
    | error e => exact .inl fun _ => ⟨e, rfl⟩
    | ok v => exact .inr ⟨rfl, v, rfl⟩

/-- An event settles nothing and leaves the state as it is, or drops the name it settles, or records
a verdict under it. -/
theorem step_cases (s : Session) (parser : Parser) (st : WatchState)
    (x : FileTree × WatchEvent) :
    ((∀ name r, ¬ Settles s parser x name r) ∧ (s.step ⟨x.1, parser⟩ st x.2).1 = st) ∨
    (∃ name, Settles s parser x name none ∧
      (s.step ⟨x.1, parser⟩ st x.2).1 = st.forget name) ∨
    ∃ name v, Settles s parser x name (some v) ∧
      (s.step ⟨x.1, parser⟩ st x.2).1 =
        { st with totalFiles := st.totalFiles + x.2.arrivals }.record name v := by
  obtain ⟨files, event⟩ := x
  cases event with
  | changed path =>
    rcases verdict_or ⟨files, parser⟩ s.config path with h | ⟨hsource, v, hv⟩
    · refine .inl ⟨fun name r hsettles => ?_, recheck_eq_self h _ _⟩
      cases hsettles with
      | changed hsource hv =>
        obtain ⟨e, he⟩ := h hsource
        cases hv.symm.trans he
    · exact .inr (.inr ⟨_, v, .changed hsource hv, recheck_of_verdict hsource hv _ _⟩)
  | added path =>
    rcases verdict_or ⟨files, parser⟩ s.config path with h | ⟨hsource, v, hv⟩
    · refine .inl ⟨fun name r hsettles => ?_, recheck_eq_self h _ _⟩
      cases hsettles with
      | added hsource hv =>
        obtain ⟨e, he⟩ := h hsource
        cases hv.symm.trans he
    · exact .inr (.inr ⟨_, v, .added hsource hv, recheck_of_verdict hsource hv _ _⟩)
  | removed path =>
    cases hsource : Discovery.isSource (Path.toText path) with
    | false =>
      refine .inl ⟨fun name r hsettles => ?_, by simp [step, hsource]⟩
      cases hsettles with
      | removed hsource' => cases hsource.symm.trans hsource'
    | true => exact .inr (.inl ⟨_, .removed hsource, by simp [step, hsource]⟩)
  | troubled message => exact .inl ⟨nofun, rfl⟩

theorem step_holds (st : WatchState) (h : Settles s parser x name r) :
    (s.step ⟨x.1, parser⟩ st x.2).1.Holds name r := by
  rcases step_cases s parser st x with ⟨hnone, -⟩ | ⟨_, hsettles, hstep⟩ | ⟨_, v, hsettles, hstep⟩
  · exact (hnone name r h).elim
  · obtain ⟨rfl, rfl⟩ := h.unique hsettles
    rw [hstep]
    exact WatchState.holds_forget st name
  · obtain ⟨rfl, rfl⟩ := h.unique hsettles
    rw [hstep]
    exact WatchState.holds_record _ name v

theorem step_agrees (st : WatchState) (h : ∀ r, ¬ Settles s parser x name r) :
    st.Agrees (s.step ⟨x.1, parser⟩ st x.2).1 name := by
  rcases step_cases s parser st x with
    ⟨-, hstep⟩ | ⟨other, hsettles, hstep⟩ | ⟨other, v, hsettles, hstep⟩
  · rw [hstep]
    exact .refl st name
  · have hne : name ≠ other := fun heq => h none (heq ▸ hsettles)
    rw [hstep]
    exact WatchState.agrees_forget hne
  · have hne : name ≠ other := fun heq => h (some v) (heq ▸ hsettles)
    rw [hstep]
    exact (WatchState.agrees_totalFiles st _ name).trans (WatchState.agrees_record hne v)

theorem step_wellKept (h : ∀ name, st.WellKept name) (name : String) :
    (s.step ⟨x.1, parser⟩ st x.2).1.WellKept name := by
  by_cases hx : ∃ r, Settles s parser x name r
  · obtain ⟨r, hsettles⟩ := hx
    have hholds := step_holds st hsettles
    cases hsettles with
    | removed hsource => exact WatchState.wellKept_of_none hholds
    | changed hsource hv => exact WatchState.wellKept_of_verdict hv hholds
    | added hsource hv => exact WatchState.wellKept_of_verdict hv hholds
  · exact (h name).of_agrees (step_agrees st fun r hsettles => hx ⟨r, hsettles⟩)

theorem step_distinct (h : st.Distinct) (x : FileTree × WatchEvent) :
    (s.step ⟨x.1, parser⟩ st x.2).1.Distinct := by
  rcases step_cases s parser st x with ⟨-, hstep⟩ | ⟨name, -, hstep⟩ | ⟨name, v, -, hstep⟩
  · rw [hstep]
    exact h
  · rw [hstep]
    exact h.forget name
  · have hcounted : { st with totalFiles := st.totalFiles + x.2.arrivals }.Distinct :=
      ⟨h.diagnostics, h.failures⟩
    rw [hstep]
    exact hcounted.record name v

/-! ## Histories -/

/-- No event of the list settles the name. -/
def Unsettled (s : Session) (parser : Parser) (events : List (FileTree × WatchEvent))
    (name : String) : Prop :=
  ∀ x ∈ events, ∀ r, ¬ Settles s parser x name r

/-- The state after events, each with the files at its time. -/
def run (s : Session) (parser : Parser) (st : WatchState) (history : List (FileTree × WatchEvent)) :
    WatchState :=
  history.foldl (fun st x => (s.step ⟨x.1, parser⟩ st x.2).1) st

variable {history : List (FileTree × WatchEvent)}

theorem run_agrees (h : Unsettled s parser history name) :
    st.Agrees (s.run parser st history) name := by
  induction history generalizing st with
  | nil => exact .refl st name
  | cons x history ih =>
    have hstep := step_agrees st (h x List.mem_cons_self)
    exact hstep.trans (ih fun y hy => h y (List.mem_cons_of_mem x hy))

/-- The last event that settles the name decides what is kept under it. -/
theorem run_holds {before after : List (FileTree × WatchEvent)} (hx : Settles s parser x name r)
    (hafter : Unsettled s parser after name) :
    (s.run parser st (before ++ x :: after)).Holds name r := by
  rw [run, List.foldl_append]
  exact (step_holds _ hx).of_agrees (run_agrees hafter)

theorem run_wellKept (h : ∀ name, st.WellKept name) (name : String) :
    (s.run parser st history).WellKept name := by
  induction history generalizing st with
  | nil => exact h name
  | cons x history ih => exact ih (step_wellKept h)

theorem run_distinct (h : st.Distinct) : (s.run parser st history).Distinct := by
  induction history generalizing st with
  | nil => exact h
  | cons x history ih => exact ih (step_distinct h x)

end Session

end ChainLint
