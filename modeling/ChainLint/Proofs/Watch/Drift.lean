import ChainLint.Proofs.Files.Listed
import ChainLint.Proofs.Watch.Totals

/-!
# ChainLint.Proofs.Watch.Drift

Watched files against the files that a scan finds.

* `Observed`, `Chronicle`: events that tell, one by one, what happens to the watched files.
* `InStep`: the state counts the files that a scan would find now, and keeps nothing else.
* `Takes`: of the watched paths, those that a scan takes: none of their components is hidden, and
  none is `build` or `dist`. Watching ignores fewer names than scanning does.
* `found_of_listed`, `found_of_not_listed`: what an event does to the files found.
* `Harmless`: an event that keeps the state in step. `step_inStep_iff`: no other does.
* `run_inStep_iff`: a history keeps the state in step exactly when all its events are harmless.
-/

namespace ChainLint

/-! ## Names that are not counted -/

namespace WatchState

variable {st : WatchState} {names : Finset String} {name : String} {v : Verdict}

theorem accounts_iff : st.Accounts names ↔
    st.totalFiles = names.card ∧
      ∀ name ∈ st.diagnostics.keys ++ st.failures.keys, name ∈ names := by
  constructor
  · intro h
    exact ⟨h.total, fun name hname => h.mem_of_mem_keys hname⟩
  · rintro ⟨htotal, hkeys⟩
    exact ⟨htotal, fun name hname => holds_none_iff.2 fun hkey => hname (hkeys name hkey)⟩

/-- One file more is counted than there are names. -/
theorem Accounts.not_added (h : st.Accounts names) (name : String) (v : Verdict) :
    ¬ ({ st with totalFiles := st.totalFiles + 1 }.record name v).Accounts names := by
  intro hadded
  have htotal : st.totalFiles + 1 = names.card := hadded.total
  have hold := h.total
  omega

theorem Accounts.record_iff (h : st.Accounts names) :
    (st.record name v).Accounts names ↔ name ∈ names ∨ v = {} := by
  constructor
  · intro hrecord
    by_cases hname : name ∈ names
    · exact .inl hname
    · -- What is kept is the verdict, and it is nothing.
      have hnone := hrecord.kept name hname
      have hsome := holds_record st name v
      have hd := hsome.diagnostics.symm.trans hnone.diagnostics
      have hf : v.failure = none := hsome.failure.symm.trans hnone.failure
      have hempty : v.diagnostics = [] := by
        by_contra hne
        rw [Option.bind_some, if_neg (mt List.isEmpty_iff.1 hne)] at hd
        cases hd
      refine .inr ?_
      rw [← hempty, ← hf]
  · rintro (hname | rfl)
    · exact h.changed hname v
    · by_cases hname : name ∈ names
      · exact h.changed hname {}
      · have hclean : st.Holds name (some {}) := ⟨(h.kept name hname).diagnostics,
          (h.kept name hname).failure⟩
        rw [record_of_holds hclean]
        exact h

theorem Accounts.forget_iff (h : st.Accounts names) :
    (st.forget name).Accounts names ↔ names = ∅ := by
  have hold := h.total
  constructor
  · intro hforget
    have htotal : max 0 (st.totalFiles - 1) = names.card := hforget.total
    exact Finset.card_eq_zero.1 (by omega)
  · rintro rfl
    constructor
    · rw [Finset.card_empty] at hold ⊢
      rw [forget, hold]
      rfl
    · intro other hother
      by_cases hne : other = name
      · rw [hne]
        exact holds_forget st name
      · exact (h.kept other hother).of_agrees (agrees_forget hne)

end WatchState

/-! ## Events and files -/

namespace WatchEvent

/-- The file the event is about. -/
def path? : WatchEvent → Option Path.Parts
  | .changed path | .added path | .removed path => some path
  | .troubled _ => none

/-- The file was there before, or is there after, as the event says. -/
def Tells (old new : FileTree) : WatchEvent → Prop
  | .added path => old.isFile path = false ∧ new.isFile path = true
  | .changed path => old.isFile path = true ∧ new.isFile path = true
  | .removed path => old.isFile path = true ∧ new.isFile path = false
  | .troubled _ => True

end WatchEvent

namespace Session

variable {s : Session} {parser : Parser} {target path rel : Path.Parts} {old new files : FileTree}
  {event : WatchEvent} {st : WatchState}

/-- Events on the path are delivered when the target is watched. -/
def Watched (target path : Path.Parts) : Prop :=
  ∃ rel, path = target ++ rel ∧ isWatched [] rel = true

theorem unwatched_subset : unwatched ⊆ Discovery.ignoredDirectories := by decide

theorem isWatched_iff : isWatched [] rel = true ↔ ∀ d ∈ unwatched, d ∉ rel := by
  rw [isWatched, ignored, Discovery.flatMap_parse_ignorePattern unwatched_subset, List.any_map,
    Bool.not_eq_true', List.any_eq_false]
  exact forall₂_congr fun d _ => not_congr Glob.covers_within

/-- Of the watched files, one at most comes, changes or goes, and the event tells which. -/
structure Observed (target : Path.Parts) (old new : FileTree) (event : WatchEvent) : Prop where
  delivered : ∀ path, event.path? = some path → Watched target path
  told : event.Tells old new
  others : ∀ path, Watched target path → event.path? ≠ some path →
    new.isFile path = old.isFile path

/-- Each event tells what has happened since the one before. The target stays where files can be
looked for. -/
def Chronicle (target : Path.Parts) : FileTree → List (FileTree × WatchEvent) → Prop
  | _, [] => True
  | old, x :: history =>
    x.1.Proper ∧ (∃ paths, Discovery.findFiles x.1 target [] = .ok paths) ∧
      Observed target old x.1 x.2 ∧ Chronicle target x.1 history

/-- The files after a history. -/
def filesAfter (files : FileTree) (history : List (FileTree × WatchEvent)) : FileTree :=
  history.foldl (fun _ x => x.1) files

/-- The state counts the files that a scan would find, and speaks of no others. -/
def InStep (files : FileTree) (target : Path.Parts) (st : WatchState) : Prop :=
  ∃ paths, Discovery.findFiles files target [] = .ok paths ∧ st.totalFiles = paths.length ∧
    ∀ name ∈ st.diagnostics.keys ++ st.failures.keys, name ∈ paths.map Path.toText

/-- The names of some files. -/
def namesOf (paths : List Path.Parts) : Finset String := (paths.map Path.toText).toFinset

theorem inStep_iff {paths : List Path.Parts} (hfiles : files.Proper)
    (h : Discovery.findFiles files target [] = .ok paths) :
    InStep files target st ↔ st.Accounts (namesOf paths) := by
  have hnames : (paths.map Path.toText).Nodup :=
    (Discovery.findFiles_increasing hfiles h).imp Text.Before.ne
  have hcard : (namesOf paths).card = paths.length := by
    rw [namesOf, List.toFinset_card_of_nodup hnames, List.length_map]
  rw [WatchState.accounts_iff, hcard]
  simp only [namesOf, List.mem_toFinset]
  constructor
  · rintro ⟨paths', hpaths', hall⟩
    rw [← Except.ok.inj (hpaths'.symm.trans h)]
    exact hall
  · exact fun hall => ⟨paths, h, hall⟩

/-! ## Watched paths that a scan takes -/

/-- Below the target there are neither hidden names nor `build` or `dist` on the way. -/
def Takes (target path : Path.Parts) : Prop :=
  Discovery.isSource (Path.toText target) = false ∧
    ∃ rel, path = target ++ rel ∧ (∀ name ∈ rel, Discovery.isHidden name = false) ∧
      "build" ∉ rel ∧ "dist" ∉ rel

/-- A file at the path would be found. -/
def Listed (target path : Path.Parts) : Prop :=
  Discovery.isSource (Path.toText target) = false ∧
    ∃ rel, path = target ++ rel ∧ Discovery.isChecked (Discovery.patterns []) rel = true

theorem Listed.watched (h : Listed target path) : Watched target path := by
  obtain ⟨-, rel, hpath, hchecked⟩ := h
  have hnames := (Discovery.isChecked_iff.1 hchecked).2.2
  exact ⟨rel, hpath, isWatched_iff.2 fun d hd => hnames d (unwatched_subset hd)⟩

theorem Listed.isSource (h : Listed target path) :
    Discovery.isSource (Path.toText path) = true := by
  obtain ⟨-, rel, rfl, hchecked⟩ := h
  rw [← Discovery.getLast?_any_isSource (Discovery.isChecked_ne_nil hchecked)]
  exact (Discovery.isChecked_iff.1 hchecked).1

theorem ignoredDirectories_eq :
    Discovery.ignoredDirectories = unwatched ++ ["build", "dist"] := rfl

/-- Watching leaves `build`, `dist` and hidden names to the scan. -/
theorem listed_iff_takes (hwatched : Watched target path)
    (hsource : Discovery.isSource (Path.toText path) = true) :
    Listed target path ↔ Takes target path := by
  obtain ⟨rel, rfl, hrel⟩ := hwatched
  refine and_congr_right fun htarget => exists_congr fun rel' => and_congr_right fun heq => ?_
  have hne : rel' ≠ [] := by
    rintro rfl
    rw [heq, List.append_nil, htarget] at hsource
    cases hsource
  rw [Discovery.isChecked_iff, Discovery.getLast?_any_isSource hne, ← heq, ignoredDirectories_eq]
  rw [List.append_cancel_left heq] at hrel
  have hunwatched := isWatched_iff.1 hrel
  constructor
  · rintro ⟨-, hhidden, hnames⟩
    exact ⟨hhidden, hnames "build" (by simp), hnames "dist" (by simp)⟩
  · rintro ⟨hhidden, hbuild, hdist⟩
    refine ⟨hsource, hhidden, fun d hd => ?_⟩
    rcases List.mem_append.1 hd with hd | hd
    · exact hunwatched d hd
    · rcases List.mem_pair.1 hd with rfl | rfl
      · exact hbuild
      · exact hdist

/-! ## Files found before and after an event -/

section Found

variable {paths paths' : List Path.Parts}

theorem eq_singleton_of_isSource (htarget : Discovery.isSource (Path.toText target) = true)
    (h : Discovery.findFiles files target [] = .ok paths) : paths = [target] := by
  rw [Discovery.findFiles, if_pos htarget] at h
  exact (Except.ok.inj h).symm

theorem mem_found_iff (htarget : Discovery.isSource (Path.toText target) = false)
    (h : Discovery.findFiles files target [] = .ok paths) :
    path ∈ paths ↔ files.isFile path = true ∧ Listed target path := by
  rw [Discovery.mem_findFiles htarget h, Listed, and_iff_right htarget]

/-- An event has no part in whether other files are found, nor in whether one is found that is not
listed. -/
theorem mem_found_congr (hobserved : Observed target old new event)
    (hold : Discovery.findFiles old target [] = .ok paths)
    (hnew : Discovery.findFiles new target [] = .ok paths')
    (h : event.path? = some path → ¬ Listed target path) : path ∈ paths' ↔ path ∈ paths := by
  cases htarget : Discovery.isSource (Path.toText target) with
  | true =>
    rw [eq_singleton_of_isSource htarget hold, eq_singleton_of_isSource htarget hnew]
  | false =>
    rw [mem_found_iff htarget hold, mem_found_iff htarget hnew]
    refine and_congr_left fun hlisted => ?_
    rw [hobserved.others path hlisted.watched fun hpath => h hpath hlisted]

theorem found_of_not_listed (hobserved : Observed target old new event)
    (hold : Discovery.findFiles old target [] = .ok paths)
    (hnew : Discovery.findFiles new target [] = .ok paths')
    (h : ∀ path, event.path? = some path → ¬ Listed target path) :
    namesOf paths' = namesOf paths := by
  refine Finset.ext fun name => ?_
  simp only [namesOf, List.mem_toFinset, List.mem_map]
  exact exists_congr fun path =>
    and_congr_left fun _ => mem_found_congr hobserved hold hnew (h path)

theorem mem_namesOf (hpaths : ∀ p ∈ paths, Path.Proper p) (hpath : Path.Proper path) :
    Path.toText path ∈ namesOf paths ↔ path ∈ paths := by
  rw [namesOf, List.mem_toFinset]
  constructor
  · intro h
    obtain ⟨p, hp, htext⟩ := List.mem_map.1 h
    rw [← Path.toText_injective (hpaths p hp) hpath htext]
    exact hp
  · exact List.mem_map_of_mem

theorem proper_of_tells (hold : old.Proper) (hnew : new.Proper) (h : event.Tells old new)
    (hpath : event.path? = some path) : Path.Proper path := by
  cases event with
  | troubled message => cases hpath
  | added p =>
    cases hpath
    exact hnew.of_isFile h.2
  | changed p =>
    cases hpath
    exact hnew.of_isFile h.2
  | removed p =>
    cases hpath
    exact hold.of_isFile h.1

theorem toText_mem_iff (hproper : files.Proper) (htarget : Path.Proper target)
    (h : Discovery.findFiles files target [] = .ok paths) (hpath : Path.Proper path)
    (hlisted : Listed target path) :
    Path.toText path ∈ namesOf paths ↔ files.isFile path = true := by
  rw [mem_namesOf (Discovery.findFiles_proper hproper htarget h) hpath,
    mem_found_iff hlisted.1 h, and_iff_left hlisted]

theorem mem_namesOf_of_ne (hobserved : Observed target old new event)
    (hold : Discovery.findFiles old target [] = .ok paths)
    (hnew : Discovery.findFiles new target [] = .ok paths') (hpath : event.path? = some path)
    {name : String} (hname : name ≠ Path.toText path) :
    name ∈ namesOf paths' ↔ name ∈ namesOf paths := by
  simp only [namesOf, List.mem_toFinset, List.mem_map]
  refine exists_congr fun p => and_congr_left fun htext =>
    mem_found_congr hobserved hold hnew fun hp => ?_
  rw [← htext, Option.some.inj (hp.symm.trans hpath)] at hname
  exact absurd rfl hname

/-- An event on a listed file is one that can happen to the files found, and says how they
change. -/
theorem found_of_listed (hproper : old.Proper) (hproper' : new.Proper)
    (htarget : Path.Proper target) (hobserved : Observed target old new event)
    (hold : Discovery.findFiles old target [] = .ok paths)
    (hnew : Discovery.findFiles new target [] = .ok paths')
    (hpath : event.path? = some path) (hlisted : Listed target path) :
    event.Possible (namesOf paths) ∧ namesOf paths' = event.advance (namesOf paths) := by
  have hpathProper := proper_of_tells hproper hproper' hobserved.told hpath
  have hmem := toText_mem_iff hproper htarget hold hpathProper hlisted
  have hmem' := toText_mem_iff hproper' htarget hnew hpathProper hlisted
  have hothers : ∀ name ≠ Path.toText path, (name ∈ namesOf paths' ↔ name ∈ namesOf paths) :=
    fun _ hname => mem_namesOf_of_ne hobserved hold hnew hpath hname
  have htold := hobserved.told
  cases event with
  | troubled message => cases hpath
  | added p =>
    cases hpath
    refine ⟨fun _ hin => ?_, Finset.ext fun name => ?_⟩
    · cases (hmem.1 hin).symm.trans htold.1
    · rw [WatchEvent.advance, if_pos hlisted.isSource, Finset.mem_insert]
      by_cases hname : name = Path.toText path
      · rw [hname]
        exact iff_of_true (hmem'.2 htold.2) (.inl rfl)
      · rw [hothers name hname, or_iff_right hname]
  | changed p =>
    cases hpath
    refine ⟨fun _ => hmem.2 htold.1, Finset.ext fun name => ?_⟩
    by_cases hname : name = Path.toText path
    · rw [hname]
      exact iff_of_true (hmem'.2 htold.2) (hmem.2 htold.1)
    · exact hothers name hname
  | removed p =>
    cases hpath
    refine ⟨fun _ => hmem.2 htold.1, Finset.ext fun name => ?_⟩
    rw [WatchEvent.advance, if_pos hlisted.isSource, Finset.mem_erase]
    by_cases hname : name = Path.toText path
    · rw [hname]
      refine iff_of_false (fun hin => ?_) (fun hin => hin.1 rfl)
      cases (hmem'.1 hin).symm.trans htold.2
    · rw [hothers name hname, and_iff_right hname]

end Found

/-! ## Harmless events -/

/-- The event is about no source, or about a file that a scan takes, or leaves no trace: a check
without a finding of a file that is not counted, or the loss of a file where none are counted. -/
def Harmless (s : Session) (parser : Parser) (target : Path.Parts) : FileTree × WatchEvent → Prop
  | (_, .added path) => Discovery.isSource (Path.toText path) = true → Takes target path
  | (files, .changed path) => Discovery.isSource (Path.toText path) = true →
    path = target ∨ Takes target path ∨ Scan.verdict ⟨files, parser⟩ s.config path = .ok {}
  | (files, .removed path) => Discovery.isSource (Path.toText path) = true →
    Takes target path ∨ Discovery.findFiles files target [] = .ok []
  | (_, .troubled _) => True

theorem harmless_of_takes (h : ∀ path, event.path? = some path →
      Discovery.isSource (Path.toText path) = true → Takes target path) (files : FileTree) :
    Harmless s parser target (files, event) := by
  cases event with
  | added path => exact h path rfl
  | changed path => exact fun hsource => .inr (.inl (h path rfl hsource))
  | removed path => exact fun hsource => .inl (h path rfl hsource)
  | troubled message => trivial

theorem step_eq_self_of_no_source {w : Workplace} (h : ∀ path, event.path? = some path →
    Discovery.isSource (Path.toText path) = false) : (s.step w st event).1 = st := by
  cases event with
  | added path => exact step_of_other (h path rfl) (by simp)
  | changed path => exact step_of_other (h path rfl) (by simp)
  | removed path => exact step_of_other (h path rfl) (by simp)
  | troubled message => rfl

/-- A source that is found though it is not listed is the target itself. -/
theorem mem_found_of_not_listed {paths : List Path.Parts}
    (hsource : Discovery.isSource (Path.toText path) = true) (hlisted : ¬ Listed target path)
    (h : Discovery.findFiles files target [] = .ok paths) : path ∈ paths ↔ path = target := by
  cases htarget : Discovery.isSource (Path.toText target) with
  | true => rw [eq_singleton_of_isSource htarget h, List.mem_singleton]
  | false =>
    rw [mem_found_iff htarget h]
    refine iff_of_false (fun hfound => hlisted hfound.2) ?_
    rintro rfl
    cases hsource.symm.trans htarget

/-- An event on a source that a scan does not take. The names found stay the same, but the state
takes notice. -/
theorem step_accounts_iff {paths : List Path.Parts} (h : st.Accounts (namesOf paths))
    (hfound : Discovery.findFiles new target [] = .ok paths)
    (hrechecks : s.Rechecks parser (new, event)) (hpath : event.path? = some path)
    (hsource : Discovery.isSource (Path.toText path) = true) (hnot : ¬ Takes target path)
    (hmem : Path.toText path ∈ namesOf paths ↔ path = target) :
    (s.step ⟨new, parser⟩ st event).1.Accounts (namesOf paths) ↔
      Harmless s parser target (new, event) := by
  cases event with
  | troubled message => cases hpath
  | added p =>
    cases hpath
    obtain ⟨v, hv⟩ := Scan.verdict_ok_iff.2 (hrechecks hsource)
    rw [step, recheck_of_verdict hsource hv]
    exact iff_of_false (h.not_added _ v) (fun hharmless => hnot (hharmless hsource))
  | changed p =>
    cases hpath
    obtain ⟨v, hv⟩ := Scan.verdict_ok_iff.2 (hrechecks hsource)
    rw [step, recheck_of_verdict hsource hv, Int.add_zero, h.record_iff, hmem]
    simp [Harmless, hsource, hnot, hv]
  | removed p =>
    cases hpath
    have hstep : (s.step ⟨new, parser⟩ st (.removed path)).1 = st.forget (Path.toText path) := by
      simp [step, hsource]
    have hnone : namesOf paths = ∅ ↔ paths = [] := by
      rw [namesOf, List.toFinset_eq_empty_iff, List.map_eq_nil_iff]
    rw [hstep, h.forget_iff, hnone]
    simp [Harmless, hsource, hnot, hfound]

/-- A harmless event keeps the state in step with the files, and no other does. -/
theorem step_inStep_iff (hproper : old.Proper) (hproper' : new.Proper)
    (htarget : Path.Proper target) (hfound : ∃ paths, Discovery.findFiles new target [] = .ok paths)
    (hobserved : Observed target old new event) (hrechecks : s.Rechecks parser (new, event))
    (h : InStep old target st) :
    InStep new target (s.step ⟨new, parser⟩ st event).1 ↔
      Harmless s parser target (new, event) := by
  have ⟨paths, hold, _⟩ := h
  obtain ⟨paths', hnew⟩ := hfound
  rw [inStep_iff hproper hold] at h
  rw [inStep_iff hproper' hnew]
  by_cases hlisted : ∃ path, event.path? = some path ∧ Listed target path
  · -- The files found change as the event says.
    obtain ⟨path, hpath, hlisted⟩ := hlisted
    obtain ⟨hpossible, hnames⟩ :=
      found_of_listed hproper hproper' htarget hobserved hold hnew hpath hlisted
    rw [hnames]
    refine iff_of_true (step_accounts h hpossible hrechecks) (harmless_of_takes ?_ new)
    intro path' hpath' hsource
    rw [← Option.some.inj (hpath.symm.trans hpath')] at hsource ⊢
    exact (listed_iff_takes hlisted.watched hsource).1 hlisted
  · have hunlisted : ∀ path, event.path? = some path → ¬ Listed target path :=
      fun path hpath hpathListed => hlisted ⟨path, hpath, hpathListed⟩
    rw [← found_of_not_listed hobserved hold hnew hunlisted] at h
    by_cases hsource : ∃ path, event.path? = some path ∧
        Discovery.isSource (Path.toText path) = true
    · obtain ⟨path, hpath, hsource⟩ := hsource
      have hwatched := hobserved.delivered path hpath
      have hpathProper := proper_of_tells hproper hproper' hobserved.told hpath
      refine step_accounts_iff h hnew hrechecks hpath hsource ?_ ?_
      · exact fun htakes => hunlisted path hpath ((listed_iff_takes hwatched hsource).2 htakes)
      · rw [mem_namesOf (Discovery.findFiles_proper hproper' htarget hnew) hpathProper]
        exact mem_found_of_not_listed hsource (hunlisted path hpath) hnew
    · have hother : ∀ path, event.path? = some path →
          Discovery.isSource (Path.toText path) = false :=
        fun path hpath => Bool.eq_false_iff.2 fun hs => hsource ⟨path, hpath, hs⟩
      rw [step_eq_self_of_no_source hother]
      refine iff_of_true h (harmless_of_takes (fun path hpath hs => ?_) new)
      cases hs.symm.trans (hother path hpath)

/-! ## Histories -/

theorem run_inStep {history : List (FileTree × WatchEvent)} (hproper : old.Proper)
    (htarget : Path.Proper target) (hchronicle : Chronicle target old history)
    (hrechecks : ∀ x ∈ history, s.Rechecks parser x) (h : InStep old target st) :
    (∀ before after, history = before ++ after →
      InStep (filesAfter old before) target (s.run parser st before)) ↔
        ∀ x ∈ history, Harmless s parser target x := by
  induction history generalizing old st with
  | nil =>
    refine iff_of_true (fun before after heq => ?_) (fun x hx => nomatch hx)
    rw [(List.append_eq_nil_iff.1 heq.symm).1]
    exact h
  | cons x history ih =>
    obtain ⟨hproper', hfound, hobserved, hrest⟩ := hchronicle
    obtain ⟨hx, hrechecks⟩ := List.forall_mem_cons.1 hrechecks
    have hstep := step_inStep_iff hproper hproper' htarget hfound hobserved hx h
    rw [List.forall_mem_cons]
    constructor
    · intro hall
      have hnext : InStep x.1 target (s.step ⟨x.1, parser⟩ st x.2).1 := hall [x] history rfl
      refine ⟨hstep.1 hnext, (ih hproper' hrest hrechecks hnext).1 ?_⟩
      rintro before after rfl
      exact hall (x :: before) after rfl
    · rintro ⟨hharmless, hall⟩ before after heq
      have hnext := hstep.2 hharmless
      cases before with
      | nil => exact h
      | cons y before =>
        obtain ⟨rfl, htail⟩ := List.cons.inj heq
        exact (ih hproper' hrest hrechecks hnext).2 hall before after htail

/-- With no patterns of the user's own, after a scan, whatever happens to the watched files and as
long as all checks return: the state stays in step with the files exactly when every event is
harmless. -/
theorem run_inStep_iff (s : Session) (w : Workplace) (target : Path.Parts) (out : ScanOutcome)
    (hexclude : s.config.exclude = []) (hfiles : w.files.Proper) (htarget : Path.Proper target)
    (hscan : (Scan.scan w s.config target).outcome = .ok out)
    (history : List (FileTree × WatchEvent)) (hchronicle : Chronicle target w.files history)
    (hrechecks : ∀ x ∈ history, s.Rechecks w.parser x) :
    (∀ before after, history = before ++ after →
      InStep (filesAfter w.files before) target
        (s.run w.parser (WatchState.ofScan out) before)) ↔
      ∀ x ∈ history, Harmless s w.parser target x := by
  obtain ⟨paths, verdicts, hfound, hverdicts, rfl⟩ := Scan.scan_eq_ok.1 hscan
  rw [hexclude] at hfound
  have hnames : (paths.map Path.toText).Nodup :=
    (Discovery.findFiles_increasing hfiles hfound).imp Text.Before.ne
  refine run_inStep hfiles htarget hchronicle hrechecks ((inStep_iff hfiles hfound).2 ?_)
  exact WatchState.accounts_ofScan hnames hverdicts

/-- Another content for a watched path, and the event that tells of it. -/
theorem observed_put {e : Entry} (hpath : path ≠ []) (hwatched : Watched target path)
    (hevent : event.path? = some path) (htold : event.Tells old (old.put path e)) :
    Observed target old (old.put path e) event := by
  refine ⟨fun p hp => ?_, htold, fun p _ hp => ?_⟩
  · rw [← Option.some.inj (hevent.symm.trans hp)]
    exact hwatched
  · have hne : p ≠ path := fun heq => hp (hevent.trans (congrArg some heq.symm))
    rw [FileTree.isFile, FileTree.entry?_put hpath, if_neg hne]
    rfl

namespace Sample

/-- A clean file beside a directory for what is built. -/
def built : Workplace where
  files := (({} : FileTree).write ["p", "a.py"] "x = 1\n".toUTF8.toList).addDirectory ["p", "build"]
  parser := Grammar.parse

/-- The files when one with a finding has come to the path. -/
def grown (path : Path.Parts) : FileTree :=
  built.files.put path (.file "df.index = 1\n".toUTF8.toList)

def arrival (path : Path.Parts) : List (FileTree × WatchEvent) := [(grown path, .added path)]

end Sample

/-- The state stays in step when a file comes that is found. -/
theorem run_inStep_iff_found :
    ∃ out, (Scan.scan Sample.built {} ["p"]).outcome = .ok out ∧
      InStep (Sample.grown ["p", "c.py"]) ["p"]
        (Sample.session.run Grammar.parse (WatchState.ofScan out)
          (Sample.arrival ["p", "c.py"])) := by
  have hok : (Scan.scan Sample.built {} ["p"]).outcome.toBool = true := by decide +kernel
  have hobserved : Observed ["p"] Sample.built.files (Sample.grown ["p", "c.py"])
      (.added ["p", "c.py"]) :=
    observed_put (by decide) ⟨["c.py"], rfl, by decide +kernel⟩ rfl
      ⟨by decide +kernel, by decide +kernel⟩
  have hfound : Discovery.findFiles (Sample.grown ["p", "c.py"]) ["p"] [] =
      .ok [["p", "a.py"], ["p", "c.py"]] := by decide +kernel
  have hharmless : ∀ x ∈ Sample.arrival ["p", "c.py"],
      Harmless Sample.session Grammar.parse ["p"] x := by
    refine List.forall_mem_singleton.2 fun _ => ⟨?_, ["c.py"], rfl, ?_⟩
    · decide +kernel
    · decide +kernel
  cases hscan : (Scan.scan Sample.built {} ["p"]).outcome with
  | error e =>
    rw [hscan] at hok
    cases hok
  | ok out =>
    have hstay := (run_inStep_iff Sample.session Sample.built ["p"] out rfl (by decide +kernel)
      (by decide +kernel) hscan (Sample.arrival ["p", "c.py"])
      ⟨by decide +kernel, ⟨_, hfound⟩, hobserved, trivial⟩ (by decide +kernel)).2 hharmless
    exact ⟨out, rfl, hstay (Sample.arrival ["p", "c.py"]) [] rfl⟩

/-- A file that comes under `build` is counted, though no scan would find it. -/
theorem added_build_drifts :
    ∃ out, (Scan.scan Sample.built {} ["p"]).outcome = .ok out ∧
      Chronicle ["p"] Sample.built.files (Sample.arrival ["p", "build", "b.py"]) ∧
      (∀ x ∈ Sample.arrival ["p", "build", "b.py"], Sample.session.Rechecks Grammar.parse x) ∧
      (Sample.session.run Grammar.parse (WatchState.ofScan out)
        (Sample.arrival ["p", "build", "b.py"])).diagnostics.keys = ["/p/build/b.py"] ∧
      ¬ InStep (Sample.grown ["p", "build", "b.py"]) ["p"]
        (Sample.session.run Grammar.parse (WatchState.ofScan out)
          (Sample.arrival ["p", "build", "b.py"])) := by
  have hstate : (Scan.scan Sample.built {} ["p"]).outcome.map (fun out =>
      (Sample.session.run Grammar.parse (WatchState.ofScan out)
        (Sample.arrival ["p", "build", "b.py"])).diagnostics.keys) = .ok ["/p/build/b.py"] := by
    decide +kernel
  have hfound : Discovery.findFiles (Sample.grown ["p", "build", "b.py"]) ["p"] [] =
      .ok [["p", "a.py"]] := by decide +kernel
  have hobserved : Observed ["p"] Sample.built.files (Sample.grown ["p", "build", "b.py"])
      (.added ["p", "build", "b.py"]) :=
    observed_put (by decide) ⟨["build", "b.py"], rfl, by decide +kernel⟩ rfl
      ⟨by decide +kernel, by decide +kernel⟩
  cases hscan : (Scan.scan Sample.built {} ["p"]).outcome with
  | error e =>
    rw [hscan] at hstate
    cases hstate
  | ok out =>
    rw [hscan] at hstate
    have hkeys : (Sample.session.run Grammar.parse (WatchState.ofScan out)
        (Sample.arrival ["p", "build", "b.py"])).diagnostics.keys = ["/p/build/b.py"] :=
      Except.ok.inj hstate
    refine ⟨out, rfl, ⟨by decide +kernel, ⟨_, hfound⟩, hobserved, trivial⟩, by decide +kernel,
      hkeys, ?_⟩
    rintro ⟨paths, hpaths, -, htracked⟩
    have hname : "/p/build/b.py" ∈ paths.map Path.toText := by
      refine htracked _ (List.mem_append_left _ ?_)
      rw [hkeys]
      exact List.mem_singleton_self _
    rw [← Except.ok.inj (hfound.symm.trans hpaths)] at hname
    exact absurd hname (by decide)

end Session
end ChainLint
