import ChainLint.Proofs.Files.Listed

/-!
# ChainLint.Proofs.Files.Discovered

The files that a directory stands for.

* `Glob.ending`: the pattern for all names with an ending, wherever they are. `covers_ending`: it
  covers the paths whose last component ends so. `any_covers_sourcePatterns`: the sources are what
  two patterns of this form cover.
* `visibleDirectories`: the ignored directories that are not hidden anyway. `isChecked_iff_names`:
  with no patterns of the user's own, the names of a path say whether it is checked.
* `isExcluded_mono`, `findFiles_sublist`: more patterns exclude more.
* `findFiles_lists_sources`: what is found below a directory, and in which order.
-/

namespace ChainLint

/-! ## Patterns for endings -/

namespace Glob

variable {path : Path.Parts}

/-- All names with this ending, in whatever directory. -/
def ending (suffix : String) : Glob := ⟨[.deep, .name (.run :: (units suffix).map .unit)]⟩

theorem matchPieces_run_units {us vs : List Nat} :
    matchPieces (.run :: us.map .unit) vs = true ↔ us <:+ vs := by
  rw [matchPieces, List.any_eq_true]
  constructor
  · rintro ⟨rest, hrest, hmatch⟩
    rw [← matchPieces_unit.1 hmatch]
    exact mem_suffixes.1 hrest
  · intro h
    exact ⟨us, mem_suffixes.2 h, matchPieces_unit.2 rfl⟩

theorem covers_ending {suffix : String} :
    (ending suffix).covers path = true ↔
      path.getLast?.any (fun name => Text.endsWith name suffix) = true := by
  rw [covers, ending, matchSegments, List.any_eq_true, Option.any_eq_true]
  have hname : ∀ name, matchPieces (.run :: (units suffix).map .unit) (units name) = true ↔
      Text.endsWith name suffix = true := by
    intro name
    rw [matchPieces_run_units, Text.endsWith, List.isSuffixOf_iff_suffix]
    exact Text.units_suffix_iff
  constructor
  · rintro ⟨rest, hrest, hmatch⟩
    obtain ⟨front, rfl⟩ := mem_suffixes.1 hrest
    cases rest with
    | nil => cases hmatch
    | cons name rest =>
      obtain ⟨hpieces, hend⟩ := (Bool.and_eq_true _ _).mp hmatch
      have hnil : rest = [] := List.isEmpty_iff.1 hend
      rw [hnil]
      exact ⟨name, List.getLast?_concat, (hname name).1 hpieces⟩
  · rintro ⟨name, hlast, hends⟩
    obtain ⟨front, rfl⟩ := List.getLast?_eq_some_iff.1 hlast
    refine ⟨[name], mem_suffixes.2 (List.suffix_append _ _), ?_⟩
    exact (Bool.and_eq_true _ _).mpr ⟨(hname name).2 hends, rfl⟩

end Glob

namespace Discovery

variable {rel : Path.Parts} {exclude more : List String}

/-! ## Checked paths -/

/-- What is looked for. -/
def sourcePatterns : List String := ["**/*.py", "**/*.pyw"]

theorem parse_sourcePatterns :
    sourcePatterns.flatMap Glob.parse = [Glob.ending ".py", Glob.ending ".pyw"] := by
  decide +kernel

theorem any_covers_sourcePatterns :
    (∃ g ∈ sourcePatterns.flatMap Glob.parse, g.covers rel = true) ↔
      rel.getLast?.any isSource = true := by
  simp only [parse_sourcePatterns, List.exists_mem_cons_iff, List.not_mem_nil, false_and,
    exists_false, or_false, Glob.covers_ending, Option.any_eq_true, ← exists_or, ← and_or_left,
    isSource, Bool.or_eq_true]

/-- The ignored directories that would not be left out as hidden ones. -/
def visibleDirectories : List String := ignoredDirectories.filter (fun d => !isHidden d)

theorem visibleDirectories_eq :
    visibleDirectories = ["node_modules", "venv", "__pycache__", "build", "dist"] := by
  decide

theorem isSource_of_mem_ignoredDirectories :
    ∀ d ∈ ignoredDirectories, isSource d = false := by
  decide

theorem isChecked_iff_names : isChecked (patterns []) rel = true ↔
    ∃ dirs name, rel = dirs ++ [name] ∧
      (Text.endsWith name ".py" = true ∨ Text.endsWith name ".pyw" = true) ∧
      (∀ c ∈ dirs ++ [name], Text.startsWith c "." = false) ∧
      ∀ d ∈ dirs, d ∉ visibleDirectories := by
  rw [isChecked_iff]
  constructor
  · rintro ⟨hlast, hhidden, hdirs⟩
    obtain ⟨name, hname, hsource⟩ := (Option.any_eq_true _ _).1 hlast
    obtain ⟨dirs, rfl⟩ := List.getLast?_eq_some_iff.1 hname
    refine ⟨dirs, name, rfl, (Bool.or_eq_true _ _).mp hsource, hhidden, fun d hd hvisible => ?_⟩
    exact hdirs d (List.mem_of_mem_filter hvisible) (List.mem_append_left _ hd)
  · rintro ⟨dirs, name, rfl, hends, hhidden, hdirs⟩
    have hsource : isSource name = true := (Bool.or_eq_true _ _).mpr hends
    refine ⟨?_, hhidden, fun d hd hrel => ?_⟩
    · rw [List.getLast?_concat]
      exact hsource
    · have hshown : isHidden d = false := hhidden d hrel
      have hvisible : d ∈ visibleDirectories := List.mem_filter.2 ⟨hd, by rw [hshown]; rfl⟩
      rcases List.mem_append.1 hrel with hrel | hrel
      · exact hdirs d hrel hvisible
      · -- The last component is a source, and no ignored directory has such a name.
        rw [List.mem_singleton.1 hrel] at hd
        cases (isSource_of_mem_ignoredDirectories name hd).symm.trans hsource

/-! ## More patterns -/

theorem isExcluded_mono (h : exclude ⊆ more) (hrel : isExcluded (patterns exclude) rel = true) :
    isExcluded (patterns more) rel = true := by
  obtain ⟨g, hg, hexcluded⟩ := List.any_eq_true.1 hrel
  obtain ⟨s, hs, hg⟩ := List.mem_flatMap.1 hg
  have hs : s ∈ ignoredDirectories.map ignorePattern ++ more :=
    List.mem_append.2 ((List.mem_append.1 hs).imp_right fun hs => h hs)
  exact List.any_eq_true.2 ⟨g, List.mem_flatMap.2 ⟨s, hs, hg⟩, hexcluded⟩

theorem isChecked_antitone (h : exclude ⊆ more) (hrel : isChecked (patterns more) rel = true) :
    isChecked (patterns exclude) rel = true := by
  simp only [isChecked, Bool.and_eq_true, Bool.not_eq_true'] at hrel ⊢
  refine ⟨hrel.1, ?_⟩
  rw [← Bool.not_eq_true]
  intro hexcluded
  cases hrel.2.symm.trans (isExcluded_mono h hexcluded)

variable {t : FileTree} {target : Path.Parts} {paths fewer : List Path.Parts}

/-- With more patterns no other files are found, and in the same order. -/
theorem findFiles_sublist (h : exclude ⊆ more) (hpaths : findFiles t target exclude = .ok paths)
    (hfewer : findFiles t target more = .ok fewer) : fewer.Sublist paths := by
  unfold findFiles at hpaths hfewer
  by_cases hsource : isSource (Path.toText target) = true
  · rw [if_pos hsource] at hpaths hfewer
    cases hpaths
    cases hfewer
    exact .refl _
  · rw [if_neg hsource] at hpaths hfewer
    by_cases hway : (t.isFile target || t.leadsThroughFile target) = true
    · rw [if_pos hway] at hpaths
      cases hpaths
    · rw [if_neg hway] at hpaths hfewer
      cases hpaths
      cases hfewer
      refine sortBy_sublist ?_ ?_ (List.Sublist.map _ ?_)
      · exact fun a b c hab hbc => Text.le_trans hab hbc
      · exact fun a b => Text.le_total (Path.toText a) (Path.toText b)
      · exact List.monotone_filter_right _ fun rel => isChecked_antitone h

/-! ## Found files -/

/-- Below a directory all sources are found, once each and in the order of their names by code unit:
the files that a pattern of sources covers, none of whose components is hidden and that no pattern
excludes. Without patterns of the user's own these are the files whose name ends as that of a source
does and on the way to which no directory is hidden or has the name of an ignored one. With more
patterns no other files are found. -/
theorem findFiles_lists_sources (ht : t.Proper) (hsource : isSource (Path.toText target) = false)
    (hfile : t.isFile target = false) (hway : t.leadsThroughFile target = false) :
    ∃ found : List String → List Path.Parts,
      (∀ exclude, findFiles t target exclude = .ok (found exclude) ∧ (found exclude).Nodup ∧
        ((found exclude).map Path.toText).Pairwise Text.Before) ∧
      (∀ exclude p, p ∈ found exclude ↔ t.isFile p = true ∧ ∃ rel, p = target ++ rel ∧
        (∃ g ∈ sourcePatterns.flatMap Glob.parse, g.covers rel = true) ∧
        (∀ c ∈ rel, isHidden c = false) ∧ isExcluded (patterns exclude) rel = false) ∧
      (∀ p, p ∈ found [] ↔ t.isFile p = true ∧ ∃ dirs name, p = target ++ (dirs ++ [name]) ∧
        (Text.endsWith name ".py" = true ∨ Text.endsWith name ".pyw" = true) ∧
        (∀ c ∈ dirs ++ [name], Text.startsWith c "." = false) ∧
        ∀ d ∈ dirs, d ∉ ["node_modules", "venv", "__pycache__", "build", "dist"]) ∧
      ∀ exclude more, exclude ⊆ more → (found more).Sublist (found exclude) := by
  choose found hfound using findFiles_ok hfile hway
  refine ⟨found, fun exclude => ?_, fun exclude p => ?_, fun p => ?_, fun exclude more h => ?_⟩
  · have hincreasing := findFiles_increasing ht (hfound exclude)
    have hnodup : ((found exclude).map Path.toText).Nodup := hincreasing.imp Text.Before.ne
    exact ⟨hfound exclude, hnodup.of_map _, hincreasing⟩
  · rw [mem_findFiles hsource (hfound exclude)]
    simp only [any_covers_sourcePatterns, isChecked, Bool.and_eq_true, Bool.not_eq_true',
      List.any_eq_false, Bool.not_eq_true, and_assoc]
  · rw [mem_findFiles hsource (hfound [])]
    simp only [isChecked_iff_names, visibleDirectories_eq]
    refine and_congr_right fun _ => ⟨?_, ?_⟩
    · rintro ⟨_, rfl, dirs, name, rfl, h⟩
      exact ⟨dirs, name, rfl, h⟩
    · rintro ⟨dirs, name, rfl, h⟩
      exact ⟨_, rfl, dirs, name, rfl, h⟩
  · exact findFiles_sublist h (hfound exclude) (hfound more)

/-- The name `build` is ignored as that of a directory, not as a part of another name, and a pattern
of the user's own leaves out one file more. -/
theorem findFiles_lists_sources_build :
    let t : FileTree := { entries := [
      (["p", "x.build", "y.py"], .file []), (["p", "build.py"], .file []),
      (["p", "build", "b.py"], .file []), (["p", ".h", "c.py"], .file []),
      (["p", "a.pyw"], .file []), (["q.py"], .file [])] }
    let all := [["p", "a.pyw"], ["p", "build.py"], ["p", "x.build", "y.py"]]
    ∃ fewer, findFiles t ["p"] [] = .ok all ∧ findFiles t ["p"] ["a.*"] = .ok fewer ∧
      fewer.Sublist all ∧ ["p", "a.pyw"] ∉ fewer ∧
      ∀ p, p ∈ all → t.isFile p = true ∧ ∃ rel, p = ["p"] ++ rel ∧
        ∃ g ∈ sourcePatterns.flatMap Glob.parse, g.covers rel = true := by
  intro t all
  have hsource : isSource (Path.toText ["p"]) = false := by decide
  obtain ⟨found, hfound, hglobs, -, hfewer⟩ :=
    findFiles_lists_sources (t := t) (by decide) hsource (by decide) (by decide)
  have hall : found [] = all := Except.ok.inj ((hfound []).1.symm.trans (by decide +kernel))
  have hpattern : found ["a.*"] = [["p", "build.py"], ["p", "x.build", "y.py"]] :=
    Except.ok.inj ((hfound ["a.*"]).1.symm.trans (by decide +kernel))
  refine ⟨found ["a.*"], hall ▸ (hfound []).1, (hfound ["a.*"]).1, ?_, ?_, fun p hp => ?_⟩
  · exact hall ▸ hfewer [] ["a.*"] (List.nil_subset _)
  · rw [hpattern]
    decide
  · obtain ⟨hp, rel, hrel, hcovers, -⟩ := (hglobs [] p).1 (hall ▸ hp)
    exact ⟨hp, rel, hrel, hcovers⟩

end Discovery
end ChainLint
