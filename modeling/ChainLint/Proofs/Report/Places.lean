import ChainLint.Proofs.Files.Names
import ChainLint.Proofs.Table
import ChainLint.Report.Grouped
import Mathlib.Data.List.Induction

/-!
# ChainLint.Proofs.Report.Places

Paths as they are shown.

* `walk_relativeParts`: the way from one place to another leads there. `resolve_relative`: so does
  its text, read from the first place.
* `resolve_display`: a path as it is shown still names its file, for someone at the place from
  which it is shown.
* `place_identifies_file`: no two files are shown alike, so findings fall into the same groups by
  the paths shown as by their files.
-/

namespace ChainLint

namespace Path

/-! ## Ways between places -/

theorem walk_append (start : Parts) (cs ds : List String) :
    walk start (cs ++ ds) = walk (walk start cs) ds :=
  List.foldl_append

/-- One step up for each component leads out of them. -/
theorem walk_up (here gone : Parts) :
    walk (here ++ gone) (List.replicate gone.length "..") = here := by
  induction gone using List.reverseRecOn with
  | nil => exact List.append_nil here
  | append_singleton gone s ih =>
    have hstep : walk (here ++ (gone ++ [s])) [".."] = here ++ gone := by
      rw [← List.append_assoc]
      exact List.dropLast_concat
    rw [List.length_append, List.length_singleton, Nat.add_comm,
      ← List.replicate_append_replicate, walk_append]
    exact (congrArg (walk · _) hstep).trans ih

/-- The way leads from `start` to `goal`, in whatever directory both are. -/
theorem walk_relativeParts (here start : Parts) {goal : Parts} (h : Proper goal) :
    walk (here ++ start) (relativeParts start goal) = here ++ goal := by
  induction start generalizing here goal with
  | nil =>
    rw [List.append_nil]
    exact walk_of_proper h here
  | cons s start ih =>
    have hup := walk_up here (s :: start)
    cases goal with
    | nil =>
      rw [List.append_nil]
      exact (congrArg (walk _) (List.append_nil _)).trans hup
    | cons t goal =>
      have hgoal : Proper goal := fun u hu => h u (List.mem_cons_of_mem t hu)
      rw [relativeParts]
      split
      · -- The common component joins the directory that both are in.
        rename_i hst
        have hrest := ih (here ++ [t]) hgoal
        rw [List.append_assoc, List.append_assoc] at hrest
        rw [hst]
        exact hrest
      · rw [walk_append]
        exact (congrArg (walk · _) hup).trans (walk_of_proper h here)

theorem mem_relativeParts {start goal : Parts} {s : String} (h : s ∈ relativeParts start goal) :
    s = ".." ∨ s ∈ goal := by
  fun_induction relativeParts start goal with
  | case1 start t goal ih => exact (ih h).imp_right (List.mem_cons_of_mem t)
  | case2 => exact (List.mem_append.1 h).imp_left List.eq_of_mem_replicate
  | case3 => exact (List.mem_append.1 h).imp_left List.eq_of_mem_replicate

/-! ## Their texts -/

theorem walk_components {cs : List String} (h : ∀ c ∈ cs, '/' ∉ c.toList) (start : Parts) :
    walk start (components (Text.joinWith "/" cs)) = walk start cs := by
  cases cs with
  | nil => rfl
  | cons c cs => rw [components, splitAt_joinWith h]

/-- What begins with a component that is not empty does not begin with a separator. -/
theorem isAbsolute_joinWith {cs : List String} (h : ∀ c ∈ cs, c ≠ "" ∧ '/' ∉ c.toList) :
    isAbsolute (Text.joinWith "/" cs) = false := by
  cases cs with
  | nil => rfl
  | cons c cs =>
    obtain ⟨hne, hslash⟩ := h c List.mem_cons_self
    obtain ⟨x, rest, hc⟩ := List.exists_cons_of_ne_nil (mt String.toList_eq_nil_iff.1 hne)
    have hx : ('/' == x) = false := by
      rw [beq_eq_false_iff_ne]
      rintro rfl
      exact hslash (hc ▸ List.mem_cons_self)
    have hjoin : ∃ more, (Text.joinWith "/" (c :: cs)).toList = x :: more := by
      cases cs with
      | nil => exact ⟨rest, hc⟩
      | cons d cs => simp [Text.joinWith, hc]
    obtain ⟨more, hmore⟩ := hjoin
    simp [isAbsolute, Text.startsWith, List.isPrefixOf, hmore, hx]

variable {base : Parts} {cwd path start goal : String}

theorem resolve_relative (h : Proper (resolve base goal)) :
    resolve (resolve base start) (relative base start goal) = resolve base goal := by
  have hway : ∀ c ∈ relativeParts (resolve base start) (resolve base goal),
      c ≠ "" ∧ '/' ∉ c.toList := by
    intro c hc
    rcases mem_relativeParts hc with rfl | hc
    · decide
    · obtain ⟨hempty, -, -, hslash⟩ := h c hc
      exact ⟨hempty, hslash⟩
  rw [relative, resolve, isAbsolute_joinWith hway, if_neg Bool.false_ne_true,
    walk_components fun c hc => (hway c hc).2]
  exact walk_relativeParts [] (resolve base start) h

/-! ## Shown paths -/

/-- An absolute path names the same file everywhere. -/
theorem resolve_of_isAbsolute (h : isAbsolute path = true) (base base' : Parts) :
    resolve base path = resolve base' path := by
  rw [resolve, resolve, if_pos h, if_pos h]

/-- A path as it is shown, read at the place from which it is shown, names its file. -/
theorem resolve_display (h : isAbsolute path = true) (base : Parts) (cwd : String) :
    resolve (resolve base cwd) (display base cwd path) = resolve base path := by
  simp only [display]
  split
  · exact resolve_of_isAbsolute h _ _
  · have hroot : Proper [] := fun s hs => nomatch hs
    refine resolve_relative ?_
    rw [resolve_of_isAbsolute h base []]
    exact proper_resolve hroot path

theorem display_injective {p q : Parts} (hp : Proper p) (hq : Proper q)
    (h : display base cwd (toText p) = display base cwd (toText q)) : p = q := by
  rw [← resolve_toText hp base, ← resolve_toText hq base,
    ← resolve_display (isAbsolute_toText p) base cwd, h,
    resolve_display (isAbsolute_toText q) base cwd]

end Path

namespace Report

/-- A path as it is shown always tells the file. Read at the place from which it is shown, it names
what the path itself names, however that was written. So two files are never shown alike, and the
findings of normalised paths are grouped by the paths shown as they are by file. -/
theorem place_identifies_file (s : Setting) :
    (∀ path, Path.isAbsolute path = true →
      Path.resolve (Path.resolve s.base s.cwd) (s.place path) = Path.resolve s.base path) ∧
    (∀ p q, Path.Proper p → Path.Proper q → p ≠ q →
      s.place (Path.toText p) ≠ s.place (Path.toText q)) ∧
    ∀ ds : List Diagnostic, (∀ d ∈ ds, ∃ p, Path.Proper p ∧ d.filePath = Path.toText p) →
      groupBy (fun d => s.place d.filePath) ds =
        (groupBy Diagnostic.filePath ds).map (fun g => (s.place g.1, g.2)) := by
  refine ⟨fun path h => Path.resolve_display h s.base s.cwd, ?_, ?_⟩
  · intro p q hp hq hne hplace
    exact hne (Path.display_injective hp hq hplace)
  · intro ds hds
    refine groupBy_rename fun d hd e he hplace => ?_
    obtain ⟨p, hp, hdp⟩ := hds d hd
    obtain ⟨q, hq, heq⟩ := hds e he
    rw [hdp, heq] at hplace ⊢
    rw [Path.display_injective hp hq hplace]

/-- From `/a/b`, the first of these paths is shown as it is written, since the name of the file
begins with dots; `/a/bc` is not taken for a part of `/a/b`; and the findings of the last two files
fall into two groups. -/
theorem place_identifies_file_dots :
    let s : Setting := ⟨false, ["home"], "/a/./b/"⟩
    let found (path : String) (line : Int) : Diagnostic :=
      { ruleId := "PMC001", message := "m", line, column := 0, filePath := path,
        codeSnippet := [], fix := "" }
    let ds := [found "/a/b/x.py" 1, found "/a/b/..y.py" 2, found "/a/b/x.py" 3]
    (Path.isAbsolute "/a//b/../b/..y.py" = true ∧
      Path.resolve (Path.resolve s.base s.cwd) (s.place "/a//b/../b/..y.py") =
        Path.resolve s.base "/a//b/../b/..y.py") ∧
    s.place (Path.toText ["a", "b", "c.py"]) ≠ s.place (Path.toText ["a", "bc", "c.py"]) ∧
    (groupBy Diagnostic.filePath ds).length = 2 ∧
    groupBy (fun d => s.place d.filePath) ds =
      (groupBy Diagnostic.filePath ds).map (fun g => (s.place g.1, g.2)) := by
  intro s found ds
  obtain ⟨hplace, hapart, hgroups⟩ := place_identifies_file s
  have habsolute : Path.isAbsolute "/a//b/../b/..y.py" = true := by decide
  refine ⟨⟨habsolute, hplace _ habsolute⟩, ?_, by decide, hgroups ds ?_⟩
  · exact hapart _ _ (by decide) (by decide) (by decide)
  · simp only [ds, List.forall_mem_cons, List.not_mem_nil, false_implies, implies_true, and_true]
    exact ⟨⟨["a", "b", "x.py"], by decide⟩, ⟨["a", "b", "..y.py"], by decide⟩,
      ⟨["a", "b", "x.py"], by decide⟩⟩

end Report
end ChainLint
