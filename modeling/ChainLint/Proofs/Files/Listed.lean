import ChainLint.Proofs.Files.Found

/-!
# ChainLint.Proofs.Files.Listed

Which files are found below a directory.

* `Glob.within`: the pattern for all that is in a directory of some name, wherever it is.
  `covers_within`: it covers the paths that lead through that name. `parse_ignorePattern`: the
  patterns of the ignored directories are of this form.
* `isExcluded_iff`, `isChecked_iff`: with no patterns of the user's own, a path is excluded, and
  checked, by the names it leads through.
* `isSource_toText`: the name of the file alone says whether a path is one of a source.
* `mem_findFiles`: the files found are those of the tree that are checked.
-/

namespace ChainLint

theorem FileTree.Proper.of_isFile {t : FileTree} {p : Path.Parts} (h : t.Proper)
    (hfile : t.isFile p = true) : Path.Proper p := by
  obtain ⟨-, e, he, -⟩ := FileTree.entry?_of_isFile hfile
  exact h p (Table.mem_keys_iff.2 ⟨e, he⟩)

/-! ## Patterns for directories -/

namespace Glob

theorem mem_suffixes {α : Type} {l r : List α} : r ∈ suffixes l ↔ r <:+ l := by
  induction l with
  | nil => rw [suffixes, List.mem_singleton, List.suffix_nil]
  | cons x l ih => rw [suffixes, List.mem_cons, List.suffix_cons_iff, ih]

theorem matchPieces_unit {us vs : List Nat} :
    matchPieces (us.map .unit) vs = true ↔ vs = us := by
  induction us generalizing vs with
  | nil => simp [matchPieces]
  | cons u us ih =>
    cases vs with
    | nil => simp [matchPieces]
    | cons v vs => simp [matchPieces, ih]

theorem units_eq_iff {s t : String} : units s = units t ↔ s = t :=
  ⟨fun h => String.toList_injective (Text.units_injective h), congrArg units⟩

/-- All that is in a directory of this name. -/
def within (name : String) : Glob := ⟨[.deep, .name ((units name).map .unit), .deep]⟩

theorem covers_within {name : String} {path : Path.Parts} :
    (within name).covers path = true ↔ name ∈ path := by
  have hrest : ∀ rest, (suffixes rest).any (matchSegments []) = true := by
    intro rest
    exact List.any_eq_true.2 ⟨[], mem_suffixes.2 rest.nil_suffix, rfl⟩
  rw [covers, within, matchSegments, List.any_eq_true, List.mem_iff_append]
  constructor
  · rintro ⟨suffix, hsuffix, hmatch⟩
    obtain ⟨front, rfl⟩ := mem_suffixes.1 hsuffix
    cases suffix with
    | nil => cases hmatch
    | cons c rest =>
      obtain ⟨hname, -⟩ := (Bool.and_eq_true _ _).mp hmatch
      rw [units_eq_iff.1 (matchPieces_unit.1 hname)]
      exact ⟨front, rest, rfl⟩
  · rintro ⟨front, rest, rfl⟩
    refine ⟨name :: rest, mem_suffixes.2 (List.suffix_append _ _), ?_⟩
    rw [matchSegments, matchSegments, hrest, Bool.and_true]
    exact matchPieces_unit.2 rfl

end Glob

/-! ## Excluded paths -/

namespace Discovery

variable {path rel : Path.Parts}

theorem parse_ignorePattern :
    ∀ d ∈ ignoredDirectories, Glob.parse (ignorePattern d) = [Glob.within d] := by
  decide +kernel

theorem flatMap_parse_ignorePattern {ds : List String} (h : ds ⊆ ignoredDirectories) :
    (ds.map ignorePattern ++ []).flatMap Glob.parse = ds.map Glob.within := by
  rw [List.append_nil, List.flatMap_map, List.map_eq_flatMap]
  exact List.flatMap_congr fun d hd => parse_ignorePattern d (h hd)

theorem mem_of_mem_directories {dir : Path.Parts} {name : String} (h : dir ∈ directories path)
    (hname : name ∈ dir) : name ∈ path := by
  obtain ⟨n, -, rfl⟩ := List.mem_map.1 (List.mem_filter.1 h).1
  exact List.mem_of_mem_take hname

/-- What the ignored directories hold is left out, and nothing else. -/
theorem isExcluded_iff :
    isExcluded (patterns []) path = true ↔ ∃ d ∈ ignoredDirectories, d ∈ path := by
  rw [isExcluded, patterns, flatMap_parse_ignorePattern (List.Subset.refl _), List.any_map,
    List.any_eq_true]
  refine exists_congr fun d => and_congr_right fun _ => ?_
  simp only [Function.comp_apply, Bool.or_eq_true, Bool.and_eq_true, Glob.covers_within,
    List.any_eq_true]
  constructor
  · rintro (h | ⟨-, dir, hdir, h⟩)
    · exact h
    · exact mem_of_mem_directories hdir h
  · exact .inl

/-- With no patterns of the user's own, a path is checked by its names. -/
theorem isChecked_iff : isChecked (patterns []) rel = true ↔
    rel.getLast?.any isSource = true ∧ (∀ name ∈ rel, isHidden name = false) ∧
      ∀ d ∈ ignoredDirectories, d ∉ rel := by
  have hexcluded : isExcluded (patterns []) rel = false ↔ ∀ d ∈ ignoredDirectories, d ∉ rel := by
    rw [← Bool.not_eq_true, isExcluded_iff]
    simp
  simp only [isChecked, Bool.and_eq_true, Bool.not_eq_true', hexcluded, and_assoc]
  simp

/-! ## Names of sources -/

theorem suffix_append_cons_iff {α : Type} {x : α} {s l r : List α} (h : x ∉ s) :
    s <:+ l ++ x :: r ↔ s <:+ r := by
  constructor
  · intro hs
    rcases List.suffix_or_suffix_of_suffix hs (List.suffix_append l (x :: r)) with hs | hs
    · rcases List.suffix_cons_iff.1 hs with rfl | hs
      · exact absurd List.mem_cons_self h
      · exact hs
    · exact absurd (hs.subset List.mem_cons_self) h
  · intro hs
    exact hs.trans ((List.suffix_cons x r).trans (List.suffix_append l (x :: r)))

theorem toText_append_singleton (p : Path.Parts) (name : String) :
    ∃ l, (Path.toText (p ++ [name])).toList = l ++ '/' :: name.toList := by
  have hjoin : ∀ p, ∃ l,
      '/' :: (Text.joinWith "/" (p ++ [name])).toList = l ++ '/' :: name.toList := by
    intro p
    induction p with
    | nil => exact ⟨[], rfl⟩
    | cons c p ih =>
      obtain ⟨l, hl⟩ := ih
      refine ⟨'/' :: c.toList ++ l, ?_⟩
      cases p with
      | nil => simpa [Text.joinWith] using hl
      | cons d p => simpa [Text.joinWith] using hl
  obtain ⟨l, hl⟩ := hjoin p
  refine ⟨l, ?_⟩
  rw [← hl, Path.toText, String.toList_append]
  rfl

theorem isSource_toText (p : Path.Parts) (name : String) :
    isSource (Path.toText (p ++ [name])) = isSource name := by
  obtain ⟨l, hl⟩ := toText_append_singleton p name
  have hends : ∀ ending : String, '/' ∉ ending.toList →
      Text.endsWith (Path.toText (p ++ [name])) ending = Text.endsWith name ending := by
    intro ending hslash
    rw [Bool.eq_iff_iff, Text.endsWith, Text.endsWith, List.isSuffixOf_iff_suffix,
      List.isSuffixOf_iff_suffix, hl]
    exact suffix_append_cons_iff hslash
  rw [isSource, isSource, hends ".py" (by decide), hends ".pyw" (by decide)]

theorem getLast?_any_isSource (h : rel ≠ []) (target : Path.Parts) :
    rel.getLast?.any isSource = isSource (Path.toText (target ++ rel)) := by
  obtain ⟨front, name, rfl⟩ := rel.eq_nil_or_concat'.resolve_left h
  rw [List.getLast?_concat, ← List.append_assoc, isSource_toText]
  rfl

/-! ## Found files -/

variable {t : FileTree} {target p : Path.Parts} {exclude : List String} {paths : List Path.Parts}

theorem isChecked_ne_nil {globs : List Glob} (h : isChecked globs rel = true) : rel ≠ [] := by
  rintro rfl
  cases h

theorem mem_filesBelow (h : target ++ rel ≠ []) :
    rel ∈ t.filesBelow target ↔ t.isFile (target ++ rel) = true := by
  rw [FileTree.filesBelow, List.mem_filterMap, FileTree.isFile, FileTree.entry?, if_neg h,
    Option.any_eq_true]
  constructor
  · rintro ⟨⟨path, e⟩, he, hrel⟩
    split at hrel
    · rename_i hfile
      rw [FileTree.append_of_below? hrel]
      exact ⟨e, Table.get?_of_mem t.nodup he, hfile⟩
    · cases hrel
  · rintro ⟨e, he, hfile⟩
    refine ⟨_, Table.mem_of_get? he, ?_⟩
    rw [if_pos hfile, FileTree.below?,
      if_pos (List.isPrefixOf_iff_prefix.2 (List.prefix_append target rel)), List.drop_left]

/-- Below a directory, all files are found that are checked. -/
theorem mem_findFiles (hsource : isSource (Path.toText target) = false)
    (h : findFiles t target exclude = .ok paths) :
    p ∈ paths ↔
      t.isFile p = true ∧ ∃ rel, p = target ++ rel ∧ isChecked (patterns exclude) rel = true := by
  rw [findFiles, hsource, if_neg Bool.false_ne_true] at h
  split at h
  · cases h
  · rw [← Except.ok.inj h, mem_sortBy, List.mem_map]
    constructor
    · rintro ⟨rel, hrel, rfl⟩
      obtain ⟨hbelow, hchecked⟩ := List.mem_filter.1 hrel
      have hne := List.append_ne_nil_of_right_ne_nil target (isChecked_ne_nil hchecked)
      exact ⟨(mem_filesBelow hne).1 hbelow, rel, rfl, hchecked⟩
    · rintro ⟨hfile, rel, rfl, hchecked⟩
      have hne := List.append_ne_nil_of_right_ne_nil target (isChecked_ne_nil hchecked)
      exact ⟨rel, List.mem_filter.2 ⟨(mem_filesBelow hne).2 hfile, hchecked⟩, rfl⟩

end Discovery
end ChainLint
