import ChainLint.ConfigFile
import ChainLint.Proofs.Outcome
import ChainLint.Yaml.Document

/-!
# ChainLint.Proofs.ConfigFile

Settings come from one file, as a whole or not at all.

* `Lists`, `Flags`: what an entry of a configuration may be, and what it stands for.
  `stringList_eq_ok`, `flag_eq_ok`: just this is read.
* `Describes`: the settings that a value is written for. `conditions`: what a value has to satisfy,
  in order, and `FirstViolated` the first condition that it does not. `ofYaml_eq_ok` and
  `ofYaml_eq_error`: a value is read exactly when it describes settings, and otherwise the first
  violated condition is the error.
* `Decides`: the file that is consulted.
* `load_decided_by_one_file`: the two together, and that no other file matters.
-/

namespace ChainLint

namespace Config

variable {entries : List (String × Yaml.Value)} {key : String} {v : Yaml.Value} {c : Config}
  {cause : ConfigCause}

/-! ## Entries -/

/-- The list that an entry, or its absence, stands for. -/
inductive Lists : Option Yaml.Value → List String → Prop where
  | absent : Lists none []
  | null : Lists (some .null) []
  | one (s : String) : Lists (some (.string s)) [s]
  | many (l : List String) : Lists (some (.sequence (l.map .string))) l

/-- The flag that an entry, or its absence, stands for. -/
inductive Flags : Option Yaml.Value → Bool → Prop where
  | absent : Flags none false
  | given (b : Bool) : Flags (some (.bool b)) b

/-- A computation with only one error has it when there is no result. -/
theorem eq_error_of_eq_ok {α : Type} {x : Except ConfigCause α} {e : ConfigCause} {P : α → Prop}
    (hok : ∀ a, x = .ok a ↔ P a) (herror : ∀ e', x = .error e' → e' = e) :
    x = .error cause ↔ cause = e ∧ ¬ ∃ a, P a := by
  simp only [← hok]
  cases x with
  | ok a => simp
  | error e' => simp [herror e' rfl, eq_comm]

theorem asString_eq_some {s : String} : asString v = some s ↔ v = .string s := by
  cases v <;> simp [asString]

theorem mapM_asString {items : List Yaml.Value} {l : List String} :
    items.mapM asString = some l ↔ items = l.map .string := by
  induction items generalizing l with
  | nil =>
    cases l with
    | nil => simp
    | cons => simp
  | cons item items ih =>
    cases l with
    | nil => simp [List.mapM_cons, Option.bind_eq_some_iff]
    | cons s l => simp [List.mapM_cons, Option.bind_eq_some_iff, asString_eq_some, ih]

theorem stringList_eq_ok {l : List String} :
    stringList entries key = .ok l ↔ Lists (entries.lookup key) l := by
  rw [stringList]
  generalize entries.lookup key = entry
  constructor
  · intro h
    split at h
    · cases h
      exact .absent
    · cases h
      exact .null
    · cases h
      exact .one _
    · split at h
      · rename_i hitems
        cases h
        rw [mapM_asString.1 hitems]
        exact .many _
      · cases h
    · cases h
  · intro h
    cases h with
    | absent => rfl
    | null => rfl
    | one s => rfl
    | many l => simp [mapM_asString.2 rfl]

/-- Whatever does not stand for a list is an error that names its key. -/
theorem stringList_eq_error :
    stringList entries key = .error cause ↔
      cause = .notStrings key ∧ ¬ ∃ l, Lists (entries.lookup key) l := by
  refine eq_error_of_eq_ok (fun l => stringList_eq_ok) fun e h => ?_
  rw [stringList] at h
  split at h
  · cases h
  · cases h
  · cases h
  · split at h
    · cases h
    · cases h
      rfl
  · cases h
    rfl

theorem flag_eq_ok {b : Bool} : flag entries key = .ok b ↔ Flags (entries.lookup key) b := by
  rw [flag]
  generalize entries.lookup key = entry
  constructor
  · intro h
    split at h
    · cases h
      exact .absent
    · cases h
      exact .given _
    · cases h
  · intro h
    cases h with
    | absent => rfl
    | given b => rfl

theorem flag_eq_error :
    flag entries key = .error cause ↔
      cause = .notBool key ∧ ¬ ∃ b, Flags (entries.lookup key) b := by
  refine eq_error_of_eq_ok (fun b => flag_eq_ok) fun e h => ?_
  rw [flag] at h
  split at h
  · cases h
  · cases h
  · cases h
    rfl

/-! ## Values -/

/-- The entries of an object. Points in time and bytes are objects without entries; sequences are
none. -/
def objectEntries : Yaml.Value → Option (List (String × Yaml.Value))
  | .mapping entries => some entries
  | .instant _ | .bytes _ => some []
  | .null | .bool _ | .number _ | .string _ | .sequence _ => none

/-- What an object has under a key. -/
def entry (v : Yaml.Value) (key : String) : Option Yaml.Value :=
  (objectEntries v).bind (fun entries => entries.lookup key)

/-- The settings that a value is written for: the default ones for nothing, and for an object what
its entries stand for. -/
inductive Describes : Yaml.Value → Config → Prop where
  | nothing : Describes .null {}
  | object {v : Yaml.Value} {c : Config} (hobject : (objectEntries v).isSome)
      (hselect : Lists (entry v "select") c.select) (hignore : Lists (entry v "ignore") c.ignore)
      (hexclude : Lists (entry v "exclude") c.exclude)
      (hflag : Flags (entry v "disable_noqa") c.disableNoqa) : Describes v c

/-- What a value has to satisfy unless it is nothing, with the error if it does not. -/
def conditions (v : Yaml.Value) : List (ConfigCause × Prop) :=
  [(.notMapping, (objectEntries v).isSome),
    (.notStrings "select", ∃ l, Lists (entry v "select") l),
    (.notStrings "ignore", ∃ l, Lists (entry v "ignore") l),
    (.notStrings "exclude", ∃ l, Lists (entry v "exclude") l),
    (.notBool "disable_noqa", ∃ b, Flags (entry v "disable_noqa") b)]

/-- The first condition of a list that does not hold. -/
def FirstFailing (l : List (ConfigCause × Prop)) (cause : ConfigCause) : Prop :=
  ∃ before x after, l = before ++ x :: after ∧ (∀ y ∈ before, y.2) ∧ x.1 = cause ∧ ¬ x.2

/-- The first condition that a value violates. -/
def FirstViolated (v : Yaml.Value) (cause : ConfigCause) : Prop :=
  v ≠ .null ∧ FirstFailing (conditions v) cause

theorem firstFailing_nil : ¬ FirstFailing [] cause := by
  rintro ⟨before, x, after, hl, -⟩
  simp at hl

theorem firstFailing_cons {first : ConfigCause} {p : Prop} {l : List (ConfigCause × Prop)} :
    FirstFailing ((first, p) :: l) cause ↔ cause = first ∧ ¬ p ∨ p ∧ FirstFailing l cause := by
  rw [FirstFailing, exists_first_cons, eq_comm, FirstFailing]

theorem ofEntries_eq_ok :
    ofEntries entries = .ok c ↔ Lists (entries.lookup "select") c.select ∧
      Lists (entries.lookup "ignore") c.ignore ∧ Lists (entries.lookup "exclude") c.exclude ∧
      Flags (entries.lookup "disable_noqa") c.disableNoqa := by
  simp only [ofEntries, bind_eq_ok, pure_eq_ok, stringList_eq_ok, flag_eq_ok]
  constructor
  · rintro ⟨select, hselect, ignore, hignore, exclude, hexclude, flag, hflag, rfl⟩
    exact ⟨hselect, hignore, hexclude, hflag⟩
  · rintro ⟨hselect, hignore, hexclude, hflag⟩
    exact ⟨_, hselect, _, hignore, _, hexclude, _, hflag, rfl⟩

theorem ofEntries_eq_error :
    ofEntries entries = .error cause ↔
      FirstFailing [(.notStrings "select", ∃ l, Lists (entries.lookup "select") l),
        (.notStrings "ignore", ∃ l, Lists (entries.lookup "ignore") l),
        (.notStrings "exclude", ∃ l, Lists (entries.lookup "exclude") l),
        (.notBool "disable_noqa", ∃ b, Flags (entries.lookup "disable_noqa") b)] cause := by
  simp only [ofEntries, bind_eq_error, stringList_eq_ok, stringList_eq_error, flag_eq_error,
    firstFailing_cons, firstFailing_nil, pure, Except.pure, reduceCtorEq, and_false, exists_false,
    or_false, exists_and_right]

theorem ofYaml_of_object (h : objectEntries v = some entries) :
    v ≠ .null ∧ ofYaml v = ofEntries entries := by
  cases v <;> cases h <;> exact ⟨nofun, rfl⟩

theorem ofYaml_of_no_object (h : objectEntries v = none) (hv : v ≠ .null) :
    ofYaml v = .error .notMapping := by
  cases v with
  | null => exact absurd rfl hv
  | mapping | instant | bytes => cases h
  | _ => rfl

/-- A value is read exactly when it describes settings. -/
theorem ofYaml_eq_ok : ofYaml v = .ok c ↔ Describes v c := by
  constructor
  · intro h
    cases hobject : objectEntries v with
    | some entries =>
      rw [(ofYaml_of_object hobject).2, ofEntries_eq_ok] at h
      obtain ⟨hselect, hignore, hexclude, hflag⟩ := h
      refine .object (by simp [hobject]) ?_ ?_ ?_ ?_ <;> rwa [entry, hobject]
    | none =>
      by_cases hv : v = .null
      · subst hv
        cases h
        exact .nothing
      · rw [ofYaml_of_no_object hobject hv] at h
        cases h
  · intro h
    cases h with
    | nothing => rfl
    | object hobject hselect hignore hexclude hflag =>
      obtain ⟨entries, hentries⟩ := Option.isSome_iff_exists.1 hobject
      simp only [entry, hentries, Option.bind_some] at hselect hignore hexclude hflag
      rw [(ofYaml_of_object hentries).2, ofEntries_eq_ok]
      exact ⟨hselect, hignore, hexclude, hflag⟩

/-- Otherwise the error is the first violated condition. -/
theorem ofYaml_eq_error : ofYaml v = .error cause ↔ FirstViolated v cause := by
  rw [FirstViolated, conditions, firstFailing_cons]
  cases hobject : objectEntries v with
  | some entries =>
    obtain ⟨hv, hof⟩ := ofYaml_of_object hobject
    simp [hof, ofEntries_eq_error, hv, entry, hobject]
  | none =>
    by_cases hv : v = .null
    · simp [hv, ofYaml]
    · simp [ofYaml_of_no_object hobject hv, hv, eq_comm]

end Config

namespace ConfigFile

variable {yaml : Yaml.Loader} {t : FileTree} {cwd dir : Path.Parts} {named : Option String}
  {p : Path.Parts}

/-! ## The consulted file -/

/-- The file that decides: the named one, else the first of the two with a usual name that is
there. -/
inductive Decides (t : FileTree) (cwd dir : Path.Parts) : Option String → Path.Parts → Prop where
  | named {name : String} (hname : name ≠ "") :
      Decides t cwd dir (some name) (Path.resolve cwd name)
  | first (h : t.contains (dir ++ [".pmc.yml"]) = true) :
      Decides t cwd dir none (dir ++ [".pmc.yml"])
  | second (hfirst : t.contains (dir ++ [".pmc.yml"]) = false)
      (h : t.contains (dir ++ [".pmc.yaml"]) = true) :
      Decides t cwd dir none (dir ++ [".pmc.yaml"])

theorem consulted_of_decides (h : Decides t cwd dir named p) :
    consulted t cwd dir named = some p := by
  cases h with
  | named hname => simp [consulted, hname]
  | first h => simp [consulted, names, h]
  | second hfirst h => simp [consulted, names, hfirst, h]

theorem load_of_decides (h : Decides t cwd dir named p) :
    load yaml t cwd dir named = ofFile yaml t p := by
  rw [load, consulted_of_decides h]

theorem decides_or_default (hnamed : named ≠ some "") :
    (∃ p, Decides t cwd dir named p) ∨ named = none ∧
      t.contains (dir ++ [".pmc.yml"]) = false ∧ t.contains (dir ++ [".pmc.yaml"]) = false ∧
      load yaml t cwd dir named = .ok {} := by
  cases named with
  | some name => exact .inl ⟨_, .named fun hname => hnamed (congrArg some hname)⟩
  | none =>
    cases hfirst : t.contains (dir ++ [".pmc.yml"]) with
    | true => exact .inl ⟨_, .first hfirst⟩
    | false =>
      cases hsecond : t.contains (dir ++ [".pmc.yaml"]) with
      | true => exact .inl ⟨_, .second hfirst hsecond⟩
      | false =>
        refine .inr ⟨rfl, rfl, rfl, ?_⟩
        simp [load, consulted, names, hfirst, hsecond]

theorem ofFile_of_value {text : String} {v : Yaml.Value} (hread : t.read p = .ok text)
    (hload : yaml text = some v) :
    ofFile yaml t p = (Config.ofYaml v).mapError (fun cause => ⟨cause, Path.toText p⟩) := by
  rw [ofFile, hread]
  simp only [Config.ofText, hload]
  cases Config.ofYaml v with
  | ok c => rfl
  | error cause => rfl

/-- Settings come from the named file or, with none named, from the first of `.pmc.yml` and
`.pmc.yaml` that is there; with none there they are the default ones. Nothing but what is read from
that file matters, so not what the second of the two holds when the first is there, even if that one
cannot be read or is wrong. What cannot be read and what is not YAML are errors that name the file,
and a YAML value gives settings exactly when it describes them: otherwise the error names the file
and the first violated condition. -/
theorem load_decided_by_one_file (yaml : Yaml.Loader) (t : FileTree) (cwd dir : Path.Parts)
    {named : Option String} (hnamed : named ≠ some "") :
    ((∃ p, Decides t cwd dir named p) ∨ named = none ∧
      t.contains (dir ++ [".pmc.yml"]) = false ∧ t.contains (dir ++ [".pmc.yaml"]) = false ∧
      load yaml t cwd dir named = .ok {}) ∧
    ∀ p, Decides t cwd dir named p →
      (∀ t', Decides t' cwd dir named p → t'.read p = t.read p →
        load yaml t' cwd dir named = load yaml t cwd dir named) ∧
      (∀ e, t.read p = .error e →
        load yaml t cwd dir named = .error ⟨.unreadable e.message, Path.toText p⟩) ∧
      ∀ text, t.read p = .ok text →
        (yaml text = none → load yaml t cwd dir named = .error ⟨.invalidYaml, Path.toText p⟩) ∧
        ∀ v, yaml text = some v →
          (∀ c, load yaml t cwd dir named = .ok c ↔ Config.Describes v c) ∧
          ∀ e, load yaml t cwd dir named = .error e ↔
            e.path = Path.toText p ∧ Config.FirstViolated v e.cause := by
  refine ⟨decides_or_default hnamed, fun p hp => ?_⟩
  rw [load_of_decides hp]
  refine ⟨fun t' hp' hread => ?_, fun e he => ?_, fun text htext => ⟨fun hnone => ?_, ?_⟩⟩
  · rw [load_of_decides hp', ofFile, ofFile, hread]
  · rw [ofFile, he]
  · rw [ofFile, htext]
    simp only [Config.ofText, hnone]
  · intro v hv
    rw [ofFile_of_value htext hv]
    simp only [← Config.ofYaml_eq_ok, ← Config.ofYaml_eq_error]
    cases Config.ofYaml v with
    | ok c => simp [Except.mapError]
    | error cause =>
      refine ⟨by simp [Except.mapError], fun e => ?_⟩
      cases e
      simp [Except.mapError, and_comm, eq_comm]

namespace Sample

def text : String := "ignore: [A, 1]"

theorem load_text :
    ∃ v, Yaml.load text = some v ∧ Config.ofYaml v = .error (.notStrings "ignore") := by
  have h : (Yaml.load text).map Config.ofYaml = some (.error (.notStrings "ignore")) := by
    decide +kernel
  exact Option.map_eq_some_iff.1 h

/-- Both usual names are there, and the first one holds a list of the wrong type. -/
def files (second : Entry) : FileTree where
  entries := [(["p", ".pmc.yml"], .file text.toUTF8.toList), (["p", ".pmc.yaml"], second)]
  nodup := (by decide : [["p", ".pmc.yml"], ["p", ".pmc.yaml"]].Nodup)

theorem read_files (second : Entry) : (files second).read ["p", ".pmc.yml"] = .ok text := by
  have htext : Text.Utf8.decode text.toUTF8.toList = text := by decide +kernel
  rw [← htext]
  rfl

end Sample

/-- The first file is wrong, and whether the second one could be read does not matter. -/
theorem load_decided_by_one_file_first :
    let p := ["p", ".pmc.yml"]
    let second := Entry.file "select: A".toUTF8.toList
    Decides (Sample.files second) [] ["p"] none p ∧
      (∃ v, Yaml.load Sample.text = some v ∧ Config.FirstViolated v (.notStrings "ignore")) ∧
      load Yaml.load (Sample.files second) [] ["p"] none =
        .error ⟨.notStrings "ignore", "/p/.pmc.yml"⟩ ∧
      ∀ other, load Yaml.load (Sample.files other) [] ["p"] none =
        load Yaml.load (Sample.files second) [] ["p"] none := by
  intro p second
  have hdecides : ∀ other, Decides (Sample.files other) [] ["p"] none p := fun other => .first rfl
  obtain ⟨v, hload, herror⟩ := Sample.load_text
  have hviolated : Config.FirstViolated v (.notStrings "ignore") := Config.ofYaml_eq_error.1 herror
  obtain ⟨hsame, -, hread⟩ := (load_decided_by_one_file Yaml.load (Sample.files second) [] ["p"]
    (by decide : (none : Option String) ≠ some "")).2 p (hdecides second)
  have hvalue := (hread Sample.text (Sample.read_files second)).2 v hload
  refine ⟨hdecides second, ⟨v, hload, hviolated⟩, ?_, fun other => ?_⟩
  · exact (hvalue.2 ⟨.notStrings "ignore", "/p/.pmc.yml"⟩).2 ⟨by decide, hviolated⟩
  · exact hsame _ (hdecides other)
      ((Sample.read_files other).trans (Sample.read_files second).symm)

end ConfigFile
end ChainLint
