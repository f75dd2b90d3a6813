import ChainLint.Grammar.Parse
import ChainLint.Proofs.Cst.Accepted
import ChainLint.Proofs.Directive
import ChainLint.Proofs.Files.Found
import ChainLint.Proofs.Scan.Verdict
import Mathlib.Data.List.Forall2

/-!
# ChainLint.Proofs.Scan.Suppression

What suppression comments take away from a scan.

* `Directive.Names`: the directive is bare, or one of its codes, in capitals, begins the rule's id.
* `Silenced`: the line of a diagnostic, in the diagnostic's own file, holds such a directive.
* `isSilenced_iff`: the numbers of the directives are those of the lines, counted from one.
* `scan_heeding`: a scan that heeds the comments is the one that does not, less the silenced
  diagnostics.
-/

namespace ChainLint

/-! ## Codes -/

namespace Directive

theorem toUpper_toUpper (c : Char) : c.toUpper.toUpper = c.toUpper := by
  have hcapital : ∀ d : Char, ¬('a'.val ≤ d.val ∧ d.val ≤ 'z'.val) → d.toUpper = d :=
    fun d hd => dif_neg hd
  by_cases hc : 'a'.val ≤ c.val ∧ c.val ≤ 'z'.val
  · obtain ⟨hvalid, hupper⟩ : ∃ hvalid, c.toUpper = ⟨c.val + ('A'.val - 'a'.val), hvalid⟩ :=
      ⟨_, dif_pos hc⟩
    refine hcapital _ ?_
    rw [hupper]
    grind
  · rw [hcapital c hc, hcapital c hc]

/-- Codes are kept in capitals. -/
theorem toUpper_of_mem_codes {cs : List Char} {list : List String} {code : String}
    (h : ofChars cs = some (.codes list)) (hcode : code ∈ list) :
    code.toList.map Char.toUpper = code.toList := by
  induction cs with
  | nil => cases h
  | cons c cs ih =>
    rw [ofChars] at h
    split at h
    · split at h
      · rename_i d hat
        cases h
        unfold atHash at hat
        split at hat
        · cases hat
        · split at hat
          · cases hat
          · cases hat
            obtain ⟨letters, -, rfl⟩ := List.mem_map.1 hcode
            rw [String.toList_ofList, List.map_map]
            exact List.map_congr_left fun c _ => toUpper_toUpper c
      · exact ih h
    · exact ih h

/-- The directive is bare, or one of its codes begins the id. -/
def Names : Directive → String → Prop
  | .all, _ => True
  | .codes list, ruleId => ∃ code ∈ list, code.toList.map Char.toUpper <+: ruleId.toList

theorem names_iff {text ruleId : String} {d : Directive} (h : ofLine text = some d) :
    d.Names ruleId ↔ d.silences ruleId = true := by
  cases d with
  | all => simp [Names, silences]
  | codes list =>
    simp only [Names, silences, List.any_eq_true, Text.startsWith, List.isPrefixOf_iff_prefix]
    constructor
    · rintro ⟨code, hcode, hprefix⟩
      rw [toUpper_of_mem_codes h hcode] at hprefix
      exact ⟨code, hcode, hprefix⟩
    · rintro ⟨code, hcode, hprefix⟩
      rw [← toUpper_of_mem_codes h hcode] at hprefix
      exact ⟨code, hcode, hprefix⟩

end Directive

/-! ## Lines -/

theorem isSilenced_iff {lines : List String} {f : Finding} :
    isSilenced (Directive.ofLines lines) f = true ↔
      ∃ (n : Nat) (text : String) (d : Directive), f.line = n + 1 ∧ lines[n]? = some text ∧
        Directive.ofLine text = some d ∧ d.Names f.ruleId := by
  simp only [isSilenced, List.any_eq_true, Prod.exists, Directive.mem_ofLines, Bool.and_eq_true,
    beq_iff_eq]
  constructor
  · rintro ⟨_, d, ⟨n, text, rfl, htext, hd⟩, hnumber, hsilences⟩
    exact ⟨n, text, d, hnumber.symm, htext, hd, (Directive.names_iff hd).2 hsilences⟩
  · rintro ⟨n, text, d, hnumber, htext, hd, hnames⟩
    exact ⟨n + 1, d, ⟨n, text, rfl, htext, hd⟩, hnumber.symm, (Directive.names_iff hd).1 hnames⟩

/-- The line of the diagnostic, in its file, holds a directive that names its rule. Lines end at
line feeds only and are counted from one. -/
def Silenced (files : FileTree) (d : Diagnostic) : Prop :=
  ∃ source, files.read (Path.resolve [] d.filePath) = .ok source ∧
    ∃ (n : Nat) (text : String) (directive : Directive), d.line = n + 1 ∧
      Text.IsPiece '\n' source.toList n text.toList ∧ Directive.ofLine text = some directive ∧
      directive.Names d.ruleId

theorem silenced_iff {files : FileTree} {d : Diagnostic} {source : String}
    (h : files.read (Path.resolve [] d.filePath) = .ok source) :
    Silenced files d ↔ isSilenced (Directive.ofLines (Text.lines source)) d.toFinding = true := by
  simp only [Silenced, isSilenced_iff, Text.lines, Text.getElem?_splitAt, h, Except.ok.injEq,
    exists_eq_left']

instance (files : FileTree) : DecidablePred (Silenced files) := fun d =>
  match h : files.read (Path.resolve [] d.filePath) with
  | .ok _ => decidable_of_iff _ (silenced_iff h).symm
  | .error _ => .isFalse (by simp [Silenced, h])

/-! ## Scans -/

namespace Scan

/-- A verdict less the silenced diagnostics. -/
def unsilenced (files : FileTree) (v : Verdict) : Verdict :=
  { v with diagnostics := v.diagnostics.filter (fun d => ¬ Silenced files d) }

theorem report_heeding {files : FileTree} {path : Path.Parts} {source : String}
    (hpath : Path.Proper path) (hread : files.read path = .ok source) (found : List Finding) :
    (report (Path.toText path) (Text.lines source) false found).1 =
      unsilenced files (report (Path.toText path) (Text.lines source) true found).1 := by
  have hsilenced : ∀ f, Silenced files (diagnosticOf (Path.toText path) (Text.lines source) f) ↔
      isSilenced (Directive.ofLines (Text.lines source)) f = true := by
    intro f
    refine silenced_iff ?_
    rw [diagnosticOf, Path.resolve_toText hpath]
    exact hread
  have hnone : ∀ f, isSilenced [] f = false := fun _ => rfl
  have hkept : ∀ f, (!isSilenced (Directive.ofLines (Text.lines source)) f) =
      decide (¬ Silenced files (diagnosticOf (Path.toText path) (Text.lines source) f)) := by
    simp [hsilenced]
  simp only [report, unsilenced, directivesOf, if_true, hnone, Bool.not_false, List.filter_true,
    List.filter_map]
  exact congrArg (fun kept => (⟨List.map _ kept, none⟩ : Verdict))
    (List.filter_congr fun f _ => hkept f)

theorem verdict_heeding {w : Workplace} (hfiles : w.files.Proper) (c : Config)
    (path : Path.Parts) :
    verdict w { c with disableNoqa := false } path =
      (verdict w { c with disableNoqa := true } path).map (unsilenced w.files) := by
  simp only [verdict, checkUnder, checkPath]
  cases hread : w.files.read path with
  | error e => rfl
  | ok source =>
    have hreport := report_heeding (hfiles.of_read hread) hread
    rcases readSource_cases w.parser source (Path.toText path) with
      ⟨f, hf⟩ | ⟨message, hmessage⟩ | ⟨root, -, ⟨e, -, he⟩ | ⟨tree, -, htree⟩⟩
    · simp only [checkSource, hf]
      rfl
    · simp only [checkSource, hmessage]
      rfl
    · simp only [checkSource, he]
      rfl
    · have hrules : ∀ b, rulesOf { c with disableNoqa := b } = rulesOf c := fun _ => rfl
      simp only [checkSource, htree, hrules]
      cases check (rulesOf c) tree with
      | error e => cases e <;> rfl
      | ok found => exact congrArg Except.ok (hreport found)

theorem resultOf_unsilenced (files : FileTree) (paths : List Path.Parts)
    (verdicts : List Verdict) :
    resultOf paths (verdicts.map (unsilenced files)) =
      { resultOf paths verdicts with
        diagnostics := (resultOf paths verdicts).diagnostics.filter
          (fun d => ¬ Silenced files d) } := by
  simp only [resultOf, List.filter_flatMap, List.flatMap_map, List.filterMap_map]
  rfl

/-- To heed suppression comments is to scan without them and drop the silenced diagnostics. -/
theorem scan_heeding (w : Workplace) (c : Config) (target : Path.Parts)
    (hfiles : w.files.Proper) :
    (scan w { c with disableNoqa := false } target).outcome =
      (scan w { c with disableNoqa := true } target).outcome.map (fun out =>
        { out with diagnostics := out.diagnostics.filter (fun d => ¬ Silenced w.files d) }) := by
  cases hfound : Discovery.findFiles w.files target c.exclude with
  | error e => simp only [scan, hfound, Except.map]
  | ok paths =>
    rw [scan_of_found (c := { c with disableNoqa := false }) hfound,
      scan_of_found (c := { c with disableNoqa := true }) hfound,
      mapM_congr fun path _ => verdict_heeding hfiles c path, mapM_map]
    cases paths.mapM (verdict w { c with disableNoqa := true }) with
    | error e => rfl
    | ok verdicts => exact congrArg Except.ok (resultOf_unsilenced w.files paths verdicts)

namespace Sample

/-- A directive that names the rule of its line in small letters, one that names another rule, and
a bare one. -/
def noted : Workplace where
  files := ({} : FileTree).write ["p", "a.py"]
    ("df.index = 1  # noqa: pmc00\ndf.index = 2  # noqa: PMC001\n" ++
      "df.index = 3  # NOQA\n").toUTF8.toList
  parser := Grammar.parse

end Sample

theorem scan_heeding_noted :
    (scan Sample.noted { disableNoqa := false } ["p"]).outcome =
      (scan Sample.noted { disableNoqa := true } ["p"]).outcome.map (fun out =>
        { out with
          diagnostics := out.diagnostics.filter (fun d => ¬ Silenced Sample.noted.files d) }) ∧
    (scan Sample.noted { disableNoqa := false } ["p"]).outcome.map
      (fun out => out.diagnostics.map (fun d => (d.ruleId, d.line))) = .ok [("PMC006", 2)] ∧
    (scan Sample.noted { disableNoqa := true } ["p"]).outcome.map
      (fun out => out.diagnostics.map (fun d => (d.ruleId, d.line))) =
        .ok [("PMC006", 1), ("PMC006", 2), ("PMC006", 3)] :=
  ⟨scan_heeding Sample.noted {} ["p"] (by decide +kernel), by decide +kernel, by decide +kernel⟩

end Scan
end ChainLint
