import ChainLint.Proofs.Cst.Converts
import ChainLint.Proofs.Engine.Machine
import ChainLint.Scan.Check

/-!
# ChainLint.Proofs.Cst.Accepted

Trees that come from concrete syntax pass every inspection.

* `Natural`: a concrete node at natural coordinates.
* `accepted_of_converts`: one node. `convertModule_accepted`: whole trees.
* `parsed_accepted`: a text that can be read is checked without an error, whatever the rules, so
  a file that fails as malformed failed while its tree was built.
-/

namespace ChainLint

theorem accept_of_valid {n : Node} (hposition : n.position.Valid) (hknown : n.isKnown = true)
    (hassign : ∀ p hint v, n ≠ .assign p [] hint v) : accept n = .ok () :=
  accept_eq_ok.2 ⟨inspect_eq_ok.2 ⟨hposition, hassign⟩, hknown⟩

namespace Cst

/-- Rows and columns count from zero. -/
def Natural (c : Cst) : Prop := 0 ≤ c.label.row ∧ 0 ≤ c.label.column

theorem Natural.position {c : Cst} (h : c.Natural) : c.position.Valid := by
  refine ⟨Rat.den_intCast _, Rat.den_intCast _, ?_, Rat.intCast_nonneg.2 h.2⟩
  have hrow := h.1
  exact Rat.intCast_le_intCast.2 (show (1 : Int) ≤ c.label.row + 1 by omega)

variable {source : Array (Option Char)}

/-- However a node is converted, its tree is acceptable at the top, or is that of a node inside. -/
theorem accepted_of_converts {below : Cst → Except Malformed Node} {c : Cst} {n : Node}
    (hnatural : c.Natural) (h : Converts source below c n) :
    (∃ d, Inside d c ∧ below d = .ok n) ∨ Accepted n := by
  have hposition := hnatural.position
  cases h with
  | unwrap _ hinner hn => exact .inl ⟨_, .of_part (hinner ▸ List.mem_cons_self), hn⟩
  | assign => exact .inr (accept_of_valid hposition rfl (by simp))
  | _ => exact .inr (accept_of_valid hposition rfl nofun)

theorem convertModule_accepted {root : Cst} {tree : Node} (hnatural : root.Every Natural)
    (h : root.convertModule source = .ok tree) : tree.Every Accepted := by
  refine every_of_convertModule hnatural (fun d m hd => accepted_of_converts hd) ?_ ?_ h
  · exact fun d word v hd => accept_of_valid hd.position rfl nofun
  · exact fun ns => accept_of_valid hnatural.1.position rfl nofun

end Cst

/-- A text is read by building a tree, or else is no matter of trees at all. -/
theorem readSource_cases (parser : Parser) (source filePath : String) :
    (∃ f, readSource parser source filePath = .ok (.failure f)) ∨
    (∃ message, readSource parser source filePath = .error (.plain message)) ∨
    ∃ root, parser source = .parsed root ∧
      ((∃ e, root.convertModule (Text.slots source) = .error e ∧
        readSource parser source filePath = .error (.malformed e)) ∨
      ∃ tree, root.convertModule (Text.slots source) = .ok tree ∧
        readSource parser source filePath = .ok (.tree tree (Text.lines source))) := by
  unfold readSource
  split
  · exact .inl ⟨_, rfl⟩
  · rename_i root hroot
    split
    · exact .inr (.inl ⟨_, rfl⟩)
    · exact .inl ⟨_, rfl⟩
    · refine .inr (.inr ⟨root, hroot, ?_⟩)
      split
      · rename_i e he
        exact .inl ⟨e, he, rfl⟩
      · rename_i tree htree
        exact .inr ⟨tree, htree, rfl⟩

theorem check_isOk {rules : List Rule} {root : Node}
    (h : root.Every Accepted) : ∃ found, check rules root = .ok found := by
  obtain ⟨found, hfound⟩ := report_isOk_iff.2 h
  exact ⟨found.map Prod.snd, by rw [check_eq_report, hfound]; rfl⟩

theorem ofReason_ne_malformedTree (r : FailureReason) :
    FailureCause.ofReason r ≠ .malformedTree := by
  cases r <;> simp [FailureCause.ofReason]

/-- When every tree that can be read is checked without an error, a malformed file is one whose
tree could not be built. -/
theorem malformed_of_checkSource {parser : Parser} {rules : List Rule} {disableNoqa : Bool}
    {source filePath : String} {verdict : Verdict} {notes : List String} {f : Failure}
    (haccepted : ∀ tree lines, readSource parser source filePath = .ok (.tree tree lines) →
      ∃ found, check rules tree = .ok found)
    (h : Scan.checkSource parser rules disableNoqa source filePath = .ok (verdict, notes))
    (hf : verdict.failure = some f) (hkind : f.kind = .malformedTree) :
    ∃ root e, parser source = .parsed root ∧
      root.convertModule (Text.slots source) = .error e ∧
      f = Scan.malformedFailure filePath e := by
  unfold Scan.checkSource at h
  obtain ⟨r, hr⟩ | ⟨message, hr⟩ | ⟨root, hroot, ⟨e, he, hr⟩ | ⟨tree, -, hr⟩⟩ :=
    readSource_cases parser source filePath
  · rw [hr] at h
    cases h
    cases hf
    exact (ofReason_ne_malformedTree r.reason hkind).elim
  · rw [hr] at h
    cases h
  · rw [hr] at h
    cases h
    cases hf
    exact ⟨root, e, hroot, he, rfl⟩
  · obtain ⟨found, hfound⟩ := haccepted _ _ hr
    rw [hr] at h
    simp only [hfound] at h
    cases h
    cases hf

/-- A parser that counts rows and columns from zero gives trees that every list of rules checks
without an error: no position is invalid, no assignment lacks a target and no kind is unknown. A
file fails as malformed only while its tree is built. -/
theorem parsed_accepted {parser : Parser}
    (hparser : ∀ source root, parser source = .parsed root → root.Every Cst.Natural) :
    (∀ source filePath tree lines, readSource parser source filePath = .ok (.tree tree lines) →
      tree.Every (fun n => n.position.Valid ∧ (∀ p hint v, n ≠ .assign p [] hint v) ∧
        n.isKnown = true) ∧
      ∀ rules, ∃ found, check rules tree = .ok found) ∧
    ∀ files rules disableNoqa path verdict notes f,
      Scan.checkPath ⟨files, parser⟩ rules disableNoqa path = .ok (verdict, notes) →
      verdict.failure = some f → f.kind = .malformedTree →
      ∃ source root e, files.read path = .ok source ∧ parser source = .parsed root ∧
        root.convertModule (Text.slots source) = .error e ∧
        f = Scan.malformedFailure (Path.toText path) e := by
  have haccept : ∀ source filePath tree lines,
      readSource parser source filePath = .ok (.tree tree lines) →
      tree.Every Accepted := by
    intro source filePath tree lines h
    obtain ⟨r, hr⟩ | ⟨message, hr⟩ | ⟨root, hroot, ⟨e, -, hr⟩ | ⟨tree', htree, hr⟩⟩ :=
      readSource_cases parser source filePath
    all_goals cases hr.symm.trans h
    exact Cst.convertModule_accepted (hparser source root hroot) htree
  constructor
  · intro source filePath tree lines h
    have htree := haccept source filePath tree lines h
    refine ⟨fun place n hn => ?_, fun rules => check_isOk htree⟩
    obtain ⟨hinspect, hknown⟩ := accept_eq_ok.1 (htree place n hn)
    obtain ⟨hposition, hassign⟩ := inspect_eq_ok.1 hinspect
    exact ⟨hposition, hassign, hknown⟩
  · intro files rules disableNoqa path verdict notes f h hf hkind
    unfold Scan.checkPath at h
    split at h
    · cases h
      cases hf
      cases hkind
    · rename_i source hread
      obtain ⟨root, e, hroot, he, hfe⟩ := malformed_of_checkSource
        (fun tree lines ht => check_isOk (haccept _ _ tree lines ht)) h hf hkind
      exact ⟨source, root, e, hread, hroot, he, hfe⟩

/-- `x = 1` is read and checked; a call without a function is malformed, and from its tree. -/
theorem parsed_accepted_assignment :
    let assignment : Cst := .node { type := "module" } [.node { type := "assignment" } [
      .node { type := "identifier", field := some "left", stop := 1 } [],
      .node { type := "integer", field := some "right", column := 4, start := 4, stop := 5 } []]]
    let call : Cst := .node { type := "module" } [.node { type := "call" } []]
    let files : FileTree := { entries := [(["a.py"], .file [])] }
    (∃ tree lines, readSource (fun _ => .parsed assignment) "x = 1" "/a.py" =
      .ok (.tree tree lines) ∧ ∀ rules, ∃ found, check rules tree = .ok found) ∧
    ∃ verdict notes f, Scan.checkPath ⟨files, fun _ => .parsed call⟩ catalog false ["a.py"] =
      .ok (verdict, notes) ∧ verdict.failure = some f ∧ f.kind = .malformedTree ∧
      ∃ e, f = Scan.malformedFailure (Path.toText ["a.py"]) e := by
  intro assignment call files
  have hassignment : assignment.Every Cst.Natural := by
    simp [assignment, Cst.Natural, Cst.label]
  have hcall : call.Every Cst.Natural := by
    simp [call, Cst.Natural, Cst.label]
  have hparser : ∀ root : Cst, root.Every Cst.Natural → ∀ source root',
      (fun _ => .parsed root : Parser) source = .parsed root' → root'.Every Cst.Natural := by
    rintro root hroot _ _ ⟨⟩
    exact hroot
  constructor
  · refine ⟨_, _, rfl, ?_⟩
    exact ((parsed_accepted (hparser _ hassignment)).1 "x = 1" "/a.py" _ _ rfl).2
  · refine ⟨_, _, _, rfl, rfl, rfl, ?_⟩
    obtain ⟨_, _, e, -, -, -, he⟩ := (parsed_accepted (hparser _ hcall)).2 files catalog false
      ["a.py"] _ _ _ rfl rfl rfl
    exact ⟨e, he⟩

end ChainLint
