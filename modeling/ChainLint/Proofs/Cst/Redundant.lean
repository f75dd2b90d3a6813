import ChainLint.Proofs.Cst.Alike

/-!
# ChainLint.Proofs.Cst.Redundant

Comments and redundant parentheses leave the tree as it is, up to the texts of comparison operators.

* `inField`: a node as it stands in another field. Its tree is the same.
* `Padded`: concrete syntax with one comment or one pair of parentheses more, anywhere in it.
* `alike_of_padded`: one step of padding, by induction on where it is made.
* `convertModule_padded`: any number of steps, and what a check reports in the end.
-/

namespace ChainLint
namespace Cst

/-! ## Fields -/

/-- The node in another field of its parent, or in none. -/
def inField (c : Cst) (f : Option String) : Cst := .node { c.label with field := f } c.children

@[simp] theorem type_inField (c : Cst) (f : Option String) : (c.inField f).type = c.type := rfl

@[simp] theorem isPart_inField (c : Cst) (f : Option String) : (c.inField f).isPart = c.isPart :=
  rfl

/-- No conversion asks for the field of the node itself. -/
theorem convert_inField (source : Array (Option Char)) (c : Cst) (f : Option String) :
    convert source (c.inField f) = convert source c := by
  cases c with
  | node l cs =>
    rw [convert_eq, convert_eq source (.node l cs)]
    rfl

/-! ## Padding -/

/-- A node that parentheses may be put around: it is converted, and not told by its type from its
neighbours. -/
structure Wrappable (role : Role) (c : Cst) : Prop where
  part : c.isPart = true
  type : c.type ∉ ["assignment", "interpolation", "argument_list"]
  role : role = .term ∨ role = .argument ∧ c.isKeywordArgument = false

/-- One comment or one pair of parentheses more. The role is that of the node which is padded, or
in which something is. Parentheses take over the field of what they are put around. -/
inductive Padded : Role → Cst → Cst → Prop where
  | comment {role : Role} {l : CstLabel} {before after : List Cst} {note : Cst}
      (htype : note.type = "comment") (hfield : note.label.field = none) :
      Padded role (.node l (before ++ after)) (.node l (before ++ note :: after))
  | parentheses {role : Role} {c : Cst} {w : CstLabel} {before after : List Cst}
      (hc : Wrappable role c) (htype : w.type = "parenthesized_expression")
      (hnamed : w.named = true) (hfield : w.field = c.label.field)
      {f : Option String} (hbefore : ∀ d ∈ before, d.isPart = false)
      (hafter : ∀ d ∈ after, d.isPart = false) :
      Padded role c (.node w (before ++ c.inField f :: after))
  | inside {role : Role} {l : CstLabel} {before after : List Cst} {d d' : Cst}
      (h : Padded ((Cst.node l (before ++ d :: after)).roleIn d role) d d') :
      Padded role (.node l (before ++ d :: after)) (.node l (before ++ d' :: after))

/-- A padded node stands in its parent as the node did. -/
theorem Padded.standing {role : Role} {c c' : Cst} (h : Padded role c c') :
    c'.isPart = c.isPart ∧ c'.label.field = c.label.field := by
  cases h with
  | comment => exact ⟨rfl, rfl⟩
  | parentheses hc htype hnamed hfield _ _ =>
    refine ⟨?_, hfield⟩
    rw [hc.part]
    simp [isPart, type, label, htype, hnamed]
  | inside => exact ⟨rfl, rfl⟩

theorem type_of_form_assignment {c : Cst} (h : c.form = .assignment) : c.type = "assignment" := by
  have hmem : (c.type, Form.assignment) ∈ forms := by
    rw [form, Form.ofType, Option.getD_eq_iff] at h
    rcases h with h | ⟨-, h⟩
    · obtain ⟨l, r, hforms, -⟩ := List.lookup_eq_some_iff.1 h
      rw [hforms]
      simp
    · cases h
  simpa [forms] using hmem

/-! ## One step of padding -/

section padding

variable {source : Array (Option Char)}

theorem parts_node (l : CstLabel) (cs : List Cst) :
    (Cst.node l cs).parts = cs.filter (fun d => d.isPart) := rfl

theorem field?_node (l : CstLabel) (cs : List Cst) (name : String) :
    (Cst.node l cs).field? name = cs.find? (fun d => d.label.field == some name) := rfl

theorem readsAlike_comment {role : Role} {l : CstLabel} {before after : List Cst} {note : Cst}
    (htype : note.type = "comment") (hfield : note.label.field = none) :
    ReadsAlike source role (.node l (before ++ after)) (.node l (before ++ note :: after)) := by
  have hparts : (Cst.node l (before ++ note :: after)).parts =
      (Cst.node l (before ++ after)).parts := by
    simp [parts_node, isPart, htype]
  have hfields : ∀ name, (Cst.node l (before ++ note :: after)).field? name =
      (Cst.node l (before ++ after)).field? name := by
    intro name
    simp [field?_node, List.find?_append, hfield]
  refine ⟨rfl, ?_, fun name => ?_⟩
  · rw [hparts]
    exact List.forall₂_same.2 (fun d _ => alike_refl source _ d)
  · rw [hfields name]
    cases (Cst.node l (before ++ after)).field? name with
    | none => exact .none
    | some d => exact .some (alike_refl source _ d)

/-- A child that is padded keeps its place among the parts and its field. -/
theorem readsAlike_inside {role : Role} {l : CstLabel} {before after : List Cst} {d d' : Cst}
    (hpart : d'.isPart = d.isPart) (hfield : d'.label.field = d.label.field)
    (h : Alike source ((Cst.node l (before ++ d :: after)).roleIn d role) d d') :
    ReadsAlike source role (.node l (before ++ d :: after)) (.node l (before ++ d' :: after)) := by
  have hsame : ∀ cs : List Cst, List.Forall₂
      (fun e e' => Alike source ((Cst.node l (before ++ d :: after)).roleIn e role) e e') cs cs :=
    fun cs => List.forall₂_same.2 (fun e _ => alike_refl source _ e)
  refine ⟨rfl, ?_, fun name => ?_⟩
  · rw [parts_node, parts_node, List.filter_append, List.filter_append, List.filter_cons,
      List.filter_cons, hpart]
    refine List.rel_append (hsame _) ?_
    split
    · exact .cons h (hsame _)
    · exact hsame _
  · rw [field?_node, field?_node, List.find?_append, List.find?_append, List.find?_cons,
      List.find?_cons, hfield]
    cases before.find? (fun e => e.label.field == some name) with
    | some e => exact .some (alike_refl source _ e)
    | none =>
      cases d.label.field == some name with
      | true => exact .some h
      | false =>
        cases after.find? (fun e => e.label.field == some name) with
        | none => exact .none
        | some e => exact .some (alike_refl source _ e)

theorem alike_parentheses {role : Role} {c : Cst} {w : CstLabel} {before after : List Cst}
    {f : Option String} (hc : Wrappable role c) (htype : w.type = "parenthesized_expression")
    (hbefore : ∀ d ∈ before, d.isPart = false) (hafter : ∀ d ∈ after, d.isPart = false) :
    Alike source role c (.node w (before ++ c.inField f :: after)) := by
  obtain ⟨hassignment, hinterpolation, hlist⟩ : c.type ≠ "assignment" ∧ c.type ≠ "interpolation" ∧
      c.type ≠ "argument_list" := by
    simpa using hc.type
  generalize hwrapped : Cst.node w (before ++ c.inField f :: after) = wrapped
  have htype' : wrapped.type = "parenthesized_expression" := by
    rw [← hwrapped]
    exact htype
  have hform : wrapped.form = .wrapper := by
    rw [form, htype']
    rfl
  have hparts : wrapped.parts = [c.inField f] := by
    rw [← hwrapped, parts_node, List.filter_append, List.filter_cons_of_pos (by simp [hc.part]),
      List.filter_eq_nil_iff.2 (by simpa using hbefore),
      List.filter_eq_nil_iff.2 (by simpa using hafter)]
    rfl
  have hconvert : convert source wrapped = convert source c := by
    rw [convert_eq, ← convert_inField source c f]
    unfold convertNode
    rw [hform, hparts]
  have hterm : TermAlike source c wrapped := by
    refine ⟨hconvert ▸ .refl .refl _, ?_, by simp [htype', hinterpolation], by simp [htype', hlist]⟩
    rw [assignmentChain_of_form (fun h => hassignment (type_of_form_assignment h)),
      assignmentChain_of_form (by rw [hform]; decide)]
    exact ⟨.nil, hconvert ▸ .refl .refl _⟩
  rcases hc.role with rfl | ⟨rfl, hplain⟩
  · exact hterm
  · have hplain' : wrapped.isKeywordArgument = false := by
      simp [isKeywordArgument, htype']
    refine ⟨?_, by rw [hplain, hplain']⟩
    rw [convertArgument_of_plain hplain, convertArgument_of_plain hplain']
    exact hterm.converts

theorem alike_of_padded {role : Role} {c c' : Cst} (h : Padded role c c') :
    Alike source role c c' := by
  induction h with
  | comment htype hfield => exact alike_of_reads (readsAlike_comment htype hfield)
  | parentheses hc htype _ _ hbefore hafter => exact alike_parentheses hc htype hbefore hafter
  | inside h ih =>
    obtain ⟨hpart, hfield⟩ := h.standing
    exact alike_of_reads (readsAlike_inside hpart hfield ih)

/-! ## Whole texts -/

theorem convertModule_of_alike {root root' : Cst} (h : Alike source .block root root') :
    (root'.convertModule source).map Node.eraseOperators =
      (root.convertModule source).map Node.eraseOperators := by
  have hposition : root'.position = root.position := by
    rw [position, position, h.1]
  refine (corresponds_iff_map_eq.1 ?_).symm
  refine (ReadsAlike.mapM_parts h.2).bind fun ns ns' hns => ?_
  show SameTree (.module root.position ns) (.module root'.position ns')
  simp [SameTree, Node.eraseOperators, hposition, map_eq_of_sameTree hns]

theorem convertModule_of_padded {root root' : Cst}
    (h : Relation.ReflTransGen (Padded .block) root root') :
    (root'.convertModule source).map Node.eraseOperators =
      (root.convertModule source).map Node.eraseOperators := by
  induction h with
  | refl => rfl
  | tail _ hstep ih => rw [convertModule_of_alike (alike_of_padded hstep), ih]

end padding

end Cst

theorem check_eq_of_sameTree {rules : List Rule} (h : ∀ r ∈ rules, r.IgnoresOperators)
    {n m : Node} (hnm : SameTree n m) : check rules n = check rules m := by
  rw [← check_eraseOperators h n, hnm, check_eraseOperators h m]

/-- Comments and redundant parentheses, however many and wherever they are put, change neither
whether a text has a tree nor the error if it has none; the tree is the same up to the texts of
comparison operators, and every list of rules that do not read these reports the same findings. -/
theorem convertModule_padded {root root' : Cst}
    (h : Relation.ReflTransGen (Cst.Padded .block) root root') (source : Array (Option Char)) :
    (root'.convertModule source).map Node.eraseOperators =
      (root.convertModule source).map Node.eraseOperators ∧
    ∀ tree tree', root.convertModule source = .ok tree → root'.convertModule source = .ok tree' →
      ∀ rules : List Rule, (∀ r ∈ rules, r ∈ catalog ∨ r.IgnoresOperators) →
        check rules tree' = check rules tree := by
  have hsame : (root'.convertModule source).map Node.eraseOperators =
      (root.convertModule source).map Node.eraseOperators := Cst.convertModule_of_padded h
  refine ⟨hsame, ?_⟩
  intro tree tree' htree htree' rules hrules
  rw [htree, htree'] at hsame
  have hignore : ∀ r ∈ rules, r.IgnoresOperators := by
    intro r hr
    rcases hrules r hr with hcatalog | hignore
    · exact ignoresOperators_of_mem_catalog hcatalog
    · exact hignore
  exact check_eq_of_sameTree hignore (Except.ok.inj hsame)

namespace Sample

def letters : Array (Option Char) := Text.slots "m = a < b\ndf[m]"

def identifier (field : Option String) (row start stop : Int) : Cst :=
  .node { type := "identifier", field, row, start, stop } []

/-- `m = a < …` with the right operand left open. -/
def comparison (right : Cst) : Cst :=
  .node { type := "assignment" } [identifier (some "left") 0 0 1,
    .node { type := "comparison_operator", field := some "right" } [identifier none 0 4 5, right]]

/-- `df[m]`. -/
def selection : Cst :=
  .node { type := "subscript", row := 1 } [identifier none 1 10 12, identifier none 1 13 14]

/-- Parentheses that begin where the operator stands. -/
def wrapped : Cst :=
  .node { type := "parenthesized_expression", start := 6, stop := 10 } [identifier none 0 8 9]

def spare : Cst := .node { type := "module" } [comparison (identifier none 0 8 9), selection]

def padded : Cst :=
  .node { type := "module" } [comparison wrapped, .node { type := "comment" } [], selection]

def selected (operators : List String) : Node :=
  .module (.at 1 0) [
    .assign (.at 1 0) [.name (.at 1 0) "m"] none
      (.compare (.at 1 0) (.name (.at 1 0) "a") operators [.name (.at 1 0) "b"]),
    .subscript (.at 2 0) (.name (.at 2 0) "df") [.name (.at 2 0) "m"]]

end Sample

theorem convertModule_padded_operator :
    let reused := findingAt selectionWithMaskVariable (.name (.at 2 0) "df")
    Relation.ReflTransGen (Cst.Padded .block) Sample.spare Sample.padded ∧
      Sample.spare.convertModule Sample.letters = .ok (Sample.selected ["<"]) ∧
      Sample.padded.convertModule Sample.letters = .ok (Sample.selected [""]) ∧
      check catalog (Sample.selected ["<"]) = .ok [reused] ∧
      check catalog (Sample.selected [""]) = .ok [reused] := by
  intro reused
  have hpadded : Relation.ReflTransGen (Cst.Padded .block) Sample.spare Sample.padded := by
    refine .tail (.single (@Cst.Padded.inside _ _ [] [Sample.selection] _ _ ?_))
      (@Cst.Padded.comment _ _ [Sample.comparison Sample.wrapped] [Sample.selection] _ rfl rfl)
    refine @Cst.Padded.inside _ _ [Sample.identifier (some "left") 0 0 1] [] _ _ ?_
    refine @Cst.Padded.inside _ _ [Sample.identifier none 0 4 5] [] _ _ ?_
    exact @Cst.Padded.parentheses _ (Sample.identifier none 0 8 9) Sample.wrapped.label [] []
      ⟨rfl, by decide, .inl rfl⟩ rfl rfl rfl none (by simp) (by simp)
  have hspare : Sample.spare.convertModule Sample.letters = .ok (Sample.selected ["<"]) := rfl
  have hpad : Sample.padded.convertModule Sample.letters = .ok (Sample.selected [""]) := rfl
  have hfound : check catalog (Sample.selected ["<"]) = .ok [reused] := by decide +kernel
  have hcheck := (convertModule_padded hpadded Sample.letters).2 _ _ hspare hpad catalog
    (fun r hr => .inl hr)
  exact ⟨hpadded, hspare, hpad, hfound, hcheck.trans hfound⟩

end ChainLint
