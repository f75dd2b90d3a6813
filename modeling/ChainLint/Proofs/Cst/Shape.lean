import ChainLint.Cst.Convert
import ChainLint.Proofs.Cst.Inside
import Mathlib.Tactic.MkIffOfInductiveProp

/-!
# ChainLint.Proofs.Cst.Shape

Concrete syntax that has the shape of the grammar, as far as a conversion goes by it.

* `Role`: how a conversion treats a node. `roleIn`: the role of a child, by that of its parent.
* `HasFields`: a node whose parts are the ones a conversion reads by their fields.
* `Fits`: what a node in a role looks like. `Shaped`: a node that fits its role, all through.

That required parts are there, and that there is no node of type `ERROR`, need not be asked for
here: no tree comes of syntax where that fails.
-/

namespace ChainLint
namespace Cst

/-- How a node is treated. -/
inductive Role where
  /-- Read for its text or its type only. -/
  | word
  /-- Converted to a node of the tree. -/
  | term
  /-- Gives its parts, which are terms: a whole text, a body, parameters or superclasses. -/
  | block
  /-- The arguments of a call. -/
  | arguments
  /-- One of them. -/
  | argument
  deriving DecidableEq

/-- Fields by which the parts of a node are read, for the forms that go by fields. -/
def Form.fields : Form → List String
  | .assignment => ["left", "type", "right"]
  | .augmented | .binary | .boolean => ["left", "operator", "right"]
  | .function => ["name", "parameters", "return_type", "body"]
  | .classDef => ["name", "superclasses", "body"]
  | .call => ["function", "arguments"]
  | .attr => ["object", "attribute"]
  | .unary => ["operator", "argument"]
  | .negation => ["argument"]
  | .lambda => ["parameters", "body"]
  | _ => []

/-- The fields that hold words. -/
def Form.words : Form → List String
  | .augmented | .binary | .boolean | .unary => ["operator"]
  | .function | .classDef => ["name"]
  | .attr => ["attribute"]
  | _ => []

/-- The fields that hold blocks. -/
def Form.blocks : Form → List String
  | .function => ["parameters", "body"]
  | .classDef => ["superclasses", "body"]
  | .lambda => ["parameters"]
  | _ => []

/-- A part of its parent, if it has one. -/
def isPart (c : Cst) : Bool := c.label.named && c.type != "comment"

/-- A construct that rules look at: a call, a subscript or an assignment of either sort. -/
def isFlaggable (c : Cst) : Bool :=
  c.label.named &&
    match c.form with
    | .assignment | .augmented | .call | .subscript => true
    | _ => false

/-- The role of what stands in a field of a term. -/
def Form.roleOf (form : Form) (name : String) : Role :=
  if form.words.contains name then .word
  else if form.blocks.contains name then .block
  else if form = .call ∧ name = "arguments" then .arguments
  else .term

/-- The role of a child of a term. A call may also have a single term for its arguments. -/
def roleInTerm (c d : Cst) : Role :=
  match d.label.field with
  | none => .term
  | some name =>
    if c.form.roleOf name = .arguments ∧ d.type ≠ "argument_list" then .term
    else c.form.roleOf name

/-- The role of the child `d` of `c`. -/
def roleIn (c d : Cst) : Role → Role
  | .word => .word
  | .term => c.roleInTerm d
  | .block => .term
  | .arguments => .argument
  | .argument =>
    if c.type = "keyword_argument" then (if d.label.field = some "name" then .word else .term)
    else if c.type = "dictionary_splat" then .term
    else c.roleInTerm d

/-- Every part is in one of the fields, and no field is there twice. -/
@[mk_iff]
structure HasFields (c : Cst) (fields : List String) : Prop where
  known : ∀ d ∈ c.parts, ∃ f ∈ fields, d.label.field = some f
  once : ∀ f ∈ fields, (c.children.filter (fun d => d.label.field == some f)).length ≤ 1

/-- What a term looks like: its parts are those it is read by, and a constant hides nothing that
rules look at. -/
def TermFits (c : Cst) : Prop :=
  match c.form with
  | .wrapper | .subscript | .comparison | .other => True
  | .string => c.parts.any (fun d => d.type == "interpolation") = true ∨
      ∀ d, Inside d c → d.isFlaggable = false
  | .literal _ => ∀ d, Inside d c → d.isFlaggable = false
  | form => c.HasFields form.fields

/-- What an argument looks like: a keyword has a name and a value, a double star one value. -/
def ArgumentFits (c : Cst) : Prop :=
  if c.type = "keyword_argument" then c.HasFields ["name", "value"]
  else if c.type = "dictionary_splat" then ∃ value, c.parts = [value]
  else c.TermFits

/-- What a node in a role looks like. Tokens and comments are leaves in every role. -/
@[mk_iff]
structure Fits (role : Role) (c : Cst) : Prop where
  bare : c.isPart = false → c.children = []
  fits :
    match role with
    | .word => c.children = [] ∧ c.isFlaggable = false
    | .term => c.isPart = true → c.TermFits
    | .block | .arguments => c.isFlaggable = false
    | .argument => c.isPart = true → c.ArgumentFits

/-- The node fits its role, and so does every node inside it. -/
inductive Shaped : Role → Cst → Prop where
  | mk {role : Role} {c : Cst} (here : Fits role c)
      (below : ∀ d ∈ c.children, Shaped (c.roleIn d role) d) : Shaped role c

theorem Shaped.here {role : Role} {c : Cst} (h : Shaped role c) : Fits role c := by
  cases h with
  | mk here _ => exact here

theorem Shaped.child {role : Role} {c d : Cst} (h : Shaped role c) (hd : d ∈ c.children) :
    Shaped (c.roleIn d role) d := by
  cases h with
  | mk _ below => exact below d hd

theorem shaped_node {role : Role} {l : CstLabel} {cs : List Cst} :
    Shaped role (.node l cs) ↔ Fits role (.node l cs) ∧
      ∀ d ∈ cs, Shaped ((Cst.node l cs).roleIn d role) d := by
  constructor
  · intro h
    exact ⟨h.here, fun d hd => h.child hd⟩
  · rintro ⟨here, below⟩
    exact .mk here below

theorem Shaped.bare {role : Role} {c d : Cst} (h : Shaped role c) (hd : d ∈ c.children)
    (hpart : d.isPart = false) : d.children = [] :=
  (h.child hd).here.bare hpart

/-! ## Roles of fields -/

section fields

variable {c d : Cst} {form : Form} {name : String}

theorem Shaped.field {role : Role} (h : Shaped .term c) (hform : c.form = form)
    (hd : c.field? name = some d) (hrole : form.roleOf name = role)
    (hlist : role = .arguments → d.type = "argument_list") : Shaped role d := by
  have hchild := h.child (field?_eq_some hd).1
  have hnot : ¬ (role = .arguments ∧ d.type ≠ "argument_list") :=
    fun hall => hall.2 (hlist hall.1)
  simpa only [roleIn, roleInTerm, (field?_eq_some hd).2, hform, hrole, if_neg hnot] using hchild

theorem Shaped.bare_arguments (h : Shaped .term c) (hform : c.form = .call)
    (hd : c.field? "arguments" = some d) (htype : d.type ≠ "argument_list") : Shaped .term d := by
  have hrole := h.child (field?_eq_some hd).1
  have hall : Form.roleOf .call "arguments" = .arguments ∧ d.type ≠ "argument_list" :=
    ⟨by decide, htype⟩
  simpa only [roleIn, roleInTerm, (field?_eq_some hd).2, hform, if_pos hall] using hrole

/-- The parts of a term that is not read by fields are terms. -/
theorem Shaped.term_part (h : Shaped .term c) (hrole : ∀ name, c.form.roleOf name = .term)
    (hd : d ∈ c.parts) : Shaped .term d := by
  have hchild := h.child (mem_parts.1 hd).1
  cases hfield : d.label.field with
  | none => simpa only [roleIn, roleInTerm, hfield] using hchild
  | some name => simpa [roleIn, roleInTerm, hfield, hrole name] using hchild

theorem Shaped.block_part (h : Shaped .block c) (hd : d ∈ c.parts) : Shaped .term d :=
  h.child (mem_parts.1 hd).1

theorem Shaped.termFits (h : Shaped .term c) (hpart : c.isPart = true) : c.TermFits :=
  h.here.fits hpart

theorem Shaped.of_argument (h : Shaped .argument d) (htype : d.isKeywordArgument = false) :
    Shaped .term d := by
  simp only [isKeywordArgument, Bool.or_eq_false_iff, beq_eq_false_iff_ne] at htype
  refine .mk ⟨h.here.bare, fun hpart => ?_⟩ (fun e he => ?_)
  · have hfits := h.here.fits hpart
    simpa only [ArgumentFits, htype.1, htype.2, if_false] using hfits
  · have hrole := h.child he
    simpa only [roleIn, htype.1, htype.2, if_false] using hrole

theorem isPart_of_field {role : Role} (h : Shaped role c)
    (hd : c.field? name = some d) : c.isPart = true := by
  cases hpart : c.isPart with
  | true => rfl
  | false =>
    have hmem := (field?_eq_some hd).1
    rw [h.here.bare hpart] at hmem
    cases hmem

theorem named_of_isPart (h : c.isPart = true) : c.label.named = true := by
  simp only [isPart, Bool.and_eq_true] at h
  exact h.1

end fields

end Cst
end ChainLint
