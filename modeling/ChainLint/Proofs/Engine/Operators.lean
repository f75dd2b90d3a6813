import ChainLint.Proofs.Cst.Span
import ChainLint.Proofs.Engine.Isolation

/-!
# ChainLint.Proofs.Engine.Operators

A check does not read the texts of comparison operators, unless a rule does.

* `Node.eraseOperators`: the tree with these texts forgotten. How many there are is kept.
* `Rule.IgnoresOperators`: the test of the rule comes out the same without them. All rules of the
  catalogue are so.
* `check_eraseOperators`: then a check reports the same, and fails with the same error.
-/

namespace ChainLint

namespace Node

mutual

/-- The tree without the texts of comparison operators. -/
def eraseOperators : Node → Node
  | .module p body => .module p (eraseOperatorsAll body)
  | .function p word parameters body =>
    .function p word (eraseOperatorsAll parameters) (eraseOperatorsAll body)
  | .classDef p word bases body =>
    .classDef p word (eraseOperatorsAll bases) (eraseOperatorsAll body)
  | .assign p targets hint value =>
    .assign p (eraseOperatorsAll targets) (eraseOperatorsOption hint) value.eraseOperators
  | .augassign p target op value => .augassign p target.eraseOperators op value.eraseOperators
  | .call p func args keywords =>
    .call p func.eraseOperators (eraseOperatorsAll args) (eraseOperatorsAll keywords)
  | .keyword p word value => .keyword p word value.eraseOperators
  | .attr p object word => .attr p object.eraseOperators word
  | .subscript p value indices => .subscript p value.eraseOperators (eraseOperatorsAll indices)
  | .name p id => .name p id
  | .constant p literal text => .constant p literal text
  | .compare p left operators comparators =>
    .compare p left.eraseOperators (operators.map (fun _ => "")) (eraseOperatorsAll comparators)
  | .binop p left op right => .binop p left.eraseOperators op right.eraseOperators
  | .unaryop p op operand => .unaryop p op operand.eraseOperators
  | .boolop p op values => .boolop p op (eraseOperatorsAll values)
  | .lambda p parameters body => .lambda p (eraseOperatorsAll parameters) body.eraseOperators
  | .other p word below => .other p word (eraseOperatorsAll below)
  | .unknown p word => .unknown p word

def eraseOperatorsAll : List Node → List Node
  | [] => []
  | n :: ns => n.eraseOperators :: eraseOperatorsAll ns

def eraseOperatorsOption : Option Node → Option Node
  | none => none
  | some n => some n.eraseOperators

end

@[simp] theorem eraseOperatorsAll_eq (ns : List Node) :
    eraseOperatorsAll ns = ns.map eraseOperators := by
  induction ns with
  | nil => rfl
  | cons n ns ih => rw [eraseOperatorsAll, ih, List.map_cons]

@[simp] theorem eraseOperatorsOption_eq (o : Option Node) :
    eraseOperatorsOption o = o.map eraseOperators := by
  cases o <;> rfl

/-! ## What is left of a node -/

@[simp] theorem position_eraseOperators (n : Node) : n.eraseOperators.position = n.position := by
  cases n <;> rfl

@[simp] theorem kind_eraseOperators (n : Node) : n.eraseOperators.kind = n.kind := by
  cases n <;> rfl

@[simp] theorem isScope_eraseOperators (n : Node) : n.eraseOperators.isScope = n.isScope := by
  cases n <;> rfl

theorem byPosition_map_eraseOperators (ns : List Node) :
    byPosition (ns.map eraseOperators) = (byPosition ns).map eraseOperators := by
  rw [byPosition, sortBy_map]
  simp only [position_eraseOperators]
  rfl

theorem children_eraseOperators (n : Node) :
    n.eraseOperators.children = n.children.map eraseOperators := by
  cases n with
  | assign p targets hint value => cases hint <;> simp [eraseOperators, children]
  | call p func args keywords =>
    simp only [eraseOperators, children, eraseOperatorsAll_eq, List.map_cons]
    rw [← List.map_append, byPosition_map_eraseOperators]
  | _ => simp [eraseOperators, children]

theorem isName_eraseOperators (x : String) (n : Node) :
    n.eraseOperators.isName x = n.isName x := by
  cases n <;> rfl

theorem chainBase_eraseOperators (n : Node) : n.eraseOperators.chainBase = n.chainBase := by
  induction n using inductionOn with
  | step n ih =>
    cases n with
    | attr p object word => exact ih object (by simp [children])
    | call p func args keywords => exact ih func (by simp [children])
    | subscript p value indices => exact ih value (by simp [children])
    | _ => rfl

theorem receiver_eraseOperators (n : Node) :
    n.eraseOperators.receiver = n.receiver.map eraseOperators := by
  cases n with
  | call p func args keywords => cases func <;> rfl
  | _ => rfl

theorem isMask_eraseOperators (b : Bindings) (n : Node) :
    n.eraseOperators.isMask b = n.isMask b := by
  cases n with
  | call p func args keywords => cases func <;> rfl
  | _ => rfl

theorem origin_eraseOperators (b : Bindings) (n : Node) :
    n.eraseOperators.origin b = n.origin b := by
  unfold origin
  rw [isMask_eraseOperators]
  cases n <;> rfl

theorem targets_eraseOperators (n : Node) :
    n.eraseOperators.targets = n.targets.map eraseOperators := by
  cases n <;> simp [eraseOperators, targets]

theorem targets_any_eraseOperators (n : Node) {g : Node → Bool}
    (hg : ∀ t : Node, g t.eraseOperators = g t) :
    n.eraseOperators.targets.any g = n.targets.any g := by
  rw [targets_eraseOperators, List.any_map]
  congr 1
  exact funext hg

theorem bindTargets_eraseOperators (b : Bindings) (n : Node) :
    n.eraseOperators.bindTargets b = n.bindTargets b := by
  cases n with
  | assign p targets hint value =>
    simp only [eraseOperators, bindTargets, eraseOperatorsAll_eq, origin_eraseOperators,
      List.foldl_map]
    congr 1
    funext b t
    cases t <;> rfl
  | _ => rfl

end Node

theorem accept_eraseOperators (n : Node) : accept n.eraseOperators = accept n := by
  cases n with
  | assign p targets hint value => cases targets <;> rfl
  | _ => rfl

/-! ## Rules -/

/-- The rule does not read the texts of comparison operators. -/
def Rule.IgnoresOperators (r : Rule) : Prop := ∀ n b, r.check n.eraseOperators b = r.check n b

theorem isInplaceTrue_eraseOperators (n : Node) :
    isInplaceTrue n.eraseOperators = isInplaceTrue n := by
  cases n with
  | keyword p name value => cases name <;> cases value <;> rfl
  | _ => rfl

theorem bindsRoot_eraseOperators (targets : List Node) (base : Option String) :
    bindsRoot (targets.map Node.eraseOperators) base = bindsRoot targets base := by
  cases base with
  | none => rfl
  | some x =>
    rw [bindsRoot, bindsRoot, List.any_map]
    congr 1
    exact funext (Node.isName_eraseOperators x)

theorem inplaceTrue_ignoresOperators : inplaceTrue.IgnoresOperators := by
  intro n b
  cases n with
  | call p func args keywords =>
    simp only [inplaceTrue, Node.eraseOperators, Node.eraseOperatorsAll_eq, List.any_map]
    congr 1
    exact funext isInplaceTrue_eraseOperators
  | _ => rfl

theorem reassignWithCall_ignoresOperators : reassignWithCall.IgnoresOperators := by
  intro n b
  cases n with
  | assign p targets hint value =>
    simp only [reassignWithCall, Node.eraseOperators, Node.eraseOperatorsAll_eq,
      Node.receiver_eraseOperators]
    cases value.receiver with
    | none => rfl
    | some object =>
      simp only [Option.map_some, Node.chainBase_eraseOperators, bindsRoot_eraseOperators]
  | _ => rfl

theorem reassignWithSubscript_ignoresOperators : reassignWithSubscript.IgnoresOperators := by
  intro n b
  cases n with
  | assign p targets hint value =>
    cases value with
    | subscript q object indices =>
      simp only [reassignWithSubscript, Node.eraseOperators, Node.eraseOperatorsAll_eq,
        Node.chainBase_eraseOperators, bindsRoot_eraseOperators]
    | _ => rfl
  | _ => rfl

theorem selectionWithMaskVariable_ignoresOperators :
    selectionWithMaskVariable.IgnoresOperators := by
  intro n b
  cases n with
  | subscript p value indices =>
    simp only [selectionWithMaskVariable, Node.eraseOperators, Node.eraseOperatorsAll_eq,
      List.any_map]
    congr 1
    funext i
    cases i <;> rfl
  | _ => rfl

theorem ignoresOperators_of_mem_catalog {r : Rule} (hr : r ∈ catalog) : r.IgnoresOperators := by
  simp only [catalog, List.mem_cons, List.not_mem_nil, or_false] at hr
  rcases hr with rfl | rfl | rfl | rfl | rfl | rfl | rfl
  · exact inplaceTrue_ignoresOperators
  · exact reassignWithCall_ignoresOperators
  · exact reassignWithSubscript_ignoresOperators
  · exact fun n _ => n.targets_any_eraseOperators (fun t => by cases t <;> rfl)
  · exact fun n _ => n.targets_any_eraseOperators (fun t => by cases t <;> rfl)
  · exact fun n _ => n.targets_any_eraseOperators (fun t => by cases t <;> rfl)
  · exact selectionWithMaskVariable_ignoresOperators

/-! ## Checks -/

section visits

variable {ordered : List Rule} (h : ∀ r ∈ ordered, r.IgnoresOperators)

include h

theorem fire_eraseOperators (n : Node) (b : Bindings) :
    fire ordered n.eraseOperators b = fire ordered n b := by
  rw [fire, fire, n.kind_eraseOperators]
  refine fireFrom_congr n.position_eraseOperators ?_ []
  intro r hr
  exact h r (mem_offered.1 hr).1 n b

theorem visit_eraseOperators (n : Node) (isRoot : Bool) (b : Bindings) :
    visit ordered isRoot b n.eraseOperators = visit ordered isRoot b n := by
  induction n using Node.inductionOn generalizing isRoot b with
  | step n ih =>
    have hall : ∀ cs : List Node, (∀ c ∈ cs, c ∈ n.children) → ∀ b,
        visitAll ordered b (cs.map Node.eraseOperators) = visitAll ordered b cs := by
      intro cs hcs
      induction cs with
      | nil => exact fun _ => rfl
      | cons c cs ihcs =>
        intro b
        have hrest := ihcs (fun d hd => hcs d (by simp [hd]))
        rw [List.map_cons, visitAll_cons, visitAll_cons, ih c (hcs c (by simp))]
        simp only [hrest]
    rw [visit_eq_visitAll, visit_eq_visitAll]
    simp only [accept_eraseOperators, Node.isScope_eraseOperators, Node.children_eraseOperators,
      Node.bindTargets_eraseOperators, fire_eraseOperators h, hall n.children (fun _ hc => hc)]

end visits

theorem check_eraseOperators {rules : List Rule} (h : ∀ r ∈ rules, r.IgnoresOperators)
    (root : Node) : check rules root.eraseOperators = check rules root := by
  have hordered : ∀ r ∈ firingOrder rules, r.IgnoresOperators :=
    fun r hr => h r (mem_of_mem_firingOrder hr)
  rw [check, check, visit_eraseOperators hordered]

end ChainLint
