import ChainLint.Proofs.Cst.Converts
import ChainLint.Proofs.Cst.Weight
import ChainLint.Proofs.Tree.Trail

/-!
# ChainLint.Proofs.Cst.Asked

Which concrete nodes are converted, and where their trees are found.

* `AsksFor`: the conversion of a node goes by that of another. `Converted`: a node that is converted
  on the way to the tree of a whole text.
* `convertNode_of_agree`: the conversion of a node goes by those whose trees are in its tree, and by
  no others.
* `converted_mem_nodes`: the tree of every node that is converted is in the tree of the whole.
-/

namespace ChainLint

/-! ## Nodes of a tree -/

namespace Node

theorem mem_nodes_self (n : Node) : n ∈ n.nodes := by
  rw [nodes_eq]
  exact List.mem_cons_self

theorem mem_nodes_of_mem_children {n m : Node} (h : m ∈ n.children) : m ∈ n.nodes := by
  rw [nodes_eq]
  exact List.mem_cons_of_mem n (List.mem_flatMap.2 ⟨m, h, m.mem_nodes_self⟩)

theorem mem_nodes_trans {n m k : Node} (hm : m ∈ n.nodes) (hk : k ∈ m.nodes) : k ∈ n.nodes := by
  induction n using inductionOn with
  | step n ih =>
    rw [nodes_eq] at hm ⊢
    rcases List.mem_cons.1 hm with rfl | hm
    · rwa [nodes_eq] at hk
    · obtain ⟨c, hc, hm⟩ := List.mem_flatMap.1 hm
      exact List.mem_cons_of_mem n (List.mem_flatMap.2 ⟨c, hc, ih c hc hm⟩)

theorem mem_children_call {p : Position} {func m : Node} {args keywords : List Node}
    (h : m ∈ args ∨ m ∈ keywords) : m ∈ (Node.call p func args keywords).children :=
  List.mem_cons_of_mem func (mem_sortBy.2 (List.mem_append.2 h))

end Node

namespace Cst

variable {source : Array (Option Char)} {below below' : Cst → Except Malformed Node} {c d : Cst}
  {n : Node}

/-- The conversion of `c` goes by that of `d`: it never succeeds where that of `d` fails. -/
def AsksFor (source : Array (Option Char)) (c d : Cst) : Prop :=
  ∀ below n, convertNode source below c = .ok n → ∃ m, below d = .ok m

/-- The node is converted on the way to the tree of the whole text. -/
def Converted (source : Array (Option Char)) (root d : Cst) : Prop :=
  ∃ top ∈ root.parts, Relation.ReflTransGen (AsksFor source) top d

/-! ## What a conversion goes by -/

section agree

/-- Wherever the first conversion gives a node of the tree, the second gives the same. -/
def AgreeIn (below below' : Cst → Except Malformed Node) (n : Node) : Prop :=
  ∀ d m, below d = .ok m → m ∈ n.nodes → below' d = .ok m

theorem mapM_of_forall₂ {R : Cst → Node → Prop} {f : Cst → Except Malformed Node} {cs : List Cst}
    {ns : List Node} (h : List.Forall₂ R cs ns) (hf : ∀ d, ∀ m ∈ ns, R d m → f d = .ok m) :
    cs.mapM f = .ok ns := by
  refine mapM_eq_ok.2 ?_
  induction h with
  | nil => exact .nil
  | cons hd _ ih =>
    refine .cons (hf _ _ List.mem_cons_self hd) (ih fun e m hm => ?_)
    exact hf e m (List.mem_cons_of_mem _ hm)

theorem mapM_of_agree (hagree : AgreeIn below below' n) {cs : List Cst} {ns : List Node}
    (h : ConvertsAll below cs ns) (hns : ∀ m ∈ ns, m ∈ n.nodes) : cs.mapM below' = .ok ns :=
  mapM_of_forall₂ h fun d m hm hd => hagree d m hd (hns m hm)

theorem convertOptional_of_agree (hagree : AgreeIn below below' n) {o : Option Cst}
    {ns : List Node} (h : ConvertsAll below o.toList ns) (hns : ∀ m ∈ ns, m ∈ n.nodes) :
    ∃ r, convertOptional below' o = .ok r ∧ r.toList = ns := by
  cases o with
  | none =>
    cases h
    exact ⟨none, rfl, rfl⟩
  | some d =>
    obtain ⟨m, hd, rfl⟩ : ∃ m, below d = .ok m ∧ ns = [m] := by
      cases h with
      | cons hd hrest =>
        cases hrest
        exact ⟨_, hd, rfl⟩
    refine ⟨some m, ?_, rfl⟩
    rw [convertOptional, hagree d m hd (hns m (List.mem_singleton_self m))]
    rfl

theorem convertList_of_agree (hagree : AgreeIn below below' n) {o : Option Cst} {ns : List Node}
    (h : ConvertsAll below (o.toList.flatMap parts) ns) (hns : ∀ m ∈ ns, m ∈ n.nodes) :
    convertList below' o = .ok ns := by
  cases o with
  | none =>
    cases h
    rfl
  | some d => exact mapM_of_agree hagree (by simpa using h) hns

theorem assignmentChain_of_agree (hagree : AgreeIn below below' n) {right value : Cst}
    {targets : List Node} (h : Chain below right targets value)
    (htargets : ∀ m ∈ targets, m ∈ n.nodes) {fuel : Nat} (hfuel : right.depth ≤ fuel) :
    assignmentChain below' fuel right = .ok (targets, value) := by
  induction h generalizing fuel with
  | @stop right hend =>
    cases fuel with
    | zero => rfl
    | succ fuel =>
      unfold assignmentChain
      split
      · rename_i hgoes
        rw [hend hgoes.1 (Option.isNone_iff_eq_none.1 hgoes.2)]
      · rfl
  | @link right left next value target targets hform htype hleft hnext htarget hrest ih =>
    obtain ⟨hm, htargets⟩ := List.forall_mem_cons.1 htargets
    have hlt := (Inside.of_field hnext).depth_lt
    obtain ⟨fuel, rfl⟩ : ∃ k, fuel = k + 1 := ⟨fuel - 1, by omega⟩
    rw [assignmentChain, if_pos ⟨hform, by simp [htype]⟩, hnext]
    simp only [bind_eq_ok, require_eq_ok]
    exact ⟨left, hleft, target, hagree left target htarget hm, _, ih htargets (by omega), rfl⟩

theorem convertArgument_of_agree (hagree : AgreeIn below below' n) {m : Node}
    (h : Argument source below d m) (hm : m ∈ n.nodes) :
    convertArgument source below' d = .ok m := by
  unfold convertArgument
  cases h with
  | @keyword name value v htype hname hvalue hv =>
    have hin : v ∈ n.nodes :=
      Node.mem_nodes_trans hm (Node.mem_nodes_of_mem_children (List.mem_singleton_self v))
    simp only [if_pos htype, bind_eq_ok, require_eq_ok]
    exact ⟨name, hname, value, hvalue, v, hagree value v hv hin, rfl⟩
  | @splat value rest v htype hparts hv =>
    have hin : v ∈ n.nodes :=
      Node.mem_nodes_trans hm (Node.mem_nodes_of_mem_children (List.mem_singleton_self v))
    have hne : d.type ≠ "keyword_argument" := by
      rw [htype]
      decide
    simp only [if_neg hne, if_pos htype, hparts, bind_eq_ok]
    exact ⟨v, hagree value v hv hin, rfl⟩
  | plain htype hd =>
    simp only [isKeywordArgument, Bool.or_eq_false_iff, beq_eq_false_iff_ne] at htype
    rw [if_neg htype.1, if_neg htype.2]
    exact hagree d m hd hm

/-- An argument is among the positional ones or among the keywords. -/
theorem mem_filter_or {parts : List Cst} {nodes : List Node} {R : Cst → Node → Prop}
    (h : List.Forall₂ R parts nodes) {m : Node} (hm : m ∈ nodes) (p : Cst × Node → Bool) :
    m ∈ ((parts.zip nodes).filter (fun x => !p x)).map Prod.snd ∨
      m ∈ ((parts.zip nodes).filter p).map Prod.snd := by
  rw [← List.map_snd_zip (Nat.le_of_eq h.length_eq.symm)] at hm
  obtain ⟨x, hx, rfl⟩ := List.mem_map.1 hm
  cases hp : p x with
  | false => exact .inl (List.mem_map_of_mem (List.mem_filter.2 ⟨hx, by simp [hp]⟩))
  | true => exact .inr (List.mem_map_of_mem (List.mem_filter.2 ⟨hx, hp⟩))

theorem convertCall_of_agree {function arguments : Cst} {func : Node} {args keywords : List Node}
    {nodes : List Node} (hagree : AgreeIn below below' (.call c.position func args keywords))
    (hfunction : c.field? "function" = some function)
    (harguments : c.field? "arguments" = some arguments) (hfunc : below function = .ok func)
    (htype : arguments.type = "argument_list")
    (hnodes : List.Forall₂ (Argument source below) arguments.parts nodes)
    (hargs : args =
      ((arguments.parts.zip nodes).filter (fun x => !x.1.isKeywordArgument)).map Prod.snd)
    (hkeywords : keywords =
      ((arguments.parts.zip nodes).filter (fun x => x.1.isKeywordArgument)).map Prod.snd) :
    convertCall source below' c = .ok (.call c.position func args keywords) := by
  have hin : ∀ m ∈ nodes, m ∈ (Node.call c.position func args keywords).nodes := by
    intro m hm
    refine Node.mem_nodes_of_mem_children (Node.mem_children_call ?_)
    rw [hargs, hkeywords]
    exact mem_filter_or hnodes hm _
  have hmap : arguments.parts.mapM (convertArgument source below') = .ok nodes :=
    mapM_of_forall₂ hnodes fun d m hm hd => convertArgument_of_agree hagree hd (hin m hm)
  have hfunc' := hagree _ _ hfunc (Node.mem_nodes_of_mem_children List.mem_cons_self)
  simp only [convertCall, bind_eq_ok, require_eq_ok]
  refine ⟨function, hfunction, func, hfunc', arguments, harguments, ?_⟩
  rw [if_pos htype, hmap, hargs, hkeywords]
  simp only [List.partition_eq_filter_filter]
  rfl

/-- The conversion of a node goes by those whose trees are in its tree, and by no others. -/
theorem convertNode_of_agree (h : Converts source below c n) (hagree : AgreeIn below below' n) :
    convertNode source below' c = .ok n := by
  have hchild : ∀ {m}, m ∈ n.children → m ∈ n.nodes := Node.mem_nodes_of_mem_children
  have hone : ∀ {d m}, below d = .ok m → m ∈ n.children → below' d = .ok m :=
    fun hd hm => hagree _ _ hd (hchild hm)
  have hall : ∀ {cs ns}, ConvertsAll below cs ns → (∀ m ∈ ns, m ∈ n.children) →
      cs.mapM below' = .ok ns :=
    fun hcs hns => mapM_of_agree hagree hcs fun m hm => hchild (hns m hm)
  unfold convertNode
  cases h with
  | unwrap hform hparts hn =>
    simp only [hform, hparts]
    exact hagree _ _ hn n.mem_nodes_self
  | @other ns hform hparts =>
    have hother : otherNode below' c = .ok (.other c.position c.type ns) := by
      rw [otherNode, hall hparts fun m hm => hm]
      rfl
    rcases hform with ⟨hform, hlength⟩ | ⟨hform, hany⟩ | hform
    · simp only [hform]
      split
      · rename_i inner hsingle
        rw [hsingle] at hlength
        exact absurd rfl hlength
      · exact hother
    · simp only [hform, hany, if_true]
      exact hother
    · simp only [hform]
      exact hother
  | declared hform hleft hright htarget hhint =>
    obtain ⟨r, hr, rfl⟩ := convertOptional_of_agree hagree hhint
      fun m hm => hchild (List.mem_cons_of_mem _ hm)
    simp only [hform, convertAssignment, bind_eq_ok, require_eq_ok, hright]
    exact ⟨_, hleft, _, hone htarget List.mem_cons_self, r, hr, rfl⟩
  | @assign left right value target v targets hint hform hleft hright htarget hchain hhint hvalue =>
    have hin : ∀ m, m ∈ targets ∨ m ∈ hint.toList ∨ m = v → m ∈
        (Node.assign c.position (target :: targets) hint v).children := by
      simp only [Node.children, List.cons_append, List.mem_cons, List.mem_append, List.not_mem_nil,
        or_false]
      tauto
    obtain ⟨r, hr, hhint⟩ := convertOptional_of_agree hagree hhint
      fun m hm => hchild (hin m (.inr (.inl hm)))
    have hhint : r = hint := by
      rw [← r.head?_toList, hhint, Option.head?_toList]
    have hrest := assignmentChain_of_agree hagree hchain (fun m hm => hchild (hin m (.inl hm)))
      (Nat.le_of_lt (Inside.of_field hright).depth_lt)
    simp only [hform, convertAssignment, bind_eq_ok, require_eq_ok, hright]
    exact ⟨_, hleft, _, hone htarget List.mem_cons_self, _, hrest, hint, hhint ▸ hr, v,
      hone hvalue (hin v (.inr (.inr rfl))), rfl⟩
  | augassign hform hleft hoperator hright hl hr =>
    simp only [hform, bind_eq_ok, require_eq_ok]
    exact ⟨_, hleft, _, hone hl (by simp [Node.children]), _, hoperator, _, hright, _,
      hone hr (by simp [Node.children]), rfl⟩
  | function hform hname hbody hparameters hresult hstatements =>
    have hps := convertList_of_agree hagree hparameters
      fun m hm => hchild (by simp [Node.children, hm])
    obtain ⟨r, hr, rfl⟩ := convertOptional_of_agree hagree hresult
      fun m hm => hchild (List.mem_append_left _ (List.mem_append_right _ hm))
    simp only [hform, convertFunction, bind_eq_ok, require_eq_ok]
    exact ⟨_, hname, _, hps, r, hr, _, hbody, _,
      hall hstatements fun m hm => List.mem_append_right _ hm, rfl⟩
  | classDef hform hname hbody hbases hstatements =>
    have hps := convertList_of_agree hagree hbases
      fun m hm => hchild (List.mem_append_left _ hm)
    simp only [hform, convertClass, bind_eq_ok, require_eq_ok]
    exact ⟨_, hname, _, hps, _, hbody, _,
      hall hstatements fun m hm => List.mem_append_right _ hm, rfl⟩
  | call hform hfunction harguments hfunc htype hnodes =>
    simp only [hform]
    exact convertCall_of_agree hagree hfunction harguments hfunc htype hnodes rfl rfl
  | bareCall hform hfunction harguments hfunc htype hargument =>
    have hfunc' := hone hfunc List.mem_cons_self
    have hargument' := hone hargument (Node.mem_children_call (.inl (List.mem_singleton_self _)))
    simp only [hform, convertCall, bind_eq_ok, require_eq_ok]
    refine ⟨_, hfunction, _, hfunc', _, harguments, ?_⟩
    rw [if_neg htype, hargument']
    rfl
  | attr hform hobject hword ho =>
    simp only [hform, bind_eq_ok, require_eq_ok]
    exact ⟨_, hobject, _, hone ho List.mem_cons_self, _, hword, rfl⟩
  | subscript hform hparts hvalue hindices =>
    simp only [hform, convertSubscript, hparts, bind_eq_ok]
    exact ⟨_, hone hvalue List.mem_cons_self, _,
      hall hindices fun m hm => List.mem_cons_of_mem _ hm, rfl⟩
  | name hform => simp only [hform]
  | compare hform hparts hleft hcomparators =>
    simp only [hform, convertComparison, hparts, bind_eq_ok]
    exact ⟨_, hone hleft List.mem_cons_self, _,
      hall hcomparators fun m hm => List.mem_cons_of_mem _ hm, rfl⟩
  | binop hform hleft hoperator hright hl hr =>
    simp only [hform, bind_eq_ok, require_eq_ok]
    exact ⟨_, hleft, _, hone hl (by simp [Node.children]), _, hoperator, _, hright, _,
      hone hr (by simp [Node.children]), rfl⟩
  | boolop hform hleft hoperator hright hl hr =>
    simp only [hform, bind_eq_ok, require_eq_ok]
    exact ⟨_, hoperator, _, hleft, _, hone hl (by simp [Node.children]), _, hright, _,
      hone hr (by simp [Node.children]), rfl⟩
  | unaryop hform hoperator hargument ha =>
    simp only [hform, bind_eq_ok, require_eq_ok]
    exact ⟨_, hoperator, _, hargument, _, hone ha List.mem_cons_self, rfl⟩
  | negation hform hargument ha =>
    simp only [hform, bind_eq_ok, require_eq_ok]
    exact ⟨_, hargument, _, hone ha List.mem_cons_self, rfl⟩
  | lambda hform hbody hparameters hb =>
    have hps := convertList_of_agree hagree hparameters
      fun m hm => hchild (List.mem_append_left _ hm)
    simp only [hform, bind_eq_ok, require_eq_ok]
    exact ⟨_, hps, _, hbody, _, hone hb (by simp [Node.children]), rfl⟩
  | constant hform =>
    rcases hform with hform | ⟨hform, rfl, hnone⟩
    · simp only [hform]
    · simp only [hform, hnone]
      rfl

end agree

/-! ## Nodes that are converted -/

/-- What a node is asked for has its tree in that of the node that asks. -/
theorem AsksFor.mem_nodes (h : AsksFor source c d) (hn : convert source c = .ok n) :
    ∃ m, convert source d = .ok m ∧ m ∈ n.nodes := by
  classical
  -- Of the conversions below, only those are left that give a node of the tree.
  let kept : Cst → Except Malformed Node := fun e =>
    if ∃ m, convert source e = .ok m ∧ m ∈ n.nodes then convert source e
    else .error ⟨"", e.position⟩
  have hagree : AgreeIn (convert source) kept n :=
    fun e m he hm => (if_pos ⟨m, he, hm⟩).trans he
  rw [convert_eq] at hn
  obtain ⟨m, hm⟩ := h kept n (convertNode_of_agree (converts_of_ok hn) hagree)
  by_contra hnone
  cases (if_neg hnone).symm.trans hm

theorem converted_mem_nodes {root : Cst} {tree : Node} (h : root.convertModule source = .ok tree)
    (hd : Converted source root d) : ∃ m, convert source d = .ok m ∧ m ∈ tree.nodes := by
  obtain ⟨ns, hns, hmodule⟩ := bind_eq_ok.1 h
  cases hmodule
  obtain ⟨top, htop, hway⟩ := hd
  induction hway with
  | refl =>
    obtain ⟨m, hm, hconvert⟩ := exists_mem_of_forall₂ (mapM_eq_ok.1 hns) htop
    exact ⟨m, hconvert, Node.mem_nodes_of_mem_children hm⟩
  | tail _ hasks ih =>
    obtain ⟨m, hconvert, hm⟩ := ih
    obtain ⟨k, hk, hkm⟩ := hasks.mem_nodes hconvert
    exact ⟨k, hk, Node.mem_nodes_trans hm hkm⟩

end Cst
end ChainLint
