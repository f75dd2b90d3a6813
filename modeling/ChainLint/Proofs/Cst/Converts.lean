import ChainLint.Proofs.Cst.Unfold
import ChainLint.Proofs.Tree.Trail

/-!
# ChainLint.Proofs.Cst.Converts

The ways in which a node can be converted, with all that is read on the way.

* `Chain`: the targets and the value of a chain of assignments.
* `Argument`: an argument of a call.
* `Converts`: any node. `converts_of_ok` is the one place where `convertNode` is taken apart.
* `Converts.builtIn_children`: the children of a tree are built from nodes inside.
* `every_of_convert`, `every_of_convertModule`: what holds of every node of a tree, from what holds
  of one, however it was converted.
-/

namespace ChainLint
namespace Cst

variable (source : Array (Option Char)) (below : Cst → Except Malformed Node)

/-- The concrete nodes are converted, each to the node at the same index. -/
abbrev ConvertsAll (cs : List Cst) (ns : List Node) : Prop :=
  List.Forall₂ (fun c n => below c = .ok n) cs ns

/-- The targets of a chain of assignments from `right` on, and the value at its end. -/
inductive Chain : Cst → List Node → Cst → Prop where
  | stop {right : Cst}
      (hend : right.form = .assignment → right.field? "type" = none → right.field? "right" = none) :
      Chain right [] right
  | link {right left next value : Cst} {target : Node} {targets : List Node}
      (hform : right.form = .assignment) (htype : right.field? "type" = none)
      (hleft : right.field? "left" = some left) (hnext : right.field? "right" = some next)
      (htarget : below left = .ok target) (hrest : Chain next targets value) :
      Chain right (target :: targets) value

/-- An argument of a call. -/
inductive Argument : Cst → Node → Prop where
  | keyword {d name value : Cst} {n : Node} (htype : d.type = "keyword_argument")
      (hname : d.field? "name" = some name) (hvalue : d.field? "value" = some value)
      (hn : below value = .ok n) :
      Argument d (.keyword d.position (some (name.text source)) n)
  | splat {d value : Cst} {rest : List Cst} {n : Node} (htype : d.type = "dictionary_splat")
      (hparts : d.parts = value :: rest) (hn : below value = .ok n) :
      Argument d (.keyword d.position none n)
  | plain {d : Cst} {n : Node} (htype : d.isKeywordArgument = false) (hn : below d = .ok n) :
      Argument d n

/-- The node `c` is converted to a tree, by the form of `c`. -/
inductive Converts (c : Cst) : Node → Prop where
  | unwrap {inner : Cst} {n : Node} (hform : c.form = .wrapper) (hparts : c.parts = [inner])
      (hn : below inner = .ok n) : Converts c n
  | other {ns : List Node}
      (hform : (c.form = .wrapper ∧ c.parts.length ≠ 1) ∨
        (c.form = .string ∧ c.parts.any (fun d => d.type == "interpolation") = true) ∨
        c.form = .other)
      (hparts : ConvertsAll below c.parts ns) : Converts c (.other c.position c.type ns)
  | declared {left : Cst} {target : Node} {hint : List Node} (hform : c.form = .assignment)
      (hleft : c.field? "left" = some left) (hright : c.field? "right" = none)
      (htarget : below left = .ok target)
      (hhint : ConvertsAll below (c.field? "type").toList hint) :
      Converts c (.other c.position "annotation" (target :: hint))
  | assign {left right value : Cst} {target v : Node} {targets : List Node} {hint : Option Node}
      (hform : c.form = .assignment) (hleft : c.field? "left" = some left)
      (hright : c.field? "right" = some right) (htarget : below left = .ok target)
      (hchain : Chain below right targets value)
      (hhint : ConvertsAll below (c.field? "type").toList hint.toList)
      (hvalue : below value = .ok v) :
      Converts c (.assign c.position (target :: targets) hint v)
  | augassign {left operator right : Cst} {l r : Node} (hform : c.form = .augmented)
      (hleft : c.field? "left" = some left) (hoperator : c.field? "operator" = some operator)
      (hright : c.field? "right" = some right) (hl : below left = .ok l)
      (hr : below right = .ok r) : Converts c (.augassign c.position l operator.type r)
  | function {name body : Cst} {parameters result statements : List Node}
      (hform : c.form = .function) (hname : c.field? "name" = some name)
      (hbody : c.field? "body" = some body)
      (hparameters : ConvertsAll below ((c.field? "parameters").toList.flatMap parts) parameters)
      (hresult : ConvertsAll below (c.field? "return_type").toList result)
      (hstatements : ConvertsAll below body.parts statements) :
      Converts c (.function c.position (name.text source) (parameters ++ result) statements)
  | classDef {name body : Cst} {bases statements : List Node} (hform : c.form = .classDef)
      (hname : c.field? "name" = some name) (hbody : c.field? "body" = some body)
      (hbases : ConvertsAll below ((c.field? "superclasses").toList.flatMap parts) bases)
      (hstatements : ConvertsAll below body.parts statements) :
      Converts c (.classDef c.position (name.text source) bases statements)
  | call {function arguments : Cst} {func : Node} {nodes : List Node} (hform : c.form = .call)
      (hfunction : c.field? "function" = some function)
      (harguments : c.field? "arguments" = some arguments) (hfunc : below function = .ok func)
      (htype : arguments.type = "argument_list")
      (hnodes : List.Forall₂ (Argument source below) arguments.parts nodes) :
      Converts c (.call c.position func
        (((arguments.parts.zip nodes).filter (fun x => !x.1.isKeywordArgument)).map Prod.snd)
        (((arguments.parts.zip nodes).filter (fun x => x.1.isKeywordArgument)).map Prod.snd))
  | bareCall {function arguments : Cst} {func argument : Node} (hform : c.form = .call)
      (hfunction : c.field? "function" = some function)
      (harguments : c.field? "arguments" = some arguments) (hfunc : below function = .ok func)
      (htype : arguments.type ≠ "argument_list") (hargument : below arguments = .ok argument) :
      Converts c (.call c.position func [argument] [])
  | attr {object word : Cst} {o : Node} (hform : c.form = .attr)
      (hobject : c.field? "object" = some object) (hword : c.field? "attribute" = some word)
      (ho : below object = .ok o) : Converts c (.attr c.position o (word.text source))
  | subscript {value : Cst} {indices : List Cst} {v : Node} {is : List Node}
      (hform : c.form = .subscript) (hparts : c.parts = value :: indices)
      (hvalue : below value = .ok v) (hindices : ConvertsAll below indices is) :
      Converts c (.subscript c.position v is)
  | name (hform : c.form = .identifier) : Converts c (.name c.position (c.text source))
  | compare {left : Cst} {comparators : List Cst} {l : Node} {rs : List Node}
      (hform : c.form = .comparison) (hparts : c.parts = left :: comparators)
      (hleft : below left = .ok l) (hcomparators : ConvertsAll below comparators rs) :
      Converts c (.compare c.position l (operatorTexts source c.parts) rs)
  | binop {left operator right : Cst} {l r : Node} (hform : c.form = .binary)
      (hleft : c.field? "left" = some left) (hoperator : c.field? "operator" = some operator)
      (hright : c.field? "right" = some right) (hl : below left = .ok l)
      (hr : below right = .ok r) : Converts c (.binop c.position l operator.type r)
  | boolop {left operator right : Cst} {l r : Node} (hform : c.form = .boolean)
      (hleft : c.field? "left" = some left) (hoperator : c.field? "operator" = some operator)
      (hright : c.field? "right" = some right) (hl : below left = .ok l)
      (hr : below right = .ok r) :
      Converts c (.boolop c.position (if operator.type = "and" then "and" else "or") [l, r])
  | unaryop {operator argument : Cst} {a : Node} (hform : c.form = .unary)
      (hoperator : c.field? "operator" = some operator)
      (hargument : c.field? "argument" = some argument) (ha : below argument = .ok a) :
      Converts c (.unaryop c.position operator.type a)
  | negation {argument : Cst} {a : Node} (hform : c.form = .negation)
      (hargument : c.field? "argument" = some argument) (ha : below argument = .ok a) :
      Converts c (.unaryop c.position "not" a)
  | lambda {body : Cst} {parameters : List Node} {b : Node} (hform : c.form = .lambda)
      (hbody : c.field? "body" = some body)
      (hparameters : ConvertsAll below ((c.field? "parameters").toList.flatMap parts) parameters)
      (hb : below body = .ok b) : Converts c (.lambda c.position parameters b)
  | constant {l : Literal}
      (hform : c.form = .literal l ∨ (c.form = .string ∧ l = .string ∧
        c.parts.any (fun d => d.type == "interpolation") = false)) :
      Converts c (.constant c.position l (c.text source))

variable {source below}

theorem convertOptional_eq_ok {o : Option Cst} {r : Option Node} :
    convertOptional below o = .ok r ↔ ConvertsAll below o.toList r.toList := by
  cases o with
  | none => cases r <;> simp [convertOptional]
  | some c =>
    rw [convertOptional, bind_eq_ok]
    cases r <;> simp [pure_eq_ok]

theorem convertList_of_ok {o : Option Cst} {ns : List Node} (h : convertList below o = .ok ns) :
    ConvertsAll below (o.toList.flatMap parts) ns := by
  cases o with
  | none =>
    cases h
    exact .nil
  | some c => simpa using mapM_eq_ok.1 h

theorem chain_of_ok {right value : Cst} {targets : List Node} {fuel : Nat}
    (hfuel : right.depth ≤ fuel) (h : assignmentChain below fuel right = .ok (targets, value)) :
    Chain below right targets value := by
  induction fuel generalizing right targets with
  | zero =>
    obtain ⟨k, hk⟩ := right.exists_depth_eq
    omega
  | succ fuel ih =>
    unfold assignmentChain at h
    split at h
    · rename_i hgoes
      split at h
      · rename_i hright
        cases h
        exact .stop (fun _ _ => hright)
      · rename_i next hnext
        obtain ⟨left, hleft, h⟩ := bind_eq_ok.1 h
        obtain ⟨target, htarget, h⟩ := bind_eq_ok.1 h
        obtain ⟨⟨targets', value'⟩, hrest, h⟩ := bind_eq_ok.1 h
        cases h
        have hlt := (Inside.of_field hnext).depth_lt
        exact .link hgoes.1 (Option.isNone_iff_eq_none.1 hgoes.2) (require_eq_ok.1 hleft) hnext
          htarget (ih (by omega) hrest)
    · rename_i hends
      cases h
      exact .stop (fun hform htype => (hends ⟨hform, by simp [htype]⟩).elim)

/-- The nodes that a chain reads stand inside the node it starts in. -/
theorem Chain.inside {c right value : Cst} {targets : List Node}
    (h : Chain below right targets value) (hright : Inside right c) :
    Inside value c ∧ ∀ t ∈ targets, ∃ d, Inside d c ∧ below d = .ok t := by
  induction h with
  | stop => exact ⟨hright, by simp⟩
  | link _ _ hleft hnext htarget _ ih =>
    obtain ⟨hvalue, htargets⟩ := ih (Inside.trans (.of_field hnext) hright)
    refine ⟨hvalue, List.forall_mem_cons.2 ⟨?_, htargets⟩⟩
    exact ⟨_, Inside.trans (.of_field hleft) hright, htarget⟩

theorem argument_of_ok {d : Cst} {n : Node} (h : convertArgument source below d = .ok n) :
    Argument source below d n := by
  unfold convertArgument at h
  split at h
  · rename_i htype
    obtain ⟨name, hname, h⟩ := bind_eq_ok.1 h
    obtain ⟨value, hvalue, h⟩ := bind_eq_ok.1 h
    obtain ⟨m, hm, h⟩ := bind_eq_ok.1 h
    cases h
    exact .keyword htype (require_eq_ok.1 hname) (require_eq_ok.1 hvalue) hm
  · rename_i hkeyword
    split at h
    · rename_i htype
      split at h
      · cases h
      · rename_i value rest hparts
        obtain ⟨m, hm, h⟩ := bind_eq_ok.1 h
        cases h
        exact .splat htype hparts hm
    · rename_i hsplat
      exact .plain (by simp [isKeywordArgument, hkeyword, hsplat]) h

theorem converts_assignment {c : Cst} {n : Node} (hform : c.form = .assignment)
    (h : convertAssignment below c = .ok n) : Converts source below c n := by
  unfold convertAssignment at h
  obtain ⟨left, hleft, h⟩ := bind_eq_ok.1 h
  obtain ⟨target, htarget, h⟩ := bind_eq_ok.1 h
  rw [require_eq_ok] at hleft
  split at h
  · rename_i hright
    obtain ⟨hint, hhint, h⟩ := bind_eq_ok.1 h
    cases h
    exact .declared hform hleft hright htarget (convertOptional_eq_ok.1 hhint)
  · rename_i right hright
    obtain ⟨⟨targets, value⟩, hchain, h⟩ := bind_eq_ok.1 h
    obtain ⟨hint, hhint, h⟩ := bind_eq_ok.1 h
    obtain ⟨v, hv, h⟩ := bind_eq_ok.1 h
    cases h
    have hfuel := Nat.le_of_lt (Inside.of_field hright).depth_lt
    exact .assign hform hleft hright htarget (chain_of_ok hfuel hchain)
      (convertOptional_eq_ok.1 hhint) hv

theorem converts_call {c : Cst} {n : Node} (hform : c.form = .call)
    (h : convertCall source below c = .ok n) : Converts source below c n := by
  unfold convertCall at h
  obtain ⟨function, hfunction, h⟩ := bind_eq_ok.1 h
  obtain ⟨func, hfunc, h⟩ := bind_eq_ok.1 h
  obtain ⟨arguments, harguments, h⟩ := bind_eq_ok.1 h
  rw [require_eq_ok] at hfunction harguments
  split at h
  · rename_i htype
    obtain ⟨nodes, hnodes, h⟩ := bind_eq_ok.1 h
    rw [List.partition_eq_filter_filter] at h
    cases h
    exact .call hform hfunction harguments hfunc htype
      ((mapM_eq_ok.1 hnodes).imp (fun _ _ => argument_of_ok))
  · rename_i htype
    obtain ⟨argument, hargument, h⟩ := bind_eq_ok.1 h
    cases h
    exact .bareCall hform hfunction harguments hfunc htype hargument

theorem converts_other {c : Cst} {n : Node}
    (hform : (c.form = .wrapper ∧ c.parts.length ≠ 1) ∨
      (c.form = .string ∧ c.parts.any (fun d => d.type == "interpolation") = true) ∨
      c.form = .other)
    (h : otherNode below c = .ok n) : Converts source below c n := by
  obtain ⟨ns, hns, h⟩ := bind_eq_ok.1 h
  cases h
  exact .other hform (mapM_eq_ok.1 hns)

/-- A conversion that succeeds went one of the ways. -/
theorem converts_of_ok {c : Cst} {n : Node} (h : convertNode source below c = .ok n) :
    Converts source below c n := by
  unfold convertNode at h
  cases hform : c.form with
  | wrapper =>
    simp only [hform] at h
    split at h
    · rename_i inner hparts
      exact .unwrap hform hparts h
    · rename_i hparts
      refine converts_other (.inl ⟨hform, fun hlen => ?_⟩) h
      obtain ⟨inner, hinner⟩ := List.length_eq_one_iff.1 hlen
      exact hparts inner hinner
  | assignment =>
    simp only [hform] at h
    exact converts_assignment hform h
  | augmented =>
    simp only [hform, bind_eq_ok, require_eq_ok] at h
    obtain ⟨left, hleft, l, hl, operator, hoperator, right, hright, r, hr, h⟩ := h
    cases h
    exact .augassign hform hleft hoperator hright hl hr
  | function =>
    simp only [hform, convertFunction, bind_eq_ok, require_eq_ok] at h
    obtain ⟨name, hname, ps, hps, result, hresult, body, hbody, ns, hns, h⟩ := h
    cases h
    exact .function hform hname hbody (convertList_of_ok hps) (convertOptional_eq_ok.1 hresult)
      (mapM_eq_ok.1 hns)
  | classDef =>
    simp only [hform, convertClass, bind_eq_ok, require_eq_ok] at h
    obtain ⟨name, hname, bases, hbases, body, hbody, ns, hns, h⟩ := h
    cases h
    exact .classDef hform hname hbody (convertList_of_ok hbases) (mapM_eq_ok.1 hns)
  | call =>
    simp only [hform] at h
    exact converts_call hform h
  | attr =>
    simp only [hform, bind_eq_ok, require_eq_ok] at h
    obtain ⟨object, hobject, o, ho, word, hword, h⟩ := h
    cases h
    exact .attr hform hobject hword ho
  | subscript =>
    simp only [hform, convertSubscript] at h
    split at h
    · cases h
    · rename_i value indices hparts
      simp only [bind_eq_ok, mapM_eq_ok] at h
      obtain ⟨v, hv, is, his, h⟩ := h
      cases h
      exact .subscript hform hparts hv his
  | identifier =>
    simp only [hform] at h
    cases h
    exact .name hform
  | comparison =>
    simp only [hform, convertComparison] at h
    split at h
    · cases h
    · rename_i left comparators hparts
      simp only [bind_eq_ok, mapM_eq_ok] at h
      obtain ⟨l, hl, rs, hrs, h⟩ := h
      cases h
      exact .compare hform hparts hl hrs
  | binary =>
    simp only [hform, bind_eq_ok, require_eq_ok] at h
    obtain ⟨left, hleft, l, hl, operator, hoperator, right, hright, r, hr, h⟩ := h
    cases h
    exact .binop hform hleft hoperator hright hl hr
  | boolean =>
    simp only [hform, bind_eq_ok, require_eq_ok] at h
    obtain ⟨operator, hoperator, left, hleft, l, hl, right, hright, r, hr, h⟩ := h
    cases h
    exact .boolop hform hleft hoperator hright hl hr
  | unary =>
    simp only [hform, bind_eq_ok, require_eq_ok] at h
    obtain ⟨operator, hoperator, argument, hargument, a, ha, h⟩ := h
    cases h
    exact .unaryop hform hoperator hargument ha
  | negation =>
    simp only [hform, bind_eq_ok, require_eq_ok] at h
    obtain ⟨argument, hargument, a, ha, h⟩ := h
    cases h
    exact .negation hform hargument ha
  | lambda =>
    simp only [hform, bind_eq_ok, require_eq_ok] at h
    obtain ⟨ps, hps, body, hbody, b, hb, h⟩ := h
    cases h
    exact .lambda hform hbody (convertList_of_ok hps) hb
  | string =>
    simp only [hform] at h
    split at h
    · rename_i hany
      exact converts_other (.inr (.inl ⟨hform, hany⟩)) h
    · rename_i hany
      cases h
      exact .constant (.inr ⟨hform, rfl, by simpa using hany⟩)
  | literal l =>
    simp only [hform] at h
    cases h
    exact .constant (.inl hform)
  | other =>
    simp only [hform] at h
    exact converts_other (.inr (.inr hform)) h

section children

variable {c : Cst} {n m : Node}

variable (source below) in
/-- The tree `m` was built from a node inside `c`. -/
def BuiltIn (c : Cst) (m : Node) : Prop :=
  ∃ d, Inside d c ∧ (below d = .ok m ∨ Argument source below d m)

theorem BuiltIn.of_mem {R : Cst → Node → Prop} {cs : List Cst} {ns : List Node}
    (h : List.Forall₂ R cs ns) (hcs : ∀ d ∈ cs, Inside d c)
    (hR : ∀ d m, R d m → below d = .ok m ∨ Argument source below d m) (hm : m ∈ ns) :
    BuiltIn source below c m :=
  forall_mem_of_forall₂ h (fun d hd m hdm => ⟨d, hcs d hd, hR d m hdm⟩) m hm

/-- A tree is that of a node inside, or all its children are built from nodes inside. -/
theorem Converts.builtIn_children (h : Converts source below c n) :
    (∃ d, Inside d c ∧ below d = .ok n) ∨ ∀ m ∈ n.children, BuiltIn source below c m := by
  have hone : ∀ {d m}, Inside d c → below d = .ok m → BuiltIn source below c m :=
    fun hd hm => ⟨_, hd, .inl hm⟩
  have hall : ∀ {cs ns}, ConvertsAll below cs ns → (∀ d ∈ cs, Inside d c) →
      ∀ m ∈ ns, BuiltIn source below c m :=
    fun hns hcs m hm => .of_mem hns hcs (fun _ _ => .inl) hm
  have hparts : ∀ {ns}, ConvertsAll below c.parts ns → ∀ m ∈ ns, BuiltIn source below c m :=
    fun hns => hall hns fun d hd => .of_part hd
  have hfield : ∀ {name ns}, ConvertsAll below (c.field? name).toList ns →
      ∀ m ∈ ns, BuiltIn source below c m :=
    fun hns => hall hns fun d hd => .of_mem_field hd
  have hlist : ∀ {name ns}, ConvertsAll below ((c.field? name).toList.flatMap parts) ns →
      ∀ m ∈ ns, BuiltIn source below c m :=
    fun hns => hall hns fun d hd => .of_mem_list hd
  have hblock : ∀ {name body ns}, c.field? name = some body → ConvertsAll below body.parts ns →
      ∀ m ∈ ns, BuiltIn source below c m :=
    fun hbody hns => hall hns fun d hd => Inside.trans (.of_part hd) (.of_field hbody)
  cases h with
  | unwrap _ hinner hn => exact .inl ⟨_, .of_part (hinner ▸ List.mem_cons_self), hn⟩
  | other _ hns => exact .inr (hparts hns)
  | declared _ hleft _ htarget hhint =>
    exact .inr (List.forall_mem_cons.2 ⟨hone (.of_field hleft) htarget, hfield hhint⟩)
  | assign _ hleft hright htarget hchain hhint hv =>
    obtain ⟨hvalue, htargets⟩ := hchain.inside (.of_field hright)
    have htargets : ∀ m ∈ _, BuiltIn source below c m := fun m hm =>
      (htargets m hm).elim fun d hd => hone hd.1 hd.2
    refine .inr ?_
    rw [Node.children, List.forall_mem_append, List.forall_mem_append, List.forall_mem_cons,
      List.forall_mem_singleton]
    exact ⟨⟨⟨hone (.of_field hleft) htarget, htargets⟩, hfield hhint⟩, hone hvalue hv⟩
  | augassign _ hleft _ hright hl hr | binop _ hleft _ hright hl hr
  | boolop _ hleft _ hright hl hr =>
    refine .inr (List.forall_mem_cons.2 ⟨hone (.of_field hleft) hl, ?_⟩)
    exact List.forall_mem_singleton.2 (hone (.of_field hright) hr)
  | function _ _ hbody hparameters hresult hstatements =>
    refine .inr ?_
    rw [Node.children, List.forall_mem_append, List.forall_mem_append]
    exact ⟨⟨hlist hparameters, hfield hresult⟩, hblock hbody hstatements⟩
  | classDef _ _ hbody hbases hstatements =>
    exact .inr (List.forall_mem_append.2 ⟨hlist hbases, hblock hbody hstatements⟩)
  | @call function arguments func nodes _ hfunction harguments hfunc _ hnodes =>
    have hargs : ∀ x ∈ arguments.parts.zip nodes, BuiltIn source below c x.2 := fun x hx =>
      .of_mem hnodes (fun d hd => Inside.trans (.of_part hd) (.of_field harguments))
        (fun _ _ => .inr) (List.of_mem_zip hx).2
    refine .inr (List.forall_mem_cons.2 ⟨hone (.of_field hfunction) hfunc, fun m hm => ?_⟩)
    rcases List.mem_append.1 (mem_sortBy.1 hm) with hm | hm
    · obtain ⟨x, hx, rfl⟩ := List.mem_map.1 hm
      exact hargs x (List.mem_of_mem_filter hx)
    · obtain ⟨x, hx, rfl⟩ := List.mem_map.1 hm
      exact hargs x (List.mem_of_mem_filter hx)
  | bareCall _ hfunction harguments hfunc _ hargument =>
    refine .inr (List.forall_mem_cons.2 ⟨hone (.of_field hfunction) hfunc, fun m hm => ?_⟩)
    rw [List.mem_singleton.1 (mem_sortBy.1 hm)]
    exact hone (.of_field harguments) hargument
  | attr _ hobject _ ho => exact .inr (List.forall_mem_singleton.2 (hone (.of_field hobject) ho))
  | subscript _ hcons hvalue hindices => exact .inr (hparts (hcons ▸ .cons hvalue hindices))
  | compare _ hcons hleft hcomparators => exact .inr (hparts (hcons ▸ .cons hleft hcomparators))
  | unaryop _ _ hargument ha =>
    exact .inr (List.forall_mem_singleton.2 (hone (.of_field hargument) ha))
  | negation _ hargument ha =>
    exact .inr (List.forall_mem_singleton.2 (hone (.of_field hargument) ha))
  | lambda _ hbody hparameters hb =>
    refine .inr (List.forall_mem_append.2 ⟨hlist hparameters, ?_⟩)
    exact List.forall_mem_singleton.2 (hone (.of_field hbody) hb)
  | name => exact .inr (List.forall_mem_nil _)
  | constant => exact .inr (List.forall_mem_nil _)

end children

/-! ## Every node of a tree -/

section every

variable {P : Node → Prop} {Q : Cst → Prop} {n : Node}

/-- A property of every node of a tree, for concrete nodes that all have some property `Q`: it holds
of a node that a `Q` is converted to, unless the node is already that of something inside, and it
holds of the keywords among the arguments of a call. -/
theorem every_of_convert {c : Cst} (hc : c.Every Q)
    (hnode : ∀ d m, Q d → Converts source (convert source) d m →
      (∃ e, Inside e d ∧ convert source e = .ok m) ∨ P m)
    (hkeyword : ∀ d word v, Q d → P (.keyword d.position word v))
    (h : convert source c = .ok n) : n.Every P := by
  induction c using inductionOn generalizing n with
  | step c ih =>
    have hinside : ∀ d m, Inside d c → convert source d = .ok m → m.Every P :=
      fun d m hd hm => ih d hd (hc.inside hd) hm
    rw [convert_eq] at h
    have hconverts := converts_of_ok h
    rcases hconverts.builtIn_children with ⟨d, hd, hn⟩ | hchildren
    · exact hinside d n hd hn
    · rw [Node.every_iff]
      constructor
      · rcases hnode c n hc.1 hconverts with ⟨d, hd, hn⟩ | hn
        · exact (Node.every_iff.1 (hinside d n hd hn)).1
        · exact hn
      · intro m hm
        obtain ⟨d, hd, hm | hm⟩ := hchildren m hm
        · exact hinside d m hd hm
        · cases hm with
          | keyword _ _ hvalue hv =>
            rw [Node.every_keyword]
            exact ⟨hkeyword d _ _ (hc.2 d hd),
              hinside _ _ (Inside.trans (.of_field hvalue) hd) hv⟩
          | splat _ hparts hv =>
            have hin := Inside.trans (.of_part (hparts ▸ List.mem_cons_self)) hd
            rw [Node.every_keyword]
            exact ⟨hkeyword d _ _ (hc.2 d hd), hinside _ _ hin hv⟩
          | plain _ hm => exact hinside d m hd hm

theorem every_of_convertModule {root : Cst} {tree : Node} (hroot : root.Every Q)
    (hnode : ∀ d m, Q d → Converts source (convert source) d m →
      (∃ e, Inside e d ∧ convert source e = .ok m) ∨ P m)
    (hkeyword : ∀ d word v, Q d → P (.keyword d.position word v))
    (hmodule : ∀ ns, P (.module root.position ns))
    (h : root.convertModule source = .ok tree) : tree.Every P := by
  obtain ⟨ns, hns, h⟩ := bind_eq_ok.1 h
  cases h
  rw [Node.every_module]
  refine ⟨hmodule ns, ?_⟩
  exact forall_mem_of_forall₂ (mapM_eq_ok.1 hns) fun d hd n hn =>
    every_of_convert (hroot.inside (.of_part hd)) hnode hkeyword hn

end every

end Cst
end ChainLint
