import ChainLint.Proofs.Cst.Converts
import ChainLint.Proofs.Cst.Weight
import ChainLint.Rule.Shape
import Mathlib.Algebra.Order.Group.Multiset
import Mathlib.Tactic.Abel

/-!
# ChainLint.Proofs.Cst.Coverage

A conversion loses, repeats and invents nothing that rules look at.

* `share_of_chain`: each assignment of a chain gives one target of the tree.
* `total_of_converts`: one node, given that what lies below it keeps its weight.
* `total_of_convert`, `total_of_convertModule`: whole trees, for any weights.
* `convertModule_coverage`: hence the tree and the concrete syntax have the same constructs at the
  same positions.
-/

namespace ChainLint

variable {M : Type} [AddCommMonoid M]

namespace Cst

/-! ## One node -/

/-- The terms inside `c` become trees of their own weight. -/
def KeepsWeight (w : Weights M) (below : Cst → Except Malformed Node) (c : Cst) : Prop :=
  ∀ d n, Inside d c → Shaped .term d → below d = .ok n → n.total w = d.whole w

section step

variable {source : Array (Option Char)} {below : Cst → Except Malformed Node} {w : Weights M}
  {c : Cst}

theorem sum_of_forall₂ {R : Cst → Node → Prop} {cs : List Cst} {ns : List Node}
    (h : List.Forall₂ R cs ns) (hR : ∀ d ∈ cs, ∀ n, R d n → n.total w = d.whole w) :
    (cs.map (whole w)).sum = (ns.map (Node.total w)).sum := by
  induction h with
  | nil => rfl
  | @cons d n cs ns hn _ ih =>
    rw [List.map_cons, List.map_cons, List.sum_cons, List.sum_cons, hR d (by simp) n hn,
      ih (fun e he => hR e (by simp [he]))]

/-- Every assignment of a chain gives a target, and the last one the value. -/
theorem share_of_chain {root right value : Cst} {targets : List Node} {v : Node}
    (hbelow : KeepsWeight w below root) (h : Chain below right targets value)
    (hv : below value = .ok v) (hform : c.form = .assignment)
    (hright : c.field? "right" = some right) (hin : Inside right root)
    (hshaped : Shaped .term right) :
    share w c right =
      targets.length • w.target + ((targets.map (Node.total w)).sum + v.total w) := by
  induction h generalizing c with
  | @stop right hend =>
    have hwhole : share w c right = right.whole w := by
      cases hcont : c.continues right with
      | false => exact share_eq_whole w hcont
      | true =>
        simp only [continues, Bool.and_eq_true, decide_eq_true_eq, Option.isNone_iff_eq_none]
          at hcont
        simp [share, whole, weight, hcont.1.2, hend hcont.1.2 hcont.2]
    rw [hwhole, hbelow right v hin hshaped hv]
    simp
  | @link right left next value target targets hassign htype hleft hnext htarget _ ih =>
    have hpart := isPart_of_field hshaped hleft
    have hfields := hshaped.termFits hpart
    simp only [TermFits, hassign] at hfields
    have hcont : c.continues right = true := by
      simp [continues, hform, (field?_eq_some hright).2, hassign, htype]
    have hweight : right.weight w true = w.target := by
      simp [weight, named_of_isPart hpart, hassign, hnext]
    have hnotleft : right.continues left = false :=
      continues_of_field (field?_eq_some hleft).2 (by decide)
    have hleft' := hbelow left target (Inside.trans (.of_field hleft) hin)
      (hshaped.field hassign hleft (by decide) (by simp)) htarget
    have hnext' := ih hv hassign hnext (Inside.trans (.of_field hnext) hin)
      (hshaped.field hassign hnext (by decide) (by simp))
    rw [share, hcont, hweight, total_of_fields w hshaped hfields (by decide)]
    simp only [Form.fields, List.map_cons, List.map_nil, List.sum_cons, List.sum_nil, hleft,
      htype, hnext, Option.toList_some, Option.toList_none, share_eq_whole w hnotleft, hnext',
      ← hleft', List.length_cons, succ_nsmul]
    abel

theorem total_of_argument {d : Cst} {n : Node}
    (hbelow : KeepsWeight w below c) (hin : Inside d c) (hshaped : Shaped .argument d)
    (hpart : d.isPart = true)
    (h : Argument source below d n) : n.total w = d.whole w := by
  have hfits : d.ArgumentFits := hshaped.here.fits hpart
  cases h with
  | @keyword name value m htype hname hvalue hm =>
    have hform : d.form = .other := by rw [form, htype]; rfl
    rw [ArgumentFits, if_pos htype] at hfits
    have hrole : ∀ {e name}, d.field? name = some e →
        Shaped (if name = "name" then .word else .term) e := by
      intro e name he
      have := hshaped.child (field?_eq_some he).1
      simpa [roleIn, htype, (field?_eq_some he).2] using this
    have hname' := whole_of_word w (hrole hname)
    have hm' := hbelow value m (Inside.trans (.of_field hvalue) hin) (hrole hvalue) hm
    rw [Node.total_eq, whole_of_fields w hshaped (by simp [hform]) hfits (by decide)]
    simp [Node.weight, Node.children, weight, hform, hname, hvalue, hname', hm']
  | @splat value rest m htype hparts hm =>
    have hform : d.form = .other := by rw [form, htype]; rfl
    rw [ArgumentFits, if_neg (by simp [htype]), if_pos htype] at hfits
    obtain ⟨value', hone⟩ := hfits
    obtain ⟨rfl, -⟩ := List.cons.inj (hparts.symm.trans hone)
    have hpart : value ∈ d.parts := by simp [hone]
    have hrole : Shaped .term value := by
      have := hshaped.child (mem_parts.1 hpart).1
      simpa [roleIn, htype] using this
    have hm' := hbelow value m (Inside.trans (.of_part hpart) hin) hrole hm
    rw [Node.total_eq, whole_of_list w hshaped (by simp [isFlaggable, hform]), hone]
    simp [Node.weight, Node.children, hm']
  | plain htype hn => exact hbelow d n hin (hshaped.of_argument htype) hn

theorem total_of_leaf_converts {n : Node} (hleaf : c.children = [])
    (h : Converts source below c n) : n.total w = 0 := by
  have hparts : c.parts = [] := by simp [parts, hleaf]
  have hfield : ∀ name, c.field? name = none := by simp [field?, hleaf]
  cases h with
  | other _ hns =>
    rw [hparts] at hns
    cases hns
    simp [Node.total_eq, Node.weight, Node.children]
  | name => simp [Node.total_eq, Node.weight, Node.children]
  | constant => simp [Node.total_eq, Node.weight, Node.children]
  | unwrap _ h | subscript _ h | compare _ h =>
    rw [hparts] at h
    cases h
  | declared _ h | assign _ h | augassign _ h | function _ h | classDef _ h | call _ h
  | bareCall _ h | attr _ h | binop _ h | boolop _ h | unaryop _ h | negation _ h | lambda _ h =>
    rw [hfield] at h
    cases h

section fields

variable {form : Form} {name : String} {ns : List Node}

theorem sum_of_word (h : Shaped .term c) (hform : c.form = form)
    (hrole : form.roleOf name = .word) : ((c.field? name).toList.map (whole w)).sum = 0 := by
  cases hd : c.field? name with
  | none => rfl
  | some d => simp [whole_of_word w (h.field hform hd hrole nofun)]

theorem sum_of_terms (h : Shaped .term c) (hbelow : KeepsWeight w below c) (hform : c.form = form)
    (hrole : form.roleOf name = .term) (hns : ConvertsAll below (c.field? name).toList ns) :
    ((c.field? name).toList.map (whole w)).sum = (ns.map (Node.total w)).sum := by
  refine sum_of_forall₂ hns (fun d hd n hn => ?_)
  have hfield := Option.mem_toList.1 hd
  exact hbelow d n (.of_field hfield) (h.field hform hfield hrole nofun) hn

theorem sum_of_block (h : Shaped .term c) (hbelow : KeepsWeight w below c) (hform : c.form = form)
    (hrole : form.roleOf name = .block)
    (hns : ConvertsAll below ((c.field? name).toList.flatMap parts) ns) :
    ((c.field? name).toList.map (whole w)).sum = (ns.map (Node.total w)).sum := by
  cases hd : c.field? name with
  | none =>
    rw [hd] at hns
    cases hns
    rfl
  | some d =>
    have hshaped := h.field hform hd hrole nofun
    rw [hd, Option.toList_some, List.flatMap_singleton] at hns
    rw [Option.toList_some, List.map_singleton, List.sum_singleton,
      whole_of_list w hshaped hshaped.here.fits]
    refine sum_of_forall₂ hns (fun e he n hn => ?_)
    exact hbelow e n (Inside.trans (.of_part he) (.of_field hd)) (hshaped.block_part he) hn

theorem convertsAll_field {d : Cst} {n : Node} (hd : c.field? name = some d)
    (hn : below d = .ok n) : ConvertsAll below (c.field? name).toList [n] := by
  rw [hd]
  exact .cons hn .nil

/-- An operator between two terms. -/
theorem whole_of_infix {left right : Cst} {l r : Node} (h : Shaped .term c)
    (hbelow : KeepsWeight w below c) (hform : c.form = form)
    (hfields : c.HasFields ["left", "operator", "right"])
    (hroles : ["left", "operator", "right"].map form.roleOf = [.term, .word, .term])
    (hleft : c.field? "left" = some left) (hright : c.field? "right" = some right)
    (hl : below left = .ok l) (hr : below right = .ok r) :
    c.whole w = c.weight w false + (l.total w + r.total w) := by
  simp only [List.map_cons, List.map_nil, List.cons.injEq, and_true] at hroles
  have hne : c.form ≠ .assignment := by
    intro heq
    rw [← hform, heq] at hroles
    exact absurd hroles.2.1 (by decide)
  rw [whole_of_fields w h hne hfields (by decide)]
  simp only [List.map_cons, List.map_nil, List.sum_cons, List.sum_nil,
    sum_of_terms h hbelow hform hroles.1 (convertsAll_field hleft hl),
    sum_of_word h hform hroles.2.1,
    sum_of_terms h hbelow hform hroles.2.2 (convertsAll_field hright hr)]
  simp

end fields

/-- The value of an assignment weighs itself, its targets and the rest of its chain. -/
theorem total_of_assign {left right value : Cst} {target v : Node} {targets : List Node}
    {hint : Option Node} (hshaped : Shaped .term c) (hpart : c.isPart = true)
    (hbelow : KeepsWeight w below c) (hform : c.form = .assignment)
    (hleft : c.field? "left" = some left)
    (hright : c.field? "right" = some right) (htarget : below left = .ok target)
    (hchain : Chain below right targets value)
    (hhint : ConvertsAll below (c.field? "type").toList hint.toList) (hv : below value = .ok v) :
    (Node.assign c.position (target :: targets) hint v).total w = c.whole w := by
  have hfields := hshaped.termFits hpart
  simp only [TermFits, hform] at hfields
  have hrest := share_of_chain hbelow hchain hv hform hright (.of_field hright)
    (hshaped.field hform hright (by decide) nofun)
  rw [Node.total_eq, whole, total_of_fields w hshaped hfields (by decide)]
  simp only [Form.fields, List.map_cons, List.map_nil, List.sum_cons, List.sum_nil,
    sum_share w (by decide : "left" ≠ "right"), sum_share w (by decide : "type" ≠ "right"),
    sum_of_terms hshaped hbelow hform (by decide) (convertsAll_field hleft htarget),
    sum_of_terms hshaped hbelow hform (by decide) hhint,
    hright, Option.toList_some, hrest]
  simp only [Node.weight, Node.children, weight, named_of_isPart hpart, hform, hright, if_true,
    Option.isSome_some, Bool.false_eq_true, if_false, List.length_cons, succ_nsmul,
    List.cons_append, List.append_assoc, List.map_cons, List.map_append, List.map_nil,
    List.sum_cons, List.sum_append, List.sum_nil, add_zero]
  abel

theorem total_of_declared {left : Cst} {target : Node} {hint : List Node}
    (hshaped : Shaped .term c) (hpart : c.isPart = true)
    (hbelow : KeepsWeight w below c) (hform : c.form = .assignment)
    (hleft : c.field? "left" = some left)
    (hright : c.field? "right" = none) (htarget : below left = .ok target)
    (hhint : ConvertsAll below (c.field? "type").toList hint) (type : String) :
    (Node.other c.position type (target :: hint)).total w = c.whole w := by
  have hfields := hshaped.termFits hpart
  simp only [TermFits, hform] at hfields
  rw [Node.total_eq, whole, total_of_fields w hshaped hfields (by decide)]
  simp only [Form.fields, List.map_cons, List.map_nil, List.sum_cons, List.sum_nil,
    sum_share w (by decide : "left" ≠ "right"), sum_share w (by decide : "type" ≠ "right"),
    sum_of_terms hshaped hbelow hform (by decide) (convertsAll_field hleft htarget),
    sum_of_terms hshaped hbelow hform (by decide) hhint, hright]
  simp [Node.weight, Node.children, weight, hform, hright]

theorem sum_split (l : List (Cst × Node)) (p : Cst × Node → Bool) (g : Node → M) :
    (((l.filter (fun x => !p x)).map Prod.snd ++ (l.filter p).map Prod.snd).map g).sum =
      ((l.map Prod.snd).map g).sum := by
  have hperm : (l.filter (fun x => !p x) ++ l.filter p).Perm l :=
    List.perm_append_comm.trans (List.filter_append_perm p l)
  rw [← List.map_append]
  exact ((hperm.map Prod.snd).map g).sum_eq

theorem total_of_call {function arguments : Cst} {func : Node} {nodes : List Node}
    (hshaped : Shaped .term c) (hpart : c.isPart = true)
    (hbelow : KeepsWeight w below c) (hform : c.form = .call)
    (hfunction : c.field? "function" = some function)
    (harguments : c.field? "arguments" = some arguments) (hfunc : below function = .ok func)
    (htype : arguments.type = "argument_list")
    (hnodes : List.Forall₂ (Argument source below) arguments.parts nodes) :
    (Node.call c.position func
      (((arguments.parts.zip nodes).filter (fun x => !x.1.isKeywordArgument)).map Prod.snd)
      (((arguments.parts.zip nodes).filter (fun x => x.1.isKeywordArgument)).map Prod.snd)).total w
      = c.whole w := by
  have hfields := hshaped.termFits hpart
  simp only [TermFits, hform] at hfields
  have hlist : Shaped .arguments arguments :=
    hshaped.field hform harguments (by decide) (fun _ => htype)
  have hin := Inside.of_field harguments
  have hsum : arguments.whole w = (nodes.map (Node.total w)).sum := by
    rw [whole_of_list w hlist hlist.here.fits]
    refine sum_of_forall₂ hnodes (fun d hd n hn => ?_)
    exact total_of_argument hbelow (Inside.trans (.of_part hd) hin)
      (hlist.child (mem_parts.1 hd).1) (List.mem_filter.1 hd).2 hn
  rw [Node.total_call, sum_split, List.map_snd_zip (by rw [hnodes.length_eq]), ← hsum,
    whole_of_fields w hshaped (by simp [hform]) hfields (by decide)]
  simp only [Form.fields, List.map_cons, List.map_nil, List.sum_cons, List.sum_nil,
    sum_of_terms hshaped hbelow hform (by decide) (convertsAll_field hfunction hfunc),
    harguments, Option.toList_some]
  simp [weight, named_of_isPart hpart, hform]

theorem sum_of_parts {cs : List Cst} {ns : List Node} (hshaped : Shaped .term c)
    (hbelow : KeepsWeight w below c) (hrole : ∀ name, c.form.roleOf name = .term)
    (hparts : c.parts = cs) (hns : ConvertsAll below cs ns) :
    (c.parts.map (whole w)).sum = (ns.map (Node.total w)).sum := by
  subst hparts
  exact sum_of_forall₂ hns (fun d hd n hn =>
    hbelow d n (.of_part hd) (hshaped.term_part hrole hd) hn)

/-- However a node is converted, its tree weighs what the node weighs, if that holds below it. -/
theorem total_of_converts {n : Node} (hshaped : Shaped .term c) (hpart : c.isPart = true)
    (hbelow : KeepsWeight w below c) (h : Converts source below c n) :
    n.total w = c.whole w := by
  have hnamed := named_of_isPart hpart
  have hfits := hshaped.termFits hpart
  cases h with
  | @unwrap inner n hform hparts hn =>
    have hsum := sum_of_parts hshaped hbelow
      (by simp [hform, Form.roleOf, Form.words, Form.blocks]) hparts (.cons hn .nil)
    rw [whole_of_list w hshaped (by simp [isFlaggable, hform]), hsum]
    simp
  | other hform hns =>
    have hplain : c.isFlaggable = false ∧ ∀ name, c.form.roleOf name = .term := by
      rcases hform with ⟨hform, -⟩ | ⟨hform, -⟩ | hform <;>
        simp [isFlaggable, hform, Form.roleOf, Form.words, Form.blocks]
    have hsum := sum_of_parts hshaped hbelow hplain.2 rfl hns
    rw [Node.total_eq, whole_of_list w hshaped hplain.1, hsum]
    simp [Node.weight, Node.children]
  | declared hform hleft hright htarget hhint =>
    exact total_of_declared hshaped hpart hbelow hform hleft hright htarget hhint _
  | assign hform hleft hright htarget hchain hhint hv =>
    exact total_of_assign hshaped hpart hbelow hform hleft hright htarget hchain hhint hv
  | augassign hform hleft _ hright hl hr =>
    simp only [TermFits, hform] at hfits
    rw [Node.total_eq, whole_of_infix hshaped hbelow hform hfits (by decide) hleft hright hl hr]
    simp [Node.weight, Node.children, weight, hnamed, hform]
  | @function name body parameters result statements hform _ hbody hparameters hresult
      hstatements =>
    simp only [TermFits, hform] at hfits
    have hbody' : ConvertsAll below ((c.field? "body").toList.flatMap parts) statements := by
      simpa [hbody] using hstatements
    rw [Node.total_eq, whole_of_fields w hshaped (by simp [hform]) hfits (by decide)]
    simp only [Form.fields, List.map_cons, List.map_nil, List.sum_cons, List.sum_nil,
      sum_of_word hshaped hform (by decide : Form.roleOf .function "name" = .word),
      sum_of_block hshaped hbelow hform (by decide) hparameters,
      sum_of_terms hshaped hbelow hform (by decide) hresult,
      sum_of_block hshaped hbelow hform (by decide) hbody']
    simp [Node.weight, Node.children, weight, hform]
  | @classDef name body bases statements hform _ hbody hbases hstatements =>
    simp only [TermFits, hform] at hfits
    have hbody' : ConvertsAll below ((c.field? "body").toList.flatMap parts) statements := by
      simpa [hbody] using hstatements
    rw [Node.total_eq, whole_of_fields w hshaped (by simp [hform]) hfits (by decide)]
    simp only [Form.fields, List.map_cons, List.map_nil, List.sum_cons, List.sum_nil,
      sum_of_word hshaped hform (by decide : Form.roleOf .classDef "name" = .word),
      sum_of_block hshaped hbelow hform (by decide) hbases,
      sum_of_block hshaped hbelow hform (by decide) hbody']
    simp [Node.weight, Node.children, weight, hform]
  | call hform hfunction harguments hfunc htype hnodes =>
    exact total_of_call hshaped hpart hbelow hform hfunction harguments hfunc htype hnodes
  | @bareCall function arguments func argument hform hfunction harguments hfunc htype hargument =>
    simp only [TermFits, hform] at hfits
    have hargument' := hbelow arguments argument (.of_field harguments)
      (hshaped.bare_arguments hform harguments htype) hargument
    rw [Node.total_call, whole_of_fields w hshaped (by simp [hform]) hfits (by decide)]
    simp only [Form.fields, List.map_cons, List.map_nil, List.sum_cons, List.sum_nil,
      sum_of_terms hshaped hbelow hform (by decide) (convertsAll_field hfunction hfunc),
      harguments, Option.toList_some, ← hargument']
    simp [weight, hnamed, hform]
  | attr hform hobject _ ho =>
    simp only [TermFits, hform] at hfits
    rw [Node.total_eq, whole_of_fields w hshaped (by simp [hform]) hfits (by decide)]
    simp only [Form.fields, List.map_cons, List.map_nil, List.sum_cons, List.sum_nil,
      sum_of_terms hshaped hbelow hform (by decide) (convertsAll_field hobject ho),
      sum_of_word hshaped hform (by decide : Form.roleOf .attr "attribute" = .word)]
    simp [Node.weight, Node.children, weight, hform]
  | subscript hform hparts hv his =>
    have hsum := sum_of_parts hshaped hbelow
      (by simp [hform, Form.roleOf, Form.words, Form.blocks]) hparts (.cons hv his)
    rw [Node.total_eq, whole, total_of_parts w hshaped (by simp [hform]), hsum]
    simp [Node.weight, Node.children, weight, hnamed, hform]
  | name hform =>
    simp only [TermFits, hform] at hfits
    rw [Node.total_eq, whole_of_fields w hshaped (by simp [hform]) hfits (by decide)]
    simp [Node.weight, Node.children, weight, hform, Form.fields]
  | compare hform hparts hl hrs =>
    have hsum := sum_of_parts hshaped hbelow
      (by simp [hform, Form.roleOf, Form.words, Form.blocks]) hparts (.cons hl hrs)
    rw [Node.total_eq, whole_of_list w hshaped (by simp [isFlaggable, hform]), hsum]
    simp [Node.weight, Node.children]
  | binop hform hleft _ hright hl hr =>
    simp only [TermFits, hform] at hfits
    rw [Node.total_eq, whole_of_infix hshaped hbelow hform hfits (by decide) hleft hright hl hr]
    simp [Node.weight, Node.children, weight, hform]
  | boolop hform hleft _ hright hl hr =>
    simp only [TermFits, hform] at hfits
    rw [Node.total_eq, whole_of_infix hshaped hbelow hform hfits (by decide) hleft hright hl hr]
    simp [Node.weight, Node.children, weight, hform]
  | unaryop hform _ hargument ha =>
    simp only [TermFits, hform] at hfits
    rw [Node.total_eq, whole_of_fields w hshaped (by simp [hform]) hfits (by decide)]
    simp only [Form.fields, List.map_cons, List.map_nil, List.sum_cons, List.sum_nil,
      sum_of_word hshaped hform (by decide : Form.roleOf .unary "operator" = .word),
      sum_of_terms hshaped hbelow hform (by decide) (convertsAll_field hargument ha)]
    simp [Node.weight, Node.children, weight, hform]
  | negation hform hargument ha =>
    simp only [TermFits, hform] at hfits
    rw [Node.total_eq, whole_of_fields w hshaped (by simp [hform]) hfits (by decide)]
    simp only [Form.fields, List.map_cons, List.map_nil, List.sum_cons, List.sum_nil,
      sum_of_terms hshaped hbelow hform (by decide) (convertsAll_field hargument ha)]
    simp [Node.weight, Node.children, weight, hform]
  | lambda hform hbody hparameters hb =>
    simp only [TermFits, hform] at hfits
    rw [Node.total_eq, whole_of_fields w hshaped (by simp [hform]) hfits (by decide)]
    simp only [Form.fields, List.map_cons, List.map_nil, List.sum_cons, List.sum_nil,
      sum_of_block hshaped hbelow hform (by decide) hparameters,
      sum_of_terms hshaped hbelow hform (by decide) (convertsAll_field hbody hb)]
    simp [Node.weight, Node.children, weight, hform]
  | constant hform =>
    have hclean : c.isFlaggable = false ∧ ∀ d, Inside d c → d.isFlaggable = false := by
      rcases hform with hform | ⟨hform, -, hplain⟩
      · simp only [TermFits, hform] at hfits
        exact ⟨by simp [isFlaggable, hform], hfits⟩
      · simp only [TermFits, hform, hplain, Bool.false_eq_true, false_or] at hfits
        exact ⟨by simp [isFlaggable, hform], hfits⟩
    rw [Node.total_eq, whole, weight_eq_zero w hclean.1, total_of_clean w hclean.2]
    simp [Node.weight, Node.children]

end step

theorem total_of_convert {source : Array (Option Char)} {w : Weights M} {c : Cst} {n : Node}
    (hshaped : Shaped .term c) (h : convert source c = .ok n) : n.total w = c.whole w := by
  induction c using inductionOn generalizing n with
  | step c ih =>
    rw [convert_eq] at h
    have hconverts := converts_of_ok h
    cases hpart : c.isPart with
    | true => exact total_of_converts hshaped hpart (fun d n hd hs hn => ih d hd hs hn) hconverts
    | false =>
      rw [total_of_leaf_converts (hshaped.here.bare hpart) hconverts,
        whole_of_bare w hshaped hpart]

theorem total_of_convertModule {source : Array (Option Char)} (w : Weights M) {root : Cst}
    {tree : Node} (hshaped : Shaped .block root) (h : root.convertModule source = .ok tree) :
    tree.total w = root.total w := by
  obtain ⟨ns, hns, h⟩ := bind_eq_ok.1 h
  cases h
  have hsum := sum_of_forall₂ (mapM_eq_ok.1 hns)
    (fun d hd n hn => total_of_convert (w := w) (hshaped.block_part hd) hn)
  have hwhole := whole_of_list w hshaped hshaped.here.fits
  rw [whole, weight_eq_zero w hshaped.here.fits, zero_add] at hwhole
  rw [hwhole, hsum, Node.total_eq]
  simp [Node.weight, Node.children]

end Cst

/-! ## Positions -/

/-- Where the nodes of a kind stand. -/
def Node.positionsOf (tree : Node) (k : Kind) : List Position :=
  (tree.nodes.filter (fun n => n.kind = k)).map Node.position

/-- Where the named nodes of a form stand inside a node. -/
def Cst.positionsOf (root : Cst) (form : Cst.Form) : List Position :=
  (root.edges.filter (fun e => e.2.label.named && e.2.form = form)).map (fun e => e.2.position)

/-- The assignments inside a node that have a right-hand side, each with its parent. -/
def Cst.bindings (root : Cst) : List (Cst × Cst) :=
  root.edges.filter (fun e =>
    e.2.label.named && e.2.form = .assignment && (e.2.field? "right").isSome)

theorem sum_map_ite {α : Type} (l : List α) (p : α → Bool) (g : α → M) :
    (l.map (fun a => if p a then g a else 0)).sum = ((l.filter p).map g).sum := by
  rw [sum_map_filter (p := p) (fun a _ ha => by simp [ha])]
  congr 1
  exact List.map_congr_left (fun a ha => if_pos (List.mem_filter.1 ha).2)

theorem sum_map_positions {α : Type} (l : List α) (p : α → Bool) (g : α → Position) :
    (l.map (fun a => if p a then ({g a} : Multiset Position) else 0)).sum =
      ((l.filter p).map g : List Position) := by
  rw [sum_map_ite]
  induction l.filter p with
  | nil => rfl
  | cons a l ih => rw [List.map_cons, List.sum_cons, ih]; rfl

/-- Weights that single out one kind turn equal totals into equal collections of positions. -/
theorem perm_of_total {tree : Node} {root : Cst} {w : Weights (Multiset Position)} {k : Kind}
    {p : Cst × Cst → Bool} (h : tree.total w = root.total w)
    (htree : ∀ n : Node, n.weight w = if n.kind = k then {n.position} else 0)
    (hroot : ∀ e : Cst × Cst, e.2.weight w (e.1.continues e.2) =
      if p e then {e.2.position} else 0) :
    (tree.positionsOf k).Perm ((root.edges.filter p).map (fun e => e.2.position)) := by
  have htotal : tree.total w = tree.positionsOf k := by
    rw [Node.positionsOf, ← sum_map_positions, Node.total, funext htree]
    simp only [decide_eq_true_eq]
  have hroot' : root.total w = ((root.edges.filter p).map (fun e => e.2.position) : List _) := by
    rw [← sum_map_positions, Cst.total, funext hroot]
  rw [← Multiset.coe_eq_coe, ← htotal, ← hroot', h]

theorem Node.total_targets (tree : Node) :
    tree.total (⟨0, 0, 0, 0, 1⟩ : Weights Nat) =
      ((tree.nodes.filter (fun n => n.kind = .assign)).map (fun n => n.targets.length)).sum := by
  have hother : ∀ n ∈ tree.nodes, decide (n.kind = .assign) = false →
      n.weight (⟨0, 0, 0, 0, 1⟩ : Weights Nat) = 0 := by
    intro n _ hn
    cases n with
    | assign => simp [Node.kind] at hn
    | _ => rfl
  rw [Node.total, sum_map_filter hother]
  congr 1
  apply List.map_congr_left
  intro n hn
  have hkind : n.kind = .assign := by simpa using (List.mem_filter.1 hn).2
  cases n with
  | assign => simp [Node.weight, Node.targets]
  | _ => cases hkind

theorem Cst.total_bindings (root : Cst) :
    root.total (⟨0, 0, 0, 0, 1⟩ : Weights Nat) = root.bindings.length := by
  have hweight : ∀ (e : Cst × Cst), e.2.weight (⟨0, 0, 0, 0, 1⟩ : Weights Nat)
      (e.1.continues e.2) = if e.2.label.named && e.2.form = .assignment &&
        (e.2.field? "right").isSome then 1 else 0 := by
    rintro ⟨c, d⟩
    cases hform : d.form <;> simp [Cst.weight, hform, ite_and]
  rw [Cst.total, funext hweight, sum_map_ite]
  simp [Cst.bindings]

/-- A tree has a call, a subscript and an augmented assignment wherever the concrete syntax has
one, an assignment for each chain of assignments, and a target for each link of a chain; and it
has no others. -/
theorem convertModule_coverage {source : Array (Option Char)} {root : Cst} {tree : Node}
    (hshaped : Cst.Shaped .block root) (h : root.convertModule source = .ok tree) :
    (tree.positionsOf .call).Perm (root.positionsOf .call) ∧
    (tree.positionsOf .subscript).Perm (root.positionsOf .subscript) ∧
    (tree.positionsOf .augassign).Perm (root.positionsOf .augmented) ∧
    (tree.positionsOf .assign).Perm
      ((root.bindings.filter (fun e => !e.1.continues e.2)).map (fun e => e.2.position)) ∧
    ((tree.nodes.filter (fun n => n.kind = .assign)).map (fun n => n.targets.length)).sum =
      root.bindings.length := by
  refine ⟨?_, ?_, ?_, ?_, ?_⟩
  · refine perm_of_total (Cst.total_of_convertModule ⟨fun p => {p}, 0, 0, 0, 0⟩ hshaped h) ?_ ?_
    · intro n
      cases n <;> simp [Node.weight, Node.kind, Node.position]
    · rintro ⟨c, d⟩
      cases hform : d.form <;> simp [Cst.weight, hform]
  · refine perm_of_total (Cst.total_of_convertModule ⟨0, fun p => {p}, 0, 0, 0⟩ hshaped h) ?_ ?_
    · intro n
      cases n <;> simp [Node.weight, Node.kind, Node.position]
    · rintro ⟨c, d⟩
      cases hform : d.form <;> simp [Cst.weight, hform]
  · refine perm_of_total (Cst.total_of_convertModule ⟨0, 0, fun p => {p}, 0, 0⟩ hshaped h) ?_ ?_
    · intro n
      cases n <;> simp [Node.weight, Node.kind, Node.position]
    · rintro ⟨c, d⟩
      cases hform : d.form <;> simp [Cst.weight, hform]
  · rw [Cst.bindings, List.filter_filter]
    refine perm_of_total (Cst.total_of_convertModule ⟨0, 0, 0, fun p => {p}, 0⟩ hshaped h) ?_ ?_
    · intro n
      cases n <;> simp [Node.weight, Node.kind, Node.position]
    · rintro ⟨c, d⟩
      cases hform : d.form with
      | assignment => cases c.continues d <;> simp [Cst.weight, hform, ite_and]
      | _ => simp [Cst.weight, hform]
  · rw [← Node.total_targets, ← Cst.total_bindings, Cst.total_of_convertModule _ hshaped h]

/-- `x = y = f(a, k=b[i])  # done`: a chain, a call with a keyword, and a subscript in it. -/
theorem convertModule_coverage_chain :
    let token (text : String) : Cst := .node { type := text, named := false } []
    let word (field : Option String) : Cst := .node { type := "identifier", field := field } []
    let subscript : Cst := .node { type := "subscript", field := some "value", column := 15 }
      [word (some "value"), token "[", word (some "subscript"), token "]"]
    let keyword : Cst := .node { type := "keyword_argument" }
      [word (some "name"), token "=", subscript]
    let call : Cst := .node { type := "call", field := some "right", column := 8 }
      [word (some "function"), .node { type := "argument_list", field := some "arguments" }
        [token "(", word none, token ",", keyword, token ")"]]
    let inner : Cst := .node { type := "assignment", field := some "right", column := 4 }
      [word (some "left"), token "=", call]
    let root : Cst := .node { type := "module" }
      [.node { type := "expression_statement" }
        [.node { type := "assignment" } [word (some "left"), token "=", inner]],
        .node { type := "comment" } []]
    Cst.Shaped .block root ∧ ∃ tree, root.convertModule #[] = .ok tree ∧
      (tree.positionsOf .call).Perm [.at 1 8] ∧ (tree.positionsOf .subscript).Perm [.at 1 15] ∧
      (tree.positionsOf .assign).Perm [.at 1 0] ∧
      ((tree.nodes.filter (fun n => n.kind = .assign)).map (fun n => n.targets.length)).sum =
        2 := by
  intro token word subscript keyword call inner root
  have hshaped : Cst.Shaped .block root := by
    simp [root, inner, call, keyword, subscript, word, token, Cst.shaped_node, Cst.fits_iff,
      Cst.hasFields_iff, Cst.isPart, Cst.isFlaggable, Cst.TermFits, Cst.ArgumentFits, Cst.roleIn,
      Cst.roleInTerm, Cst.label, Cst.type, Cst.children, Cst.parts, Cst.form, Cst.Form.ofType,
      Cst.forms, List.lookup_cons, Cst.Form.fields, Cst.Form.roleOf, Cst.Form.words, Cst.Form.blocks]
  have hsides : root.positionsOf .call = [.at 1 8] ∧ root.positionsOf .subscript = [.at 1 15] ∧
      (root.bindings.filter (fun e => !e.1.continues e.2)).map (fun e => e.2.position) = [.at 1 0] ∧
      root.bindings.length = 2 := by
    simp only [root, inner, call, keyword, subscript, word, token]
    decide +kernel
  obtain ⟨tree, htree⟩ : ∃ tree, root.convertModule #[] = .ok tree := ⟨_, rfl⟩
  obtain ⟨hcall, hsubscript, -, hassign, htargets⟩ := convertModule_coverage hshaped htree
  rw [hsides.1] at hcall
  rw [hsides.2.1] at hsubscript
  rw [hsides.2.2.1] at hassign
  rw [hsides.2.2.2] at htargets
  exact ⟨hshaped, tree, htree, hcall, hsubscript, hassign, htargets⟩

end ChainLint
