import ChainLint.Proofs.Cst.Accepted
import ChainLint.Proofs.Cst.Span
import ChainLint.Proofs.Engine.Reference

/-!
# ChainLint.Proofs.Cst.SourceOrder

Trees are visited in the order of their source text, and so is what rules find in them.

* `InGrammarOrder`: a node has what is read of it by fields in the order of the grammar.
* `ArgumentsApart`: an argument of a call does not start where a keyword in front of it starts.
* `along_converts`: one node, given that what is built below it is visited in order. A chain of
  assignments and the arguments of a call are taken apart by the conversion, and put together again
  by the visit.
* `along_convert`, `along_convertModule`: whole trees.
* `readSource_ordered`: the visit of a tree that was read, and the findings in it, go from the first
  line to the last.
-/

namespace ChainLint
namespace Cst

/-- The fields that a node is read by, in the order of the grammar, apart from those that hold a
word only. -/
def readFields (c : Cst) : List String :=
  if c.type = "keyword_argument" then ["value"]
  else c.form.fields.filter (fun f => !c.form.words.contains f)

/-- What is read of a node stands in the order of the grammar among its children, and is no token or
comment. An assignment with an annotation does not go on with a chain. -/
@[mk_iff]
structure InGrammarOrder (c : Cst) : Prop where
  order : (c.readFields.filterMap (fun f =>
    c.children.findFinIdx? (fun d => d.label.field == some f))).Pairwise (· < ·)
  parts : ∀ f ∈ c.readFields, ∀ d ∈ (c.field? f).toList, d.isPart = true
  hinted : c.form = .assignment → (c.field? "type").isSome = true →
    ∀ d ∈ (c.field? "right").toList, d.form ≠ .assignment

instance : DecidablePred InGrammarOrder := fun c => decidable_of_iff _ (inGrammarOrder_iff c).symm

/-- A positional argument of a call does not start where a keyword in front of it starts. A visit
takes arguments by their positions, and of two at the same one the positional argument first. -/
def ArgumentsApart (c : Cst) : Prop :=
  c.form = .call → ∀ list ∈ (c.field? "arguments").toList, list.type = "argument_list" →
    list.parts.Pairwise (fun d e =>
      d.isKeywordArgument = true → e.isKeywordArgument = false → d.position ≠ e.position)
  deriving Decidable

theorem readFields_of_form {c : Cst} {form : Form} {fields : List String} (hform : c.form = form)
    (hother : form ≠ .other) (h : form.fields.filter (fun f => !form.words.contains f) = fields) :
    c.readFields = fields := by
  have htype : c.type ≠ "keyword_argument" := by
    intro htype
    rw [Cst.form, htype] at hform
    exact hother (hform.symm.trans rfl)
  rw [readFields, if_neg htype, hform, h]

/-- What stands in the fields that are read, in the order of the grammar. -/
theorem InGrammarOrder.fields_sublist {c : Cst} (h : InGrammarOrder c) :
    (c.readFields.filterMap c.field?).Sublist c.children := by
  have hget : c.readFields.filterMap c.field? = (c.readFields.filterMap (fun f =>
      c.children.findFinIdx? (fun d => d.label.field == some f))).map (fun i => c.children[i]) := by
    rw [List.map_filterMap]
    congr 1
    funext f
    exact List.find?_eq_map_findFinIdx?_getElem
  rw [hget]
  exact List.map_getElem_sublist h.order

theorem InGrammarOrder.spans_sublist {c : Cst} (h : InGrammarOrder c) {fields : List String}
    (hread : c.readFields = fields) :
    (fields.flatMap (fun f => (c.field? f).toList.flatMap span)).Sublist c.marks := by
  have hparts : ∀ d ∈ c.readFields.filterMap c.field?, d.isPart = true := by
    intro d hd
    obtain ⟨f, hf, hd⟩ := List.mem_filterMap.1 hd
    exact h.parts f hf d (Option.mem_toList.2 hd)
  have hspans := spans_sublist_marks h.fields_sublist hparts
  rwa [List.filterMap_eq_flatMap_toList, List.flatMap_assoc, hread] at hspans

theorem InGrammarOrder.isPart {c d : Cst} (h : InGrammarOrder c) {f : String}
    (hf : f ∈ c.readFields) (hd : c.field? f = some d) : d.isPart = true :=
  h.parts f hf d (by simp [hd])

/-- What is built of the parts inside a node goes along them. -/
def AlongBelow (below : Cst → Except Malformed Node) (c : Cst) : Prop :=
  ∀ d n, Inside d c → d.isPart = true → below d = .ok n → Along d.span [n]

theorem AlongBelow.inside {below : Cst → Except Malformed Node} {c d : Cst}
    (h : AlongBelow below c) (hd : Inside d c) : AlongBelow below d :=
  fun e n he => h e n (he.trans hd)

section step

variable {source : Array (Option Char)} {below : Cst → Except Malformed Node} {c : Cst}

/-! ## Fields and parts -/

theorem along_parts (hbelow : AlongBelow below c) {ns : List Node}
    (hns : ConvertsAll below c.parts ns) : Along c.marks ns := by
  refine (Along.of_forall₂ hns ?_).mono c.parts_sublist_marks
  intro d hd n hn
  exact hbelow d n (.of_part hd) (isPart_of_mem_parts hd) hn

theorem along_field (hgrammar : InGrammarOrder c) (hbelow : AlongBelow below c) {f : String}
    (hf : f ∈ c.readFields) {ns : List Node}
    (hns : ConvertsAll below (c.field? f).toList ns) :
    Along ((c.field? f).toList.flatMap span) ns := by
  refine Along.of_forall₂ hns ?_
  intro d hd n hn
  exact hbelow d n (.of_mem_field hd) (hgrammar.parts f hf d hd) hn

theorem along_block (hbelow : AlongBelow below c) {f : String} {ns : List Node}
    (hns : ConvertsAll below ((c.field? f).toList.flatMap parts) ns) :
    Along ((c.field? f).toList.flatMap span) ns := by
  cases hd : c.field? f with
  | none =>
    rw [hd] at hns
    cases hns
    exact .nil
  | some d =>
    rw [hd, Option.toList_some, List.flatMap_singleton] at hns
    rw [Option.toList_some, List.flatMap_singleton]
    exact (along_parts (hbelow.inside (.of_field hd)) hns).mono (List.sublist_cons_self _ _)

theorem along_one (hgrammar : InGrammarOrder c) (hbelow : AlongBelow below c) {f : String}
    (hf : f ∈ c.readFields) {d : Cst} {n : Node} (hd : c.field? f = some d)
    (hn : below d = .ok n) : Along ((c.field? f).toList.flatMap span) [n] := by
  refine along_field hgrammar hbelow hf ?_
  rw [hd]
  exact .cons hn .nil

/-- The operand of a node that is read by one field. -/
theorem along_operand (hgrammar : InGrammarOrder c) (hbelow : AlongBelow below c) {f : String}
    (hread : c.readFields = [f]) {d : Cst} {n : Node} (hd : c.field? f = some d)
    (hn : below d = .ok n) : Along c.marks [n] := by
  have hspans := hgrammar.spans_sublist hread
  exact ((along_one hgrammar hbelow (by simp [hread]) hd hn).append .nil).mono hspans

/-- The operands of a node that is read by two fields. -/
theorem along_operands (hgrammar : InGrammarOrder c) (hbelow : AlongBelow below c) {f g : String}
    (hread : c.readFields = [f, g]) {d e : Cst} {n m : Node} (hd : c.field? f = some d)
    (he : c.field? g = some e) (hn : below d = .ok n) (hm : below e = .ok m) :
    Along c.marks [n, m] := by
  have hspans := hgrammar.spans_sublist hread
  have hfirst := along_one hgrammar hbelow (by simp [hread]) hd hn
  have hsecond := along_one hgrammar hbelow (by simp [hread]) he hm
  exact (hfirst.append (hsecond.append .nil)).mono hspans

/-! ## Chains of assignments -/

theorem along_chain (hgrammar : c.Every InGrammarOrder) (hbelow : AlongBelow below c)
    {right value : Cst} {targets : List Node} (h : Chain below right targets value)
    (hright : Inside right c) (hpart : right.isPart = true) {v : Node}
    (hv : below value = .ok v) : Along right.span (targets ++ [v]) := by
  induction h with
  | stop => exact hbelow _ _ hright hpart hv
  | @link right left next value target targets hform htype hleft hnext htarget _ ih =>
    have hhere := hgrammar.2 right hright
    have hread : right.readFields = ["left", "type", "right"] :=
      readFields_of_form hform (by simp) rfl
    have hspans := hhere.spans_sublist hread
    simp only [List.flatMap_cons, List.flatMap_nil, hleft, htype, hnext, Option.toList_some,
      Option.toList_none, List.append_nil, List.nil_append] at hspans
    have htarget := hbelow left target (Inside.trans (.of_field hleft) hright)
      (hhere.isPart (by simp [hread]) hleft) htarget
    have hrest := ih (Inside.trans (.of_field hnext) hright)
      (hhere.isPart (by simp [hread]) hnext) hv
    exact ((htarget.append hrest).mono hspans).mono (List.sublist_cons_self _ _)

/-- The targets of a chain come before its value, and an annotation between them. -/
theorem along_assign (hgrammar : c.Every InGrammarOrder) (hbelow : AlongBelow below c)
    {left right value : Cst} {target v : Node} {targets : List Node} {hint : Option Node}
    (hform : c.form = .assignment) (hleft : c.field? "left" = some left)
    (hright : c.field? "right" = some right) (htarget : below left = .ok target)
    (hchain : Chain below right targets value)
    (hhint : ConvertsAll below (c.field? "type").toList hint.toList)
    (hv : below value = .ok v) : Along c.marks (target :: targets ++ hint.toList ++ [v]) := by
  have hread : c.readFields = ["left", "type", "right"] := readFields_of_form hform (by simp) rfl
  have hspans := hgrammar.1.spans_sublist hread
  simp only [List.flatMap_cons, List.flatMap_nil, hleft, hright, Option.toList_some,
    List.append_nil] at hspans
  have htarget' := hbelow left target (.of_field hleft)
    (hgrammar.1.isPart (by simp [hread]) hleft) htarget
  have hpart : right.isPart = true := hgrammar.1.isPart (by simp [hread]) hright
  have hrest := along_chain hgrammar hbelow hchain (.of_field hright) hpart hv
  cases htype : c.field? "type" with
  | none =>
    rw [htype] at hspans hhint
    rw [List.forall₂_nil_left_iff.1 hhint, List.append_nil]
    exact (htarget'.append hrest).mono hspans
  | some t =>
    have hhint' := along_field hgrammar.1 hbelow (by simp [hread]) hhint
    -- The annotation stands before the right-hand side, and would come after targets in it.
    cases hchain with
    | stop =>
      rw [← List.append_assoc] at hspans
      exact ((htarget'.append hhint').append hrest).mono hspans
    | link hassign =>
      exact (hgrammar.1.hinted hform (by simp [htype]) right (by simp [hright]) hassign).elim

/-! ## Arguments of calls -/

theorem along_argument {d : Cst} {n : Node} (hd : Inside d c) (hpart : d.isPart = true)
    (hgrammar : c.Every InGrammarOrder) (hbelow : AlongBelow below c)
    (h : Argument source below d n) : Along d.span [n] := by
  cases h with
  | @keyword name value m htype _ hvalue hm =>
    have hhere := hgrammar.2 d hd
    have hread : d.readFields = ["value"] := by simp [readFields, htype]
    have hspans := hhere.spans_sublist hread
    simp only [List.flatMap_cons, List.flatMap_nil, hvalue, Option.toList_some,
      List.append_nil] at hspans
    have hm := hbelow value m (Inside.trans (.of_field hvalue) hd)
      (hhere.isPart (by simp [hread]) hvalue) hm
    exact Along.node (n := .keyword d.position _ m) rfl (hm.mono hspans)
  | @splat value rest m _ hparts hm =>
    have hmem : value ∈ d.parts := by simp [hparts]
    have hm := hbelow value m (Inside.trans (.of_part hmem) hd) (isPart_of_mem_parts hmem) hm
    exact Along.node (n := .keyword d.position none m) rfl
      (hm.mono ((Inside.of_part hmem).span_sublist (isPart_of_mem_parts hmem)))
  | plain _ hn => exact hbelow d n hd hpart hn

theorem position_of_keyword {d : Cst} {n : Node} (h : Argument source below d n)
    (hd : d.isKeywordArgument = true) : n.position = d.position := by
  cases h with
  | keyword => rfl
  | splat => rfl
  | plain hplain => simp [hd] at hplain

theorem le_of_mem_span {c : Cst} (h : InOrder c.span) {p : Position} (hp : p ∈ c.span) :
    c.position.le p = true := by
  rcases List.mem_cons.1 hp with rfl | hp
  · exact Position.le_refl _
  · exact List.rel_of_pairwise_cons h hp

/-- The visit puts the arguments of a call back into the order in which they were written. -/
theorem byPosition_arguments {list : Cst} {nodes : List Node}
    (hnodes : List.Forall₂ (Argument source below) list.parts nodes)
    (halong : ∀ d ∈ list.parts, ∀ n, Argument source below d n → Along d.span [n])
    (hspan : InOrder list.marks)
    (hapart : list.parts.Pairwise (fun d e =>
      d.isKeywordArgument = true → e.isKeywordArgument = false → d.position ≠ e.position)) :
    Node.byPosition
      (((list.parts.zip nodes).filter (fun x => !x.1.isKeywordArgument)).map Prod.snd ++
        ((list.parts.zip nodes).filter (fun x => x.1.isKeywordArgument)).map Prod.snd) =
      nodes := by
  have hlength := hnodes.length_eq
  have hfst : (list.parts.zip nodes).map Prod.fst = list.parts := List.map_fst_zip hlength.le
  obtain ⟨hinner, hspans⟩ := List.pairwise_flatMap.1 (hspan.sublist list.parts_sublist_marks)
  have hzip := hspans.and hapart
  rw [← hfst, List.pairwise_map] at hzip
  rw [← List.map_append, Node.byPosition, sortBy_map, sortBy_partition, List.map_snd_zip hlength.ge]
  refine hzip.imp_of_mem ?_
  rintro ⟨d, n⟩ ⟨e, m⟩ hd he ⟨hle, hne⟩
  have hn := (List.forall₂_iff_zip.1 hnodes).2 hd
  have hm := (List.forall₂_iff_zip.1 hnodes).2 he
  have hnd := (halong d (List.of_mem_zip hd).1 n hn).position_mem
  have hme := (halong e (List.of_mem_zip he).1 m hm).position_mem
  refine ⟨hle _ hnd _ hme, ?_⟩
  -- A keyword starts before what comes after it, and so before whatever is left of that when its
  -- parentheses are gone.
  intro hkeyword hplain
  by_contra hback
  rw [Bool.not_eq_false, position_of_keyword hn hkeyword] at hback
  refine hne hkeyword hplain (Position.le_antisymm ?_ ?_)
  · exact hle _ List.mem_cons_self _ List.mem_cons_self
  · exact Position.le_trans (le_of_mem_span (hinner e (List.of_mem_zip he).1) hme) hback

theorem along_call (hgrammar : c.Every InGrammarOrder) (hapart : ArgumentsApart c)
    (hspan : InOrder c.span) (hbelow : AlongBelow below c)
    {function arguments : Cst} {func : Node} {nodes : List Node} (hform : c.form = .call)
    (hfunction : c.field? "function" = some function)
    (harguments : c.field? "arguments" = some arguments) (hfunc : below function = .ok func)
    (htype : arguments.type = "argument_list")
    (hnodes : List.Forall₂ (Argument source below) arguments.parts nodes) :
    Along c.marks (func :: Node.byPosition
      (((arguments.parts.zip nodes).filter (fun x => !x.1.isKeywordArgument)).map Prod.snd ++
        ((arguments.parts.zip nodes).filter (fun x => x.1.isKeywordArgument)).map Prod.snd)) := by
  have hread : c.readFields = ["function", "arguments"] := readFields_of_form hform (by simp) rfl
  have hin : Inside arguments c := .of_field harguments
  have halong : ∀ d ∈ arguments.parts, ∀ n, Argument source below d n → Along d.span [n] :=
    fun d hd n hn => along_argument (Inside.trans (.of_part hd) hin) (isPart_of_mem_parts hd)
      hgrammar hbelow hn
  have hmarks : InOrder arguments.marks :=
    hspan.sublist (hin.marks_sublist.trans (List.sublist_cons_self _ _))
  rw [byPosition_arguments hnodes halong hmarks
    (hapart hform arguments (by simp [harguments]) htype)]
  have hnodes' : Along ((c.field? "arguments").toList.flatMap span) nodes := by
    rw [harguments, Option.toList_some, List.flatMap_singleton]
    exact (Along.of_forall₂ hnodes halong).mono
      (arguments.parts_sublist_marks.trans (List.sublist_cons_self _ _))
  have hfunc' := along_one hgrammar.1 hbelow (by simp [hread]) hfunction hfunc
  have hspans := hgrammar.1.spans_sublist hread
  rw [List.flatMap_cons, List.flatMap_singleton] at hspans
  exact (hfunc'.append hnodes').mono hspans

/-! ## One node -/

/-- However a node is converted, the tree goes along the positions of the node and of the parts
inside it, if the trees below it do so. -/
theorem along_converts {n : Node} (hgrammar : c.Every InGrammarOrder)
    (hapart : ArgumentsApart c) (hspan : InOrder c.span) (hbelow : AlongBelow below c)
    (h : Converts source below c n) : Along c.span [n] := by
  have hhere := hgrammar.1
  have hbody : ∀ {body ns}, c.field? "body" = some body → ConvertsAll below body.parts ns →
      Along ((c.field? "body").toList.flatMap span) ns := by
    intro body ns hd hns
    refine along_block hbelow ?_
    rw [hd]
    simpa using hns
  cases h with
  | unwrap _ hparts hn =>
    have hmem := hparts ▸ List.mem_cons_self
    have hpart := isPart_of_mem_parts hmem
    have hspan := (Inside.of_part hmem).span_sublist hpart
    exact (hbelow _ _ (.of_part hmem) hpart hn).mono (hspan.trans (List.sublist_cons_self _ _))
  | other _ hparts => exact .node (n := .other _ _ _) rfl (along_parts hbelow hparts)
  | declared hform hleft hright htarget hhint =>
    have hread : c.readFields = ["left", "type", "right"] :=
      readFields_of_form hform (by simp) rfl
    have hspans := hhere.spans_sublist hread
    rw [List.flatMap_cons, List.flatMap_cons, ← List.append_assoc] at hspans
    have htarget' := along_one hhere hbelow (by simp [hread]) hleft htarget
    have hhint' := along_field hhere hbelow (by simp [hread]) hhint
    exact .node (n := .other _ _ _) rfl
      ((htarget'.append hhint').mono ((List.sublist_append_left _ _).trans hspans))
  | assign hform hleft hright htarget hchain hhint hv =>
    exact .node (n := .assign _ _ _ _) rfl
      (along_assign hgrammar hbelow hform hleft hright htarget hchain hhint hv)
  | augassign hform hleft _ hright hl hr =>
    exact .node (n := .augassign _ _ _ _) rfl (along_operands hhere hbelow
      (readFields_of_form hform (by simp) rfl) hleft hright hl hr)
  | function hform _ hd hparameters hresult hstatements =>
    have hread : c.readFields = ["parameters", "return_type", "body"] :=
      readFields_of_form hform (by simp) rfl
    have hspans := hhere.spans_sublist hread
    rw [List.flatMap_cons, List.flatMap_cons, List.flatMap_singleton, ← List.append_assoc] at hspans
    have hresult' := along_field hhere hbelow (by simp [hread]) hresult
    exact .node (n := .function _ _ _ _) rfl
      ((((along_block hbelow hparameters).append hresult').append (hbody hd hstatements)).mono
        hspans)
  | classDef hform _ hd hbases hstatements =>
    have hread : c.readFields = ["superclasses", "body"] := readFields_of_form hform (by simp) rfl
    have hspans := hhere.spans_sublist hread
    rw [List.flatMap_cons, List.flatMap_singleton] at hspans
    exact .node (n := .classDef _ _ _ _) rfl
      (((along_block hbelow hbases).append (hbody hd hstatements)).mono hspans)
  | call hform hfunction harguments hfunc htype hnodes =>
    exact .node (n := .call _ _ _ _) rfl (along_call hgrammar hapart hspan hbelow hform hfunction
      harguments hfunc htype hnodes)
  | bareCall hform hfunction harguments hfunc _ hargument =>
    exact .node (n := .call _ _ [_] []) rfl (along_operands hhere hbelow
      (readFields_of_form hform (by simp) rfl) hfunction harguments hfunc hargument)
  | attr hform hobject _ ho =>
    exact .node (n := .attr _ _ _) rfl (along_operand hhere hbelow
      (readFields_of_form hform (by simp) rfl) hobject ho)
  | subscript _ hparts hv his =>
    exact .node (n := .subscript _ _ _) rfl (along_parts hbelow (hparts ▸ .cons hv his))
  | name => exact .node (n := .name _ _) rfl .nil
  | compare _ hparts hl hrs =>
    exact .node (n := .compare _ _ _ _) rfl (along_parts hbelow (hparts ▸ .cons hl hrs))
  | binop hform hleft _ hright hl hr =>
    exact .node (n := .binop _ _ _ _) rfl (along_operands hhere hbelow
      (readFields_of_form hform (by simp) rfl) hleft hright hl hr)
  | boolop hform hleft _ hright hl hr =>
    exact .node (n := .boolop _ _ _) rfl (along_operands hhere hbelow
      (readFields_of_form hform (by simp) rfl) hleft hright hl hr)
  | unaryop hform _ hargument ha =>
    exact .node (n := .unaryop _ _ _) rfl (along_operand hhere hbelow
      (readFields_of_form hform (by simp) rfl) hargument ha)
  | negation hform hargument ha =>
    exact .node (n := .unaryop _ _ _) rfl (along_operand hhere hbelow
      (readFields_of_form hform (by simp) rfl) hargument ha)
  | lambda hform hd hparameters hb =>
    have hread : c.readFields = ["parameters", "body"] := readFields_of_form hform (by simp) rfl
    have hspans := hhere.spans_sublist hread
    rw [List.flatMap_cons, List.flatMap_singleton] at hspans
    have hb' := along_one hhere hbelow (by simp [hread]) hd hb
    exact .node (n := .lambda _ _ _) rfl (((along_block hbelow hparameters).append hb').mono hspans)
  | constant => exact .node (n := .constant _ _ _) rfl .nil

end step

/-! ## Whole trees -/

theorem along_convert {source : Array (Option Char)} {c : Cst} {n : Node}
    (hgrammar : c.Every InGrammarOrder) (hapart : c.Every ArgumentsApart) (hspan : InOrder c.span)
    (h : convert source c = .ok n) : Along c.span [n] := by
  induction c using inductionOn generalizing n with
  | step c ih =>
    rw [convert_eq] at h
    refine along_converts hgrammar hapart.1 hspan ?_ (converts_of_ok h)
    intro d m hd hpart hm
    have hspan' := (hd.span_sublist hpart).trans (List.sublist_cons_self c.position c.marks)
    exact ih d hd (hgrammar.inside hd) (hapart.inside hd) (hspan.sublist hspan') hm

theorem along_convertModule {source : Array (Option Char)} {root : Cst} {tree : Node}
    (hgrammar : root.Every InGrammarOrder) (hapart : root.Every ArgumentsApart)
    (hspan : InOrder root.span) (h : root.convertModule source = .ok tree) :
    Along root.span [tree] := by
  obtain ⟨ns, hns, h⟩ := bind_eq_ok.1 h
  cases h
  refine .node (n := .module _ _) rfl (along_parts ?_ (mapM_eq_ok.1 hns))
  intro d n hd hpart hn
  have hspan' := (hd.span_sublist hpart).trans (List.sublist_cons_self root.position root.marks)
  exact along_convert (hgrammar.inside hd) (hapart.inside hd) (hspan.sublist hspan') hn

end Cst

/-! ## Visits and findings -/

theorem Node.trailBelow_entries {parent : Node} {place : Place} {cs : List Node} {k : Nat}
    (h : ∀ c ∈ cs, ∀ parent place, ((c.trail parent place).filter
      (fun s => s.phase = .enter)).map (fun s => s.node) = c.nodes) :
    ((trailBelow parent place k cs).filter (fun s => s.phase = .enter)).map (fun s => s.node) =
      cs.flatMap nodes := by
  induction cs generalizing k with
  | nil => rfl
  | cons c cs ih =>
    rw [trailBelow_cons, List.filter_append, List.map_append, h c (by simp),
      ih (fun d hd => h d (by simp [hd])), List.flatMap_cons]

theorem Node.trail_entries (n : Node) (parent : Option Node) (place : Place) :
    ((n.trail parent place).filter (fun s => s.phase = .enter)).map (fun s => s.node) =
      n.nodes := by
  induction n using Node.inductionOn generalizing parent place with
  | step n ih =>
    rw [trail_eq, nodes_eq, List.filter_append, List.filter_cons_of_pos (by simp),
      List.map_append, List.map_cons, trailBelow_entries ih]
    simp

theorem Node.entries_position (n : Node) : n.entries.map (fun s => s.node.position) = n.marks := by
  rw [marks, ← n.trail_entries none [], List.map_map]
  rfl

def Finding.position (f : Finding) : Position := .at f.line f.column

theorem position_of_mem_fire {ordered : List Rule} {n : Node} {b : Bindings} {f : Finding}
    (hn : Accepted n) (h : f ∈ fire ordered n b) : f.position = n.position := by
  rw [fire, fireFrom_eq] at h
  obtain ⟨r, -, rfl⟩ := List.mem_map.1 h
  exact findingAt_position (accept_eq_ok.1 hn).1 r

/-- The findings in a tree are in order when its nodes are. -/
theorem inOrder_check {rules : List Rule} {tree : Node} {found : List Finding}
    (horder : InOrder tree.marks) (h : check rules tree = .ok found) :
    InOrder (found.map Finding.position) := by
  have haccepted := Node.every_iff_stops.1 (accepted_of_check h)
  have hposition : ∀ s ∈ tree.entries, ∀ f ∈ fire (firingOrder rules) s.node
      (tree.contextAt s.place), f.position = s.node.position :=
    fun s hs f hf => position_of_mem_fire (haccepted s (List.mem_of_mem_filter hs)) hf
  rw [← tree.entries_position, InOrder, List.pairwise_map] at horder
  rw [check_eq_entries h, InOrder, List.pairwise_map, List.pairwise_flatMap]
  constructor
  · intro s hs
    refine List.pairwise_of_forall_mem_list ?_
    intro f hf g hg
    rw [hposition s hs f hf, hposition s hs g hg]
    exact Position.le_refl _
  · refine horder.imp_of_mem ?_
    intro s t hs ht hle f hf g hg
    rw [hposition s hs f hf, hposition t ht g hg]
    exact hle

theorem walk_marks {tree : Node} (h : tree.Every (fun n => n.isKnown = true)) :
    ∃ events, walk none tree = .ok events ∧
      (events.filter (fun e => e.phase = .enter)).map (fun e => e.node.position) = tree.marks := by
  refine ⟨_, Node.walk_eq_trail h none [], ?_⟩
  rw [← tree.entries_position, List.filter_map, List.map_map]
  rfl

/-- A text whose concrete syntax is in order gives a tree that is visited in order, and so are the
findings in it, whatever the rules. They are found wherever rows and columns are natural. -/
theorem readSource_ordered {parser : Parser} {source filePath : String} {root : Cst} {tree : Node}
    {lines : List String} (hparser : parser source = .parsed root)
    (hread : readSource parser source filePath = .ok (.tree tree lines))
    (hgrammar : root.Every Cst.InGrammarOrder) (hapart : root.Every Cst.ArgumentsApart)
    (hspan : InOrder root.span) :
    (∃ events, walk none tree = .ok events ∧ InOrder
      ((events.filter (fun e => e.phase = .enter)).map (fun e => e.node.position))) ∧
    (∀ rules found, check rules tree = .ok found → InOrder (found.map Finding.position)) ∧
    (root.Every Cst.Natural → ∀ rules, ∃ found, check rules tree = .ok found) := by
  obtain ⟨r, hr⟩ | ⟨message, hr⟩ | ⟨root', hroot, ⟨e, -, hr⟩ | ⟨tree', htree, hr⟩⟩ :=
    readSource_cases parser source filePath
  all_goals cases hr.symm.trans hread
  cases hroot.symm.trans hparser
  have halong := Cst.along_convertModule hgrammar hapart hspan htree
  have horder : InOrder tree.marks := by
    have hmarks := halong.order
    rw [List.flatMap_singleton] at hmarks
    exact hspan.sublist hmarks
  obtain ⟨events, hwalk, hmarks⟩ := walk_marks (halong.known tree (by simp))
  exact ⟨⟨events, hwalk, hmarks ▸ horder⟩, fun rules found => inOrder_check horder,
    fun hnatural rules => check_isOk (Cst.convertModule_accepted hnatural htree)⟩

/-! ## Calls with one line for a text -/

namespace Sample

/-- The text that the words of all samples are taken from. -/
def text : String := "inplace=True"

def word (field : Option String) (column : Int) : Cst :=
  .node { type := "identifier", field := field, column := column, stop := 7 } []

def keyword (column : Int) (value : Cst) : Cst :=
  .node { type := "keyword_argument", column := column } [word (some "name") column, value]

def call (field : Option String) (column : Int) (arguments : List Cst) : Cst :=
  .node { type := "call", field := field, column := column } [word (some "function") column,
    .node { type := "argument_list", field := some "arguments", column := column } arguments]

/-- A call that is reported. -/
def inplace (field : Option String) (column : Int) : Cst :=
  call field column [keyword column
    (.node { type := "true", field := some "value", column := column, start := 8, stop := 12 } [])]

/-- A positional argument in parentheses behind a keyword. -/
def ordered : Cst := .node { type := "module" } [call none 0 [keyword 2 (inplace (some "value") 4),
  .node { type := "parenthesized_expression", column := 20 } [inplace none 21]]]

/-- A positional argument behind a keyword that starts at the same place. -/
def tied : Cst := .node { type := "module" } [call none 0 [keyword 5 (inplace (some "value") 5),
  .node { type := "list", column := 5 } [inplace none 9]]]

/-- A root that is no part of anything. -/
def bare : Cst := .node { type := "module", named := false, row := 5 } [word none 0]

end Sample

theorem readSource_ordered_arguments :
    Sample.ordered.Every Cst.InGrammarOrder ∧ Sample.ordered.Every Cst.ArgumentsApart ∧
      InOrder Sample.ordered.span ∧ Sample.ordered.Every Cst.Natural ∧ ∃ tree lines,
        readSource (fun _ => .parsed Sample.ordered) Sample.text "a.py" = .ok (.tree tree lines) ∧
        ∃ found, check catalog tree = .ok found ∧ InOrder (found.map Finding.position) := by
  have hgrammar : Sample.ordered.Every Cst.InGrammarOrder := by decide +kernel
  have hapart : Sample.ordered.Every Cst.ArgumentsApart := by decide +kernel
  have hspan : InOrder Sample.ordered.span := by decide +kernel
  have hnatural : Sample.ordered.Every Cst.Natural := by
    simp [Sample.ordered, Sample.call, Sample.keyword, Sample.inplace, Sample.word, Cst.Natural,
      Cst.label]
  obtain ⟨-, horder, htotal⟩ := @readSource_ordered (fun _ => .parsed Sample.ordered) Sample.text
    "a.py" _ _ _ rfl rfl hgrammar hapart hspan
  obtain ⟨found, hfound⟩ := htotal hnatural catalog
  exact ⟨hgrammar, hapart, hspan, hnatural, _, _, rfl, found, hfound, horder catalog found hfound⟩

/-- It is not enough that the parts of a text are in order. Of a keyword and a positional argument
that start at the same place, the visit takes the positional one first, and the position of the root
is that of the tree even if it is no part. -/
theorem readSource_unordered :
    (Sample.tied.Every Cst.InGrammarOrder ∧ InOrder (Sample.tied.mark ++ Sample.tied.marks) ∧
      ∃ tree lines found,
        readSource (fun _ => .parsed Sample.tied) Sample.text "a.py" = .ok (.tree tree lines) ∧
        check catalog tree = .ok found ∧ ¬ InOrder (found.map Finding.position)) ∧
    Sample.bare.Every Cst.InGrammarOrder ∧ InOrder (Sample.bare.mark ++ Sample.bare.marks) ∧
      ∃ tree lines events,
        readSource (fun _ => .parsed Sample.bare) Sample.text "a.py" = .ok (.tree tree lines) ∧
        walk none tree = .ok events ∧ ¬ InOrder
          ((events.filter (fun e => e.phase = .enter)).map (fun e => e.node.position)) := by
  refine ⟨⟨by decide +kernel, by decide +kernel, _, _,
    [findingAt inplaceTrue (.name (.at 1 9) ""), findingAt inplaceTrue (.name (.at 1 5) "")],
    rfl, by decide +kernel, by decide +kernel⟩, by decide +kernel, by decide +kernel, ?_⟩
  have hknown : (Node.module (.at 6 0) [.name (.at 1 0) "inplace"]).Every
      (fun n => n.isKnown = true) := by
    simp [Node.isKnown]
  obtain ⟨events, hwalk, hmarks⟩ := walk_marks hknown
  refine ⟨_, _, events, rfl, hwalk, ?_⟩
  rw [hmarks]
  decide +kernel

end ChainLint
