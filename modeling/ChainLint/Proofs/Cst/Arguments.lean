import ChainLint.Proofs.Cst.Converts
import ChainLint.Proofs.Tree.Nesting

/-!
# ChainLint.Proofs.Cst.Arguments

The arguments of a call, kept in two lists and visited in the order in which they are written.

* `isKeyword`: the nodes that keywords and double-starred arguments become. Nothing else does:
  `isKeyword_of_convert`.
* `convert_call`: a call is converted exactly when the called expression and the arguments are, and
  the two lists are picked from the converted arguments.
* `byPosition_split`: a list in strict order comes back from any split in two.
* `call_children_in_order`: the two together.
-/

namespace ChainLint

instance (p q : Position) : Decidable (p.Before q) := inferInstanceAs (Decidable (_ ∨ _))

theorem Position.Before.le {p q : Position} (h : p.Before q) : p.le q = true := by
  rw [Position.le_iff]
  rcases h with hline | ⟨hline, hcolumn⟩
  · exact .inl hline
  · exact .inr ⟨hline, hcolumn.le⟩

theorem Position.Before.le_eq_false {p q : Position} (h : p.Before q) : q.le p = false := by
  rw [Bool.eq_false_iff, ne_eq, Position.le_iff]
  rintro (hback | ⟨hsame, hback⟩)
  · rcases h with hline | ⟨hline, -⟩
    · exact lt_asymm hline hback
    · exact hback.ne' hline
  · rcases h with hline | ⟨-, hcolumn⟩
    · exact hline.ne' hsame
    · exact not_le.2 hcolumn hback

namespace Node

/-- The nodes that stand for `name=value` and `**value` among the arguments of a call. -/
def isKeyword : Node → Bool
  | .keyword .. => true
  | _ => false

/-- Nodes in strict order that were dealt out to two lists are put back by their positions, in
whatever way the two lists were mixed. -/
theorem byPosition_split {nodes : List Node} (p : Node → Bool)
    (h : nodes.Pairwise (fun a b => a.position.Before b.position)) :
    byPosition (nodes.filter (fun n => !p n) ++ nodes.filter p) = nodes := by
  rw [byPosition]
  apply sortBy_partition
  refine h.imp ?_
  intro a b hab
  exact ⟨hab.le, fun _ _ => hab.le_eq_false⟩

end Node

namespace Cst

variable {source : Array (Option Char)} {below : Cst → Except Malformed Node}

theorem convertArgument_eq_ok {d : Cst} {n : Node} :
    convertArgument source below d = .ok n ↔ Argument source below d n := by
  constructor
  · exact argument_of_ok
  · intro h
    cases h with
    | keyword htype hname hvalue hn =>
      rw [convertArgument, if_pos htype, require_eq_ok.2 hname, require_eq_ok.2 hvalue]
      simp only [bind, Except.bind, hn]
      rfl
    | splat htype hparts hn =>
      have hnot : d.type ≠ "keyword_argument" := by simp [htype]
      rw [convertArgument, if_neg hnot, if_pos htype, hparts]
      simp only [bind, Except.bind, hn]
      rfl
    | plain htype hn =>
      simp only [isKeywordArgument, Bool.or_eq_false_iff, beq_eq_false_iff_ne] at htype
      rw [convertArgument, if_neg htype.1, if_neg htype.2]
      exact hn

/-- Only the arguments of a call can be converted to a keyword node. -/
theorem isKeyword_of_convert {c : Cst} {n : Node} (h : c.convert source = .ok n) :
    n.isKeyword = false := by
  induction c using inductionOn generalizing n with
  | step c ih =>
    rw [convert_eq] at h
    cases converts_of_ok h with
    | unwrap _ hparts hn => exact ih _ (.of_part (by simp [hparts])) hn
    | _ => rfl

theorem isKeyword_of_argument {d : Cst} {n : Node} (h : Argument source (convert source) d n) :
    n.isKeyword = d.isKeywordArgument := by
  cases h with
  | keyword htype => simp [Node.isKeyword, isKeywordArgument, htype]
  | splat htype => simp [Node.isKeyword, isKeywordArgument, htype]
  | plain htype hn => rw [htype, isKeyword_of_convert hn]

/-- The arguments picked by their concrete nodes are the ones picked by what they became. -/
theorem filter_zip_arguments {parts : List Cst} {nodes : List Node} (p : Bool → Bool)
    (h : List.Forall₂ (Argument source (convert source)) parts nodes) :
    ((parts.zip nodes).filter (fun x => p x.1.isKeywordArgument)).map Prod.snd =
      nodes.filter (fun n => p n.isKeyword) := by
  induction h with
  | nil => rfl
  | cons hd _ ih =>
    simp only [List.zip_cons_cons, List.filter_cons, isKeyword_of_argument hd]
    split
    · rw [List.map_cons, ih]
    · exact ih

theorem convert_call {c arguments : Cst} (hform : c.form = .call)
    (harguments : c.field? "arguments" = some arguments)
    (htype : arguments.type = "argument_list") (n : Node) :
    c.convert source = .ok n ↔ ∃ function func nodes,
      c.field? "function" = some function ∧ function.convert source = .ok func ∧
      List.Forall₂ (Argument source (convert source)) arguments.parts nodes ∧
      n = .call c.position func (nodes.filter (fun n => !n.isKeyword))
        (nodes.filter Node.isKeyword) := by
  have hargs {nodes : List Node} (h : List.Forall₂ (Argument source (convert source))
      arguments.parts nodes) := filter_zip_arguments Bool.not h
  have hkeywords {nodes : List Node} (h : List.Forall₂ (Argument source (convert source))
      arguments.parts nodes) := filter_zip_arguments id h
  rw [convert_eq, convertNode, hform]
  simp only [convertCall, bind_eq_ok, require_eq_ok]
  constructor
  · rintro ⟨function, hfunction, func, hfunc, arguments', harguments', h⟩
    cases harguments.symm.trans harguments'
    rw [if_pos htype, bind_eq_ok] at h
    obtain ⟨nodes, hnodes, h⟩ := h
    have hnodes := (mapM_eq_ok.1 hnodes).imp fun _ _ => convertArgument_eq_ok.1
    refine ⟨function, func, nodes, hfunction, hfunc, hnodes, ?_⟩
    rw [List.partition_eq_filter_filter] at h
    cases h
    exact congrArg₂ _ (hargs hnodes) (hkeywords hnodes)
  · rintro ⟨function, func, nodes, hfunction, hfunc, hnodes, rfl⟩
    refine ⟨function, hfunction, func, hfunc, arguments, harguments, ?_⟩
    rw [if_pos htype, bind_eq_ok]
    refine ⟨nodes, mapM_eq_ok.2 (hnodes.imp fun _ _ => convertArgument_eq_ok.2), ?_⟩
    rw [List.partition_eq_filter_filter]
    exact congrArg Except.ok (congrArg₂ _ (hargs hnodes) (hkeywords hnodes))

end Cst

/-- A call with a list of arguments becomes a call that keeps its positional arguments apart from
its keywords. If the converted arguments have strictly increasing positions, the visit of the call
comes to the called expression and then to all arguments in the order of the list, however the two
kinds were mixed. -/
theorem call_children_in_order {source : Array (Option Char)} {c arguments : Cst}
    (htype : c.type = "call") (harguments : c.field? "arguments" = some arguments)
    (hlist : arguments.type = "argument_list") :
    (∀ n, c.convert source = .ok n ↔ ∃ function func nodes,
      c.field? "function" = some function ∧ function.convert source = .ok func ∧
      List.Forall₂ (Cst.Argument source (Cst.convert source)) arguments.parts nodes ∧
      n = .call c.position func (nodes.filter (fun n => !n.isKeyword))
        (nodes.filter Node.isKeyword)) ∧
    ∀ function func nodes, c.field? "function" = some function →
      function.convert source = .ok func →
      List.Forall₂ (Cst.Argument source (Cst.convert source)) arguments.parts nodes →
      nodes.Pairwise (fun a b => a.position.Before b.position) →
      ∃ n, c.convert source = .ok n ∧ n.children = func :: nodes := by
  have hform : c.form = .call := by
    rw [Cst.form, htype]
    rfl
  refine ⟨Cst.convert_call hform harguments hlist, ?_⟩
  intro function func nodes hfunction hfunc hnodes hincreasing
  have hcall := (Cst.convert_call hform harguments hlist _).2
    ⟨function, func, nodes, hfunction, hfunc, hnodes, rfl⟩
  refine ⟨_, hcall, ?_⟩
  rw [Node.children, Node.byPosition_split Node.isKeyword hincreasing]

/-- `f(k=a, (b), **c, *d, k=a)`: keywords and positional arguments take turns, and the parentheses
around `b` leave it with its own position. -/
theorem call_children_in_order_mixed :
    let word (field : Option String) (start : Int) : Cst :=
      .node { type := "identifier", field, column := start, start, stop := start + 1 } []
    let keyword (start : Int) : Cst := .node { type := "keyword_argument", column := start }
      [word (some "name") start, word (some "value") (start + 2)]
    let arguments : Cst :=
      .node { type := "argument_list", field := some "arguments", column := 1 }
        [keyword 2, .node { type := "parenthesized_expression", column := 7 } [word none 8],
          .node { type := "dictionary_splat", column := 12 } [word none 14],
          .node { type := "list_splat", column := 17 } [word none 18], keyword 21]
    let c : Cst := .node { type := "call" } [word (some "function") 0, arguments]
    let kept (column : Int) (name : Option String) (value : Node) : Node :=
      .keyword (.at 1 column) name value
    let a (column : Int) : Node := .name (.at 1 column) "a"
    let nodes : List Node :=
      [kept 2 (some "k") (a 4), .name (.at 1 8) "b", kept 12 none (.name (.at 1 14) "c"),
        .other (.at 1 17) "list_splat" [.name (.at 1 18) "d"], kept 21 (some "k") (a 23)]
    c.type = "call" ∧ arguments.type = "argument_list" ∧
      nodes.Pairwise (fun a b => a.position.Before b.position) ∧
      ∃ n, c.convert (Text.slots "f(k=a, (b), **c, *d, k=a)") = .ok n ∧
        n.children = .name (.at 1 0) "f" :: nodes := by
  intro word keyword arguments c kept a nodes
  have hnodes : List.Forall₂ (Cst.Argument (Text.slots "f(k=a, (b), **c, *d, k=a)")
      (Cst.convert (Text.slots "f(k=a, (b), **c, *d, k=a)"))) arguments.parts nodes := by
    refine .cons ?_ (.cons ?_ (.cons ?_ (.cons ?_ (.cons ?_ .nil))))
    · exact Cst.argument_of_ok rfl
    · exact Cst.argument_of_ok rfl
    · exact Cst.argument_of_ok rfl
    · exact Cst.argument_of_ok rfl
    · exact Cst.argument_of_ok rfl
  have hincreasing : nodes.Pairwise (fun a b => a.position.Before b.position) := by
    decide +kernel
  refine ⟨rfl, rfl, hincreasing, ?_⟩
  exact (call_children_in_order rfl rfl rfl).2 _ _ _ rfl rfl hnodes hincreasing

end ChainLint
