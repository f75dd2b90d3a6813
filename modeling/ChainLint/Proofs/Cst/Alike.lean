import ChainLint.Proofs.Cst.Comparison
import ChainLint.Proofs.Cst.Shape
import ChainLint.Proofs.Engine.Operators

/-!
# ChainLint.Proofs.Cst.Alike

Concrete nodes that come to the same tree, up to the texts of comparison operators.

* `SameTree`: the trees.
* `Alike`: two nodes that come to the same for whoever reads them in a role. It is a relation by
  roles, since a term is converted, a word is read and a list gives its parts.
* `ReadsAlike`: two nodes with the same label, of which alike nodes are read. One lemma for each way
  in which a conversion reads a node, and one for each form that has a function of its own.
* `alike_of_reads`: such nodes are alike.
-/

namespace ChainLint

/-- The trees differ at most in the texts of comparison operators. -/
def SameTree (n m : Node) : Prop := n.eraseOperators = m.eraseOperators

theorem SameTree.refl (n : Node) : SameTree n n := rfl

theorem SameTree.eq {n m : Node} (h : SameTree n m) : n.eraseOperators = m.eraseOperators := h

theorem map_eq_of_sameTree {ns ms : List Node} (h : List.Forall₂ SameTree ns ms) :
    ns.map Node.eraseOperators = ms.map Node.eraseOperators := by
  induction h with
  | nil => rfl
  | cons hn _ ih => rw [List.map_cons, List.map_cons, hn, ih]

theorem optionRel_cases {α β : Type} {R : α → β → Prop} {o : Option α} {o' : Option β}
    (h : Option.Rel R o o') :
    (o = none ∧ o' = none) ∨ ∃ a b, o = some a ∧ o' = some b ∧ R a b := by
  cases h with
  | none => exact .inl ⟨rfl, rfl⟩
  | some hab => exact .inr ⟨_, _, rfl, rfl, hab⟩

namespace Cst

/-! ## Chains of assignments -/

/-- Any fuel that is not less than the depth will do for a chain. -/
theorem assignmentChain_of_depth_le {below : Cst → Except Malformed Node} {c : Cst} {fuel : Nat}
    (h : c.depth ≤ fuel) : assignmentChain below fuel c = assignmentChain below c.depth c := by
  induction fuel using Nat.strongRecOn generalizing c with
  | ind fuel ih =>
    obtain ⟨k, hk⟩ := c.exists_depth_eq
    obtain ⟨j, rfl⟩ : ∃ j, fuel = j + 1 := ⟨fuel - 1, by omega⟩
    rw [hk, assignmentChain, assignmentChain]
    split
    · cases hnext : c.field? "right" with
      | none => rfl
      | some next =>
        have hlt := (Inside.of_field hnext).depth_lt
        simp only [ih j (by omega) (c := next) (by omega), ih k (by omega) (c := next) (by omega)]
    · rfl

theorem assignmentChain_of_form {below : Cst → Except Malformed Node} {c : Cst}
    (h : c.form ≠ .assignment) : assignmentChain below c.depth c = .ok ([], c) := by
  obtain ⟨k, hk⟩ := c.exists_depth_eq
  rw [hk, assignmentChain, if_neg (fun hgoes => h hgoes.1)]

theorem convertArgument_of_plain {source : Array (Option Char)}
    {below : Cst → Except Malformed Node} {c : Cst} (h : c.isKeywordArgument = false) :
    convertArgument source below c = below c := by
  simp only [isKeywordArgument, Bool.or_eq_false_iff, beq_eq_false_iff_ne] at h
  rw [convertArgument, if_neg h.1, if_neg h.2]

/-! ## Nodes that come to the same -/

section alike

variable (source : Array (Option Char))

/-- Two terms are alike when they are converted to the same tree, also as the right-hand side of an
assignment, which may go on with the chain, and when no parent tells them apart. -/
structure TermAlike (d d' : Cst) : Prop where
  converts : Corresponds SameTree (convert source d) (convert source d')
  chain : Corresponds
    (fun r r' => List.Forall₂ SameTree r.1 r'.1 ∧
      Corresponds SameTree (convert source r.2) (convert source r'.2))
    (assignmentChain (convert source) d.depth d) (assignmentChain (convert source) d'.depth d')
  interpolation : d.type = "interpolation" ↔ d'.type = "interpolation"
  arguments : d.type = "argument_list" ↔ d'.type = "argument_list"

structure ArgumentAlike (d d' : Cst) : Prop where
  converts : Corresponds SameTree (convertArgument source (convert source) d)
    (convertArgument source (convert source) d')
  keyword : d.isKeywordArgument = d'.isKeywordArgument

def Alike : Role → Cst → Cst → Prop
  | .word, d, d' => d.label = d'.label
  | .term, d, d' => TermAlike source d d'
  | .block, d, d' => d.label = d'.label ∧ List.Forall₂ (TermAlike source) d.parts d'.parts
  | .arguments, d, d' => d.label = d'.label ∧ List.Forall₂ (ArgumentAlike source) d.parts d'.parts
  | .argument, d, d' => ArgumentAlike source d d'

theorem termAlike_refl (d : Cst) : TermAlike source d d where
  converts := .refl .refl _
  chain := .refl (fun _ => ⟨List.forall₂_same.2 (fun n _ => .refl n), .refl .refl _⟩) _
  interpolation := .rfl
  arguments := .rfl

theorem argumentAlike_refl (d : Cst) : ArgumentAlike source d d :=
  ⟨.refl .refl _, rfl⟩

theorem alike_refl (role : Role) (d : Cst) : Alike source role d d := by
  cases role with
  | word => exact rfl
  | term => exact termAlike_refl source d
  | block => exact ⟨rfl, List.forall₂_same.2 (fun e _ => termAlike_refl source e)⟩
  | arguments => exact ⟨rfl, List.forall₂_same.2 (fun e _ => argumentAlike_refl source e)⟩
  | argument => exact argumentAlike_refl source d

/-- Two nodes with the same label, of which alike nodes are read in the same places. -/
structure ReadsAlike (role : Role) (c c' : Cst) : Prop where
  label : c.label = c'.label
  parts : List.Forall₂ (fun d d' => Alike source (c.roleIn d role) d d') c.parts c'.parts
  fields : ∀ name, Option.Rel (fun d d' => Alike source (c.roleIn d role) d d') (c.field? name)
    (c'.field? name)

end alike

section reads

variable {source : Array (Option Char)} {c c' : Cst}

theorem type_eq_of_label (h : c.label = c'.label) : c'.type = c.type :=
  congrArg CstLabel.type h.symm

theorem text_eq_of_label (h : c.label = c'.label) : c'.text source = c.text source := by
  rw [text, text, h]

/-- As many operators as there are pairs of neighbours. -/
theorem operatorTexts_length (source : Array (Option Char)) {ps ps' : List Cst}
    (h : ps.length = ps'.length) :
    (operatorTexts source ps).map (fun _ => "") = (operatorTexts source ps').map (fun _ => "") := by
  rw [List.map_const', List.map_const', length_operatorTexts, length_operatorTexts, h]

namespace ReadsAlike

theorem type_eq {role : Role} (h : ReadsAlike source role c c') : c'.type = c.type :=
  type_eq_of_label h.label

theorem form_eq {role : Role} (h : ReadsAlike source role c c') : c'.form = c.form :=
  congrArg Form.ofType h.type_eq

theorem position_eq {role : Role} (h : ReadsAlike source role c c') : c'.position = c.position := by
  rw [position, position, h.label]

/-- What stands in a field of a term, in a role that goes by the field alone. -/
theorem field {role : Role} (h : ReadsAlike source .term c c') {name : String}
    (hrole : c.form.roleOf name = role) (hlist : role ≠ .arguments) :
    Option.Rel (Alike source role) (c.field? name) (c'.field? name) := by
  obtain ⟨hd, hd'⟩ | ⟨d, d', hd, hd', halike⟩ := optionRel_cases (h.fields name)
  · rw [hd, hd']
    exact .none
  · have hin : c.roleIn d .term = role := by
      simp [roleIn, roleInTerm, (field?_eq_some hd).2, hrole, hlist]
    rw [hd, hd']
    exact .some (hin ▸ halike)

theorem require_of_field {R : Cst → Cst → Prop} {role : Role} (h : ReadsAlike source role c c')
    {name : String} (hfield : Option.Rel R (c.field? name) (c'.field? name)) :
    Corresponds R (c.require name) (c'.require name) := by
  unfold Cst.require
  rw [h.type_eq, h.position_eq]
  obtain ⟨hd, hd'⟩ | ⟨d, d', hd, hd', hR⟩ := optionRel_cases hfield
  · rw [hd, hd']
    exact rfl
  · rw [hd, hd']
    exact hR

theorem require {role : Role} (h : ReadsAlike source .term c c') {name : String}
    (hrole : c.form.roleOf name = role) (hlist : role ≠ .arguments) :
    Corresponds (Alike source role) (c.require name) (c'.require name) :=
  h.require_of_field (h.field hrole hlist)

theorem requireWord (h : ReadsAlike source .term c c') {name : String}
    (hrole : c.form.roleOf name = .word) :
    Corresponds (fun d d' => d.label = d'.label) (c.require name) (c'.require name) :=
  h.require hrole (by decide)

/-- A field that is read and converted. -/
theorem convertField (h : ReadsAlike source .term c c') {name : String}
    (hrole : c.form.roleOf name = .term) {k k' : Node → Except Malformed Node}
    (hk : ∀ n n', SameTree n n' → Corresponds SameTree (k n) (k' n')) :
    Corresponds SameTree (do k (← convert source (← c.require name)))
      (do k' (← convert source (← c'.require name))) :=
  (h.require hrole (by decide)).bind fun _ _ hd => hd.converts.bind hk

theorem convertOptional (h : ReadsAlike source .term c c') {name : String}
    (hrole : c.form.roleOf name = .term) :
    Corresponds (fun o o' : Option Node => o.map Node.eraseOperators = o'.map Node.eraseOperators)
      (Cst.convertOptional (convert source) (c.field? name))
      (Cst.convertOptional (convert source) (c'.field? name)) := by
  obtain ⟨hd, hd'⟩ | ⟨d, d', hd, hd', halike⟩ := optionRel_cases (h.field hrole (by decide))
  · rw [hd, hd']
    exact rfl
  · rw [hd, hd']
    exact halike.converts.bind fun _ _ hn => congrArg some hn

theorem mapM_parts {d d' : Cst} (h : List.Forall₂ (TermAlike source) d.parts d'.parts) :
    Corresponds (List.Forall₂ SameTree) (d.parts.mapM (convert source))
      (d'.parts.mapM (convert source)) :=
  .mapM (h.imp fun _ _ hd => hd.converts)

theorem convertList (h : ReadsAlike source .term c c') {name : String}
    (hrole : c.form.roleOf name = .block) :
    Corresponds (List.Forall₂ SameTree) (Cst.convertList (convert source) (c.field? name))
      (Cst.convertList (convert source) (c'.field? name)) := by
  obtain ⟨hd, hd'⟩ | ⟨d, d', hd, hd', halike⟩ := optionRel_cases (h.field hrole (by decide))
  · rw [hd, hd']
    exact .nil
  · rw [hd, hd']
    exact mapM_parts halike.2

/-- The body of a function or a class. -/
theorem convertBody (h : ReadsAlike source .term c c') (hrole : c.form.roleOf "body" = .block)
    {k k' : List Node → Except Malformed Node}
    (hk : ∀ ns ns', List.Forall₂ SameTree ns ns' → Corresponds SameTree (k ns) (k' ns')) :
    Corresponds SameTree (do k (← (← c.require "body").parts.mapM (convert source)))
      (do k' (← (← c'.require "body").parts.mapM (convert source))) :=
  (h.require hrole (by decide)).bind fun _ _ hd => (mapM_parts hd.2).bind hk

/-- The parts of a term that is not read by fields. -/
theorem termParts (h : ReadsAlike source .term c c') (hrole : ∀ name, c.form.roleOf name = .term) :
    List.Forall₂ (TermAlike source) c.parts c'.parts := by
  refine h.parts.imp fun d d' hd => ?_
  have hin : c.roleIn d .term = .term := by
    cases hfield : d.label.field <;> simp [roleIn, roleInTerm, hfield, hrole]
  rw [hin] at hd
  exact hd

theorem otherNode (h : ReadsAlike source .term c c') (hrole : ∀ name, c.form.roleOf name = .term) :
    Corresponds SameTree (Cst.otherNode (convert source) c)
      (Cst.otherNode (convert source) c') := by
  refine (mapM_parts (h.termParts hrole)).bind fun ns ns' hns => ?_
  show (Node.other c.position c.type ns).eraseOperators =
    (Node.other c'.position c'.type ns').eraseOperators
  simp [Node.eraseOperators, h.position_eq, h.type_eq, map_eq_of_sameTree hns]

/-- The right-hand side of an assignment, and the rest of its chain. -/
theorem chain (h : ReadsAlike source .term c c')
    (hconverts : Corresponds SameTree (convert source c) (convert source c')) :
    Corresponds
      (fun r r' => List.Forall₂ SameTree r.1 r'.1 ∧
        Corresponds SameTree (convert source r.2) (convert source r'.2))
      (assignmentChain (convert source) c.depth c)
      (assignmentChain (convert source) c'.depth c') := by
  by_cases hform : c.form = .assignment
  case neg =>
    rw [assignmentChain_of_form hform, assignmentChain_of_form (h.form_eq ▸ hform)]
    exact ⟨.nil, hconverts⟩
  case pos =>
    have hterm : ∀ name ∈ ["left", "type", "right"], c.form.roleOf name = .term := by
      rw [hform]
      decide
    obtain ⟨k, hk⟩ := c.exists_depth_eq
    obtain ⟨k', hk'⟩ := c'.exists_depth_eq
    have htype : (c'.field? "type").isNone = (c.field? "type").isNone := by
      obtain ⟨hd, hd'⟩ | ⟨d, d', hd, hd', -⟩ :=
        optionRel_cases (h.field (hterm "type" (by simp)) (by decide))
      · rw [hd, hd']
      · rw [hd, hd']
        rfl
    rw [hk, hk', assignmentChain, assignmentChain, h.form_eq, htype]
    split
    · obtain ⟨hd, hd'⟩ | ⟨next, next', hd, hd', halike⟩ :=
        optionRel_cases (h.field (hterm "right" (by simp)) (by decide))
      · rw [hd, hd']
        exact ⟨.nil, hconverts⟩
      · have hlt := (Inside.of_field hd).depth_lt
        have hlt' := (Inside.of_field hd').depth_lt
        have hfuel : assignmentChain (convert source) k next = _ :=
          assignmentChain_of_depth_le (by omega)
        have hfuel' : assignmentChain (convert source) k' next' = _ :=
          assignmentChain_of_depth_le (by omega)
        simp only [hd, hd', hfuel, hfuel']
        refine (h.require (hterm "left" (by simp)) (by decide)).bind fun _ _ hleft => ?_
        refine hleft.converts.bind fun _ _ htarget => ?_
        exact halike.chain.bind fun _ _ hrest => ⟨.cons htarget hrest.1, hrest.2⟩
    · exact ⟨.nil, hconverts⟩

theorem convertAssignment (h : ReadsAlike source .term c c') (hform : c.form = .assignment) :
    Corresponds SameTree (Cst.convertAssignment (convert source) c)
      (Cst.convertAssignment (convert source) c') := by
  have hterm : ∀ name ∈ ["left", "type", "right"], c.form.roleOf name = .term := by
    rw [hform]
    decide
  refine h.convertField (hterm "left" (by simp)) fun target target' htarget => ?_
  have hhint := h.convertOptional (hterm "type" (by simp))
  obtain ⟨hd, hd'⟩ | ⟨right, right', hd, hd', halike⟩ :=
    optionRel_cases (h.field (hterm "right" (by simp)) (by decide))
  · rw [hd, hd']
    refine hhint.bind fun hint hint' hhint => ?_
    show SameTree (.other c.position _ (target :: hint.toList))
      (.other c'.position _ (target' :: hint'.toList))
    simp [SameTree, Node.eraseOperators, h.position_eq, ← Option.toList_map, htarget.eq, hhint]
  · have hfuel : assignmentChain (convert source) c.depth right = _ :=
      assignmentChain_of_depth_le (Inside.of_field hd).depth_lt.le
    have hfuel' : assignmentChain (convert source) c'.depth right' = _ :=
      assignmentChain_of_depth_le (Inside.of_field hd').depth_lt.le
    simp only [hd, hd', hfuel, hfuel']
    refine halike.chain.bind fun r r' hr => hhint.bind fun hint hint' hhint => ?_
    refine hr.2.bind fun value value' hvalue => ?_
    show SameTree (.assign c.position (target :: r.1) hint value)
      (.assign c'.position (target' :: r'.1) hint' value')
    simp [SameTree, Node.eraseOperators, h.position_eq, htarget.eq, map_eq_of_sameTree hr.1, hhint,
      hvalue.eq]

/-- An argument of a call. One that is no keyword is a term. -/
theorem convertArgument (h : ReadsAlike source .argument c c')
    (hterm : c.isKeywordArgument = false →
      Corresponds SameTree (convert source c) (convert source c')) :
    Corresponds SameTree (Cst.convertArgument source (convert source) c)
      (Cst.convertArgument source (convert source) c') := by
  unfold Cst.convertArgument
  rw [h.type_eq]
  split
  · rename_i htype
    have hrole : ∀ {name : String} {d : Cst}, c.field? name = some d →
        c.roleIn d .argument = if name = "name" then .word else .term := by
      intro name d hd
      simp [roleIn, htype, (field?_eq_some hd).2]
    have hname : Option.Rel (Alike source .word) (c.field? "name") (c'.field? "name") := by
      obtain ⟨hd, hd'⟩ | ⟨d, d', hd, hd', halike⟩ := optionRel_cases (h.fields "name")
      · rw [hd, hd']
        exact .none
      · rw [hrole hd, if_pos rfl] at halike
        rw [hd, hd']
        exact .some halike
    have hvalue : Option.Rel (Alike source .term) (c.field? "value") (c'.field? "value") := by
      obtain ⟨hd, hd'⟩ | ⟨d, d', hd, hd', halike⟩ := optionRel_cases (h.fields "value")
      · rw [hd, hd']
        exact .none
      · rw [hrole hd, if_neg (by decide)] at halike
        rw [hd, hd']
        exact .some halike
    refine (h.require_of_field hname).bind fun word word' hword => ?_
    refine (h.require_of_field hvalue).bind fun _ _ hvalue => ?_
    refine hvalue.converts.bind fun value value' hvalue => ?_
    show SameTree (.keyword c.position (some (word.text source)) value)
      (.keyword c'.position (some (word'.text source)) value')
    simp [SameTree, Node.eraseOperators, h.position_eq, text_eq_of_label hword, hvalue.eq]
  · rename_i hkeyword
    split
    · rename_i htype
      have hparts : List.Forall₂ (TermAlike source) c.parts c'.parts := by
        refine h.parts.imp fun d d' hd => ?_
        have hin : c.roleIn d .argument = .term := by
          simp [roleIn, htype]
        rw [hin] at hd
        exact hd
      generalize c.parts = ps at hparts
      generalize c'.parts = ps' at hparts
      cases hparts with
      | nil => exact congrArg (Malformed.mk _) h.position_eq.symm
      | cons hvalue _ =>
        refine hvalue.converts.bind fun value value' hvalue => ?_
        show SameTree (.keyword c.position none value) (.keyword c'.position none value')
        simp [SameTree, Node.eraseOperators, h.position_eq, hvalue.eq]
    · rename_i hsplat
      exact hterm (by simp [isKeywordArgument, hkeyword, hsplat])

theorem map_filter_arguments {ps ps' : List Cst} {ns ns' : List Node} {p : Bool → Bool}
    (hps : List.Forall₂ (ArgumentAlike source) ps ps') (hns : List.Forall₂ SameTree ns ns') :
    (((ps.zip ns).filter (fun x => p x.1.isKeywordArgument)).map Prod.snd).map
        Node.eraseOperators =
      (((ps'.zip ns').filter (fun x => p x.1.isKeywordArgument)).map Prod.snd).map
        Node.eraseOperators := by
  induction hps generalizing ns ns' with
  | nil => rfl
  | cons hd _ ih =>
    cases hns with
    | nil => rfl
    | cons hn hns =>
      have hrest := ih hns
      simp only [List.zip_cons_cons, List.filter_cons, hd.keyword]
      split
      · simp only [List.map_cons, hn.eq, hrest]
      · exact hrest

theorem any_interpolation {ps ps' : List Cst} (h : List.Forall₂ (TermAlike source) ps ps') :
    ps.any (fun d => d.type == "interpolation") = ps'.any (fun d => d.type == "interpolation") := by
  induction h with
  | nil => rfl
  | cons hd _ ih =>
    rw [List.any_cons, List.any_cons, ih]
    congr 1
    exact Bool.eq_iff_iff.2 (by simpa using hd.interpolation)

theorem convertCall (h : ReadsAlike source .term c c') (hform : c.form = .call) :
    Corresponds SameTree (Cst.convertCall source (convert source) c)
      (Cst.convertCall source (convert source) c') := by
  refine h.convertField (by rw [hform]; decide) fun func func' hfunc => ?_
  have hfield : ∀ {d : Cst}, c.field? "arguments" = some d →
      c.roleIn d .term = if d.type = "argument_list" then .arguments else .term := by
    intro d hd
    have hrole : Form.roleOf .call "arguments" = .arguments := by decide
    by_cases htype : d.type = "argument_list"
    · simp [roleIn, roleInTerm, (field?_eq_some hd).2, hform, hrole, htype]
    · simp [roleIn, roleInTerm, (field?_eq_some hd).2, hform, hrole, htype]
  have hrequire : Corresponds (fun d d' => c.field? "arguments" = some d ∧
      Alike source (c.roleIn d .term) d d') (c.require "arguments") (c'.require "arguments") := by
    refine h.require_of_field ?_
    obtain ⟨hd, hd'⟩ | ⟨d, d', hd, hd', halike⟩ := optionRel_cases (h.fields "arguments")
    · rw [hd, hd']
      exact .none
    · rw [hd, hd']
      exact .some ⟨rfl, halike⟩
  refine hrequire.bind fun d d' hd => ?_
  obtain ⟨hd, halike⟩ := hd
  rw [hfield hd] at halike
  by_cases htype : d.type = "argument_list"
  · rw [if_pos htype] at halike
    have htype' : d'.type = "argument_list" := (type_eq_of_label halike.1).trans htype
    simp only [htype, htype', if_true]
    refine (Corresponds.mapM (halike.2.imp fun _ _ he => he.converts)).bind fun ns ns' hns => ?_
    simp only [List.partition_eq_filter_filter]
    show SameTree (.call c.position func _ _) (.call c'.position func' _ _)
    have hargs := map_filter_arguments (p := Bool.not) halike.2 hns
    have hkeywords := map_filter_arguments (p := id) halike.2 hns
    simp only [SameTree, Node.eraseOperators, Node.eraseOperatorsAll_eq, h.position_eq, hfunc.eq]
    exact congrArg₂ _ hargs hkeywords
  · rw [if_neg htype] at halike
    have htype' : ¬ d'.type = "argument_list" := fun h' => htype (halike.arguments.2 h')
    simp only [htype, htype', if_false]
    refine halike.converts.bind fun argument argument' hargument => ?_
    show SameTree (.call c.position func [argument] []) (.call c'.position func' [argument'] [])
    simp [SameTree, Node.eraseOperators, h.position_eq, hfunc.eq, hargument.eq]

/-- Nodes that are read alike are converted alike, whatever their form. -/
theorem converts (h : ReadsAlike source .term c c') :
    Corresponds SameTree (convert source c) (convert source c') := by
  have hposition := h.position_eq
  rw [convert_eq, convert_eq source c']
  unfold convertNode
  rw [h.form_eq]
  cases hform : c.form with
  | wrapper =>
    have hrole : ∀ name, c.form.roleOf name = .term := by
      rw [hform]
      exact fun _ => rfl
    have hother := h.otherNode hrole
    have hparts := h.termParts hrole
    generalize c.parts = ps at hparts
    generalize c'.parts = ps' at hparts
    cases hparts with
    | nil => exact hother
    | cons hd hrest =>
      cases hrest with
      | nil => exact hd.converts
      | cons => exact hother
  | assignment => exact h.convertAssignment hform
  | augmented =>
    refine h.convertField (by rw [hform]; decide) fun l l' hl => ?_
    refine (h.requireWord (by rw [hform]; decide)).bind fun o o' ho => ?_
    refine h.convertField (by rw [hform]; decide) fun r r' hr => ?_
    show SameTree (.augassign c.position l o.type r) (.augassign c'.position l' o'.type r')
    simp [SameTree, Node.eraseOperators, hposition, type_eq_of_label ho, hl.eq, hr.eq]
  | function =>
    refine (h.requireWord (by rw [hform]; decide)).bind fun o o' ho => ?_
    refine (h.convertList (by rw [hform]; decide)).bind fun ps ps' hps => ?_
    refine (h.convertOptional (by rw [hform]; decide)).bind fun r r' hr => ?_
    refine h.convertBody (by rw [hform]; decide) fun ns ns' hns => ?_
    show SameTree (.function c.position (o.text source) (ps ++ r.toList) ns)
      (.function c'.position (o'.text source) (ps' ++ r'.toList) ns')
    simp [SameTree, Node.eraseOperators, hposition, text_eq_of_label ho, map_eq_of_sameTree hps,
      map_eq_of_sameTree hns, ← Option.toList_map, hr]
  | classDef =>
    refine (h.requireWord (by rw [hform]; decide)).bind fun o o' ho => ?_
    refine (h.convertList (by rw [hform]; decide)).bind fun bs bs' hbs => ?_
    refine h.convertBody (by rw [hform]; decide) fun ns ns' hns => ?_
    show SameTree (.classDef c.position (o.text source) bs ns)
      (.classDef c'.position (o'.text source) bs' ns')
    simp [SameTree, Node.eraseOperators, hposition, text_eq_of_label ho, map_eq_of_sameTree hbs,
      map_eq_of_sameTree hns]
  | call => exact h.convertCall hform
  | attr =>
    refine h.convertField (by rw [hform]; decide) fun n n' hn => ?_
    refine (h.requireWord (by rw [hform]; decide)).bind fun o o' ho => ?_
    show SameTree (.attr c.position n (o.text source)) (.attr c'.position n' (o'.text source))
    simp [SameTree, Node.eraseOperators, hposition, text_eq_of_label ho, hn.eq]
  | subscript =>
    unfold convertSubscript
    have hparts := h.termParts (by rw [hform]; exact fun _ => rfl)
    generalize c.parts = ps at hparts
    generalize c'.parts = ps' at hparts
    cases hparts with
    | nil => exact congrArg (Malformed.mk _) hposition.symm
    | cons hd hrest =>
      refine hd.converts.bind fun v v' hv => ?_
      refine (Corresponds.mapM (hrest.imp fun _ _ he => he.converts)).bind fun ns ns' hns => ?_
      show SameTree (.subscript c.position v ns) (.subscript c'.position v' ns')
      simp [SameTree, Node.eraseOperators, hposition, hv.eq, map_eq_of_sameTree hns]
  | identifier =>
    show SameTree (.name c.position (c.text source)) (.name c'.position (c'.text source))
    simp [SameTree, hposition, text_eq_of_label h.label]
  | comparison =>
    unfold convertComparison
    have hparts := h.termParts (by rw [hform]; exact fun _ => rfl)
    have hlength := operatorTexts_length source hparts.length_eq
    generalize c.parts = ps at hparts hlength
    generalize c'.parts = ps' at hparts hlength
    cases hparts with
    | nil => exact congrArg (Malformed.mk _) hposition.symm
    | cons hd hrest =>
      refine hd.converts.bind fun l l' hl => ?_
      refine (Corresponds.mapM (hrest.imp fun _ _ he => he.converts)).bind fun rs rs' hrs => ?_
      show SameTree (.compare c.position l _ rs) (.compare c'.position l' _ rs')
      simp [SameTree, Node.eraseOperators, hposition, hl.eq, map_eq_of_sameTree hrs, hlength]
  | binary =>
    refine h.convertField (by rw [hform]; decide) fun l l' hl => ?_
    refine (h.requireWord (by rw [hform]; decide)).bind fun o o' ho => ?_
    refine h.convertField (by rw [hform]; decide) fun r r' hr => ?_
    show SameTree (.binop c.position l o.type r) (.binop c'.position l' o'.type r')
    simp [SameTree, Node.eraseOperators, hposition, type_eq_of_label ho, hl.eq, hr.eq]
  | boolean =>
    refine (h.requireWord (by rw [hform]; decide)).bind fun o o' ho => ?_
    refine h.convertField (by rw [hform]; decide) fun l l' hl => ?_
    refine h.convertField (by rw [hform]; decide) fun r r' hr => ?_
    show SameTree (.boolop c.position (if o.type = "and" then "and" else "or") [l, r])
      (.boolop c'.position (if o'.type = "and" then "and" else "or") [l', r'])
    simp [SameTree, Node.eraseOperators, hposition, type_eq_of_label ho, hl.eq, hr.eq]
  | unary =>
    refine (h.requireWord (by rw [hform]; decide)).bind fun o o' ho => ?_
    refine h.convertField (by rw [hform]; decide) fun n n' hn => ?_
    show SameTree (.unaryop c.position o.type n) (.unaryop c'.position o'.type n')
    simp [SameTree, Node.eraseOperators, hposition, type_eq_of_label ho, hn.eq]
  | negation =>
    refine h.convertField (by rw [hform]; decide) fun n n' hn => ?_
    show SameTree (.unaryop c.position "not" n) (.unaryop c'.position "not" n')
    simp [SameTree, Node.eraseOperators, hposition, hn.eq]
  | lambda =>
    refine (h.convertList (by rw [hform]; decide)).bind fun ps ps' hps => ?_
    refine h.convertField (by rw [hform]; decide) fun n n' hn => ?_
    show SameTree (.lambda c.position ps n) (.lambda c'.position ps' n')
    simp [SameTree, Node.eraseOperators, hposition, map_eq_of_sameTree hps, hn.eq]
  | string =>
    have hrole : ∀ name, c.form.roleOf name = .term := by
      rw [hform]
      exact fun _ => rfl
    simp only [any_interpolation (h.termParts hrole)]
    split
    · exact h.otherNode hrole
    · show SameTree (.constant c.position .string (c.text source))
        (.constant c'.position .string (c'.text source))
      simp [SameTree, hposition, text_eq_of_label h.label]
  | literal l =>
    show SameTree (.constant c.position l (c.text source))
      (.constant c'.position l (c'.text source))
    simp [SameTree, hposition, text_eq_of_label h.label]
  | other =>
    exact h.otherNode (by rw [hform]; exact fun _ => rfl)

theorem termAlike (h : ReadsAlike source .term c c') : TermAlike source c c' where
  converts := h.converts
  chain := h.chain h.converts
  interpolation := by rw [h.type_eq]
  arguments := by rw [h.type_eq]

/-- An argument that is no keyword is read as a term. -/
theorem of_argument (h : ReadsAlike source .argument c c') (hplain : c.isKeywordArgument = false) :
    ReadsAlike source .term c c' := by
  simp only [isKeywordArgument, Bool.or_eq_false_iff, beq_eq_false_iff_ne] at hplain
  have hin : ∀ d, c.roleIn d .argument = c.roleIn d .term := by
    intro d
    simp [roleIn, hplain]
  exact ⟨h.label, by simpa only [hin] using h.parts, by simpa only [hin] using h.fields⟩

theorem argumentAlike (h : ReadsAlike source .argument c c') : ArgumentAlike source c c' where
  converts := h.convertArgument fun hplain => (h.of_argument hplain).converts
  keyword := by rw [isKeywordArgument, isKeywordArgument, h.type_eq]

end ReadsAlike

theorem alike_of_reads {role : Role} (h : ReadsAlike source role c c') :
    Alike source role c c' := by
  cases role with
  | word => exact h.label
  | term => exact h.termAlike
  | block => exact ⟨h.label, h.parts⟩
  | arguments => exact ⟨h.label, h.parts⟩
  | argument => exact h.argumentAlike

end reads

end Cst
end ChainLint
