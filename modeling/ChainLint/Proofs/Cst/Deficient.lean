import ChainLint.Proofs.Cst.Accepted
import ChainLint.Proofs.Cst.Asked
import ChainLint.Proofs.Cst.FirstError

/-!
# ChainLint.Proofs.Cst.Deficient

What a conversion fails on.

* `Form.required`: the fields that a node must have. `Lacks`, `LacksAsArgument`: a node that has not
  what its type requires, anywhere or as an argument of a call.
* `Deficient`: such a node of a text, with the reason that an error gives.
* `blamed_convertNode`: one node, given the conversion of what lies below it. An error is the fault
  of the node or comes from below.
* `convert_eq_error`: the error of a conversion names a node that lacks something.
* `not_flawed_of_converts`: no node that was converted does.
* `readSource_deficient`: a text whose syntax lacks nothing has a tree, and the error of any other
  is that of a deficient node.
-/

namespace ChainLint
namespace Cst

/-- Fields that a node of this form must have. -/
def Form.required : Form → List String
  | .assignment => ["left"]
  | .augmented | .binary | .boolean => ["left", "operator", "right"]
  | .function | .classDef => ["name", "body"]
  | .call => ["function", "arguments"]
  | .attr => ["object", "attribute"]
  | .unary => ["operator", "argument"]
  | .negation => ["argument"]
  | .lambda => ["body"]
  | _ => []

/-- The node lacks what its type requires wherever it stands: a field or, where it is read by its
parts, any part. -/
inductive Lacks (c : Cst) : String → Prop where
  | field {name : String} (hname : name ∈ c.form.required) (hnone : c.field? name = none) :
      Lacks c (c.type ++ " without '" ++ name ++ "'")
  | value (hform : c.form = .subscript) (hnone : c.parts = []) : Lacks c "subscript without a value"
  | operand (hform : c.form = .comparison) (hnone : c.parts = []) :
      Lacks c "comparison without operands"

/-- The node lacks what its type requires of an argument of a call. -/
inductive LacksAsArgument (d : Cst) : String → Prop where
  | field {name : String} (htype : d.type = "keyword_argument") (hname : name ∈ ["name", "value"])
      (hnone : d.field? name = none) : LacksAsArgument d (d.type ++ " without '" ++ name ++ "'")
  | value (htype : d.type = "dictionary_splat") (hnone : d.parts = []) :
      LacksAsArgument d "empty ** argument"

/-- The node stands directly in the argument list of a call. -/
def IsArgumentOf (d c : Cst) : Prop :=
  c.form = .call ∧ ∃ list, c.field? "arguments" = some list ∧ list.type = "argument_list" ∧
    d ∈ list.parts

/-- The node, which stands somewhere in the text, lacks what is required of it. -/
inductive Deficient (root d : Cst) (reason : String) : Prop where
  | anywhere (hd : Inside d root) (h : d.Lacks reason) : Deficient root d reason
  | argument {c : Cst} (hc : Inside c root) (hd : d.IsArgumentOf c) (h : d.LacksAsArgument reason) :
      Deficient root d reason

/-- The error for what the node, or one of its arguments, lacks. -/
inductive Flawed (c : Cst) : Malformed → Prop where
  | self {reason : String} (h : c.Lacks reason) : Flawed c ⟨reason, c.position⟩
  | argument {d : Cst} {reason : String} (hd : d.IsArgumentOf c) (h : d.LacksAsArgument reason) :
      Flawed c ⟨reason, d.position⟩

theorem Flawed.deficient {root c : Cst} {e : Malformed} (h : c.Flawed e) (hc : Inside c root) :
    ∃ d reason, Deficient root d reason ∧ e = ⟨reason, d.position⟩ := by
  cases h with
  | self h => exact ⟨c, _, .anywhere hc h, rfl⟩
  | argument hd h => exact ⟨_, _, .argument hc hd h, rfl⟩

theorem require_eq_error {c : Cst} {name : String} {e : Malformed} :
    c.require name = .error e ↔
      c.field? name = none ∧ ⟨c.type ++ " without '" ++ name ++ "'", c.position⟩ = e := by
  unfold require
  cases c.field? name with
  | none => simp
  | some d => simp

/-! ## Where an error comes from -/

section step

variable {source : Array (Option Char)} {below : Cst → Except Malformed Node} {c d : Cst}
  {e : Malformed} {name : String}

/-- The error is the fault of the node, of an assignment that it goes on with, or of a conversion
below it. -/
def Blamed (below : Cst → Except Malformed Node) (c : Cst) (e : Malformed) : Prop :=
  (∃ d, (d = c ∨ Inside d c) ∧ d.Flawed e) ∨ ∃ d, Inside d c ∧ below d = .error e

theorem Blamed.of_self (h : c.Flawed e) : Blamed below c e := .inl ⟨c, .inl rfl, h⟩

theorem Blamed.of_inside (hd : Inside d c) (h : d.Flawed e) : Blamed below c e :=
  .inl ⟨d, .inr hd, h⟩

theorem Blamed.of_below (hd : Inside d c) (h : below d = .error e) : Blamed below c e :=
  .inr ⟨d, hd, h⟩

/-- What is returned is no error. -/
theorem blamed_pure {α : Type} {a : α} (h : (pure a : Except Malformed α) = .error e) :
    Blamed below c e := by
  cases h

/-- A step that is to blame, or a step after it. -/
theorem blamed_bind {α β : Type} {x : Except Malformed α} {k : α → Except Malformed β}
    (h : (x >>= k) = .error e) (hx : x = .error e → Blamed below c e)
    (hk : ∀ a, x = .ok a → k a = .error e → Blamed below c e) : Blamed below c e := by
  rcases bind_eq_error.1 h with h | ⟨a, ha, h⟩
  · exact hx h
  · exact hk a ha h

/-- A required field that is read. -/
theorem blamed_require {β : Type} (hname : name ∈ c.form.required) {k : Cst → Except Malformed β}
    (h : (c.require name >>= k) = .error e)
    (hk : ∀ d, c.field? name = some d → k d = .error e → Blamed below c e) : Blamed below c e := by
  refine blamed_bind h (fun h => ?_) (fun d hd => hk d (require_eq_ok.1 hd))
  obtain ⟨hnone, rfl⟩ := require_eq_error.1 h
  exact .of_self (.self (.field hname hnone))

/-- A required field that is read and converted. -/
theorem blamed_read {β : Type} (hname : name ∈ c.form.required) {k : Node → Except Malformed β}
    (h : (c.require name >>= fun d => below d >>= k) = .error e)
    (hk : ∀ n, k n = .error e → Blamed below c e) : Blamed below c e := by
  refine blamed_require hname h fun d hd h => ?_
  exact blamed_bind h (.of_below (.of_field hd)) fun n _ => hk n

theorem blamed_all {cs : List Cst} (hcs : ∀ d ∈ cs, Inside d c)
    (h : cs.mapM below = .error e) : Blamed below c e := by
  obtain ⟨d, hd, hde⟩ := exists_of_mapM_eq_error h
  exact .of_below (hcs d hd) hde

theorem blamed_parts (h : c.parts.mapM below = .error e) : Blamed below c e :=
  blamed_all (fun _ hd => .of_part hd) h

theorem blamed_optional (h : convertOptional below (c.field? name) = .error e) :
    Blamed below c e := by
  cases hd : c.field? name with
  | none =>
    rw [hd] at h
    cases h
  | some d =>
    rw [hd] at h
    exact blamed_bind h (.of_below (.of_field hd)) fun _ _ => blamed_pure

theorem blamed_list (h : convertList below (c.field? name) = .error e) : Blamed below c e := by
  cases hd : c.field? name with
  | none =>
    rw [hd] at h
    cases h
  | some d =>
    rw [hd] at h
    exact blamed_all (fun p hp => Inside.trans (.of_part hp) (.of_field hd)) h

/-- The body of a function or a class. -/
theorem blamed_body (hname : "body" ∈ c.form.required) {k : List Node → Except Malformed Node}
    (h : (c.require "body" >>= fun body => body.parts.mapM below >>= k) = .error e)
    (hk : ∀ ns, k ns = .error e → Blamed below c e) : Blamed below c e := by
  refine blamed_require hname h fun body hbody h => ?_
  refine blamed_bind h (blamed_all fun p hp => ?_) fun ns _ => hk ns
  exact Inside.trans (.of_part hp) (.of_field hbody)

theorem blamed_other (h : otherNode below c = .error e) : Blamed below c e :=
  blamed_bind h blamed_parts fun _ _ => blamed_pure

/-- Each assignment that a chain goes on with must have a target. -/
theorem blamed_chain {right : Cst} (hright : Inside right c) {fuel : Nat}
    (h : assignmentChain below fuel right = .error e) : Blamed below c e := by
  induction fuel generalizing right with
  | zero => cases h
  | succ fuel ih =>
    unfold assignmentChain at h
    split at h
    · rename_i hgoes
      split at h
      · cases h
      · rename_i next hnext
        refine blamed_bind h (fun h => ?_) fun left hleft h => ?_
        · obtain ⟨hnone, rfl⟩ := require_eq_error.1 h
          exact .of_inside hright (.self (.field (by simp [hgoes.1, Form.required]) hnone))
        · have hin := Inside.trans (.of_field (require_eq_ok.1 hleft)) hright
          refine blamed_bind h (.of_below hin) fun target _ h => ?_
          exact blamed_bind h (ih (Inside.trans (.of_field hnext) hright)) fun _ _ => blamed_pure
    · cases h

theorem blamed_assignment (hform : c.form = .assignment)
    (h : convertAssignment below c = .error e) : Blamed below c e := by
  refine blamed_read (by simp [hform, Form.required]) h fun target h => ?_
  cases hright : c.field? "right" with
  | none =>
    simp only [hright] at h
    exact blamed_bind h blamed_optional fun _ _ => blamed_pure
  | some right =>
    simp only [hright] at h
    refine blamed_bind h (blamed_chain (.of_field hright)) fun r hr h => ?_
    refine blamed_bind h blamed_optional fun hint _ h => ?_
    have hvalue := inside_of_assignmentChain hr (.of_field hright)
    exact blamed_bind h (.of_below hvalue) fun _ _ => blamed_pure

theorem blamed_argument (hd : d.IsArgumentOf c) (h : convertArgument source below d = .error e) :
    Blamed below c e := by
  obtain ⟨-, list, hlist, -, hpart⟩ := id hd
  have hin : Inside d c := Inside.trans (.of_part hpart) (.of_field hlist)
  have hfield : ∀ {name}, d.type = "keyword_argument" → name ∈ ["name", "value"] →
      d.require name = .error e → Blamed below c e := by
    intro name htype hname h
    obtain ⟨hnone, rfl⟩ := require_eq_error.1 h
    exact .of_self (.argument hd (.field htype hname hnone))
  unfold convertArgument at h
  split at h
  · rename_i htype
    refine blamed_bind h (hfield htype (by simp)) fun _ _ h => ?_
    refine blamed_bind h (hfield htype (by simp)) fun value hvalue h => ?_
    have hvalue := Inside.trans (.of_field (require_eq_ok.1 hvalue)) hin
    exact blamed_bind h (.of_below hvalue) fun _ _ => blamed_pure
  · split at h
    · rename_i htype
      split at h
      · rename_i hnone
        cases h
        exact .of_self (.argument hd (.value htype hnone))
      · rename_i value rest hparts
        have hvalue : value ∈ d.parts := hparts ▸ List.mem_cons_self
        exact blamed_bind h (.of_below (Inside.trans (.of_part hvalue) hin)) fun _ _ => blamed_pure
    · exact .of_below hin h

theorem blamed_call (hform : c.form = .call) (h : convertCall source below c = .error e) :
    Blamed below c e := by
  refine blamed_read (by simp [hform, Form.required]) h fun func h => ?_
  refine blamed_require (by simp [hform, Form.required]) h fun list hlist h => ?_
  split at h
  · rename_i htype
    refine blamed_bind h (fun h => ?_) fun _ _ => blamed_pure
    obtain ⟨d, hd, hde⟩ := exists_of_mapM_eq_error h
    exact blamed_argument ⟨hform, list, hlist, htype, hd⟩ hde
  · exact blamed_bind h (.of_below (.of_field hlist)) fun _ _ => blamed_pure

/-- An error of a conversion is the fault of the node or comes from below. -/
theorem blamed_convertNode (h : convertNode source below c = .error e) : Blamed below c e := by
  unfold convertNode at h
  cases hform : c.form with
  | wrapper =>
    simp only [hform] at h
    split at h
    · rename_i inner hparts
      exact .of_below (.of_part (hparts ▸ List.mem_cons_self)) h
    · exact blamed_other h
  | assignment =>
    simp only [hform] at h
    exact blamed_assignment hform h
  | augmented | binary =>
    simp only [hform] at h
    refine blamed_read (by simp [hform, Form.required]) h fun _ h => ?_
    refine blamed_require (by simp [hform, Form.required]) h fun _ _ h => ?_
    exact blamed_read (by simp [hform, Form.required]) h fun _ => blamed_pure
  | function =>
    simp only [hform, convertFunction] at h
    refine blamed_require (by simp [hform, Form.required]) h fun _ _ h => ?_
    refine blamed_bind h blamed_list fun _ _ h => ?_
    refine blamed_bind h blamed_optional fun _ _ h => ?_
    exact blamed_body (by simp [hform, Form.required]) h fun _ => blamed_pure
  | classDef =>
    simp only [hform, convertClass] at h
    refine blamed_require (by simp [hform, Form.required]) h fun _ _ h => ?_
    refine blamed_bind h blamed_list fun _ _ h => ?_
    exact blamed_body (by simp [hform, Form.required]) h fun _ => blamed_pure
  | call =>
    simp only [hform] at h
    exact blamed_call hform h
  | attr =>
    simp only [hform] at h
    refine blamed_read (by simp [hform, Form.required]) h fun _ h => ?_
    exact blamed_require (by simp [hform, Form.required]) h fun _ _ => blamed_pure
  | subscript =>
    simp only [hform, convertSubscript] at h
    split at h
    · rename_i hnone
      cases h
      exact .of_self (.self (.value hform hnone))
    · rename_i value indices hparts
      have hin : ∀ d ∈ value :: indices, Inside d c := fun d hd => .of_part (hparts ▸ hd)
      refine blamed_bind h (.of_below (hin value (by simp))) fun _ _ h => ?_
      exact blamed_bind h (blamed_all fun d hd => hin d (by simp [hd])) fun _ _ => blamed_pure
  | identifier =>
    simp only [hform] at h
    cases h
  | comparison =>
    simp only [hform, convertComparison] at h
    split at h
    · rename_i hnone
      cases h
      exact .of_self (.self (.operand hform hnone))
    · rename_i left comparators hparts
      have hin : ∀ d ∈ left :: comparators, Inside d c := fun d hd => .of_part (hparts ▸ hd)
      refine blamed_bind h (.of_below (hin left (by simp))) fun _ _ h => ?_
      exact blamed_bind h (blamed_all fun d hd => hin d (by simp [hd])) fun _ _ => blamed_pure
  | boolean =>
    simp only [hform] at h
    refine blamed_require (by simp [hform, Form.required]) h fun _ _ h => ?_
    refine blamed_read (by simp [hform, Form.required]) h fun _ h => ?_
    exact blamed_read (by simp [hform, Form.required]) h fun _ => blamed_pure
  | unary =>
    simp only [hform] at h
    refine blamed_require (by simp [hform, Form.required]) h fun _ _ h => ?_
    exact blamed_read (by simp [hform, Form.required]) h fun _ => blamed_pure
  | negation =>
    simp only [hform] at h
    exact blamed_read (by simp [hform, Form.required]) h fun _ => blamed_pure
  | lambda =>
    simp only [hform] at h
    refine blamed_bind h blamed_list fun _ _ h => ?_
    exact blamed_read (by simp [hform, Form.required]) h fun _ => blamed_pure
  | string =>
    simp only [hform] at h
    split at h
    · exact blamed_other h
    · cases h
  | literal l =>
    simp only [hform] at h
    cases h
  | other =>
    simp only [hform] at h
    exact blamed_other h

/-! ## What a conversion that succeeds has read -/

theorem field?_isSome_of_converts {n : Node} (h : Converts source below c n) :
    ∀ name ∈ c.form.required, (c.field? name).isSome := by
  cases h with
  | other hform => rcases hform with ⟨hform, -⟩ | ⟨hform, -⟩ | hform <;> simp_all [Form.required]
  | constant hform => rcases hform with hform | ⟨hform, -⟩ <;> simp_all [Form.required]
  | _ => simp_all [Form.required]

theorem not_lacks_of_converts {n : Node} {reason : String} (h : Converts source below c n) :
    ¬ c.Lacks reason := by
  intro hlacks
  cases hlacks with
  | field hname hnone => simpa [hnone] using field?_isSome_of_converts h _ hname
  | value hform hnone | operand hform hnone => cases h <;> simp_all

theorem Argument.not_lacks {n : Node} {reason : String} (h : Argument source below d n) :
    ¬ d.LacksAsArgument reason := by
  intro hlacks
  cases h with
  | keyword htype hname hvalue _ =>
    cases hlacks with
    | field _ hfield hnone =>
      rcases List.mem_pair.1 hfield with rfl | rfl
      · cases hname.symm.trans hnone
      · cases hvalue.symm.trans hnone
    | value hsplat => simp [htype] at hsplat
  | splat htype hparts _ =>
    cases hlacks with
    | field hkeyword => simp [htype] at hkeyword
    | value _ hnone => cases hparts.symm.trans hnone
  | plain htype _ => cases hlacks <;> simp_all [isKeywordArgument]

/-- A node that was converted lacks nothing, and neither do its arguments. -/
theorem not_flawed_of_converts {n : Node} (h : Converts source below c n) : ¬ c.Flawed e := by
  intro hflawed
  cases hflawed with
  | self hlacks => exact not_lacks_of_converts h hlacks
  | argument hd hlacks =>
    obtain ⟨hform, list, hlist, htype, hd⟩ := hd
    cases h with
    | call _ _ harguments _ _ hnodes =>
      cases hlist.symm.trans harguments
      obtain ⟨m, -, hm⟩ := exists_mem_of_forall₂ hnodes hd
      exact hm.not_lacks hlacks
    | bareCall _ _ harguments _ hnot _ =>
      cases hlist.symm.trans harguments
      exact hnot htype
    | _ => simp_all

end step

/-! ## Whole texts -/

theorem not_deficient {root : Cst} (h : ∀ c, Inside c root → ∀ e, ¬ c.Flawed e) (d : Cst)
    (reason : String) : ¬ Deficient root d reason := by
  intro hd
  cases hd with
  | anywhere hd hlacks => exact h d hd _ (.self hlacks)
  | argument hc hd hlacks => exact h _ hc _ (.argument hd hlacks)

/-- An error of a conversion is the fault of a node that was met on the way. -/
theorem convert_eq_error {source : Array (Option Char)} {c : Cst} {e : Malformed}
    (h : convert source c = .error e) : ∃ d, (d = c ∨ Inside d c) ∧ d.Flawed e := by
  induction c using inductionOn with
  | step c ih =>
    rw [convert_eq] at h
    obtain hself | ⟨d, hd, hde⟩ := blamed_convertNode h
    · exact hself
    · obtain ⟨f, rfl | hf, hflawed⟩ := ih d hd hde
      · exact ⟨f, .inr hd, hflawed⟩
      · exact ⟨f, .inr (hf.trans hd), hflawed⟩

theorem convertModule_eq_error {source : Array (Option Char)} {root : Cst} {e : Malformed}
    (h : root.convertModule source = .error e) :
    ∃ d reason, Deficient root d reason ∧ e = ⟨reason, d.position⟩ := by
  obtain h | ⟨ns, -, h⟩ := bind_eq_error.1 h
  · obtain ⟨c, hc, hce⟩ := exists_of_mapM_eq_error h
    obtain ⟨d, rfl | hd, hflawed⟩ := convert_eq_error hce
    · exact hflawed.deficient (.of_part hc)
    · exact hflawed.deficient (hd.trans (.of_part hc))
  · cases h

/-- The node can be read and is not an error. -/
def Clean (c : Cst) : Prop := c.type ≠ "ERROR" ∧ c.label.unreadable = none

theorem firstError_eq_none {c : Cst} (h : c.Every Clean) : c.firstError = .ok none := by
  have hread : c.Every Readable := ⟨h.1.2, fun d hd => (h.2 d hd).2⟩
  rw [firstError_eq_find? hread, List.find?_eq_none.2]
  intro d hd
  simpa using (every_iff_nodes.1 h d hd).1

end Cst

/-- Reading a clean text: the tree or the error of its conversion. -/
theorem readSource_of_clean {parser : Parser} {source : String} {root : Cst}
    (hparsed : parser source = .parsed root) (hclean : root.Every Cst.Clean) (filePath : String) :
    readSource parser source filePath =
      ((root.convertModule (Text.slots source)).mapError Fault.malformed).map
        (fun tree => .tree tree (Text.lines source)) := by
  simp only [readSource, hparsed, Cst.firstError_eq_none hclean]
  cases root.convertModule (Text.slots source) <;> rfl

/-- A text without syntax errors in which no node lacks what its type requires has a tree. The error
of a text that has none is that of a deficient node, at its place. A tree is whole: every node that
is converted had what was required of it and has its own tree in it. -/
theorem readSource_deficient {parser : Parser} {source : String} {root : Cst}
    (hparsed : parser source = .parsed root) (hclean : root.Every Cst.Clean) (filePath : String) :
    ((∀ d reason, ¬ Cst.Deficient root d reason) →
      ∃ tree, readSource parser source filePath = .ok (.tree tree (Text.lines source))) ∧
    (∀ fault, readSource parser source filePath = .error fault →
      ∃ d reason, Cst.Deficient root d reason ∧
        fault = .malformed ⟨reason, .at (d.label.row + 1) d.label.column⟩) ∧
    ∀ result, readSource parser source filePath = .ok result →
      ∃ tree, result = .tree tree (Text.lines source) ∧
        ∀ d, Cst.Converted (Text.slots source) root d →
          (∀ e, ¬ d.Flawed e) ∧ ∃ n ∈ tree.nodes, d.convert (Text.slots source) = .ok n := by
  rw [readSource_of_clean hparsed hclean filePath]
  cases hmodule : root.convertModule (Text.slots source) with
  | error cause =>
    obtain ⟨d, reason, hd, rfl⟩ := Cst.convertModule_eq_error hmodule
    refine ⟨fun hnone => (hnone d reason hd).elim, ?_, nofun⟩
    rintro fault ⟨⟩
    exact ⟨d, reason, hd, rfl⟩
  | ok tree =>
    refine ⟨fun _ => ⟨tree, rfl⟩, nofun, ?_⟩
    rintro result ⟨⟩
    refine ⟨tree, rfl, fun d hd => ?_⟩
    obtain ⟨n, hn, hmem⟩ := Cst.converted_mem_nodes hmodule hd
    refine ⟨fun e => ?_, n, hmem, hn⟩
    rw [Cst.convert_eq] at hn
    exact Cst.not_flawed_of_converts (Cst.converts_of_ok hn)

/-- Of the calls `f(k=v)` and `f(k=)`, with the keyword on the second line, the first has a tree,
and the error of the second is that of its keyword. -/
theorem readSource_deficient_keyword :
    let word (field : String) (row column start : Int) : Cst :=
      .node { type := "identifier", field, row, column, start, stop := start + 1 } []
    let text (fields : List Cst) : Cst :=
      .node { type := "module" } [.node { type := "expression_statement" } [
        .node { type := "call" } [word "function" 0 0 0,
          .node { type := "argument_list", field := some "arguments", column := 1, start := 1 } [
            .node { type := "keyword_argument", row := 1, column := 7, start := 10 } fields]]]]
    let whole := text [word "name" 1 7 10, word "value" 1 9 12]
    let broken := text [word "name" 1 7 10]
    let parser (root : Cst) : Parser := fun _ => .parsed root
    (∃ tree lines, readSource (parser whole) "f(\n       k=v)" "a.py" =
      .ok (.tree tree lines)) ∧
    ∃ fault d reason, readSource (parser broken) "f(\n       k=)" "a.py" = .error fault ∧
      fault = .malformed ⟨"keyword_argument without 'value'", .at 2 7⟩ ∧
      Cst.Deficient broken d reason ∧
      fault = .malformed ⟨reason, .at (d.label.row + 1) d.label.column⟩ := by
  intro word text whole broken parser
  have hclean : whole.Every Cst.Clean ∧ broken.Every Cst.Clean := by
    simp [whole, broken, text, word, Cst.Clean, Cst.type, Cst.label]
  have hsound : whole.Every fun c => ∃ n, c.convertNode #[] (fun _ => .ok default) = .ok n := by
    simp only [whole, text, word, Cst.every_node, List.forall_mem_cons, List.not_mem_nil,
      false_implies, implies_true, and_true]
    exact ⟨⟨_, rfl⟩, ⟨_, rfl⟩, ⟨_, rfl⟩, ⟨_, rfl⟩, ⟨_, rfl⟩, ⟨_, rfl⟩, ⟨_, rfl⟩, ⟨_, rfl⟩⟩
  constructor
  · have hread : parser whole "f(\n       k=v)" = .parsed whole := rfl
    have hsane : ∀ c, Cst.Inside c whole → ∀ e, ¬ c.Flawed e := fun c hc e => by
      obtain ⟨n, hn⟩ := hsound.2 c hc
      exact Cst.not_flawed_of_converts (Cst.converts_of_ok hn)
    obtain ⟨tree, htree⟩ := (readSource_deficient hread hclean.1 "a.py").1 (Cst.not_deficient hsane)
    exact ⟨tree, _, htree⟩
  · have hread : parser broken "f(\n       k=)" = .parsed broken := rfl
    obtain ⟨d, reason, hd, hfault⟩ := (readSource_deficient hread hclean.2 "a.py").2.1 _ rfl
    exact ⟨_, d, reason, rfl, rfl, hd, hfault⟩

end ChainLint
