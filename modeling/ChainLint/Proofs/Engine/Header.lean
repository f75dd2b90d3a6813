import ChainLint.Proofs.Engine.Mask

/-!
# ChainLint.Proofs.Engine.Header

What selections in the header of a definition are checked against.

* `Node.header`: the parameters of a function, and the bases of a class. They come before the body
  and belong, like it, to the scope of the definition.
* `InOrder`: of two stops, the later one is not further left. `trail_inOrder`: so it is in a visit.
* `HeaderPlace`: a place that belongs to a definition and stands in a part of its header.
* `header_selection_reported_iff`: a selection in a header is reported for the assignments of that
  header alone. What has been bound around the definition makes no difference.
-/

namespace ChainLint
namespace Node

/-- What a definition has before its body. -/
def header : Node → List Node
  | .function _ _ parameters _ => parameters
  | .classDef _ _ bases _ => bases
  | _ => []

theorem isScope_of_header {d : Node} {i : Nat} (h : i < d.header.length) : d.isScope = true := by
  cases d with
  | function | classDef => rfl
  | _ => cases h

/-! ## The order of places -/

/-- Where the places of two stops part, the later one does not go further left. -/
def InOrder (s t : Stop) : Prop :=
  ∀ q j i u v, s.place = q ++ j :: u → t.place = q ++ i :: v → j ≤ i

/-- Two places that part below `place`. -/
theorem le_of_parted {place q u v u' v' : Place} {j i k k' : Nat} (hlt : k < k')
    (hs : place ++ k :: u' = q ++ j :: u) (ht : place ++ k' :: v' = q ++ i :: v) : j ≤ i := by
  rcases List.append_eq_append_iff.1 hs with ⟨w, rfl, hw⟩ | ⟨w, rfl, hw⟩
  · rw [List.append_assoc, List.append_cancel_left_eq] at ht
    cases w with
    | nil =>
      obtain ⟨rfl, -⟩ := List.cons.inj hw
      obtain ⟨rfl, -⟩ := List.cons.inj ht
      exact Nat.le_of_lt hlt
    | cons x w =>
      -- The way to `q` begins as both places do, but they part at its first step.
      obtain ⟨rfl, -⟩ := List.cons.inj hw
      obtain ⟨rfl, -⟩ := List.cons.inj ht
      exact absurd hlt (Nat.lt_irrefl _)
  · rw [List.append_assoc, List.append_cancel_left_eq] at ht
    cases w with
    | nil =>
      obtain ⟨rfl, -⟩ := List.cons.inj hw
      obtain ⟨rfl, -⟩ := List.cons.inj ht
      exact Nat.le_of_lt hlt
    | cons x w =>
      obtain ⟨rfl, -⟩ := List.cons.inj hw
      obtain ⟨rfl, -⟩ := List.cons.inj ht
      exact Nat.le_refl _

/-- A place, and another one below it. -/
theorem eq_of_below {place q u v w : Place} {j i : Nat} (hs : place = q ++ j :: u)
    (ht : place ++ w = q ++ i :: v) : j = i := by
  rw [hs, List.append_assoc, List.append_cancel_left_eq] at ht
  exact (List.cons.inj ht).1

theorem trailBelow_inOrder {parent : Node} {place : Place} {cs : List Node} {k : Nat}
    (h : ∀ c ∈ cs, ∀ i, (c.trail (some parent) (place ++ [i])).Pairwise InOrder) :
    (trailBelow parent place k cs).Pairwise InOrder := by
  induction cs generalizing k with
  | nil => exact .nil
  | cons c cs ih =>
    rw [trailBelow_cons, List.pairwise_append]
    refine ⟨h c List.mem_cons_self k, ih fun d hd => h d (List.mem_cons_of_mem c hd), ?_⟩
    intro s hs t ht q j i u v hsq htq
    obtain ⟨x, hx, hxt⟩ := List.mem_flatMap.1 ht
    obtain ⟨u', hu', -⟩ := place_of_mem_trail hs
    obtain ⟨v', hv', -⟩ := place_of_mem_trail hxt
    have hlt : k < x.2 := (List.mem_zipIdx hx).1
    rw [hu', List.append_assoc] at hsq
    rw [hv', List.append_assoc] at htq
    exact le_of_parted hlt hsq htq

theorem trail_inOrder (n : Node) (parent : Option Node) (place : Place) :
    (n.trail parent place).Pairwise InOrder := by
  induction n using inductionOn generalizing parent place with
  | step n ih =>
    have hall : ∀ t ∈ n.trail parent place, ∃ w, t.place = place ++ w := by
      intro t ht
      obtain ⟨w, hw, -⟩ := place_of_mem_trail ht
      exact ⟨w, hw⟩
    rw [trail_eq, List.cons_append] at hall ⊢
    obtain ⟨-, hall⟩ := List.forall_mem_cons.1 hall
    rw [List.pairwise_cons, List.pairwise_append]
    refine ⟨?_, trailBelow_inOrder fun c hc i => ih c hc (some n) (place ++ [i]),
      List.pairwise_singleton _ _, ?_⟩
    · intro t ht q j i u v hs htq
      obtain ⟨w, hw⟩ := hall t ht
      rw [hw] at htq
      exact Nat.le_of_eq (eq_of_below hs htq)
    · intro s hs t ht q j i u v hsq htq
      obtain rfl := List.mem_singleton.1 ht
      obtain ⟨w, hw⟩ := hall s (List.mem_append_left _ hs)
      rw [hw] at hsq
      exact Nat.le_of_eq (eq_of_below htq hsq).symm

/-- Nothing stands further right than a node when it is entered. -/
theorem inOrder_of_mem_stopsBefore {root n : Node} {place : Place} {a : Stop}
    (hat : root.at? place = some n) (ha : a ∈ root.stopsBefore place) {q u v : Place} {j i : Nat}
    (hq : a.place = q ++ j :: u) (hplace : place = q ++ i :: v) : j ≤ i := by
  obtain ⟨s, hs, henter, -, hsplace⟩ := exists_mem_trail .enter none [] hat
  obtain rfl : s.place = place := hsplace
  obtain ⟨pre, post, hstops⟩ := List.append_of_mem hs
  rw [stopsBefore_eq hstops henter] at ha
  have hpairwise := root.trail_inOrder none []
  rw [hstops, List.pairwise_append] at hpairwise
  exact hpairwise.2.2 a ha s List.mem_cons_self q j i u v hq hplace

/-! ## Headers -/

/-- The place belongs to the definition at `scope`, and stands in one of the parts of the definition
up to the one at `i`. -/
def HeaderPlace (root : Node) (scope : Place) (i : Nat) (place : Place) : Prop :=
  root.scopeOf place = scope ∧ ∃ j u, j ≤ i ∧ place = scope ++ j :: u

theorem scopeOf_prefix (root : Node) (place : Place) : root.scopeOf place <+: place := by
  obtain ⟨outer, houter⟩ := root.openScopes_dropLast place
  have hmem : root.scopeOf place ∈ root.openScopes place.dropLast := by
    rw [houter]
    exact List.mem_cons_self
  exact (prefix_of_mem_openScopes hmem).trans (List.dropLast_prefix place)

/-- An assignment of the definition that is left before a part of its header is entered stands in
the header. -/
theorem headerPlace_of_assigns {root d n : Node} {scope t : Place} {i : Nat} {a : Stop}
    {targets : List Node} {value : Node} (hd : root.at? scope = some d) (hscope : d.isScope = true)
    (hat : root.at? (scope ++ i :: t) = some n) (ha : a ∈ root.stopsBefore (scope ++ i :: t))
    (hassigns : a.Assigns targets value) (hown : root.scopeOf a.place = scope) :
    root.HeaderPlace scope i a.place := by
  obtain ⟨w, hw⟩ := root.scopeOf_prefix a.place
  rw [hown] at hw
  cases w with
  | nil =>
    -- The definition itself is no assignment.
    obtain ⟨-, p, hint, hnode⟩ := hassigns
    have hhere := at?_of_mem_stops ((List.takeWhile_sublist _).subset ha)
    rw [← hw, List.append_nil, hd, hnode] at hhere
    cases hhere
    cases hscope
  | cons j u => exact ⟨hown, j, u, inOrder_of_mem_stopsBefore hat ha hw.symm rfl, hw.symm⟩

end Node

/-! ## Selections in headers -/

theorem MaskChain.assigns {as : List Stop} {x : String} (h : MaskChain as x) :
    ∀ a ∈ as, ∃ targets value, a.Assigns targets value := by
  induction h with
  | start ha => exact List.forall_mem_singleton.2 ⟨_, _, ha⟩
  | pass _ ha _ ih => exact List.forall_mem_append.2 ⟨ih, List.forall_mem_singleton.2 ⟨_, _, ha⟩⟩

/-- A selection is reported when one of its indices is a mask in its context. -/
theorem selection_reported_iff_context {rules : List Rule} (hrules : rules.Sublist catalog)
    (hmask : selectionWithMaskVariable ∈ rules) {root : Node} {reported : List (Place × Finding)}
    (hreport : report rules root = .ok reported) {place : Place} {p : Position} {value : Node}
    {indices : List Node} (hat : root.at? place = some (.subscript p value indices)) :
    (∃ f, (place, f) ∈ reported ∧ f.ruleId = "PMC007") ↔
      ∃ x, Names x indices ∧
        (root.boundAfter (root.scopeOf place) (root.stopsBefore place)).has x .mask = true := by
  obtain ⟨s, hs, henter, hnode, hplace⟩ := Node.exists_mem_trail .enter none [] hat
  obtain rfl : s.place = place := hplace
  have hentry : s ∈ root.entries := List.mem_filter.2 ⟨hs, decide_eq_true henter⟩
  calc (∃ f, (s.place, f) ∈ reported ∧ f.ruleId = "PMC007")
      ↔ ∃ f ∈ fire (firingOrder rules) s.node (root.contextAt s.place),
          f.ruleId = selectionWithMaskVariable.id := by
        simp only [mem_report_iff hreport hentry]
        rfl
    _ ↔ ∃ x, Names x indices ∧ (root.contextAt s.place).has x .mask = true := by
        rw [mem_fire_iff (orderly_of_sublist hrules) hmask, hnode]
        exact selection_kept_iff hrules hmask
    _ ↔ _ := by rw [Node.contextAt, Node.homeOf_eq_scopeOf hat rfl]

/-- A selection in the header of a definition, and in no scope inside that header, is reported
exactly when a chain of assignments of the same header, left before the selection is entered, ends
at a name among its indices. In a header without assignments none is reported, whatever has been
bound around the definition. -/
theorem header_selection_reported_iff {rules : List Rule} (hrules : rules.Sublist catalog)
    (hmask : selectionWithMaskVariable ∈ rules) {root : Node} (hroot : root.Every Accepted) :
    ∃ reported, report rules root = .ok reported ∧
      check rules root = .ok (reported.map Prod.snd) ∧
      ∀ scope d i t p value indices, root.at? scope = some d → i < d.header.length →
        root.at? (scope ++ i :: t) = some (.subscript p value indices) →
        root.scopeOf (scope ++ i :: t) = scope →
        ((∃ f, (scope ++ i :: t, f) ∈ reported ∧ f.ruleId = "PMC007") ↔
          ∃ x as, Names x indices ∧ MaskChain as x ∧
            (∀ a ∈ as, root.HeaderPlace scope i a.place) ∧
            as.Sublist (root.stopsBefore (scope ++ i :: t))) ∧
        ((∀ j u n, j < d.header.length → root.at? (scope ++ j :: u) = some n → n.kind ≠ .assign) →
          ¬ ∃ f, (scope ++ i :: t, f) ∈ reported ∧ f.ruleId = "PMC007") := by
  obtain ⟨reported, hreport⟩ := report_isOk_iff.2 hroot
  have hcheck : check rules root = .ok (reported.map Prod.snd) := by
    rw [check_eq_report, hreport]
    rfl
  refine ⟨reported, hreport, hcheck, ?_⟩
  intro scope d i t p value indices hd hi hat hown
  have hplaces : ∀ as x, MaskChain as x → as.Sublist (root.stopsBefore (scope ++ i :: t)) →
      (∀ a ∈ as, root.scopeOf a.place = scope) → ∀ a ∈ as, root.HeaderPlace scope i a.place := by
    intro as x hchain hsublist hscope a ha
    obtain ⟨targets, value, hassigns⟩ := hchain.assigns a ha
    exact Node.headerPlace_of_assigns hd (Node.isScope_of_header hi) hat (hsublist.subset ha)
      hassigns (hscope a ha)
  have hiff : (∃ f, (scope ++ i :: t, f) ∈ reported ∧ f.ruleId = "PMC007") ↔
      ∃ x as, Names x indices ∧ MaskChain as x ∧
        (∀ a ∈ as, root.HeaderPlace scope i a.place) ∧
        as.Sublist (root.stopsBefore (scope ++ i :: t)) := by
    rw [selection_reported_iff_context hrules hmask hreport hat, hown]
    simp only [has_boundAfter_iff]
    constructor
    · rintro ⟨x, hx, as, hchain, hscope, hsublist⟩
      exact ⟨x, as, hx, hchain, hplaces as x hchain hsublist hscope, hsublist⟩
    · rintro ⟨x, as, hx, hchain, hheader, hsublist⟩
      exact ⟨x, hx, as, hchain, fun a ha => (hheader a ha).1, hsublist⟩
  refine ⟨hiff, fun hnone hreported => ?_⟩
  obtain ⟨x, as, -, hchain, hheader, hsublist⟩ := hiff.1 hreported
  obtain ⟨a, ha⟩ := List.exists_mem_of_ne_nil as hchain.ne_nil
  obtain ⟨-, j, u, hj, hplace⟩ := hheader a ha
  obtain ⟨targets, value, -, q, hint, hnode⟩ := hchain.assigns a ha
  have hstop := (List.takeWhile_sublist _).subset (hsublist.subset ha)
  have hassign := Node.at?_of_mem_stops hstop
  rw [hplace] at hassign
  refine hnone j u a.node (Nat.lt_of_le_of_lt hj hi) hassign ?_
  rw [hnode]
  rfl

namespace Node.Sample

/-- `m = a > 0`. -/
def mask : Node := .assign (.at 1 0) [.name (.at 1 0) "m"] none
  (.compare (.at 1 4) (.name (.at 1 4) "a") [">"] [.constant (.at 1 8) .number "0"])

/-- `df[m]`, in the second line. -/
def selection : Node := .subscript (.at 2 8) (.name (.at 2 8) "df") [.name (.at 2 11) "m"]

/-- `x=df[m]`. -/
def parameter : Node := .other (.at 2 6) "default_parameter" [.name (.at 2 6) "x", selection]

/-- The mask, and a function that has the parameter. -/
def script : Node := .module (.at 1 0)
  [mask, .function (.at 2 0) "f" [parameter] [.other (.at 3 4) "pass_statement" []]]

theorem accepted_script : script.Every Accepted := by
  simp only [script, mask, parameter, selection, every_module, every_assign, every_compare,
    every_name, every_constant, every_subscript, every_function, every_other, Option.toList_none,
    List.append_nil, List.cons_append, List.nil_append, List.forall_mem_cons, List.not_mem_nil,
    false_imp_iff, implies_true, and_true]
  repeat' constructor

end Node.Sample

theorem header_selection_reported_iff_default :
    ∃ reported, report [selectionWithMaskVariable] Node.Sample.script = .ok reported ∧
      ¬ ∃ f, ([1, 0, 1], f) ∈ reported ∧ f.ruleId = "PMC007" := by
  obtain ⟨reported, hreport, -, hall⟩ := header_selection_reported_iff
    (List.sublist_append_right (catalog.take 6) [selectionWithMaskVariable])
    (List.mem_singleton_self _) Node.Sample.accepted_script
  have hplain : Node.Sample.parameter.Every (fun n => n.kind ≠ .assign) := by
    simp [Node.Sample.parameter, Node.Sample.selection, Node.kind]
  refine ⟨reported, hreport, (hall [1] _ 0 [1] _ _ _ rfl (Nat.zero_lt_one) rfl rfl).2 ?_⟩
  intro j u n hj hn
  obtain rfl : j = 0 := Nat.lt_one_iff.1 hj
  exact hplain u n hn

/-- A mask of the enclosing scope is not seen in the header of a function. -/
theorem default_selection_not_reported :
    Node.Sample.script.Every Accepted ∧
      Node.Sample.script.at? [1, 0, 1] = some Node.Sample.selection ∧
      Node.Sample.script.scopeOf [1, 0, 1] = [1] ∧
      (Node.Sample.script.boundAfter (Node.Sample.script.scopeOf [1])
        (Node.Sample.script.stopsBefore [1])).has "m" .mask = true ∧
      check catalog Node.Sample.script = .ok [] :=
  ⟨Node.Sample.accepted_script, rfl, rfl, by decide +kernel, by decide +kernel⟩

end ChainLint
