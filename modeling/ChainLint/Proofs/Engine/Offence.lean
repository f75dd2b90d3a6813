import ChainLint.Proofs.Cst.SourceOrder
import ChainLint.Proofs.Engine.Simulation
import ChainLint.Proofs.Sorted

/-!
# ChainLint.Proofs.Engine.Offence

What a check fails on.

* `Node.Offends`: a node that no source text has. `Offence`: the error for it.
* `accept_eq_error`, `accept_eq_ok_iff`: one node is refused for its offence, and for nothing else.
* `visit_outcome`: a visit fails as going through its nodes one by one does, whatever the rules
  find on the way.
* `StablySorted`: the order in which the arguments of a call are visited.
* `check_error_iff_first`: the first node in the order of the visit that offends decides the error.
-/

namespace ChainLint

/-- Coordinates that are not whole or too small, no target to assign to, or an unknown kind. -/
def Node.Offends (n : Node) : Prop :=
  ¬ n.position.Valid ∨ (∃ p hint value, n = .assign p [] hint value) ∨
    ∃ p word, n = .unknown p word

/-- The error for a node. A bad position comes before anything else. -/
inductive Offence : Node → TreeError → Prop where
  | position {n : Node} : ¬ n.position.Valid →
      Offence n (.malformed ⟨n.kind.text ++ " node has an invalid position", n.position⟩)
  | target {p : Position} {hint : Option Node} {value : Node} : p.Valid →
      Offence (.assign p [] hint value) (.malformed ⟨"assignment without a target", p⟩)
  | kind {p : Position} {word : String} : p.Valid →
      Offence (.unknown p word) (.unhandled word p)

/-- The first of some nodes that offends has the error `e`. -/
def FirstOffence (ns : List Node) (e : TreeError) : Prop :=
  ∃ before n after, ns = before ++ n :: after ∧ (∀ m ∈ before, ¬ m.Offends) ∧ Offence n e

/-! ## One node -/

theorem accept_eq_ok_iff {n : Node} : accept n = .ok () ↔ ¬ n.Offends := by
  have hknown : n.isKnown = true ↔ ¬ ∃ p word, n = .unknown p word := by
    cases n with
    | unknown p word => simp [Node.isKnown]
    | _ => simp [Node.isKnown]
  rw [accept_eq_ok, inspect_eq_ok, Node.Offends, hknown, not_or, not_or, not_not, and_assoc]
  simp only [not_exists, ne_eq]

theorem accept_of_not_valid {n : Node} (h : ¬ n.position.Valid) :
    accept n = .error (.malformed ⟨n.kind.text ++ " node has an invalid position", n.position⟩) := by
  unfold accept
  rw [inspect_of_not_valid h]
  rfl

theorem accept_eq_error {n : Node} {e : TreeError} : accept n = .error e ↔ Offence n e := by
  constructor
  · intro h
    by_cases hvalid : n.position.Valid
    · unfold accept at h
      rw [inspect_of_valid hvalid] at h
      cases n with
      | assign p targets hint value =>
        cases targets with
        | nil =>
          cases h
          exact .target hvalid
        | cons t ts => cases h
      | unknown p word =>
        cases h
        exact .kind hvalid
      | _ => cases h
    · rw [accept_of_not_valid hvalid] at h
      cases h
      exact .position hvalid
  · intro h
    cases h with
    | position hbad => exact accept_of_not_valid hbad
    | @target p hint value hvalid =>
      have hinspect := inspect_of_valid (n := .assign p [] hint value) hvalid
      unfold accept
      rw [hinspect]
      rfl
    | @kind p word hvalid =>
      have hinspect := inspect_of_valid (n := .unknown p word) hvalid
      unfold accept
      rw [hinspect]
      rfl

/-! ## The whole visit -/

theorem visitAll_outcome {ordered : List Rule} {cs : List Node}
    (h : ∀ c ∈ cs, ∀ b, (visit ordered false b c).map (fun _ => ()) = forM c.nodes accept)
    (b : Bindings) :
    (visitAll ordered b cs).map (fun _ => ()) = forM (cs.flatMap Node.nodes) accept := by
  induction cs generalizing b with
  | nil => rfl
  | cons c cs ih =>
    rw [visitAll_cons, List.flatMap_cons, List.forM_append, ← h c (by simp) b]
    cases visit ordered false b c with
    | error e => rfl
    | ok r =>
      show _ = forM (cs.flatMap Node.nodes) accept
      rw [← ih (fun d hd => h d (by simp [hd])) r.1]
      show (visitAll ordered r.1 cs >>= _).map _ = _
      cases visitAll ordered r.1 cs <;> rfl

/-- A visit comes to an end, or to an error, as accepting its nodes in order does. -/
theorem visit_outcome (ordered : List Rule) (isRoot : Bool) (b : Bindings) (n : Node) :
    (visit ordered isRoot b n).map (fun _ => ()) = forM n.nodes accept := by
  induction n using Node.inductionOn generalizing isRoot b with
  | step n ih =>
    rw [visit_eq_visitAll, Node.nodes_eq, List.forM_cons]
    cases accept n with
    | error e => rfl
    | ok u =>
      have hbelow : ∀ start, (visitAll ordered start n.children).map (fun _ => ()) =
          forM (n.children.flatMap Node.nodes) accept :=
        visitAll_outcome (fun c hc b => ih c hc false b)
      show _ = forM (n.children.flatMap Node.nodes) accept
      rw [← hbelow (if n.isScope && !isRoot then Bindings.empty else b)]
      show (visitAll ordered _ n.children >>= _).map _ = _
      cases visitAll ordered (if n.isScope && !isRoot then Bindings.empty else b) n.children <;> rfl

theorem check_eq_error_iff_first {rules : List Rule} {root : Node} {e : TreeError} :
    check rules root = .error e ↔ FirstOffence root.nodes e := by
  have houtcome := visit_outcome (firingOrder rules) true .empty root
  rw [check_eq_error, FirstOffence]
  simp only [← accept_eq_ok_iff, ← accept_eq_error, ← forM_eq_error, ← houtcome]
  cases visit (firingOrder rules) true .empty root <;> simp [Except.map]

theorem check_isError_iff {rules : List Rule} {root : Node} :
    (∃ e, check rules root = .error e) ↔ ∃ n ∈ root.nodes, n.Offends := by
  have houtcome := visit_outcome (firingOrder rules) true .empty root
  simp only [check_eq_error]
  rw [← not_iff_not]
  push Not
  simp only [← accept_eq_ok_iff, ← forM_eq_ok, ← houtcome]
  cases visit (firingOrder rules) true .empty root <;> simp [Except.map]

/-! ## The order of the visit -/

/-- Nodes by position, those at one position in the order in which they were given. -/
structure StablySorted (given sorted : List Node) : Prop where
  perm : sorted.Perm given
  inOrder : InOrder (sorted.map Node.position)
  stable : ∀ p, sorted.filter (fun n => n.position = p) = given.filter (fun n => n.position = p)

theorem stablySorted_byPosition (ns : List Node) : StablySorted ns (Node.byPosition ns) where
  perm := sortBy_perm _ ns
  inOrder := by
    rw [InOrder, List.pairwise_map, Node.byPosition]
    refine sortBy_pairwise ?_ ?_ ns
    · exact fun a b c => Position.le_trans
    · exact fun a b => Position.le_total a.position b.position
  stable p := by
    refine sortBy_filter (fun a b ha hb => ?_) ns
    simp only [decide_eq_true_eq] at ha hb
    rw [ha, hb]
    exact Position.le_refl p

/-- What a check fails on. It fails exactly on trees in which some node offends, with the error of
the node that a visit meets first: a node comes before the nodes below it, and these in the order
of the children, where the arguments and keywords of a call are sorted by their positions, be these
valid or not. The rules make no difference to that. -/
theorem check_error_iff_first (root : Node) :
    (∀ rules, (∃ e, check rules root = .error e) ↔ ∃ n ∈ root.nodes, n.Offends) ∧
      (∀ rules e, check rules root = .error e ↔ FirstOffence root.nodes e) ∧
      (∀ rules rules' e, check rules root = .error e ↔ check rules' root = .error e) ∧
      root.nodes = root.entries.map (fun s => s.node) ∧
      ∀ n ∈ root.nodes, n.nodes = n :: n.children.flatMap Node.nodes ∧
        ∀ p f args keywords, n = .call p f args keywords →
          ∃ sorted, n.children = f :: sorted ∧ StablySorted (args ++ keywords) sorted := by
  refine ⟨fun rules => check_isError_iff, fun rules e => check_eq_error_iff_first,
    fun rules rules' e => check_eq_error_iff rules rules' root e,
    (root.trail_entries none []).symm, fun n hn => ⟨n.nodes_eq, ?_⟩⟩
  rintro p f args keywords rfl
  exact ⟨_, rfl, stablySorted_byPosition (args ++ keywords)⟩

end ChainLint
