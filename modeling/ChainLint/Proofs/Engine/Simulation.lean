import ChainLint.Proofs.Engine.Machine

/-!
# ChainLint.Proofs.Engine.Simulation

Two checks of one tree, side by side.

* `visitAll`: the visit of a list of nodes that follow each other in one scope.
* `Related`: two visits fail with the same error, or both end, with related bindings and related
  findings.
* `Simulation`: what relations on bindings and on findings have to keep at one node.
* `related_visitAll`, `related_visit`: then a visit keeps them.
* `check_eq_error_iff`: a check fails with the same error whatever the rules.
-/

namespace ChainLint

/-- The bindings of a scope after the visit of `cs`, and the findings in them. -/
def visitAll (ordered : List Rule) (b : Bindings) (cs : List Node) :
    Except TreeError (Bindings × List Finding) :=
  cs.foldlM (visitChild ordered) (b, [])

section visitAll

variable {ordered : List Rule}

@[simp] theorem visitAll_nil (b : Bindings) : visitAll ordered b [] = .ok (b, []) := rfl

theorem foldlM_visitChild (b : Bindings) (acc : List Finding) (cs : List Node) :
    cs.foldlM (visitChild ordered) (b, acc) =
      (visitAll ordered b cs).map (fun r => (r.1, acc ++ r.2)) := by
  induction cs generalizing b acc with
  | nil =>
    rw [visitAll_nil, List.foldlM_nil, Except.map, List.append_nil]
    rfl
  | cons c cs ih =>
    rw [visitAll, List.foldlM_cons, List.foldlM_cons, visitChild, visitChild]
    cases hc : visit ordered false b c with
    | error e => rfl
    | ok r =>
      show cs.foldlM (visitChild ordered) (r.1, acc ++ r.2) =
        (cs.foldlM (visitChild ordered) (r.1, [] ++ r.2)).map (fun r => (r.1, acc ++ r.2))
      rw [ih r.1 (acc ++ r.2), ih r.1 ([] ++ r.2)]
      cases visitAll ordered r.1 cs with
      | error e => rfl
      | ok r' => simp [Except.map]

theorem visitAll_cons (b : Bindings) (c : Node) (cs : List Node) :
    visitAll ordered b (c :: cs) = (do
      let (b₁, found) ← visit ordered false b c
      let (b₂, more) ← visitAll ordered b₁ cs
      return (b₂, found ++ more)) := by
  rw [visitAll, List.foldlM_cons, visitChild]
  cases hc : visit ordered false b c with
  | error e => rfl
  | ok r =>
    show cs.foldlM (visitChild ordered) (r.1, [] ++ r.2) = _
    rw [foldlM_visitChild, List.nil_append]
    rfl

theorem visitAll_append (b : Bindings) (cs ds : List Node) :
    visitAll ordered b (cs ++ ds) = (do
      let (b₁, found) ← visitAll ordered b cs
      let (b₂, more) ← visitAll ordered b₁ ds
      return (b₂, found ++ more)) := by
  rw [visitAll, List.foldlM_append]
  show (visitAll ordered b cs >>= fun r => ds.foldlM (visitChild ordered) r) = _
  cases visitAll ordered b cs with
  | error e => rfl
  | ok r => exact foldlM_visitChild r.1 r.2 ds

/-- The visit of a node: its findings come first, those of its children after it. -/
theorem visit_eq_visitAll (isRoot : Bool) (b : Bindings) (n : Node) :
    visit ordered isRoot b n = (do
      accept n
      let start := if n.isScope && !isRoot then Bindings.empty else b
      let (stop, below) ← visitAll ordered start n.children
      return (if n.isScope && !isRoot then b else n.bindTargets stop,
        fire ordered n start ++ below)) :=
  visit_eq ordered isRoot b n

end visitAll

/-! ## Relations between two visits -/

def Related (B : Bindings → Bindings → Prop) (F : List Finding → List Finding → Prop) :
    Except TreeError (Bindings × List Finding) → Except TreeError (Bindings × List Finding) → Prop
  | .ok r, .ok r' => B r.1 r'.1 ∧ F r.2 r'.2
  | .error e, .error e' => e = e'
  | _, _ => False

/-- Two orders of rules keep `B` and `F` at every node. -/
structure Simulation (ordered ordered' : List Rule) (B : Bindings → Bindings → Prop)
    (F : List Finding → List Finding → Prop) : Prop where
  nil : F [] []
  append : ∀ {f f' g g'}, F f f' → F g g' → F (f ++ g) (f' ++ g')
  empty : B .empty .empty
  fires : ∀ (n : Node) {b b'}, B b b' → F (fire ordered n b) (fire ordered' n b')
  binds : ∀ (n : Node) {b b'}, B b b' → B (n.bindTargets b) (n.bindTargets b')

section simulation

variable {ordered ordered' : List Rule} {B : Bindings → Bindings → Prop}
  {F : List Finding → List Finding → Prop}

theorem Related.cases {x y : Except TreeError (Bindings × List Finding)}
    (h : Related B F x y) :
    (∃ e, x = .error e ∧ y = .error e) ∨
      ∃ r r', x = .ok r ∧ y = .ok r' ∧ B r.1 r'.1 ∧ F r.2 r'.2 := by
  cases x with
  | error e =>
    cases y with
    | error e' => exact .inl ⟨e, rfl, congrArg _ (Eq.symm h)⟩
    | ok r' => exact h.elim
  | ok r =>
    cases y with
    | error e' => exact h.elim
    | ok r' => exact .inr ⟨r, r', rfl, rfl, h⟩

theorem related_visitAll (h : Simulation ordered ordered' B F) {cs : List Node}
    (hcs : ∀ c ∈ cs, ∀ {b b'}, B b b' →
      Related B F (visit ordered false b c) (visit ordered' false b' c))
    {b b' : Bindings} (hb : B b b') :
    Related B F (visitAll ordered b cs) (visitAll ordered' b' cs) := by
  induction cs generalizing b b' with
  | nil => exact ⟨hb, h.nil⟩
  | cons c cs ih =>
    rw [visitAll_cons, visitAll_cons]
    obtain ⟨e, hx, hy⟩ | ⟨r, r', hx, hy, hr, hf⟩ := (hcs c (by simp) hb).cases
    · rw [hx, hy]
      exact rfl
    · rw [hx, hy]
      obtain ⟨e, hx, hy⟩ | ⟨s, s', hx, hy, hs, hg⟩ :=
        (ih (fun d hd => hcs d (by simp [hd])) hr).cases
      · simp only [bind, Except.bind, hx, hy]
        exact rfl
      · simp only [bind, Except.bind, hx, hy]
        exact ⟨hs, h.append hf hg⟩

theorem related_visit (h : Simulation ordered ordered' B F) (n : Node) (isRoot : Bool)
    {b b' : Bindings} (hb : B b b') :
    Related B F (visit ordered isRoot b n) (visit ordered' isRoot b' n) := by
  induction n using Node.inductionOn generalizing isRoot b b' with
  | step n ih =>
    rw [visit_eq_visitAll, visit_eq_visitAll]
    cases accept n with
    | error e => exact rfl
    | ok _ =>
      have hcs : ∀ c ∈ n.children, ∀ {b b'}, B b b' →
          Related B F (visit ordered false b c) (visit ordered' false b' c) :=
        fun c hc _ _ hb => ih c hc false hb
      cases hopens : (n.isScope && !isRoot) with
      | true =>
        obtain ⟨e, hx, hy⟩ | ⟨r, r', hx, hy, -, hf⟩ := (related_visitAll h hcs h.empty).cases
        · simp only [if_true, bind, Except.bind, hx, hy]
          exact rfl
        · simp only [if_true, bind, Except.bind, hx, hy]
          exact ⟨hb, h.append (h.fires n h.empty) hf⟩
      | false =>
        obtain ⟨e, hx, hy⟩ | ⟨r, r', hx, hy, hr, hf⟩ := (related_visitAll h hcs hb).cases
        · simp only [Bool.false_eq_true, if_false, bind, Except.bind, hx, hy]
          exact rfl
        · simp only [Bool.false_eq_true, if_false, bind, Except.bind, hx, hy]
          exact ⟨h.binds n hr, h.append (h.fires n hb) hf⟩

end simulation

/-! ## Errors -/

theorem check_eq_ok {rules : List Rule} {root : Node} {found : List Finding} :
    check rules root = .ok found ↔
      ∃ b, visit (firingOrder rules) true .empty root = .ok (b, found) := by
  rw [check, bind_eq_ok]
  constructor
  · rintro ⟨⟨b, f⟩, hv, hf⟩
    cases hf
    exact ⟨b, hv⟩
  · rintro ⟨b, hv⟩
    exact ⟨(b, found), hv, rfl⟩

theorem check_eq_error {rules : List Rule} {root : Node} {e : TreeError} :
    check rules root = .error e ↔ visit (firingOrder rules) true .empty root = .error e := by
  rw [check]
  cases visit (firingOrder rules) true .empty root with
  | error e' => simp [bind, Except.bind]
  | ok r => simp [bind, Except.bind, pure, Except.pure]

/-- What a check fails with is a matter of the tree alone. -/
theorem check_eq_error_iff (rules rules' : List Rule) (root : Node) (e : TreeError) :
    check rules root = .error e ↔ check rules' root = .error e := by
  have h : Simulation (firingOrder rules) (firingOrder rules') (fun _ _ => True)
      (fun _ _ => True) := by
    constructor <;> simp
  rw [check_eq_error, check_eq_error]
  obtain ⟨e', hx, hy⟩ | ⟨r, r', hx, hy, -⟩ := (related_visit h root true trivial).cases
  · rw [hx, hy]
  · rw [hx, hy]
    exact ⟨nofun, nofun⟩

end ChainLint
