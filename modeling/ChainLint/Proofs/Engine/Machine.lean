import ChainLint.Engine.Check
import ChainLint.Proofs.Outcome
import ChainLint.Proofs.Tree.Trail

/-!
# ChainLint.Proofs.Engine.Machine

The check of a tree, stop by stop. A machine keeps a stack with the bindings of the scopes that
are open and the findings so far, each with the place of the node it is reported for.

* `Machine`, `step`, `run`: a scope other than the root is pushed when it is entered and popped
  when it is left; rules fire on entering, an assignment binds on leaving.
* `report`: the run over a whole tree.
* `check_eq_report`: `check` gives exactly the findings of that run, errors included.
* `report_isOk_iff`: the run ends without an error exactly when every node is acceptable.
-/

namespace ChainLint

/-- A node that passes inspection and whose kind is known. -/
def accept (n : Node) : Except TreeError Unit := do
  inspect n
  match n with
  | .unknown p kind => .error (.unhandled kind p)
  | _ => .ok ()

abbrev Accepted (n : Node) : Prop := accept n = .ok ()

structure Machine where
  /-- Bindings of the open scopes, the innermost one first. -/
  scopes : List Bindings
  found : List (Place × Finding)

/-- The stop is at a scope other than the root. -/
def Stop.opens (s : Stop) : Bool := s.node.isScope && !s.place.isEmpty

namespace Machine

def start : Machine := ⟨[.empty], []⟩

def current (m : Machine) : Bindings := m.scopes.headD .empty

/-- Opens the scope of a node, if it has one. -/
def push (m : Machine) (s : Stop) : Machine :=
  if s.opens then { m with scopes := .empty :: m.scopes } else m

def enter (ordered : List Rule) (m : Machine) (s : Stop) : Except TreeError Machine := do
  accept s.node
  let fired := fire ordered s.node (m.push s).current
  return { m.push s with found := m.found ++ fired.map (fun f => (s.place, f)) }

def leave (m : Machine) (s : Stop) : Machine :=
  if s.opens then { m with scopes := m.scopes.tail }
  else { m with scopes := m.scopes.modifyHead (fun b => s.node.bindTargets b) }

def step (ordered : List Rule) (m : Machine) (s : Stop) : Except TreeError Machine :=
  match s.phase with
  | .enter => m.enter ordered s
  | .leave => .ok (m.leave s)

def run (ordered : List Rule) (m : Machine) (stops : List Stop) : Except TreeError Machine :=
  stops.foldlM (step ordered) m

end Machine

/-- The findings in a tree, each with the place it is reported for. -/
def report (rules : List Rule) (root : Node) : Except TreeError (List (Place × Finding)) := do
  return (← Machine.start.run (firingOrder rules) root.stops).found

/-- The coordinates of a position are whole, and count from one and from zero. -/
def Position.Valid (p : Position) : Prop :=
  p.line.den = 1 ∧ p.column.den = 1 ∧ 1 ≤ p.line ∧ 0 ≤ p.column

theorem valid_iff {p : Position} :
    (!isWhole p.line || !isWhole p.column || decide (p.line < 1) || decide (p.column < 0)) = false ↔
      p.Valid := by
  simp only [isWhole, Bool.or_eq_false_iff, Bool.not_eq_false', beq_iff_eq,
    decide_eq_false_iff_not, Rat.not_lt, Position.Valid, and_assoc]

theorem inspect_of_not_valid {n : Node} (h : ¬ n.position.Valid) :
    inspect n = .error (.malformed ⟨n.kind.text ++ " node has an invalid position", n.position⟩) :=
  if_pos (Bool.not_eq_false _ ▸ mt valid_iff.1 h)

theorem inspect_of_valid {n : Node} (h : n.position.Valid) :
    inspect n = match n with
      | .assign p [] _ _ => .error (.malformed ⟨"assignment without a target", p⟩)
      | _ => .ok () := by
  unfold inspect
  rw [if_neg (by simp only [valid_iff.2 h, Bool.false_eq_true, not_false_eq_true])]
  cases n with
  | assign p targets hint v =>
    cases targets with
    | nil => rfl
    | cons t ts => rfl
  | _ => rfl

theorem inspect_eq_ok {n : Node} :
    inspect n = .ok () ↔ n.position.Valid ∧ ∀ p hint v, n ≠ .assign p [] hint v := by
  by_cases h : n.position.Valid
  · rw [inspect_of_valid h]
    cases n with
    | assign p targets hint v =>
      cases targets with
      | nil => simp
      | cons t ts => simpa using h
    | _ => simpa using h
  · rw [inspect_of_not_valid h]
    simp [h]

theorem accept_of_known {n : Node} (h : n.isKnown = true) : accept n = inspect n := by
  unfold accept
  cases n with
  | unknown p kind => cases h
  | _ => exact bind_pure _

theorem accept_eq_ok {n : Node} : accept n = .ok () ↔ inspect n = .ok () ∧ n.isKnown = true := by
  cases hk : n.isKnown with
  | false =>
    cases n with
    | unknown p kind => simp [accept, bind_eq_ok]
    | _ => cases hk
  | true => simp [accept_of_known hk]

namespace Machine

theorem run_append (ordered : List Rule) (m : Machine) (l₁ l₂ : List Stop) :
    m.run ordered (l₁ ++ l₂) = m.run ordered l₁ >>= fun m' => m'.run ordered l₂ := by
  simp [run, List.foldlM_append]

theorem run_cons (ordered : List Rule) (m : Machine) (s : Stop) (l : List Stop) :
    m.run ordered (s :: l) = m.step ordered s >>= fun m' => m'.run ordered l := by
  simp [run]

theorem run_singleton (ordered : List Rule) (m : Machine) (s : Stop) :
    m.run ordered [s] = m.step ordered s := by
  simp [run]

/-- A run meets no error as long as every node on the way is acceptable. -/
theorem run_isOk (ordered : List Rule) (m : Machine) {stops : List Stop}
    (h : ∀ s ∈ stops, accept s.node = .ok ()) : ∃ m', m.run ordered stops = .ok m' := by
  induction stops generalizing m with
  | nil => exact ⟨m, rfl⟩
  | cons s rest ih =>
    obtain ⟨m₁, h₁⟩ : ∃ m₁, m.step ordered s = .ok m₁ := by
      unfold step
      split
      · exact ⟨_, by rw [enter, h s (by simp)]; rfl⟩
      · exact ⟨_, rfl⟩
    obtain ⟨m', h'⟩ := ih m₁ (fun t ht => h t (by simp [ht]))
    exact ⟨m', by rw [run_cons, h₁]; exact h'⟩

/-- A run that meets no error enters acceptable nodes only. -/
theorem accept_of_run {ordered : List Rule} {m m' : Machine} {stops : List Stop}
    (h : m.run ordered stops = .ok m') {s : Stop} (hs : s ∈ stops) (henter : s.phase = .enter) :
    accept s.node = .ok () := by
  induction stops generalizing m with
  | nil => cases hs
  | cons t rest ih =>
    rw [run_cons, bind_eq_ok] at h
    obtain ⟨m₁, hstep, hrun⟩ := h
    rcases List.mem_cons.1 hs with rfl | hs
    · simp only [step, henter] at hstep
      obtain ⟨⟨⟩, hok, -⟩ := bind_eq_ok.1 hstep
      exact hok
    · exact ih hrun hs

end Machine

/-! ## The machine and the recursive visit -/

/-- The run ends as the visit does: with the same error, or with the bindings that the visit
hands back on top of `rest` and with its findings behind those in `before`. -/
def Agrees (rest : List Bindings) (before : List Finding) :
    Except TreeError (Bindings × List Finding) → Except TreeError Machine → Prop
  | .ok (b, more), .ok m => m.scopes = b :: rest ∧ m.found.map Prod.snd = before ++ more
  | .error e, .error e' => e = e'
  | _, _ => False

theorem Agrees.cases {rest : List Bindings} {before : List Finding}
    {x : Except TreeError (Bindings × List Finding)} {y : Except TreeError Machine}
    (h : Agrees rest before x y) :
    (∃ e, x = .error e ∧ y = .error e) ∨
      ∃ b more m, x = .ok (b, more) ∧ y = .ok m ∧ m.scopes = b :: rest ∧
        m.found.map Prod.snd = before ++ more := by
  cases x with
  | error e =>
    cases y with
    | error e' => exact .inl ⟨e, rfl, congrArg _ (Eq.symm h)⟩
    | ok m => exact h.elim
  | ok r =>
    cases y with
    | error e' => exact h.elim
    | ok m => exact .inr ⟨r.1, r.2, m, rfl, rfl, h⟩

/-- How a visit goes on from one child to the next. -/
def visitChild (ordered : List Rule) (acc : Bindings × List Finding) (c : Node) :
    Except TreeError (Bindings × List Finding) := do
  let (b, more) ← visit ordered false acc.1 c
  return (b, acc.2 ++ more)

theorem visit_eq (ordered : List Rule) (isRoot : Bool) (b : Bindings) (n : Node) :
    visit ordered isRoot b n = (do
      accept n
      let start := if n.isScope && !isRoot then Bindings.empty else b
      let (stop, below) ← n.children.foldlM (visitChild ordered) (start, [])
      return (if n.isScope && !isRoot then b else n.bindTargets stop,
        fire ordered n start ++ below)) := by
  cases hk : n.isKnown with
  | false =>
    cases n with
    | unknown p kind => rw [visit, accept, bind_assoc]; rfl
    | _ => cases hk
  | true =>
    have hne : ∀ p kind, n = .unknown p kind → False := by
      rintro p kind rfl
      cases hk
    rw [visit, accept_of_known hk]
    · simp only [List.foldlM_subtype, List.unattach_attach]
      rfl
    · exact hne

theorem agrees_children {ordered : List Rule} {parent : Node} {place : Place} {cs : List Node}
    (h : ∀ c ∈ cs, ∀ (i : Nat) (b : Bindings) (rest : List Bindings) (m : Machine),
      m.scopes = b :: rest → Agrees rest (m.found.map Prod.snd) (visit ordered false b c)
        (m.run ordered (c.trail (some parent) (place ++ [i]))))
    (k : Nat) (before acc : List Finding) {b : Bindings} {rest : List Bindings} {m : Machine}
    (hs : m.scopes = b :: rest) (hf : m.found.map Prod.snd = before ++ acc) :
    Agrees rest before (cs.foldlM (visitChild ordered) (b, acc))
      (m.run ordered (Node.trailBelow parent place k cs)) := by
  induction cs generalizing k b acc m with
  | nil => exact ⟨hs, hf⟩
  | cons c cs ih =>
    have hc := h c (by simp) k b rest m hs
    rw [Node.trailBelow_cons, Machine.run_append, List.foldlM_cons, visitChild]
    obtain ⟨e, hv, hr⟩ | ⟨b₁, more, m₁, hv, hr, hs₁, hf₁⟩ := hc.cases
    · rw [hv, hr]
      exact rfl
    · rw [hv, hr]
      refine ih (fun d hd => h d (by simp [hd])) (k + 1) (acc ++ more) hs₁ ?_
      rw [hf₁, hf, List.append_assoc]

theorem enter_scope {ordered : List Rule} {m : Machine} {s : Stop}
    (hok : accept s.node = .ok ()) (hopens : s.opens = true) :
    m.enter ordered s = .ok ⟨.empty :: m.scopes,
      m.found ++ (fire ordered s.node .empty).map (fun f => (s.place, f))⟩ := by
  rw [Machine.enter, hok, Machine.push, if_pos hopens]
  rfl

theorem enter_plain {ordered : List Rule} {m : Machine} {s : Stop}
    (hok : accept s.node = .ok ()) (hopens : s.opens = false) :
    m.enter ordered s = .ok ⟨m.scopes,
      m.found ++ (fire ordered s.node m.current).map (fun f => (s.place, f))⟩ := by
  rw [Machine.enter, hok, Machine.push, if_neg (by simp [hopens])]
  rfl

theorem leave_scope {m : Machine} {s : Stop} (hopens : s.opens = true) :
    m.leave s = ⟨m.scopes.tail, m.found⟩ := by
  rw [Machine.leave, if_pos hopens]

theorem leave_plain {m : Machine} {s : Stop} (hopens : s.opens = false) :
    m.leave s = ⟨m.scopes.modifyHead (fun b => s.node.bindTargets b), m.found⟩ := by
  rw [Machine.leave, if_neg (by simp [hopens])]

theorem run_trail (ordered : List Rule) (m : Machine) (n : Node) (parent : Option Node)
    (place : Place) :
    m.run ordered (n.trail parent place) = (do
      let m₁ ← m.enter ordered ⟨⟨.enter, n, parent⟩, place⟩
      let m₂ ← m₁.run ordered (Node.trailBelow n place 0 n.children)
      return m₂.leave ⟨⟨.leave, n, parent⟩, place⟩) := by
  rw [Node.trail_eq, List.cons_append, Machine.run_cons]
  simp only [Machine.run_append, Machine.run_singleton]
  rfl

theorem agrees_visit (ordered : List Rule) (n : Node) (parent : Option Node) (place : Place)
    {b : Bindings} {rest : List Bindings} {m : Machine} (hs : m.scopes = b :: rest) :
    Agrees rest (m.found.map Prod.snd) (visit ordered place.isEmpty b n)
      (m.run ordered (n.trail parent place)) := by
  induction n using Node.inductionOn generalizing parent place b rest m with
  | step n ih =>
    have hbelow : ∀ c ∈ n.children, ∀ (i : Nat) (b : Bindings) (rest : List Bindings)
        (m : Machine), m.scopes = b :: rest → Agrees rest (m.found.map Prod.snd)
          (visit ordered false b c) (m.run ordered (c.trail (some n) (place ++ [i]))) := by
      intro c hc i b rest m hs
      have := ih c hc (some n) (place ++ [i]) hs
      rwa [show (place ++ [i]).isEmpty = false by simp] at this
    rw [visit_eq, run_trail]
    cases hacc : accept n with
    | error e =>
      have henter : m.enter ordered ⟨⟨.enter, n, parent⟩, place⟩ = .error e := by
        rw [Machine.enter, hacc]
        rfl
      rw [henter]
      exact rfl
    | ok _ =>
      cases hopens : (n.isScope && !place.isEmpty) with
      | true =>
        rw [enter_scope (s := ⟨⟨.enter, n, parent⟩, place⟩) hacc hopens]
        have hchildren := agrees_children hbelow 0
          (m.found.map Prod.snd ++ fire ordered n .empty) []
          (m := ⟨.empty :: m.scopes,
            m.found ++ (fire ordered n .empty).map (fun f => (place, f))⟩)
          rfl (by simp [Function.comp_def])
        obtain ⟨e, hv, hr⟩ | ⟨b₁, more, m₁, hv, hr, hs₁, hf₁⟩ := hchildren.cases
        · simp only [if_true, bind, Except.bind, hv, hr]
          exact rfl
        · simp only [if_true, bind, Except.bind, hv, hr,
            leave_scope (s := ⟨⟨.leave, n, parent⟩, place⟩) hopens]
          refine ⟨?_, ?_⟩
          · rw [hs₁, List.tail_cons, hs]
          · rw [hf₁, List.append_assoc]
      | false =>
        rw [enter_plain (s := ⟨⟨.enter, n, parent⟩, place⟩) hacc hopens, Machine.current, hs,
          List.headD_cons]
        have hchildren := agrees_children hbelow 0 (m.found.map Prod.snd ++ fire ordered n b) []
          (m := ⟨b :: rest, m.found ++ (fire ordered n b).map (fun f => (place, f))⟩)
          rfl (by simp [Function.comp_def])
        obtain ⟨e, hv, hr⟩ | ⟨b₁, more, m₁, hv, hr, hs₁, hf₁⟩ := hchildren.cases
        · simp only [Bool.false_eq_true, if_false, bind, Except.bind, hv, hr]
          exact rfl
        · simp only [Bool.false_eq_true, if_false, bind, Except.bind, hv, hr,
            leave_plain (s := ⟨⟨.leave, n, parent⟩, place⟩) hopens]
          refine ⟨?_, ?_⟩
          · rw [hs₁, List.modifyHead_cons]
          · rw [hf₁, List.append_assoc]

/-- A check reports what the machine reports, and fails as the machine fails. -/
theorem check_eq_report (rules : List Rule) (root : Node) :
    check rules root = (report rules root).map (fun found => found.map Prod.snd) := by
  have h := agrees_visit (firingOrder rules) root none [] (m := Machine.start) rfl
  obtain ⟨e, hv, hr⟩ | ⟨b, more, m, hv, hr, -, hf⟩ := h.cases
  · rw [check, report, Node.stops, hr, show visit (firingOrder rules) true Bindings.empty root = _
      from hv]
    rfl
  · rw [check, report, Node.stops, hr, show visit (firingOrder rules) true Bindings.empty root = _
      from hv]
    exact congrArg Except.ok hf.symm

/-- A tree is checked without an error when its nodes are acceptable, and only then. -/
theorem report_isOk_iff {rules : List Rule} {root : Node} :
    (∃ found, report rules root = .ok found) ↔ root.Every Accepted := by
  constructor
  · rintro ⟨found, h⟩ place n hn
    obtain ⟨m, hrun, -⟩ := bind_eq_ok.1 h
    obtain ⟨s, hs, henter, rfl, -⟩ := Node.exists_mem_trail .enter none [] hn
    exact Machine.accept_of_run hrun hs henter
  · intro h
    obtain ⟨m, hm⟩ := Machine.run_isOk (firingOrder rules) Machine.start
      (Node.every_iff_stops.1 h)
    exact ⟨m.found, by rw [report, hm]; rfl⟩

end ChainLint
