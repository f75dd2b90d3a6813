import ChainLint.Proofs.Engine.Machine

/-!
# ChainLint.Proofs.Engine.Context

The bindings that a node is checked against, said without a stack.

* `boundAfter`: the bindings that a list of stops makes in one scope.
* `contextAt`: the bindings of a scope when the visit comes to a place of it.
* `Tracks`: the invariant of a run. Each scope on the stack holds what the stops so far have bound
  in it, and each node that was entered has been checked against its context.
* `tracks_step`, `tracks_run`: one stop keeps the invariant, and so does a run.
* `report_eq`, `check_eq_entries`: the findings in a tree are what fires at each node in its
  context.
-/

namespace ChainLint
namespace Node

/-- The stops at which nodes are entered: one for each node, in the order of the visit. -/
def entries (root : Node) : List Stop := root.stops.filter (fun s => s.phase = .enter)

/-- The stops until the node at `place` is entered. -/
def stopsBefore (root : Node) (place : Place) : List Stop :=
  root.stops.takeWhile (fun s => !(s.phase = .enter && s.place = place))

/-- What the assignments among the stops bind in a scope, in the order in which they are left. -/
def boundAfter (root : Node) (scope : Place) (stops : List Stop) : Bindings :=
  stops.foldl (fun b s =>
    if s.phase = .leave ∧ root.scopeOf s.place = scope then s.node.bindTargets b else b) .empty

/-- The scope whose bindings hold at a place: a scope's own, otherwise the one around it. -/
def homeOf (root : Node) (place : Place) : Place := (root.openScopes place).headD []

/-- The bindings that the node at `place` is checked against. -/
def contextAt (root : Node) (place : Place) : Bindings :=
  root.boundAfter (root.homeOf place) (root.stopsBefore place)

/-! ## Bindings of one scope -/

theorem boundAfter_snoc (root : Node) (scope : Place) (stops : List Stop) (s : Stop) :
    root.boundAfter scope (stops ++ [s]) =
      if s.phase = .leave ∧ root.scopeOf s.place = scope
      then s.node.bindTargets (root.boundAfter scope stops) else root.boundAfter scope stops := by
  simp [boundAfter]

theorem boundAfter_enter {root : Node} {scope : Place} {stops : List Stop} {s : Stop}
    (h : s.phase = .enter) :
    root.boundAfter scope (stops ++ [s]) = root.boundAfter scope stops := by
  simp [boundAfter_snoc, h]

theorem boundAfter_leave {root : Node} {stops : List Stop} {s : Stop} (h : s.phase = .leave) :
    root.boundAfter (root.scopeOf s.place) (stops ++ [s]) =
      s.node.bindTargets (root.boundAfter (root.scopeOf s.place) stops) := by
  simp [boundAfter_snoc, h]

theorem boundAfter_other {root : Node} {scope : Place} {stops : List Stop} {s : Stop}
    (h : root.scopeOf s.place ≠ scope) :
    root.boundAfter scope (stops ++ [s]) = root.boundAfter scope stops := by
  simp [boundAfter_snoc, h]

theorem bindTargets_of_isScope {n : Node} {b : Bindings} (h : n.isScope = true) :
    n.bindTargets b = b := by
  cases n with
  | module | function | classDef => rfl
  | _ => cases h

/-- A scope that lies above none of the stops has been bound nothing. -/
theorem boundAfter_eq_empty {root : Node} {scope : Place} {stops : List Stop}
    (h : ∀ s ∈ stops, ¬ scope <+: s.place) : root.boundAfter scope stops = .empty := by
  induction stops using List.reverseRecOn with
  | nil => rfl
  | append_singleton stops s ih =>
    rw [boundAfter_other, ih (fun t ht => h t (by simp [ht]))]
    intro hscope
    obtain ⟨outer, houter⟩ := root.openScopes_dropLast s.place
    have hmem : scope ∈ root.openScopes s.place.dropLast := by simp [houter, hscope]
    exact h s (by simp)
      ((prefix_of_mem_openScopes hmem).trans (List.dropLast_prefix _))

/-! ## Stops of a tree -/

theorem stopsBefore_eq {root : Node} {pre post : List Stop} {s : Stop}
    (h : root.stops = pre ++ s :: post) (hs : s.phase = .enter) :
    root.stopsBefore s.place = pre := by
  rw [stopsBefore, h, List.takeWhile_append_of_pos, List.takeWhile_cons_of_neg, List.append_nil]
  · simp [hs]
  · intro t ht
    have hfresh := not_prefix_of_mem_before h hs ht
    have hne : t.place ≠ s.place := fun heq => hfresh (heq ▸ List.prefix_rfl)
    simp [hne]

/-- Entering a node opens its scope, if it has one. -/
theorem openScopes_place {root : Node} {s : Stop} (h : s ∈ root.stops) :
    root.openScopes s.place =
      if s.opens then s.place :: root.openScopes s.place.dropLast
      else root.openScopes s.place.dropLast := by
  have hat := at?_of_mem_stops h
  rcases List.eq_nil_or_concat s.place with hp | ⟨p, i, hp⟩
  · simp [Stop.opens, hp]
  · rw [hp] at hat
    rw [Stop.opens, hp, List.concat_eq_append, openScopes_snoc, ← List.concat_eq_append, hat]
    simp

/-- A node that is no scope is checked in the scope it belongs to. -/
theorem homeOf_eq_scopeOf {root n : Node} {place : Place} (h : root.at? place = some n)
    (hn : n.isScope = false) : root.homeOf place = root.scopeOf place := by
  rw [homeOf, scopeOf]
  rcases List.eq_nil_or_concat place with rfl | ⟨p, i, rfl⟩
  · rfl
  · rw [List.concat_eq_append] at h ⊢
    rw [openScopes_snoc, h, List.dropLast_concat]
    simp [hn]

end Node

/-! ## The invariant of a run -/

/-- After the stops `pre`, with the visit standing at `place`. -/
structure Tracks (ordered : List Rule) (root : Node) (pre : List Stop) (place : Place)
    (m : Machine) : Prop where
  scopes : m.scopes = (root.openScopes place).map (fun q => root.boundAfter q pre)
  found : m.found = (pre.filter (fun s => s.phase = .enter)).flatMap (fun s =>
    (fire ordered s.node (root.contextAt s.place)).map (fun f => (s.place, f)))

theorem tracks_enter {ordered : List Rule} {root : Node} {pre post : List Stop} {s : Stop}
    {m m' : Machine} (hstops : root.stops = pre ++ s :: post) (hs : s.phase = .enter)
    (h : Tracks ordered root pre s.place.dropLast m) (henter : m.enter ordered s = .ok m') :
    Tracks ordered root (pre ++ [s]) s.place m' := by
  have hmem : s ∈ root.stops := by simp [hstops]
  have hopen := Node.openScopes_place hmem
  obtain ⟨⟨⟩, hok, -⟩ := bind_eq_ok.1 henter
  have hscopes : (root.openScopes s.place).map (fun q => root.boundAfter q (pre ++ [s])) =
      (root.openScopes s.place).map (fun q => root.boundAfter q pre) := by
    simp only [Node.boundAfter_enter hs]
  -- Whether the scope is new or not, its bindings on the stack are those of the context.
  suffices hm' : m'.scopes = (root.openScopes s.place).map (fun q => root.boundAfter q pre) ∧
      m'.found = m.found ++ (fire ordered s.node (root.contextAt s.place)).map
        (fun f => (s.place, f)) by
    refine ⟨by rw [hm'.1, hscopes], ?_⟩
    rw [hm'.2, h.found]
    simp [List.filter_append, hs]
  rw [Node.contextAt, Node.homeOf, Node.stopsBefore_eq hstops hs]
  cases hopens : s.opens with
  | true =>
    rw [if_pos hopens] at hopen
    rw [enter_scope hok hopens] at henter
    have hempty : root.boundAfter s.place pre = .empty :=
      Node.boundAfter_eq_empty (fun t ht => Node.not_prefix_of_mem_before hstops hs ht)
    cases henter
    simp [hopen, hempty, h.scopes]
  | false =>
    rw [if_neg (by simp [hopens])] at hopen
    rw [enter_plain hok hopens] at henter
    obtain ⟨outer, houter⟩ := root.openScopes_dropLast s.place
    cases henter
    simp [hopen, houter, h.scopes, Machine.current]

theorem tracks_leave {ordered : List Rule} {root : Node} {pre post : List Stop} {s : Stop}
    {m : Machine} (hstops : root.stops = pre ++ s :: post) (hs : s.phase = .leave)
    (h : Tracks ordered root pre s.place m) :
    Tracks ordered root (pre ++ [s]) s.place.dropLast (m.leave s) := by
  have hmem : s ∈ root.stops := by simp [hstops]
  have hopen := Node.openScopes_place hmem
  obtain ⟨outer, houter⟩ := root.openScopes_dropLast s.place
  have hnodup := root.openScopes_nodup s.place.dropLast
  rw [houter, List.nodup_cons] at hnodup
  -- Only the scope that the node belongs to can be bound anything.
  have hrest : outer.map (fun q => root.boundAfter q (pre ++ [s])) =
      outer.map (fun q => root.boundAfter q pre) := by
    apply List.map_congr_left
    intro q hq
    exact Node.boundAfter_other (fun heq => hnodup.1 (heq ▸ hq))
  have hfound : (m.leave s).found = m.found := by
    unfold Machine.leave
    split <;> rfl
  refine ⟨?_, by rw [hfound, h.found]; simp [List.filter_append, hs]⟩
  rw [houter, List.map_cons, hrest, Node.boundAfter_leave hs]
  cases hopens : s.opens with
  | true =>
    have hscope : s.node.isScope = true := by
      simp only [Stop.opens, Bool.and_eq_true] at hopens
      exact hopens.1
    rw [if_pos hopens, houter] at hopen
    rw [leave_scope hopens, h.scopes, hopen, Node.bindTargets_of_isScope hscope]
    rfl
  | false =>
    rw [if_neg (by simp [hopens]), houter] at hopen
    rw [leave_plain hopens, h.scopes, hopen]
    rfl

theorem tracks_step {ordered : List Rule} {root : Node} {pre post : List Stop} {s : Stop}
    {m m' : Machine} (hstops : root.stops = pre ++ s :: post)
    (h : Tracks ordered root pre s.source m) (hstep : m.step ordered s = .ok m') :
    Tracks ordered root (pre ++ [s]) s.target m' := by
  cases hs : s.phase with
  | enter =>
    rw [Stop.source_enter hs] at h
    rw [Stop.target_enter hs]
    simp only [Machine.step, hs] at hstep
    exact tracks_enter hstops hs h hstep
  | leave =>
    rw [Stop.source_leave hs] at h
    rw [Stop.target_leave hs]
    simp only [Machine.step, hs] at hstep
    cases hstep
    exact tracks_leave hstops hs h

theorem tracks_run {ordered : List Rule} {root : Node} {pre mid post : List Stop} {p q : Place}
    {m m' : Machine} (hstops : root.stops = pre ++ mid ++ post) (h : Tracks ordered root pre p m)
    (hfol : Follows p mid q) (hrun : m.run ordered mid = .ok m') :
    Tracks ordered root (pre ++ mid) q m' := by
  induction mid generalizing pre p m with
  | nil =>
    cases hfol
    cases hrun
    simpa using h
  | cons s mid ih =>
    obtain ⟨rfl, hfol⟩ := hfol
    rw [Machine.run_cons, bind_eq_ok] at hrun
    obtain ⟨m₁, hstep, hrun⟩ := hrun
    have hhead : root.stops = pre ++ s :: (mid ++ post) := by simpa using hstops
    have h₁ := tracks_step hhead h hstep
    have := ih (by simpa using hstops) h₁ hfol hrun
    simpa using this

theorem tracks_start (ordered : List Rule) (root : Node) :
    Tracks ordered root [] [] Machine.start :=
  ⟨by simp [Machine.start, Node.boundAfter], rfl⟩

/-- The report of a tree: in the order of the visit, what fires at each node in its context. -/
theorem report_eq {rules : List Rule} {root : Node} {found : List (Place × Finding)}
    (h : report rules root = .ok found) :
    found = root.entries.flatMap (fun s =>
      (fire (firingOrder rules) s.node (root.contextAt s.place)).map (fun f => (s.place, f))) := by
  obtain ⟨m, hrun, hm⟩ := bind_eq_ok.1 h
  have hm : m.found = found := pure_eq_ok.1 hm
  have hstops : root.stops = [] ++ root.stops ++ [] := by simp
  have htracks := tracks_run hstops (tracks_start _ root) (root.trail_follows none []) hrun
  rw [← hm, htracks.found]
  rfl

/-- A finding is reported for a place exactly when it fires there. -/
theorem mem_report_iff {rules : List Rule} {root : Node} {found : List (Place × Finding)}
    (h : report rules root = .ok found) {s : Stop} (hs : s ∈ root.entries) {f : Finding} :
    (s.place, f) ∈ found ↔ f ∈ fire (firingOrder rules) s.node (root.contextAt s.place) := by
  have hnode : ∀ t ∈ root.entries, root.at? t.place = some t.node :=
    fun t ht => Node.at?_of_mem_stops (List.mem_of_mem_filter ht)
  rw [report_eq h, List.mem_flatMap]
  constructor
  · rintro ⟨t, ht, hf⟩
    obtain ⟨g, hg, heq⟩ := List.mem_map.1 hf
    obtain ⟨hplace, rfl⟩ := Prod.mk.inj heq
    have hst : t.node = s.node := by
      have := hnode t ht
      rw [hplace, hnode s hs] at this
      exact (Option.some.inj this).symm
    rwa [hst, hplace] at hg
  · intro hf
    exact ⟨s, hs, List.mem_map.2 ⟨f, hf, rfl⟩⟩

/-! ## Checks that end -/

theorem exists_report {rules : List Rule} {root : Node} {found : List Finding}
    (h : check rules root = .ok found) :
    ∃ reported, report rules root = .ok reported ∧ reported.map Prod.snd = found := by
  rw [check_eq_report] at h
  cases hr : report rules root with
  | error e =>
    rw [hr] at h
    cases h
  | ok reported =>
    rw [hr] at h
    exact ⟨reported, rfl, Except.ok.inj h⟩

theorem check_eq_entries {rules : List Rule} {root : Node} {found : List Finding}
    (h : check rules root = .ok found) :
    found = root.entries.flatMap (fun s =>
      fire (firingOrder rules) s.node (root.contextAt s.place)) := by
  obtain ⟨reported, hreport, rfl⟩ := exists_report h
  rw [report_eq hreport]
  simp [List.map_flatMap, Function.comp_def]

theorem accepted_of_check {rules : List Rule} {root : Node} {found : List Finding}
    (h : check rules root = .ok found) : root.Every Accepted := by
  obtain ⟨reported, hreport, -⟩ := exists_report h
  exact report_isOk_iff.1 ⟨reported, hreport⟩

theorem walk_of_accepted {root : Node} (h : root.Every Accepted) :
    walk none root = .ok (root.stops.map Stop.toEvent) :=
  Node.walk_eq_trail (fun place n hn => (accept_eq_ok.1 (h place n hn)).2) none []

end ChainLint
