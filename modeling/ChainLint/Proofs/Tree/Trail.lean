import ChainLint.Tree.Walk
import Mathlib.Data.List.Infix

/-!
# ChainLint.Proofs.Tree.Trail

Where a node stands in its tree, and when a visit comes by.

* `Place`: the way from the root to a node. `at?`: the node at a place.
* `Stop`: an event of the visit with the place of its node. `trail`: all stops in order;
  `walk_eq_trail` says that these are the events of `walk`.
* `trail_follows`: from one stop to the next the visit moves along one edge of the tree.
* `trail_pairwise`: nothing at or below a node has been met when the node is entered.
* `openScopes`, `scopeOf`: the scopes around a place, and the one a node belongs to.
-/

namespace ChainLint

/-- The way from the root of a tree to a node: which child to take, level by level. -/
abbrev Place := List Nat

/-- An event of a visit, with the place of its node. -/
structure Stop extends Event where
  place : Place

namespace Stop

/-- Where the visit stands just before a stop: above a node it enters, at a node it leaves. -/
def source (s : Stop) : Place :=
  match s.phase with
  | .enter => s.place.dropLast
  | .leave => s.place

/-- Where the visit stands just after a stop. -/
def target (s : Stop) : Place :=
  match s.phase with
  | .enter => s.place
  | .leave => s.place.dropLast

theorem source_enter {s : Stop} (h : s.phase = .enter) : s.source = s.place.dropLast := by
  simp [source, h]

theorem source_leave {s : Stop} (h : s.phase = .leave) : s.source = s.place := by
  simp [source, h]

theorem target_enter {s : Stop} (h : s.phase = .enter) : s.target = s.place := by
  simp [target, h]

theorem target_leave {s : Stop} (h : s.phase = .leave) : s.target = s.place.dropLast := by
  simp [target, h]

end Stop

/-- The stops lead from `p` to `q`, each one starting where the one before it ends. -/
def Follows : Place → List Stop → Place → Prop
  | p, [], q => p = q
  | p, s :: rest, q => s.source = p ∧ Follows s.target rest q

theorem follows_append {p q : Place} {l₁ l₂ : List Stop} :
    Follows p (l₁ ++ l₂) q ↔ ∃ r, Follows p l₁ r ∧ Follows r l₂ q := by
  induction l₁ generalizing p with
  | nil => simp [Follows]
  | cons s rest ih => simp [Follows, ih, and_assoc]

namespace Node

/-- A property that passes from the children of a node to the node holds of all nodes. -/
theorem inductionOn {P : Node → Prop} (n : Node)
    (step : ∀ n : Node, (∀ c ∈ n.children, P c) → P n) : P n :=
  step n (fun c _ => inductionOn c step)
termination_by sizeOf n
decreasing_by exact sizeOf_lt_of_mem_children ‹_›

/-- The node at a place. -/
def at? : Node → Place → Option Node
  | n, [] => some n
  | n, i :: place => n.children[i]?.bind (fun c => c.at? place)

/-- Every node of the tree has the property. -/
def Every (P : Node → Prop) (n : Node) : Prop := ∀ place m, n.at? place = some m → P m

theorem every_iff {P : Node → Prop} {n : Node} :
    n.Every P ↔ P n ∧ ∀ c ∈ n.children, c.Every P := by
  constructor
  · intro h
    refine ⟨h [] n rfl, fun c hc place m hm => ?_⟩
    obtain ⟨i, hi⟩ := List.getElem?_of_mem hc
    exact h (i :: place) m (by simp [at?, hi, hm])
  · rintro ⟨hn, hbelow⟩ place m hm
    cases place with
    | nil => cases hm; exact hn
    | cons i place =>
      obtain ⟨c, hc, hm⟩ := Option.bind_eq_some_iff.1 hm
      exact hbelow c (List.mem_of_getElem? hc) place m hm

section kinds

variable {P : Node → Prop} {p : Position} {n m : Node} {ns ms : List Node} {w : String}

@[simp] theorem every_module :
    (Node.module p ns).Every P ↔ P (.module p ns) ∧ ∀ c ∈ ns, c.Every P := every_iff

@[simp] theorem every_function :
    (Node.function p w ns ms).Every P ↔
      P (.function p w ns ms) ∧ ∀ c ∈ ns ++ ms, c.Every P := every_iff

@[simp] theorem every_classDef :
    (Node.classDef p w ns ms).Every P ↔
      P (.classDef p w ns ms) ∧ ∀ c ∈ ns ++ ms, c.Every P := every_iff

@[simp] theorem every_assign {hint : Option Node} :
    (Node.assign p ns hint n).Every P ↔
      P (.assign p ns hint n) ∧ ∀ c ∈ ns ++ hint.toList ++ [n], c.Every P := every_iff

@[simp] theorem every_augassign :
    (Node.augassign p n w m).Every P ↔ P (.augassign p n w m) ∧ n.Every P ∧ m.Every P := by
  rw [every_iff]
  simp [children]

@[simp] theorem every_call :
    (Node.call p n ns ms).Every P ↔
      P (.call p n ns ms) ∧ n.Every P ∧ ∀ c ∈ ns ++ ms, c.Every P := by
  rw [every_iff]
  simp only [children, byPosition, List.forall_mem_cons, mem_sortBy]

@[simp] theorem every_keyword {name : Option String} :
    (Node.keyword p name n).Every P ↔ P (.keyword p name n) ∧ n.Every P := by
  rw [every_iff]
  simp [children]

@[simp] theorem every_attr : (Node.attr p n w).Every P ↔ P (.attr p n w) ∧ n.Every P := by
  rw [every_iff]
  simp [children]

@[simp] theorem every_subscript :
    (Node.subscript p n ns).Every P ↔
      P (.subscript p n ns) ∧ n.Every P ∧ ∀ c ∈ ns, c.Every P := by
  rw [every_iff]
  simp [children]

@[simp] theorem every_name : (Node.name p w).Every P ↔ P (.name p w) := by
  rw [every_iff]
  simp [children]

@[simp] theorem every_constant {lit : Literal} :
    (Node.constant p lit w).Every P ↔ P (.constant p lit w) := by
  rw [every_iff]
  simp [children]

@[simp] theorem every_compare {ops : List String} :
    (Node.compare p n ops ns).Every P ↔
      P (.compare p n ops ns) ∧ n.Every P ∧ ∀ c ∈ ns, c.Every P := by
  rw [every_iff]
  simp [children]

@[simp] theorem every_binop :
    (Node.binop p n w m).Every P ↔ P (.binop p n w m) ∧ n.Every P ∧ m.Every P := by
  rw [every_iff]
  simp [children]

@[simp] theorem every_unaryop :
    (Node.unaryop p w n).Every P ↔ P (.unaryop p w n) ∧ n.Every P := by
  rw [every_iff]
  simp [children]

@[simp] theorem every_boolop :
    (Node.boolop p w ns).Every P ↔ P (.boolop p w ns) ∧ ∀ c ∈ ns, c.Every P := every_iff

@[simp] theorem every_lambda :
    (Node.lambda p ns n).Every P ↔ P (.lambda p ns n) ∧ ∀ c ∈ ns ++ [n], c.Every P := every_iff

@[simp] theorem every_other :
    (Node.other p w ns).Every P ↔ P (.other p w ns) ∧ ∀ c ∈ ns, c.Every P := every_iff

end kinds

/-- The kind of the node is one of the model. -/
def isKnown : Node → Bool
  | .unknown .. => false
  | _ => true

/-- The stops of the visit of a node that stands at `place`. -/
def trail (parent : Option Node) (place : Place) (n : Node) : List Stop :=
  ⟨⟨.enter, n, parent⟩, place⟩ ::
    n.children.zipIdx.attach.flatMap (fun x => trail (some n) (place ++ [x.val.2]) x.val.1) ++
    [⟨⟨.leave, n, parent⟩, place⟩]
termination_by sizeOf n
decreasing_by exact sizeOf_lt_of_mem_children (List.fst_mem_of_mem_zipIdx x.property)

/-- The stops in the children of a node, the first of which has index `k`. -/
def trailBelow (parent : Node) (place : Place) (k : Nat) (cs : List Node) : List Stop :=
  (cs.zipIdx k).flatMap (fun x => x.1.trail (some parent) (place ++ [x.2]))

@[simp] theorem trailBelow_nil (parent : Node) (place : Place) (k : Nat) :
    trailBelow parent place k [] = [] := rfl

@[simp] theorem trailBelow_cons (parent : Node) (place : Place) (k : Nat) (c : Node)
    (cs : List Node) :
    trailBelow parent place k (c :: cs) =
      c.trail (some parent) (place ++ [k]) ++ trailBelow parent place (k + 1) cs := by
  simp [trailBelow]

theorem trail_eq (parent : Option Node) (place : Place) (n : Node) :
    n.trail parent place =
      ⟨⟨.enter, n, parent⟩, place⟩ :: trailBelow n place 0 n.children ++
        [⟨⟨.leave, n, parent⟩, place⟩] := by
  rw [trail, trailBelow,
    List.flatMap_subtype (g := fun x => x.1.trail (some n) (place ++ [x.2])) (fun _ _ => rfl),
    List.unattach_attach]

/-- The stops of the visit of a whole tree. -/
def stops (root : Node) : List Stop := root.trail none []

theorem mem_trailBelow {parent : Node} {place : Place} {cs : List Node} {s : Stop} :
    s ∈ trailBelow parent place 0 cs ↔
      ∃ (i : Nat) (c : Node), cs[i]? = some c ∧ s ∈ c.trail (some parent) (place ++ [i]) := by
  simp only [trailBelow, List.mem_flatMap, Prod.exists, List.mk_mem_zipIdx_iff_getElem?]
  exact exists_comm

theorem mem_trail {parent : Option Node} {place : Place} {n : Node} {s : Stop} :
    s ∈ n.trail parent place ↔ s = ⟨⟨.enter, n, parent⟩, place⟩ ∨
      (∃ (i : Nat) (c : Node), n.children[i]? = some c ∧ s ∈ c.trail (some n) (place ++ [i])) ∨
      s = ⟨⟨.leave, n, parent⟩, place⟩ := by
  rw [trail_eq]
  simp [mem_trailBelow]

/-! ## Stops and places -/

theorem place_of_mem_trail {n : Node} {parent : Option Node} {place : Place} {s : Stop}
    (h : s ∈ n.trail parent place) : ∃ t, s.place = place ++ t ∧ n.at? t = some s.node := by
  induction n using inductionOn generalizing parent place with
  | step n ih =>
    rcases mem_trail.1 h with rfl | ⟨i, c, hc, hs⟩ | rfl
    · exact ⟨[], by simp, rfl⟩
    · obtain ⟨t, ht, hn⟩ := ih c (List.mem_of_getElem? hc) hs
      exact ⟨i :: t, by simp [ht], by simp [at?, hc, hn]⟩
    · exact ⟨[], by simp, rfl⟩

theorem exists_mem_trail {n m : Node} {t : Place} (phase : Phase) (parent : Option Node)
    (place : Place) (h : n.at? t = some m) :
    ∃ s ∈ n.trail parent place, s.phase = phase ∧ s.node = m ∧ s.place = place ++ t := by
  induction t generalizing n parent place with
  | nil =>
    cases h
    cases phase with
    | enter => exact ⟨_, mem_trail.2 (.inl rfl), rfl, rfl, by simp⟩
    | leave => exact ⟨_, mem_trail.2 (.inr (.inr rfl)), rfl, rfl, by simp⟩
  | cons i t ih =>
    obtain ⟨c, hc, hm⟩ := Option.bind_eq_some_iff.1 h
    obtain ⟨s, hs, hp, hn, ht⟩ := ih (some n) (place ++ [i]) hm
    exact ⟨s, mem_trail.2 (.inr (.inl ⟨i, c, hc, hs⟩)), hp, hn, by simp [ht]⟩

theorem every_iff_stops {P : Node → Prop} {root : Node} :
    root.Every P ↔ ∀ s ∈ root.stops, P s.node := by
  constructor
  · intro h s hs
    obtain ⟨t, -, hn⟩ := place_of_mem_trail hs
    exact h t s.node hn
  · intro h place m hm
    obtain ⟨s, hs, -, hn, -⟩ := exists_mem_trail .enter none [] hm
    rw [← hn]
    exact h s hs

theorem at?_of_mem_stops {root : Node} {s : Stop} (h : s ∈ root.stops) :
    root.at? s.place = some s.node := by
  obtain ⟨t, ht, hn⟩ := place_of_mem_trail h
  rw [ht, List.nil_append]
  exact hn

/-! ## The order of the stops -/

theorem trailBelow_follows {parent : Node} {place : Place} {cs : List Node} {k : Nat}
    (h : ∀ c ∈ cs, ∀ i, Follows place (c.trail (some parent) (place ++ [i])) place) :
    Follows place (trailBelow parent place k cs) place := by
  induction cs generalizing k with
  | nil => exact rfl
  | cons c cs ih =>
    rw [trailBelow_cons, follows_append]
    exact ⟨place, h c (by simp) k, ih (fun d hd => h d (by simp [hd]))⟩

/-- From one stop to the next the visit moves along one edge, or stays where it is. -/
theorem trail_follows (n : Node) (parent : Option Node) (place : Place) :
    Follows place.dropLast (n.trail parent place) place.dropLast := by
  induction n using inductionOn generalizing parent place with
  | step n ih =>
    have hbelow : Follows place (trailBelow n place 0 n.children) place := by
      apply trailBelow_follows
      intro c hc i
      simpa using ih c hc (some n) (place ++ [i])
    rw [trail_eq, List.cons_append]
    refine ⟨rfl, ?_⟩
    rw [follows_append]
    exact ⟨place, hbelow, rfl, rfl⟩

/-- A later stop that enters a node does not stand above an earlier one. -/
def Fresh (s t : Stop) : Prop := t.phase = .enter → ¬ t.place <+: s.place

theorem trailBelow_pairwise {parent : Node} {place : Place} {cs : List Node} {k : Nat}
    (h : ∀ c ∈ cs, ∀ i, (c.trail (some parent) (place ++ [i])).Pairwise Fresh) :
    (trailBelow parent place k cs).Pairwise Fresh := by
  induction cs generalizing k with
  | nil => exact .nil
  | cons c cs ih =>
    rw [trailBelow_cons, List.pairwise_append]
    refine ⟨h c (by simp) k, ih (fun d hd => h d (by simp [hd])), ?_⟩
    intro s hs t ht _ hpre
    obtain ⟨x, hx, hxt⟩ := List.mem_flatMap.1 ht
    obtain ⟨u, hu, -⟩ := place_of_mem_trail hs
    obtain ⟨v, hv, -⟩ := place_of_mem_trail hxt
    -- The two places part at `place`, where the later one takes a child further right.
    have hlt : k + 1 ≤ x.2 := (List.mem_zipIdx hx).1
    rw [hu, hv, List.append_assoc, List.append_assoc, List.prefix_append_right_inj] at hpre
    have heq : x.2 = k := (List.cons_prefix_cons.1 hpre).1
    omega

theorem trail_pairwise (n : Node) (parent : Option Node) (place : Place) :
    (n.trail parent place).Pairwise Fresh := by
  induction n using inductionOn generalizing parent place with
  | step n ih =>
    rw [trail_eq, List.cons_append, List.pairwise_cons, List.pairwise_append]
    refine ⟨?_, trailBelow_pairwise (fun c hc i => ih c hc (some n) (place ++ [i])),
      List.pairwise_singleton _ _, ?_⟩
    · intro t ht henter hpre
      rcases List.mem_append.1 ht with ht | ht
      · obtain ⟨i, c, -, hc⟩ := mem_trailBelow.1 ht
        obtain ⟨u, hu, -⟩ := place_of_mem_trail hc
        have hlen := hpre.length_le
        simp only [hu, List.length_append, List.length_cons, List.length_nil] at hlen
        omega
      · obtain rfl := List.mem_singleton.1 ht
        cases henter
    · intro s _ t ht henter
      obtain rfl := List.mem_singleton.1 ht
      cases henter

/-- When a tree is entered at `s`, nothing at or below `s` has been met. -/
theorem not_prefix_of_mem_before {root : Node} {pre post : List Stop} {s t : Stop}
    (h : root.stops = pre ++ s :: post) (hs : s.phase = .enter) (ht : t ∈ pre) :
    ¬ s.place <+: t.place := by
  have hpair := root.trail_pairwise none []
  rw [show root.trail none [] = pre ++ s :: post from h, List.pairwise_append] at hpair
  exact hpair.2.2 t ht s (by simp) hs

/-! ## The events of a walk -/

theorem walk_known {parent : Option Node} {n : Node} (h : n.isKnown = true) :
    walk parent n = (do
      let inner ← n.children.mapM (walk (some n))
      return ⟨.enter, n, parent⟩ :: inner.flatten ++ [⟨.leave, n, parent⟩]) := by
  have hne : ∀ p kind, n = .unknown p kind → False := by
    rintro p kind rfl
    cases h
  rw [walk]
  · simp only [List.mapM_subtype, List.unattach_attach]
  · exact hne

theorem walk_children {parent : Node} {place : Place} {cs : List Node} {k : Nat}
    (h : ∀ c ∈ cs, ∀ i, walk (some parent) c =
      .ok ((c.trail (some parent) (place ++ [i])).map Stop.toEvent)) :
    ∃ inner, cs.mapM (walk (some parent)) = .ok inner ∧
      inner.flatten = (trailBelow parent place k cs).map Stop.toEvent := by
  induction cs generalizing k with
  | nil => exact ⟨[], rfl, rfl⟩
  | cons c cs ih =>
    obtain ⟨inner, hinner, hflat⟩ := ih (k := k + 1) (fun d hd => h d (by simp [hd]))
    refine ⟨(c.trail (some parent) (place ++ [k])).map Stop.toEvent :: inner, ?_, ?_⟩
    · rw [List.mapM_cons, h c (by simp) k, hinner]
      rfl
    · rw [List.flatten_cons, hflat, trailBelow_cons, List.map_append]

/-- The stops of a tree of known kinds are the events of its walk. -/
theorem walk_eq_trail {n : Node} (h : n.Every (fun m => m.isKnown = true)) (parent : Option Node)
    (place : Place) :
    walk parent n = .ok ((n.trail parent place).map Stop.toEvent) := by
  induction n using inductionOn generalizing parent place with
  | step n ih =>
    obtain ⟨hn, hbelow⟩ := every_iff.1 h
    obtain ⟨inner, hinner, hflat⟩ := walk_children (k := 0)
      (fun c hc i => ih c hc (hbelow c hc) (some n) (place ++ [i]))
    rw [walk_known hn, hinner, trail_eq, List.cons_append, List.map_cons, List.map_append, ← hflat]
    rfl

/-! ## Scopes -/

/-- The scopes around a place, itself included, from the innermost one to the root. The root
counts as a scope whatever its kind. -/
def openScopes (root : Node) (place : Place) : List Place :=
  (place.inits.filter (fun q => q.isEmpty || (root.at? q).any isScope)).reverse

/-- The scope that the node at `place` belongs to: the nearest one strictly above it, and the
root's own for the root. -/
def scopeOf (root : Node) (place : Place) : Place := (root.openScopes place.dropLast).headD []

@[simp] theorem openScopes_nil (root : Node) : root.openScopes [] = [[]] := by
  simp [openScopes]

theorem openScopes_snoc (root : Node) (place : Place) (i : Nat) :
    root.openScopes (place ++ [i]) =
      if (root.at? (place ++ [i])).any isScope then (place ++ [i]) :: root.openScopes place
      else root.openScopes place := by
  have hinits : (place ++ [i]).inits = place.inits ++ [place ++ [i]] := by
    simp [List.inits_append]
  rw [openScopes, hinits, List.filter_append, List.reverse_append]
  split
  · rename_i h
    simp [openScopes, h]
  · rename_i h
    simp [openScopes, h]

theorem prefix_of_mem_openScopes {root : Node} {place q : Place} (h : q ∈ root.openScopes place) :
    q <+: place := by
  rw [openScopes, List.mem_reverse, List.mem_filter] at h
  exact (List.mem_inits _ _).1 h.1

theorem openScopes_nodup (root : Node) (place : Place) : (root.openScopes place).Nodup := by
  induction place using List.reverseRecOn with
  | nil => simp
  | append_singleton place i ih =>
    rw [openScopes_snoc]
    split
    · refine List.nodup_cons.2 ⟨fun h => ?_, ih⟩
      have hlen := (prefix_of_mem_openScopes h).length_le
      rw [List.length_append, List.length_singleton] at hlen
      omega
    · exact ih

theorem openScopes_ne_nil (root : Node) (place : Place) : root.openScopes place ≠ [] := by
  induction place using List.reverseRecOn with
  | nil => simp
  | append_singleton place i ih =>
    rw [openScopes_snoc]
    split
    · simp
    · exact ih

/-- The scope of a node comes first among those around its parent. -/
theorem openScopes_dropLast (root : Node) (place : Place) :
    ∃ outer, root.openScopes place.dropLast = root.scopeOf place :: outer := by
  obtain ⟨q, outer, hq⟩ := List.exists_cons_of_ne_nil (root.openScopes_ne_nil place.dropLast)
  exact ⟨outer, by simp [scopeOf, hq]⟩

end Node
end ChainLint
