import ChainLint.Proofs.Cst.Span
import ChainLint.Proofs.Sorted

/-!
# ChainLint.Proofs.Tree.Nesting

A walk comes by every node of a tree, once on the way down and once on the way up.

* `Node.held`: the nodes in the fields of a node, field by field. `heldAt?`: the node at a place,
  where a place says for each level which of these to take. These are the occurrences of nodes in a
  tree, however they are visited.
* `siblings`: the nodes in the fields with their numbers, in the order of the visit. `Earlier`: that
  order, said for two numbers.
* `tour`: the events of a walk, each with the place of its node. `tour_split`: the tour of a tree
  holds the tour of each node in it in one piece.
* `Balanced`, `WellNested`: the shape of a tour.
* `walk_wellNested`: the events of a walk have that shape.
-/

namespace ChainLint

/-- The first position is further up, or further left in the same line. -/
def Position.Before (p q : Position) : Prop :=
  p.line < q.line ∨ p.line = q.line ∧ p.column < q.column

theorem Position.before_of_not_le {p q : Position} (h : q.le p = false) : p.Before q := by
  have hnot : ¬ (q.line < p.line ∨ q.line = p.line ∧ q.column ≤ p.column) := by
    rw [← Position.le_iff, h]
    simp
  rw [not_or, not_and] at hnot
  rcases lt_or_eq_of_le (not_lt.1 hnot.1) with hline | hline
  · exact .inl hline
  · exact .inr ⟨hline, not_le.1 (hnot.2 hline.symm)⟩

/-! ## Numbered elements -/

theorem zipIdx_pairwise {α : Type} (l : List α) (k : Nat) :
    (l.zipIdx k).Pairwise (fun a b => a.2 < b.2) := by
  rw [← List.pairwise_map (f := Prod.snd), List.zipIdx_map_snd]
  exact List.pairwise_lt_range'

namespace Node

/-! ## Fields -/

/-- The nodes in the fields of a node, in the order of the fields. -/
def held : Node → List Node
  | .module _ body => body
  | .function _ _ parameters body => parameters ++ body
  | .classDef _ _ bases body => bases ++ body
  | .assign _ targets typeHint value => targets ++ typeHint.toList ++ [value]
  | .augassign _ target _ value => [target, value]
  | .call _ func args keywords => func :: (args ++ keywords)
  | .keyword _ _ value => [value]
  | .attr _ object _ => [object]
  | .subscript _ value indices => value :: indices
  | .name .. => []
  | .constant .. => []
  | .compare _ left _ comparators => left :: comparators
  | .binop _ left _ right => [left, right]
  | .unaryop _ _ operand => [operand]
  | .boolop _ _ values => values
  | .lambda _ parameters body => parameters ++ [body]
  | .other _ _ children => children
  | .unknown .. => []

/-- The node at a place, where each number says which node in the fields to go on with. -/
def heldAt? : Node → Place → Option Node
  | n, [] => some n
  | n, i :: place => n.held[i]?.bind (fun c => c.heldAt? place)

/-- The node that holds the one at a place below `n`, and `parent` for `n` itself. -/
def holder? (parent : Option Node) (n : Node) (place : Place) : Option Node :=
  if place = [] then parent else n.heldAt? place.dropLast

theorem holder?_cons {n c : Node} {i : Nat} (h : n.held[i]? = some c) (parent : Option Node)
    (place : Place) : n.holder? parent (i :: place) = c.holder? (some n) place := by
  cases place with
  | nil => rfl
  | cons j place => simp [holder?, heldAt?, h]

/-- Of two nodes in the fields of a node, the one with the number `i` is visited before the one with
the number `j`. The fields are visited one after the other, but what a call is given comes by
position, and at one position by number, so that an argument precedes a keyword there. -/
inductive Earlier : Node → Nat → Nat → Prop where
  | fields {n : Node} {i j : Nat} (hkind : n.kind ≠ .call) (h : i < j) : Earlier n i j
  | func {p : Position} {f : Node} {args keywords : List Node} {j : Nat} :
      Earlier (.call p f args keywords) 0 (j + 1)
  | given {p : Position} {f a b : Node} {args keywords : List Node} {i j : Nat}
      (ha : (args ++ keywords)[i]? = some a) (hb : (args ++ keywords)[j]? = some b)
      (h : a.position.Before b.position ∨ a.position = b.position ∧ i < j) :
      Earlier (.call p f args keywords) (i + 1) (j + 1)

/-- The nodes in the fields with their numbers, in the order of the visit. -/
def siblings : Node → List (Node × Nat)
  | .call _ func args keywords =>
    (func, 0) :: sortBy (fun a b => a.1.position.le b.1.position) ((args ++ keywords).zipIdx 1)
  | n => n.held.zipIdx

theorem siblings_of_kind {n : Node} (h : n.kind ≠ .call) : n.siblings = n.held.zipIdx := by
  cases n with
  | call => exact absurd rfl h
  | _ => rfl

theorem children_of_kind {n : Node} (h : n.kind ≠ .call) : n.children = n.held := by
  cases n with
  | call => exact absurd rfl h
  | _ => rfl

/-- Without their numbers, siblings are the children. -/
theorem siblings_map_fst (n : Node) : n.siblings.map Prod.fst = n.children := by
  by_cases h : n.kind = .call
  · cases n with
    | call p f args keywords =>
      rw [siblings, List.map_cons,
        ← sortBy_map (fun a b : Node => a.position.le b.position) Prod.fst, List.zipIdx_map_fst]
      rfl
    | _ => cases h
  · rw [siblings_of_kind h, children_of_kind h, List.zipIdx_map_fst]

theorem siblings_perm (n : Node) : n.siblings.Perm n.held.zipIdx := by
  by_cases h : n.kind = .call
  · cases n with
    | call p f args keywords =>
      rw [siblings, held, List.zipIdx_cons]
      exact (sortBy_perm _ _).cons (f, 0)
    | _ => cases h
  · rw [siblings_of_kind h]

theorem mem_siblings {n c : Node} {i : Nat} : (c, i) ∈ n.siblings ↔ n.held[i]? = some c := by
  rw [n.siblings_perm.mem_iff, List.mk_mem_zipIdx_iff_getElem?]

theorem siblings_nodup (n : Node) : (n.siblings.map Prod.snd).Nodup := by
  rw [(n.siblings_perm.map Prod.snd).nodup_iff, List.zipIdx_map_snd]
  exact List.nodup_range'

theorem siblings_earlier (n : Node) : n.siblings.Pairwise (fun a b => n.Earlier a.2 b.2) := by
  by_cases h : n.kind = .call
  · cases n with
    | call p f args keywords =>
      have hnumber : ∀ a ∈ (args ++ keywords).zipIdx 1, ∃ i, a.2 = i + 1 ∧
          (args ++ keywords)[i]? = some a.1 := by
        rintro ⟨c, k⟩ hc
        obtain ⟨hk, hget⟩ := List.mk_mem_zipIdx_iff_le_and_getElem?_sub.1 hc
        exact ⟨k - 1, by simp only; omega, hget⟩
      rw [siblings, List.pairwise_cons]
      constructor
      · intro a ha
        obtain ⟨i, hi, -⟩ := hnumber a (mem_sortBy.1 ha)
        rw [hi]
        exact .func
      · have hsorted := sortBy_stable (fun a b => a.1.position.le b.1.position)
          Prod.snd (fun _ _ _ => Position.le_trans)
          (fun a b => Position.le_total a.1.position b.1.position)
          (zipIdx_pairwise (args ++ keywords) 1)
        refine hsorted.imp_of_mem ?_
        rintro a b ha hb ⟨hle, htie⟩
        obtain ⟨i, hi, hia⟩ := hnumber a (mem_sortBy.1 ha)
        obtain ⟨j, hj, hjb⟩ := hnumber b (mem_sortBy.1 hb)
        rw [hi, hj]
        refine .given hia hjb ?_
        cases hback : b.1.position.le a.1.position with
        | false => exact .inl (Position.before_of_not_le hback)
        | true =>
          have hlt := htie hback
          exact .inr ⟨Position.le_antisymm hle hback, by omega⟩
    | _ => cases h
  · rw [siblings_of_kind h]
    exact (zipIdx_pairwise n.held 0).imp (fun hlt => .fields h hlt)

/-! ## Tours -/

/-- The stops of the walk of a node that stands at `place`, places going by the fields. -/
def tour (parent : Option Node) (place : Place) (n : Node) : List Stop :=
  ⟨⟨.enter, n, parent⟩, place⟩ ::
    n.siblings.attach.flatMap (fun x => tour (some n) (place ++ [x.val.2]) x.val.1) ++
    [⟨⟨.leave, n, parent⟩, place⟩]
termination_by sizeOf n
decreasing_by
  exact sizeOf_lt_of_mem_children (n.siblings_map_fst ▸ List.mem_map_of_mem x.property)

/-- The stops in some of the nodes in the fields of `n`. -/
def tourOf (n : Node) (place : Place) (cs : List (Node × Nat)) : List Stop :=
  cs.flatMap (fun x => x.1.tour (some n) (place ++ [x.2]))

theorem tour_eq (parent : Option Node) (place : Place) (n : Node) :
    n.tour parent place =
      ⟨⟨.enter, n, parent⟩, place⟩ :: tourOf n place n.siblings ++
        [⟨⟨.leave, n, parent⟩, place⟩] := by
  rw [tour, tourOf,
    List.flatMap_subtype (g := fun x => x.1.tour (some n) (place ++ [x.2])) (fun _ _ => rfl),
    List.unattach_attach]

theorem filter_tour (p : Stop → Bool) (parent : Option Node) (place : Place) (n : Node) :
    (n.tour parent place).filter p =
      [⟨⟨.enter, n, parent⟩, place⟩].filter p ++ (tourOf n place n.siblings).filter p ++
        [⟨⟨.leave, n, parent⟩, place⟩].filter p := by
  rw [tour_eq, ← List.singleton_append, List.filter_append, List.filter_append]

/-- Places apart, a tour is a trail. -/
theorem tour_map_toEvent (n : Node) (parent : Option Node) (place place' : Place) :
    (n.tour parent place).map Stop.toEvent = (n.trail parent place').map Stop.toEvent := by
  induction n using inductionOn generalizing parent place place' with
  | step n ih =>
    have hbelow : ∀ (cs : List (Node × Nat)) (k : Nat), (∀ x ∈ cs, x.1 ∈ n.children) →
        (tourOf n place cs).map Stop.toEvent =
          (trailBelow n place' k (cs.map Prod.fst)).map Stop.toEvent := by
      intro cs
      induction cs with
      | nil => exact fun _ _ => rfl
      | cons x cs ihcs =>
        intro k hcs
        rw [List.map_cons, trailBelow_cons, List.map_append, ← ihcs (k + 1)
          (fun y hy => hcs y (by simp [hy])), ← ih x.1 (hcs x (by simp)) (some n)
          (place ++ [x.2]), tourOf, List.flatMap_cons, List.map_append]
        rfl
    have hchildren : ∀ x ∈ n.siblings, x.1 ∈ n.children :=
      fun x hx => n.siblings_map_fst ▸ List.mem_map_of_mem hx
    rw [tour_eq, trail_eq, List.map_append, List.map_append, List.map_cons, List.map_cons,
      hbelow n.siblings 0 hchildren, siblings_map_fst]
    rfl

theorem mem_tourOf {n : Node} {place : Place} {s : Stop} :
    s ∈ tourOf n place n.siblings ↔
      ∃ (i : Nat) (c : Node), n.held[i]? = some c ∧ s ∈ c.tour (some n) (place ++ [i]) := by
  simp only [tourOf, List.mem_flatMap, Prod.exists, mem_siblings]
  exact exists_comm

theorem place_of_mem_tour {n : Node} {parent : Option Node} {place : Place} {s : Stop}
    (h : s ∈ n.tour parent place) : ∃ t, s.place = place ++ t ∧ n.heldAt? t = some s.node := by
  induction n using inductionOn generalizing parent place with
  | step n ih =>
    rw [tour_eq, List.mem_append, List.mem_cons, List.mem_singleton, mem_tourOf] at h
    rcases h with (rfl | ⟨i, c, hc, hs⟩) | rfl
    · exact ⟨[], by simp, rfl⟩
    · have hchild : c ∈ n.children :=
        n.siblings_map_fst ▸ List.mem_map_of_mem (mem_siblings.2 hc)
      obtain ⟨t, ht, hn⟩ := ih c hchild hs
      exact ⟨i :: t, by simp [ht], by simp [heldAt?, hc, hn]⟩
    · exact ⟨[], by simp, rfl⟩

theorem prefix_of_mem_tour {n : Node} {parent : Option Node} {place : Place} {s : Stop}
    (h : s ∈ n.tour parent place) : place <+: s.place := by
  obtain ⟨t, ht, -⟩ := place_of_mem_tour h
  exact ht ▸ List.prefix_append place t

/-- Below a node, every stop goes on with a number. -/
theorem place_of_mem_tourOf {n : Node} {place : Place} {cs : List (Node × Nat)} {s : Stop}
    (h : s ∈ tourOf n place cs) : ∃ x ∈ cs, place ++ [x.2] <+: s.place := by
  obtain ⟨x, hx, hs⟩ := List.mem_flatMap.1 h
  exact ⟨x, hx, prefix_of_mem_tour hs⟩

theorem below_of_mem_tourOf {n : Node} {place : Place} {cs : List (Node × Nat)} {s : Stop}
    (h : s ∈ tourOf n place cs) : place <+: s.place ∧ place.length < s.place.length := by
  obtain ⟨x, -, hx⟩ := place_of_mem_tourOf h
  have hlen := hx.length_le
  rw [List.length_append, List.length_singleton] at hlen
  exact ⟨(List.prefix_append place [x.2]).trans hx, hlen⟩

/-- A place that goes on with another number is not at or below a node in a field. -/
theorem not_prefix_of_mem_tourOf {n : Node} {place t : Place} {i : Nat} {cs : List (Node × Nat)}
    (hcs : ∀ x ∈ cs, x.2 ≠ i) {s : Stop} (hs : s ∈ tourOf n place cs) :
    ¬ place ++ i :: t <+: s.place := by
  intro hpre
  obtain ⟨x, hx, hxs⟩ := place_of_mem_tourOf hs
  obtain ⟨u, hu⟩ := hxs
  rw [← hu, List.append_assoc, List.prefix_append_right_inj, List.singleton_append,
    List.cons_prefix_cons] at hpre
  exact hcs x hx hpre.1.symm

/-- The tour of a tree holds that of each node in it in one piece, and all else in it is
elsewhere. -/
theorem tour_split {n m : Node} {t : Place} (h : n.heldAt? t = some m) (parent : Option Node)
    (place : Place) :
    ∃ pre post, n.tour parent place = pre ++ m.tour (n.holder? parent t) (place ++ t) ++ post ∧
      ∀ s ∈ pre ++ post, ¬ place ++ t <+: s.place := by
  induction t generalizing n parent place with
  | nil =>
    cases h
    exact ⟨[], [], by simp [holder?], by simp⟩
  | cons i t ih =>
    obtain ⟨c, hc, hm⟩ := Option.bind_eq_some_iff.1 h
    obtain ⟨pre, post, htour, hout⟩ := ih hm (some n) (place ++ [i])
    obtain ⟨l, r, hlr⟩ := List.append_of_mem (mem_siblings.2 hc)
    -- The number `i` stands at one of the siblings only.
    have hother : ∀ x ∈ l ++ r, x.2 ≠ i := by
      have hnodup := n.siblings_nodup
      rw [hlr, List.map_append, List.map_cons, List.nodup_middle, ← List.map_append] at hnodup
      intro x hx hxi
      exact (List.nodup_cons.1 hnodup).1 (List.mem_map.2 ⟨x, hx, hxi⟩)
    refine ⟨⟨⟨.enter, n, parent⟩, place⟩ :: tourOf n place l ++ pre,
      post ++ tourOf n place r ++ [⟨⟨.leave, n, parent⟩, place⟩], ?_, ?_⟩
    · rw [tour_eq, hlr, tourOf, List.flatMap_append, List.flatMap_cons, htour, holder?_cons hc]
      simp [tourOf]
    · have hself : ¬ place ++ i :: t <+: place := by
        intro hpre
        have hlen := hpre.length_le
        rw [List.length_append, List.length_cons] at hlen
        omega
      intro s hs
      simp only [List.mem_append, List.mem_cons, List.not_mem_nil, or_false] at hs
      rcases hs with ((rfl | hs) | hs) | ((hs | hs) | rfl)
      · exact hself
      · exact not_prefix_of_mem_tourOf (fun x hx => hother x (by simp [hx])) hs
      · simpa using hout s (by simp [hs])
      · simpa using hout s (by simp [hs])
      · exact not_prefix_of_mem_tourOf (fun x hx => hother x (by simp [hx])) hs
      · exact hself

end Node

/-! ## The shape of a tour -/

/-- A word of brackets: every node that is entered is left again, after all that is entered in
between. -/
inductive Balanced : List Stop → Prop where
  | nil : Balanced []
  | pair {n : Node} {parent : Option Node} {place : Place} {inner rest : List Stop}
      (hinner : Balanced inner) (hrest : Balanced rest) :
      Balanced (⟨⟨.enter, n, parent⟩, place⟩ :: inner ++ ⟨⟨.leave, n, parent⟩, place⟩ :: rest)

theorem Balanced.append {l r : List Stop} (hl : Balanced l) (hr : Balanced r) :
    Balanced (l ++ r) := by
  induction hl with
  | nil => exact hr
  | @pair n parent place inner rest hinner _ _ ih =>
    rw [List.append_assoc, List.cons_append]
    exact .pair hinner ih

/-- Every node in a tree is visited once, with what stands below it in between. -/
structure WellNested (root : Node) (visit : List Stop) : Prop where
  balanced : Balanced visit
  /-- No stop is made anywhere else. -/
  known : ∀ s ∈ visit, (root.heldAt? s.place).isSome = true
  /-- A node is entered once and left once, each time with the node that holds it. -/
  once : ∀ place n, root.heldAt? place = some n →
    visit.filter (fun s => s.place = place) =
      [⟨⟨.enter, n, root.holder? none place⟩, place⟩, ⟨⟨.leave, n, root.holder? none place⟩, place⟩]
  /-- In between, the nodes below it are visited, and no others. -/
  between : ∀ place n, root.heldAt? place = some n → ∃ pre post,
    visit = pre ++ ⟨⟨.enter, n, root.holder? none place⟩, place⟩ ::
      visit.filter (fun s => place <+: s.place ∧ s.place ≠ place) ++
      ⟨⟨.leave, n, root.holder? none place⟩, place⟩ :: post
  /-- The nodes in the fields of one node are entered in their order. -/
  siblings : ∀ place n, root.heldAt? place = some n → visit.Pairwise (fun s t =>
    s.phase = .enter → t.phase = .enter → ∀ i j, s.place = place ++ [i] → t.place = place ++ [j] →
      n.Earlier i j)

namespace Node

theorem balanced_tour (n : Node) (parent : Option Node) (place : Place) :
    Balanced (n.tour parent place) := by
  induction n using inductionOn generalizing parent place with
  | step n ih =>
    have hbelow : ∀ cs : List (Node × Nat), (∀ x ∈ cs, x.1 ∈ n.children) →
        Balanced (tourOf n place cs) := by
      intro cs hcs
      induction cs with
      | nil => exact .nil
      | cons x cs ihcs =>
        rw [tourOf, List.flatMap_cons]
        exact (ih x.1 (hcs x (by simp)) _ _).append (ihcs (fun y hy => hcs y (by simp [hy])))
    rw [tour_eq]
    exact .pair (hbelow n.siblings fun x hx => n.siblings_map_fst ▸ List.mem_map_of_mem hx) .nil

/-- One level below a node, the nodes in its fields are entered one after the other. -/
theorem filter_tourOf (n : Node) (place : Place) (cs : List (Node × Nat)) :
    (tourOf n place cs).filter (fun s => s.phase = .enter ∧ s.place.length = place.length + 1) =
      cs.map (fun x => ⟨⟨.enter, x.1, some n⟩, place ++ [x.2]⟩) := by
  induction cs with
  | nil => rfl
  | cons x cs ih =>
    have hdeep : (tourOf x.1 (place ++ [x.2]) x.1.siblings).filter
        (fun s => s.phase = .enter ∧ s.place.length = place.length + 1) = [] := by
      rw [List.filter_eq_nil_iff]
      intro s hs hlevel
      have hlt := (below_of_mem_tourOf hs).2
      simp only [List.length_append, List.length_singleton, decide_eq_true_eq] at hlt hlevel
      omega
    rw [List.map_cons, ← ih, tourOf, List.flatMap_cons, List.filter_append, filter_tour, hdeep]
    simp [tourOf]

theorem filter_outside {pre post : List Stop} {place : Place}
    (hout : ∀ s ∈ pre ++ post, ¬ place <+: s.place) {p : Stop → Bool}
    (hp : ∀ s, p s = true → place <+: s.place) (l : List Stop) :
    (pre ++ l ++ post).filter p = l.filter p := by
  have hnil : ∀ k : List Stop, (∀ s ∈ k, s ∈ pre ++ post) → k.filter p = [] := by
    intro k hk
    rw [List.filter_eq_nil_iff]
    exact fun s hs hps => hout s (hk s hs) (hp s hps)
  rw [List.filter_append, List.filter_append, hnil pre (by simp +contextual),
    hnil post (by simp +contextual), List.nil_append, List.append_nil]

theorem wellNested_tour (root : Node) : WellNested root (root.tour none []) where
  balanced := root.balanced_tour none []
  known := by
    intro s hs
    obtain ⟨t, ht, hn⟩ := place_of_mem_tour hs
    rw [ht, List.nil_append, hn]
    rfl
  once := by
    intro place n hn
    obtain ⟨pre, post, htour, hout⟩ := tour_split hn none []
    rw [List.nil_append] at htour hout
    have hdeep : (tourOf n place n.siblings).filter (fun s => s.place = place) = [] := by
      rw [List.filter_eq_nil_iff]
      intro s hs hplace
      have hlt := (below_of_mem_tourOf hs).2
      rw [of_decide_eq_true hplace] at hlt
      exact lt_irrefl _ hlt
    have hat : ∀ s : Stop, decide (s.place = place) = true → place <+: s.place :=
      fun s hs => of_decide_eq_true hs ▸ List.prefix_rfl
    rw [htour, filter_outside hout hat, filter_tour, hdeep]
    simp
  between := by
    intro place n hn
    obtain ⟨pre, post, htour, hout⟩ := tour_split hn none []
    rw [List.nil_append] at htour hout
    have hdeep : (tourOf n place n.siblings).filter
        (fun s => place <+: s.place ∧ s.place ≠ place) = tourOf n place n.siblings := by
      rw [List.filter_eq_self]
      intro s hs
      obtain ⟨hpre, hlt⟩ := below_of_mem_tourOf hs
      refine decide_eq_true ⟨hpre, fun heq => ?_⟩
      rw [heq] at hlt
      exact lt_irrefl _ hlt
    refine ⟨pre, post, ?_⟩
    rw [htour, filter_outside hout (fun s hs => (of_decide_eq_true hs).1), filter_tour, hdeep,
      tour_eq]
    simp
  siblings := by
    intro place n hn
    obtain ⟨pre, post, htour, hout⟩ := tour_split hn none []
    rw [List.nil_append] at htour hout
    have hentered : (root.tour none []).filter (fun s => s.phase = .enter ∧ place <+: s.place ∧
        s.place.length = place.length + 1) =
        n.siblings.map (fun x => ⟨⟨.enter, x.1, some n⟩, place ++ [x.2]⟩) := by
      have hlevel : (tourOf n place n.siblings).filter (fun s => s.phase = .enter ∧
          place <+: s.place ∧ s.place.length = place.length + 1) =
          n.siblings.map (fun x => ⟨⟨.enter, x.1, some n⟩, place ++ [x.2]⟩) := by
        rw [← filter_tourOf]
        refine List.filter_congr fun s hs => ?_
        simp [(below_of_mem_tourOf hs).1]
      rw [htour, filter_outside hout (fun s hs => (of_decide_eq_true hs).2.1), filter_tour, hlevel]
      simp
    have horder : ((root.tour none []).filter (fun s => s.phase = .enter ∧ place <+: s.place ∧
        s.place.length = place.length + 1)).Pairwise (fun s t => ∀ i j, s.place = place ++ [i] →
        t.place = place ++ [j] → n.Earlier i j) := by
      rw [hentered, List.pairwise_map]
      refine n.siblings_earlier.imp ?_
      intro a b hab i j hi hj
      obtain rfl : a.2 = i := by simpa using hi
      obtain rfl : b.2 = j := by simpa using hj
      exact hab
    refine (List.pairwise_filter.1 horder).imp ?_
    intro s t hst hs ht i j hi hj
    exact hst (by simp [hs, hi]) (by simp [ht, hj]) i j hi hj

end Node

/-- The walk of a tree of known kinds visits every node once, in a word of brackets: the events of a
node enclose those of the nodes below it and no others, each event carries the node that holds its
own, and siblings come in the order of the fields, what a call is given sorted by position. -/
theorem walk_wellNested {root : Node} (h : root.Every (fun n => n.isKnown = true)) :
    ∃ visit, walk none root = .ok (visit.map Stop.toEvent) ∧ WellNested root visit := by
  refine ⟨root.tour none [], ?_, root.wellNested_tour⟩
  rw [Node.walk_eq_trail h none [], root.tour_map_toEvent none [] []]

/-- In `f(x, k=1, y)`, with another keyword that is said to start where `y` does, the arguments come
by position, and `y` comes first. -/
theorem walk_wellNested_call :
    let keyword (column : Int) (value : Node) : Node := .keyword (.at 1 column) (some "k") value
    let call : Node := .call (.at 1 0) (.name (.at 1 0) "f")
      [.name (.at 1 2) "x", .name (.at 1 10) "y"]
      [keyword 5 (.constant (.at 1 7) .number "1"), keyword 10 (.name (.at 1 12) "z")]
    ∃ visit, walk none call = .ok (visit.map Stop.toEvent) ∧ WellNested call visit ∧
      ((visit.map Stop.toEvent).filter (fun e => e.phase = .enter)).map
        (fun e => (e.node.kind, e.node.position)) =
        [(.call, .at 1 0), (.name, .at 1 0), (.name, .at 1 2), (.keyword, .at 1 5),
          (.constant, .at 1 7), (.name, .at 1 10), (.keyword, .at 1 10), (.name, .at 1 12)] := by
  intro keyword call
  have hknown : call.Every (fun n => n.isKnown = true) := by
    simp [call, keyword, Node.isKnown]
  obtain ⟨visit, hwalk, hnested⟩ := walk_wellNested hknown
  refine ⟨visit, hwalk, hnested, ?_⟩
  have hevents : visit.map Stop.toEvent = (call.trail none []).map Stop.toEvent :=
    Except.ok.inj (hwalk.symm.trans (Node.walk_eq_trail hknown none []))
  have horder : call.children = [.name (.at 1 0) "f", .name (.at 1 2) "x",
      keyword 5 (.constant (.at 1 7) .number "1"), .name (.at 1 10) "y",
      keyword 10 (.name (.at 1 12) "z")] := rfl
  rw [hevents, Node.trail_eq, horder]
  simp [call, keyword, Node.trail_eq, Node.children, Node.position, Node.kind]

end ChainLint
