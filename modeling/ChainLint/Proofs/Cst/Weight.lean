import ChainLint.Proofs.Cst.Shape
import ChainLint.Proofs.Sorted
import Mathlib.Algebra.BigOperators.Group.List.Basic

/-!
# ChainLint.Proofs.Cst.Weight

Counting the constructs that rules look at, in a tree and in concrete syntax.

* `Weights`: what calls, subscripts and assignments count for, in any commutative monoid.
* `Node.total`: the weight of a tree.
* `Cst.nodes`: the nodes of concrete syntax in document order.
* `Cst.total`: the weight of what stands inside a concrete node, `whole` with the node itself.
* `total_of_parts`, `total_of_fields`: the weight of a shaped node is that of the parts it is
  read by.
-/

namespace ChainLint

variable {M : Type} [AddCommMonoid M]

/-- What the constructs of a tree count for. An assignment counts by its position and for each of
its targets. -/
structure Weights (M : Type) where
  call : Position → M
  subscript : Position → M
  augassign : Position → M
  assign : Position → M
  target : M

/-! ## Sums over lists -/

theorem sum_map_flatMap {α β : Type} (l : List α) (f : α → List β) (g : β → M) :
    ((l.flatMap f).map g).sum = (l.map (fun a => ((f a).map g).sum)).sum := by
  induction l with
  | nil => rfl
  | cons a l ih => rw [List.flatMap_cons, List.map_append, List.sum_append, ih, List.map_cons,
      List.sum_cons]

theorem sum_map_filter {α : Type} {l : List α} {p : α → Bool} {g : α → M}
    (h : ∀ a ∈ l, p a = false → g a = 0) : (l.map g).sum = ((l.filter p).map g).sum := by
  induction l with
  | nil => rfl
  | cons a l ih =>
    rw [List.map_cons, List.sum_cons, ih (fun b hb => h b (by simp [hb]))]
    cases hp : p a with
    | true => rw [List.filter_cons_of_pos hp, List.map_cons, List.sum_cons]
    | false => rw [List.filter_cons_of_neg (by simp [hp]), h a (by simp) hp, zero_add]

/-- A term that belongs to at most one of some keys, and to one unless it is zero. -/
theorem sum_map_indicator {κ : Type} [DecidableEq κ] {keys : List κ} {k : Option κ} {x : M}
    (hnodup : keys.Nodup) (h : x ≠ 0 → ∃ f ∈ keys, k = some f) :
    (keys.map (fun f => if k = some f then x else 0)).sum = x := by
  by_cases hx : x = 0
  · simp [hx]
  obtain ⟨f, hf, rfl⟩ := h hx
  clear h
  induction keys with
  | nil => cases hf
  | cons f' keys ih =>
    obtain ⟨hnot, hnodup⟩ := List.nodup_cons.1 hnodup
    rw [List.map_cons, List.sum_cons]
    rcases List.mem_cons.1 hf with rfl | hf
    · have hrest : ∀ f' ∈ keys, (if some f = some f' then x else 0) = 0 :=
        fun f' hf' => if_neg (by rintro ⟨⟩; exact hnot hf')
      rw [if_pos rfl, List.map_congr_left hrest]
      simp
    · have hne : f ≠ f' := fun heq => hnot (heq ▸ hf)
      rw [if_neg (by simpa using hne), zero_add]
      exact ih hnodup hf

/-- Grouping by distinct keys that cover a list keeps its sum. -/
theorem sum_map_by_key {α κ : Type} [DecidableEq κ] {l : List α} {keys : List κ}
    {key : α → Option κ} {g : α → M} (hnodup : keys.Nodup)
    (h : ∀ a ∈ l, g a ≠ 0 → ∃ f ∈ keys, key a = some f) :
    (l.map g).sum =
      (keys.map (fun f => ((l.filter (fun a => key a = some f)).map g).sum)).sum := by
  induction l with
  | nil => simp
  | cons a l ih =>
    have hsplit : ∀ f, (((a :: l).filter (fun a => key a = some f)).map g).sum =
        (if key a = some f then g a else 0) +
          ((l.filter (fun a => key a = some f)).map g).sum := by
      intro f
      by_cases hf : key a = some f
      · simp [hf]
      · simp [hf]
    simp only [hsplit]
    rw [List.sum_map_add, sum_map_indicator hnodup (h a (by simp)),
      ← ih (fun b hb => h b (by simp [hb])), List.map_cons, List.sum_cons]

theorem toList_find? {α : Type} {l : List α} {p : α → Bool} (h : (l.filter p).length ≤ 1) :
    (l.find? p).toList = l.filter p := by
  rw [← List.head?_filter]
  cases hl : l.filter p with
  | nil => rfl
  | cons a rest =>
    rw [hl, List.length_cons] at h
    have hrest : rest = [] := List.length_eq_zero_iff.1 (by omega)
    simp [hrest]

/-! ## Weight of a tree -/

namespace Node

/-- A node and the nodes below it. -/
def nodes (n : Node) : List Node := n :: n.children.attach.flatMap (fun x => x.val.nodes)
termination_by sizeOf n
decreasing_by exact sizeOf_lt_of_mem_children x.property

theorem nodes_eq (n : Node) : n.nodes = n :: n.children.flatMap nodes := by
  rw [nodes, List.flatMap_subtype (g := nodes) (fun _ _ => rfl), List.unattach_attach]

def weight (w : Weights M) : Node → M
  | .call p _ _ _ => w.call p
  | .subscript p _ _ => w.subscript p
  | .augassign p _ _ _ => w.augassign p
  | .assign p targets _ _ => w.assign p + targets.length • w.target
  | _ => 0

def total (w : Weights M) (n : Node) : M := (n.nodes.map (weight w)).sum

theorem total_eq (w : Weights M) (n : Node) :
    n.total w = n.weight w + (n.children.map (total w)).sum := by
  rw [total, nodes_eq, List.map_cons, List.sum_cons, sum_map_flatMap]
  rfl

theorem total_call (w : Weights M) (p : Position) (func : Node) (args keywords : List Node) :
    (Node.call p func args keywords).total w =
      w.call p + (func.total w + ((args ++ keywords).map (total w)).sum) := by
  rw [total_eq, children, List.map_cons, List.sum_cons, byPosition,
    ((sortBy_perm _ (args ++ keywords)).map (total w)).sum_eq]
  rfl

end Node

/-! ## Weight of concrete syntax -/

namespace Cst

mutual

/-- The nodes inside a node, each with its parent. -/
def edges : Cst → List (Cst × Cst)
  | .node l cs => edgesIn (.node l cs) cs

def edgesIn (parent : Cst) : List Cst → List (Cst × Cst)
  | [] => []
  | c :: cs => (parent, c) :: (c.edges ++ edgesIn parent cs)

end

theorem edgesIn_eq (parent : Cst) (cs : List Cst) :
    edgesIn parent cs = cs.flatMap (fun d => (parent, d) :: d.edges) := by
  induction cs with
  | nil => rfl
  | cons c cs ih => simp [edgesIn, ih]

theorem edges_eq (c : Cst) : c.edges = c.children.flatMap (fun d => (c, d) :: d.edges) := by
  cases c with
  | node l cs => rw [edges, edgesIn_eq]; rfl

/-- A node and all nodes inside it in document order: each in front of what it holds, and that from
left to right. -/
def nodes (c : Cst) : List Cst := c :: c.edges.map Prod.snd

theorem nodes_eq (c : Cst) : c.nodes = c :: c.children.flatMap nodes := by
  rw [nodes, edges_eq, List.map_flatMap]
  rfl

theorem mem_nodes_iff {c d : Cst} : d ∈ c.nodes ↔ d = c ∨ Inside d c := by
  induction c using inductionOn with
  | step c ih =>
    rw [nodes_eq, List.mem_cons, List.mem_flatMap]
    refine or_congr_right ⟨?_, fun hd => ?_⟩
    · rintro ⟨e, he, hd⟩
      rcases (ih e (.of_child he)).1 hd with rfl | hd
      · exact .of_child he
      · exact hd.trans (.of_child he)
    · obtain ⟨e, hde, he⟩ := Relation.TransGen.tail'_iff.1 hd
      refine ⟨e, he, (ih e (.of_child he)).2 ?_⟩
      exact (Relation.reflTransGen_iff_eq_or_transGen.1 hde).imp_left Eq.symm

theorem every_iff_nodes {c : Cst} {P : Cst → Prop} : c.Every P ↔ ∀ d ∈ c.nodes, P d := by
  simp only [mem_nodes_iff, forall_eq_or_imp]
  rfl

/-- A property of all nodes can be decided node by node. -/
instance {P : Cst → Prop} [DecidablePred P] (c : Cst) : Decidable (c.Every P) :=
  decidable_of_iff _ every_iff_nodes.symm

/-- The assignment `d` is the right-hand side of the assignment `c` and goes on with its chain. -/
def continues (c d : Cst) : Bool :=
  c.form = .assignment && d.label.field = some "right" && d.form = .assignment &&
    (d.field? "type").isNone

/-- What a node counts for. Within a chain only the first assignment counts by its position, but
each counts for a target. -/
def weight (w : Weights M) (continued : Bool) (d : Cst) : M :=
  if d.label.named then
    match d.form with
    | .call => w.call d.position
    | .subscript => w.subscript d.position
    | .augmented => w.augassign d.position
    | .assignment =>
      if (d.field? "right").isSome then
        (if continued then 0 else w.assign d.position) + w.target
      else 0
    | _ => 0
  else 0

/-- The weight of all nodes inside `c`. -/
def total (w : Weights M) (c : Cst) : M :=
  (c.edges.map (fun e => e.2.weight w (e.1.continues e.2))).sum

/-- The weight of the child `d` of `c` with what stands inside it. -/
def share (w : Weights M) (c d : Cst) : M := d.weight w (c.continues d) + d.total w

/-- The weight of a node that goes on with no chain, with what stands inside it. -/
def whole (w : Weights M) (d : Cst) : M := d.weight w false + d.total w

section

variable (w : Weights M) {c d : Cst}

theorem total_eq : c.total w = (c.children.map (share w c)).sum := by
  rw [total, edges_eq, sum_map_flatMap]
  rfl

theorem share_eq_whole (h : c.continues d = false) : share w c d = d.whole w := by
  rw [share, h, whole]

theorem continues_of_form (h : c.form ≠ .assignment) : c.continues d = false := by
  simp [continues, h]

theorem continues_of_field {name : String} (h : d.label.field = some name)
    (hname : name ≠ "right") :
    c.continues d = false := by
  simp [continues, h, hname]

theorem weight_eq_zero (h : d.isFlaggable = false) (continued : Bool) :
    d.weight w continued = 0 := by
  unfold weight
  split
  · rename_i hnamed
    simp only [isFlaggable, hnamed, Bool.true_and] at h
    cases hform : d.form with
    | assignment | augmented | call | subscript => simp [hform] at h
    | _ => rfl
  · rfl

theorem total_of_leaf (h : c.children = []) : c.total w = 0 := by
  rw [total_eq, h]
  rfl

theorem form_comment {c : Cst} (h : c.type = "comment") : c.form = .other := by
  rw [form, h]
  rfl

theorem isFlaggable_of_bare (h : c.isPart = false) : c.isFlaggable = false := by
  cases hnamed : c.label.named with
  | false => simp [isFlaggable, hnamed]
  | true =>
    have htype : c.type = "comment" := by simpa [isPart, hnamed] using h
    simp [isFlaggable, form_comment htype]

theorem share_of_leaf (hleaf : d.children = []) (h : d.isFlaggable = false) : share w c d = 0 := by
  rw [share, weight_eq_zero w h, total_of_leaf w hleaf, add_zero]

theorem share_of_bare {role : Role} (h : Shaped role c) (hd : d ∈ c.children)
    (hbare : d.isPart = false) : share w c d = 0 :=
  share_of_leaf w (h.bare hd hbare) (isFlaggable_of_bare hbare)

/-- A node with nothing to look at inside weighs nothing inside. -/
theorem total_of_clean (h : ∀ d, Inside d c → d.isFlaggable = false) : c.total w = 0 := by
  induction c using inductionOn with
  | step c ih =>
    rw [total_eq]
    apply List.sum_eq_zero
    intro x hx
    obtain ⟨d, hd, rfl⟩ := List.mem_map.1 hx
    have hin := Inside.of_child hd
    rw [share, weight_eq_zero w (h d hin), ih d hin (fun e he => h e (he.trans hin)), add_zero]

/-! ## By parts and by fields -/

theorem total_of_parts {role : Role} (h : Shaped role c) (hform : c.form ≠ .assignment) :
    c.total w = (c.parts.map (whole w)).sum := by
  have hshare : c.children.map (share w c) = c.children.map (whole w) :=
    List.map_congr_left (fun d _ => share_eq_whole w (continues_of_form hform))
  rw [total_eq, hshare]
  apply sum_map_filter
  intro d hd hbare
  rw [← share_eq_whole w (continues_of_form hform)]
  exact share_of_bare w h hd hbare

theorem total_of_fields {role : Role} {fields : List String} (h : Shaped role c)
    (hfields : c.HasFields fields) (hnodup : fields.Nodup) :
    c.total w = (fields.map (fun f => ((c.field? f).toList.map (share w c)).sum)).sum := by
  have hknown : ∀ d ∈ c.children, share w c d ≠ 0 → ∃ f ∈ fields, d.label.field = some f := by
    intro d hd hshare
    cases hpart : d.isPart with
    | true => exact hfields.known d (List.mem_filter.2 ⟨hd, hpart⟩)
    | false => exact (hshare (share_of_bare w h hd hpart)).elim
  rw [total_eq, sum_map_by_key hnodup hknown]
  congr 1
  apply List.map_congr_left
  intro f hf
  rw [field?, toList_find? (hfields.once f hf)]
  simp only [beq_eq_decide]

theorem whole_of_fields {role : Role} {fields : List String} (h : Shaped role c)
    (hform : c.form ≠ .assignment) (hfields : c.HasFields fields) (hnodup : fields.Nodup) :
    c.whole w = c.weight w false +
      (fields.map (fun f => ((c.field? f).toList.map (whole w)).sum)).sum := by
  have hshare : ∀ f, (c.field? f).toList.map (share w c) = (c.field? f).toList.map (whole w) :=
    fun f => List.map_congr_left (fun d _ => share_eq_whole w (continues_of_form hform))
  simp only [whole, total_of_fields w h hfields hnodup, hshare]

theorem sum_share {name : String} (h : name ≠ "right") :
    ((c.field? name).toList.map (share w c)).sum = ((c.field? name).toList.map (whole w)).sum := by
  congr 1
  apply List.map_congr_left
  intro d hd
  exact share_eq_whole w (continues_of_field (field?_eq_some (Option.mem_toList.1 hd)).2 h)

theorem whole_of_word (h : Shaped .word d) : d.whole w = 0 := by
  obtain ⟨hleaf, hflag⟩ := h.here.fits
  rw [whole, weight_eq_zero w hflag, total_of_leaf w hleaf, add_zero]

theorem whole_of_bare {role : Role} (h : Shaped role d) (hbare : d.isPart = false) :
    d.whole w = 0 := by
  rw [whole, weight_eq_zero w (isFlaggable_of_bare hbare), total_of_leaf w (h.here.bare hbare),
    add_zero]

/-- A node that nothing is reported for weighs as much as its parts. -/
theorem whole_of_list {role : Role} (h : Shaped role d) (hflag : d.isFlaggable = false) :
    d.whole w = (d.parts.map (whole w)).sum := by
  cases hpart : d.isPart with
  | false =>
    have hparts : d.parts = [] := by simp [parts, h.here.bare hpart]
    rw [whole_of_bare w h hpart, hparts]
    rfl
  | true =>
    have hform : d.form ≠ .assignment := by
      intro hform
      have hnamed : d.label.named = true := by
        simp only [isPart, Bool.and_eq_true] at hpart
        exact hpart.1
      simp [isFlaggable, hnamed, hform] at hflag
    rw [whole, weight_eq_zero w hflag, zero_add, total_of_parts w h hform]

end

end Cst
end ChainLint
