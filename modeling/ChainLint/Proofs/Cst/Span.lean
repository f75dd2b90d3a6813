import ChainLint.Proofs.Cst.Weight
import ChainLint.Proofs.Tree.Trail
import Mathlib.Algebra.Order.Ring.Rat

/-!
# ChainLint.Proofs.Cst.Span

The positions that a visit comes by, in a tree and in concrete syntax.

* `Node.marks`: the positions of the nodes of a tree, in the order of the visit.
* `Cst.marks`: the positions of the parts inside a concrete node, in document order. `Cst.span`: the
  node's own in front of them.
* `Along`: the visit of some nodes goes along a list of positions.
-/

namespace ChainLint

namespace Position

theorem le_iff {p q : Position} :
    p.le q = true ↔ p.line < q.line ∨ p.line = q.line ∧ p.column ≤ q.column := by
  unfold le
  split
  · rename_i heq
    simp [heq]
  · rename_i hne
    simp [hne]

theorem le_refl (p : Position) : p.le p = true := by
  simp [le_iff]

theorem le_trans {p q r : Position} (h₁ : p.le q = true) (h₂ : q.le r = true) :
    p.le r = true := by
  rw [le_iff] at *
  rcases h₁ with h₁ | ⟨h₁, h₁'⟩
  · rcases h₂ with h₂ | ⟨h₂, -⟩
    · exact .inl (h₁.trans h₂)
    · exact .inl (h₂ ▸ h₁)
  · rcases h₂ with h₂ | ⟨h₂, h₂'⟩
    · exact .inl (h₁ ▸ h₂)
    · exact .inr ⟨h₁.trans h₂, h₁'.trans h₂'⟩

theorem le_total (p q : Position) : p.le q = true ∨ q.le p = true := by
  rw [le_iff, le_iff]
  rcases lt_trichotomy p.line q.line with h | h | h
  · exact .inl (.inl h)
  · rcases le_or_gt p.column q.column with hc | hc
    · exact .inl (.inr ⟨h, hc⟩)
    · exact .inr (.inr ⟨h.symm, hc.le⟩)
  · exact .inr (.inl h)

theorem le_antisymm {p q : Position} (h₁ : p.le q = true) (h₂ : q.le p = true) : p = q := by
  rw [le_iff] at *
  rcases h₁ with h₁ | ⟨h₁, h₁'⟩
  · rcases h₂ with h₂ | ⟨h₂, -⟩
    · exact (lt_asymm h₁ h₂).elim
    · exact (h₂.not_gt h₁).elim
  · rcases h₂ with h₂ | ⟨-, h₂'⟩
    · exact (h₁.not_gt h₂).elim
    · cases p
      cases q
      exact congrArg₂ _ h₁ (Rat.le_antisymm h₁' h₂')

end Position

/-- Positions from the first line to the last, and in a line from left to right. -/
abbrev InOrder (ps : List Position) : Prop := ps.Pairwise (fun p q => p.le q = true)

/-! ## Trees -/

/-- Positions in the order of a visit. -/
def Node.marks (n : Node) : List Position := n.nodes.map Node.position

theorem Node.marks_eq (n : Node) : n.marks = n.position :: n.children.flatMap marks := by
  rw [marks, nodes_eq, List.map_cons, List.map_flatMap]
  rfl

/-- The nodes that are met in the visit of `ns` stand at some of the positions, one after another,
and are of kinds that can be visited. -/
structure Along (ps : List Position) (ns : List Node) : Prop where
  order : (ns.flatMap Node.marks).Sublist ps
  known : ∀ n ∈ ns, n.Every (fun m => m.isKnown = true)

namespace Along

variable {ps qs : List Position} {ns ms : List Node}

theorem nil : Along ps [] := ⟨List.nil_sublist _, by simp⟩

theorem mono (h : Along ps ns) (hps : ps.Sublist qs) : Along qs ns := ⟨h.order.trans hps, h.known⟩

theorem append (h : Along ps ns) (h' : Along qs ms) : Along (ps ++ qs) (ns ++ ms) := by
  refine ⟨?_, List.forall_mem_append.2 ⟨h.known, h'.known⟩⟩
  rw [List.flatMap_append]
  exact h.order.append h'.order

theorem node {n : Node} (hknown : n.isKnown = true) (h : Along ps n.children) :
    Along (n.position :: ps) [n] := by
  refine ⟨?_, ?_⟩
  · rw [List.flatMap_singleton, n.marks_eq]
    exact h.order.cons_cons _
  · rw [List.forall_mem_singleton, Node.every_iff]
    exact ⟨hknown, h.known⟩

theorem position_mem {n : Node} (h : Along ps [n]) : n.position ∈ ps := by
  refine h.order.subset ?_
  rw [List.flatMap_singleton, n.marks_eq]
  exact List.mem_cons_self

theorem of_forall₂ {α : Type} {R : α → Node → Prop} {as : List α} (h : List.Forall₂ R as ns)
    {f : α → List Position} (hR : ∀ a ∈ as, ∀ n, R a n → Along (f a) [n]) :
    Along (as.flatMap f) ns := by
  induction h with
  | nil => exact .nil
  | cons hab _ ih =>
    exact (hR _ (by simp) _ hab).append (ih (fun a ha => hR a (by simp [ha])))

end Along

/-! ## Concrete syntax -/

namespace Cst

/-- The position of a part; other nodes have no place in a tree. -/
def mark (c : Cst) : List Position := if c.isPart then [c.position] else []

/-- Positions of the parts inside a node, at any depth, in document order. -/
def marks (c : Cst) : List Position := c.edges.flatMap (fun e => e.2.mark)

/-- The position of a node, and those of the parts inside it. -/
def span (c : Cst) : List Position := c.position :: c.marks

theorem marks_eq (c : Cst) : c.marks = c.children.flatMap (fun d => d.mark ++ d.marks) := by
  rw [marks, edges_eq, List.flatMap_assoc]
  simp only [List.flatMap_cons]
  rfl

theorem mark_append_marks {c : Cst} (h : c.isPart = true) : c.mark ++ c.marks = c.span := by
  rw [mark, if_pos h]
  rfl

theorem spans_sublist {ds cs : List Cst} (h : ds.Sublist cs) (hparts : ∀ d ∈ ds, d.isPart = true) :
    (ds.flatMap span).Sublist (cs.flatMap (fun d => d.mark ++ d.marks)) := by
  induction h with
  | slnil => exact .slnil
  | cons a _ ih => exact (ih hparts).trans (List.sublist_append_right _ _)
  | cons_cons a _ ih =>
    rw [List.flatMap_cons, List.flatMap_cons, mark_append_marks (hparts a (by simp))]
    exact (List.Sublist.refl _).append (ih (fun d hd => hparts d (by simp [hd])))

theorem spans_sublist_marks {c : Cst} {ds : List Cst} (h : ds.Sublist c.children)
    (hparts : ∀ d ∈ ds, d.isPart = true) : (ds.flatMap span).Sublist c.marks := by
  rw [marks_eq]
  exact spans_sublist h hparts

theorem isPart_of_mem_parts {c d : Cst} (h : d ∈ c.parts) : d.isPart = true :=
  (List.mem_filter.1 h).2

theorem parts_sublist_marks (c : Cst) : (c.parts.flatMap span).Sublist c.marks :=
  spans_sublist_marks List.filter_sublist (fun _ hd => isPart_of_mem_parts hd)

theorem marks_sublist_of_child {c d : Cst} (h : d ∈ c.children) : d.marks.Sublist c.marks := by
  rw [c.marks_eq]
  obtain ⟨l, r, heq⟩ := List.append_of_mem h
  rw [heq, List.flatMap_append, List.flatMap_cons]
  exact ((List.sublist_append_right _ _).trans (List.sublist_append_left _ _)).trans
    (List.sublist_append_right _ _)

theorem Inside.marks_sublist {c d : Cst} (h : Inside d c) : d.marks.Sublist c.marks := by
  induction h with
  | single h => exact marks_sublist_of_child h
  | tail _ h ih => exact ih.trans (marks_sublist_of_child h)

/-- A part inside a node is met with all that stands inside it. -/
theorem Inside.span_sublist {c d : Cst} (h : Inside d c) (hd : d.isPart = true) :
    d.span.Sublist c.marks := by
  obtain ⟨e, hde, hec⟩ := Relation.TransGen.head'_iff.1 h
  have hspan : d.span.Sublist e.marks := by
    have := spans_sublist_marks (List.singleton_sublist.2 hde) (by simp [hd])
    rwa [List.flatMap_singleton] at this
  rcases Relation.reflTransGen_iff_eq_or_transGen.1 hec with rfl | hec
  · exact hspan
  · exact hspan.trans (Inside.marks_sublist hec)

end Cst
end ChainLint
