import ChainLint.Cst.Basic
import Mathlib.Logic.Relation

/-!
# ChainLint.Proofs.Cst.Inside

Nodes inside a concrete node.

* `Inside`: a node stands anywhere below another one. Children, parts and fields do.
* `inductionOn`: a property that a node inherits from all nodes inside it holds of every node.
* `Every`: a property of a node and of all nodes inside it.
-/

namespace ChainLint
namespace Cst

/-- `d` stands below `c`, at any depth. -/
def Inside (d c : Cst) : Prop := Relation.TransGen (fun d c => d ∈ c.children) d c

theorem Inside.of_child {c d : Cst} (h : d ∈ c.children) : Inside d c := .single h

theorem Inside.trans {c d e : Cst} (h₁ : Inside e d) (h₂ : Inside d c) : Inside e c :=
  Relation.TransGen.trans h₁ h₂

theorem mem_parts {c d : Cst} :
    d ∈ c.parts ↔ d ∈ c.children ∧ d.label.named = true ∧ d.type ≠ "comment" := by
  simp [parts]

theorem Inside.of_part {c d : Cst} (h : d ∈ c.parts) : Inside d c := .of_child (mem_parts.1 h).1

theorem field?_eq_some {c d : Cst} {name : String} (h : c.field? name = some d) :
    d ∈ c.children ∧ d.label.field = some name := by
  refine ⟨List.mem_of_find?_eq_some h, ?_⟩
  simpa using List.find?_some h

theorem Inside.of_field {c d : Cst} {name : String} (h : c.field? name = some d) : Inside d c :=
  .of_child (field?_eq_some h).1

theorem Inside.of_mem_field {c d : Cst} {name : String} (h : d ∈ (c.field? name).toList) :
    Inside d c :=
  .of_field (Option.mem_toList.1 h)

theorem Inside.of_mem_list {c d : Cst} {name : String}
    (h : d ∈ (c.field? name).toList.flatMap parts) : Inside d c := by
  obtain ⟨list, hlist, hd⟩ := List.mem_flatMap.1 h
  exact Inside.trans (.of_part hd) (.of_mem_field hlist)

theorem require_eq_ok {c d : Cst} {name : String} :
    c.require name = .ok d ↔ c.field? name = some d := by
  unfold require
  cases c.field? name with
  | none => simp
  | some e => simp

/-! ## Depth -/

theorem depth_le_depthAll {c : Cst} {cs : List Cst} (h : c ∈ cs) : c.depth ≤ depthAll cs := by
  induction cs with
  | nil => cases h
  | cons d cs ih =>
    rw [depthAll]
    rcases List.mem_cons.1 h with rfl | h
    · exact Nat.le_max_left _ _
    · exact Nat.le_trans (ih h) (Nat.le_max_right _ _)

theorem depth_lt_of_child {c d : Cst} (h : d ∈ c.children) : d.depth < c.depth := by
  cases c with
  | node l cs =>
    have := depth_le_depthAll h
    rw [depth]
    exact Nat.lt_succ_of_le this

theorem Inside.depth_lt {c d : Cst} (h : Inside d c) : d.depth < c.depth := by
  induction h with
  | single h => exact depth_lt_of_child h
  | tail _ h ih => exact Nat.lt_trans ih (depth_lt_of_child h)

theorem exists_depth_eq (c : Cst) : ∃ k, c.depth = k + 1 := by
  cases c with
  | node l cs => exact ⟨depthAll cs, by rw [depth]⟩

theorem inductionOn {P : Cst → Prop} (c : Cst)
    (step : ∀ c : Cst, (∀ d, Inside d c → P d) → P c) : P c :=
  step c (fun d _ => inductionOn d step)
termination_by c.depth
decreasing_by exact Inside.depth_lt ‹_›

/-! ## Hereditary properties -/

/-- The node and all nodes inside it have the property. -/
def Every (P : Cst → Prop) (c : Cst) : Prop := P c ∧ ∀ d, Inside d c → P d

@[simp] theorem every_node {P : Cst → Prop} {l : CstLabel} {cs : List Cst} :
    (Cst.node l cs).Every P ↔ P (.node l cs) ∧ ∀ c ∈ cs, c.Every P := by
  constructor
  · intro h
    refine ⟨h.1, fun c hc => ⟨h.2 c (.of_child hc), fun d hd => ?_⟩⟩
    exact h.2 d (hd.trans (.of_child hc))
  · rintro ⟨hn, hcs⟩
    refine ⟨hn, fun d hd => ?_⟩
    obtain ⟨c, hdc, hc⟩ := Relation.TransGen.tail'_iff.1 hd
    rcases Relation.reflTransGen_iff_eq_or_transGen.1 hdc with rfl | hdc
    · exact (hcs _ hc).1
    · exact (hcs c hc).2 d hdc

theorem Every.inside {P : Cst → Prop} {c d : Cst} (h : c.Every P) (hd : Inside d c) :
    d.Every P :=
  ⟨h.2 d hd, fun e he => h.2 e (he.trans hd)⟩

end Cst
end ChainLint
