import ChainLint.Proofs.Cst.Converts
import ChainLint.Proofs.Engine.Mask
import ChainLint.Proofs.Engine.Simulation

/-!
# ChainLint.Proofs.Cst.Chained

Assignments that stand on the right of one another: `a = b = c = value`.

* `Chained`: the left-hand sides and the value, read off the concrete syntax alone.
* `assignmentChain_of_chained`, `convertAssignment_of_chained`: such a chain is converted left-hand
  side by left-hand side, and is one assignment.
* `has_of_visit_assign`: what is bound when an assignment is left.
* `convert_chained_binds`: the two together.
-/

namespace ChainLint
namespace Cst

/-- The left-hand sides of the assignments from `c` on, the outermost first, and the value of the
innermost. Only the outermost may be annotated. The value does not go on with the chain. -/
inductive Chained : Cst → List Cst → Cst → Prop where
  | last {c left value : Cst} (hform : c.form = .assignment)
      (hleft : c.field? "left" = some left) (hright : c.field? "right" = some value)
      (hend : value.form = .assignment → value.field? "type" = none →
        value.field? "right" = none) :
      Chained c [left] value
  | link {c left next value : Cst} {lefts : List Cst} (hform : c.form = .assignment)
      (hleft : c.field? "left" = some left) (hright : c.field? "right" = some next)
      (hplain : next.field? "type" = none) (hrest : Chained next lefts value) :
      Chained c (left :: lefts) value

section chained

variable {below : Cst → Except Malformed Node} {c value : Cst} {lefts : List Cst}

theorem Chained.exists_fields (h : Chained c lefts value) :
    ∃ left rest right, lefts = left :: rest ∧ c.form = .assignment ∧
      c.field? "left" = some left ∧ c.field? "right" = some right := by
  cases h with
  | last hform hleft hright => exact ⟨_, _, _, rfl, hform, hleft, hright⟩
  | link hform hleft hright => exact ⟨_, _, _, rfl, hform, hleft, hright⟩

/-- The loop over the right-hand sides goes to the end of the chain and no further. -/
theorem assignmentChain_of_chained (h : Chained c lefts value) {right : Cst}
    (hright : c.field? "right" = some right) {fuel : Nat} (hfuel : right.depth ≤ fuel) :
    assignmentChain below fuel right = (do
      let targets ← lefts.tail.mapM below
      return (targets, value)) := by
  induction h generalizing right fuel with
  | last _ _ hvalue hend =>
    cases hvalue.symm.trans hright
    cases fuel with
    | zero => rfl
    | succ fuel =>
      -- The value is no plain assignment, or is one without a right-hand side.
      rw [assignmentChain]
      split
      · rename_i hgoes
        rw [hend hgoes.1 (Option.isNone_iff_eq_none.1 hgoes.2)]
        rfl
      · rfl
  | link _ _ hnext hplain hrest ih =>
    cases hnext.symm.trans hright
    -- The right-hand side is an assignment itself, so the loop takes its target and goes on.
    obtain ⟨left, rest, next, rfl, hform, hleft, hgoes⟩ := hrest.exists_fields
    have hlt := (Inside.of_field hgoes).depth_lt
    obtain ⟨fuel, rfl⟩ : ∃ k, fuel = k + 1 := ⟨fuel - 1, by omega⟩
    have hchain := ih hgoes (show next.depth ≤ fuel by omega)
    rw [assignmentChain, if_pos ⟨hform, by simp [hplain]⟩, hgoes, List.tail_cons, List.mapM_cons]
    simp only [hchain, List.tail_cons, bind_assoc, pure_bind]
    rw [require_eq_ok.2 hleft]
    rfl

theorem convertAssignment_of_chained (h : Chained c lefts value) :
    convertAssignment below c = (do
      let targets ← lefts.mapM below
      let hint ← convertOptional below (c.field? "type")
      return .assign c.position targets hint (← below value)) := by
  obtain ⟨left, rest, right, rfl, -, hleft, hright⟩ := h.exists_fields
  have hfuel := Nat.le_of_lt (Inside.of_field hright).depth_lt
  simp only [convertAssignment, require_eq_ok.2 hleft, hright, List.mapM_cons,
    assignmentChain_of_chained h hright hfuel, List.tail_cons, bind_assoc, pure_bind]
  rfl

/-- A chain is converted exactly when its left-hand sides, its annotation and its value are. -/
theorem convert_of_chained {source : Array (Option Char)} {n : Node} (h : Chained c lefts value) :
    convert source c = .ok n ↔ ∃ targets hint v,
      ConvertsAll (convert source) lefts targets ∧
      ConvertsAll (convert source) (c.field? "type").toList hint.toList ∧
      convert source value = .ok v ∧ n = .assign c.position targets hint v := by
  obtain ⟨-, -, -, -, hform, -⟩ := h.exists_fields
  rw [convert_eq, convertNode, hform]
  simp only [convertAssignment_of_chained h, bind_eq_ok, mapM_eq_ok, convertOptional_eq_ok,
    pure_eq_ok]
  constructor
  · rintro ⟨targets, htargets, hint, hhint, v, hv, rfl⟩
    exact ⟨targets, hint, v, htargets, hhint, hv, rfl⟩
  · rintro ⟨targets, hint, v, htargets, hhint, hv, rfl⟩
    exact ⟨targets, htargets, hint, hhint, v, hv, rfl⟩

end chained

end Cst

/-- When an assignment is left, the names among its targets are bound to the one origin that its
value has after the visit of its parts, and nothing else is. -/
theorem has_of_visit_assign {ordered : List Rule} {isRoot : Bool} {b b' : Bindings}
    {found : List Finding} {p : Position} {targets : List Node} {hint : Option Node} {value : Node}
    (h : visit ordered isRoot b (.assign p targets hint value) = .ok (b', found)) :
    ∃ before below,
      visitAll ordered b (targets ++ hint.toList ++ [value]) = .ok (before, below) ∧
      ∀ x o, b'.has x o = true ↔
        before.has x o = true ∨ (Names x targets ∧ o = value.origin before) := by
  have hscope : (Node.assign p targets hint value).isScope = false := rfl
  rw [visit_eq_visitAll, bind_eq_ok] at h
  obtain ⟨-, -, h⟩ := h
  simp only [hscope, Bool.false_and, Bool.false_eq_true, if_false] at h
  obtain ⟨⟨before, below⟩, hbelow, h⟩ := bind_eq_ok.1 h
  cases h
  exact ⟨before, below, hbelow, fun x o => has_bindTargets_assign⟩

/-- A chain of assignments becomes one assignment at the place of the outermost, with all targets in
order, its annotation, and the value of the innermost. Where that assignment is visited, all plain
names among the targets are bound alike, to the origin that the value has before any of them is. -/
theorem convert_chained_binds {source : Array (Option Char)} {c value : Cst} {lefts : List Cst}
    (h : Cst.Chained c lefts value) :
    (∀ n, c.convert source = .ok n ↔ ∃ targets hint v,
      Cst.ConvertsAll (Cst.convert source) lefts targets ∧
      Cst.ConvertsAll (Cst.convert source) (c.field? "type").toList hint.toList ∧
      value.convert source = .ok v ∧ n = .assign c.position targets hint v) ∧
    ∀ p targets hint v, c.convert source = .ok (.assign p targets hint v) →
      targets.length = lefts.length ∧
      ∀ ordered isRoot b b' found,
        visit ordered isRoot b (.assign p targets hint v) = .ok (b', found) →
        ∃ before below,
          visitAll ordered b (targets ++ hint.toList ++ [v]) = .ok (before, below) ∧
          ∀ x o, b'.has x o = true ↔
            before.has x o = true ∨ (Names x targets ∧ o = v.origin before) := by
  refine ⟨fun n => Cst.convert_of_chained h, fun p targets hint v hn => ⟨?_, ?_⟩⟩
  · obtain ⟨targets', hint', v', htargets, -, -, hassign⟩ := (Cst.convert_of_chained h).1 hn
    cases hassign
    exact htargets.length_eq.symm
  · intro ordered isRoot b b' found hvisit
    exact has_of_visit_assign hvisit

/-- `a: T = b = c = a` where `a` was bound to a mask: one assignment with three targets and an
annotation, after which `b` and `c` are bound to a mask as well. -/
theorem convert_chained_binds_annotated :
    let word (field : String) (start : Int) : Cst :=
      .node { type := "identifier", field, column := start, start, stop := start + 1 } []
    let inner : Cst := .node { type := "assignment", field := some "right", column := 11 }
      [word "left" 11, word "right" 15]
    let middle : Cst := .node { type := "assignment", field := some "right", column := 7 }
      [word "left" 7, inner]
    let hint : Cst := .node { type := "type", field := some "type", column := 3 } [word "" 3]
    let outer : Cst := .node { type := "assignment" } [word "left" 0, hint, middle]
    let n : Node := .assign (.at 1 0)
      [.name (.at 1 0) "a", .name (.at 1 7) "b", .name (.at 1 11) "c"]
      (some (.name (.at 1 3) "T")) (.name (.at 1 15) "a")
    outer.Chained [word "left" 0, word "left" 7, word "left" 11] (word "right" 15) ∧
    outer.convert (Text.slots "a: T = b = c = a") = .ok n ∧
    ∃ b found, visit catalog false ⟨[("a", .mask)]⟩ n = .ok (b, found) ∧
      b.has "b" .mask = true ∧ b.has "c" .mask = true := by
  intro word inner middle hint outer n
  have hchained : outer.Chained [word "left" 0, word "left" 7, word "left" 11] (word "right" 15) :=
    .link rfl rfl rfl rfl (.link rfl rfl rfl rfl (.last rfl rfl rfl nofun))
  have hconvert : outer.convert (Text.slots "a: T = b = c = a") = .ok n := rfl
  have hvisit : visit catalog false ⟨[("a", .mask)]⟩ n =
      .ok (⟨[("c", .mask), ("b", .mask), ("a", .mask), ("a", .mask)]⟩, []) := by decide +kernel
  have hparts : visitAll catalog ⟨[("a", .mask)]⟩ n.children = .ok (⟨[("a", .mask)]⟩, []) := by
    decide +kernel
  obtain ⟨-, hbinds⟩ := (convert_chained_binds hchained).2 _ _ _ _ hconvert
  obtain ⟨before, below, hbefore, hhas⟩ := hbinds _ _ _ _ _ hvisit
  cases hparts.symm.trans hbefore
  refine ⟨hchained, hconvert, _, _, hvisit, ?_, ?_⟩
  · exact (hhas "b" .mask).2 (.inr ⟨⟨.at 1 7, by simp⟩, rfl⟩)
  · exact (hhas "c" .mask).2 (.inr ⟨⟨.at 1 11, by simp⟩, rfl⟩)

end ChainLint
