import ChainLint.Cst.Convert
import ChainLint.Proofs.Cst.Inside
import ChainLint.Proofs.Outcome

/-!
# ChainLint.Proofs.Cst.Unfold

The conversion without its fuel.

* `convertNode_congr`: the conversion of a node looks only inside the node.
* `convertWithin_of_depth_le`: any fuel that is not less than the depth of a node will do.
* `convert_eq`: the conversion of a node is `convertNode` over the conversion itself.
-/

namespace ChainLint
namespace Cst

section congr

variable {source : Array (Option Char)} {f g : Cst → Except Malformed Node} {c : Cst}

/-- A field that is read and converted. -/
theorem require_congr (h : ∀ d, Inside d c → f d = g d) (name : String)
    {k k' : Node → Except Malformed Node} (hk : ∀ n, k n = k' n) :
    (do k (← f (← c.require name))) = (do k' (← g (← c.require name))) := by
  refine bind_congr_ok fun d hd => ?_
  rw [h d (.of_field (require_eq_ok.1 hd))]
  exact bind_congr_ok fun n _ => hk n

theorem parts_congr (h : ∀ d, Inside d c → f d = g d) : c.parts.mapM f = c.parts.mapM g :=
  mapM_congr (fun d hd => h d (.of_part hd))

theorem otherNode_congr (h : ∀ d, Inside d c → f d = g d) : otherNode f c = otherNode g c := by
  rw [otherNode, otherNode, parts_congr h]

theorem convertOptional_congr (h : ∀ d, Inside d c → f d = g d) (name : String) :
    convertOptional f (c.field? name) = convertOptional g (c.field? name) := by
  cases hd : c.field? name with
  | none => rfl
  | some d => rw [convertOptional, convertOptional, h d (.of_field hd)]

theorem convertList_congr (h : ∀ d, Inside d c → f d = g d) (name : String) :
    convertList f (c.field? name) = convertList g (c.field? name) := by
  cases hd : c.field? name with
  | none => rfl
  | some d => exact parts_congr (fun e he => h e (he.trans (.of_field hd)))

/-- The body of a function or a class, which is a list of statements. -/
theorem body_congr (h : ∀ d, Inside d c → f d = g d) {k : List Node → Except Malformed Node} :
    (do k (← (← c.require "body").parts.mapM f)) =
      (do k (← (← c.require "body").parts.mapM g)) := by
  refine bind_congr_ok fun body hbody => ?_
  rw [parts_congr (fun d hd => h d (hd.trans (.of_field (require_eq_ok.1 hbody))))]

theorem assignmentChain_congr (h : ∀ d, Inside d c → f d = g d) {right : Cst}
    (hright : Inside right c) (fuel : Nat) :
    assignmentChain f fuel right = assignmentChain g fuel right := by
  induction fuel generalizing right with
  | zero => rfl
  | succ fuel ih =>
    unfold assignmentChain
    split
    · split
      · rfl
      · rename_i next hnext
        refine bind_congr_ok fun left hleft => ?_
        rw [h left (Inside.trans (.of_field (require_eq_ok.1 hleft)) hright),
          ih (Inside.trans (.of_field hnext) hright)]
    · rfl

theorem inside_of_assignmentChain {right value : Cst} {targets : List Node} {fuel : Nat}
    (h : assignmentChain f fuel right = .ok (targets, value)) (hright : Inside right c) :
    Inside value c := by
  induction fuel generalizing right targets with
  | zero =>
    cases h
    exact hright
  | succ fuel ih =>
    unfold assignmentChain at h
    split at h
    · split at h
      · cases h
        exact hright
      · rename_i next hnext
        obtain ⟨left, -, h⟩ := bind_eq_ok.1 h
        obtain ⟨target, -, h⟩ := bind_eq_ok.1 h
        obtain ⟨⟨targets', value'⟩, hrest, h⟩ := bind_eq_ok.1 h
        cases h
        exact ih hrest (Inside.trans (.of_field hnext) hright)
    · cases h
      exact hright

theorem convertAssignment_congr (h : ∀ d, Inside d c → f d = g d) :
    convertAssignment f c = convertAssignment g c := by
  refine require_congr h "left" fun target => ?_
  cases hright : c.field? "right" with
  | none => simp only [convertOptional_congr h]
  | some right =>
    simp only [assignmentChain_congr h (.of_field hright), convertOptional_congr h]
    refine bind_congr_ok fun r hr => bind_congr_ok fun hint _ => ?_
    rw [h r.2 (inside_of_assignmentChain hr (.of_field hright))]

theorem convertArgument_congr {d : Cst} (h : ∀ e, Inside e d → f e = g e) (hd : f d = g d) :
    convertArgument source f d = convertArgument source g d := by
  unfold convertArgument
  split
  · refine bind_congr_ok fun _ _ => ?_
    exact require_congr h "value" fun _ => rfl
  · split
    · cases hparts : d.parts with
      | nil => rfl
      | cons value rest => simp only [h value (.of_part (by simp [hparts]))]
    · exact hd

theorem convertCall_congr (h : ∀ d, Inside d c → f d = g d) :
    convertCall source f c = convertCall source g c := by
  refine require_congr h "function" fun func => ?_
  refine bind_congr_ok fun arguments harguments => ?_
  have hin := Inside.of_field (require_eq_ok.1 harguments)
  have hnodes : arguments.parts.mapM (convertArgument source f) =
      arguments.parts.mapM (convertArgument source g) := by
    apply mapM_congr
    intro d hd
    have hd := Inside.trans (.of_part hd) hin
    exact convertArgument_congr (fun e he => h e (he.trans hd)) (h d hd)
  simp only [hnodes, h arguments hin]

theorem convertSubscript_congr (h : ∀ d, Inside d c → f d = g d) :
    convertSubscript f c = convertSubscript g c := by
  have hpart : ∀ d ∈ c.parts, f d = g d := fun d hd => h d (.of_part hd)
  unfold convertSubscript
  split
  · rfl
  · rename_i value indices hparts
    rw [hpart value (by simp [hparts]),
      mapM_congr (fun d hd => hpart d (by simp [hparts, hd]))]

theorem convertComparison_congr (h : ∀ d, Inside d c → f d = g d) :
    convertComparison source f c = convertComparison source g c := by
  have hpart : ∀ d ∈ c.parts, f d = g d := fun d hd => h d (.of_part hd)
  unfold convertComparison
  split
  · rfl
  · rename_i left comparators hparts
    rw [hpart left (by simp [hparts]),
      mapM_congr (fun d hd => hpart d (by simp [hparts, hd]))]

/-- The conversion of a node depends only on that of the nodes inside it. -/
theorem convertNode_congr (h : ∀ d, Inside d c → f d = g d) :
    convertNode source f c = convertNode source g c := by
  unfold convertNode
  cases c.form with
  | wrapper =>
    cases hparts : c.parts with
    | nil => exact otherNode_congr h
    | cons inner rest =>
      cases rest with
      | nil => exact h inner (.of_part (by simp [hparts]))
      | cons => exact otherNode_congr h
  | assignment => exact convertAssignment_congr h
  | augmented =>
    refine require_congr h "left" fun _ => bind_congr_ok fun _ _ => ?_
    exact require_congr h "right" fun _ => rfl
  | function =>
    refine bind_congr_ok fun _ _ => ?_
    simp only [convertList_congr h, convertOptional_congr h]
    exact bind_congr_ok fun _ _ => bind_congr_ok fun _ _ => body_congr h
  | classDef =>
    refine bind_congr_ok fun _ _ => ?_
    simp only [convertList_congr h]
    exact bind_congr_ok fun _ _ => body_congr h
  | call => exact convertCall_congr h
  | attr => exact require_congr h "object" fun _ => rfl
  | subscript => exact convertSubscript_congr h
  | identifier => rfl
  | comparison => exact convertComparison_congr h
  | binary =>
    refine require_congr h "left" fun _ => bind_congr_ok fun _ _ => ?_
    exact require_congr h "right" fun _ => rfl
  | boolean =>
    refine bind_congr_ok fun _ _ => require_congr h "left" fun _ => ?_
    exact require_congr h "right" fun _ => rfl
  | unary =>
    refine bind_congr_ok fun _ _ => ?_
    exact require_congr h "argument" fun _ => rfl
  | negation => exact require_congr h "argument" fun _ => rfl
  | lambda =>
    simp only [convertList_congr h]
    exact bind_congr_ok fun _ _ => require_congr h "body" fun _ => rfl
  | string => simp only [otherNode_congr h]
  | literal l => rfl
  | other => exact otherNode_congr h

end congr

theorem convertWithin_of_depth_le {source : Array (Option Char)} {c : Cst} {fuel : Nat}
    (h : c.depth ≤ fuel) : convertWithin source fuel c = convert source c := by
  induction fuel using Nat.strongRecOn generalizing c with
  | ind fuel ih =>
    obtain ⟨k, hk⟩ := c.exists_depth_eq
    obtain ⟨j, rfl⟩ : ∃ j, fuel = j + 1 := ⟨fuel - 1, by omega⟩
    rw [convert, hk, convertWithin, convertWithin]
    apply convertNode_congr
    intro d hd
    have hlt := hd.depth_lt
    rw [ih j (by omega) (by omega), ih k (by omega) (by omega)]

/-- The conversion of a node over the conversion of the nodes inside it. -/
theorem convert_eq (source : Array (Option Char)) (c : Cst) :
    convert source c = convertNode source (convert source) c := by
  obtain ⟨k, hk⟩ := c.exists_depth_eq
  rw [convert, hk]
  exact convertNode_congr (fun d hd => convertWithin_of_depth_le (by have := hd.depth_lt; omega))

end Cst
end ChainLint
