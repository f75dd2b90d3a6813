import ChainLint.Proofs.Engine.Context
import ChainLint.Proofs.Engine.Firing
import Mathlib.Data.Rat.Defs

/-!
# ChainLint.Proofs.Engine.Reference

A check against a naive evaluation that knows no dispatch, no stack and no silenced ids: node by
node, each rule is asked whether it fires in the context of the node.

* `Fires`: who fires where, by the law of firing at every node of a tree.
* `evaluation`: the findings of the rules that fire.
* `check_eq_evaluation`: on acceptable trees, a check gives the same findings.
-/

namespace ChainLint

/-- At every node of the tree, the law of firing holds in the context of the node. -/
def Fires (rules : List Rule) (root : Node) (fires : Stop → Rule → Bool) : Prop :=
  ∀ s ∈ root.entries, FiringLaw rules s.node (root.contextAt s.place) (fun r => fires s r = true)

/-- One finding for each node in the order of the visit and each rule, in the order of trial, that
fires there. -/
def evaluation (rules : List Rule) (root : Node) (fires : Stop → Rule → Bool) : List Finding :=
  root.entries.flatMap (fun s =>
    ((firingOrder rules).filter (fires s)).map (fun r => findingAt r s.node))

/-- A finding on an acceptable node has the position of the node. -/
theorem findingAt_position {n : Node} (h : inspect n = .ok ()) (r : Rule) :
    (⟨(findingAt r n).line, (findingAt r n).column⟩ : Position) = n.position := by
  obtain ⟨hline, hcolumn, -, -⟩ := (inspect_eq_ok.1 h).1
  have h₁ : ((findingAt r n).line : Rat) = n.position.line :=
    Rat.coe_int_num_of_den_eq_one hline
  have h₂ : ((findingAt r n).column : Rat) = n.position.column :=
    Rat.coe_int_num_of_den_eq_one hcolumn
  rw [h₁, h₂]

theorem exists_fires {rules : List Rule} (hrules : Orderly rules) (root : Node) :
    ∃ fires, Fires rules root fires := by
  classical
  refine ⟨fun s r => decide (r ∈ kept s.node (root.contextAt s.place) []
    (offered (firingOrder rules) s.node.kind)), ?_⟩
  intro s _
  simpa using kept_law hrules s.node (root.contextAt s.place)

theorem check_of_fires {rules : List Rule} (hrules : Orderly rules) {root : Node}
    (hroot : root.Every Accepted) {fires : Stop → Rule → Bool}
    (h : Fires rules root fires) : check rules root = .ok (evaluation rules root fires) := by
  obtain ⟨found, hfound⟩ := report_isOk_iff.2 hroot
  rw [check_eq_report, hfound, report_eq hfound]
  refine congrArg Except.ok ?_
  beta_reduce
  rw [List.map_flatMap, evaluation, List.flatMap_def, List.flatMap_def]
  congr 1
  apply List.map_congr_left
  intro s hs
  rw [fire_eq hrules (h s hs), List.map_map]
  exact List.map_id _

/-- At most one finding for each rule. -/
theorem nodup_firing {rules : List Rule} (hrules : Orderly rules) (fires : Rule → Bool) :
    (((firingOrder rules).filter fires).map Rule.id).Nodup := by
  have hids : ((firingOrder rules).map Rule.id).Nodup :=
    ((firingOrder_perm hrules.ids).map Rule.id).nodup_iff.2 hrules.ids
  exact hids.sublist (List.filter_sublist.map Rule.id)

/-- A rule is silent where one that supersedes it fires. -/
theorem not_fires_of_superseded {rules : List Rule} {n : Node} {b : Bindings}
    {fires : Rule → Bool} (h : FiringLaw rules n b (fun r => fires r = true)) {q r : Rule}
    (hq : q ∈ rules) (hr : r ∈ rules) (hne : q ≠ r) (hsup : r.id ∈ q.supersedes)
    (hfires : fires q = true) : fires r = false := by
  rw [← Bool.not_eq_true]
  intro hfire
  exact ((h r hr).1 hfire).2.2 q hq hne hfires hsup

/-- Checking a tree of acceptable nodes is evaluating the rules naively: there is one way to say
who fires where, and the findings are those of the firing rules, node by node in the order of the
walk. A node has at most one finding of a rule, with the node's position, and an assignment of
labels is not also reported as one of attributes. -/
theorem check_eq_evaluation {rules : List Rule} (hrules : Orderly rules) {root : Node}
    (hroot : root.Every (fun n => inspect n = .ok () ∧ n.isKnown = true)) :
    walk none root = .ok (root.stops.map Stop.toEvent) ∧
    (firingOrder rules).Perm rules ∧
    (∃ fires, Fires rules root fires) ∧
    ∀ fires, Fires rules root fires →
      check rules root = .ok (evaluation rules root fires) ∧
      ∀ s ∈ root.entries,
        (∀ r, (⟨(findingAt r s.node).line, (findingAt r s.node).column⟩ : Position) =
          s.node.position) ∧
        (((firingOrder rules).filter (fires s)).map Rule.id).Nodup ∧
        (assignIndexColumns ∈ rules → fires s assignIndexColumns = true →
          ∀ r ∈ rules, r.id = "PMC005" → fires s r = false) := by
  have haccept : root.Every Accepted :=
    fun place n hn => accept_eq_ok.2 (hroot place n hn)
  refine ⟨Node.walk_eq_trail (fun place n hn => (hroot place n hn).2) none [],
    firingOrder_perm hrules.ids, exists_fires hrules root, ?_⟩
  intro fires hfires
  refine ⟨check_of_fires hrules haccept hfires, ?_⟩
  intro s hs
  refine ⟨?_, nodup_firing hrules (fires s), ?_⟩
  · intro r
    have hin : s ∈ root.stops := List.mem_of_mem_filter hs
    exact findingAt_position (Node.every_iff_stops.1 hroot s hin).1 r
  · intro hlabels hfire r hr hid
    have hne : assignIndexColumns ≠ r := by
      rintro rfl
      exact absurd hid (by decide)
    refine not_fires_of_superseded (hfires s hs) hlabels hr hne ?_ hfire
    rw [hid]
    decide

/-- `df.index = df.a = 0`, with the superseded rule listed first. -/
theorem check_eq_evaluation_labels :
    let rules := [assignWithAttribute, assignIndexColumns]
    let root : Node := .module (.at 1 0) [.assign (.at 1 0)
      [.attr (.at 1 0) (.name (.at 1 0) "df") "index", .attr (.at 1 11) (.name (.at 1 11) "df") "a"]
      none (.constant (.at 1 18) .number "0")]
    Orderly rules ∧ root.Every (fun n => inspect n = .ok () ∧ n.isKnown = true) ∧
      ∃ fires, Fires rules root fires ∧ check rules root = .ok (evaluation rules root fires) := by
  intro rules root
  have hrules : Orderly rules := orderly_of_sublist
    (.cons _ (.cons _ (.cons _ (.cons _ (.cons_cons _ (.cons_cons _ (.cons _ .slnil)))))))
  have hroot : root.Every (fun n => inspect n = .ok () ∧ n.isKnown = true) := by
    simp only [root, Node.every_module, Node.every_assign, Node.every_attr, Node.every_name,
      Node.every_constant, Option.toList_none, List.append_nil, List.cons_append, List.nil_append,
      List.forall_mem_cons, List.not_mem_nil, false_imp_iff, implies_true, and_true]
    repeat' constructor
  obtain ⟨-, -, ⟨fires, hfires⟩, h⟩ := check_eq_evaluation hrules hroot
  exact ⟨hrules, hroot, fires, hfires, (h fires hfires).1⟩

end ChainLint
