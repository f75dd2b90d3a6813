import ChainLint.Engine.Check
import ChainLint.Proofs.Engine.Order
import Mathlib.Data.List.Induction

/-!
# ChainLint.Proofs.Engine.Firing

Which rules fire on one node.

* `kept`: the rules behind the findings of `fireFrom`.
* `FiringLaw`: a rule fires when it is offered the node, its test holds, and no other rule that
  fires supersedes it. The law speaks of itself, so only the absence of cycles makes it a
  definition.
* `firingLaw_unique`: at most one set of rules obeys the law.
* `kept_law`, `fire_eq`: the rules that fire obey it, and the findings are theirs in order.
* `Orderly`: what all this asks of a list of rules. Every part of the catalogue has it.
-/

namespace ChainLint

/-- The rules of a list that fire on a node, given the ids silenced so far. -/
def kept (n : Node) (b : Bindings) : List String → List Rule → List Rule
  | _, [] => []
  | silenced, r :: rules =>
    if silenced.contains r.id || !r.check n b then kept n b silenced rules
    else r :: kept n b (r.supersedes ++ silenced) rules

theorem fireFrom_eq (n : Node) (b : Bindings) (silenced : List String) (rules : List Rule) :
    fireFrom n b silenced rules = (kept n b silenced rules).map (fun r => findingAt r n) := by
  induction rules generalizing silenced with
  | nil => rfl
  | cons r rules ih =>
    unfold fireFrom kept
    split
    · exact ih silenced
    · rw [ih, List.map_cons]

theorem kept_sublist (n : Node) (b : Bindings) (silenced : List String) (rules : List Rule) :
    (kept n b silenced rules).Sublist rules := by
  induction rules generalizing silenced with
  | nil => exact .slnil
  | cons r rules ih =>
    unfold kept
    split
    · exact (ih silenced).cons r
    · exact (ih _).cons_cons r

/-- When no rule supersedes an earlier one, it is the firing rules, and they alone, that silence. -/
theorem mem_kept_iff {n : Node} {b : Bindings} {silenced : List String} {rules : List Rule}
    (hnodup : rules.Nodup) (hsorted : rules.Pairwise (fun r q => r.id ∉ q.supersedes)) {r : Rule} :
    r ∈ kept n b silenced rules ↔
      r ∈ rules ∧ r.id ∉ silenced ∧ r.check n b = true ∧
        ∀ q ∈ kept n b silenced rules, q ≠ r → r.id ∉ q.supersedes := by
  induction rules generalizing silenced with
  | nil => simp [kept]
  | cons x rules ih =>
    obtain ⟨hx, hnodup⟩ := List.nodup_cons.1 hnodup
    obtain ⟨hlater, hsorted⟩ := List.pairwise_cons.1 hsorted
    unfold kept
    split
    · rename_i hsilent
      rw [ih hnodup hsorted, List.mem_cons]
      constructor
      · rintro ⟨hr, hrest⟩
        exact ⟨.inr hr, hrest⟩
      · rintro ⟨rfl | hr, hid, hcheck, hrest⟩
        · simp [hid, hcheck] at hsilent
        · exact ⟨hr, hid, hcheck, hrest⟩
    · rename_i hfires
      simp only [Bool.or_eq_true, List.contains_eq_mem, decide_eq_true_eq, Bool.not_eq_eq_eq_not,
        Bool.not_true, not_or, Bool.not_eq_false] at hfires
      by_cases hr : r = x
      · subst hr
        simp only [List.mem_cons, true_or, true_and, true_iff]
        refine ⟨hfires.1, hfires.2, ?_⟩
        rintro q (rfl | hq) hne
        · exact (hne rfl).elim
        · exact hlater q ((kept_sublist n b _ rules).subset hq)
      · rw [List.mem_cons, List.mem_cons, ih hnodup hsorted]
        simp only [hr, false_or, List.mem_append, not_or, List.forall_mem_cons, ne_eq,
          Ne.symm hr, not_false_eq_true, forall_const]
        tauto

/-- A sublist of a list without repetition is found again by filtering for its elements. -/
theorem eq_filter_of_sublist {α : Type} {l₁ l₂ : List α} (hsub : l₁.Sublist l₂) (hnodup : l₂.Nodup)
    {p : α → Bool} (hp : ∀ x ∈ l₂, p x = true ↔ x ∈ l₁) : l₁ = l₂.filter p := by
  induction hsub with
  | slnil => rfl
  | cons x hsub ih =>
    obtain ⟨hx, hnodup⟩ := List.nodup_cons.1 hnodup
    have hpx : ¬ p x = true := fun h => hx (hsub.subset ((hp x (by simp)).1 h))
    rw [List.filter_cons_of_neg hpx]
    exact ih hnodup (fun y hy => hp y (by simp [hy]))
  | cons_cons x hsub ih =>
    obtain ⟨hx, hnodup⟩ := List.nodup_cons.1 hnodup
    rw [List.filter_cons_of_pos ((hp x (by simp)).2 (by simp)), ← ih hnodup]
    intro y hy
    rw [hp y (by simp [hy]), List.mem_cons]
    have hne : y ≠ x := fun h => hx (h ▸ hy)
    simp [hne]

/-! ## The rules offered to a node -/

theorem mem_offered {ordered : List Rule} {k : Kind} {r : Rule} :
    r ∈ offered ordered k ↔ r ∈ ordered ∧ k ∈ r.kinds := by
  simp only [offered, List.mem_flatMap, List.mem_replicate, ne_eq, List.count_eq_zero,
    not_not]
  constructor
  · rintro ⟨q, hq, hk, rfl⟩
    exact ⟨hq, hk⟩
  · rintro ⟨hr, hk⟩
    exact ⟨r, hr, hk, rfl⟩

theorem offered_sublist {ordered : List Rule} (hkinds : ∀ r ∈ ordered, r.kinds.Nodup) (k : Kind) :
    (offered ordered k).Sublist ordered := by
  induction ordered with
  | nil => exact .slnil
  | cons r ordered ih =>
    have hrest := ih (fun q hq => hkinds q (by simp [hq]))
    have hcount : r.kinds.count k ≤ 1 := List.nodup_iff_count_le_one.1 (hkinds r (by simp)) k
    rw [offered, List.flatMap_cons]
    have hone : (List.replicate (r.kinds.count k) r).Sublist [r] :=
      (List.replicate_sublist_replicate r).2 hcount
    exact hone.append hrest

/-! ## The law of firing -/

/-- The rules that fire on a node: those that are offered it, whose test holds, and that no other
firing rule supersedes. -/
def FiringLaw (rules : List Rule) (n : Node) (b : Bindings) (fires : Rule → Prop) : Prop :=
  ∀ r ∈ rules, fires r ↔ n.kind ∈ r.kinds ∧ r.check n b = true ∧
    ∀ q ∈ rules, q ≠ r → fires q → r.id ∉ q.supersedes

theorem Settled.before {rules l l' : List Rule} {q r : Rule} (h : Settled rules (l ++ r :: l'))
    (hq : q ∈ superseders rules r) (hne : q ≠ r) : q ∈ l := by
  rcases List.mem_append.1 (h.closed r (by simp) q hq) with hin | hin
  · exact hin
  · rcases List.mem_cons.1 hin with rfl | hin
    · exact (hne rfl).elim
    · have hlater := (List.pairwise_cons.1 (List.pairwise_append.1 h.sorted).2.1).1 q hin
      exact (hlater (mem_superseders.1 hq).2).elim

/-- A list of rules in which ids tell the rules apart, no rule lists a kind twice, and precedence
has no cycles. -/
structure Orderly (rules : List Rule) : Prop where
  ids : (rules.map Rule.id).Nodup
  kinds : ∀ r ∈ rules, r.kinds.Nodup
  acyclic : Acyclic rules

theorem Orderly.nodup_firingOrder {rules : List Rule} (h : Orderly rules) :
    (firingOrder rules).Nodup :=
  (firingOrder_perm h.ids).nodup_iff.2 (List.Nodup.of_map _ h.ids)

theorem Orderly.offered_sublist {rules : List Rule} (h : Orderly rules) (k : Kind) :
    (offered (firingOrder rules) k).Sublist (firingOrder rules) :=
  ChainLint.offered_sublist (fun r hr => h.kinds r ((firingOrder_perm h.ids).mem_iff.1 hr)) k

/-- The law leaves no choice: going through the rules in order, each is decided by those that were
decided before it. -/
theorem firingLaw_unique {rules : List Rule} (hrules : Orderly rules) {n : Node} {b : Bindings}
    {fires others : Rule → Prop} (h : FiringLaw rules n b fires)
    (h' : FiringLaw rules n b others) : ∀ r ∈ rules, fires r ↔ others r := by
  have hperm := firingOrder_perm hrules.ids
  have hsettled := settled_firingOrder hrules.ids hrules.acyclic
  suffices hprefix : ∀ l, l <+: firingOrder rules → ∀ r ∈ l, (fires r ↔ others r) by
    intro r hr
    exact hprefix _ List.prefix_rfl r (hperm.mem_iff.2 hr)
  intro l
  induction l using List.reverseRecOn with
  | nil => simp
  | append_singleton l x ih =>
    intro hl r hr
    have ih := ih ((List.prefix_append l [x]).trans hl)
    rcases List.mem_append.1 hr with hr | hr
    · exact ih r hr
    · obtain rfl := List.mem_singleton.1 hr
      obtain ⟨l', hl'⟩ := hl
      have hsplit : firingOrder rules = l ++ r :: l' := by simp [← hl']
      have hrules : r ∈ rules := hperm.mem_iff.1 (by simp [hsplit])
      rw [h r hrules, h' r hrules]
      refine and_congr_right fun _ => and_congr_right fun _ => ?_
      refine forall_congr' fun q => forall_congr' fun hq => forall_congr' fun hne => ?_
      by_cases hsup : r.id ∈ q.supersedes
      · have hin : q ∈ l :=
          (hsplit ▸ hsettled).before (mem_superseders.2 ⟨hq, hsup⟩) hne
        rw [ih q hin]
      · simp [hsup]

/-- The rules that the engine lets fire obey the law. -/
theorem kept_law {rules : List Rule} (hrules : Orderly rules) (n : Node) (b : Bindings) :
    FiringLaw rules n b (· ∈ kept n b [] (offered (firingOrder rules) n.kind)) := by
  have hperm := firingOrder_perm hrules.ids
  have hsub := hrules.offered_sublist n.kind
  have hnodup := hrules.nodup_firingOrder.sublist hsub
  have hsorted := (settled_firingOrder hrules.ids hrules.acyclic).sorted.sublist hsub
  intro r hr
  beta_reduce
  rw [mem_kept_iff hnodup hsorted, mem_offered, hperm.mem_iff]
  have hkept : ∀ q ∈ kept n b [] (offered (firingOrder rules) n.kind), q ∈ rules :=
    fun q hq => hperm.mem_iff.1 (hsub.subset ((kept_sublist _ _ _ _).subset hq))
  constructor
  · rintro ⟨⟨-, hkind⟩, -, hcheck, hrest⟩
    exact ⟨hkind, hcheck, fun q _ hne hq => hrest q hq hne⟩
  · rintro ⟨hkind, hcheck, hrest⟩
    exact ⟨⟨hr, hkind⟩, by simp, hcheck, fun q hq hne => hrest q (hkept q hq) hne hq⟩

/-- The findings on a node are those of the rules that the law lets fire, in their order. -/
theorem fire_eq {rules : List Rule} (hrules : Orderly rules) {n : Node} {b : Bindings}
    {fires : Rule → Bool} (h : FiringLaw rules n b (fun r => fires r = true)) :
    fire (firingOrder rules) n b =
      ((firingOrder rules).filter fires).map (fun r => findingAt r n) := by
  rw [fire, fireFrom_eq]
  congr 1
  refine eq_filter_of_sublist ((kept_sublist _ _ _ _).trans (hrules.offered_sublist n.kind))
    hrules.nodup_firingOrder ?_
  intro r hr
  exact firingLaw_unique hrules h (kept_law hrules n b) r
    ((firingOrder_perm hrules.ids).mem_iff.1 hr)

/-- What is reported on a node comes from a rule that fires there, and such a rule is reported. -/
theorem mem_fire_iff {rules : List Rule} (hrules : Orderly rules) {n : Node} {b : Bindings}
    {r : Rule} (hr : r ∈ rules) :
    (∃ f ∈ fire (firingOrder rules) n b, f.ruleId = r.id) ↔
      r ∈ kept n b [] (offered (firingOrder rules) n.kind) := by
  have hlisted : ∀ q ∈ kept n b [] (offered (firingOrder rules) n.kind), q ∈ rules :=
    fun q hq => (firingOrder_perm hrules.ids).mem_iff.1
      ((hrules.offered_sublist n.kind).subset ((kept_sublist _ _ _ _).subset hq))
  rw [fire, fireFrom_eq]
  constructor
  · rintro ⟨f, hf, hid⟩
    obtain ⟨q, hq, rfl⟩ := List.mem_map.1 hf
    rwa [← List.inj_on_of_nodup_map hrules.ids (hlisted q hq) hr hid]
  · intro hin
    exact ⟨findingAt r n, List.mem_map.2 ⟨r, hin, rfl⟩, rfl⟩

/-! ## The catalogue -/

/-- In the catalogue, precedence is given once. -/
theorem supersedes_catalog {rules : List Rule} (h : rules.Sublist catalog) {q r : Rule}
    (hqr : Supersedes rules q r) : q.id = "PMC006" ∧ r.id = "PMC005" := by
  obtain ⟨hq, -, hsup⟩ := hqr
  have hq := h.subset hq
  simp only [catalog, List.mem_cons, List.not_mem_nil, or_false] at hq
  rcases hq with rfl | rfl | rfl | rfl | rfl | rfl | rfl
  all_goals first
    | exact absurd hsup List.not_mem_nil
    | exact ⟨rfl, List.mem_singleton.1 hsup⟩

theorem orderly_of_sublist {rules : List Rule} (h : rules.Sublist catalog) : Orderly rules where
  ids := List.Nodup.sublist (h.map Rule.id) (by decide)
  kinds r hr := by
    have hr := h.subset hr
    simp only [catalog, List.mem_cons, List.not_mem_nil, or_false] at hr
    rcases hr with rfl | rfl | rfl | rfl | rfl | rfl | rfl <;> decide
  acyclic r hcycle := by
    -- The first step of a cycle starts at the one superseder, and its last step ends elsewhere.
    obtain ⟨q, hfirst, -⟩ := Relation.TransGen.head'_iff.1 hcycle
    obtain ⟨q', -, hlast⟩ := Relation.TransGen.tail'_iff.1 hcycle
    have h₁ := (supersedes_catalog h hfirst).1
    have h₂ := (supersedes_catalog h hlast).2
    rw [h₁] at h₂
    exact absurd h₂ (by decide)

end ChainLint
