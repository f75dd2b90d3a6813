import ChainLint.Proofs.Engine.Firing
import Mathlib.Order.Lattice.Nat

/-!
# ChainLint.Proofs.Engine.Rank

Where a rule stands in the order in which rules are tried, whatever supersedes what.

* `Places`: placing rules without a bound on the depth. `places_firingOrder`: that comes to an end
  by itself, with the same order.
* `rank`: the first place in the list of a rule that the given one leads to along supersedes
  relations.
* `Closed`: the rules in order are there together with their superseders, except for those on the
  stack.
* `Ranked`: what holds when the first rules of the list have been placed. `Ranked.place` takes it
  from one rule to the next, `ranked_foldl` through the list.
* `firingOrder_ranked`: the order is one by rank. It holds every rule once, is the list itself if
  no rule supersedes another one, and goes down every supersedes relation if there is no cycle.
-/

namespace ChainLint

/-! ## Placing without a bound -/

/-- Rules are placed one after the other. A rule not met yet is marked, and follows its
superseders. -/
inductive Places (rules : List Rule) : Placement → List Rule → Placement → Prop where
  | nil {st : Placement} : Places rules st [] st
  | met {st st' : Placement} {r : Rule} {rs : List Rule} :
      r.key ∈ st.met → Places rules st rs st' → Places rules st (r :: rs) st'
  | fresh {st st₁ st' : Placement} {r : Rule} {rs : List Rule} :
      r.key ∉ st.met →
      Places rules { st with met := r.key :: st.met } (superseders rules r) st₁ →
      Places rules { st₁ with ordered := st₁.ordered ++ [r] } rs st' →
      Places rules st (r :: rs) st'

theorem foldl_places {rules stack : List Rule} {depth : Nat}
    (hkeeps : ∀ st, Placing rules stack st → ∀ r ∈ rules,
      Placed rules stack st [r] (place rules depth st r))
    (hplaces : ∀ st, Placing rules stack st → ∀ r ∈ rules, ∀ rs st',
      Places rules (place rules depth st r) rs st' → Places rules st (r :: rs) st')
    {rs : List Rule} (hrs : ∀ r ∈ rs, r ∈ rules) {st : Placement} (h : Placing rules stack st) :
    Places rules st rs (rs.foldl (place rules depth) st) := by
  induction rs generalizing st with
  | nil => exact .nil
  | cons r rs ih =>
    have hr := hrs r (by simp)
    exact hplaces st h r hr rs _ (ih (fun q hq => hrs q (by simp [hq])) (hkeeps st h r hr).placing)

/-- The bound on the depth is out of reach. -/
theorem places_cons {rules : List Rule} (hids : (rules.map Rule.id).Nodup) {depth : Nat}
    {stack : List Rule} {st : Placement} (hdepth : rules.length < depth + stack.length)
    (h : Placing rules stack st) {r : Rule} (hr : r ∈ rules) {rs : List Rule} {st' : Placement}
    (hrest : Places rules (place rules depth st r) rs st') : Places rules st (r :: rs) st' := by
  induction depth generalizing stack st r rs st' with
  | zero =>
    have := h.stack_length_le
    omega
  | succ depth ih =>
    unfold place at hrest
    split at hrest
    · rename_i hmet
      exact .met (by simpa using hmet) hrest
    · rename_i hmet
      have hnew : r.key ∉ st.met := by simpa using hmet
      have hdepth' : rules.length < depth + (r :: stack).length := by
        simp only [List.length_cons]
        omega
      refine .fresh hnew ?_ hrest
      exact foldl_places (fun st hst q hq => place_keeps hids hdepth' hst hq)
        (fun st hst q hq rs st' hrest => ih hdepth' hst hq hrest)
        (fun q hq => (mem_superseders.1 hq).1) (h.push hids hr hnew)

theorem places_firingOrder {rules : List Rule} (hids : (rules.map Rule.id).Nodup) :
    ∃ met, Places rules {} rules ⟨met, firingOrder rules⟩ :=
  ⟨_, foldl_places (fun _ hst _ hr => place_keeps hids (by simp) hst hr)
    (fun _ hst _ hr _ _ hrest => places_cons hids (by simp) hst hr hrest) (fun _ hr => hr)
    (placing_start rules)⟩

/-! ## Rank -/

/-- The least index of a rule that `r` is, or supersedes through a chain of rules of the list. -/
noncomputable def rank (rules : List Rule) (r : Rule) : Nat :=
  sInf {i | ∃ q, rules[i]? = some q ∧ Relation.ReflTransGen (Supersedes rules) r q}

theorem rank_lt {rules pre : List Rule} (hpre : pre <+: rules) {r q : Rule} (hq : q ∈ pre)
    (h : Relation.ReflTransGen (Supersedes rules) r q) : rank rules r < pre.length := by
  obtain ⟨i, hi⟩ := List.getElem?_of_mem hq
  have hlt : i < pre.length := (List.getElem?_eq_some_iff.1 hi).1
  have hrules : rules[i]? = some q := by
    obtain ⟨post, rfl⟩ := hpre
    rw [List.getElem?_append_left hlt, hi]
  have hle : rank rules r ≤ i := Nat.sInf_le ⟨q, hrules, h⟩
  exact hle.trans_lt hlt

theorem rank_eq {rules pre post : List Rule} {r q : Rule} (hrules : rules = pre ++ r :: post)
    (hq : Relation.ReflTransGen (Supersedes rules) q r)
    (hpre : ∀ x ∈ pre, ¬ Relation.ReflTransGen (Supersedes rules) q x) :
    rank rules q = pre.length := by
  have hmem : pre.length ∈
      {i | ∃ x, rules[i]? = some x ∧ Relation.ReflTransGen (Supersedes rules) q x} :=
    ⟨r, by simp [hrules], hq⟩
  refine le_antisymm (Nat.sInf_le hmem) (not_lt.1 fun hlt => ?_)
  obtain ⟨x, hx, hleads⟩ := Nat.sInf_mem ⟨_, hmem⟩
  refine hpre x ?_ hleads
  have hx' : (pre ++ r :: post)[rank rules q]? = some x := hrules ▸ hx
  rw [List.getElem?_append_left hlt] at hx'
  exact List.mem_of_getElem? hx'

/-! ## What is placed along with a rule -/

theorem foldl_place_leads {rules rs : List Rule} {depth : Nat}
    (hplace : ∀ st, ∀ r ∈ rs, ∀ q ∈ (place rules depth st r).ordered,
      q ∈ st.ordered ∨ Relation.ReflTransGen (Supersedes rules) q r) {st : Placement} :
    ∀ q ∈ (rs.foldl (place rules depth) st).ordered,
      q ∈ st.ordered ∨ ∃ r ∈ rs, Relation.ReflTransGen (Supersedes rules) q r := by
  induction rs generalizing st with
  | nil => exact fun q hq => .inl hq
  | cons r rs ih =>
    intro q hq
    rcases ih (fun st x hx => hplace st x (by simp [hx])) q hq with hq | ⟨x, hx, hqx⟩
    · exact (hplace st r (by simp) q hq).imp_right (fun hqr => ⟨r, by simp, hqr⟩)
    · exact .inr ⟨x, by simp [hx], hqx⟩

/-- Placing a rule places rules that lead to it, and no other ones. -/
theorem place_leads {rules : List Rule} (depth : Nat) (st : Placement) {r : Rule}
    (hr : r ∈ rules) : ∀ q ∈ (place rules depth st r).ordered,
      q ∈ st.ordered ∨ Relation.ReflTransGen (Supersedes rules) q r := by
  induction depth generalizing st r with
  | zero => exact fun q hq => .inl hq
  | succ depth ih =>
    unfold place
    split
    · exact fun q hq => .inl hq
    · intro q hq
      rcases List.mem_append.1 hq with hq | hq
      · have hbelow := foldl_place_leads (fun st x hx => ih st (mem_superseders.1 hx).1) q hq
        refine hbelow.imp_right ?_
        rintro ⟨x, hx, hqx⟩
        have hxr := mem_superseders.1 hx
        exact hqx.tail ⟨hxr.1, hr, hxr.2⟩
      · obtain rfl := List.mem_singleton.1 hq
        exact .inr .refl

/-- Together with a rule, the order holds all that supersede it, unless they wait on the stack. -/
def Closed (rules stack ordered : List Rule) : Prop :=
  ∀ r ∈ ordered, ∀ q ∈ superseders rules r, q ∈ ordered ∨ q ∈ stack

theorem place_closed {rules : List Rule} (hids : (rules.map Rule.id).Nodup) {depth : Nat}
    {stack : List Rule} {st : Placement} (hdepth : rules.length < depth + stack.length)
    (h : Placing rules stack st) (hclosed : Closed rules stack st.ordered) {r : Rule}
    (hr : r ∈ rules) : Closed rules stack (place rules depth st r).ordered := by
  induction depth generalizing stack st r with
  | zero => exact hclosed
  | succ depth ih =>
    unfold place
    split
    · exact hclosed
    · rename_i hmet
      have hpush := h.push hids hr (by simpa using hmet)
      have hdepth' : rules.length < depth + (r :: stack).length := by
        simp only [List.length_cons]
        omega
      have hkeeps : ∀ st, Placing rules (r :: stack) st → ∀ q ∈ rules,
          Placed rules (r :: stack) st [q] (place rules depth st q) :=
        fun st hst q hq => place_keeps hids hdepth' hst hq
      have hlisted : ∀ q ∈ superseders rules r, q ∈ rules :=
        fun q hq => (mem_superseders.1 hq).1
      have hbelow := foldl_place_invariant
        (P := fun st => Closed rules (r :: stack) st.ordered) hkeeps hlisted
        (fun st hst hcl q hq => ih hdepth' hst hcl (hlisted q hq)) hpush
        (fun x hx q hq => (hclosed x hx q hq).imp_right (List.mem_cons_of_mem r))
      have hdone := (foldl_place_keeps hkeeps hpush _ hlisted).done
      -- A superseder that was found on the stack is `r` itself, which now comes next, or deeper.
      intro x hx q hq
      have hin : q ∈ ((superseders rules r).foldl (place rules depth)
          { st with met := r.key :: st.met }).ordered ∨ q ∈ r :: stack := by
        rcases List.mem_append.1 hx with hx | hx
        · exact hbelow x hx q hq
        · obtain rfl := List.mem_singleton.1 hx
          exact hdone q hq
      rcases hin with hin | hin
      · exact .inl (List.mem_append_left _ hin)
      · rcases List.mem_cons.1 hin with rfl | hin
        · exact .inl (by simp)
        · exact .inr hin

/-- With an empty stack, whatever leads to a rule in order is in order. -/
theorem Closed.mem {rules ordered : List Rule} (h : Closed rules [] ordered) {q r : Rule}
    (hr : r ∈ ordered) (hq : Relation.ReflTransGen (Supersedes rules) q r) : q ∈ ordered := by
  induction hq using Relation.ReflTransGen.head_induction_on with
  | refl => exact hr
  | head hxy _ ih =>
    obtain ⟨hx, -, hsup⟩ := hxy
    exact (h _ ih _ (mem_superseders.2 ⟨hx, hsup⟩)).resolve_right List.not_mem_nil

/-! ## The order by rank -/

/-- The rules in `pre` have been placed, along with those that lead to one of them, by rank. -/
structure Ranked (rules pre : List Rule) (st : Placement) : Prop where
  placing : Placing rules [] st
  closed : Closed rules [] st.ordered
  placed : ∀ r ∈ pre, r ∈ st.ordered
  leads : ∀ r ∈ st.ordered, ∃ q ∈ pre, Relation.ReflTransGen (Supersedes rules) r q
  sorted : st.ordered.Pairwise (fun r q => rank rules r ≤ rank rules q)

theorem Ranked.place {rules pre post : List Rule} {r : Rule}
    (hids : (rules.map Rule.id).Nodup) (hrules : rules = pre ++ r :: post) {st : Placement}
    (h : Ranked rules pre st) :
    Ranked rules (pre ++ [r]) (place rules (rules.length + 1) st r) := by
  have hr : r ∈ rules := by simp [hrules]
  have hplaced : Placed rules [] st [r] (ChainLint.place rules (rules.length + 1) st r) :=
    place_keeps hids (by simp) h.placing hr
  have hleads := place_leads (rules.length + 1) st hr
  obtain ⟨new, hnew⟩ := hplaced.grows
  -- What is new leads to `r` and to no rule in front of it, so that its rank is the index of `r`.
  have hrank : ∀ q ∈ new, rank rules q = pre.length := by
    intro q hq
    have hout : q ∉ st.ordered := by
      intro hin
      have hnodup := hplaced.placing.nodup
      rw [List.append_nil, ← hnew, List.nodup_append] at hnodup
      exact hnodup.2.2 q hin q hq rfl
    have hqr := (hleads q (hnew ▸ List.mem_append_right _ hq)).resolve_left hout
    exact rank_eq hrules hqr (fun x hx hqx => hout (h.closed.mem (h.placed x hx) hqx))
  refine ⟨hplaced.placing, place_closed hids (by simp) h.placing h.closed hr, ?_, ?_, ?_⟩
  · intro q hq
    rcases List.mem_append.1 hq with hq | hq
    · exact hplaced.grows.subset (h.placed q hq)
    · exact (hplaced.done q hq).resolve_right List.not_mem_nil
  · intro q hq
    rcases hleads q hq with hq | hq
    · obtain ⟨x, hx, hqx⟩ := h.leads q hq
      exact ⟨x, List.mem_append_left _ hx, hqx⟩
    · exact ⟨r, by simp, hq⟩
  · rw [← hnew, List.pairwise_append]
    refine ⟨h.sorted, ?_, ?_⟩
    · exact List.pairwise_of_forall_mem_list (fun x hx y hy => by rw [hrank x hx, hrank y hy])
    · intro x hx y hy
      obtain ⟨z, hz, hxz⟩ := h.leads x hx
      rw [hrank y hy]
      exact (rank_lt (hrules ▸ List.prefix_append _ _) hz hxz).le

theorem ranked_foldl {rules pre : List Rule} (hids : (rules.map Rule.id).Nodup)
    (hpre : pre <+: rules) :
    Ranked rules pre (pre.foldl (place rules (rules.length + 1)) {}) := by
  induction pre using List.reverseRecOn with
  | nil => exact ⟨placing_start rules, by simp [Closed], by simp, by simp, .nil⟩
  | append_singleton pre r ih =>
    obtain ⟨post, hpost⟩ := hpre
    have hrules : rules = pre ++ r :: post := by simp [← hpost]
    rw [List.foldl_append]
    exact (ih (hrules ▸ List.prefix_append _ _)).place hids hrules

theorem firingOrder_pairwise_rank {rules : List Rule} (hids : (rules.map Rule.id).Nodup) :
    (firingOrder rules).Pairwise (fun r q => rank rules r ≤ rank rules q) :=
  (ranked_foldl hids List.prefix_rfl).sorted

/-! ## Lists without relations, and without cycles -/

theorem pair_sublist {α : Type} {l : List α} {a b : α} (ha : a ∈ l) (hb : b ∈ l) (hne : a ≠ b) :
    [a, b].Sublist l ∨ [b, a].Sublist l := by
  obtain ⟨pre, post, rfl⟩ := List.append_of_mem ha
  rcases List.mem_append.1 hb with hb | hb
  · exact .inr ((List.singleton_sublist.2 hb).append (List.singleton_sublist.2 (by simp)))
  · have hpost := List.mem_of_ne_of_mem hne.symm hb
    have hpair := (List.singleton_sublist.2 hpost).cons_cons a
    exact .inl (hpair.trans (List.sublist_append_right _ _))

/-- A rule that supersedes no other one has the rank of its own index. -/
theorem rank_eq_length {rules pre post : List Rule} {r : Rule}
    (hids : (rules.map Rule.id).Nodup) (hrules : rules = pre ++ r :: post)
    (hfree : ∀ q, Supersedes rules r q → q = r) : rank rules r = pre.length := by
  have hself : ∀ q, Relation.ReflTransGen (Supersedes rules) r q → q = r := by
    intro q hq
    induction hq with
    | refl => rfl
    | tail _ hxy ih =>
      subst ih
      exact hfree _ hxy
  refine rank_eq hrules .refl (fun x hx hleads => ?_)
  obtain rfl := hself x hleads
  have hnodup : rules.Nodup := List.Nodup.of_map _ hids
  rw [hrules, List.nodup_append] at hnodup
  exact hnodup.2.2 x hx x (by simp) rfl

theorem pairwise_rank_lt {rules : List Rule} (hids : (rules.map Rule.id).Nodup)
    (hfree : ∀ r q, Supersedes rules r q → q = r) :
    rules.Pairwise (fun r q => rank rules r < rank rules q) := by
  rw [List.pairwise_iff_getElem]
  intro i j hi hj hij
  have hindex : ∀ k (hk : k < rules.length), rank rules rules[k] = k := by
    intro k hk
    have hsplit : rules = rules.take k ++ rules[k] :: rules.drop (k + 1) := by simp
    rw [rank_eq_length hids hsplit (hfree _), List.length_take, min_eq_left hk.le]
  rw [hindex i hi, hindex j hj]
  exact hij

theorem firingOrder_eq_of_free {rules : List Rule} (hids : (rules.map Rule.id).Nodup)
    (hfree : ∀ r q, Supersedes rules r q → q = r) : firingOrder rules = rules := by
  have hlt := pairwise_rank_lt hids hfree
  refine (firingOrder_perm hids).eq_of_pairwise ?_ (firingOrder_pairwise_rank hids)
    (hlt.imp Nat.le_of_lt)
  intro r q hr hq hrq hqr
  have hr := (firingOrder_perm hids).mem_iff.1 hr
  by_contra hne
  rcases pair_sublist hr hq hne with hsub | hsub
  · exact (List.pairwise_iff_forall_sublist.1 hlt hsub).not_ge hqr
  · exact (List.pairwise_iff_forall_sublist.1 hlt hsub).not_ge hrq

/-- Without cycles, a rule comes before every rule that it supersedes. -/
theorem sublist_of_supersedes {rules : List Rule} (hids : (rules.map Rule.id).Nodup)
    (hacyclic : Acyclic rules) {r q : Rule} (h : Supersedes rules r q) :
    [r, q].Sublist (firingOrder rules) := by
  have hmem : ∀ {x}, x ∈ rules → x ∈ firingOrder rules := (firingOrder_perm hids).mem_iff.2
  have hne : r ≠ q := by
    rintro rfl
    exact hacyclic r (.single h)
  refine (pair_sublist (hmem h.1) (hmem h.2.1) hne).resolve_right (fun hsub => ?_)
  exact List.pairwise_iff_forall_sublist.1 (settled_firingOrder hids hacyclic).sorted hsub h.2.2

/-- The order in which rules are tried, for any list of rules with different ids. Placing them ends
by itself, with every rule of the list once, by rank: first the rules that lead to the first one,
then those that lead to the second one, and so on. So the list stays as it is if no rule supersedes
another one; and if there is no cycle, superseding rules come first. -/
theorem firingOrder_ranked (rules : List Rule) (hids : (rules.map Rule.id).Nodup) :
    (∃ met, Places rules {} rules ⟨met, firingOrder rules⟩) ∧
      (firingOrder rules).Perm rules ∧
      (firingOrder rules).Pairwise (fun r q => rank rules r ≤ rank rules q) ∧
      ((∀ r q, Supersedes rules r q → q = r) → firingOrder rules = rules) ∧
      (Acyclic rules → ∀ r q, Supersedes rules r q → [r, q].Sublist (firingOrder rules)) :=
  ⟨places_firingOrder hids, firingOrder_perm hids, firingOrder_pairwise_rank hids,
    firingOrder_eq_of_free hids, fun hacyclic _ _ h => sublist_of_supersedes hids hacyclic h⟩

/-- A rule that is never offered a node. -/
def idle (id : String) (supersedes : List String) : Rule where
  id := id
  message := ""
  kinds := []
  supersedes := supersedes
  check _ _ := false

/-- Three rules supersede each other in a circle, around one that has nothing to do with them, and
the last one supersedes itself. -/
def tangled : List Rule :=
  [idle "A" ["D"], idle "B" [], idle "C" ["A"], idle "D" ["C"], idle "E" ["E"]]

theorem firingOrder_ranked_tangled :
    (tangled.map Rule.id).Nodup ∧
      (firingOrder tangled).map Rule.id = ["D", "C", "A", "B", "E"] ∧
      (firingOrder tangled).Perm tangled ∧
      (firingOrder tangled).Pairwise (fun r q => rank tangled r ≤ rank tangled q) ∧
      (catalog.map Rule.id).Nodup ∧ Acyclic catalog ∧
      [assignIndexColumns, assignWithAttribute].Sublist (firingOrder catalog) := by
  have hcircle := firingOrder_ranked tangled (by decide)
  have hcatalog : Orderly catalog := orderly_of_sublist (List.Sublist.refl catalog)
  have hlabels := (firingOrder_ranked catalog hcatalog.ids).2.2.2.2 hcatalog.acyclic
  refine ⟨by decide, by decide, hcircle.2.1, hcircle.2.2.1, hcatalog.ids, hcatalog.acyclic, ?_⟩
  exact hlabels _ _ ⟨by simp [catalog], by simp [catalog], by decide⟩

end ChainLint
