import ChainLint.Engine.Order
import Mathlib.Data.List.Nodup
import Mathlib.Data.List.Perm.Subperm
import Mathlib.Logic.Relation

/-!
# ChainLint.Proofs.Engine.Order

The order in which rules are tried.

* `mem_of_mem_firingOrder`: the order holds rules of the list only.
* `Placing`: the invariant of placing rules. The rules met so far are those already in order and
  those on the stack, which wait for their superseders; none is listed twice.
* `place_keeps`, `foldl_place_keeps`: placing a rule, or one after the other, keeps it.
  `foldl_place_invariant`: so does any other property that placing one rule keeps.
* `firingOrder_perm`: the order holds every rule of the list once, whatever supersedes what.
* `settled_firingOrder`: without cycles, a rule comes after all rules that supersede it.
* `firingOrder_eq_self`, `firingOrder_swap`: the order of a list in which no rule supersedes another
  one, or in which one rule supersedes the one in front of it.
-/

namespace ChainLint

/-- Among the rules of a list, `q` takes precedence over `r`. -/
def Supersedes (rules : List Rule) (q r : Rule) : Prop :=
  q ∈ rules ∧ r ∈ rules ∧ r.id ∈ q.supersedes

/-- No rule takes precedence over itself, directly or through others. -/
def Acyclic (rules : List Rule) : Prop := ∀ r, ¬ Relation.TransGen (Supersedes rules) r r

/-- Together with a rule, the list holds all that supersede it, and no rule supersedes an earlier
one. -/
structure Settled (rules ordered : List Rule) : Prop where
  closed : ∀ r ∈ ordered, ∀ q ∈ superseders rules r, q ∈ ordered
  sorted : ordered.Pairwise (fun r q => r.id ∉ q.supersedes)

theorem mem_superseders {rules : List Rule} {q r : Rule} :
    q ∈ superseders rules r ↔ q ∈ rules ∧ r.id ∈ q.supersedes := by
  simp [superseders]

/-! ## Only rules of the list -/

theorem foldl_place_listed {rules rs : List Rule} {depth : Nat}
    (hplace : ∀ (st : Placement) (r : Rule), (∀ q ∈ st.ordered, q ∈ rules) → r ∈ rules →
      ∀ q ∈ (place rules depth st r).ordered, q ∈ rules)
    (hrs : ∀ r ∈ rs, r ∈ rules) {st : Placement} (hst : ∀ q ∈ st.ordered, q ∈ rules) :
    ∀ q ∈ (rs.foldl (place rules depth) st).ordered, q ∈ rules := by
  induction rs generalizing st with
  | nil => exact hst
  | cons r rs ih =>
    exact ih (fun q hq => hrs q (by simp [hq])) (hplace st r hst (hrs r (by simp)))

theorem place_listed {rules : List Rule} (depth : Nat) (st : Placement) (r : Rule)
    (hst : ∀ q ∈ st.ordered, q ∈ rules) (hr : r ∈ rules) :
    ∀ q ∈ (place rules depth st r).ordered, q ∈ rules := by
  induction depth generalizing st r with
  | zero => exact hst
  | succ depth ih =>
    unfold place
    split
    · exact hst
    · intro q hq
      rcases List.mem_append.1 hq with hq | hq
      · refine foldl_place_listed ih (fun q hq => (mem_superseders.1 hq).1) ?_ q hq
        exact hst
      · exact List.mem_singleton.1 hq ▸ hr

/-- The order holds no rule from outside the list, even if ids repeat. -/
theorem mem_of_mem_firingOrder {rules : List Rule} {r : Rule} (hr : r ∈ firingOrder rules) :
    r ∈ rules :=
  foldl_place_listed (place_listed _) (fun _ hq => hq) (by simp) r hr

/-! ## Superseders first -/

theorem Settled.snoc {rules ordered : List Rule} {r : Rule} (h : Settled rules ordered)
    (hr : r ∈ rules) (hnew : r ∉ ordered) (habove : ∀ q ∈ superseders rules r, q ∈ ordered) :
    Settled rules (ordered ++ [r]) := by
  refine ⟨?_, List.pairwise_append.2 ⟨h.sorted, List.pairwise_singleton _ _, ?_⟩⟩
  · intro x hx q hq
    rcases List.mem_append.1 hx with hx | hx
    · exact List.mem_append_left _ (h.closed x hx q hq)
    · obtain rfl := List.mem_singleton.1 hx
      exact List.mem_append_left _ (habove q hq)
  · intro x hx q hq hsup
    obtain rfl := List.mem_singleton.1 hq
    exact hnew (h.closed x hx q (mem_superseders.2 ⟨hr, hsup⟩))

theorem eq_of_key_eq {rules : List Rule} (hids : (rules.map Rule.id).Nodup) {q r : Rule}
    (hq : q ∈ rules) (hr : r ∈ rules) (h : q.key = r.key) : q = r :=
  List.inj_on_of_nodup_map hids hq hr (congrArg Prod.fst h)

/-! ## Placing rules -/

structure Placing (rules stack : List Rule) (st : Placement) : Prop where
  met : ∀ r ∈ rules, r.key ∈ st.met ↔ r ∈ st.ordered ∨ r ∈ stack
  nodup : (st.ordered ++ stack).Nodup
  listed : ∀ r ∈ st.ordered ++ stack, r ∈ rules

/-- What placing `r` has done: nothing is lost, and `r` is in order or still waits. -/
structure Placed (rules stack : List Rule) (st : Placement) (rs : List Rule) (st' : Placement) :
    Prop where
  placing : Placing rules stack st'
  grows : st.ordered <+: st'.ordered
  done : ∀ r ∈ rs, r ∈ st'.ordered ∨ r ∈ stack

theorem Placing.stack_length_le {rules stack : List Rule} {st : Placement}
    (h : Placing rules stack st) : stack.length ≤ rules.length := by
  have hnodup : stack.Nodup := (List.nodup_append.1 h.nodup).2.1
  exact (hnodup.subperm (fun r hr => h.listed r (by simp [hr]))).length_le

/-- A rule not met yet goes on the stack. -/
theorem Placing.push {rules stack : List Rule} {st : Placement}
    (hids : (rules.map Rule.id).Nodup) (h : Placing rules stack st) {r : Rule} (hr : r ∈ rules)
    (hnew : r.key ∉ st.met) :
    Placing rules (r :: stack) { st with met := r.key :: st.met } := by
  have hout : ¬ (r ∈ st.ordered ∨ r ∈ stack) := fun hin => hnew ((h.met r hr).2 hin)
  refine ⟨?_, ?_, ?_⟩
  · intro q hq
    have hkey : q.key = r.key ↔ q = r := ⟨eq_of_key_eq hids hq hr, fun heq => heq ▸ rfl⟩
    rw [List.mem_cons, hkey, h.met q hq, List.mem_cons]
    exact or_left_comm
  · rw [List.nodup_middle, List.nodup_cons, List.mem_append]
    exact ⟨hout, h.nodup⟩
  · intro q hq
    rcases List.mem_append.1 hq with hq | hq
    · exact h.listed q (by simp [hq])
    · rcases List.mem_cons.1 hq with rfl | hq
      · exact hr
      · exact h.listed q (by simp [hq])

/-- The rule on top of the stack comes next in the order. -/
theorem Placing.pop {rules stack : List Rule} {st : Placement} {r : Rule}
    (h : Placing rules (r :: stack) st) :
    Placing rules stack { st with ordered := st.ordered ++ [r] } := by
  refine ⟨?_, by simpa using h.nodup, by simpa using h.listed⟩
  intro q hq
  rw [h.met q hq, List.mem_cons, List.mem_append, List.mem_singleton]
  exact or_assoc.symm

theorem foldl_place_keeps {rules stack : List Rule} {depth : Nat}
    (hplace : ∀ st, Placing rules stack st → ∀ r ∈ rules,
      Placed rules stack st [r] (place rules depth st r))
    {st : Placement} (h : Placing rules stack st) (rs : List Rule) (hrs : ∀ r ∈ rs, r ∈ rules) :
    Placed rules stack st rs (rs.foldl (place rules depth) st) := by
  induction rs generalizing st with
  | nil => exact ⟨h, List.prefix_rfl, by simp⟩
  | cons r rs ih =>
    have h₁ := hplace st h r (hrs r (by simp))
    have h₂ := ih h₁.placing (fun q hq => hrs q (by simp [hq]))
    refine ⟨h₂.placing, h₁.grows.trans h₂.grows, ?_⟩
    intro q hq
    rcases List.mem_cons.1 hq with rfl | hq
    · exact (h₁.done q (by simp)).imp_left (fun hin => h₂.grows.subset hin)
    · exact h₂.done q hq

/-- The depth is always enough, since every level has put one more rule on the stack. -/
theorem place_keeps {rules : List Rule} (hids : (rules.map Rule.id).Nodup) {depth : Nat}
    {stack : List Rule} {st : Placement} (hdepth : rules.length < depth + stack.length)
    (h : Placing rules stack st) {r : Rule} (hr : r ∈ rules) :
    Placed rules stack st [r] (place rules depth st r) := by
  induction depth generalizing stack st r with
  | zero =>
    have := h.stack_length_le
    omega
  | succ depth ih =>
    unfold place
    split
    · rename_i hmet
      refine ⟨h, List.prefix_rfl, ?_⟩
      intro q hq
      obtain rfl := List.mem_singleton.1 hq
      exact (h.met q hr).1 (by simpa using hmet)
    · rename_i hmet
      have hpush := h.push hids hr (by simpa using hmet)
      have hdepth' : rules.length < depth + (r :: stack).length := by
        simp only [List.length_cons]
        omega
      have hfold := foldl_place_keeps (fun st hst q hq => ih hdepth' hst hq) hpush
        (superseders rules r) (fun q hq => (mem_superseders.1 hq).1)
      refine ⟨hfold.placing.pop, hfold.grows.trans (List.prefix_append _ _), ?_⟩
      intro q hq
      obtain rfl := List.mem_singleton.1 hq
      exact .inl (by simp)

theorem placing_start (rules : List Rule) : Placing rules [] {} := ⟨by simp, by simp, by simp⟩

theorem firingOrder_perm {rules : List Rule} (hids : (rules.map Rule.id).Nodup) :
    (firingOrder rules).Perm rules := by
  have hdepth : rules.length < rules.length + 1 + ([] : List Rule).length := by simp
  have h := foldl_place_keeps (fun st hst r hr => place_keeps hids hdepth hst hr)
    (placing_start rules) rules (fun r hr => hr)
  have hnodup : (firingOrder rules).Nodup := by simpa [firingOrder] using h.placing.nodup
  rw [List.perm_ext_iff_of_nodup hnodup (List.Nodup.of_map _ hids)]
  intro r
  constructor
  · intro hr
    exact h.placing.listed r (by simpa [firingOrder] using hr)
  · intro hr
    simpa [firingOrder] using h.done r hr

/-! ## Superseders first -/

/-- What placing one rule keeps, placing rules one after the other keeps. -/
theorem foldl_place_invariant {P : Placement → Prop} {rules stack : List Rule} {depth : Nat}
    (hkeeps : ∀ st, Placing rules stack st → ∀ r ∈ rules,
      Placed rules stack st [r] (place rules depth st r))
    {rs : List Rule} (hrs : ∀ r ∈ rs, r ∈ rules)
    (hP : ∀ st, Placing rules stack st → P st → ∀ r ∈ rs, P (place rules depth st r))
    {st : Placement} (h : Placing rules stack st) (hst : P st) :
    P (rs.foldl (place rules depth) st) := by
  induction rs generalizing st with
  | nil => exact hst
  | cons r rs ih =>
    exact ih (fun q hq => hrs q (by simp [hq])) (fun st h hst q hq => hP st h hst q (by simp [hq]))
      (hkeeps st h r (hrs r (by simp))).placing (hP st h hst r (by simp))

/-- The rules on the stack are those that `r` takes precedence over, so that none of them can
supersede `r` in turn. -/
theorem place_settled {rules : List Rule} (hids : (rules.map Rule.id).Nodup)
    (hacyclic : Acyclic rules) {depth : Nat} {stack : List Rule} {st : Placement}
    (hdepth : rules.length < depth + stack.length) (h : Placing rules stack st)
    (hst : Settled rules st.ordered) {r : Rule} (hr : r ∈ rules)
    (hstack : ∀ q ∈ stack, Relation.TransGen (Supersedes rules) r q) :
    Settled rules (place rules depth st r).ordered := by
  induction depth generalizing stack st r with
  | zero =>
    have := h.stack_length_le
    omega
  | succ depth ih =>
    unfold place
    split
    · exact hst
    · rename_i hmet
      have hpush := h.push hids hr (by simpa using hmet)
      have hdepth' : rules.length < depth + (r :: stack).length := by
        simp only [List.length_cons]
        omega
      have hkeeps : ∀ st, Placing rules (r :: stack) st → ∀ q ∈ rules,
          Placed rules (r :: stack) st [q] (place rules depth st q) :=
        fun st hst q hq => place_keeps hids hdepth' hst hq
      have hlisted : ∀ q ∈ superseders rules r, q ∈ rules :=
        fun q hq => (mem_superseders.1 hq).1
      have habove : ∀ q ∈ superseders rules r, ∀ x ∈ r :: stack,
          Relation.TransGen (Supersedes rules) q x := by
        intro q hq x hx
        have hqr : Supersedes rules q r := ⟨hlisted q hq, hr, (mem_superseders.1 hq).2⟩
        rcases List.mem_cons.1 hx with rfl | hx
        · exact .single hqr
        · exact .head hqr (hstack x hx)
      have hfold := foldl_place_keeps hkeeps hpush _ hlisted
      have hsettled := foldl_place_invariant (P := fun st => Settled rules st.ordered) hkeeps
        hlisted (fun st h hst q hq => ih hdepth' h hst (hlisted q hq) (habove q hq)) hpush hst
      refine hsettled.snoc hr ?_ ?_
      · intro hin
        exact (List.nodup_append.1 hfold.placing.nodup).2.2 r hin r (by simp) rfl
      · intro q hq
        rcases hfold.done q hq with hin | hin
        · exact hin
        · exact (hacyclic q (habove q hq q hin)).elim

/-- Without cycles, no rule comes before one that supersedes it. -/
theorem settled_firingOrder {rules : List Rule} (hids : (rules.map Rule.id).Nodup)
    (hacyclic : Acyclic rules) : Settled rules (firingOrder rules) :=
  foldl_place_invariant (P := fun st => Settled rules st.ordered)
    (fun st hst r hr => place_keeps hids (by simp) hst hr) (fun r hr => hr)
    (fun st h hst r hr => place_settled hids hacyclic (by simp) h hst hr (by simp))
    (placing_start rules) ⟨by simp, .nil⟩

/-! ## Lists with little precedence -/

theorem place_free {rules : List Rule} {st : Placement} {r : Rule}
    (hfree : superseders rules r = []) (hnew : r.key ∉ st.met) (depth : Nat) :
    place rules (depth + 1) st r = ⟨r.key :: st.met, st.ordered ++ [r]⟩ := by
  rw [place, if_neg (by simpa using hnew), hfree]
  rfl

/-- Rules that wait for no other one are placed as they come. -/
theorem foldl_place_free {rules l : List Rule} {st : Placement}
    (hfree : ∀ r ∈ l, superseders rules r = []) (hnew : ∀ r ∈ l, r.key ∉ st.met)
    (hkeys : (l.map Rule.key).Nodup) (depth : Nat) :
    l.foldl (place rules (depth + 1)) st =
      ⟨(l.map Rule.key).reverse ++ st.met, st.ordered ++ l⟩ := by
  induction l generalizing st with
  | nil => simp
  | cons r l ih =>
    rw [List.map_cons, List.nodup_cons] at hkeys
    rw [List.foldl_cons, place_free (hfree r (by simp)) (hnew r (by simp)),
      ih (fun q hq => hfree q (by simp [hq])) ?_ hkeys.2]
    · simp
    · intro q hq hmet
      rcases List.mem_cons.1 hmet with heq | hmet
      · exact hkeys.1 (heq ▸ List.mem_map_of_mem hq)
      · exact hnew q (by simp [hq]) hmet

theorem nodup_keys {rules : List Rule} (hids : (rules.map Rule.id).Nodup) :
    (rules.map Rule.key).Nodup := by
  apply List.Nodup.of_map Prod.fst
  rwa [List.map_map]

theorem firingOrder_eq_self {rules : List Rule} (hids : (rules.map Rule.id).Nodup)
    (hfree : ∀ r ∈ rules, superseders rules r = []) : firingOrder rules = rules := by
  rw [firingOrder, foldl_place_free hfree (by simp) (nodup_keys hids)]
  rfl

/-- A rule that is superseded by the next one, and by no other, changes places with it. -/
theorem firingOrder_swap {l l' : List Rule} {r q : Rule}
    (hids : ((l ++ r :: q :: l').map Rule.id).Nodup)
    (hr : superseders (l ++ r :: q :: l') r = [q])
    (hfree : ∀ x ∈ l ++ q :: l', superseders (l ++ r :: q :: l') x = []) :
    firingOrder (l ++ r :: q :: l') = l ++ q :: r :: l' := by
  have hkeys := nodup_keys hids
  simp only [List.map_append, List.map_cons, List.nodup_append, List.nodup_cons, List.mem_cons,
    not_or] at hkeys
  obtain ⟨hl, ⟨⟨hrq, hrl⟩, hql, hl'⟩, hapart⟩ := hkeys
  have hfirst : l.foldl (place (l ++ r :: q :: l') ((l ++ r :: q :: l').length + 1)) {} =
      ⟨(l.map Rule.key).reverse ++ [], [] ++ l⟩ :=
    foldl_place_free (fun x hx => hfree x (by simp [hx])) (by simp) hl _
  have hlength : (l ++ r :: q :: l').length = (l ++ q :: l').length + 1 := by
    simp only [List.length_append, List.length_cons]
    omega
  have hrnew : r.key ∉ (l.map Rule.key).reverse ++ [] := by
    simpa using fun x hx heq => hapart _ (List.mem_map_of_mem hx) r.key (.inl rfl) heq
  have hqnew : q.key ∉ r.key :: ((l.map Rule.key).reverse ++ []) := by
    simpa [Ne.symm hrq] using
      fun x hx heq => hapart _ (List.mem_map_of_mem hx) q.key (.inr (.inl rfl)) heq
  have hplaced : place (l ++ r :: q :: l') ((l ++ r :: q :: l').length + 1)
      ⟨(l.map Rule.key).reverse ++ [], [] ++ l⟩ r =
      ⟨q.key :: r.key :: ((l.map Rule.key).reverse ++ []), [] ++ l ++ [q] ++ [r]⟩ := by
    rw [place, if_neg (by simpa using hrnew), hr, List.foldl_cons, hlength,
      place_free (hfree q (by simp)) hqnew]
    rfl
  have hmet : place (l ++ r :: q :: l') ((l ++ r :: q :: l').length + 1)
      ⟨q.key :: r.key :: ((l.map Rule.key).reverse ++ []), [] ++ l ++ [q] ++ [r]⟩ q =
      ⟨q.key :: r.key :: ((l.map Rule.key).reverse ++ []), [] ++ l ++ [q] ++ [r]⟩ := by
    rw [place, if_pos (by simp)]
  have hlast : ∀ x ∈ l', x.key ∉ q.key :: r.key :: ((l.map Rule.key).reverse ++ []) := by
    intro x hx hin
    have hkey := List.mem_map_of_mem (f := Rule.key) hx
    simp only [List.append_nil, List.mem_cons, List.mem_reverse, List.mem_map] at hin
    rcases hin with heq | heq | ⟨y, hy, heq⟩
    · exact hql (heq ▸ hkey)
    · exact hrl (heq ▸ hkey)
    · exact hapart _ (List.mem_map_of_mem hy) _ (.inr (.inr hkey)) heq
  rw [firingOrder, List.foldl_append, List.foldl_cons, List.foldl_cons, hfirst, hplaced, hmet,
    foldl_place_free (fun x hx => hfree x (by simp [hx])) hlast hl']
  simp

end ChainLint
