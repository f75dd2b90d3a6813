import ChainLint.Proofs.Engine.Context
import ChainLint.Proofs.Engine.Firing
import ChainLint.Proofs.Engine.Simulation
import ChainLint.Rule.Selection

/-!
# ChainLint.Proofs.Engine.Selected

Checking with a part of the catalogue.

* `firingOrder_filter`: the order of trial of a part is that of the whole catalogue.
* `firesIn`: who fires on a node, for any part of the catalogue. `firingLaw_firesIn` says so.
* `fire_filter`: the findings of a part on one node are those of the catalogue that it can make,
  unless the part has the rule on attributes but not the one on labels.
* `fire_filter_mixed`: then there is one more finding on an assignment to a label and to another
  attribute.
* `check_pick`: a selection of rules filters the findings, up to that one.
-/

namespace ChainLint

theorem eq_of_id_eq {q r : Rule} (hq : q ∈ catalog) (hr : r ∈ catalog) (h : q.id = r.id) :
    q = r :=
  List.inj_on_of_nodup_map (orderly_of_sublist (.refl catalog)).ids hq hr h

/-! ## The order of trial -/

/-- The rules in front of the two that touch each other. -/
def leading : List Rule :=
  [inplaceTrue, reassignWithCall, reassignWithSubscript, assignWithSubscript]

/-- The catalogue in the order of trial. -/
def trialOrder : List Rule :=
  leading ++ [assignIndexColumns, assignWithAttribute, selectionWithMaskVariable]

theorem catalog_eq : catalog =
    leading ++ [assignWithAttribute, assignIndexColumns, selectionWithMaskVariable] := rfl

theorem mem_trialOrder {r : Rule} : r ∈ trialOrder ↔ r ∈ catalog := by
  simp only [trialOrder, catalog_eq, List.mem_append, List.mem_cons]
  tauto

theorem superseders_eq_nil {rules : List Rule} (hrules : rules.Sublist catalog) {r : Rule}
    (hr : r ∈ rules) (h : r = assignWithAttribute → assignIndexColumns ∉ rules) :
    superseders rules r = [] := by
  rw [List.eq_nil_iff_forall_not_mem]
  intro q hq
  obtain ⟨hq, hsup⟩ := mem_superseders.1 hq
  obtain ⟨hqid, hrid⟩ := supersedes_catalog hrules ⟨hq, hr, hsup⟩
  have hlabels : q = assignIndexColumns := eq_of_id_eq (hrules.subset hq) (by simp [catalog]) hqid
  have hattr : r = assignWithAttribute := eq_of_id_eq (hrules.subset hr) (by simp [catalog]) hrid
  exact h hattr (hlabels ▸ hq)

theorem superseders_attribute {rules : List Rule} (hrules : rules.Sublist catalog)
    (hattr : assignWithAttribute ∈ rules) (hlabels : assignIndexColumns ∈ rules) :
    superseders rules assignWithAttribute = [assignIndexColumns] := by
  have hnodup : (superseders rules assignWithAttribute).Nodup :=
    (List.Nodup.of_map _ (orderly_of_sublist hrules).ids).filter _
  have hall : ∀ q ∈ superseders rules assignWithAttribute, q = assignIndexColumns := by
    intro q hq
    obtain ⟨hq, hsup⟩ := mem_superseders.1 hq
    exact eq_of_id_eq (hrules.subset hq) (by simp [catalog])
      (supersedes_catalog hrules ⟨hq, hattr, hsup⟩).1
  have hin : assignIndexColumns ∈ superseders rules assignWithAttribute :=
    mem_superseders.2 ⟨hlabels, by decide⟩
  rw [List.eq_replicate_of_mem hall] at hnodup hin ⊢
  rw [List.nodup_replicate] at hnodup
  rw [List.mem_replicate] at hin
  rw [Nat.le_antisymm hnodup (Nat.one_le_iff_ne_zero.2 hin.1)]
  rfl

theorem firingOrder_filter (p : Rule → Bool) :
    firingOrder (catalog.filter p) = trialOrder.filter p := by
  have hrules : (catalog.filter p).Sublist catalog := List.filter_sublist
  have hids := (orderly_of_sublist hrules).ids
  by_cases hboth : p assignWithAttribute = true ∧ p assignIndexColumns = true
  · have hlist : catalog.filter p = leading.filter p ++ assignWithAttribute ::
        assignIndexColumns :: [selectionWithMaskVariable].filter p := by
      rw [catalog_eq, List.filter_append, List.filter_cons_of_pos hboth.1,
        List.filter_cons_of_pos hboth.2]
    have hattr : superseders (catalog.filter p) assignWithAttribute = [assignIndexColumns] :=
      superseders_attribute hrules (by simp [hlist]) (by simp [hlist])
    have hfree : ∀ r ∈ leading.filter p ++ assignIndexColumns ::
        [selectionWithMaskVariable].filter p, superseders (catalog.filter p) r = [] := by
      intro r hr
      refine superseders_eq_nil hrules ?_ ?_
      · rw [hlist]
        simp only [List.mem_append, List.mem_cons] at hr ⊢
        tauto
      · rintro rfl
        have hnodup := List.Nodup.of_map _ hids
        rw [hlist, List.nodup_middle, List.nodup_cons] at hnodup
        exact (hnodup.1 hr).elim
    rw [hlist] at hids hattr hfree ⊢
    rw [firingOrder_swap hids hattr hfree, trialOrder, List.filter_append,
      List.filter_cons_of_pos hboth.2, List.filter_cons_of_pos hboth.1]
  · have hfree : ∀ r ∈ catalog.filter p, superseders (catalog.filter p) r = [] := by
      intro r hr
      refine superseders_eq_nil hrules hr ?_
      rintro rfl hlabels
      exact hboth ⟨(List.mem_filter.1 hr).2, (List.mem_filter.1 hlabels).2⟩
    rw [firingOrder_eq_self hids hfree, catalog_eq, trialOrder, List.filter_append,
      List.filter_append]
    cases hattr : p assignWithAttribute with
    | true => simp_all [List.filter_cons]
    | false => simp_all [List.filter_cons]

/-! ## Who fires -/

/-- The rule is offered the node, and its test holds. -/
def Rule.meets (r : Rule) (n : Node) (b : Bindings) : Bool :=
  r.kinds.contains n.kind && r.check n b

/-- The rule fires on a node among others, with the rule on labels among them or not. -/
def firesIn (withLabels : Bool) (n : Node) (b : Bindings) (r : Rule) : Bool :=
  r.meets n b &&
    !(withLabels && r.id == assignWithAttribute.id && assignIndexColumns.meets n b)

theorem firingLaw_firesIn {rules : List Rule} (hrules : rules.Sublist catalog)
    {withLabels : Bool} (hlabels : withLabels = true ↔ assignIndexColumns ∈ rules) (n : Node)
    (b : Bindings) : FiringLaw rules n b (fun r => firesIn withLabels n b r = true) := by
  intro r hr
  have hmeets : ∀ q : Rule, q.meets n b = true ↔ n.kind ∈ q.kinds ∧ q.check n b = true := by
    simp [Rule.meets]
  simp only [firesIn, Bool.and_eq_true, hmeets, Bool.not_eq_true', Bool.and_eq_false_iff]
  constructor
  · rintro ⟨⟨hkind, hcheck⟩, hsilent⟩
    refine ⟨hkind, hcheck, ?_⟩
    rintro q hq - ⟨hfires, -⟩ hsup
    obtain ⟨hqid, hrid⟩ := supersedes_catalog hrules ⟨hq, hr, hsup⟩
    obtain rfl : q = assignIndexColumns := eq_of_id_eq (hrules.subset hq) (by simp [catalog]) hqid
    have hmeets' := (hmeets assignIndexColumns).2 hfires
    simp [hlabels.2 hq, hrid, hmeets', assignWithAttribute] at hsilent
  · rintro ⟨hkind, hcheck, hnone⟩
    refine ⟨⟨hkind, hcheck⟩, ?_⟩
    by_contra hsilent
    simp only [not_or, Bool.not_eq_false, beq_iff_eq] at hsilent
    obtain ⟨⟨hwith, hid⟩, hfires⟩ := hsilent
    have hne : assignIndexColumns ≠ r := by
      rintro rfl
      exact absurd hid (by decide)
    refine hnone assignIndexColumns (hlabels.1 hwith) hne ⟨(hmeets _).1 hfires, .inl (.inr ?_)⟩ ?_
    · decide
    · rw [hid]
      decide

theorem fire_eq_firesIn (p : Rule → Bool) (n : Node) (b : Bindings) :
    fire (firingOrder (catalog.filter p)) n b =
      ((trialOrder.filter p).filter (firesIn (p assignIndexColumns) n b)).map
        (fun r => findingAt r n) := by
  have hrules : (catalog.filter p).Sublist catalog := List.filter_sublist
  have hlabels : p assignIndexColumns = true ↔ assignIndexColumns ∈ catalog.filter p := by
    simp [catalog]
  rw [fire_eq (orderly_of_sublist hrules) (firingLaw_firesIn hrules hlabels n b),
    firingOrder_filter]

theorem fire_catalog (n : Node) (b : Bindings) :
    fire (firingOrder catalog) n b =
      (trialOrder.filter (firesIn true n b)).map (fun r => findingAt r n) := by
  have h := fire_eq_firesIn (fun _ => true) n b
  rwa [List.filter_true, List.filter_true] at h

theorem firesIn_of_ne {r : Rule} (h : r.id ≠ assignWithAttribute.id) (withLabels : Bool) (n : Node)
    (b : Bindings) : firesIn withLabels n b r = r.meets n b := by
  simp [firesIn, h]

/-! ## One node -/

/-- The finding has the id of one of the rules. -/
def Finding.isOf (rules : List Rule) (f : Finding) : Bool := (rules.map Rule.id).contains f.ruleId

theorem isOf_findingAt {p : Rule → Bool} {r : Rule} (hr : r ∈ catalog) (n : Node) :
    (findingAt r n).isOf (catalog.filter p) = p r := by
  rw [Bool.eq_iff_iff, Finding.isOf, List.contains_iff_mem, List.mem_map]
  constructor
  · rintro ⟨q, hq, hid⟩
    obtain ⟨hq, hpq⟩ := List.mem_filter.1 hq
    rwa [← eq_of_id_eq hq hr hid]
  · intro hp
    exact ⟨r, List.mem_filter.2 ⟨hr, hp⟩, rfl⟩

theorem filter_fire_catalog (p : Rule → Bool) (n : Node) (b : Bindings) :
    (fire (firingOrder catalog) n b).filter (Finding.isOf (catalog.filter p)) =
      (trialOrder.filter (fun r => p r && firesIn true n b r)).map (fun r => findingAt r n) := by
  rw [fire_catalog, List.filter_map, List.filter_filter]
  congr 1
  apply List.filter_congr
  intro r hr
  rw [Function.comp_apply, isOf_findingAt (mem_trialOrder.1 hr)]

/-- A part of the catalogue that has the rule on labels, or not the one on attributes, reports what
the catalogue does. -/
theorem fire_filter {p : Rule → Bool}
    (h : p assignIndexColumns = true ∨ p assignWithAttribute = false) (n : Node) (b : Bindings) :
    fire (firingOrder (catalog.filter p)) n b =
      (fire (firingOrder catalog) n b).filter (Finding.isOf (catalog.filter p)) := by
  rw [fire_eq_firesIn, filter_fire_catalog, List.filter_filter]
  congr 1
  apply List.filter_congr
  intro r hr
  rcases h with hlabels | hattr
  · rw [hlabels, Bool.and_comm]
  · by_cases hid : r.id = assignWithAttribute.id
    · obtain rfl := eq_of_id_eq (mem_trialOrder.1 hr) (by simp [catalog]) hid
      simp [hattr]
    · rw [firesIn_of_ne hid, firesIn_of_ne hid, Bool.and_comm]

/-- An assignment to a label, `index` or `columns`, and to some other attribute. -/
def Node.isMixed : Node → Bool
  | .assign _ targets _ _ =>
    targets.any Node.isLabelAttr && targets.any (fun t => t.isAttr && !t.isLabelAttr)
  | _ => false

/-- Both rules on attributes meet a node only if it has several targets. -/
theorem isMixed_eq (n : Node) (b : Bindings) :
    n.isMixed = (assignIndexColumns.meets n b && assignWithAttribute.meets n b) := by
  cases n with
  | assign p targets hint value => rfl
  | augassign p target op value =>
    cases hlabel : target.isLabelAttr with
    | true =>
      simp [Node.isMixed, Rule.meets, assignWithAttribute, Node.targets, hlabel]
    | false =>
      simp [Node.isMixed, Rule.meets, assignIndexColumns, Node.targets, hlabel]
  | _ => rfl

/-- On a node that is not mixed, the rule on labels silences no one. -/
theorem firesIn_of_not_mixed {n : Node} {b : Bindings} (h : n.isMixed = false) {r : Rule}
    (hr : r ∈ catalog) : firesIn true n b r = firesIn false n b r := by
  rw [isMixed_eq n b] at h
  by_cases hid : r.id = assignWithAttribute.id
  · obtain rfl := eq_of_id_eq hr (by simp [catalog]) hid
    cases hlabels : assignIndexColumns.meets n b with
    | true =>
      rw [hlabels, Bool.true_and] at h
      simp [firesIn, h]
    | false => simp [firesIn, hlabels]
  · rw [firesIn_of_ne hid, firesIn_of_ne hid]

theorem trialOrder_of_mixed {p : Rule → Bool} (hattr : p assignWithAttribute = true)
    (hlabels : p assignIndexColumns = false) {n : Node} {b : Bindings} (h : n.isMixed = true) :
    trialOrder.filter (fun r => p r && firesIn false n b r) =
      trialOrder.filter (fun r => p r && firesIn true n b r) ++ [assignWithAttribute] := by
  have hleading : leading.filter (fun r => p r && firesIn false n b r) =
      leading.filter (fun r => p r && firesIn true n b r) := by
    apply List.filter_congr
    intro r hr
    have hid : r.id ≠ assignWithAttribute.id := by
      revert r
      decide
    rw [firesIn_of_ne hid, firesIn_of_ne hid]
  have hselection : selectionWithMaskVariable.meets n b = false := by
    cases n with
    | assign p targets hint value => rfl
    | _ => cases h
  rw [isMixed_eq n b, Bool.and_eq_true] at h
  rw [trialOrder, List.filter_append, List.filter_append, hleading, List.append_assoc]
  simp [hattr, hlabels, firesIn, h.1, h.2, hselection]

/-- With the rule on attributes and without the one on labels, an assignment to both is reported as
one to attributes. -/
theorem fire_filter_mixed {p : Rule → Bool} (hattr : p assignWithAttribute = true)
    (hlabels : p assignIndexColumns = false) (n : Node) (b : Bindings) :
    fire (firingOrder (catalog.filter p)) n b =
      (fire (firingOrder catalog) n b).filter (Finding.isOf (catalog.filter p)) ++
        if n.isMixed then [findingAt assignWithAttribute n] else [] := by
  have hcomm : ∀ r, (firesIn false n b r && p r) = (p r && firesIn false n b r) :=
    fun r => Bool.and_comm _ _
  rw [fire_eq_firesIn, filter_fire_catalog, hlabels, List.filter_filter, funext hcomm]
  cases hmixed : n.isMixed with
  | true =>
    rw [trialOrder_of_mixed hattr hlabels hmixed, List.map_append, if_pos rfl]
    rfl
  | false =>
    rw [if_neg (by decide), List.append_nil]
    congr 1
    apply List.filter_congr
    intro r hr
    rw [firesIn_of_not_mixed hmixed (mem_trialOrder.1 hr)]

/-! ## Whole trees -/

theorem check_isOk_of_isOk {rules : List Rule} {root : Node} {found : List Finding}
    (h : check rules root = .ok found) (rules' : List Rule) :
    ∃ found', check rules' root = .ok found' := by
  cases h' : check rules' root with
  | error e =>
    rw [check_eq_error_iff rules' rules, h] at h'
    cases h'
  | ok found' => exact ⟨found', rfl⟩

/-- Checking with the rules of a selection fails where and as checking with the whole catalogue
does. It reports those findings of the catalogue that have the id of a selected rule, except that
without the rule on labels the rule on attributes also reports the assignments to both, each in its
place. -/
theorem check_pick (s : Selection) (root : Node) :
    (∀ e, check (s.pick catalog) root = .error e ↔ check catalog root = .error e) ∧
    ∀ found, check catalog root = .ok found →
      (assignIndexColumns ∈ s.pick catalog ∨ assignWithAttribute ∉ s.pick catalog →
        check (s.pick catalog) root = .ok (found.filter (Finding.isOf (s.pick catalog)))) ∧
      (assignIndexColumns ∉ s.pick catalog → assignWithAttribute ∈ s.pick catalog →
        walk none root = .ok (root.stops.map Stop.toEvent) ∧
        ∃ here : Stop → List Finding, found = root.entries.flatMap here ∧
          (∀ stop ∈ root.entries, ∀ f ∈ here stop, ∃ r ∈ catalog, f = findingAt r stop.node) ∧
          check (s.pick catalog) root = .ok (root.entries.flatMap (fun stop =>
            (here stop).filter (Finding.isOf (s.pick catalog)) ++
              if stop.node.isMixed then [findingAt assignWithAttribute stop.node] else []))) := by
  have hpicked : ∀ r ∈ catalog, r ∈ s.pick catalog ↔ s.isEnabled r.id = true :=
    fun r hr => by simp [Selection.pick, hr]
  rw [hpicked assignIndexColumns (by simp [catalog]),
    hpicked assignWithAttribute (by simp [catalog])]
  refine ⟨check_eq_error_iff _ _ root, fun found hfound => ?_⟩
  obtain ⟨own, hown⟩ := check_isOk_of_isOk hfound (s.pick catalog)
  rw [hown, check_eq_entries hown, check_eq_entries hfound, List.filter_flatMap]
  refine ⟨fun h => ?_, fun hlabels hattr => ⟨?_, _, rfl, ?_, ?_⟩⟩
  · simp only [Bool.not_eq_true] at h
    simp only [Selection.pick, fire_filter (p := fun r => s.isEnabled r.id) h]
  · exact walk_of_accepted (accepted_of_check hfound)
  · intro stop _ f hf
    rw [fire_catalog] at hf
    obtain ⟨r, hr, rfl⟩ := List.mem_map.1 hf
    exact ⟨r, mem_trialOrder.1 (List.mem_of_mem_filter hr), rfl⟩
  · simp only [Selection.pick,
      fire_filter_mixed (p := fun r => s.isEnabled r.id) hattr (by simpa using hlabels)]

/-- `df.index = df.a = 0` is reported for its label, and for its attribute when only the rule on
attributes is selected. -/
theorem check_pick_labels :
    let s : Selection := { select := ["PMC005"] }
    let assignment : Node := .assign (.at 1 0)
      [.attr (.at 1 0) (.name (.at 1 0) "df") "index", .attr (.at 1 11) (.name (.at 1 11) "df") "a"]
      none (.constant (.at 1 18) .number "0")
    let root : Node := .module (.at 1 0) [assignment]
    check catalog root = .ok [findingAt assignIndexColumns assignment] ∧
    check (s.pick catalog) root = .ok [findingAt assignWithAttribute assignment] ∧
    ∃ here : Stop → List Finding,
      [findingAt assignIndexColumns assignment] = root.entries.flatMap here ∧
      [findingAt assignWithAttribute assignment] = root.entries.flatMap (fun stop =>
        (here stop).filter (Finding.isOf (s.pick catalog)) ++
          if stop.node.isMixed then [findingAt assignWithAttribute stop.node] else []) := by
  intro s assignment root
  have hall : check catalog root = .ok [findingAt assignIndexColumns assignment] := by
    decide +kernel
  have hown : check (s.pick catalog) root = .ok [findingAt assignWithAttribute assignment] := by
    decide +kernel
  have hlabels : assignIndexColumns ∉ s.pick catalog := by
    rw [Selection.pick, List.mem_filter]
    exact fun h => absurd h.2 (by decide +kernel)
  have hattr : assignWithAttribute ∈ s.pick catalog :=
    List.mem_filter.2 ⟨by simp [catalog], by decide +kernel⟩
  obtain ⟨-, here, hhere, -, hcheck⟩ := ((check_pick s root).2 _ hall).2 hlabels hattr
  exact ⟨hall, hown, here, hhere, Except.ok.inj (hown.symm.trans hcheck)⟩

end ChainLint
