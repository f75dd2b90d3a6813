import ChainLint.Proofs.Engine.Context
import ChainLint.Proofs.Engine.Firing

/-!
# ChainLint.Proofs.Engine.Mask

Which selections are reported because they reuse a mask, said by the assignments alone.

* `isMaskForm`: an expression that is a mask by its form.
* `MaskChain`: assignments that hand a mask on, from name to name.
* `has_boundAfter_iff`: a name of a scope is bound to a mask exactly when a chain of assignments
  of that scope ends at it. Bindings are never dropped, so other assignments do not matter.
* `selection_reported_iff`: a selection is reported exactly when such a chain ends, before the
  selection is entered, at a name that is one of its indices.
-/

namespace ChainLint

/-- The expression is a mask whatever its names are bound to. -/
def Node.isMaskForm : Node → Bool
  | .compare .. | .boolop .. => true
  | .unaryop _ op _ => op == "~" || op == "not"
  | .binop _ _ op _ => maskOperators.contains op
  | .call _ (.attr _ _ method) _ _ => maskMethods.contains method
  | _ => false

/-- The name `x` stands by itself among the expressions. -/
def Names (x : String) (nodes : List Node) : Prop := ∃ p, Node.name p x ∈ nodes

/-- The stop leaves an assignment of `value` to `targets`. -/
def Stop.Assigns (a : Stop) (targets : List Node) (value : Node) : Prop :=
  a.phase = .leave ∧ ∃ p hint, a.node = .assign p targets hint value

/-- A chain of assignments that ends at the name `x`: the first one has a mask for its value, each
other one has a name that the one before it binds. -/
inductive MaskChain : List Stop → String → Prop where
  | start {a : Stop} {targets : List Node} {value : Node} {x : String}
      (ha : a.Assigns targets value) (hvalue : value.isMaskForm = true) (hx : Names x targets) :
      MaskChain [a] x
  | pass {as : List Stop} {a : Stop} {targets : List Node} {p : Position} {x y : String}
      (has : MaskChain as y) (ha : a.Assigns targets (.name p y)) (hx : Names x targets) :
      MaskChain (as ++ [a]) x

/-! ## Chains -/

/-- How the last assignment of a chain continues it. -/
theorem maskChain_snoc {as : List Stop} {a : Stop} {x : String} :
    MaskChain (as ++ [a]) x ↔ ∃ targets value, a.Assigns targets value ∧ Names x targets ∧
      ((as = [] ∧ value.isMaskForm = true) ∨ ∃ p y, value = .name p y ∧ MaskChain as y) := by
  constructor
  · intro h
    generalize hl : as ++ [a] = l at h
    cases h with
    | @start b targets value _ ha hvalue hx =>
      obtain ⟨rfl, rfl⟩ : as = [] ∧ a = b := by simpa [List.append_eq_singleton_iff] using hl
      exact ⟨targets, value, ha, hx, .inl ⟨rfl, hvalue⟩⟩
    | @pass bs b targets p _ y has ha hx =>
      obtain ⟨rfl, hb⟩ := List.append_inj' hl rfl
      obtain rfl := List.singleton_inj.1 hb
      exact ⟨targets, .name p y, ha, hx, .inr ⟨p, y, rfl, has⟩⟩
  · rintro ⟨targets, value, ha, hx, ⟨rfl, hvalue⟩ | ⟨p, y, rfl, has⟩⟩
    · exact .start ha hvalue hx
    · exact .pass has ha hx

theorem MaskChain.ne_nil {as : List Stop} {x : String} (h : MaskChain as x) : as ≠ [] := by
  cases h with
  | start => simp
  | pass => simp

theorem MaskChain.leave {as : List Stop} {x : String} (h : MaskChain as x) :
    ∀ a ∈ as, a.phase = .leave := by
  induction h with
  | start ha => simpa using ha.1
  | pass _ ha _ ih =>
    intro b hb
    rcases List.mem_append.1 hb with hb | hb
    · exact ih b hb
    · obtain rfl := List.mem_singleton.1 hb
      exact ha.1

/-! ## Bindings -/

theorem isMask_iff {b : Bindings} {value : Node} :
    value.isMask b = true ↔
      value.isMaskForm = true ∨ ∃ p y, value = .name p y ∧ b.has y .mask = true := by
  cases value with
  | call p func args keywords =>
    cases func with
    | attr => simp [Node.isMask, Node.isMaskForm]
    | _ => simp [Node.isMask, Node.isMaskForm]
  | _ => simp [Node.isMask, Node.isMaskForm]

theorem origin_eq_mask {b : Bindings} {value : Node} :
    value.origin b = .mask ↔ value.isMask b = true := by
  unfold Node.origin
  split
  · simp_all
  · split <;> simp_all

theorem has_bind {b : Bindings} {x y : String} {o o' : Origin} :
    (b.bind y o).has x o' = true ↔ (x = y ∧ o' = o) ∨ b.has x o' = true := by
  simp [Bindings.bind, Bindings.has]

/-- What one target of an assignment adds to the bindings. -/
def bindTarget (o : Origin) (b : Bindings) : Node → Bindings
  | .name _ y => b.bind y o
  | _ => b

theorem has_foldl_bindTarget {targets : List Node} {b : Bindings} {x : String} {o o' : Origin} :
    (targets.foldl (bindTarget o) b).has x o' = true ↔
      b.has x o' = true ∨ (o = o' ∧ Names x targets) := by
  induction targets generalizing b with
  | nil => simp [Names]
  | cons t targets ih =>
    rw [List.foldl_cons, ih]
    cases t with
    | name p y =>
      rw [bindTarget, has_bind]
      simp only [Names, List.mem_cons, Node.name.injEq]
      grind
    | _ => simp [Names, bindTarget]

/-- An assignment binds the names among its targets to the origin of its value. -/
theorem has_bindTargets_assign {p : Position} {targets : List Node} {hint : Option Node}
    {value : Node} {b : Bindings} {x : String} {o : Origin} :
    ((Node.assign p targets hint value).bindTargets b).has x o = true ↔
      b.has x o = true ∨ (Names x targets ∧ o = value.origin b) := by
  have hfold : (Node.assign p targets hint value).bindTargets b =
      targets.foldl (bindTarget (value.origin b)) b := rfl
  rw [hfold, has_foldl_bindTarget, and_comm, @eq_comm _ o]

/-- An assignment binds a mask to the names among its targets when its value is one, and takes
none away. -/
theorem has_bindTargets {n : Node} {b : Bindings} {x : String} :
    (n.bindTargets b).has x .mask = true ↔ b.has x .mask = true ∨
      ∃ p targets hint value, n = .assign p targets hint value ∧ value.isMask b = true ∧
        Names x targets := by
  cases n with
  | assign p targets hint value =>
    rw [has_bindTargets_assign, @eq_comm _ Origin.mask, origin_eq_mask]
    simp [and_comm]
  | _ => simp [Node.bindTargets]

theorem sublist_snoc_iff {α : Type} {l₁ l₂ : List α} {a : α} :
    l₁.Sublist (l₂ ++ [a]) ↔ l₁.Sublist l₂ ∨ ∃ l, l₁ = l ++ [a] ∧ l.Sublist l₂ := by
  rw [List.sublist_append_iff]
  constructor
  · rintro ⟨l, r, rfl, hl, hr⟩
    rcases List.sublist_singleton.1 hr with rfl | rfl
    · exact .inl (by simpa using hl)
    · exact .inr ⟨l, rfl, hl⟩
  · rintro (h | ⟨l, rfl, hl⟩)
    · exact ⟨l₁, [], by simp, h, by simp⟩
    · exact ⟨l, [a], rfl, hl, List.Sublist.refl _⟩

/-- A name of a scope is bound to a mask when some chain of assignments of the scope ends at it. -/
theorem has_boundAfter_iff {root : Node} {scope : Place} {stops : List Stop} {x : String} :
    (root.boundAfter scope stops).has x .mask = true ↔
      ∃ as, MaskChain as x ∧ (∀ a ∈ as, root.scopeOf a.place = scope) ∧ as.Sublist stops := by
  induction stops using List.reverseRecOn generalizing x with
  | nil =>
    simp only [List.sublist_nil]
    constructor
    · intro h
      cases h
    · rintro ⟨_, h, -, rfl⟩
      exact (h.ne_nil rfl).elim
  | append_singleton stops s ih =>
    simp only [sublist_snoc_iff]
    by_cases hs : s.phase = .leave ∧ root.scopeOf s.place = scope
    · rw [Node.boundAfter_snoc, if_pos hs, has_bindTargets, ih]
      constructor
      · rintro (⟨as, has, hscope, hsub⟩ | ⟨p, targets, hint, value, hnode, hmask, hx⟩)
        · exact ⟨as, has, hscope, .inl hsub⟩
        · have ha : s.Assigns targets value := ⟨hs.1, p, hint, hnode⟩
          rcases isMask_iff.1 hmask with hform | ⟨q, y, rfl, hy⟩
          · exact ⟨[s], .start ha hform hx, by simpa using hs.2, .inr ⟨[], rfl, by simp⟩⟩
          · obtain ⟨as, has, hscope, hsub⟩ := ih.1 hy
            refine ⟨as ++ [s], .pass has ha hx, ?_, .inr ⟨as, rfl, hsub⟩⟩
            simpa [or_imp, forall_and] using ⟨hscope, hs.2⟩
      · rintro ⟨_, has, hscope, hsub | ⟨as, rfl, hsub⟩⟩
        · exact .inl ⟨_, has, hscope, hsub⟩
        · obtain ⟨targets, value, ⟨-, p, hint, hnode⟩, hx, hvalue⟩ := maskChain_snoc.1 has
          refine .inr ⟨p, targets, hint, value, hnode, isMask_iff.2 ?_, hx⟩
          refine hvalue.imp And.right ?_
          rintro ⟨q, y, rfl, has⟩
          exact ⟨q, y, rfl, ih.2 ⟨as, has, fun a ha => hscope a (by simp [ha]), hsub⟩⟩
    · rw [Node.boundAfter_snoc, if_neg hs, ih]
      refine exists_congr fun as => and_congr_right fun has => and_congr_right fun hscope => ?_
      refine (or_iff_left ?_).symm
      -- A chain of the scope does not end at a stop that binds nothing there.
      rintro ⟨l, rfl, -⟩
      exact hs ⟨has.leave s (by simp), hscope s (by simp)⟩

/-! ## Selections -/

/-- Nothing in the catalogue takes precedence over the rule on selections, so its test decides. -/
theorem selection_kept_iff {rules : List Rule} (hrules : rules.Sublist catalog)
    (hmask : selectionWithMaskVariable ∈ rules) {p : Position} {value : Node}
    {indices : List Node} {b : Bindings} :
    selectionWithMaskVariable ∈ kept (.subscript p value indices) b []
      (offered (firingOrder rules) .subscript) ↔
      ∃ x, Names x indices ∧ b.has x .mask = true := by
  have hlaw := kept_law (orderly_of_sublist hrules) (.subscript p value indices) b _ hmask
  refine hlaw.trans ?_
  constructor
  · rintro ⟨-, hcheck, -⟩
    obtain ⟨i, hi, hhas⟩ := List.any_eq_true.1 hcheck
    cases i with
    | name q x => exact ⟨x, ⟨q, hi⟩, hhas⟩
    | _ => cases hhas
  · rintro ⟨x, ⟨q, hq⟩, hhas⟩
    refine ⟨List.mem_singleton_self _, List.any_eq_true.2 ⟨_, hq, hhas⟩, ?_⟩
    intro r hr _ _ hsup
    have h := (supersedes_catalog hrules ⟨hr, hmask, hsup⟩).2
    exact absurd h (by decide)

/-- A selection is reported exactly when a chain of assignments of its scope, left one after the
other before the selection is entered, ends at a name among its indices. What the names are bound
to in between makes no difference. -/
theorem selection_reported_iff {rules : List Rule} (hrules : rules.Sublist catalog)
    (hmask : selectionWithMaskVariable ∈ rules) {root : Node} {found : List Finding}
    (hcheck : check rules root = .ok found) :
    walk none root = .ok (root.stops.map Stop.toEvent) ∧
    ∃ reported, report rules root = .ok reported ∧ found = reported.map Prod.snd ∧
      ∀ place p value indices, root.at? place = some (.subscript p value indices) →
        ((∃ f, (place, f) ∈ reported ∧ f.ruleId = "PMC007") ↔
          ∃ x as, Names x indices ∧ MaskChain as x ∧
            (∀ a ∈ as, root.scopeOf a.place = root.scopeOf place) ∧
            as.Sublist (root.stopsBefore place)) := by
  obtain ⟨reported, hreport, rfl⟩ : ∃ reported, report rules root = .ok reported ∧
      reported.map Prod.snd = found := by
    rw [check_eq_report] at hcheck
    cases hr : report rules root with
    | error e => rw [hr] at hcheck; cases hcheck
    | ok reported => rw [hr] at hcheck; exact ⟨reported, rfl, Except.ok.inj hcheck⟩
  have haccept : root.Every Accepted := report_isOk_iff.1 ⟨reported, hreport⟩
  refine ⟨Node.walk_eq_trail (fun place n hn => (accept_eq_ok.1 (haccept place n hn)).2) none [],
    reported, hreport, rfl, ?_⟩
  intro place p value indices hat
  obtain ⟨s, hs, henter, hnode, hplace⟩ := Node.exists_mem_trail .enter none [] hat
  obtain rfl : s.place = place := hplace
  have hentry : s ∈ root.entries := List.mem_filter.2 ⟨hs, by simpa using henter⟩
  calc (∃ f, (s.place, f) ∈ reported ∧ f.ruleId = "PMC007")
      ↔ ∃ f ∈ fire (firingOrder rules) s.node (root.contextAt s.place),
          f.ruleId = selectionWithMaskVariable.id := by
        simp only [mem_report_iff hreport hentry]
        rfl
    _ ↔ ∃ x, Names x indices ∧ (root.contextAt s.place).has x .mask = true := by
        rw [mem_fire_iff (orderly_of_sublist hrules) hmask, hnode]
        exact selection_kept_iff hrules hmask
    _ ↔ _ := by
        rw [Node.contextAt, Node.homeOf_eq_scopeOf hat rfl]
        simp only [has_boundAfter_iff, exists_and_left]

/-- `m = a > 0`, then `m = 1`, `n = m` and `df[n]`: the selection is reported although `m` has
been bound to a number in between. -/
theorem selection_reported_alias :
    let first : Node := .assign (.at 1 0) [.name (.at 1 0) "m"] none
      (.compare (.at 1 4) (.name (.at 1 4) "a") [">"] [.constant (.at 1 8) .number "0"])
    let rebound : Node := .assign (.at 2 0) [.name (.at 2 0) "m"] none
      (.constant (.at 2 4) .number "1")
    let second : Node := .assign (.at 3 0) [.name (.at 3 0) "n"] none (.name (.at 3 4) "m")
    let root : Node := .module (.at 1 0) [first, rebound, second,
      .subscript (.at 4 0) (.name (.at 4 0) "df") [.name (.at 4 3) "n"]]
    ∃ found, check [selectionWithMaskVariable] root = .ok found ∧
      ∃ f ∈ found, f.ruleId = "PMC007" := by
  intro first rebound second root
  have hroot : root.Every Accepted := by
    simp only [root, first, rebound, second, Node.every_module, Node.every_assign,
      Node.every_compare, Node.every_name, Node.every_constant, Node.every_subscript,
      Option.toList_none, List.append_nil, List.cons_append, List.nil_append,
      List.forall_mem_cons, List.not_mem_nil, false_imp_iff, implies_true, and_true]
    repeat' constructor
  obtain ⟨reported, hreport⟩ : ∃ reported,
      report [selectionWithMaskVariable] root = .ok reported := report_isOk_iff.2 hroot
  have hcheck : check [selectionWithMaskVariable] root = .ok (reported.map Prod.snd) := by
    rw [check_eq_report, hreport]
    rfl
  obtain ⟨-, _, hreport', -, hiff⟩ := selection_reported_iff
    (List.sublist_append_right (catalog.take 6) _) (List.mem_singleton_self _) hcheck
  cases hreport.symm.trans hreport'
  have hchain : (root.stopsBefore [3]).filter
      (fun s => s.phase = .leave && (s.place = [0] || s.place = [2])) =
      [⟨⟨.leave, first, some root⟩, [0]⟩, ⟨⟨.leave, second, some root⟩, [2]⟩] := by
    simp [Node.stopsBefore, Node.stops, root, first, rebound, second, Node.trail_eq,
      Node.children]
  obtain ⟨f, hf, hid⟩ := (hiff [3] _ _ _ rfl).2 ⟨"n", _, ⟨_, List.mem_singleton_self _⟩,
    .pass (.start (x := "m") ⟨rfl, _, _, rfl⟩ rfl ⟨_, List.mem_singleton_self _⟩)
      ⟨rfl, _, _, rfl⟩ ⟨_, List.mem_singleton_self _⟩,
    by simp [Node.scopeOf], hchain ▸ List.filter_sublist⟩
  exact ⟨_, hcheck, f, List.mem_map.2 ⟨_, hf, rfl⟩, hid⟩

end ChainLint
