import ChainLint.Proofs.Engine.Mask
import ChainLint.Proofs.Engine.Simulation

/-!
# ChainLint.Proofs.Engine.Append

What statements report that follow others in a module.

* `Adds`: a list and the same list with further elements of one sort.
* `MasksIn`: the names bound to a mask are also bound to one in other bindings. What else a name
  is bound to may differ, and does: with more bindings an alias is a mask that was none before.
* `adds_fire`, `masksIn_bindTargets`: at one node, such bindings add findings on selections only,
  and stay so. `append_simulation`: hence in a whole tree.
* `check_module_append`: statements in front of others change nothing of what they report, and
  add findings on selections.
-/

namespace ChainLint

/-- The second list is the first one with further elements, all of which have the property. -/
inductive Adds {α : Type} (p : α → Prop) : List α → List α → Prop where
  | nil : Adds p [] []
  | keep {a : α} {l r : List α} (h : Adds p l r) : Adds p (a :: l) (a :: r)
  | more {a : α} {l r : List α} (ha : p a) (h : Adds p l r) : Adds p l (a :: r)

namespace Adds

variable {α : Type} {p : α → Prop} {l r l' r' : List α}

theorem append (h : Adds p l r) (h' : Adds p l' r') : Adds p (l ++ l') (r ++ r') := by
  induction h with
  | nil => exact h'
  | keep _ ih => exact .keep ih
  | more ha _ ih => exact .more ha ih

theorem sublist (h : Adds p l r) : l.Sublist r := by
  induction h with
  | nil => exact .slnil
  | keep _ ih => exact ih.cons_cons _
  | more _ _ ih => exact ih.cons _

/-- Without the elements of the one sort, the lists are the same. -/
theorem filter_eq (h : Adds p l r) {q : α → Bool} (hq : ∀ a, p a → q a = false) :
    r.filter q = l.filter q := by
  induction h with
  | nil => rfl
  | @keep a _ _ _ ih => rw [List.filter_cons, List.filter_cons, ih]
  | @more a _ _ ha _ ih => rw [List.filter_cons_of_neg (by simp [hq a ha]), ih]

end Adds

/-! ## More masks -/

def MasksIn (b b' : Bindings) : Prop := ∀ x, b.has x .mask = true → b'.has x .mask = true

theorem MasksIn.empty (b : Bindings) : MasksIn .empty b := by
  intro x hx
  cases hx

theorem MasksIn.isMask {b b' : Bindings} (h : MasksIn b b') {value : Node}
    (hvalue : value.isMask b = true) : value.isMask b' = true := by
  rw [isMask_iff] at hvalue ⊢
  refine hvalue.imp_right ?_
  rintro ⟨p, y, rfl, hy⟩
  exact ⟨p, y, rfl, h y hy⟩

theorem masksIn_bindTargets {b b' : Bindings} (h : MasksIn b b') (n : Node) :
    MasksIn (n.bindTargets b) (n.bindTargets b') := by
  intro x hx
  rw [has_bindTargets] at hx ⊢
  refine hx.imp (h x) ?_
  rintro ⟨p, targets, hint, value, hn, hmask, hname⟩
  exact ⟨p, targets, hint, value, hn, h.isMask hmask, hname⟩

/-- The rule on selections is the one rule that reads bindings. -/
theorem check_eq_of_mem_catalog {r : Rule} (hr : r ∈ catalog) :
    r = selectionWithMaskVariable ∨ ∀ n b b', r.check n b = r.check n b' := by
  simp only [catalog, List.mem_cons, List.not_mem_nil, or_false] at hr
  rcases hr with rfl | rfl | rfl | rfl | rfl | rfl | rfl
  case inr.inr.inr.inr.inr.inr => exact .inl rfl
  all_goals exact .inr (fun n b b' => rfl)

theorem MasksIn.selects {b b' : Bindings} (h : MasksIn b b') {n : Node}
    (hn : selectionWithMaskVariable.check n b = true) :
    selectionWithMaskVariable.check n b' = true := by
  cases n with
  | subscript p value indices =>
    obtain ⟨i, hi, hhas⟩ := List.any_eq_true.1 hn
    refine List.any_eq_true.2 ⟨i, hi, ?_⟩
    cases i with
    | name q x => exact h x hhas
    | _ => cases hhas
  | _ => cases hn

/-- Findings on a node with more masks. -/
theorem adds_fireFrom {b b' : Bindings} (h : MasksIn b b') (n : Node) {rules : List Rule}
    (hrules : ∀ r ∈ rules, r ∈ catalog) (silenced : List String) :
    Adds (fun f => f.ruleId = "PMC007") (fireFrom n b silenced rules)
      (fireFrom n b' silenced rules) := by
  induction rules generalizing silenced with
  | nil => exact .nil
  | cons r rules ih =>
    have hrest := ih (fun q hq => hrules q (by simp [hq]))
    unfold fireFrom
    rcases check_eq_of_mem_catalog (hrules r (by simp)) with rfl | hcheck
    · cases hb : selectionWithMaskVariable.check n b with
      | true =>
        rw [h.selects hb]
        split
        · exact hrest silenced
        · exact .keep (hrest _)
      | false =>
        rw [Bool.not_false, Bool.or_true, if_pos rfl]
        split
        · exact hrest silenced
        -- The rule supersedes none, so the ids silenced from here on are the same.
        · exact .more rfl (hrest silenced)
    · rw [hcheck n b b']
      split
      · exact hrest silenced
      · exact .keep (hrest _)

theorem mem_catalog_of_mem_firingOrder {rules : List Rule} (hrules : rules.Sublist catalog)
    {r : Rule} (hr : r ∈ firingOrder rules) : r ∈ catalog :=
  hrules.subset ((firingOrder_perm (orderly_of_sublist hrules).ids).mem_iff.1 hr)

theorem adds_fire {rules : List Rule} (hrules : rules.Sublist catalog) {b b' : Bindings}
    (h : MasksIn b b') (n : Node) :
    Adds (fun f => f.ruleId = "PMC007") (fire (firingOrder rules) n b)
      (fire (firingOrder rules) n b') :=
  adds_fireFrom h n
    (fun _ hr => mem_catalog_of_mem_firingOrder hrules (mem_offered.1 hr).1) []

theorem append_simulation {rules : List Rule} (hrules : rules.Sublist catalog) :
    Simulation (firingOrder rules) (firingOrder rules) MasksIn
      (Adds (fun f => f.ruleId = "PMC007")) where
  nil := .nil
  append := .append
  empty := .empty .empty
  fires n _ _ h := adds_fire hrules h n
  binds n _ _ h := masksIn_bindTargets h n

/-! ## Modules -/

theorem fire_eq_nil {ordered : List Rule} {n : Node} (h : ∀ r ∈ ordered, n.kind ∉ r.kinds)
    (b : Bindings) : fire ordered n b = [] := by
  have hoffered : offered ordered n.kind = [] := by
    rw [List.eq_nil_iff_forall_not_mem]
    intro r hr
    exact h r (mem_offered.1 hr).1 (mem_offered.1 hr).2
  rw [fire, hoffered, fireFrom]

/-- The kinds of nodes that rules of the catalogue are offered. -/
theorem kinds_catalog {r : Rule} (hr : r ∈ catalog) :
    r.kinds ⊆ [.call, .assign, .augassign, .subscript] := by
  simp only [catalog, List.mem_cons, List.not_mem_nil, or_false] at hr
  rcases hr with rfl | rfl | rfl | rfl | rfl | rfl | rfl <;> decide

theorem fire_catalog_eq_nil {rules : List Rule} (hrules : rules.Sublist catalog) {n : Node}
    (hn : n.kind ∉ [Kind.call, .assign, .augassign, .subscript]) (b : Bindings) :
    fire (firingOrder rules) n b = [] :=
  fire_eq_nil (fun _ hr hk => hn (kinds_catalog (mem_catalog_of_mem_firingOrder hrules hr) hk)) b

/-- The findings in a module are those in its body. -/
theorem check_module_eq_ok {rules : List Rule} (hrules : rules.Sublist catalog) {p : Position}
    {body : List Node} {found : List Finding} :
    check rules (.module p body) = .ok found ↔
      Accepted (.module p []) ∧
        ∃ b, visitAll (firingOrder rules) .empty body = .ok (b, found) := by
  have haccept : accept (.module p body) = accept (.module p []) := rfl
  have hfire : fire (firingOrder rules) (.module p body) .empty = [] :=
    fire_catalog_eq_nil hrules (by simp [Node.kind]) .empty
  rw [check_eq_ok, visit_eq_visitAll, haccept]
  simp only [bind_eq_ok, pure_eq_ok, Node.isScope, Node.children, Bool.not_true, Bool.and_false,
    Bool.false_eq_true, if_false, hfire, List.nil_append]
  constructor
  · rintro ⟨b, ⟨⟩, hok, ⟨b', f⟩, hall, heq⟩
    cases heq
    exact ⟨hok, b', hall⟩
  · rintro ⟨hok, b, hall⟩
    exact ⟨_, (), hok, (b, found), hall, rfl⟩

/-- Statements that are added to a module leave its findings as they are. Of the added ones, all
is reported that they report by themselves; what the statements in front of them add to that are
findings on selections. -/
theorem check_module_append {rules : List Rule} (hrules : rules.Sublist catalog) {p : Position}
    {xs ys : List Node} {earlier own : List Finding}
    (hxs : check rules (.module p xs) = .ok earlier)
    (hys : check rules (.module p ys) = .ok own) :
    ∃ later, check rules (.module p (xs ++ ys)) = .ok (earlier ++ later) ∧
      own.Sublist later ∧ Adds (fun f => f.ruleId = "PMC007") own later ∧
      later.filter (fun f => f.ruleId ≠ "PMC007") = own.filter (fun f => f.ruleId ≠ "PMC007") := by
  simp only [check_module_eq_ok hrules] at hxs hys ⊢
  obtain ⟨hok, b, hxs⟩ := hxs
  obtain ⟨-, b₀, hys⟩ := hys
  have hsim := append_simulation hrules
  have hrelated : Related MasksIn (Adds (fun f => f.ruleId = "PMC007"))
      (visitAll (firingOrder rules) .empty ys) (visitAll (firingOrder rules) b ys) :=
    related_visitAll hsim (fun c _ _ _ hb => related_visit hsim c false hb) (MasksIn.empty b)
  rw [hys] at hrelated
  obtain ⟨e, he, -⟩ | ⟨r, r', hr, hr', -, hadds⟩ := hrelated.cases
  · cases he
  · cases hr
    refine ⟨r'.2, ⟨hok, r'.1, ?_⟩, hadds.sublist, hadds, ?_⟩
    · simp only [visitAll_append, hxs, hr', bind, Except.bind]
      rfl
    · exact hadds.filter_eq (fun f hf => by simp [hf])

/-- `m = a > 0` in front of `df[m]` and `df.b = 0`: the selection is reported as well. -/
theorem check_module_append_mask :
    let mask : Node := .assign (.at 1 0) [.name (.at 1 0) "m"] none
      (.compare (.at 1 4) (.name (.at 1 4) "a") [">"] [.constant (.at 1 8) .number "0"])
    let selection : Node := .subscript (.at 2 0) (.name (.at 2 0) "df") [.name (.at 2 3) "m"]
    let assignment : Node := .assign (.at 3 0) [.attr (.at 3 0) (.name (.at 3 0) "df") "b"] none
      (.constant (.at 3 7) .number "0")
    let own := [findingAt assignWithAttribute assignment]
    check catalog (.module (.at 1 0) [mask]) = .ok [] ∧
    check catalog (.module (.at 1 0) [selection, assignment]) = .ok own ∧
    ∃ later, check catalog (.module (.at 1 0) [mask, selection, assignment]) = .ok later ∧
      later = findingAt selectionWithMaskVariable selection :: own ∧
      Adds (fun f => f.ruleId = "PMC007") own later := by
  intro mask selection assignment own
  have hxs : check catalog (.module (.at 1 0) [mask]) = .ok [] := by decide +kernel
  have hys : check catalog (.module (.at 1 0) [selection, assignment]) = .ok own := by
    decide +kernel
  have hall : check catalog (.module (.at 1 0) [mask, selection, assignment]) =
      .ok (findingAt selectionWithMaskVariable selection :: own) := by decide +kernel
  obtain ⟨later, hlater, -, hadds, -⟩ := check_module_append (.refl _) hxs hys
  exact ⟨hxs, hys, later, hlater, Except.ok.inj (hlater.symm.trans hall), hadds⟩

end ChainLint
