import ChainLint.Proofs.Engine.Append
import ChainLint.Proofs.Tree.Frame

/-!
# ChainLint.Proofs.Engine.Isolation

What a scope inside a tree has to do with the rest of it: nothing, for the rules.

* `Blanked`: a tree, and the same tree with a leaf in the place of a scope.
* `fire_fill`, `bindTargets_fill`: around such a place nothing is seen of the difference. Names are
  all that a rule looks for at the end of a chain, and a scope is none.
* `visit_scope`: a scope inside another one is visited as if it were the root.
* `Isolates`: two visits that end alike, except for what one scope reports. `isolates_fill`: a frame
  around both keeps it, `isolates_plug`: and so does a tree.
* `check_plug_scope`: the findings in a tree are those around a scope with those of the scope
  between them.
-/

namespace ChainLint

inductive Blanked : Node → Node → Prop where
  | here {s : Node} (word : String) (hs : s.isScope = true) :
      Blanked s (.other s.position word [])
  | there (f : Frame) {n m : Node} (h : Blanked n m) : Blanked (f.fill n) (f.fill m)

/-- Two nodes that are the same to an assignment that has them among its targets. -/
structure SameTarget (n m : Node) : Prop where
  isName : ∀ x, n.isName x = m.isName x
  isAttr : n.isAttr = m.isAttr
  isLabelAttr : n.isLabelAttr = m.isLabelAttr
  isSubscript : n.isSubscript = m.isSubscript
  bindTarget : ∀ o b, bindTarget o b n = bindTarget o b m

theorem any_hole {g : Node → Bool} {n m : Node} (h : g n = g m) (l r : List Node) :
    (l ++ n :: r).any g = (l ++ m :: r).any g := by
  simp [h]

namespace Blanked

variable {n m : Node}

theorem plug {s : Node} (hs : s.isScope = true) (word : String) (path : List Frame) :
    Blanked (plug path s) (ChainLint.plug path (.other s.position word [])) := by
  induction path with
  | nil => exact .here word hs
  | cons f path ih => exact .there f ih

theorem position_eq (h : Blanked n m) : n.position = m.position := by
  cases h with
  | here word hs => rfl
  | there f h => exact f.position_fill _ _

/-! ## What is seen of a node from above -/

theorem sameTarget (h : Blanked n m) : SameTarget n m := by
  cases h with
  | here word hs =>
    cases n <;> first | exact ⟨fun _ => rfl, rfl, rfl, rfl, fun _ _ => rfl⟩ | cases hs
  | there f h => cases f <;> exact ⟨fun _ => rfl, rfl, rfl, rfl, fun _ _ => rfl⟩

/-- A chain that comes to the place of the scope has no base. -/
theorem chainBase_eq (h : Blanked n m) : n.chainBase = m.chainBase := by
  induction h with
  | @here s word hs => cases s <;> first | rfl | cases hs
  | there f h ih => cases f <;> first | rfl | exact ih

theorem receiver_eq (h : Blanked n m) :
    n.receiver.map Node.chainBase = m.receiver.map Node.chainBase := by
  cases h with
  | here word hs => cases n <;> first | rfl | cases hs
  | @there f n m h =>
    cases f with
    -- Of a call the function is looked at too, and of a method what it is called on.
    | func p args keywords =>
      cases h with
      | here word hs => cases n <;> first | rfl | cases hs
      | there f h =>
        cases f with
        | object p w => exact congrArg some h.chainBase_eq
        | _ => rfl
    | arg p g l r keywords => cases g <;> rfl
    | keyword p g args l r => cases g <;> rfl
    | _ => rfl

theorem isInplaceTrue_eq (h : Blanked n m) : isInplaceTrue n = isInplaceTrue m := by
  cases h with
  | here word hs => cases n <;> first | rfl | cases hs
  | @there f n m h =>
    cases f with
    | keywordValue p w =>
      cases h with
      | here word hs => cases w <;> cases n <;> first | rfl | cases hs
      | there f h => cases w <;> cases f <;> rfl
    | _ => rfl

theorem isMask_eq (h : Blanked n m) (b : Bindings) : n.isMask b = m.isMask b := by
  cases h with
  | here word hs => cases n <;> first | rfl | cases hs
  | @there f n m h =>
    cases f with
    | func p args keywords =>
      cases h with
      | here word hs => cases n <;> first | rfl | cases hs
      | there f h => cases f <;> rfl
    | arg p g l r keywords => cases g <;> rfl
    | keyword p g args l r => cases g <;> rfl
    | _ => rfl

theorem origin_eq (h : Blanked n m) (b : Bindings) : n.origin b = m.origin b := by
  unfold Node.origin
  rw [h.isMask_eq b]
  cases h with
  | here word hs => cases n <;> first | rfl | cases hs
  | there f h => cases f <;> rfl

end Blanked

/-! ## One node around the place -/

theorem accept_fill (f : Frame) (n m : Node) : accept (f.fill n) = accept (f.fill m) := by
  cases f with
  | target p l r hint v => cases l <;> rfl
  | typeHint p targets v => cases targets <;> rfl
  | value p targets hint => cases targets <;> rfl
  | _ => rfl

theorem targets_any_fill (f : Frame) {n m : Node} {g : Node → Bool} (hg : g n = g m) :
    (f.fill n).targets.any g = (f.fill m).targets.any g := by
  cases f with
  | target p l r hint v => exact any_hole hg l r
  | augTarget p op v => exact any_hole hg [] []
  | _ => rfl

section fill

variable {n m : Node} (f : Frame) (h : Blanked n m)

include h

theorem bindTargets_fill (b : Bindings) :
    (f.fill n).bindTargets b = (f.fill m).bindTargets b := by
  cases f with
  | target p l r hint v =>
    have hfold : ∀ t, (Node.assign p (l ++ t :: r) hint v).bindTargets b =
        (l ++ t :: r).foldl (bindTarget (v.origin b)) b := fun _ => rfl
    rw [Frame.fill, Frame.fill, hfold, hfold, List.foldl_append, List.foldl_append,
      List.foldl_cons, List.foldl_cons, h.sameTarget.bindTarget]
  | value p targets hint =>
    rw [Frame.fill, Frame.fill, Node.bindTargets, Node.bindTargets, h.origin_eq]
  | _ => rfl

theorem inplaceTrue_fill (b : Bindings) :
    inplaceTrue.check (f.fill n) b = inplaceTrue.check (f.fill m) b := by
  cases f with
  | keyword p g args l r => exact any_hole h.isInplaceTrue_eq l r
  | _ => rfl

theorem bindsRoot_hole (base : Option String) (l r : List Node) :
    bindsRoot (l ++ n :: r) base = bindsRoot (l ++ m :: r) base := by
  cases base with
  | none => rfl
  | some x => exact any_hole (h.sameTarget.isName x) l r

theorem reassignWithCall_fill (b : Bindings) :
    reassignWithCall.check (f.fill n) b = reassignWithCall.check (f.fill m) b := by
  have hcheck : ∀ p targets hint value, reassignWithCall.check (.assign p targets hint value) b =
      ((value.receiver.map Node.chainBase).map (bindsRoot targets)).getD false := by
    intro p targets hint value
    simp only [reassignWithCall]
    cases value.receiver <;> rfl
  cases f with
  | target p l r hint v =>
    rw [Frame.fill, Frame.fill, hcheck, hcheck]
    cases v.receiver with
    | none => rfl
    | some object => exact bindsRoot_hole h object.chainBase l r
  | value p targets hint => rw [Frame.fill, Frame.fill, hcheck, hcheck, h.receiver_eq]
  | _ => rfl

theorem reassignWithSubscript_fill (b : Bindings) :
    reassignWithSubscript.check (f.fill n) b = reassignWithSubscript.check (f.fill m) b := by
  cases f with
  | target p l r hint v =>
    cases v with
    | subscript q object indices => exact bindsRoot_hole h object.chainBase l r
    | _ => rfl
  | typeHint p targets v => cases v <;> rfl
  | value p targets hint =>
    cases h with
    | here word hs => cases n <;> first | rfl | cases hs
    | there f h =>
      cases f with
      | subscripted q indices => exact congrArg (bindsRoot targets) h.chainBase_eq
      | _ => rfl
  | _ => rfl

theorem selectionWithMaskVariable_fill (b : Bindings) :
    selectionWithMaskVariable.check (f.fill n) b =
      selectionWithMaskVariable.check (f.fill m) b := by
  cases f with
  | index p v l r =>
    refine any_hole ?_ l r
    cases h with
    | here word hs => cases n <;> first | rfl | cases hs
    | there f h => cases f <;> rfl
  | _ => rfl

theorem check_fill {r : Rule} (hr : r ∈ catalog) (b : Bindings) :
    r.check (f.fill n) b = r.check (f.fill m) b := by
  simp only [catalog, List.mem_cons, List.not_mem_nil, or_false] at hr
  rcases hr with rfl | rfl | rfl | rfl | rfl | rfl | rfl
  · exact inplaceTrue_fill f h b
  · exact reassignWithCall_fill f h b
  · exact reassignWithSubscript_fill f h b
  · exact targets_any_fill f h.sameTarget.isSubscript
  · exact targets_any_fill f (by rw [h.sameTarget.isAttr, h.sameTarget.isLabelAttr])
  · exact targets_any_fill f h.sameTarget.isLabelAttr
  · exact selectionWithMaskVariable_fill f h b

end fill

theorem fireFrom_congr {n m : Node} {b : Bindings} {rules : List Rule}
    (hposition : n.position = m.position) (hcheck : ∀ r ∈ rules, r.check n b = r.check m b)
    (silenced : List String) : fireFrom n b silenced rules = fireFrom m b silenced rules := by
  induction rules generalizing silenced with
  | nil => rfl
  | cons r rules ih =>
    have hrest := ih (fun q hq => hcheck q (by simp [hq]))
    have hfinding : findingAt r n = findingAt r m := by
      rw [findingAt, findingAt, hposition]
    rw [fireFrom, fireFrom, hcheck r (by simp), hrest, hrest, hfinding]

theorem fire_fill {rules : List Rule} (hrules : rules.Sublist catalog) (f : Frame) {n m : Node}
    (h : Blanked n m) (b : Bindings) :
    fire (firingOrder rules) (f.fill n) b = fire (firingOrder rules) (f.fill m) b := by
  rw [fire, fire, f.kind_fill n m]
  refine fireFrom_congr (f.position_fill n m) ?_ []
  intro r hr
  exact check_fill f h (mem_catalog_of_mem_firingOrder hrules (mem_offered.1 hr).1) b

/-! ## Visits -/

theorem visit_eq_ok {ordered : List Rule} {isRoot : Bool} {b b' : Bindings} {n : Node}
    {found : List Finding} :
    visit ordered isRoot b n = .ok (b', found) ↔
      Accepted n ∧ ∃ stop below,
        visitAll ordered (if n.isScope && !isRoot then .empty else b) n.children =
            .ok (stop, below) ∧
          b' = (if n.isScope && !isRoot then b else n.bindTargets stop) ∧
          found = fire ordered n (if n.isScope && !isRoot then .empty else b) ++ below := by
  rw [visit_eq_visitAll]
  simp only [bind_eq_ok, pure_eq_ok, Prod.exists, Prod.mk.injEq]
  constructor
  · rintro ⟨⟨⟩, haccept, stop, below, hbelow, rfl, rfl⟩
    exact ⟨haccept, stop, below, hbelow, rfl, rfl⟩
  · rintro ⟨haccept, stop, below, hbelow, rfl, rfl⟩
    exact ⟨(), haccept, stop, below, hbelow, rfl, rfl⟩

theorem visitAll_hole_eq_ok {ordered : List Rule} {b b' : Bindings} {l r : List Node} {n : Node}
    {found : List Finding} :
    visitAll ordered b (l ++ n :: r) = .ok (b', found) ↔
      ∃ b₁ found₁ b₂ found₂ found₃, visitAll ordered b l = .ok (b₁, found₁) ∧
        visit ordered false b₁ n = .ok (b₂, found₂) ∧
        visitAll ordered b₂ r = .ok (b', found₃) ∧ found = found₁ ++ (found₂ ++ found₃) := by
  simp only [visitAll_append, visitAll_cons, bind_eq_ok, pure_eq_ok, Prod.exists, Prod.mk.injEq]
  constructor
  · rintro ⟨b₁, found₁, hl, _, _, ⟨b₂, found₂, hn, _, found₃, hr, rfl, rfl⟩, rfl, rfl⟩
    exact ⟨b₁, found₁, b₂, found₂, found₃, hl, hn, hr, rfl⟩
  · rintro ⟨b₁, found₁, b₂, found₂, found₃, hl, hn, hr, rfl⟩
    exact ⟨b₁, found₁, hl, _, _, ⟨b₂, found₂, hn, _, found₃, hr, rfl, rfl⟩, rfl, rfl⟩

/-- What was bound around a scope does not matter inside it, and what is bound inside it does not
matter around it. -/
theorem visit_scope {ordered : List Rule} {b b' : Bindings} {s : Node} {found : List Finding}
    (hs : s.isScope = true) (h : visit ordered false b s = .ok (b', found)) :
    b' = b ∧ ∃ stop, visit ordered true .empty s = .ok (stop, found) := by
  obtain ⟨haccept, stop, below, hbelow, hb, hfound⟩ := visit_eq_ok.1 h
  rw [hs] at hbelow hb hfound
  refine ⟨hb, _, visit_eq_ok.2 ⟨haccept, stop, below, ?_, rfl, ?_⟩⟩
  · rw [hs]
    exact hbelow
  · rw [hs]
    exact hfound

theorem visit_leaf {rules : List Rule} (hrules : rules.Sublist catalog) {p : Position}
    {word : String} (h : Accepted (.other p word [])) (b : Bindings) :
    visit (firingOrder rules) false b (.other p word []) = .ok (b, []) := by
  refine visit_eq_ok.2 ⟨h, b, [], rfl, rfl, ?_⟩
  rw [fire_catalog_eq_nil hrules (by simp [Node.kind])]
  rfl

theorem accepted_leaf {n : Node} (h : Accepted n) (word : String) :
    Accepted (.other n.position word []) := by
  have hvalid := (inspect_eq_ok.1 (accept_eq_ok.1 h).1).1
  exact accept_eq_ok.2 ⟨inspect_eq_ok.2 ⟨hvalid, fun _ _ _ => nofun⟩, rfl⟩

/-- The visits of two trees that differ in the scope `s` end with the same bindings, and the second
one leaves out what `s` reports by itself. -/
def Isolates (rules : List Rule) (s : Node) (isRoot : Bool) (n m : Node) : Prop :=
  ∀ b b' found, visit (firingOrder rules) isRoot b n = .ok (b', found) →
    ∃ pre inside post, check rules s = .ok inside ∧ found = pre ++ inside ++ post ∧
      visit (firingOrder rules) isRoot b m = .ok (b', pre ++ post)

theorem isolates_scope {rules : List Rule} (hrules : rules.Sublist catalog) {s : Node}
    (hs : s.isScope = true) (word : String) :
    Isolates rules s false s (.other s.position word []) := by
  intro b b' found hvisit
  have haccept : Accepted s := (visit_eq_ok.1 hvisit).1
  obtain ⟨rfl, stop, hroot⟩ := visit_scope hs hvisit
  exact ⟨[], found, [], check_eq_ok.2 ⟨stop, hroot⟩, by simp,
    visit_leaf hrules (accepted_leaf haccept word) b'⟩

theorem isolates_fill {rules : List Rule} (hrules : rules.Sublist catalog) {s n m : Node}
    (h : Blanked n m) (hisolates : Isolates rules s false n m) (f : Frame) (isRoot : Bool) :
    Isolates rules s isRoot (f.fill n) (f.fill m) := by
  intro b b' found hvisit
  obtain ⟨before, after, hchildren⟩ := f.children_fill n.position
  obtain ⟨haccept, stop, below, hbelow, hb', hfound⟩ := visit_eq_ok.1 hvisit
  rw [hchildren n rfl, visitAll_hole_eq_ok] at hbelow
  obtain ⟨b₁, found₁, b₂, found₂, found₃, hbefore, hn, hafter, rfl⟩ := hbelow
  obtain ⟨pre, inside, post, hs, rfl, hm⟩ := hisolates b₁ b₂ found₂ hn
  -- Both visits start below the frame with the same bindings, whether it opens a scope or not.
  obtain ⟨start, hstart⟩ : ∃ start, start = if (f.fill n).isScope && !isRoot then .empty else b :=
    ⟨_, rfl⟩
  rw [← hstart] at hbefore hfound
  refine ⟨fire (firingOrder rules) (f.fill n) start ++ found₁ ++ pre, inside, post ++ found₃, hs,
    ?_, visit_eq_ok.2 ⟨?_, stop, found₁ ++ (pre ++ post ++ found₃), ?_, ?_, ?_⟩⟩
  · rw [hfound]
    simp
  · rwa [Accepted, accept_fill f m n]
  · rw [f.isScope_fill m n, ← hstart, hchildren m h.position_eq.symm]
    exact visitAll_hole_eq_ok.2 ⟨b₁, found₁, b₂, _, found₃, hbefore, hm, hafter, rfl⟩
  · rw [hb', f.isScope_fill m n, bindTargets_fill f h]
  · rw [f.isScope_fill m n, ← hstart, fire_fill hrules f h]
    simp

theorem isolates_plug {rules : List Rule} (hrules : rules.Sublist catalog) {s : Node}
    (hs : s.isScope = true) (word : String) (path : List Frame) :
    Isolates rules s false (plug path s) (plug path (.other s.position word [])) := by
  induction path with
  | nil => exact isolates_scope hrules hs word
  | cons f path ih => exact isolates_fill hrules (.plug hs word path) ih f false

/-! ## Whole trees -/

/-- Every scope below the root has a path of frames to it. Whatever the path, the findings in the
tree are those with a leaf in the place of the scope, with what the scope reports by itself in
between. -/
theorem check_plug_scope {rules : List Rule} (hrules : rules.Sublist catalog) {root s : Node}
    {found : List Finding} (hroot : check rules root = .ok found) (hs : s.isScope = true) :
    (∀ place, place ≠ [] → root.at? place = some s → ∃ path, path ≠ [] ∧ plug path s = root) ∧
      ∀ path, path ≠ [] → plug path s = root → ∀ word, ∃ pre inside post,
        check rules (plug path (.other s.position word [])) = .ok (pre ++ post) ∧
          check rules s = .ok inside ∧ found = pre ++ inside ++ post := by
  constructor
  · intro place hplace hat
    obtain ⟨path, hlength, hpath⟩ := exists_plug hat
    refine ⟨path, ?_, hpath⟩
    rintro rfl
    exact hplace (List.length_eq_zero_iff.1 hlength.symm)
  · rintro (_ | ⟨f, path⟩) hpath rfl word
    · exact (hpath rfl).elim
    · obtain ⟨b, hvisit⟩ := check_eq_ok.1 hroot
      obtain ⟨pre, inside, post, hinside, hfound, hblank⟩ :=
        isolates_fill hrules (.plug hs word path) (isolates_plug hrules hs word path) f true
          .empty b found hvisit
      exact ⟨pre, inside, post, check_eq_ok.2 ⟨b, hblank⟩, hinside, hfound⟩

/-- A method selects by a mask of its module, which it does not see, and by one of its own, which
the module does not see. -/
theorem check_plug_scope_method :
    let mask (line column : Int) (x : String) : Node :=
      .assign (.at line column) [.name (.at line column) x] none
        (.compare (.at line (column + 4)) (.name (.at line (column + 4)) "a") [">"]
          [.constant (.at line (column + 8)) .number "1"])
    let selection (line column : Int) (x : String) : Node :=
      .subscript (.at line column) (.name (.at line column) "df") [.name (.at line (column + 3)) x]
    let method : Node := .function (.at 3 4) "f" []
      [selection 4 8 "m", mask 5 8 "n", selection 6 8 "n"]
    let path : List Frame := [.moduleBody (.at 1 0) [mask 1 0 "m"] [selection 7 0 "n",
      selection 8 0 "m"], .classBody (.at 2 0) "C" [] [] []]
    let reused (line column : Int) : Finding :=
      ⟨"PMC007", selectionWithMaskVariable.message, line, column⟩
    check catalog (plug path method) = .ok [reused 6 8, reused 8 0] ∧
      ∃ pre inside post, check catalog (plug path (.other (.at 3 4) "pass" [])) = .ok (pre ++ post) ∧
        check catalog method = .ok inside ∧ [reused 6 8, reused 8 0] = pre ++ inside ++ post := by
  intro mask selection method path reused
  have hroot : check catalog (plug path method) = .ok [reused 6 8, reused 8 0] := by
    decide +kernel
  exact ⟨hroot, (check_plug_scope (.refl catalog) hroot rfl).2 path (by simp [path]) rfl "pass"⟩

end ChainLint
