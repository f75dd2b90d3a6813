import ChainLint.Proofs.Engine.Mask
import ChainLint.Rule.Catalog

/-!
# ChainLint.Proofs.Rule.Chain

Chains of attributes, calls and subscripts, as the two rules about reassignments see them.

* `Link`, `Node.chain`: one step of a chain, and what is made of a node by many.
* `chainBase_chain`, `chainBase_eq_some_iff`: the base of a chain is that of the node it begins
  with. A node has a base exactly when it is a chain from a name.
* `reassignWithCall_onto`, `reassignWithSubscript_onto`: what the rules say of a value, by its last
  step.
* `reassigned_by_chain_iff`: what the rules say of a value, by the chain that it is.
-/

namespace ChainLint

/-- A step of a chain: an attribute, a call or a subscript, less the node it is applied to. -/
inductive Link where
  | attr (position : Position) (name : String)
  | call (position : Position) (args keywords : List Node)
  | subscript (position : Position) (indices : List Node)

namespace Link

def onto (n : Node) : Link → Node
  | .attr p name => .attr p n name
  | .call p args keywords => .call p n args keywords
  | .subscript p indices => .subscript p n indices

/-- What sort of step it is, whatever its arguments or indices hold. -/
def kind : Link → Kind
  | .attr .. => .attr
  | .call .. => .call
  | .subscript .. => .subscript

@[simp] theorem kind_onto (l : Link) (n : Node) : (l.onto n).kind = l.kind := by
  cases l <;> rfl

@[simp] theorem chainBase_onto (l : Link) (n : Node) : (l.onto n).chainBase = n.chainBase := by
  cases l <;> rfl

end Link

namespace Node

/-- The node after the steps, the first one innermost. -/
def chain (start : Node) (links : List Link) : Node := links.foldl Link.onto start

@[simp] theorem chain_nil (start : Node) : start.chain [] = start := rfl

@[simp] theorem chain_snoc (start : Node) (links : List Link) (l : Link) :
    start.chain (links ++ [l]) = l.onto (start.chain links) := by
  rw [chain, List.foldl_append]
  rfl

theorem chainBase_chain (start : Node) (links : List Link) :
    (start.chain links).chainBase = start.chainBase := by
  induction links using List.reverseRecOn with
  | nil => rfl
  | append_singleton links l ih => rw [chain_snoc, Link.chainBase_onto, ih]

/-- A node whose kind is that of a step ends with one. -/
theorem exists_onto {n : Node} (h : n.kind = .attr ∨ n.kind = .call ∨ n.kind = .subscript) :
    ∃ l object, n = Link.onto object l := by
  cases n with
  | attr p object name => exact ⟨.attr p name, object, rfl⟩
  | call p func args keywords => exact ⟨.call p args keywords, func, rfl⟩
  | subscript p value indices => exact ⟨.subscript p indices, value, rfl⟩
  | _ => simp [kind] at h

theorem chainBase_eq_some_iff {n : Node} {x : String} :
    n.chainBase = some x ↔ ∃ p links, n = chain (.name p x) links := by
  constructor
  · intro h
    fun_induction chainBase n with
    | case1 p y =>
      cases h
      exact ⟨p, [], rfl⟩
    | case2 p object name ih =>
      obtain ⟨q, links, rfl⟩ := ih h
      refine ⟨q, links ++ [Link.attr p name], ?_⟩
      rw [chain_snoc]
      rfl
    | case3 p func args keywords ih =>
      obtain ⟨q, links, rfl⟩ := ih h
      refine ⟨q, links ++ [Link.call p args keywords], ?_⟩
      rw [chain_snoc]
      rfl
    | case4 p value indices ih =>
      obtain ⟨q, links, rfl⟩ := ih h
      refine ⟨q, links ++ [Link.subscript p indices], ?_⟩
      rw [chain_snoc]
      rfl
    | case5 => cases h
  · rintro ⟨p, links, rfl⟩
    rw [chainBase_chain]
    rfl

theorem chainBase_eq_none_iff {n : Node} :
    n.chainBase = none ↔ ∀ p x links, n ≠ chain (.name p x) links := by
  rw [Option.eq_none_iff_forall_ne_some]
  constructor
  · intro h p x links hn
    exact h x (chainBase_eq_some_iff.2 ⟨p, links, hn⟩)
  · intro h x hx
    obtain ⟨p, links, hn⟩ := chainBase_eq_some_iff.1 hx
    exact h p x links hn

end Node

theorem bindsRoot_iff {targets : List Node} {root : Option String} :
    bindsRoot targets root = true ↔ ∃ x, Names x targets ∧ root = some x := by
  have hname : ∀ (x : String) (t : Node), t.isName x = true ↔ ∃ p, t = .name p x := by
    intro x t
    cases t with
    | name p y =>
      constructor
      · intro h
        exact ⟨p, by rw [beq_iff_eq.1 h]⟩
      · rintro ⟨q, h⟩
        cases h
        exact beq_self_eq_true x
    | _ => exact ⟨nofun, nofun⟩
  cases root with
  | none => simp [bindsRoot]
  | some x =>
    simp only [bindsRoot, List.any_eq_true, hname, Option.some.injEq, exists_eq_right', Names]
    constructor
    · rintro ⟨t, ht, p, rfl⟩
      exact ⟨p, ht⟩
    · rintro ⟨p, ht⟩
      exact ⟨_, ht, p, rfl⟩

/-- Chains of the same sorts of steps end alike. -/
theorem links_cases {links links' : List Link} (h : links.map Link.kind = links'.map Link.kind) :
    (links = [] ∧ links' = []) ∨ ∃ ls l ls' l', links = ls ++ [l] ∧ links' = ls' ++ [l'] ∧
      ls.map Link.kind = ls'.map Link.kind ∧ l.kind = l'.kind := by
  rcases List.eq_nil_or_concat' links with rfl | ⟨ls, l, rfl⟩
  · exact .inl ⟨rfl, List.map_eq_nil_iff.1 h.symm⟩
  · rw [List.map_append, List.map_singleton, eq_comm, List.map_eq_append_iff] at h
    obtain ⟨ls', last, rfl, hinit, hlast⟩ := h
    obtain ⟨l', rfl, hl⟩ := List.map_eq_singleton_iff.1 hlast
    exact .inr ⟨ls, l, ls', l', rfl, rfl, hinit.symm, hl.symm⟩

theorem kind_chain_congr {start : Node} {links links' : List Link}
    (h : links.map Link.kind = links'.map Link.kind) :
    (start.chain links).kind = (start.chain links').kind := by
  rcases links_cases h with ⟨rfl, rfl⟩ | ⟨ls, l, ls', l', rfl, rfl, -, hlast⟩
  · rfl
  · rw [Node.chain_snoc, Node.chain_snoc, Link.kind_onto, Link.kind_onto, hlast]

section reassigned

variable (p : Position) (targets : List Node) (hint : Option Node) (b : Bindings)

theorem exists_assign_of_reassigned {b : Bindings} {n : Node}
    (h : reassignWithCall.check n b = true) :
    ∃ p targets hint value, n = .assign p targets hint value := by
  cases n with
  | assign p targets hint value => exact ⟨p, targets, hint, value, rfl⟩
  | _ => cases h

/-- Only a call of an attribute counts, and then the base of the attribute decides. -/
theorem reassignWithCall_onto (n : Node) (l : Link) :
    reassignWithCall.check (.assign p targets hint (l.onto n)) b =
      (decide (l.kind = .call) && decide (n.kind = .attr) && bindsRoot targets n.chainBase) := by
  cases l with
  | attr q name => rfl
  | subscript q indices => rfl
  | call q args keywords => cases n <;> rfl

theorem reassignWithCall_of_kind {value : Node} (h : value.kind ≠ .call) :
    reassignWithCall.check (.assign p targets hint value) b = false := by
  cases value with
  | call => exact absurd rfl h
  | _ => rfl

theorem reassignWithSubscript_onto (n : Node) (l : Link) :
    reassignWithSubscript.check (.assign p targets hint (l.onto n)) b =
      (decide (l.kind = .subscript) && bindsRoot targets n.chainBase) := by
  cases l <;> rfl

theorem reassignWithSubscript_of_kind {value : Node} (h : value.kind ≠ .subscript) :
    reassignWithSubscript.check (.assign p targets hint value) b = false := by
  cases value with
  | subscript => exact absurd rfl h
  | _ => rfl

theorem reassignWithCall_iff {value : Node} :
    reassignWithCall.check (.assign p targets hint value) b = true ↔
      ∃ x, Names x targets ∧ ∃ q links a c, a.kind = .attr ∧ c.kind = .call ∧
        value = Node.chain (.name q x) (links ++ [a, c]) := by
  constructor
  · intro h
    have hcall : value.kind = .call := by
      by_contra hkind
      rw [reassignWithCall_of_kind p targets hint b hkind] at h
      cases h
    obtain ⟨c, func, rfl⟩ := Node.exists_onto (.inr (.inl hcall))
    rw [reassignWithCall_onto, Bool.and_eq_true, Bool.and_eq_true, decide_eq_true_eq,
      decide_eq_true_eq, bindsRoot_iff] at h
    obtain ⟨⟨hc, hattr⟩, x, hx, hbase⟩ := h
    obtain ⟨a, object, rfl⟩ := Node.exists_onto (.inl hattr)
    rw [Link.kind_onto] at hattr
    rw [Link.chainBase_onto] at hbase
    obtain ⟨q, links, rfl⟩ := Node.chainBase_eq_some_iff.1 hbase
    refine ⟨x, hx, q, links, a, c, hattr, hc, ?_⟩
    rw [List.append_cons, Node.chain_snoc, Node.chain_snoc]
  · rintro ⟨x, hx, q, links, a, c, ha, hc, rfl⟩
    rw [List.append_cons, Node.chain_snoc, Node.chain_snoc, reassignWithCall_onto,
      Link.kind_onto, Link.chainBase_onto, Node.chainBase_chain]
    simp only [ha, hc, decide_true, Bool.true_and]
    exact bindsRoot_iff.2 ⟨x, hx, rfl⟩

theorem reassignWithSubscript_iff {value : Node} :
    reassignWithSubscript.check (.assign p targets hint value) b = true ↔
      ∃ x, Names x targets ∧ ∃ q links s, s.kind = .subscript ∧
        value = Node.chain (.name q x) (links ++ [s]) := by
  constructor
  · intro h
    have hsubscript : value.kind = .subscript := by
      by_contra hkind
      rw [reassignWithSubscript_of_kind p targets hint b hkind] at h
      cases h
    obtain ⟨s, object, rfl⟩ := Node.exists_onto (.inr (.inr hsubscript))
    rw [reassignWithSubscript_onto, Bool.and_eq_true, decide_eq_true_eq, bindsRoot_iff] at h
    obtain ⟨hs, x, hx, hbase⟩ := h
    obtain ⟨q, links, rfl⟩ := Node.chainBase_eq_some_iff.1 hbase
    exact ⟨x, hx, q, links, s, hs, (Node.chain_snoc _ _ _).symm⟩
  · rintro ⟨x, hx, q, links, s, hs, rfl⟩
    rw [Node.chain_snoc, reassignWithSubscript_onto, Node.chainBase_chain, hs]
    exact bindsRoot_iff.2 ⟨x, hx, rfl⟩

/-- The verdict depends on the sorts of the steps alone. -/
theorem reassigned_congr {start : Node} {links links' : List Link}
    (h : links.map Link.kind = links'.map Link.kind) :
    reassignWithCall.check (.assign p targets hint (start.chain links)) b =
        reassignWithCall.check (.assign p targets hint (start.chain links')) b ∧
      reassignWithSubscript.check (.assign p targets hint (start.chain links)) b =
        reassignWithSubscript.check (.assign p targets hint (start.chain links')) b := by
  rcases links_cases h with ⟨rfl, rfl⟩ | ⟨ls, l, ls', l', rfl, rfl, hinit, hlast⟩
  · exact ⟨rfl, rfl⟩
  · simp only [Node.chain_snoc, reassignWithCall_onto, reassignWithSubscript_onto,
      Node.chainBase_chain, hlast, kind_chain_congr hinit, and_self]

end reassigned

/-- The two rules recognise the chains that begin with a target of the assignment and end with a
method call or with a subscript. They never agree on a node, and neither looks at arguments or
indices. The base that they compare with the targets is the name a chain begins with, and there is
none exactly for what is no chain from a name. -/
theorem reassigned_by_chain_iff :
    (∀ p targets hint value b,
      (reassignWithCall.check (.assign p targets hint value) b = true ↔
        ∃ x, Names x targets ∧ ∃ q links a c, a.kind = .attr ∧ c.kind = .call ∧
          value = Node.chain (.name q x) (links ++ [a, c])) ∧
      (reassignWithSubscript.check (.assign p targets hint value) b = true ↔
        ∃ x, Names x targets ∧ ∃ q links s, s.kind = .subscript ∧
          value = Node.chain (.name q x) (links ++ [s]))) ∧
    (∀ n b, ¬ (reassignWithCall.check n b = true ∧ reassignWithSubscript.check n b = true)) ∧
    (∀ p targets hint b (start : Node) (links links' : List Link),
      links.map Link.kind = links'.map Link.kind →
      reassignWithCall.check (.assign p targets hint (start.chain links)) b =
          reassignWithCall.check (.assign p targets hint (start.chain links')) b ∧
        reassignWithSubscript.check (.assign p targets hint (start.chain links)) b =
          reassignWithSubscript.check (.assign p targets hint (start.chain links')) b) ∧
    ∀ n : Node,
      (∀ x, n.chainBase = some x ↔ ∃ q links, n = Node.chain (.name q x) links) ∧
      (n.chainBase = none ↔ ∀ q x links, n ≠ Node.chain (.name q x) links) := by
  refine ⟨?_, ?_, ?_, ?_⟩
  · intro p targets hint value b
    exact ⟨reassignWithCall_iff p targets hint b, reassignWithSubscript_iff p targets hint b⟩
  · rintro n b ⟨hcall, hsubscript⟩
    obtain ⟨p, targets, hint, value, rfl⟩ := exists_assign_of_reassigned hcall
    have hkind : value.kind = .call := by
      by_contra h
      rw [reassignWithCall_of_kind p targets hint b h] at hcall
      cases hcall
    rw [reassignWithSubscript_of_kind p targets hint b (by simp [hkind])] at hsubscript
    cases hsubscript
  · intro p targets hint b start links links' h
    exact reassigned_congr p targets hint b h
  · intro n
    exact ⟨fun x => Node.chainBase_eq_some_iff, Node.chainBase_eq_none_iff⟩

/-- `df = df[m].head()` and `df = df[df["a"]].head(df, n=m)`: the second differs from the first in
what is between its brackets alone. -/
theorem reassigned_by_chain_iff_arguments :
    let p : Position := .at 1 0
    let df : Node := .name p "df"
    let m : Node := .name p "m"
    let bare : List Link := [.subscript p [m], .attr p "head", .call p [] []]
    let full : List Link := [.subscript p [.subscript p df [.constant p .string "'a'"]],
      .attr p "head", .call p [df] [.keyword p (some "n") m]]
    bare.map Link.kind = full.map Link.kind ∧
      reassignWithCall.check (.assign p [df] none (df.chain bare)) .empty = true ∧
      reassignWithCall.check (.assign p [df] none (df.chain full)) .empty = true ∧
      reassignWithSubscript.check (.assign p [df] none (df.chain full)) .empty = false := by
  intro p df m bare full
  obtain ⟨hiff, hnever, hsame, -⟩ := reassigned_by_chain_iff
  have hkinds : bare.map Link.kind = full.map Link.kind := rfl
  have hbare : reassignWithCall.check (.assign p [df] none (df.chain bare)) .empty = true :=
    (hiff p [df] none _ .empty).1.2 ⟨"df", ⟨p, List.mem_singleton_self df⟩, p,
      [.subscript p [m]], .attr p "head", .call p [] [], rfl, rfl, rfl⟩
  have hfull : reassignWithCall.check (.assign p [df] none (df.chain full)) .empty = true := by
    rw [← (hsame p [df] none .empty df bare full hkinds).1]
    exact hbare
  refine ⟨hkinds, hbare, hfull, ?_⟩
  rw [Bool.eq_false_iff]
  intro hsubscript
  exact hnever _ _ ⟨hfull, hsubscript⟩

end ChainLint
