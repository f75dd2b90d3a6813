import ChainLint.Proofs.Tree.Trail

/-!
# ChainLint.Proofs.Tree.Frame

What stands around a node in a tree.

* `Frame`: a node with a hole where one child stood, with one constructor for each place of a child.
  `fill`: the node again.
* `plug`: the tree around a hole, as the frames from the root to the hole.
* `exists_frame`, `exists_plug`: every child is in a frame, and every node at a place in a tree.
* `children_fill`: the children beside a hole do not depend on what fills it, as long as its position
  stays the same. The arguments of a call are visited by their positions, so that it has to.
-/

namespace ChainLint

inductive Frame where
  | moduleBody (position : Position) (before after : List Node)
  | parameter (position : Position) (name : String) (before after body : List Node)
  | functionBody (position : Position) (name : String) (parameters before after : List Node)
  | base (position : Position) (name : String) (before after body : List Node)
  | classBody (position : Position) (name : String) (bases before after : List Node)
  | target (position : Position) (before after : List Node) (typeHint : Option Node) (value : Node)
  | typeHint (position : Position) (targets : List Node) (value : Node)
  | value (position : Position) (targets : List Node) (typeHint : Option Node)
  | augTarget (position : Position) (operator : String) (value : Node)
  | augValue (position : Position) (target : Node) (operator : String)
  | func (position : Position) (args keywords : List Node)
  | arg (position : Position) (func : Node) (before after keywords : List Node)
  | keyword (position : Position) (func : Node) (args before after : List Node)
  | keywordValue (position : Position) (name : Option String)
  | object (position : Position) (name : String)
  | subscripted (position : Position) (indices : List Node)
  | index (position : Position) (value : Node) (before after : List Node)
  | compared (position : Position) (operators : List String) (comparators : List Node)
  | comparator (position : Position) (left : Node) (operators : List String)
      (before after : List Node)
  | left (position : Position) (operator : String) (right : Node)
  | right (position : Position) (left : Node) (operator : String)
  | operand (position : Position) (operator : String)
  | alternative (position : Position) (operator : String) (before after : List Node)
  | lambdaParameter (position : Position) (before after : List Node) (body : Node)
  | lambdaBody (position : Position) (parameters : List Node)
  | other (position : Position) (type : String) (before after : List Node)

namespace Frame

def fill : Frame → Node → Node
  | .moduleBody p l r, n => .module p (l ++ n :: r)
  | .parameter p w l r body, n => .function p w (l ++ n :: r) body
  | .functionBody p w ps l r, n => .function p w ps (l ++ n :: r)
  | .base p w l r body, n => .classDef p w (l ++ n :: r) body
  | .classBody p w bases l r, n => .classDef p w bases (l ++ n :: r)
  | .target p l r hint v, n => .assign p (l ++ n :: r) hint v
  | .typeHint p targets v, n => .assign p targets (some n) v
  | .value p targets hint, n => .assign p targets hint n
  | .augTarget p op v, n => .augassign p n op v
  | .augValue p t op, n => .augassign p t op n
  | .func p args keywords, n => .call p n args keywords
  | .arg p g l r keywords, n => .call p g (l ++ n :: r) keywords
  | .keyword p g args l r, n => .call p g args (l ++ n :: r)
  | .keywordValue p w, n => .keyword p w n
  | .object p w, n => .attr p n w
  | .subscripted p indices, n => .subscript p n indices
  | .index p v l r, n => .subscript p v (l ++ n :: r)
  | .compared p ops comparators, n => .compare p n ops comparators
  | .comparator p v ops l r, n => .compare p v ops (l ++ n :: r)
  | .left p op v, n => .binop p n op v
  | .right p v op, n => .binop p v op n
  | .operand p op, n => .unaryop p op n
  | .alternative p op l r, n => .boolop p op (l ++ n :: r)
  | .lambdaParameter p l r body, n => .lambda p (l ++ n :: r) body
  | .lambdaBody p ps, n => .lambda p ps n
  | .other p type l r, n => .other p type (l ++ n :: r)

theorem position_fill (f : Frame) (n m : Node) : (f.fill n).position = (f.fill m).position := by
  cases f <;> rfl

theorem kind_fill (f : Frame) (n m : Node) : (f.fill n).kind = (f.fill m).kind := by
  cases f <;> rfl

theorem isScope_fill (f : Frame) (n m : Node) : (f.fill n).isScope = (f.fill m).isScope := by
  cases f <;> rfl

end Frame

/-- The tree with `n` in the hole. -/
def plug (path : List Frame) (n : Node) : Node := path.foldr Frame.fill n

@[simp] theorem plug_nil (n : Node) : plug [] n = n := rfl

@[simp] theorem plug_cons (f : Frame) (path : List Frame) (n : Node) :
    plug (f :: path) n = f.fill (plug path n) := rfl

/-! ## Holes in lists -/

/-- A node that is put in front of others, or into their middle, by its position. -/
theorem insertBy_hole (q : Position) (l : List Node) :
    ∃ before after, ∀ n : Node, n.position = q →
      insertBy (fun a b => a.position.le b.position) n l = before ++ n :: after := by
  induction l with
  | nil => exact ⟨[], [], fun n _ => rfl⟩
  | cons a l ih =>
    cases hle : q.le a.position with
    | true =>
      refine ⟨[], a :: l, fun n hn => ?_⟩
      rw [insertBy, hn, if_pos hle]
      rfl
    | false =>
      obtain ⟨before, after, h⟩ := ih
      refine ⟨a :: before, after, fun n hn => ?_⟩
      rw [insertBy, hn, if_neg (by simp [hle]), h n hn]
      rfl

/-- A hole stays one when a node is put beside it. -/
theorem insertBy_beside (q : Position) (a : Node) (l r : List Node) :
    ∃ before after, ∀ n : Node, n.position = q →
      insertBy (fun a b => a.position.le b.position) a (l ++ n :: r) = before ++ n :: after := by
  induction l with
  | nil =>
    cases hle : a.position.le q with
    | true =>
      refine ⟨[a], r, fun n hn => ?_⟩
      rw [List.nil_append, insertBy, hn, if_pos hle]
      rfl
    | false =>
      refine ⟨[], insertBy (fun a b => a.position.le b.position) a r, fun n hn => ?_⟩
      rw [List.nil_append, insertBy, hn, if_neg (by simp [hle])]
      rfl
  | cons c l ih =>
    cases hle : a.position.le c.position with
    | true =>
      refine ⟨a :: c :: l, r, fun n _ => ?_⟩
      rw [List.cons_append, insertBy, if_pos hle]
      rfl
    | false =>
      obtain ⟨before, after, h⟩ := ih
      refine ⟨c :: before, after, fun n hn => ?_⟩
      rw [List.cons_append, insertBy, if_neg (by simp [hle]), h n hn]
      rfl

theorem byPosition_hole (q : Position) (l r : List Node) :
    ∃ before after, ∀ n : Node, n.position = q →
      Node.byPosition (l ++ n :: r) = before ++ n :: after := by
  induction l with
  | nil => exact insertBy_hole q (Node.byPosition r)
  | cons a l ih =>
    obtain ⟨before, after, h⟩ := ih
    obtain ⟨before', after', h'⟩ := insertBy_beside q a before after
    refine ⟨before', after', fun n hn => ?_⟩
    rw [← h' n hn, ← h n hn]
    rfl

theorem Frame.children_fill (f : Frame) (q : Position) :
    ∃ before after, ∀ n : Node, n.position = q → (f.fill n).children = before ++ n :: after := by
  cases f with
  | moduleBody p l r | alternative p op l r | other p type l r => exact ⟨l, r, fun n _ => rfl⟩
  | parameter p w l r body | base p w l r body =>
    exact ⟨l, r ++ body, fun n _ => by simp [fill, Node.children]⟩
  | functionBody p w ps l r | classBody p w ps l r =>
    exact ⟨ps ++ l, r, fun n _ => by simp [fill, Node.children]⟩
  | target p l r hint value =>
    exact ⟨l, r ++ hint.toList ++ [value], fun n _ => by simp [fill, Node.children]⟩
  | typeHint p targets value =>
    exact ⟨targets, [value], fun n _ => by simp [fill, Node.children]⟩
  | value p targets hint => exact ⟨targets ++ hint.toList, [], fun n _ => rfl⟩
  | augTarget p op value => exact ⟨[], [value], fun n _ => rfl⟩
  | augValue p target op => exact ⟨[target], [], fun n _ => rfl⟩
  | func p args keywords => exact ⟨[], Node.byPosition (args ++ keywords), fun n _ => rfl⟩
  | arg p func l r keywords =>
    obtain ⟨before, after, h⟩ := byPosition_hole q l (r ++ keywords)
    exact ⟨func :: before, after, fun n hn => by simp [fill, Node.children, h n hn]⟩
  | keyword p func args l r =>
    obtain ⟨before, after, h⟩ := byPosition_hole q (args ++ l) r
    refine ⟨func :: before, after, fun n hn => ?_⟩
    rw [fill, Node.children, ← List.append_assoc, h n hn]
    rfl
  | keywordValue | object | operand => exact ⟨[], [], fun n _ => rfl⟩
  | subscripted p indices => exact ⟨[], indices, fun n _ => rfl⟩
  | index p value l r => exact ⟨value :: l, r, fun n _ => rfl⟩
  | compared p ops comparators => exact ⟨[], comparators, fun n _ => rfl⟩
  | comparator p left ops l r => exact ⟨left :: l, r, fun n _ => rfl⟩
  | left p op right => exact ⟨[], [right], fun n _ => rfl⟩
  | right p left op => exact ⟨[left], [], fun n _ => rfl⟩
  | lambdaParameter p l r body =>
    exact ⟨l, r ++ [body], fun n _ => by simp [fill, Node.children]⟩
  | lambdaBody p ps => exact ⟨ps, [], fun n _ => rfl⟩

/-! ## Every node is in a frame -/

theorem exists_frame {n c : Node} (h : c ∈ n.children) : ∃ f : Frame, f.fill c = n := by
  cases n with
  | module p body =>
    obtain ⟨l, r, rfl⟩ := List.append_of_mem h
    exact ⟨.moduleBody p l r, rfl⟩
  | function p w ps body =>
    rcases List.mem_append.1 h with h | h
    · obtain ⟨l, r, rfl⟩ := List.append_of_mem h
      exact ⟨.parameter p w l r body, rfl⟩
    · obtain ⟨l, r, rfl⟩ := List.append_of_mem h
      exact ⟨.functionBody p w ps l r, rfl⟩
  | classDef p w bases body =>
    rcases List.mem_append.1 h with h | h
    · obtain ⟨l, r, rfl⟩ := List.append_of_mem h
      exact ⟨.base p w l r body, rfl⟩
    · obtain ⟨l, r, rfl⟩ := List.append_of_mem h
      exact ⟨.classBody p w bases l r, rfl⟩
  | assign p targets hint value =>
    rcases List.mem_append.1 h with h | h
    · rcases List.mem_append.1 h with h | h
      · obtain ⟨l, r, rfl⟩ := List.append_of_mem h
        exact ⟨.target p l r hint value, rfl⟩
      · obtain rfl := Option.mem_toList.1 h
        exact ⟨.typeHint p targets value, rfl⟩
    · obtain rfl := List.mem_singleton.1 h
      exact ⟨.value p targets hint, rfl⟩
  | augassign p target op value =>
    rcases List.mem_cons.1 h with rfl | h
    · exact ⟨.augTarget p op value, rfl⟩
    · obtain rfl := List.mem_singleton.1 h
      exact ⟨.augValue p target op, rfl⟩
  | call p func args keywords =>
    rcases List.mem_cons.1 h with rfl | h
    · exact ⟨.func p args keywords, rfl⟩
    · rcases List.mem_append.1 (mem_sortBy.1 h) with h | h
      · obtain ⟨l, r, rfl⟩ := List.append_of_mem h
        exact ⟨.arg p func l r keywords, rfl⟩
      · obtain ⟨l, r, rfl⟩ := List.append_of_mem h
        exact ⟨.keyword p func args l r, rfl⟩
  | keyword p name value =>
    obtain rfl := List.mem_singleton.1 h
    exact ⟨.keywordValue p name, rfl⟩
  | attr p object w =>
    obtain rfl := List.mem_singleton.1 h
    exact ⟨.object p w, rfl⟩
  | subscript p value indices =>
    rcases List.mem_cons.1 h with rfl | h
    · exact ⟨.subscripted p indices, rfl⟩
    · obtain ⟨l, r, rfl⟩ := List.append_of_mem h
      exact ⟨.index p value l r, rfl⟩
  | compare p left ops comparators =>
    rcases List.mem_cons.1 h with rfl | h
    · exact ⟨.compared p ops comparators, rfl⟩
    · obtain ⟨l, r, rfl⟩ := List.append_of_mem h
      exact ⟨.comparator p left ops l r, rfl⟩
  | binop p left op right =>
    rcases List.mem_cons.1 h with rfl | h
    · exact ⟨.left p op right, rfl⟩
    · obtain rfl := List.mem_singleton.1 h
      exact ⟨.right p left op, rfl⟩
  | unaryop p op operand =>
    obtain rfl := List.mem_singleton.1 h
    exact ⟨.operand p op, rfl⟩
  | boolop p op values =>
    obtain ⟨l, r, rfl⟩ := List.append_of_mem h
    exact ⟨.alternative p op l r, rfl⟩
  | lambda p ps body =>
    rcases List.mem_append.1 h with h | h
    · obtain ⟨l, r, rfl⟩ := List.append_of_mem h
      exact ⟨.lambdaParameter p l r body, rfl⟩
    · obtain rfl := List.mem_singleton.1 h
      exact ⟨.lambdaBody p ps, rfl⟩
  | other p type cs =>
    obtain ⟨l, r, rfl⟩ := List.append_of_mem h
    exact ⟨.other p type l r, rfl⟩
  | name | constant | unknown => cases h

theorem exists_plug {root n : Node} {place : Place} (h : root.at? place = some n) :
    ∃ path, path.length = place.length ∧ plug path n = root := by
  induction place generalizing root with
  | nil =>
    cases h
    exact ⟨[], rfl, rfl⟩
  | cons i place ih =>
    obtain ⟨c, hc, hn⟩ := Option.bind_eq_some_iff.1 h
    obtain ⟨path, hlength, hpath⟩ := ih hn
    obtain ⟨f, hf⟩ := exists_frame (List.mem_of_getElem? hc)
    exact ⟨f :: path, by simp [hlength], by rw [plug_cons, hpath, hf]⟩

end ChainLint
