import ChainLint.Path

/-!
# ChainLint.Glob

Patterns for paths, matched against the components of a path.

* In a component, `*` stands for any units, `?` for one, `[ab]`, `[a-c]`, `[!ab]` for one of a
  set. The component `**` stands for any number of components.
* `expandBraces`: `{a,b}` offers alternatives.
* `Glob.parse`: the patterns a text stands for.
* `Glob.covers`: a path is matched.
* `Glob.prunes`: a directory that is matched is left out with all it holds.
-/

namespace ChainLint

/-- A part of a component. A set may also match the text it was written as. -/
inductive Piece where
  | unit (u : Nat)
  | one
  | run
  | set (negated : Bool) (ranges : List (Nat × Nat)) (literal : Option (List Nat))
  deriving DecidableEq

inductive Segment where
  | name (pieces : List Piece)
  /-- Any number of components. -/
  | deep
  /-- At least one component. -/
  | below
  deriving DecidableEq

structure Glob where
  segments : List Segment
  deriving DecidableEq

namespace Glob

/-! ## Alternatives -/

/-- The alternatives of a group whose brace has just been read, and what follows it. -/
def group (depth : Nat) (piece : List Char) (pieces : List (List Char)) :
    List Char → Option (List (List Char) × List Char)
  | [] => none
  | c :: cs =>
    if c = '\x7b' then group (depth + 1) (piece ++ [c]) pieces cs
    else if c = '\x7d' then
      match depth with
      | 0 => some (pieces ++ [piece], cs)
      | d + 1 => group d (piece ++ [c]) pieces cs
    else if c = ',' ∧ depth = 0 then group 0 [] (pieces ++ [piece]) cs
    else group depth (piece ++ [c]) pieces cs

/-- The first group of at least two alternatives, with what stands before and after it. -/
def firstGroup (before : List Char) :
    List Char → Option (List Char × List (List Char) × List Char)
  | [] => none
  | c :: cs =>
    if c = '\x7b' then
      match group 0 [] [] cs with
      | some (a :: b :: more, rest) => some (before, a :: b :: more, rest)
      | _ => firstGroup (before ++ [c]) cs
    else firstGroup (before ++ [c]) cs

/-- Writes out groups, at most `fuel` of them one inside or after the other. -/
def expandWithin : Nat → List Char → List (List Char)
  | 0, cs => [cs]
  | fuel + 1, cs =>
    match firstGroup [] cs with
    | none => [cs]
    | some (before, alternatives, rest) =>
      alternatives.flatMap (fun a => expandWithin fuel (before ++ a ++ rest))

/-- The patterns without groups that a pattern stands for. Every step takes away an opening
brace, so their number bounds the steps. -/
def expandBraces (cs : List Char) : List (List Char) := expandWithin (cs.count '\x7b') cs

/-! ## Components -/

/-- Characters that make the brackets around them a set and nothing else. -/
def setMarks : List Char := "-*+?.^$\x7b\x7d(|)[]".toList

/-- The ranges of a set; a minus between two characters joins them. -/
def ranges : List Char → List (Nat × Nat)
  | [] => []
  | [a] => (Text.unitsOf a).map (fun u => (u, u))
  | [a, b] => [a, b].flatMap (fun c => (Text.unitsOf c).map (fun u => (u, u)))
  | a :: b :: c :: cs =>
    if b = '-' then (a.toNat, c.toNat) :: ranges cs
    else (Text.unitsOf a).map (fun u => (u, u)) ++ ranges (b :: c :: cs)

/-- The members of a set up to its closing bracket; a bracket that comes first is a member. -/
def setBody : List Char → Option (List Char × List Char)
  | [] => none
  | c :: cs =>
    match cs.dropWhile (· ≠ ']') with
    | ']' :: rest => some (c :: cs.takeWhile (· ≠ ']'), rest)
    | _ => none

theorem setBody_length {cs body rest : List Char} (h : setBody cs = some (body, rest)) :
    rest.length < cs.length := by
  cases cs with
  | nil => simp [setBody] at h
  | cons c cs =>
    simp only [setBody] at h
    split at h
    case h_1 tail heq =>
      have hl : (cs.dropWhile (· ≠ ']')).length ≤ cs.length :=
        (List.dropWhile_sublist (fun x => decide (x ≠ ']'))).length_le
      rw [heq] at hl
      simp only [Option.some.injEq, Prod.mk.injEq] at h
      obtain ⟨-, rfl⟩ := h
      simp only [List.length_cons] at hl ⊢
      omega
    case h_2 => simp at h

/-- A set from what stands between its brackets. -/
def setPiece (body : List Char) : Piece :=
  match body with
  | c :: cs =>
    if (c = '!' ∨ c = '^') ∧ !cs.isEmpty then .set true (ranges cs) none
    else
      .set false (ranges body)
        (if body.any (fun c => setMarks.contains c) then none
          else some (('[' :: body ++ [']']).flatMap Text.unitsOf))
  | [] => .set false [] none

def pieces (cs : List Char) : List Piece :=
  match cs with
  | [] => []
  | c :: rest =>
    if c = '*' then .run :: pieces rest
    else if c = '?' then .one :: pieces rest
    else if c = '[' then
      match _h : setBody rest with
      | some (body, after) => setPiece body :: pieces after
      | none => .unit c.toNat :: pieces rest
    else (Text.unitsOf c).map .unit ++ pieces rest
termination_by cs.length
decreasing_by
  all_goals simp only [List.length_cons]
  all_goals try have shorter := setBody_length ‹_›
  all_goals omega

/-- Two stars and more text stand for any number of components, then a star and that text. -/
def component (cs : List Char) : List Segment :=
  match cs with
  | ['*', '*'] => [.deep]
  | '*' :: '*' :: c :: rest =>
    if c = '*' then [.name (pieces cs)] else [.deep, .name (.run :: pieces (c :: rest))]
  | _ => [.name (pieces cs)]

/-- One `**` says as much as several in a row. -/
def collapseDeep : List Segment → List Segment
  | [] => []
  | .deep :: rest =>
    match collapseDeep rest with
    | .deep :: more => .deep :: more
    | more => .deep :: more
  | s :: rest => s :: collapseDeep rest

/-- After a component that ends in a star, a final `**` asks for at least one component. -/
def closing : List Segment → List Segment
  | [.name ps, .deep] => [.name ps, if ps.getLast? = some .run then .below else .deep]
  | s :: rest => s :: closing rest
  | [] => []

/-- Leaves out empty components that are neither first nor last. -/
def dropInnerEmpty : List (List Char) → List (List Char)
  | [] => []
  | first :: rest =>
    first :: (rest.dropLast.filter (fun c => !c.isEmpty) ++ rest.getLast?.toList)

/-- A pattern without groups. A leading `!` and leading `./` are dropped. -/
def ofChars (cs : List Char) : Glob :=
  let cs := match cs with
    | '!' :: '(' :: rest => '!' :: '(' :: rest
    | '!' :: rest => rest
    | cs => cs
  let parts := (dropInnerEmpty (Text.splitChars '/' cs)).dropWhile (· = ['.'])
  ⟨closing (collapseDeep (parts.flatMap component))⟩

/-- The patterns a text stands for; an empty one stands for none. -/
def parse (s : String) : List Glob :=
  ((expandBraces s.toList).filter (fun cs => !cs.isEmpty)).map ofChars

/-! ## Matching -/

/-- A list with all the lists that are left when elements are taken off its front. -/
def suffixes {α : Type} : List α → List (List α)
  | [] => [[]]
  | x :: xs => (x :: xs) :: suffixes xs

def inRanges (u : Nat) (rs : List (Nat × Nat)) : Bool :=
  rs.any (fun r => r.1 ≤ u && u ≤ r.2)

/-- A component, given by its units, is matched by pieces. -/
def matchPieces : List Piece → List Nat → Bool
  | [], us => us.isEmpty
  | .unit v :: ps, us =>
    match us with
    | u :: rest => u == v && matchPieces ps rest
    | [] => false
  | .one :: ps, us =>
    match us with
    | _ :: rest => matchPieces ps rest
    | [] => false
  | .run :: ps, us => (suffixes us).any (matchPieces ps)
  | .set negated rs literal :: ps, us =>
    (match us with
      | u :: rest => (inRanges u rs != negated) && matchPieces ps rest
      | [] => false)
    || (match literal with
      | some text => text.isPrefixOf us && matchPieces ps (us.drop text.length)
      | none => false)

def units (s : String) : List Nat := s.toList.flatMap Text.unitsOf

def matchSegments : List Segment → Path.Parts → Bool
  | [], path => path.isEmpty
  | .name ps :: rest, path =>
    match path with
    | c :: cs => matchPieces ps (units c) && matchSegments rest cs
    | [] => false
  | .deep :: rest, path => (suffixes path).any (matchSegments rest)
  | .below :: rest, path =>
    match path with
    | _ :: cs => (suffixes cs).any (matchSegments rest)
    | [] => false

/-- A relative path is matched. -/
def covers (g : Glob) (path : Path.Parts) : Bool := matchSegments g.segments path

def isLiteral : Piece → Bool
  | .unit _ => true
  | _ => false

/-- A pattern leaves out the directories it matches when it ends in `/**`, or when its last
component is a plain name. -/
def prunes (g : Glob) : Bool :=
  match g.segments.getLast? with
  | some (.name ps) => ps.all isLiteral
  | some .deep => g.segments.length > 1
  | some .below => true
  | none => false

end Glob
end ChainLint
