import ChainLint.Proofs.Cst.Unfold
import ChainLint.Proofs.Text.Words
import Mathlib.Data.List.Chain

/-!
# ChainLint.Proofs.Cst.Comparison

The operators of a comparison, which are read off the text between its operands.

* `between`: the text between two operands. `operatorText_eq`: the operator is the words of this
  text, joined by single spaces.
* `comparisonOperators`, `Fragment`, `Spells`: texts that consist of the words of an operator with
  white space and comments between and around them.
* `operatorText_of_spells`: from such a text the operator is read as it is, unless there is a
  comment. Comments are no operands, but they are text.
* `convert_comparison`, `comparison_operators_read`: whole comparisons.
-/

namespace ChainLint

/-! ## Fragments of an operator -/

/-- The comparison operators, word by word. -/
def comparisonOperators : List (List String) :=
  [["<"], [">"], ["=="], [">="], ["<="], ["!="], ["<>"], ["in"], ["not", "in"], ["is"],
    ["is", "not"]]

/-- A part of the text between two operands. -/
inductive Fragment where
  | word (w : String)
  | blank (b : Char)
  /-- A comment with this text behind its mark, and the line feed that ends it. -/
  | comment (text : String)
  deriving DecidableEq

namespace Fragment

def chars : Fragment → List Char
  | .word w => w.toList
  | .blank b => [b]
  | .comment text => '#' :: (text.toList ++ ['\n'])

def word? : Fragment → Option String
  | .word w => some w
  | .blank _ | .comment _ => none

def isComment : Fragment → Bool
  | .comment _ => true
  | .word _ | .blank _ => false

/-- White space is white space, and a comment ends with its line. -/
def Proper : Fragment → Prop
  | .word _ => True
  | .blank b => Text.isBlank b = true
  | .comment text => '\n' ∉ text.toList

instance : DecidablePred Proper
  | .word _ => inferInstanceAs (Decidable True)
  | .blank b => inferInstanceAs (Decidable (Text.isBlank b = true))
  | .comment text => inferInstanceAs (Decidable ('\n' ∉ text.toList))

end Fragment

/-- The fragments are the words of an operator, in order and apart from each other, with white space
and comments between and around them. -/
structure Spells (operator : List String) (fragments : List Fragment) : Prop where
  known : operator ∈ comparisonOperators
  words : fragments.filterMap Fragment.word? = operator
  apart : fragments.IsChain (fun p q => p.word? = none ∨ q.word? = none)
  proper : ∀ p ∈ fragments, p.Proper

namespace Spells

variable {operator : List String} {fragments : List Fragment}

theorem word_of_mem_comparisonOperators : ∀ operator ∈ comparisonOperators, ∀ w ∈ operator,
    w.toList ≠ [] ∧ ∀ x ∈ w.toList, Text.isBlank x = false := by
  have hany : ∀ operator ∈ comparisonOperators, ∀ w ∈ operator,
      w.toList ≠ [] ∧ w.toList.any Text.isBlank = false := by
    decide +kernel
  intro operator hoperator w hw
  obtain ⟨hne, hblank⟩ := hany operator hoperator w hw
  exact ⟨hne, fun x hx => by simpa using List.any_eq_false.1 hblank x hx⟩

theorem mark_not_mem : ∀ operator ∈ comparisonOperators,
    '#' ∉ (Text.joinWith " " operator).toList := by
  decide +kernel

/-- Without comments the words of the text are those of the fragments. -/
theorem words_chars (hwords : ∀ w ∈ fragments.filterMap Fragment.word?,
      w.toList ≠ [] ∧ ∀ x ∈ w.toList, Text.isBlank x = false)
    (hapart : fragments.IsChain (fun p q => p.word? = none ∨ q.word? = none))
    (hproper : ∀ p ∈ fragments, p.Proper) (hplain : ∀ p ∈ fragments, p.isComment = false) :
    Text.words (fragments.flatMap Fragment.chars) =
      (fragments.filterMap Fragment.word?).map String.toList := by
  induction fragments with
  | nil => rfl
  | cons p fragments ih =>
    obtain ⟨hp, hbelow⟩ := List.forall_mem_cons.1 hproper
    obtain ⟨hcomment, hrest⟩ := List.forall_mem_cons.1 hplain
    rw [List.flatMap_cons]
    cases p with
    | comment text => cases hcomment
    | blank b =>
      have ih := ih (by simpa [Fragment.word?] using hwords) hapart.tail hbelow hrest
      rw [List.filterMap_cons_none rfl, ← ih]
      exact Text.words_cons_blank hp _
    | word w =>
      have hfilter : (Fragment.word w :: fragments).filterMap Fragment.word? =
          w :: fragments.filterMap Fragment.word? := rfl
      rw [hfilter] at hwords ⊢
      obtain ⟨⟨hne, hw⟩, hmore⟩ := List.forall_mem_cons.1 hwords
      have ih := ih hmore hapart.tail hbelow hrest
      have hword : Text.words w.toList = [w.toList] := Text.words_of_not_blank hne hw
      rw [List.map_cons, ← ih]
      cases fragments with
      | nil => simpa [Fragment.chars] using hword
      | cons q fragments =>
        -- The next fragment keeps the word apart from what follows.
        cases q with
        | word v => simp [Fragment.word?] at hapart
        | comment text => cases hrest _ List.mem_cons_self
        | blank b =>
          have hb : Text.isBlank b = true := hbelow _ List.mem_cons_self
          show Text.words (w.toList ++ b :: _) = _ :: Text.words (b :: _)
          rw [Text.words_append_blank hb, Text.words_cons_blank hb, hword]
          rfl

/-- The words of the text, joined by single spaces, are those of the operator exactly if there is no
comment: the mark of a comment stays among them. -/
theorem joined_iff (h : Spells operator fragments) :
    Text.joinWith " " ((Text.words (fragments.flatMap Fragment.chars)).map String.ofList) =
      Text.joinWith " " operator ↔ ∀ p ∈ fragments, p.isComment = false := by
  constructor
  · intro hjoined p hp
    by_contra hcomment
    have hmark : '#' ∈ fragments.flatMap Fragment.chars := by
      refine List.mem_flatMap.2 ⟨p, hp, ?_⟩
      cases p with
      | comment text => exact List.mem_cons_self
      | word | blank => exact absurd rfl hcomment
    refine mark_not_mem operator h.known ?_
    rw [← hjoined, Text.joinWith_space, String.toList_ofList]
    exact Text.mem_intercalate_words hmark rfl
  · intro hplain
    have hwords : ∀ w ∈ fragments.filterMap Fragment.word?,
        w.toList ≠ [] ∧ ∀ x ∈ w.toList, Text.isBlank x = false := by
      rw [h.words]
      exact word_of_mem_comparisonOperators operator h.known
    rw [words_chars hwords h.apart h.proper hplain, h.words, List.map_map]
    congr 1
    exact List.map_id'' (fun w => String.ofList_toList) operator

end Spells

namespace Cst

variable {source : Array (Option Char)} {a b c left : Cst} {comparators : List Cst}

/-! ## Operators -/

/-- The text between two operands. -/
def between (source : Array (Option Char)) (a b : Cst) : String :=
  Text.slice source a.label.stop b.label.start

theorem operatorText_eq (source : Array (Option Char)) (a b : Cst) :
    operatorText source a b =
      Text.joinWith " " ((Text.words (between source a b).toList).map String.ofList) := by
  rw [Text.joinWith_space, ← Text.collapse_trim]
  rfl

theorem operatorText_of_spells {operator : List String} {fragments : List Fragment}
    (h : Spells operator fragments)
    (htext : between source a b = String.ofList (fragments.flatMap Fragment.chars)) :
    operatorText source a b = Text.joinWith " " operator ↔ ∀ p ∈ fragments, p.isComment = false := by
  rw [operatorText_eq, htext, String.toList_ofList, h.joined_iff]

theorem length_operatorTexts (source : Array (Option Char)) (ps : List Cst) :
    (operatorTexts source ps).length = ps.length - 1 := by
  fun_induction operatorTexts source ps with
  | case1 => rfl
  | case2 => rfl
  | case3 a b rest ih => simpa using ih

/-- Each operator is that of two neighbours. -/
theorem getElem?_operatorTexts {ps : List Cst} {i : Nat} (ha : ps[i]? = some a)
    (hb : ps[i + 1]? = some b) :
    (operatorTexts source ps)[i]? = some (operatorText source a b) := by
  fun_induction operatorTexts source ps generalizing i with
  | case1 => cases ha
  | case2 => cases hb
  | case3 d e rest ih =>
    cases i with
    | zero =>
      cases ha
      cases hb
      rfl
    | succ i => exact ih ha hb

theorem convert_comparison (hform : c.form = .comparison) (hparts : c.parts = left :: comparators)
    (n : Node) :
    c.convert source = .ok n ↔ ∃ l rs, left.convert source = .ok l ∧
      List.Forall₂ (fun d r => d.convert source = .ok r) comparators rs ∧
      n = .compare c.position l (operatorTexts source c.parts) rs := by
  rw [convert_eq, convertNode, hform]
  simp only [convertComparison, hparts, bind_eq_ok, pure_eq_ok, mapM_eq_ok]
  constructor
  · rintro ⟨l, hl, rs, hrs, rfl⟩
    exact ⟨l, rs, hl, hrs, rfl⟩
  · rintro ⟨l, rs, hl, hrs, rfl⟩
    exact ⟨l, hl, rs, hrs, rfl⟩

end Cst

/-- A comparison whose operands are converted becomes a node with a comparator and an operator for
each operand after the first one. An operator is the words of the text between two operands, joined
by single spaces. Where this text spells an operator of the language, with any white space and
comments between and around its words, it is read as just this operator exactly if there is no
comment. -/
theorem comparison_operators_read {source : Array (Option Char)} {c left : Cst}
    {comparators : List Cst} (htype : c.type = "comparison_operator")
    (hparts : c.parts = left :: comparators) :
    ∃ operators : List String, operators.length = comparators.length ∧
      (∀ n, c.convert source = .ok n ↔ ∃ l rs, left.convert source = .ok l ∧
        List.Forall₂ (fun d r => d.convert source = .ok r) comparators rs ∧
        n = .compare c.position l operators rs) ∧
      ∀ i a b, c.parts[i]? = some a → c.parts[i + 1]? = some b →
        ∃ operator, operators[i]? = some operator ∧
          operator = Text.joinWith " "
            ((Text.words (Cst.between source a b).toList).map String.ofList) ∧
          ∀ spelled fragments, Spells spelled fragments →
            Cst.between source a b = String.ofList (fragments.flatMap Fragment.chars) →
            (operator = Text.joinWith " " spelled ↔ ∀ p ∈ fragments, p.isComment = false) := by
  have hform : c.form = .comparison := by
    rw [Cst.form, htype]
    rfl
  refine ⟨Cst.operatorTexts source c.parts, ?_, Cst.convert_comparison hform hparts, ?_⟩
  · rw [Cst.length_operatorTexts, hparts, List.length_cons, Nat.add_sub_cancel]
  · intro i a b ha hb
    refine ⟨Cst.operatorText source a b, Cst.getElem?_operatorTexts ha hb,
      Cst.operatorText_eq source a b, fun spelled fragments hspells htext => ?_⟩
    exact Cst.operatorText_of_spells hspells htext

namespace Cst.Sample

/-- A name of one letter. -/
def letter (row column start : Int) : Cst :=
  .node { type := "identifier", row, column, start, stop := start + 1 } []

theorem convert_letter {source : Array (Option Char)} {row column start : Int} {name : String}
    (h : Text.slice source start (start + 1) = name) :
    (letter row column start).convert source = .ok (.name (.at (row + 1) column) name) := by
  subst h
  rfl

def token (type : String) (start stop : Int) : Cst :=
  .node { type, named := false, start, stop } []

def note (start stop : Int) : Cst := .node { type := "comment", start, stop } []

/-- Two operators, one over two lines and one with a comment behind it. -/
def chained : Cst := .node { type := "comparison_operator", column := 1, start := 1, stop := 24 }
  [letter 0 1 1, token "not in" 3 11, letter 1 5 12, token "<" 14 15, note 16 21, letter 2 1 23]

def chainedText : Array (Option Char) := Text.slots "(a not\n  in b < # why\n c)"

def membership : List Fragment :=
  [.blank ' ', .word "not", .blank '\n', .blank ' ', .blank ' ', .word "in", .blank ' ']

def commented : List Fragment := [.blank ' ', .word "<", .blank ' ', .comment " why", .blank ' ']

theorem spells_membership : Spells ["not", "in"] membership := by
  refine ⟨by decide, rfl, ?_, by decide⟩
  simp [membership, Fragment.word?]

theorem spells_commented : Spells ["<"] commented := by
  refine ⟨by decide, rfl, ?_, by decide⟩
  simp [commented, Fragment.word?]

end Cst.Sample

section Samples

open Cst.Sample

/-- An operator of two words over two lines is read as it is, the one before a comment is not. -/
theorem comparison_operators_read_chained :
    Cst.between chainedText (letter 0 1 1) (letter 1 5 12) =
      String.ofList (membership.flatMap Fragment.chars) ∧
    Cst.between chainedText (letter 1 5 12) (letter 2 1 23) =
      String.ofList (commented.flatMap Fragment.chars) ∧
    ∃ operators, chained.convert chainedText =
        .ok (.compare (.at 1 1) (.name (.at 1 1) "a") operators
          [.name (.at 2 5) "b", .name (.at 3 1) "c"]) ∧
      operators[0]? = some "not in" ∧ operators[1]? ≠ some "<" := by
  have hfirst : Cst.between chainedText (letter 0 1 1) (letter 1 5 12) =
      String.ofList (membership.flatMap Fragment.chars) := by
    decide +kernel
  have hsecond : Cst.between chainedText (letter 1 5 12) (letter 2 1 23) =
      String.ofList (commented.flatMap Fragment.chars) := by
    decide +kernel
  obtain ⟨operators, -, hconvert, hread⟩ := @comparison_operators_read chainedText
    chained (letter 0 1 1) [letter 1 5 12, letter 2 1 23] rfl rfl
  obtain ⟨operator, hoperator, -, hspelled⟩ := hread 0 _ _ rfl rfl
  obtain ⟨operator', hoperator', -, hspelled'⟩ := hread 1 _ _ rfl rfl
  have hplain := (hspelled _ _ spells_membership hfirst).2 (by decide)
  have hcommented := mt (hspelled' _ _ spells_commented hsecond).1 (by decide)
  refine ⟨hfirst, hsecond, operators, ?_, ?_, ?_⟩
  · refine (hconvert _).2 ⟨_, _, convert_letter ?_, .cons (convert_letter ?_)
      (.cons (convert_letter ?_) .nil), rfl⟩ <;> decide +kernel
  · exact hoperator.trans (congrArg some hplain)
  · intro hsame
    exact hcommented (Option.some.inj (hoperator'.symm.trans hsame))

/-- `a < # why` and `b` on the next line: the comment, which is a node of its own, becomes part of
the operator. -/
theorem comment_read_into_operator :
    let source := Text.slots "(a < # why\n b)"
    let c : Cst := .node { type := "comparison_operator", column := 1, start := 1, stop := 13 }
      [letter 0 1 1, token "<" 3 4, note 5 10, letter 1 1 12]
    Spells ["<"] commented ∧
      Cst.between source (letter 0 1 1) (letter 1 1 12) =
        String.ofList (commented.flatMap Fragment.chars) ∧
      c.convert source = .ok (.compare (.at 1 1) (.name (.at 1 1) "a") ["< # why"]
        [.name (.at 2 1) "b"]) ∧
      "< # why" ≠ Text.joinWith " " ["<"] := by
  intro source c
  have hoperators : Cst.operatorTexts source c.parts = ["< # why"] := by decide +kernel
  refine ⟨spells_commented, by decide +kernel, ?_, by decide⟩
  rw [Cst.convert_comparison rfl rfl, hoperators]
  refine ⟨_, _, convert_letter ?_, .cons (convert_letter ?_) .nil, rfl⟩ <;> decide +kernel

end Samples

end ChainLint
