import ChainLint.Report.Document
import ChainLint.Text.Utf8
import Mathlib.Algebra.GroupWithZero.Nat

/-!
# ChainLint.Proofs.Report.Length

How long a document is at least: every finding adds to it.

* `length_le_encode`: a character takes at least one byte.
* `sum_le_indentedItems`: an array is as long as its items together.
* `leastLength`: what a finding adds to a document at least. `sum_le_documentText`: a document is
  as long as its findings together.
-/

namespace ChainLint

theorem length_le_flatMap {α β : Type} {f : α → List β} (h : ∀ x, 0 < (f x).length)
    (xs : List α) : xs.length ≤ (xs.flatMap f).length := by
  induction xs with
  | nil => simp
  | cons x xs ih =>
    have hx := h x
    simp only [List.flatMap_cons, List.length_append, List.length_cons]
    omega

theorem Text.Utf8.length_le_encode (s : String) : s.toList.length ≤ (encode s).length := by
  refine length_le_flatMap (fun c => ?_) _
  rw [String.length_utf8EncodeChar]
  exact c.utf8Size_pos

namespace Json

theorem length_le_quotedChars (cs : List Char) : cs.length + 2 ≤ (quotedChars cs).length := by
  have hescaped : cs.length ≤ (cs.flatMap escaped).length := by
    refine length_le_flatMap (fun c => ?_) _
    unfold escaped
    grind [hexEscape]
  simp only [quotedChars, List.length_cons, List.length_append, List.length_nil]
  omega

theorem sum_le_indentedItems {α : Type} {level : Nat} {weight : α → Nat} {entry : α → Value}
    (h : ∀ x, weight x ≤ ((entry x).indented level).length) :
    ∀ xs : List α, (xs.map weight).sum ≤ (indentedItems level (xs.map entry)).length
  | [] => by simp [indentedItems]
  | [x] => by simpa [indentedItems] using h x
  | x :: y :: rest => by
    have hx := h x
    have ih := sum_le_indentedItems h (y :: rest)
    simp only [List.map_cons, List.sum_cons, indentedItems, List.length_append,
      List.length_cons] at ih ⊢
    omega

theorem items_le_array (level : Nat) (items : List Value) :
    (indentedItems (level + 1) items).length ≤ ((Value.array items).indented level).length := by
  cases items with
  | nil => simp [indentedItems]
  | cons v rest =>
    simp only [Value.indented, List.length_append, List.length_cons]
    omega

theorem value_le_members {level : Nat} {m : String × Value} :
    ∀ {members : List (String × Value)}, m ∈ members →
      (m.2.indented level).length ≤ (indentedMembers level members).length
  | [], h => nomatch h
  | [m'], h => by
    rw [List.mem_singleton] at h
    subst h
    simp only [indentedMembers, List.length_append, List.length_cons]
    omega
  | m' :: m'' :: rest, h => by
    simp only [indentedMembers, List.length_append, List.length_cons]
    rcases List.mem_cons.1 h with rfl | h
    · omega
    · have ih : (m.2.indented level).length ≤ (indentedMembers level (m'' :: rest)).length :=
        value_le_members h
      omega

theorem value_le_object {level : Nat} {m : String × Value} {members : List (String × Value)}
    (h : m ∈ members) :
    (m.2.indented (level + 1)).length ≤ ((Value.object members).indented level).length := by
  have hmembers : (m.2.indented (level + 1)).length ≤
      (indentedMembers (level + 1) members).length := value_le_members h
  cases members with
  | nil => cases h
  | cons m' rest =>
    simp only [Value.indented, List.length_append, List.length_cons]
    omega

end Json

namespace Report

open Json

/-- What a finding adds to a document at least, its path and its numbers left aside. -/
def leastLength (d : Diagnostic) : Nat :=
  100 + d.ruleId.toList.length + d.message.toList.length

theorem leastLength_le (s : Setting) (d : Diagnostic) :
    leastLength d ≤ ((diagnosticEntry s d).indented 2).length := by
  have hplace := length_le_quotedChars (s.place d.filePath).toList
  have hrule := length_le_quotedChars d.ruleId.toList
  have hmessage := length_le_quotedChars d.message.toList
  have hnames : (["filePath", "line", "column", "ruleId", "message"].map
      fun name => (quotedChars name.toList).length) = [10, 6, 8, 8, 9] := by decide
  simp only [List.map_cons, List.map_nil, List.cons.injEq, and_true] at hnames
  simp only [leastLength, diagnosticEntry, Value.indented, indentedMembers, newLine,
    List.length_append, List.length_cons, List.length_replicate, List.length_nil]
  omega

theorem sum_le_documentText (order : FailureOrder) (s : Setting) (r : ScanOutcome) :
    (r.diagnostics.map leastLength).sum ≤ (documentText order s r).toList.length := by
  rw [documentText, Value.indentedText, String.toList_ofList]
  calc (r.diagnostics.map leastLength).sum
      ≤ (indentedItems 2 (r.diagnostics.map (diagnosticEntry s))).length :=
        sum_le_indentedItems (leastLength_le s) r.diagnostics
    _ ≤ ((Value.array (r.diagnostics.map (diagnosticEntry s))).indented 1).length :=
        items_le_array 1 _
    _ ≤ ((document order s r).indented 0).length :=
        value_le_object (m := ("diagnostics", _)) (by simp)

end Report
end ChainLint
