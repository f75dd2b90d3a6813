import ChainLint.Report.Grouped
import ChainLint.Snippet
import Mathlib.Data.List.Forall2
import Mathlib.Data.List.Intervals

/-!
# ChainLint.Proofs.Report.Snippet

The lines shown with a finding.

* `window`: the numbers of the lines from two before a line to two after it, as far as there are
  any. `snippet_eq`: a snippet shows these lines, each once and in order.
* `startsWith_snippetLine`: a shown line begins with the mark only where the mark was put, since a
  space stands there otherwise, and no text of a line comes before it.
* `snippet_window`: the two together, and the row that a report makes of each shown line.
-/

namespace ChainLint

variable {line : Int}

/-! ## The window -/

/-- Numbers of the lines around `line` in a text of `n` lines. -/
def window (n : Nat) (line : Int) : List Nat :=
  List.Ico (max 1 (line - 2)).toNat ((min (n : Int) (line + 2)).toNat + 1)

theorem mem_window {n k : Nat} :
    k ∈ window n line ↔ 1 ≤ k ∧ k ≤ n ∧ line - 2 ≤ k ∧ (k : Int) ≤ line + 2 := by
  rw [window, List.Ico.mem]
  omega

theorem filter_window (n : Nat) (line : Int) :
    (List.Ico 1 (n + 1)).filter (fun k : Nat => line - 2 ≤ k ∧ (k : Int) ≤ line + 2) =
      window n line := by
  have hsplit : (List.Ico 1 (n + 1)).filter (fun k : Nat => line - 2 ≤ k ∧ (k : Int) ≤ line + 2) =
      ((List.Ico 1 (n + 1)).filter (fun k => (line - 2).toNat ≤ k)).filter
        (fun k => k < (line + 3).toNat) := by
    rw [List.filter_filter]
    refine List.filter_congr fun k hk => ?_
    have hk := List.Ico.mem.1 hk
    rw [← Bool.decide_and]
    exact decide_eq_decide.2 (by omega)
  have hbounds : max 1 (line - 2).toNat = (max 1 (line - 2)).toNat ∧
      (min (n + 1) (line + 3).toNat = (min (n : Int) (line + 2)).toNat + 1 ∨
        min (n + 1) (line + 3).toNat ≤ 1 ∧ (min (n : Int) (line + 2)).toNat + 1 ≤ 1) := by
    omega
  rw [hsplit, List.Ico.filter_le, List.Ico.filter_lt, window, hbounds.1]
  rcases hbounds.2 with hlast | ⟨hnone, hnone'⟩
  · rw [hlast]
  · rw [List.Ico.eq_nil_of_le (by omega), List.Ico.eq_nil_of_le (by omega)]

theorem zipIdx_eq_map (lines : List String) :
    lines.zipIdx 1 = (List.Ico 1 (lines.length + 1)).map (fun k => (lines.getD (k - 1) "", k)) := by
  refine List.ext_getElem (by simp) fun i hi _ => ?_
  have hi : i < lines.length := by simpa using hi
  simp [List.Ico, List.getElem_range', hi]

/-- The shown lines by their numbers. -/
theorem snippet_eq (lines : List String) (line : Int) :
    snippet lines line =
      (window lines.length line).map (fun k => snippetLine line k (lines.getD (k - 1) "")) := by
  rw [snippet, zipIdx_eq_map, List.filterMap_map, ← filter_window, ← List.filterMap_eq_filter,
    List.map_filterMap]
  refine List.filterMap_congr fun k _ => ?_
  simp only [Function.comp_apply, Option.guard, decide_eq_true_eq]
  split <;> rfl

/-! ## The mark -/

/-- Only the line itself is shown with the mark in front, whatever its text is. -/
theorem startsWith_snippetLine (line : Int) (k : Nat) (text : String) :
    Text.startsWith (snippetLine line k text) "▶" = decide ((k : Int) = line) := by
  rw [Text.startsWith, snippetLine]
  by_cases h : (k : Int) = line
  · simp [h]
  · simp [h, List.isPrefixOf]

theorem countP_window {n : Nat} (hline : 1 ≤ line) :
    (window n line).countP (fun k : Nat => decide ((k : Int) = line)) =
      if line ≤ n then 1 else 0 := by
  have hcount : (window n line).countP (fun k : Nat => decide ((k : Int) = line)) =
      (window n line).count line.toNat := by
    refine List.countP_congr fun k _ => ?_
    simp only [decide_eq_true_eq, beq_iff_eq]
    omega
  have hmem : line.toNat ∈ window n line ↔ line ≤ n := by
    rw [mem_window]
    omega
  have hnodup : (window n line).Nodup := List.Ico.nodup _ _
  rw [hcount, hnodup.count]
  simp only [hmem]

/-! ## The snippet -/

/-- A snippet has one entry for each line from two before a line to two after it that exists, in
order: a mark or a space, the number in three places or more, and the text. It is empty just for a
line far behind the end, or when there are no lines. The mark is on the line itself and nowhere
else, also as a report tells by the first character of an entry which row it lets stand out. -/
theorem snippet_window (lines : List String) (hline : 1 ≤ line) :
    List.Forall₂
      (fun (k : Nat) entry => ∃ text, lines[k - 1]? = some text ∧
        entry = (if (k : Int) = line then "▶" else " ") ++ " "
          ++ String.ofList (List.replicate (3 - (toString k).length) ' ') ++ toString k
          ++ " │  " ++ text ∧
        (Text.startsWith entry "▶" = true ↔ (k : Int) = line) ∧
        ∀ s : Report.Setting, Report.snippetRow s entry =
          "  " ++ s.paint (if (k : Int) = line then .yellow else .dim) entry)
      (List.Ico (max 1 (line - 2)).toNat ((min (lines.length : Int) (line + 2)).toNat + 1))
      (snippet lines line) ∧
    (snippet lines line = [] ↔ (lines.length : Int) + 3 ≤ line ∨ lines.length = 0) ∧
    (snippet lines line).countP (fun entry => Text.startsWith entry "▶") =
      if line ≤ lines.length then 1 else 0 := by
  rw [snippet_eq]
  refine ⟨?_, ?_, ?_⟩
  · show List.Forall₂ _ (window lines.length line) _
    rw [List.forall₂_map_right_iff, List.forall₂_same]
    intro k hk
    have hk : k - 1 < lines.length := by
      have := mem_window.1 hk
      omega
    have hmark := startsWith_snippetLine line k (lines.getD (k - 1) "")
    refine ⟨lines.getD (k - 1) "", ?_, ?_, ?_, fun s => ?_⟩
    · simp [hk]
    · have hpad : Text.padLeft 3 ' ' (toString k) =
          String.ofList (List.replicate (3 - (toString k).length) ' ') ++ toString k := by
        rw [Text.padLeft, String.ofList_append, String.length_toList, String.ofList_toList]
      rw [snippetLine, hpad]
      simp only [String.append_assoc]
    · rw [hmark, decide_eq_true_eq]
    · simp only [Report.snippetRow, hmark, decide_eq_true_eq]
  · rw [List.map_eq_nil_iff, window, List.Ico.eq_empty_iff]
    omega
  · rw [List.countP_map, ← countP_window hline]
    refine List.countP_congr fun k _ => ?_
    rw [Function.comp_apply, startsWith_snippetLine]

/-- Texts that look like marked lines are not taken for one, at the last line and far behind it. -/
theorem snippet_window_end :
    let lines := ["a", "▶ b", "▶   3 │  c"]
    snippet lines 3 = ["    1 │  a", "    2 │  ▶ b", "▶   3 │  ▶   3 │  c"] ∧
      List.Forall₂ (fun (k : Nat) entry => Text.startsWith entry "▶" = true ↔ (k : Int) = 3)
        [1, 2, 3] (snippet lines 3) ∧
      (snippet lines 3).countP (fun entry => Text.startsWith entry "▶") = 1 ∧
      snippet lines 6 = [] := by
  intro lines
  obtain ⟨hentries, -, hmarked⟩ := snippet_window lines (by decide : (1 : Int) ≤ 3)
  obtain ⟨-, hempty, -⟩ := snippet_window lines (by decide : (1 : Int) ≤ 6)
  refine ⟨by decide +kernel, ?_, hmarked, hempty.2 (.inl (by decide))⟩
  exact hentries.imp fun k entry ⟨_, _, _, hmark, _⟩ => hmark

end ChainLint
