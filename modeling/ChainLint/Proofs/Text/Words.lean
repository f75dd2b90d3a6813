import ChainLint.Proofs.Text.Runs
import ChainLint.Text.Blank
import ChainLint.Text.Units
import Mathlib.Data.List.DropRight

/-!
# ChainLint.Proofs.Text.Words

Texts without regard to how much white space is in them.

* `words`: the words of a text. Everything about them follows from two equations: white space
  between two texts keeps their words apart (`words_append_blank`), and a text without white space
  is one word (`words_of_not_blank`).
* `flatten_words`: words lose nothing but white space.
* `collapse_trim`: a trimmed text with its runs of white space made single spaces is the words of
  the text, joined by spaces.
-/

namespace ChainLint
namespace Text

variable {b c d : Char} {cs w : List Char}

/-- The longest runs of characters that are not white space. -/
def words (cs : List Char) : List (List Char) := (cs.splitOnP isBlank).filter (fun w => !w.isEmpty)

@[simp] theorem words_nil : words [] = [] := rfl

theorem words_append_blank (hb : isBlank b = true) (cs ds : List Char) :
    words (cs ++ b :: ds) = words cs ++ words ds := by
  rw [words, List.splitOnP_append_cons cs ds hb, List.filter_append, words, words]

theorem words_cons_blank (hb : isBlank b = true) (cs : List Char) : words (b :: cs) = words cs :=
  words_append_blank hb [] cs

theorem words_of_not_blank (hne : w ≠ []) (hw : ∀ x ∈ w, isBlank x = false) : words w = [w] := by
  rw [words, List.splitOnP_eq_singleton hw]
  simp [hne]

/-- A character in front of a word belongs to it. -/
theorem words_cons_cons (hc : isBlank c = false) (hd : isBlank d = false) (cs : List Char) :
    ∃ w ws, words (d :: cs) = w :: ws ∧ words (c :: d :: cs) = (c :: w) :: ws := by
  obtain ⟨first, rest, hsplit⟩ := List.exists_cons_of_ne_nil (List.splitOnP_ne_nil isBlank cs)
  refine ⟨d :: first, rest.filter (fun w => !w.isEmpty), ?_, ?_⟩ <;>
    simp [words, List.splitOnP_cons_eq_if_modifyHead, hc, hd, hsplit]

theorem flatten_words (cs : List Char) : (words cs).flatten = cs.filter (fun x => !isBlank x) := by
  rw [words, List.flatten_filter_not_isEmpty]
  induction cs with
  | nil => rfl
  | cons c cs ih =>
    rw [List.splitOnP_cons_eq_if_modifyHead, List.filter_cons, ← ih]
    obtain ⟨first, rest, hsplit⟩ := List.exists_cons_of_ne_nil (List.splitOnP_ne_nil isBlank cs)
    cases isBlank c <;> simp [hsplit]

theorem words_ne_nil {x : Char} (hx : x ∈ cs) (hblank : isBlank x = false) : words cs ≠ [] := by
  intro hnil
  have hmem : x ∈ (words cs).flatten := by simp [flatten_words, hx, hblank]
  simp [hnil] at hmem

/-! ## White space at the ends -/

theorem words_dropWhile (cs : List Char) : words (cs.dropWhile isBlank) = words cs := by
  induction cs with
  | nil => rfl
  | cons c cs ih =>
    rw [List.dropWhile_cons]
    split
    · rename_i hc
      rw [ih, words_cons_blank hc]
    · rfl

theorem words_rdropWhile (cs : List Char) : words (cs.rdropWhile isBlank) = words cs := by
  induction cs using List.reverseRecOn with
  | nil => rfl
  | append_singleton cs c ih =>
    rw [List.rdropWhile_concat]
    split
    · rename_i hc
      rw [ih, words_append_blank hc, words_nil, List.append_nil]
    · rfl

theorem trim_eq (cs : List Char) : trim cs = (cs.dropWhile isBlank).rdropWhile isBlank := rfl

theorem words_trim (cs : List Char) : words (trim cs) = words cs := by
  rw [trim_eq, words_rdropWhile, words_dropWhile]

/-- A trimmed text begins with no white space. -/
theorem dropWhile_trim (cs : List Char) : (trim cs).dropWhile isBlank = trim cs := by
  refine dropWhile_eq_self fun x more hx => ?_
  obtain ⟨rest, hrest⟩ := List.rdropWhile_prefix isBlank (cs.dropWhile isBlank)
  rw [← trim_eq, hx] at hrest
  exact head_dropWhile hrest.symm

/-- Nor does it end with any. -/
theorem not_blank_getLast_trim {x : Char} (hx : (trim cs).getLast? = some x) :
    isBlank x = false := by
  have hne : trim cs ≠ [] := by
    intro hnil
    rw [hnil] at hx
    cases hx
  have hlast := List.rdropWhile_last_not isBlank (cs.dropWhile isBlank) hne
  rw [List.getLast?_eq_some_getLast hne, Option.some.injEq] at hx
  rw [← hx]
  exact Bool.eq_false_iff.2 hlast

/-! ## Single spaces -/

theorem collapse_cons_of_not_blank (hc : isBlank c = false) (cs : List Char) :
    collapse (c :: cs) = c :: collapse cs := by
  rw [collapse, if_neg (by simp [hc])]

theorem collapse_cons_blank (hb : isBlank b = true) (cs : List Char) :
    collapse (b :: cs) = ' ' :: collapse (cs.dropWhile isBlank) := by
  induction cs generalizing b with
  | nil => simp [collapse, hb]
  | cons c cs ih =>
    rw [collapse, if_pos hb]
    cases hc : isBlank c with
    | true =>
      rw [ih hc, List.dropWhile_cons_of_pos hc]
      rfl
    | false =>
      rw [List.dropWhile_cons_of_neg (by simp [hc]), collapse_cons_of_not_blank hc]
      have hspace : c ≠ ' ' := by
        rintro rfl
        cases hc
      split
      · rename_i h
        cases h
        exact absurd rfl hspace
      · rfl

/-- A text that ends with a word. What is in front of its first word is left out. -/
theorem collapse_dropWhile (hlast : ∀ x, cs.getLast? = some x → isBlank x = false) :
    collapse (cs.dropWhile isBlank) = [' '].intercalate (words cs) := by
  induction cs with
  | nil => rfl
  | cons c cs ih =>
    cases cs with
    | nil =>
      have hc : isBlank c = false := hlast c rfl
      rw [List.dropWhile_cons_of_neg (by simp [hc]), collapse_cons_of_not_blank hc,
        words_of_not_blank (by simp) (by simpa using hc)]
      rfl
    | cons d cs =>
      have ih := ih (by simpa [List.getLast?_cons_cons] using hlast)
      cases hc : isBlank c with
      | true => rw [List.dropWhile_cons_of_pos hc, ih, words_cons_blank hc]
      | false =>
        rw [List.dropWhile_cons_of_neg (by simp [hc]), collapse_cons_of_not_blank hc]
        cases hd : isBlank d with
        | true =>
          -- The word ends here, and another one follows, since the text ends with one.
          have hne : words (d :: cs) ≠ [] := by
            refine words_ne_nil (List.getLast_mem (List.cons_ne_nil d cs)) (hlast _ ?_)
            rw [List.getLast?_cons_cons, List.getLast?_eq_some_getLast]
          have hwords : words (c :: d :: cs) = [c] :: words (d :: cs) := by
            rw [words_cons_blank hd]
            exact (words_append_blank hd [c] cs).trans
              (congrArg (· ++ words cs) (words_of_not_blank (by simp) (by simpa using hc)))
          rw [collapse_cons_blank hd, ← List.dropWhile_cons_of_pos hd, ih, hwords,
            List.intercalate_cons_of_ne_nil hne]
          rfl
        | false =>
          obtain ⟨w, ws, hwords, hmore⟩ := words_cons_cons hc hd cs
          rw [List.dropWhile_cons_of_neg (by simp [hd]), hwords] at ih
          rw [ih, hmore]
          cases ws with
          | nil => rfl
          | cons v ws => rw [List.intercalate_cons_cons, List.intercalate_cons_cons]; rfl

theorem collapse_trim (cs : List Char) : collapse (trim cs) = [' '].intercalate (words cs) := by
  rw [← dropWhile_trim, collapse_dropWhile fun _ => not_blank_getLast_trim, words_trim]

theorem joinWith_space (ws : List (List Char)) :
    joinWith " " (ws.map String.ofList) = String.ofList ([' '].intercalate ws) := by
  induction ws with
  | nil => rfl
  | cons w ws ih =>
    cases ws with
    | nil => simp [joinWith]
    | cons v ws =>
      show String.ofList w ++ " " ++ joinWith " " ((v :: ws).map String.ofList) = _
      rw [ih, List.intercalate_cons_cons, String.ofList_append, String.ofList_append]

/-- Joined by spaces, the words still have every character that is not white space. -/
theorem mem_intercalate_words {x : Char} (hx : x ∈ cs) (hblank : isBlank x = false) :
    x ∈ [' '].intercalate (words cs) := by
  have hflatten : ∀ ws : List (List Char), x ∈ ws.flatten → x ∈ [' '].intercalate ws := by
    intro ws
    induction ws with
    | nil => exact id
    | cons w ws ih =>
      intro hmem
      cases ws with
      | nil => simpa using hmem
      | cons v ws =>
        rw [List.intercalate_cons_cons, List.append_assoc]
        rcases List.mem_append.1 hmem with hw | hws
        · exact List.mem_append_left _ hw
        · exact List.mem_append_right _ (List.mem_append_right _ (ih hws))
  exact hflatten _ (by simp [flatten_words, hx, hblank])

end Text
end ChainLint
