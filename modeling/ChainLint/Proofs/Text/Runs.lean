/-!
# ChainLint.Proofs.Text.Runs

The longest run of characters of a class at the front of a text.

* `isAlpha_iff`, `isDigit_iff`: the classes by code point.
* `takeWhile_run`, `dropWhile_run`: the run, and what is left of the text behind it.
-/

namespace ChainLint

theorem isAlpha_iff {x : Char} :
    x.isAlpha = true ↔ 65 ≤ x.toNat ∧ x.toNat ≤ 90 ∨ 97 ≤ x.toNat ∧ x.toNat ≤ 122 := by
  have hletter : x.isAlpha = (decide (x.val ≥ 'A'.val ∧ x.val ≤ 'Z'.val) ||
      (decide (x.val ≥ 'a'.val) && decide (x.val ≤ 'z'.val))) := rfl
  simp only [hletter, Bool.or_eq_true, Bool.and_eq_true, decide_eq_true_eq, ge_iff_le,
    UInt32.le_iff_toNat_le, Char.toNat]
  rfl

theorem isDigit_iff {x : Char} : x.isDigit = true ↔ 48 ≤ x.toNat ∧ x.toNat ≤ 57 := by
  simp only [Char.isDigit, Bool.and_eq_true, decide_eq_true_eq, ge_iff_le, UInt32.le_iff_toNat_le,
    Char.toNat]
  rfl

theorem takeWhile_eq_nil {p : Char → Bool} {l : List Char}
    (h : ∀ x more, l = x :: more → p x = false) : l.takeWhile p = [] := by
  cases l with
  | nil => rfl
  | cons x more => rw [List.takeWhile_cons_of_neg (by simp [h x more rfl])]

theorem dropWhile_eq_self {p : Char → Bool} {l : List Char}
    (h : ∀ x more, l = x :: more → p x = false) : l.dropWhile p = l := by
  cases l with
  | nil => rfl
  | cons x more => rw [List.dropWhile_cons_of_neg (by simp [h x more rfl])]

theorem takeWhile_run {p : Char → Bool} {l r : List Char} (hl : ∀ x ∈ l, p x = true)
    (hr : ∀ x more, r = x :: more → p x = false) : (l ++ r).takeWhile p = l := by
  rw [List.takeWhile_append_of_pos hl, takeWhile_eq_nil hr, List.append_nil]

theorem dropWhile_run {p : Char → Bool} {l r : List Char} (hl : ∀ x ∈ l, p x = true)
    (hr : ∀ x more, r = x :: more → p x = false) : (l ++ r).dropWhile p = r := by
  rw [List.dropWhile_append_of_pos hl, dropWhile_eq_self hr]

/-- What is left after a run does not go on with it. -/
theorem head_dropWhile {p : Char → Bool} {l more : List Char} {x : Char}
    (h : l.dropWhile p = x :: more) : p x = false := by
  have hne : l.dropWhile p ≠ [] := by simp [h]
  have hhead := List.head_dropWhile_not p hne
  simpa [h] using hhead

end ChainLint
