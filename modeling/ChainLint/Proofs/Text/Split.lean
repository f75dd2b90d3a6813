import ChainLint.Text.Units
import Mathlib.Data.List.Basic

/-!
# ChainLint.Proofs.Text.Split

Texts split at a separator.

* `splitChars_append`: what stands in front of the first separator is the first piece.
* `not_mem_of_mem_splitChars`: no piece holds a separator. `mem_of_mem_splitChars`: what is in a
  piece is in the text.
* `IsPiece`: a stretch between two separators, or an end, and how many separators are in front of
  it. `getElem?_splitChars`: these are the pieces, each at its number.
-/

namespace ChainLint
namespace Text

theorem splitChars_ne_nil (sep : Char) (cs : List Char) : splitChars sep cs ≠ [] := by
  cases cs with
  | nil => simp [splitChars]
  | cons c cs =>
    rw [splitChars]
    split
    · simp
    · split <;> simp

theorem splitChars_cons_of_ne {sep c : Char} (h : c ≠ sep) {cs : List Char} {piece : List Char}
    {pieces : List (List Char)} (hcs : splitChars sep cs = piece :: pieces) :
    splitChars sep (c :: cs) = (c :: piece) :: pieces := by
  rw [splitChars, if_neg h, hcs]

theorem splitChars_of_not_mem {sep : Char} {cs : List Char} (h : sep ∉ cs) :
    splitChars sep cs = [cs] := by
  induction cs with
  | nil => rfl
  | cons c cs ih =>
    rw [List.mem_cons, not_or] at h
    exact splitChars_cons_of_ne (Ne.symm h.1) (ih h.2)

theorem splitChars_append {sep : Char} {cs : List Char} (h : sep ∉ cs) (rest : List Char) :
    splitChars sep (cs ++ sep :: rest) = cs :: splitChars sep rest := by
  induction cs with
  | nil => simp [splitChars]
  | cons c cs ih =>
    rw [List.mem_cons, not_or] at h
    exact splitChars_cons_of_ne (Ne.symm h.1) (ih h.2)

/-- No piece holds the separator. -/
theorem not_mem_of_mem_splitChars {sep : Char} {cs piece : List Char}
    (h : piece ∈ splitChars sep cs) : sep ∉ piece := by
  induction cs generalizing piece with
  | nil =>
    rw [splitChars, List.mem_singleton] at h
    simp [h]
  | cons c cs ih =>
    obtain ⟨first, others, hcs⟩ := List.exists_cons_of_ne_nil (splitChars_ne_nil sep cs)
    by_cases hc : c = sep
    · rw [splitChars, if_pos hc, List.mem_cons] at h
      rcases h with rfl | h
      · simp
      · exact ih h
    · rw [splitChars_cons_of_ne hc hcs, List.mem_cons] at h
      rw [hcs] at ih
      rcases h with rfl | h
      · simp [Ne.symm hc, ih List.mem_cons_self]
      · exact ih (List.mem_cons_of_mem _ h)

theorem mem_of_mem_splitChars {sep c : Char} {cs piece : List Char}
    (hpiece : piece ∈ splitChars sep cs) (hc : c ∈ piece) : c ∈ cs := by
  induction cs generalizing piece with
  | nil =>
    obtain rfl := List.mem_singleton.1 hpiece
    exact hc
  | cons d cs ih =>
    by_cases hd : d = sep
    · rw [splitChars, if_pos hd] at hpiece
      rcases List.mem_cons.1 hpiece with rfl | hpiece
      · cases hc
      · exact List.mem_cons_of_mem d (ih hpiece hc)
    · obtain ⟨first, pieces, hcs⟩ := List.exists_cons_of_ne_nil (splitChars_ne_nil sep cs)
      rw [splitChars_cons_of_ne hd hcs] at hpiece
      rcases List.mem_cons.1 hpiece with rfl | hpiece
      · rcases List.mem_cons.1 hc with rfl | hc
        · exact List.mem_cons_self
        · exact List.mem_cons_of_mem d (ih (by simp [hcs]) hc)
      · exact List.mem_cons_of_mem d (ih (by simp [hcs, hpiece]) hc)

/-! ## Pieces by their number -/

/-- `piece` reaches from a separator, or the start, to a separator, or the end, holds none, and has
`n` of them in front. -/
def IsPiece (sep : Char) (cs : List Char) (n : Nat) (piece : List Char) : Prop :=
  ∃ before after, cs = before ++ piece ++ after ∧ before.count sep = n ∧ sep ∉ piece ∧
    (before = [] ∨ before.getLast? = some sep) ∧ (after = [] ∨ after.head? = some sep)

section Pieces

variable {sep c : Char} {cs piece : List Char} {n : Nat}

theorem isPiece_zero :
    IsPiece sep cs 0 piece ↔
      ∃ after, cs = piece ++ after ∧ sep ∉ piece ∧ (after = [] ∨ after.head? = some sep) := by
  constructor
  · rintro ⟨before, after, rfl, hcount, hpiece, hbefore, hafter⟩
    have hempty : before = [] := by
      rcases hbefore with hempty | hlast
      · exact hempty
      · exact (List.count_eq_zero.1 hcount (List.mem_of_getLast? hlast)).elim
    rw [hempty, List.nil_append]
    exact ⟨after, rfl, hpiece, hafter⟩
  · rintro ⟨after, rfl, hpiece, hafter⟩
    exact ⟨[], after, rfl, rfl, hpiece, .inl rfl, hafter⟩

/-- A separator in front only counts. -/
theorem isPiece_cons_self : IsPiece sep (sep :: cs) (n + 1) piece ↔ IsPiece sep cs n piece := by
  constructor
  · rintro ⟨before, after, hcs, hcount, hpiece, hbefore, hafter⟩
    cases before with
    | nil => cases hcount
    | cons b before =>
      obtain ⟨rfl, rfl⟩ := List.cons.inj hcs
      rw [List.count_cons_self, Nat.add_right_cancel_iff] at hcount
      refine ⟨before, after, rfl, hcount, hpiece, ?_, hafter⟩
      cases before with
      | nil => exact .inl rfl
      | cons d before => exact .inr (by simpa using hbefore)
  · rintro ⟨before, after, rfl, hcount, hpiece, hbefore, hafter⟩
    refine ⟨sep :: before, after, rfl, ?_, hpiece, .inr ?_, hafter⟩
    · rw [List.count_cons_self, hcount]
    · rcases hbefore with rfl | hlast
      · rfl
      · rw [List.getLast?_cons, hlast, Option.getD_some]

/-- Another character in front belongs to the first piece. -/
theorem isPiece_cons_of_ne (h : c ≠ sep) :
    IsPiece sep (c :: cs) (n + 1) piece ↔ IsPiece sep cs (n + 1) piece := by
  constructor
  · rintro ⟨before, after, hcs, hcount, hpiece, hbefore, hafter⟩
    cases before with
    | nil => cases hcount
    | cons b before =>
      obtain ⟨rfl, rfl⟩ := List.cons.inj hcs
      rw [List.count_cons_of_ne h] at hcount
      refine ⟨before, after, rfl, hcount, hpiece, .inr ?_, hafter⟩
      cases before with
      | nil => cases hcount
      | cons d before => simpa using hbefore
  · rintro ⟨before, after, rfl, hcount, hpiece, hbefore, hafter⟩
    refine ⟨c :: before, after, rfl, ?_, hpiece, .inr ?_, hafter⟩
    · rw [List.count_cons_of_ne h, hcount]
    · rcases hbefore with rfl | hlast
      · cases hcount
      · rw [List.getLast?_cons, hlast, Option.getD_some]

theorem getElem?_splitChars_of_isPiece (h : IsPiece sep cs 0 piece) :
    (splitChars sep cs)[0]? = some piece := by
  obtain ⟨after, rfl, hpiece, hafter⟩ := isPiece_zero.1 h
  cases after with
  | nil =>
    rw [List.append_nil, splitChars_of_not_mem hpiece]
    rfl
  | cons a after =>
    have ha : a = sep := by simpa using hafter
    rw [ha, splitChars_append hpiece]
    rfl

theorem exists_isPiece_zero (sep : Char) (cs : List Char) : ∃ piece, IsPiece sep cs 0 piece := by
  induction cs with
  | nil => exact ⟨[], isPiece_zero.2 ⟨[], rfl, List.not_mem_nil, .inl rfl⟩⟩
  | cons c cs ih =>
    by_cases hc : c = sep
    · exact ⟨[], isPiece_zero.2 ⟨c :: cs, rfl, List.not_mem_nil, .inr (congrArg some hc)⟩⟩
    · obtain ⟨piece, hpiece⟩ := ih
      obtain ⟨after, rfl, hnone, hafter⟩ := isPiece_zero.1 hpiece
      refine ⟨c :: piece, isPiece_zero.2 ⟨after, rfl, ?_, hafter⟩⟩
      simp [Ne.symm hc, hnone]

theorem getElem?_splitChars_zero :
    (splitChars sep cs)[0]? = some piece ↔ IsPiece sep cs 0 piece := by
  refine ⟨fun h => ?_, getElem?_splitChars_of_isPiece⟩
  -- The first piece there is can only be the one that is found.
  obtain ⟨first, hfirst⟩ := exists_isPiece_zero sep cs
  rw [getElem?_splitChars_of_isPiece hfirst] at h
  rw [← Option.some.inj h]
  exact hfirst

/-- The pieces of a text are found at their numbers. -/
theorem getElem?_splitChars : (splitChars sep cs)[n]? = some piece ↔ IsPiece sep cs n piece := by
  induction cs generalizing n with
  | nil =>
    cases n with
    | zero => exact getElem?_splitChars_zero
    | succ n =>
      refine ⟨nofun, ?_⟩
      rintro ⟨before, after, hcs, hcount, -⟩
      obtain ⟨rfl, -⟩ := List.append_eq_nil_iff.1 (List.append_eq_nil_iff.1 hcs.symm).1
      cases hcount
  | cons c cs ih =>
    cases n with
    | zero => exact getElem?_splitChars_zero
    | succ n =>
      by_cases hc : c = sep
      · rw [splitChars, if_pos hc, List.getElem?_cons_succ, ih, hc, isPiece_cons_self]
      · obtain ⟨first, others, hcs⟩ := List.exists_cons_of_ne_nil (splitChars_ne_nil sep cs)
        rw [splitChars_cons_of_ne hc hcs, List.getElem?_cons_succ, isPiece_cons_of_ne hc, ← ih, hcs,
          List.getElem?_cons_succ]

/-- The same for texts, in particular for lines. -/
theorem getElem?_splitAt {s text : String} :
    (splitAt sep s)[n]? = some text ↔ IsPiece sep s.toList n text.toList := by
  rw [splitAt, List.getElem?_map, ← getElem?_splitChars, Option.map_eq_some_iff]
  constructor
  · rintro ⟨piece, hpiece, rfl⟩
    rw [hpiece, String.toList_ofList]
  · intro hpiece
    exact ⟨text.toList, hpiece, String.ofList_toList⟩

end Pieces
end Text
end ChainLint
