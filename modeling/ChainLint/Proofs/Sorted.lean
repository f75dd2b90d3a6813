import ChainLint.Sorted
import Mathlib.Data.List.Sort

/-!
# ChainLint.Proofs.Sorted

What a stable sort does.

* `sortBy_perm`: it loses nothing and adds nothing.
* `sortBy_pairwise`: it leaves no element in front of one that it may not precede.
* `sortBy_sublist`: a part of a list, sorted, is a part of the list, sorted.
* `sortBy_filter`, `sortBy_stable`: it does not change the order of equal ones, among those of a
  part of the list and between any two.
* `sortBy_partition`: a list in order, of which some elements were put last, is restored, unless one
  of them is equal to one it has been moved behind.
* `sortBy_map`: elements may be sorted by what a function makes of them.
-/

namespace ChainLint

variable {α β : Type} {le : α → α → Bool}

theorem insertBy_eq_orderedInsert (le : α → α → Bool) (x : α) (l : List α) :
    insertBy le x l = l.orderedInsert (fun a b => le a b = true) x := by
  induction l with
  | nil => rfl
  | cons y l ih => rw [insertBy, List.orderedInsert, ih]

theorem sortBy_eq_insertionSort (le : α → α → Bool) (l : List α) :
    sortBy le l = l.insertionSort (fun a b => le a b = true) := by
  induction l with
  | nil => rfl
  | cons x l ih => rw [sortBy, ih, insertBy_eq_orderedInsert, List.insertionSort_cons]

theorem sortBy_perm (le : α → α → Bool) (l : List α) : (sortBy le l).Perm l := by
  rw [sortBy_eq_insertionSort]
  exact List.perm_insertionSort _ l

theorem sortBy_pairwise (htrans : ∀ a b c, le a b = true → le b c = true → le a c = true)
    (htotal : ∀ a b, le a b = true ∨ le b a = true) (l : List α) :
    (sortBy le l).Pairwise (fun a b => le a b = true) := by
  have : Std.Total (fun a b => le a b = true) := ⟨htotal⟩
  have : IsTrans α (fun a b => le a b = true) := ⟨htrans⟩
  rw [sortBy_eq_insertionSort]
  exact List.pairwise_insertionSort _ l

/-- Leaving elements out before a sort leaves them out of what it gives. -/
theorem sortBy_sublist (htrans : ∀ a b c, le a b = true → le b c = true → le a c = true)
    (htotal : ∀ a b, le a b = true ∨ le b a = true) {l r : List α} (h : l.Sublist r) :
    (sortBy le l).Sublist (sortBy le r) := by
  have : IsTrans α (fun a b => le a b = true) := ⟨htrans⟩
  induction h with
  | slnil => exact .slnil
  | cons x _ ih =>
    rw [sortBy, insertBy_eq_orderedInsert]
    exact ih.trans (List.sublist_orderedInsert x _)
  | cons_cons x _ ih =>
    rw [sortBy, sortBy, insertBy_eq_orderedInsert, insertBy_eq_orderedInsert]
    exact ih.orderedInsert_sublist x (sortBy_pairwise htrans htotal _)

/-! ## Elements that keep their order -/

theorem insertBy_filter {p : α → Bool} {x : α} {l : List α}
    (h : ∀ y, p x = true → p y = true → le x y = true) :
    (insertBy le x l).filter p = (x :: l).filter p := by
  induction l with
  | nil => rfl
  | cons y l ih =>
    unfold insertBy
    split
    · rfl
    · rename_i hle
      cases hx : p x with
      | false => simp only [List.filter_cons, ih, hx, Bool.false_eq_true, if_false]
      | true =>
        -- `x` goes behind `y` only if the two are not kept together.
        have hy : p y = false := by
          by_contra hy
          exact hle (h y hx (by simpa using hy))
        simp only [List.filter_cons, ih, hx, hy, Bool.false_eq_true, if_false, if_true]

/-- Elements of which each may precede every other one keep their order. -/
theorem sortBy_filter {p : α → Bool} (h : ∀ x y, p x = true → p y = true → le x y = true)
    (l : List α) : (sortBy le l).filter p = l.filter p := by
  induction l with
  | nil => rfl
  | cons x l ih =>
    rw [sortBy, insertBy_filter (fun y => h x y), List.filter_cons, List.filter_cons, ih]

/-- What stands in front of an element after a sort may not follow it, or has been in front of it
before. -/
theorem insertBy_stable {num : α → Nat}
    (htrans : ∀ a b c, le a b = true → le b c = true → le a c = true) {x : α} {l : List α}
    (hl : l.Pairwise (fun a b => le a b = true ∧ (le b a = true → num a < num b)))
    (hx : ∀ y ∈ l, num x < num y) (htotal : ∀ y ∈ l, le x y = true ∨ le y x = true) :
    (insertBy le x l).Pairwise (fun a b => le a b = true ∧ (le b a = true → num a < num b)) := by
  induction l with
  | nil => exact List.pairwise_singleton _ _
  | cons y l ih =>
    obtain ⟨hy, hl'⟩ := List.pairwise_cons.1 hl
    rw [insertBy]
    split
    · rename_i hle
      refine List.pairwise_cons.2 ⟨?_, hl⟩
      intro z hz
      refine ⟨?_, fun _ => hx z hz⟩
      rcases List.mem_cons.1 hz with rfl | hz
      · exact hle
      · exact htrans x y z hle (hy z hz).1
    · rename_i hle
      refine List.pairwise_cons.2 ⟨?_, ih hl' (fun z hz => hx z (by simp [hz]))
        (fun z hz => htotal z (by simp [hz]))⟩
      intro z hz
      rcases mem_insertBy.1 hz with rfl | hz
      · exact ⟨(htotal y (by simp)).resolve_left hle, fun h => absurd h hle⟩
      · exact hy z hz

theorem sortBy_stable (le : α → α → Bool) (num : α → Nat)
    (htrans : ∀ a b c, le a b = true → le b c = true → le a c = true)
    (htotal : ∀ a b, le a b = true ∨ le b a = true) {l : List α}
    (hl : l.Pairwise (fun a b => num a < num b)) :
    (sortBy le l).Pairwise (fun a b => le a b = true ∧ (le b a = true → num a < num b)) := by
  induction l with
  | nil => exact .nil
  | cons x l ih =>
    obtain ⟨hx, hl⟩ := List.pairwise_cons.1 hl
    exact insertBy_stable htrans (ih hl) (fun y hy => hx y (mem_sortBy.1 hy))
      (fun y _ => htotal x y)

/-! ## A list that is put back in order -/

theorem insertBy_of_le {x : α} {l : List α} (h : ∀ y ∈ l, le x y = true) :
    insertBy le x l = x :: l := by
  cases l with
  | nil => rfl
  | cons y l => rw [insertBy, if_pos (h y (by simp))]

/-- An element that may precede all others and has to precede those before it comes first. -/
theorem sortBy_middle {x : α} {l r : List α} (hl : ∀ a ∈ l, le a x = false)
    (hx : ∀ y ∈ l ++ r, le x y = true) : sortBy le (l ++ x :: r) = x :: sortBy le (l ++ r) := by
  induction l with
  | nil => exact insertBy_of_le (fun y hy => hx y (by simpa using hy))
  | cons a l ih =>
    have hrest := ih (fun b hb => hl b (by simp [hb])) (fun y hy => hx y (by simp_all))
    rw [List.cons_append, sortBy, hrest, insertBy, if_neg (by simp [hl a])]
    rfl

theorem sortBy_partition {p : α → Bool} {l : List α}
    (h : l.Pairwise (fun x y => le x y = true ∧ (p x = true → p y = false → le y x = false))) :
    sortBy le (l.filter (fun x => !p x) ++ l.filter p) = l := by
  induction l with
  | nil => rfl
  | cons x l ih =>
    obtain ⟨hx, hl⟩ := List.pairwise_cons.1 h
    cases hp : p x with
    -- The head was put behind elements that it precedes strictly, and the sort brings it back.
    | true =>
      rw [List.filter_cons_of_neg (by simp [hp]), List.filter_cons_of_pos hp, sortBy_middle, ih hl]
      · intro a ha
        obtain ⟨ha, hpa⟩ := List.mem_filter.1 ha
        exact (hx a ha).2 hp (by simpa using hpa)
      · intro y hy
        refine (hx y ?_).1
        rcases List.mem_append.1 hy with hy | hy
        · exact List.mem_of_mem_filter hy
        · exact List.mem_of_mem_filter hy
    | false =>
      rw [List.filter_cons_of_pos (by simp [hp]), List.filter_cons_of_neg (by simp [hp]),
        List.cons_append, sortBy, ih hl]
      exact insertBy_of_le (fun y hy => (hx y hy).1)

/-! ## Sorting by a function -/

theorem insertBy_map (le : β → β → Bool) (f : α → β) (x : α) (l : List α) :
    insertBy le (f x) (l.map f) = (insertBy (fun a b => le (f a) (f b)) x l).map f := by
  induction l with
  | nil => rfl
  | cons y l ih =>
    rw [List.map_cons, insertBy, insertBy, ih]
    split
    · rfl
    · rfl

theorem sortBy_map (le : β → β → Bool) (f : α → β) (l : List α) :
    sortBy le (l.map f) = (sortBy (fun a b => le (f a) (f b)) l).map f := by
  induction l with
  | nil => rfl
  | cons x l ih => rw [List.map_cons, sortBy, sortBy, ih, insertBy_map]

end ChainLint
