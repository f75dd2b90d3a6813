/-!
# ChainLint.Sorted

A stable sort by insertion, structural in the list so that closed instances reduce.

* `insertBy`: puts an element in front of the first one it may precede.
* `sortBy`: equal elements keep their order.
-/

namespace ChainLint

def insertBy {α : Type} (le : α → α → Bool) (x : α) : List α → List α
  | [] => [x]
  | y :: ys => if le x y then x :: y :: ys else y :: insertBy le x ys

def sortBy {α : Type} (le : α → α → Bool) : List α → List α
  | [] => []
  | x :: xs => insertBy le x (sortBy le xs)

theorem mem_insertBy {α : Type} {le : α → α → Bool} {x z : α} {ys : List α} :
    z ∈ insertBy le x ys ↔ z = x ∨ z ∈ ys := by
  induction ys with
  | nil => simp [insertBy]
  | cons y ys ih =>
    unfold insertBy
    split
    · simp
    · simp only [List.mem_cons, ih]
      constructor
      · rintro (h | h | h) <;> simp [h]
      · rintro (h | h | h) <;> simp [h]

@[simp] theorem mem_sortBy {α : Type} {le : α → α → Bool} {z : α} {xs : List α} :
    z ∈ sortBy le xs ↔ z ∈ xs := by
  induction xs with
  | nil => simp [sortBy]
  | cons x xs ih => simp [sortBy, mem_insertBy, ih]

end ChainLint
