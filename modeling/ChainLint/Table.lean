/-!
# ChainLint.Table

Tables that remember the order of their keys.

* `put`: a new key goes last, a known one keeps its place.
* `erase`: forgets a key, so that putting it again makes it the last.
* `get?_put`, `get?_erase`: what the operations do to a look-up.
* `nodup_keys_put`, `nodup_keys_erase`: no operation repeats a key.
* `distinct`, `groupBy`: the values of a list under their keys, in the order of first appearance.
-/

namespace ChainLint

abbrev Table (α β : Type) := List (α × β)

namespace Table

variable {α β : Type} [DecidableEq α]

def get? (k : α) : Table α β → Option β
  | [] => none
  | e :: t => if e.1 = k then some e.2 else get? k t

def put (k : α) (v : β) : Table α β → Table α β
  | [] => [(k, v)]
  | e :: t => if e.1 = k then (k, v) :: t else e :: put k v t

def erase (k : α) (t : Table α β) : Table α β := t.filter (fun e => e.1 ≠ k)

def keys (t : Table α β) : List α := t.map Prod.fst

def values (t : Table α β) : List β := t.map Prod.snd

theorem get?_put (k j : α) (v : β) (t : Table α β) :
    get? j (put k v t) = if j = k then some v else get? j t := by
  induction t with
  | nil =>
    by_cases h : j = k
    · simp [put, get?, h]
    · have h' : ¬k = j := fun e => h e.symm
      simp [put, get?, h, h']
  | cons e t ih =>
    by_cases he : e.1 = k
    · by_cases h : j = k
      · simp [put, get?, he, h]
      · have h' : ¬k = j := fun e => h e.symm
        simp [put, get?, he, h, h']
    · by_cases hj : e.1 = j
      · have h : ¬j = k := fun e' => he (hj.trans e')
        simp [put, get?, hj, h]
      · simp [put, get?, he, hj, ih]

theorem get?_erase (k j : α) (t : Table α β) :
    get? j (erase k t) = if j = k then none else get? j t := by
  induction t with
  | nil => simp [erase, get?]
  | cons e t ih =>
    have ih' : get? j (t.filter (fun e => e.1 ≠ k)) = if j = k then none else get? j t := ih
    by_cases he : e.1 = k
    · have hf : erase k (e :: t) = t.filter (fun e => e.1 ≠ k) := by simp [erase, he]
      rw [hf, ih']
      by_cases h : j = k
      · simp [h]
      · have h' : ¬e.1 = j := fun e' => h (e'.symm.trans he)
        simp [h, get?, h']
    · have hf : erase k (e :: t) = e :: t.filter (fun e => e.1 ≠ k) := by simp [erase, he]
      rw [hf, get?, ih', get?]
      by_cases hj : e.1 = j
      · have h : ¬j = k := fun e' => he (hj.trans e')
        simp [hj, h]
      · simp [hj]

theorem mem_keys_put {k x : α} {v : β} {t : Table α β} :
    x ∈ (put k v t).keys ↔ x = k ∨ x ∈ t.keys := by
  induction t with
  | nil => simp [put, keys]
  | cons e t ih =>
    have ih' : x ∈ (put k v t).map Prod.fst ↔ x = k ∨ x ∈ t.map Prod.fst := ih
    by_cases he : e.1 = k
    · simp [put, keys, he]
    · simp only [put, keys, he, if_false, List.map_cons, List.mem_cons, ih']
      constructor
      · rintro (h | h | h)
        · exact .inr (.inl h)
        · exact .inl h
        · exact .inr (.inr h)
      · rintro (h | h | h)
        · exact .inr (.inl h)
        · exact .inl h
        · exact .inr (.inr h)

theorem nodup_keys_put {k : α} {v : β} {t : Table α β} (h : t.keys.Nodup) :
    (put k v t).keys.Nodup := by
  induction t with
  | nil => simp [put, keys]
  | cons e t ih =>
    obtain ⟨hn, ht⟩ := List.nodup_cons.1 h
    by_cases he : e.1 = k
    · have hk : (put k v (e :: t)).keys = e.1 :: keys t := by simp [put, keys, he]
      rw [hk]
      exact List.nodup_cons.2 ⟨hn, ht⟩
    · have hk : (put k v (e :: t)).keys = e.1 :: (put k v t).keys := by simp [put, keys, he]
      rw [hk]
      refine List.nodup_cons.2 ⟨fun hm => ?_, ih ht⟩
      rcases mem_keys_put.1 hm with h | h
      · exact he h
      · exact hn h

theorem nodup_keys_erase {k : α} {t : Table α β} (h : t.keys.Nodup) :
    (erase k t).keys.Nodup :=
  List.Pairwise.sublist (List.filter_sublist.map Prod.fst) h

end Table

/-- The members of a list without repetition, in the order of first appearance. -/
def distinct {α : Type} [DecidableEq α] : List α → List α
  | [] => []
  | x :: xs => x :: (distinct xs).filter (fun y => y ≠ x)

/-- The members of a list under their keys. -/
def groupBy {α β : Type} [DecidableEq α] (key : β → α) (l : List β) : Table α (List β) :=
  (distinct (l.map key)).map (fun k => (k, l.filter (fun x => key x = k)))

end ChainLint
