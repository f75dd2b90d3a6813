import ChainLint.Table
import Mathlib.Algebra.GroupWithZero.Nat
import Mathlib.Data.List.Nodup

/-!
# ChainLint.Proofs.Table

Looking up in tables.

* `mem_of_get?`: what is found is in the table. `mem_keys_iff`: something is found under each of
  the keys. `get?_of_mem`: with distinct keys, what is in the table is found.
* `put_of_get?`, `erase_of_get?`: putting what is there and forgetting what is not change nothing,
  the order of the keys included.
* `mem_groupBy`: groups and their keys come from members. `get?_groupBy`: under its key, a group is
  all members that have it.
* `FirstAppearances`: the members of a list, each once, in the order in which they come up.
  `Grouped`: the members under their keys, of which none is lost and none is there twice.
* `groupBy_rename`: groups whose keys get new names.
* `get?_foldl_put`: of values put one after the other, the last one under a key stays.
* `filter_flatMap_of_mem`: a key picks the pieces of one part out of those of all parts.
-/

namespace ChainLint

section Tables

variable {α β : Type} [DecidableEq α]

namespace Table

variable {k : α} {v : β} {t : Table α β}

theorem mem_of_get? (h : t.get? k = some v) : (k, v) ∈ t := by
  induction t with
  | nil => cases h
  | cons e t ih =>
    rw [get?] at h
    split at h
    · rename_i hk
      cases h
      rw [← hk]
      exact List.mem_cons_self
    · exact List.mem_cons_of_mem e (ih h)

theorem mem_keys_iff : k ∈ t.keys ↔ ∃ v, t.get? k = some v := by
  constructor
  · intro h
    induction t with
    | nil => cases h
    | cons e t ih =>
      rw [get?]
      split
      · exact ⟨e.2, rfl⟩
      · rename_i hk
        rcases List.mem_cons.1 h with rfl | h
        · exact absurd rfl hk
        · exact ih h
  · rintro ⟨v, h⟩
    exact List.mem_map_of_mem (mem_of_get? h)

theorem get?_of_mem (hnodup : t.keys.Nodup) (h : (k, v) ∈ t) : t.get? k = some v := by
  induction t with
  | nil => cases h
  | cons e t ih =>
    obtain ⟨hnot, hrest⟩ := List.nodup_cons.1 hnodup
    rw [get?]
    rcases List.mem_cons.1 h with rfl | h
    · exact if_pos rfl
    · have hk : e.1 ≠ k := fun hk => hnot (List.mem_map.2 ⟨(k, v), h, hk.symm⟩)
      rw [if_neg hk]
      exact ih hrest h

theorem put_of_get? (h : t.get? k = some v) : put k v t = t := by
  induction t with
  | nil => cases h
  | cons e t ih =>
    rw [get?] at h
    rw [put]
    split at h
    · rename_i hk
      cases h
      rw [if_pos hk, ← hk]
    · rename_i hk
      rw [if_neg hk, ih h]

theorem erase_of_get? (h : t.get? k = none) : erase k t = t := by
  induction t with
  | nil => rfl
  | cons e t ih =>
    rw [get?] at h
    split at h
    · cases h
    · rename_i hk
      have htail : t.filter (fun e => e.1 ≠ k) = t := ih h
      rw [erase, List.filter_cons, if_pos (by simp [hk]), htail]

/-- Values computed from their keys. -/
theorem get?_map {ks : List α} (f : α → β) :
    get? k (ks.map (fun j => (j, f j))) = if k ∈ ks then some (f k) else none := by
  induction ks with
  | nil => rfl
  | cons j ks ih =>
    rw [List.map_cons, get?, ih]
    by_cases hj : j = k
    · simp [hj]
    · simp [hj, Ne.symm hj]

theorem get?_foldl_put (key : β → α) (l : List β) (t : Table α β) (k : α) :
    (l.foldl (fun t x => put (key x) x t) t).get? k =
      ((l.filter (fun x => key x = k)).getLast?).or (t.get? k) := by
  induction l generalizing t with
  | nil => rfl
  | cons x l ih =>
    rw [List.foldl_cons, ih, get?_put, List.filter_cons]
    by_cases hx : key x = k
    · cases hlast : (l.filter (fun x => key x = k)).getLast? with
      | none => simp [hx, List.getLast?_eq_none_iff.1 hlast]
      | some y => simp [hx, List.getLast?_cons, hlast]
    · simp [hx, Ne.symm hx]

theorem nodup_keys_foldl_put (key : β → α) (l : List β) {t : Table α β} (h : t.keys.Nodup) :
    (l.foldl (fun t x => put (key x) x t) t).keys.Nodup := by
  induction l generalizing t with
  | nil => exact h
  | cons x l ih => exact ih (nodup_keys_put h)

end Table

/-! ## Groups -/

theorem mem_distinct {x : α} {l : List α} : x ∈ distinct l ↔ x ∈ l := by
  induction l with
  | nil => rfl
  | cons y l ih =>
    by_cases hx : x = y
    · simp [distinct, hx]
    · simp [distinct, hx, ih]

theorem nodup_distinct (l : List α) : (distinct l).Nodup := by
  induction l with
  | nil => exact List.nodup_nil
  | cons x l ih =>
    rw [distinct, List.nodup_cons]
    exact ⟨by simp, ih.filter _⟩

theorem keys_groupBy (key : β → α) (l : List β) :
    (groupBy key l).keys = distinct (l.map key) := by
  rw [groupBy, Table.keys, List.map_map]
  exact List.map_id _

theorem nodup_keys_groupBy (key : β → α) (l : List β) : (groupBy key l).keys.Nodup := by
  rw [keys_groupBy]
  exact nodup_distinct _

theorem mem_groupBy {key : β → α} {l : List β} {e : α × List β} (h : e ∈ groupBy key l) :
    (∃ x ∈ l, key x = e.1) ∧ ∀ x ∈ e.2, x ∈ l := by
  obtain ⟨k, hk, rfl⟩ := List.mem_map.1 h
  exact ⟨List.mem_map.1 (mem_distinct.1 hk), fun x hx => List.mem_of_mem_filter hx⟩

theorem get?_groupBy (key : β → α) (l : List β) (k : α) :
    (groupBy key l).get? k =
      if (l.filter (fun x => key x = k)).isEmpty then none
      else some (l.filter (fun x => key x = k)) := by
  have hempty : (l.filter (fun x => key x = k)).isEmpty = true ↔ k ∉ distinct (l.map key) := by
    simp [mem_distinct, List.isEmpty_iff, List.filter_eq_nil_iff]
  rw [groupBy, Table.get?_map (fun k => l.filter (fun x => key x = k))]
  by_cases hk : k ∈ distinct (l.map key)
  · rw [if_pos hk, if_neg (fun h => hempty.1 h hk)]
  · rw [if_neg hk, if_pos (hempty.2 hk)]

/-- Distinct keys, of which every member has one, take a list apart. -/
theorem perm_flatMap_filter {key : β → α} {ks : List α} {l : List β} (hks : ks.Nodup)
    (h : ∀ x ∈ l, key x ∈ ks) : (ks.flatMap fun k => l.filter (fun x => key x = k)).Perm l := by
  induction ks generalizing l with
  | nil =>
    obtain rfl : l = [] := List.eq_nil_iff_forall_not_mem.2 fun x hx => by simpa using h x hx
    exact .nil
  | cons k ks ih =>
    obtain ⟨hk, hks⟩ := List.nodup_cons.1 hks
    -- What is under the other keys is the same without the members under `k`.
    have hrest : (ks.flatMap fun j => l.filter (fun x => key x = j)) =
        ks.flatMap fun j => (l.filter (fun x => !decide (key x = k))).filter
          (fun x => key x = j) := by
      refine List.flatMap_congr ?_
      intro j hj
      rw [List.filter_filter]
      refine List.filter_congr ?_
      intro x hx
      by_cases hxj : key x = j
      · have hjk : j ≠ k := fun heq => hk (heq ▸ hj)
        simp [hxj, hjk]
      · simp [hxj]
    have hothers : ∀ x ∈ l.filter (fun x => !decide (key x = k)), key x ∈ ks := by
      intro x hx
      obtain ⟨hx, hne⟩ := List.mem_filter.1 hx
      have hne : key x ≠ k := by simpa using hne
      exact (List.mem_cons.1 (h x hx)).resolve_left hne
    rw [List.flatMap_cons, hrest]
    exact ((ih hks hothers).append_left _).trans (List.filter_append_perm _ l)

/-- The members of `l` under their keys: each key once, with all that have it in their order. -/
structure Grouped (key : β → α) (l : List β) (groups : Table α (List β)) : Prop where
  nodup : groups.keys.Nodup
  mem_keys : ∀ k, k ∈ groups.keys ↔ k ∈ l.map key
  members : ∀ g ∈ groups, g.2 = l.filter (fun x => key x = g.1)

namespace Grouped

variable {key : β → α} {l : List β} {groups groups' : Table α (List β)}

/-- No member is lost, and none is there twice. -/
theorem perm (h : Grouped key l groups) : (groups.flatMap Prod.snd).Perm l := by
  have hmembers : groups.flatMap Prod.snd =
      groups.keys.flatMap fun k => l.filter (fun x => key x = k) := by
    rw [Table.keys, List.flatMap_map]
    exact List.flatMap_congr h.members
  rw [hmembers]
  refine perm_flatMap_filter h.nodup ?_
  intro x hx
  exact (h.mem_keys _).2 (List.mem_map_of_mem hx)

end Grouped

section rename

variable {γ : Type} [DecidableEq γ] {f : α → γ}

theorem distinct_map {l : List α} (hf : ∀ x ∈ l, ∀ y ∈ l, f x = f y → x = y) :
    distinct (l.map f) = (distinct l).map f := by
  induction l with
  | nil => rfl
  | cons x l ih =>
    have hrest : ∀ a ∈ l, ∀ b ∈ l, f a = f b → a = b :=
      fun a ha b hb => hf a (List.mem_cons_of_mem x ha) b (List.mem_cons_of_mem x hb)
    rw [List.map_cons, distinct, distinct, ih hrest, List.map_cons, List.filter_map]
    refine congrArg (f x :: ·) (congrArg (List.map f) (List.filter_congr fun y hy => ?_))
    have hy : y ∈ x :: l := List.mem_cons_of_mem x (mem_distinct.1 hy)
    have hiff : f y = f x ↔ y = x := ⟨hf y hy x List.mem_cons_self, congrArg f⟩
    simp [hiff]

/-- New names for the keys, no two with the same, leave the groups as they are. -/
theorem groupBy_rename {key : β → α} {l : List β}
    (hf : ∀ x ∈ l, ∀ y ∈ l, f (key x) = f (key y) → key x = key y) :
    groupBy (fun x => f (key x)) l = (groupBy key l).map (fun g => (f g.1, g.2)) := by
  have hkeys : distinct (l.map fun x => f (key x)) = (distinct (l.map key)).map f := by
    rw [← distinct_map, List.map_map]
    · rfl
    · simpa using hf
  rw [groupBy, groupBy, hkeys, List.map_map, List.map_map]
  refine List.map_congr_left fun k hk => ?_
  obtain ⟨y, hy, rfl⟩ := List.mem_map.1 (mem_distinct.1 hk)
  refine congrArg (f (key y), ·) (List.filter_congr fun x hx => ?_)
  have hiff : f (key x) = f (key y) ↔ key x = key y := ⟨hf x hx y hy, congrArg f⟩
  simp [hiff]

end rename

end Tables

/-! ## Parts put together -/

section Parts

variable {γ β κ : Type} [DecidableEq κ] {l : List γ} {name : γ → κ} {pieces : γ → List β}
  {key : β → κ}

theorem filter_flatMap_of_not_mem (hkey : ∀ a ∈ l, ∀ x ∈ pieces a, key x = name a) {k : κ}
    (hk : k ∉ l.map name) : (l.flatMap pieces).filter (fun x => key x = k) = [] := by
  rw [List.filter_eq_nil_iff]
  intro x hx heq
  obtain ⟨a, ha, hxa⟩ := List.mem_flatMap.1 hx
  refine hk (List.mem_map.2 ⟨a, ha, ?_⟩)
  rw [← hkey a ha x hxa]
  exact of_decide_eq_true heq

/-- With distinct names, the pieces under the name of a part are the pieces of that part. -/
theorem filter_flatMap_of_mem (hkey : ∀ a ∈ l, ∀ x ∈ pieces a, key x = name a)
    (hnodup : (l.map name).Nodup) {a : γ} (ha : a ∈ l) :
    (l.flatMap pieces).filter (fun x => key x = name a) = pieces a := by
  induction l with
  | nil => cases ha
  | cons b l ih =>
    obtain ⟨hb, hl⟩ := List.forall_mem_cons.1 hkey
    obtain ⟨hnot, hrest⟩ := List.nodup_cons.1 hnodup
    rw [List.flatMap_cons, List.filter_append]
    rcases List.mem_cons.1 ha with rfl | ha
    · rw [filter_flatMap_of_not_mem hl hnot, List.append_nil]
      exact List.filter_eq_self.2 fun x hx => decide_eq_true (hb x hx)
    · have hne : name b ≠ name a := fun heq => hnot (List.mem_map.2 ⟨a, ha, heq.symm⟩)
      have hnone : (pieces b).filter (fun x => key x = name a) = [] := by
        rw [List.filter_eq_nil_iff]
        intro x hx
        simp [hb x hx, hne]
      rw [hnone, List.nil_append]
      exact ih hl hrest ha

end Parts

end ChainLint
