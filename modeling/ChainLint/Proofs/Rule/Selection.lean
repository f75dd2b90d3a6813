import ChainLint.Config
import Mathlib.Data.List.Basic

/-!
# ChainLint.Proofs.Rule.Selection

Which ids a selection enables.

* `longestMatch_ge_iff`: a list has a beginning of an id of at least some length exactly when its
  longest one is that long.
* `isEnabled_iff`: an id is enabled by one selected beginning that is longer than every ignored one.
  The lists count as sets: `isEnabled_mono`.
* `enabled_by_longest_beginning`: the rule, and what it says of longer lists and merged settings.
-/

namespace ChainLint

/-! ## Lengths of beginnings -/

namespace Text

theorem widthOf_cons (c : Char) (cs : List Char) : widthOf (c :: cs) = width c + widthOf cs := by
  have hfold : ∀ (cs : List Char) (n : Nat),
      cs.foldl (fun n c => n + width c) n = n + widthOf cs := by
    intro cs
    induction cs with
    | nil => exact fun n => rfl
    | cons d cs ih =>
      intro n
      rw [widthOf, List.foldl_cons, List.foldl_cons, ih, ih (0 + width d), Nat.zero_add,
        Nat.add_assoc]
  rw [widthOf, List.foldl_cons, hfold, Nat.zero_add]

theorem widthOf_append (cs ds : List Char) : widthOf (cs ++ ds) = widthOf cs + widthOf ds := by
  induction cs with
  | nil => exact (Nat.zero_add _).symm
  | cons c cs ih => rw [List.cons_append, widthOf_cons, widthOf_cons, ih, Nat.add_assoc]

theorem widthOf_pos_iff {cs : List Char} : 0 < widthOf cs ↔ 0 < cs.length := by
  cases cs with
  | nil => exact Iff.rfl
  | cons c cs =>
    have hc : 0 < width c := by
      unfold width
      split <;> decide
    rw [widthOf_cons, List.length_cons]
    omega

/-- Of two beginnings of a text, the one with fewer characters is the one with fewer units. -/
theorem length_lt_iff {s p q : String} (hp : startsWith s p = true) (hq : startsWith s q = true) :
    length q < length p ↔ q.length < p.length := by
  rw [startsWith, List.isPrefixOf_iff_prefix] at hp hq
  rw [length, length, ← String.length_toList, ← String.length_toList]
  rcases List.prefix_or_prefix_of_prefix hp hq with ⟨rest, hrest⟩ | ⟨rest, hrest⟩
  · rw [← hrest, widthOf_append, List.length_append]
    omega
  · have hpos : 0 < widthOf rest ↔ 0 < rest.length := widthOf_pos_iff
    rw [← hrest, widthOf_append, List.length_append]
    omega

end Text

namespace Selection

variable {id : String} {entries : List String} {s s' : Selection}

/-! ## The longest beginning -/

/-- The longest beginning so far, with one entry more. -/
def longer (id : String) (best : Option Nat) (p : String) : Option Nat :=
  if Text.startsWith id p then
    match best with
    | some n => some (max n p.length)
    | none => some p.length
  else best

theorem longer_ge_iff {best : Option Nat} {p : String} {n : Nat} :
    (∃ m ∈ longer id best p, n ≤ m) ↔
      (∃ m ∈ best, n ≤ m) ∨ Text.startsWith id p = true ∧ n ≤ p.length := by
  unfold longer
  cases hp : Text.startsWith id p with
  | false => simp
  | true =>
    cases best with
    | none => simp
    | some m =>
      have hmax : n ≤ max m p.length ↔ n ≤ m ∨ n ≤ p.length := by omega
      simp [hmax]

theorem foldl_longer_ge_iff {best : Option Nat} {n : Nat} :
    (∃ m ∈ entries.foldl (longer id) best, n ≤ m) ↔
      (∃ m ∈ best, n ≤ m) ∨ ∃ p ∈ entries, Text.startsWith id p = true ∧ n ≤ p.length := by
  induction entries generalizing best with
  | nil => simp
  | cons p entries ih =>
    rw [List.foldl_cons, ih, longer_ge_iff, or_assoc]
    simp

/-- The longest beginning is at least as long as `n` when some beginning is. -/
theorem longestMatch_ge_iff {n : Nat} :
    (∃ m ∈ longestMatch id entries, n ≤ m) ↔
      ∃ p ∈ entries, Text.startsWith id p = true ∧ n ≤ p.length := by
  have hfold : longestMatch id entries = entries.foldl (longer id) none := rfl
  rw [hfold, foldl_longer_ge_iff]
  simp

/-- What is selected. -/
def chosen (s : Selection) : List String := if s.select = [] then ["PMC"] else s.select

theorem isEnabled_eq (s : Selection) (id : String) :
    s.isEnabled id = true ↔
      ∃ n ∈ longestMatch id s.chosen, ∀ m ∈ longestMatch id s.ignore, m < n := by
  have hchosen : (if s.select.isEmpty then default else s.select) = s.chosen := by
    simp only [chosen, default, List.isEmpty_iff]
  simp only [isEnabled, hchosen]
  cases longestMatch id s.chosen with
  | none => simp
  | some n => cases longestMatch id s.ignore <;> simp

/-- An id is enabled when some selected beginning of it is longer than every ignored one. -/
theorem isEnabled_iff :
    s.isEnabled id = true ↔ ∃ p ∈ s.chosen, Text.startsWith id p = true ∧
      ∀ q ∈ s.ignore, Text.startsWith id q = true → Text.length q < Text.length p := by
  rw [isEnabled_eq]
  constructor
  · rintro ⟨n, hn, hless⟩
    obtain ⟨p, hp, hbegins, hle⟩ := longestMatch_ge_iff.1 ⟨n, hn, Nat.le_refl n⟩
    refine ⟨p, hp, hbegins, fun q hq hbegins' => ?_⟩
    obtain ⟨m, hm, hqm⟩ := longestMatch_ge_iff.2 ⟨q, hq, hbegins', Nat.le_refl _⟩
    have := hless m hm
    rw [Text.length_lt_iff hbegins hbegins']
    omega
  · rintro ⟨p, hp, hbegins, hless⟩
    obtain ⟨n, hn, hpn⟩ := longestMatch_ge_iff.2 ⟨p, hp, hbegins, Nat.le_refl _⟩
    refine ⟨n, hn, fun m hm => ?_⟩
    obtain ⟨q, hq, hbegins', hle⟩ := longestMatch_ge_iff.1 ⟨m, hm, Nat.le_refl m⟩
    have := (Text.length_lt_iff hbegins hbegins').1 (hless q hq hbegins')
    omega

/-- With nothing less selected and nothing more ignored, no id is lost. -/
theorem isEnabled_mono (hchosen : s.chosen ⊆ s'.chosen)
    (hignore : ∀ q ∈ s'.ignore, Text.startsWith id q = true → q ∈ s.ignore)
    (h : s.isEnabled id = true) : s'.isEnabled id = true := by
  rw [isEnabled_iff] at h ⊢
  obtain ⟨p, hp, hbegins, hless⟩ := h
  exact ⟨p, hchosen hp, hbegins, fun q hq hbegins' => hless q (hignore q hq hbegins') hbegins'⟩

theorem chosen_of_ne_nil (h : s.select ≠ []) : s.chosen = s.select := if_neg h

theorem chosen_subset (hne : s.select ≠ []) (h : s.select ⊆ s'.select) : s.chosen ⊆ s'.chosen := by
  have hne' : s'.select ≠ [] := fun hnone => hne (List.subset_nil.1 (hnone ▸ h))
  rw [chosen_of_ne_nil hne, chosen_of_ne_nil hne']
  exact h

theorem isEnabled_of_mem_iff (hselect : ∀ p, p ∈ s.select ↔ p ∈ s'.select)
    (hignore : ∀ q, q ∈ s.ignore ↔ q ∈ s'.ignore) (h : s.isEnabled id = true) :
    s'.isEnabled id = true := by
  refine isEnabled_mono ?_ (fun q hq _ => (hignore q).2 hq) h
  by_cases hnone : s.select = []
  · have hnone' : s'.select = [] :=
      List.eq_nil_iff_forall_not_mem.2 fun p hp => by simpa [hnone] using (hselect p).2 hp
    rw [chosen, chosen, if_pos hnone, if_pos hnone']
    exact List.Subset.refl _
  · exact chosen_subset hnone fun p hp => (hselect p).1 hp

/-! ## The rule -/

/-- An id is enabled when some selected beginning of it is longer than every ignored one, and
nothing selected means all of `PMC`. So order and repetitions of the lists do not matter; what is
ignored in addition enables nothing; what is selected in addition, when something was selected
before, disables nothing. With settings merged that both select something, what is enabled was
selected by one of them, and what the first one enables stays enabled unless the second one ignores
a beginning of it. -/
theorem enabled_by_longest_beginning (id : String) :
    (∀ s : Selection, s.isEnabled id = true ↔
      ∃ p ∈ if s.select = [] then ["PMC"] else s.select, Text.startsWith id p = true ∧
        ∀ q ∈ s.ignore, Text.startsWith id q = true → Text.length q < Text.length p) ∧
    (∀ s s' : Selection, (∀ p, p ∈ s.select ↔ p ∈ s'.select) →
      (∀ q, q ∈ s.ignore ↔ q ∈ s'.ignore) → s.isEnabled id = s'.isEnabled id) ∧
    (∀ select ignore ignore', ignore ⊆ ignore' → isEnabled ⟨select, ignore'⟩ id = true →
      isEnabled ⟨select, ignore⟩ id = true) ∧
    (∀ select select' ignore, select ≠ [] → select ⊆ select' →
      isEnabled ⟨select, ignore⟩ id = true → isEnabled ⟨select', ignore⟩ id = true) ∧
    ∀ (base : Config) (more : Overrides), base.select ≠ [] → more.select ≠ [] →
      ((base.merge more).selection.isEnabled id = true →
        ∃ p, (p ∈ base.select ∨ p ∈ more.select) ∧ Text.startsWith id p = true) ∧
      (base.selection.isEnabled id = true → (∀ q ∈ more.ignore, Text.startsWith id q = false) →
        (base.merge more).selection.isEnabled id = true) := by
  refine ⟨fun s => isEnabled_iff, ?_, ?_, ?_, ?_⟩
  · intro s s' hselect hignore
    rw [Bool.eq_iff_iff]
    exact ⟨isEnabled_of_mem_iff hselect hignore,
      isEnabled_of_mem_iff (fun p => (hselect p).symm) (fun q => (hignore q).symm)⟩
  · intro select ignore ignore' hmore
    exact isEnabled_mono (List.Subset.refl _) fun q hq _ => hmore hq
  · intro select select' ignore hne hmore
    exact isEnabled_mono (chosen_subset hne hmore) fun q hq _ => hq
  · intro base more hbase hmore
    constructor
    · intro h
      obtain ⟨p, hp, hbegins, -⟩ := isEnabled_iff.1 h
      rw [chosen_of_ne_nil (List.append_ne_nil_of_left_ne_nil hbase more.select)] at hp
      exact ⟨p, List.mem_append.1 hp, hbegins⟩
    · intro h hnone
      refine isEnabled_mono (chosen_subset hbase (List.subset_append_left _ _)) ?_ h
      intro q hq hbegins
      rcases List.mem_append.1 hq with hq | hq
      · exact hq
      · rw [hnone q hq] at hbegins
        cases hbegins

/-- Selected as a whole, an id is enabled though its group is ignored, in whatever order, and also
after a merge; ignored as a whole, it is not. -/
theorem enabled_by_longest_beginning_whole :
    let base : Config := { select := ["PMC001"] }
    let more : Overrides := { select := ["PMC003"], ignore := ["PMC003", "PMC002"] }
    isEnabled ⟨["PMC", "PMC001"], ["PMC00"]⟩ "PMC001" = true ∧
    isEnabled ⟨["PMC", "PMC001"], ["PMC00"]⟩ "PMC001" =
      isEnabled ⟨["PMC001", "PMC", "PMC"], ["PMC00", "PMC00"]⟩ "PMC001" ∧
    ¬ isEnabled ⟨["PMC001"], ["PMC", "PMC001"]⟩ "PMC001" = true ∧
    isEnabled ⟨["PMC", "PMC001"], []⟩ "PMC001" = true ∧
    isEnabled ⟨["PMC001", "X"], ["PMC00"]⟩ "PMC001" = true ∧
    (base.merge more).selection.isEnabled "PMC001" = true ∧
    ∃ p, (p ∈ base.select ∨ p ∈ more.select) ∧ Text.startsWith "PMC001" p = true := by
  intro base more
  obtain ⟨hiff, hsame, hignore, hselect, hmerge⟩ := enabled_by_longest_beginning "PMC001"
  have hwhole : isEnabled ⟨["PMC", "PMC001"], ["PMC00"]⟩ "PMC001" = true :=
    (hiff _).2 ⟨"PMC001", by decide, by decide, by decide⟩
  obtain ⟨hnamed, hkept⟩ := hmerge base more (by decide) (by decide)
  have hmerged := hkept (by decide) (by decide)
  refine ⟨hwhole, hsame _ _ (by simp [or_comm]) (by simp), ?_, ?_, ?_, hmerged, hnamed hmerged⟩
  · intro henabled
    obtain ⟨p, hp, -, hless⟩ := (hiff _).1 henabled
    cases List.mem_singleton.1 hp
    exact absurd (hless "PMC001" (by decide) (by decide)) (by decide)
  · exact hignore _ _ ["PMC00"] (List.nil_subset _) hwhole
  · exact hselect ["PMC001"] _ _ (by decide) (by decide) ((hiff _).2
      ⟨"PMC001", by decide, by decide, by decide⟩)

end Selection
end ChainLint
