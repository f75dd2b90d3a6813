import ChainLint.Text.Units
import Mathlib.Data.List.Lex

/-!
# ChainLint.Proofs.Text.Order

The order of texts by code unit.

* `units_injective`: a text is known by its code units, so no two texts are at the same place of
  the order. `units_suffix_iff`: endings can be compared by code unit.
* `Before`: the strict order. `le_trans`, `le_total`, `le_antisymm`: the order is linear.
-/

namespace ChainLint

/-! ## Code units -/

namespace Text

/-- The code units of some characters. -/
def units (cs : List Char) : List Nat := cs.flatMap unitsOf

theorem units_cons (c : Char) (cs : List Char) : units (c :: cs) = unitsOf c ++ units cs := rfl

theorem unitsOf_narrow {c : Char} (h : c.toNat < 0x10000) : unitsOf c = [c.toNat] := by
  simp [unitsOf, h]

theorem unitsOf_wide {c : Char} (h : ¬ c.toNat < 0x10000) :
    unitsOf c = [0xD800 + (c.toNat - 0x10000) / 0x400, 0xDC00 + (c.toNat - 0x10000) % 0x400] := by
  simp [unitsOf, h]

/-- A character has the code of no half of another one. -/
theorem toNat_valid (c : Char) : c.toNat < 0xD800 ∨ 0xDFFF < c.toNat ∧ c.toNat < 0x110000 := c.valid

theorem eq_of_units_append {c d : Char} {l r : List Nat}
    (h : unitsOf c ++ l = unitsOf d ++ r) : c = d ∧ l = r := by
  have hc := toNat_valid c
  have hd := toNat_valid d
  suffices hcode : c.toNat = d.toNat by
    have hcd : c = d := Char.toNat_inj.1 hcode
    subst hcd
    exact ⟨rfl, List.append_cancel_left h⟩
  by_cases hwc : c.toNat < 0x10000
  · rw [unitsOf_narrow hwc] at h
    by_cases hwd : d.toNat < 0x10000
    · rw [unitsOf_narrow hwd] at h
      exact (List.cons.inj h).1
    · rw [unitsOf_wide hwd] at h
      have hhead := (List.cons.inj h).1
      omega
  · rw [unitsOf_wide hwc] at h
    by_cases hwd : d.toNat < 0x10000
    · rw [unitsOf_narrow hwd] at h
      have hhead := (List.cons.inj h).1
      omega
    · rw [unitsOf_wide hwd] at h
      obtain ⟨hhigh, hrest⟩ := List.cons.inj h
      have hlow := (List.cons.inj hrest).1
      omega

theorem unitsOf_ne_nil (c : Char) : unitsOf c ≠ [] := by
  unfold unitsOf
  split <;> simp

theorem units_injective {cs ds : List Char} (h : units cs = units ds) : cs = ds := by
  induction cs generalizing ds with
  | nil =>
    cases ds with
    | nil => rfl
    | cons d ds =>
      rw [units_cons] at h
      exact (unitsOf_ne_nil d (List.append_eq_nil_iff.1 h.symm).1).elim
  | cons c cs ih =>
    cases ds with
    | nil =>
      rw [units_cons] at h
      exact (unitsOf_ne_nil c (List.append_eq_nil_iff.1 h).1).elim
    | cons d ds =>
      rw [units_cons, units_cons] at h
      obtain ⟨rfl, hrest⟩ := eq_of_units_append h
      rw [ih hrest]

/-- No text begins with the low half of a character. -/
theorem head_units {cs : List Char} {u : Nat} {us : List Nat} (h : units cs = u :: us) :
    u < 0xDC00 ∨ 0xDFFF < u := by
  cases cs with
  | nil => cases h
  | cons c cs =>
    have hc := toNat_valid c
    rw [units_cons] at h
    by_cases hwide : c.toNat < 0x10000
    · rw [unitsOf_narrow hwide] at h
      have hhead := (List.cons.inj h).1
      omega
    · rw [unitsOf_wide hwide] at h
      have hhead := (List.cons.inj h).1
      omega

theorem suffix_of_units_suffix {cs ds : List Char} (h : units cs <:+ units ds) : cs <:+ ds := by
  induction ds with
  | nil =>
    have hcs : cs = [] := units_injective (List.suffix_nil.1 h)
    exact hcs ▸ List.suffix_refl []
  | cons d ds ih =>
    have hrest (h : units cs <:+ units ds) : cs <:+ d :: ds := (ih h).trans (List.suffix_cons d ds)
    by_cases hd : d.toNat < 0x10000
    · have hunits : units (d :: ds) = d.toNat :: units ds := by
        rw [units_cons, unitsOf_narrow hd, List.singleton_append]
      rw [hunits, List.suffix_cons_iff, ← hunits] at h
      rcases h with hwhole | h
      · exact units_injective hwhole ▸ List.suffix_refl _
      · exact hrest h
    · have hunits : units (d :: ds) = (0xD800 + (d.toNat - 0x10000) / 0x400) ::
          (0xDC00 + (d.toNat - 0x10000) % 0x400) :: units ds := by
        rw [units_cons, unitsOf_wide hd, List.cons_append, List.singleton_append]
      rw [hunits, List.suffix_cons_iff, List.suffix_cons_iff, ← hunits] at h
      rcases h with hwhole | hlow | h
      · exact units_injective hwhole ▸ List.suffix_refl _
      · have hhead := head_units hlow
        omega
      · exact hrest h

/-- The units of a text end in those of another one only where its characters do. -/
theorem units_suffix_iff {cs ds : List Char} : units cs <:+ units ds ↔ cs <:+ ds := by
  refine ⟨suffix_of_units_suffix, ?_⟩
  rintro ⟨front, rfl⟩
  exact ⟨units front, List.flatMap_append.symm⟩

/-! ## Order -/

/-- The first text stands before the second: at the first code unit where they differ it has the
smaller one, or it ends there. -/
def Before (a b : String) : Prop := List.Lex (· < ·) (units a.toList) (units b.toList)

theorem unitsLe_iff {xs ys : List Nat} : unitsLe xs ys = true ↔ ¬ List.Lex (· < ·) ys xs := by
  induction xs generalizing ys with
  | nil =>
    simp only [unitsLe, true_iff]
    exact nofun
  | cons x xs ih =>
    cases ys with
    | nil =>
      simp only [unitsLe, Bool.false_eq_true, false_iff, not_not]
      exact .nil
    | cons y ys =>
      rw [unitsLe]
      split
      · rename_i heq
        rw [heq, List.lex_cons_iff, ih]
      · rename_i hne
        rw [decide_eq_true_iff]
        constructor
        · intro hlt hlex
          cases hlex with
          | cons _ => exact hne rfl
          | rel hgt => omega
        · intro hnot
          have hge : ¬ y < x := fun hgt => hnot (.rel hgt)
          omega

theorem le_iff {a b : String} : le a b = true ↔ ¬ Before b a := unitsLe_iff

theorem le_trans {a b c : String} (h₁ : le a b = true) (h₂ : le b c = true) : le a c = true := by
  rw [le_iff] at h₁ h₂ ⊢
  intro hca
  rcases IsOrderConnected.conn _ (units b.toList) _ hca with hcb | hba
  · exact h₂ hcb
  · exact h₁ hba

theorem Before.asymm {a b : String} (hab : Before a b) : ¬ Before b a :=
  Std.Asymm.asymm (r := (List.Lex (· < ·))) _ _ hab

theorem Before.ne {a b : String} (h : Before a b) : a ≠ b := by
  rintro rfl
  exact h.asymm h

theorem le_total (a b : String) : le a b = true ∨ le b a = true := by
  by_cases hab : Before a b
  · exact .inl (le_iff.2 hab.asymm)
  · exact .inr (le_iff.2 hab)

theorem le_antisymm {a b : String} (h₁ : le a b = true) (h₂ : le b a = true) : a = b := by
  have hunits : units a.toList = units b.toList :=
    Std.Trichotomous.trichotomous (r := (List.Lex (· < ·))) _ _ (le_iff.1 h₂) (le_iff.1 h₁)
  exact String.toList_injective (units_injective hunits)

end Text

end ChainLint
