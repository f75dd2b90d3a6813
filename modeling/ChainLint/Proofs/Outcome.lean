import Mathlib.Data.List.Forall2

/-!
# ChainLint.Proofs.Outcome

What a computation that may fail went through when it succeeded.

* `bind_eq_ok`, `bind_eq_error`, `pure_eq_ok`: one step.
* `mapM_eq_ok`, `exists_mapM_eq_ok`, `exists_eq_map_of_mapM`: one step for each element of a list.
  `forall_mem_of_forall₂`: what holds of each outcome. `exists_mem_of_forall₂`: each step has one.
  `exists_of_mapM_eq_error`: the error of all steps is the error of one.
* `forM_eq_ok`, `forM_eq_error`: steps without an outcome, up to the first one that fails.
  `exists_first_cons`: where the first of a list is found.
* `bind_congr_ok`, `mapM_congr`: steps that agree where they are taken. `mapM_map`: what is done
  with each outcome can be done at the end.
* `Corresponds`: two computations that go the same way. `Corresponds.bind` and `Corresponds.mapM`
  take it through the steps, `corresponds_iff_map_eq` says it as an equation.
-/

namespace ChainLint

theorem bind_eq_ok {ε α β : Type} {x : Except ε α} {f : α → Except ε β} {c : β} :
    (x >>= f) = .ok c ↔ ∃ a, x = .ok a ∧ f a = .ok c := by
  cases x <;> simp [bind, Except.bind]

theorem bind_eq_error {ε α β : Type} {x : Except ε α} {f : α → Except ε β} {e : ε} :
    (x >>= f) = .error e ↔ x = .error e ∨ ∃ a, x = .ok a ∧ f a = .error e := by
  cases x <;> simp [bind, Except.bind]

theorem pure_eq_ok {ε α : Type} {a c : α} : (pure a : Except ε α) = .ok c ↔ a = c := by
  simp [pure, Except.pure]

theorem mapM_eq_ok {ε α β : Type} {f : α → Except ε β} {l : List α} {r : List β} :
    l.mapM f = .ok r ↔ List.Forall₂ (fun a b => f a = .ok b) l r := by
  induction l generalizing r with
  | nil =>
    rw [List.mapM_nil, pure_eq_ok, List.forall₂_nil_left_iff]
    exact eq_comm
  | cons a l ih =>
    simp only [List.mapM_cons, bind_eq_ok, pure_eq_ok, ih, List.forall₂_cons_left_iff]
    constructor
    · rintro ⟨b, hb, r, hr, rfl⟩
      exact ⟨b, r, hb, hr, rfl⟩
    · rintro ⟨b, r, hb, hr, rfl⟩
      exact ⟨b, hb, r, hr, rfl⟩

theorem exists_mapM_eq_ok {ε α β : Type} {f : α → Except ε β} {l : List α} :
    (∃ r, l.mapM f = .ok r) ↔ ∀ a ∈ l, ∃ b, f a = .ok b := by
  simp only [mapM_eq_ok]
  induction l with
  | nil => simp
  | cons a l ih =>
    rw [List.forall_mem_cons, ← ih]
    constructor
    · rintro ⟨_, ⟨⟩ | ⟨hb, hr⟩⟩
      exact ⟨⟨_, hb⟩, _, hr⟩
    · rintro ⟨⟨b, hb⟩, r, hr⟩
      exact ⟨b :: r, .cons hb hr⟩

theorem exists_of_mapM_eq_error {ε α β : Type} {f : α → Except ε β} {l : List α} {e : ε}
    (h : l.mapM f = .error e) : ∃ a ∈ l, f a = .error e := by
  induction l with
  | nil => cases h
  | cons a l ih =>
    rw [List.mapM_cons] at h
    cases ha : f a with
    | error e' =>
      rw [ha] at h
      cases h
      exact ⟨a, by simp, ha⟩
    | ok b =>
      rw [ha] at h
      cases hl : l.mapM f with
      | error e' =>
        rw [hl] at h
        cases h
        obtain ⟨c, hc, hce⟩ := ih hl
        exact ⟨c, by simp [hc], hce⟩
      | ok r =>
        rw [hl] at h
        cases h

theorem exists_eq_map_of_mapM {ε α β : Type} [Inhabited β] {f : α → Except ε β} {l : List α}
    {r : List β} (h : l.mapM f = .ok r) : ∃ g : α → β, r = l.map g ∧ ∀ a ∈ l, f a = .ok (g a) := by
  refine ⟨fun a => (f a).toOption.getD default, ?_⟩
  have heach := mapM_eq_ok.1 h
  clear h
  induction heach with
  | nil => exact ⟨rfl, nofun⟩
  | cons hb _ ih =>
    rw [List.map_cons, List.forall_mem_cons, ← ih.1]
    refine ⟨?_, ?_, ih.2⟩
    · simp [hb, Except.toOption]
    · simp [hb, Except.toOption]

theorem bind_congr_ok {ε α β : Type} {x : Except ε α} {f g : α → Except ε β}
    (h : ∀ a, x = .ok a → f a = g a) : x >>= f = x >>= g := by
  cases x with
  | error e => rfl
  | ok a => exact h a rfl

theorem mapM_congr {ε α β : Type} {l : List α} {f g : α → Except ε β}
    (h : ∀ a ∈ l, f a = g a) : l.mapM f = l.mapM g := by
  induction l with
  | nil => rfl
  | cons a l ih =>
    rw [List.mapM_cons, List.mapM_cons, h a (by simp), ih (fun b hb => h b (by simp [hb]))]

theorem mapM_map {ε α β γ : Type} (f : α → Except ε β) (g : β → γ) (l : List α) :
    l.mapM (fun a => (f a).map g) = (l.mapM f).map (List.map g) := by
  induction l with
  | nil => rfl
  | cons a l ih =>
    rw [List.mapM_cons, List.mapM_cons, ih]
    cases f a with
    | error e => rfl
    | ok b => cases l.mapM f <;> rfl

theorem forM_eq_ok {ε α : Type} {f : α → Except ε PUnit} {l : List α} :
    forM l f = .ok () ↔ ∀ a ∈ l, f a = .ok () := by
  induction l with
  | nil => simp [pure_eq_ok]
  | cons a l ih =>
    rw [List.forM_cons, bind_eq_ok, List.forall_mem_cons, ← ih]
    exact ⟨fun ⟨⟨⟩, ha, hl⟩ => ⟨ha, hl⟩, fun ⟨ha, hl⟩ => ⟨⟨⟩, ha, hl⟩⟩

/-- The first element of which `Q` holds, while `P` holds of all in front of it, is the head or is
found behind it. -/
theorem exists_first_cons {α : Type} {P Q : α → Prop} {x : α} {l : List α} :
    (∃ before a after, x :: l = before ++ a :: after ∧ (∀ b ∈ before, P b) ∧ Q a) ↔
      Q x ∨ P x ∧ ∃ before a after, l = before ++ a :: after ∧ (∀ b ∈ before, P b) ∧ Q a := by
  constructor
  · rintro ⟨before, a, after, hl, hbefore, ha⟩
    cases before with
    | nil =>
      cases hl
      exact .inl ha
    | cons b before =>
      cases hl
      obtain ⟨hx, hbefore⟩ := List.forall_mem_cons.1 hbefore
      exact .inr ⟨hx, before, a, after, rfl, hbefore, ha⟩
  · rintro (hx | ⟨hx, before, a, after, rfl, hbefore, ha⟩)
    · exact ⟨[], x, l, rfl, nofun, hx⟩
    · exact ⟨x :: before, a, after, rfl, List.forall_mem_cons.2 ⟨hx, hbefore⟩, ha⟩

/-- The first element that fails decides the error. -/
theorem forM_eq_error {ε α : Type} {f : α → Except ε PUnit} {l : List α} {e : ε} :
    forM l f = .error e ↔ ∃ before a after, l = before ++ a :: after ∧
      (∀ b ∈ before, f b = .ok ()) ∧ f a = .error e := by
  induction l with
  | nil =>
    rw [List.forM_nil]
    constructor
    · exact nofun
    · rintro ⟨before, a, after, hl, -⟩
      simp at hl
  | cons x l ih =>
    have hunit : (∃ u, f x = .ok u) ↔ f x = .ok () := ⟨fun ⟨⟨⟩, hx⟩ => hx, fun hx => ⟨_, hx⟩⟩
    rw [List.forM_cons, bind_eq_error, ih, exists_first_cons, ← hunit, exists_and_right]

theorem forall_mem_of_forall₂ {α β : Type} {R : α → β → Prop} {Q : β → Prop} {l : List α}
    {r : List β} (h : List.Forall₂ R l r) (hR : ∀ a ∈ l, ∀ b, R a b → Q b) : ∀ b ∈ r, Q b := by
  induction h with
  | nil => simp
  | cons hab _ ih =>
    exact List.forall_mem_cons.2 ⟨hR _ (by simp) _ hab, ih (fun a ha => hR a (by simp [ha]))⟩

theorem exists_mem_of_forall₂ {α β : Type} {R : α → β → Prop} {l : List α} {r : List β} {a : α}
    (h : List.Forall₂ R l r) (ha : a ∈ l) : ∃ b ∈ r, R a b := by
  induction h with
  | nil => cases ha
  | cons hab _ ih =>
    rcases List.mem_cons.1 ha with rfl | ha
    · exact ⟨_, List.mem_cons_self, hab⟩
    · obtain ⟨b, hb, hab⟩ := ih ha
      exact ⟨b, List.mem_cons_of_mem _ hb, hab⟩

/-! ## Two computations -/

/-- Both fail with the same error, or both succeed, with related results. -/
def Corresponds {ε α β : Type} (R : α → β → Prop) : Except ε α → Except ε β → Prop
  | .ok a, .ok b => R a b
  | .error e, .error e' => e = e'
  | _, _ => False

namespace Corresponds

variable {ε α β γ δ : Type} {R : α → β → Prop} {S : γ → δ → Prop}

theorem refl {R : α → α → Prop} (h : ∀ a, R a a) (x : Except ε α) : Corresponds R x x := by
  cases x with
  | error e => exact rfl
  | ok a => exact h a

theorem bind {x : Except ε α} {y : Except ε β} {f : α → Except ε γ} {g : β → Except ε δ}
    (h : Corresponds R x y) (hfg : ∀ a b, R a b → Corresponds S (f a) (g b)) :
    Corresponds S (x >>= f) (y >>= g) := by
  cases x with
  | error e =>
    cases y with
    | error e' => exact h
    | ok b => exact h.elim
  | ok a =>
    cases y with
    | error e' => exact h.elim
    | ok b => exact hfg a b h

theorem mapM {l : List α} {r : List β} {f : α → Except ε γ} {g : β → Except ε δ}
    (h : List.Forall₂ (fun a b => Corresponds S (f a) (g b)) l r) :
    Corresponds (List.Forall₂ S) (l.mapM f) (r.mapM g) := by
  induction h with
  | nil => exact .nil
  | cons hab _ ih =>
    rw [List.mapM_cons, List.mapM_cons]
    refine hab.bind fun c d hcd => ?_
    exact ih.bind fun cs ds hcds => .cons hcd hcds

end Corresponds

theorem corresponds_iff_map_eq {ε α β : Type} {f : α → β} {x y : Except ε α} :
    Corresponds (fun a b => f a = f b) x y ↔ x.map f = y.map f := by
  cases x <;> cases y <;> simp [Corresponds, Except.map]

end ChainLint
