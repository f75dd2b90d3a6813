import ChainLint.Proofs.Json.Literal

/-!
# ChainLint.Proofs.Json.Decodes

The decoder reads the texts of the grammar, each to its value, and no other texts.

* `group_of_some`, `group?_append`: what stands between brackets, if one thing is read right.
* `value_of_some`: what is read as a value is one. `value?_append`: a value is read to its end.
* `decode_eq_some_iff`: the same of whole texts.
-/

namespace ChainLint
namespace Json

/-! ## Brackets and what is between them -/

/-- The next character, behind the space in front of it. -/
theorem dropWhile_space {w r : List Char} {c : Char} (hw : Space w) (hc : isSpace c = false) :
    (w ++ c :: r).dropWhile isSpace = c :: r :=
  dropWhile_run hw fun x more hx => by
    cases hx
    exact hc

theorem expect?_append {w r : List Char} {c : Char} (hw : Space w) (hc : isSpace c = false) :
    expect? c (w ++ c :: r) = some r := by
  rw [expect?, dropWhile_space hw hc]
  simp only [if_pos]

theorem expect?_ne {w r : List Char} {c d : Char} (hw : Space w) (hd : isSpace d = false)
    (hne : d ≠ c) : expect? c (w ++ d :: r) = none := by
  rw [expect?, dropWhile_space hw hd]
  simp only [if_neg hne]

theorem expect_of_some {cs r : List Char} {c : Char} (h : expect? c cs = some r) :
    ∃ w, Space w ∧ cs = w ++ c :: r := by
  refine ⟨cs.takeWhile isSpace, fun x hx => List.mem_takeWhile_imp hx, ?_⟩
  rw [expect?] at h
  split at h
  · cases h
  · rename_i d r' hdrop
    split at h
    · rename_i hd
      cases h
      rw [← hd, ← hdrop, List.takeWhile_append_dropWhile]
    · cases h

section lists

variable {α γ : Type} {close : Char} {one : List Char → Option (α × List Char)}
  {whole : γ → List Char} {value : γ → α}

theorem length_le_commas (ts : List (List Char)) : ts.length ≤ (commas ts).length + 1 := by
  induction ts with
  | nil => exact Nat.zero_le _
  | cons t ts ih =>
    cases ts with
    | nil => simp
    | cons u ts =>
      simp only [commas, List.length_cons, List.length_append] at ih ⊢
      omega

theorem length_le_of_mem_commas {ts : List (List Char)} {t : List Char} (h : t ∈ ts) :
    t.length ≤ (commas ts).length := by
  induction ts with
  | nil => cases h
  | cons u ts ih =>
    cases ts with
    | nil => rw [List.mem_singleton.1 h, commas]
    | cons v ts =>
      rw [commas, List.length_append, List.length_cons]
      rcases List.mem_cons.1 h with rfl | h
      · omega
      · have := ih h
        omega

theorem list_of_some {P : γ → Prop}
    (hone : ∀ cs x w r, one cs = some (x, w ++ r) → Space w →
      ∃ p, P p ∧ value p = x ∧ cs = whole p ++ r)
    {fuel : Nat} {cs r : List Char} {xs : List α} (h : list? close one fuel cs = some (xs, r)) :
    ∃ ps, ps ≠ [] ∧ (∀ p ∈ ps, P p) ∧ xs = ps.map value ∧
      cs = commas (ps.map whole) ++ close :: r := by
  induction fuel generalizing cs xs with
  | zero => cases h
  | succ fuel ih =>
    rw [list?] at h
    obtain ⟨⟨x, r₁⟩, hx, hrest⟩ := Option.bind_eq_some_iff.1 h
    cases hclose : expect? close r₁ with
    | some r₂ =>
      simp only [hclose] at hrest
      cases hrest
      obtain ⟨w, hw, rfl⟩ := expect_of_some hclose
      obtain ⟨p, hp, rfl, rfl⟩ := hone _ _ _ _ hx hw
      exact ⟨[p], List.cons_ne_nil _ _, by simp [hp], rfl, rfl⟩
    | none =>
      simp only [hclose] at hrest
      obtain ⟨r₂, hcomma, hrest⟩ := Option.bind_eq_some_iff.1 hrest
      obtain ⟨⟨ys, r₃⟩, hys, hrest⟩ := Option.bind_eq_some_iff.1 hrest
      cases hrest
      obtain ⟨w, hw, rfl⟩ := expect_of_some hcomma
      obtain ⟨p, hp, rfl, rfl⟩ := hone _ _ _ _ hx hw
      obtain ⟨ps, hne, hps, rfl, rfl⟩ := ih hys
      obtain ⟨q, qs, rfl⟩ := List.exists_cons_of_ne_nil hne
      refine ⟨p :: q :: qs, List.cons_ne_nil _ _, List.forall_mem_cons.2 ⟨hp, hps⟩, rfl, ?_⟩
      simp only [List.map_cons, commas, List.append_assoc, List.cons_append]

theorem list?_append (hspace : isSpace close = false) (hcomma : close ≠ ',') {ps : List γ}
    (hne : ps ≠ [])
    (hone : ∀ p ∈ ps, ∀ d r, d = ',' ∨ d = close →
      ∃ w, Space w ∧ one (whole p ++ d :: r) = some (value p, w ++ d :: r))
    {fuel : Nat} (hfuel : ps.length ≤ fuel) (r : List Char) :
    list? close one fuel (commas (ps.map whole) ++ close :: r) = some (ps.map value, r) := by
  induction ps generalizing fuel with
  | nil => exact absurd rfl hne
  | cons p ps ih =>
    obtain ⟨hp, hps⟩ := List.forall_mem_cons.1 hone
    obtain ⟨fuel, rfl⟩ : ∃ k, fuel = k + 1 := ⟨fuel - 1, by simp at hfuel; omega⟩
    rw [list?]
    cases ps with
    | nil =>
      obtain ⟨w, hw, hx⟩ := hp close r (.inr rfl)
      simp only [List.map_cons, List.map_nil, commas, hx, Option.bind_eq_bind, Option.bind_some,
        expect?_append hw hspace]
      rfl
    | cons q qs =>
      obtain ⟨w, hw, hx⟩ := hp ',' (commas ((q :: qs).map whole) ++ close :: r) (.inl rfl)
      have hrest := ih (List.cons_ne_nil q qs) hps (Nat.le_of_succ_le_succ hfuel)
      have hcs : commas ((p :: q :: qs).map whole) ++ close :: r =
          whole p ++ ',' :: (commas ((q :: qs).map whole) ++ close :: r) := by
        simp only [List.map_cons, commas, List.append_assoc, List.cons_append]
      rw [hcs, hx]
      have hspace' : isSpace ',' = false := rfl
      simp only [Option.bind_eq_bind, Option.bind_some, expect?_ne hw hspace' hcomma.symm,
        expect?_append hw hspace', hrest]
      rfl

theorem group_of_some {P : γ → Prop}
    (hone : ∀ cs x w r, one cs = some (x, w ++ r) → Space w →
      ∃ p, P p ∧ value p = x ∧ cs = whole p ++ r)
    {cs r : List Char} {xs : List α} (h : group? close one cs = some (xs, r)) :
    (∃ w, Space w ∧ xs = [] ∧ cs = w ++ close :: r) ∨
      ∃ ps, ps ≠ [] ∧ (∀ p ∈ ps, P p) ∧ xs = ps.map value ∧
        cs = commas (ps.map whole) ++ close :: r := by
  rw [group?] at h
  cases hclose : expect? close cs with
  | some r' =>
    simp only [hclose] at h
    cases h
    obtain ⟨w, hw, rfl⟩ := expect_of_some hclose
    exact .inl ⟨w, hw, rfl, rfl⟩
  | none =>
    simp only [hclose] at h
    exact .inr (list_of_some hone h)

theorem group?_empty (hspace : isSpace close = false) {w : List Char} (hw : Space w)
    (r : List Char) : group? close one (w ++ close :: r) = some ([], r) := by
  rw [group?, expect?_append hw hspace]

theorem group?_append (hspace : isSpace close = false) (hcomma : close ≠ ',') {ps : List γ}
    (hne : ps ≠ [])
    (hone : ∀ p ∈ ps, ∀ d r, d = ',' ∨ d = close →
      ∃ w, Space w ∧ one (whole p ++ d :: r) = some (value p, w ++ d :: r))
    (hopen : ∀ p ∈ ps, ∀ r, expect? close (whole p ++ r) = none) (r : List Char) :
    group? close one (commas (ps.map whole) ++ close :: r) = some (ps.map value, r) := by
  have hclosed : expect? close (commas (ps.map whole) ++ close :: r) = none := by
    obtain ⟨p, qs, rfl⟩ := List.exists_cons_of_ne_nil hne
    cases qs with
    | nil => exact hopen p (by simp) _
    | cons q qs =>
      simp only [List.map_cons, commas, List.append_assoc]
      exact hopen p (by simp) _
  have hlength := length_le_commas (ps.map whole)
  rw [List.length_map] at hlength
  rw [group?, hclosed]
  refine list?_append hspace hcomma hne hone ?_ r
  rw [List.length_append, List.length_cons]
  omega

end lists

/-! ## Values -/

/-- What may stand behind a value: nothing, space, a comma or a closing bracket. -/
def Ends (r : List Char) : Prop :=
  ∀ x more, r = x :: more → isSpace x = true ∨ x = ',' ∨ x = ']' ∨ x = '\x7d'

theorem Ends.number {r : List Char} (h : Ends r) : NumberEnds r := by
  intro x more hx
  have hcase := h x more hx
  simp only [isSpace, Bool.or_eq_true, beq_iff_eq] at hcase
  rcases hcase with ((( rfl | rfl) | rfl) | rfl) | rfl | rfl | rfl <;> decide

theorem Ends.of_space {w : List Char} {d : Char} {r : List Char} (hw : Space w)
    (hd : d = ',' ∨ d = ']' ∨ d = '\x7d') : Ends (w ++ d :: r) := by
  intro x more hx
  cases w with
  | nil =>
    obtain ⟨rfl, -⟩ := List.cons.inj hx
    exact .inr hd
  | cons c w =>
    obtain ⟨rfl, -⟩ := List.cons.inj hx
    exact .inl (hw c (by simp))

theorem IsNumber.head {t : List Char} {q : Rat} (h : IsNumber t q) :
    ∃ c t', t = c :: t' ∧ (c = '-' ∨ c.isDigit = true) := by
  cases h with
  | @mk negative ds f fs x e hds =>
    obtain ⟨d, ds', rfl⟩ := List.exists_cons_of_ne_nil hds.ne_nil
    cases negative with
    | true => exact ⟨_, _, rfl, .inl rfl⟩
    | false => exact ⟨_, _, rfl, .inr (hds.isDigit d (by simp))⟩

theorem isDigit_ne {c d : Char} (h : c = '-' ∨ c.isDigit = true) (hd : d.isDigit = false)
    (hminus : d ≠ '-') : c ≠ d := by
  rintro rfl
  rcases h with rfl | h
  · exact hminus rfl
  · rw [hd] at h
    cases h

/-- A value begins with a character that is neither space nor a closing bracket. -/
theorem Writes.head {t : List Char} {v : Value} (h : Writes t v) :
    ∃ c t', t = c :: t' ∧ isSpace c = false ∧ c ≠ ']' ∧ c ≠ '\x7d' := by
  cases h with
  | null => exact ⟨_, _, rfl, by decide⟩
  | bool b => cases b <;> exact ⟨_, _, rfl, by decide⟩
  | number h =>
    obtain ⟨c, t', rfl, hc⟩ := h.head
    refine ⟨c, t', rfl, ?_, isDigit_ne hc rfl (by decide), isDigit_ne hc rfl (by decide)⟩
    rw [Bool.eq_false_iff]
    intro hspace
    simp only [isSpace, Bool.or_eq_true, beq_iff_eq] at hspace
    rcases hspace with ((rfl | rfl) | rfl) | rfl <;> simp at hc
  | string h =>
    obtain ⟨body, -, rfl⟩ := h
    exact ⟨_, _, rfl, by decide⟩
  | noItems h => exact ⟨_, _, rfl, by decide⟩
  | items => exact ⟨_, _, rfl, by decide⟩
  | noMembers h => exact ⟨_, _, rfl, by decide⟩
  | members => exact ⟨_, _, rfl, by decide⟩

theorem Writes.length_pos {t : List Char} {v : Value} (h : Writes t v) : 0 < t.length := by
  obtain ⟨c, t', rfl, -⟩ := h.head
  exact Nat.succ_pos _

theorem word_of_some {cs r : List Char} {v : Value} (h : word? cs = some (v, r)) :
    ∃ t, Writes t v ∧ cs = t ++ r := by
  obtain ⟨⟨w, u⟩, hmem, hw⟩ := List.exists_of_findSome?_eq_some h
  dsimp only at hw
  by_cases hprefix : w.isPrefixOf cs = true
  · rw [if_pos hprefix] at hw
    cases hw
    obtain ⟨r, rfl⟩ := List.isPrefixOf_iff_prefix.1 hprefix
    refine ⟨w, ?_, by rw [List.drop_left]⟩
    simp only [words, List.mem_cons, Prod.mk.injEq, List.not_mem_nil, or_false] at hmem
    rcases hmem with ⟨rfl, rfl⟩ | ⟨rfl, rfl⟩ | ⟨rfl, rfl⟩
    · exact .null
    · exact .bool true
    · exact .bool false
  · rw [if_neg hprefix] at hw
    cases hw

theorem word?_eq_none {c : Char} (r : List Char) (h : c = '-' ∨ c.isDigit = true) :
    word? (c :: r) = none := by
  have hn := isDigit_ne h (d := 'n') rfl (by decide)
  have ht := isDigit_ne h (d := 't') rfl (by decide)
  have hf := isDigit_ne h (d := 'f') rfl (by decide)
  simp [word?, words, hn.symm, ht.symm, hf.symm]

/-- An item of an array is a value with space around it. -/
theorem exists_piece {cs w r : List Char} {v : Value}
    (h : ∃ w' t, Space w' ∧ Writes t v ∧ cs = w' ++ (t ++ (w ++ r))) (hw : Space w) :
    ∃ p : Piece, (Space p.before ∧ Space p.after ∧ Writes p.text p.value) ∧ p.value = v ∧
      cs = p.whole ++ r := by
  obtain ⟨w', t, hw', ht, rfl⟩ := h
  exact ⟨⟨w', t, w, v⟩, ⟨hw', hw, ht⟩, rfl, by simp [Piece.whole]⟩

/-- A member of an object is a name and a colon in front of an item. -/
theorem exists_member {value : List Char → Option (Value × List Char)} {cs w r : List Char}
    {m : String × Value} (h : member? value cs = some (m, w ++ r)) (hw : Space w)
    (hvalue : ∀ cs v r, value cs = some (v, r) →
      ∃ w t, Space w ∧ Writes t v ∧ cs = w ++ (t ++ r)) :
    ∃ p : String × Piece, (Names p.2.before p.1 ∧ Space p.2.after ∧ Writes p.2.text p.2.value) ∧
      (p.1, p.2.value) = m ∧ cs = p.2.whole ++ r := by
  rw [member?] at h
  obtain ⟨cs₁, hquote, h⟩ := Option.bind_eq_some_iff.1 h
  obtain ⟨⟨name, cs₂⟩, hname, h⟩ := Option.bind_eq_some_iff.1 h
  obtain ⟨cs₃, hcolon, h⟩ := Option.bind_eq_some_iff.1 h
  obtain ⟨⟨v, cs₄⟩, hv, h⟩ := Option.bind_eq_some_iff.1 h
  cases h
  obtain ⟨w₁, hw₁, rfl⟩ := expect_of_some hquote
  obtain ⟨t, ht, heq⟩ := string?_eq_some.1 hname
  obtain ⟨w₂, hw₂, rfl⟩ := expect_of_some hcolon
  obtain ⟨w₃, u, hw₃, hu, rfl⟩ := hvalue _ _ _ hv
  rw [heq]
  refine ⟨(name, ⟨w₁ ++ (t ++ (w₂ ++ ':' :: w₃)), u, w, v⟩), ⟨?_, hw, hu⟩, rfl, ?_⟩
  · exact ⟨w₁, t, w₂, w₃, hw₁, ht, hw₂, hw₃, rfl⟩
  · simp [Piece.whole]

theorem value_of_some {fuel : Nat} {cs r : List Char} {v : Value}
    (h : value? fuel cs = some (v, r)) :
    ∃ w t, Space w ∧ Writes t v ∧ cs = w ++ (t ++ r) := by
  induction fuel generalizing cs r v with
  | zero => cases h
  | succ fuel ih =>
    have hspace : Space (cs.takeWhile isSpace) := fun x hx => List.mem_takeWhile_imp hx
    suffices hvalue : ∃ t, Writes t v ∧ cs.dropWhile isSpace = t ++ r by
      obtain ⟨t, ht, hdrop⟩ := hvalue
      exact ⟨_, t, hspace, ht, by rw [← hdrop, List.takeWhile_append_dropWhile]⟩
    rw [value?] at h
    cases hdrop : cs.dropWhile isSpace with
    | nil =>
      simp only [hdrop] at h
      cases h
    | cons c cs' =>
      simp only [hdrop] at h
      split_ifs at h with hc hc hc
      · obtain ⟨⟨s, r'⟩, hs, heq⟩ := Option.map_eq_some_iff.1 h
        cases heq
        obtain ⟨t, ht, heq⟩ := string?_eq_some.1 hs
        exact ⟨t, .string ht, by rw [hc, heq]⟩
      · obtain ⟨⟨vs, r'⟩, hvs, heq⟩ := Option.map_eq_some_iff.1 h
        cases heq
        rcases group_of_some (fun cs v w r hv hw => exists_piece (ih hv) hw) hvs with
          ⟨w, hw, rfl, rfl⟩ | ⟨ps, hne, hps, rfl, rfl⟩
        · exact ⟨_, .noItems hw, by simp [hc]⟩
        · exact ⟨_, .items hne (fun p hp => (hps p hp).1) (fun p hp => (hps p hp).2.1)
            (fun p hp => (hps p hp).2.2), by simp [hc]⟩
      · obtain ⟨⟨ms, r'⟩, hms, heq⟩ := Option.map_eq_some_iff.1 h
        cases heq
        rcases group_of_some (fun cs m w r hm hw => exists_member hm hw fun cs v r => ih) hms with
          ⟨w, hw, rfl, rfl⟩ | ⟨ps, hne, hps, rfl, rfl⟩
        · exact ⟨_, .noMembers hw, by simp [hc]⟩
        · exact ⟨_, .members hne (fun p hp => (hps p hp).1) (fun p hp => (hps p hp).2.1)
            (fun p hp => (hps p hp).2.2), by simp [hc]⟩
      · cases hword : word? (c :: cs') with
        | some p =>
          simp only [hword] at h
          cases h
          exact word_of_some hword
        | none =>
          simp only [hword] at h
          obtain ⟨⟨q, r'⟩, hq, heq⟩ := Option.map_eq_some_iff.1 h
          cases heq
          obtain ⟨t, ht, hcs⟩ := number_of_some hq
          exact ⟨t, .number ht, hcs⟩

theorem member?_append {value : List Char → Option (Value × List Char)} {before t r : List Char}
    {name : String} {v : Value} (h : Names before name)
    (hvalue : ∀ w, Space w → value (w ++ (t ++ r)) = some (v, r)) :
    member? value (before ++ (t ++ r)) = some ((name, v), r) := by
  obtain ⟨w₁, u, w₂, w₃, hw₁, hu, hw₂, hw₃, rfl⟩ := h
  have hname : string? (u.tail ++ (w₂ ++ ':' :: (w₃ ++ (t ++ r)))) =
      some (name, w₂ ++ ':' :: (w₃ ++ (t ++ r))) := by
    refine string?_eq_some.2 ⟨u, hu, ?_⟩
    obtain ⟨body, -, rfl⟩ := hu
    rfl
  have hcs : w₁ ++ (u ++ (w₂ ++ ':' :: w₃)) ++ (t ++ r) =
      w₁ ++ '"' :: (u.tail ++ (w₂ ++ ':' :: (w₃ ++ (t ++ r)))) := by
    obtain ⟨body, -, rfl⟩ := hu
    simp
  rw [hcs, member?]
  simp only [expect?_append hw₁ (show isSpace '"' = false by rfl), hname,
    expect?_append hw₂ (show isSpace ':' = false by rfl), hvalue w₃ hw₃, Option.bind_eq_bind,
    Option.bind_some]
  rfl

theorem Names.expect?_ne {before r : List Char} {name : String} {c : Char} (h : Names before name)
    (hc : c ≠ '"') : expect? c (before ++ r) = none := by
  obtain ⟨w, u, w', w'', hw, ⟨body, -, rfl⟩, -, -, rfl⟩ := h
  simp only [List.append_assoc, List.cons_append]
  exact Json.expect?_ne hw rfl hc.symm

/-! By the first character of a value. -/

section first

variable {fuel : Nat} {w : List Char} (hw : Space w) (r : List Char)

include hw

theorem value?_string :
    value? (fuel + 1) (w ++ '"' :: r) = (string? r).map (fun (s, r) => (.string s, r)) := by
  rw [value?, dropWhile_space hw rfl]
  simp only [if_pos]

theorem value?_array : value? (fuel + 1) (w ++ '[' :: r) =
    (group? ']' (value? fuel) r).map (fun (vs, r) => (.array vs, r)) := by
  have hquote : ¬ '[' = '"' := by decide
  rw [value?, dropWhile_space hw rfl]
  simp only [if_pos, if_neg hquote]

theorem value?_object : value? (fuel + 1) (w ++ '\x7b' :: r) =
    (group? '\x7d' (member? (value? fuel)) r).map (fun (ms, r) => (.object ms, r)) := by
  have hquote : ¬ '\x7b' = '"' := by decide
  have hbracket : ¬ '\x7b' = '[' := by decide
  rw [value?, dropWhile_space hw rfl]
  simp only [if_pos, if_neg hquote, if_neg hbracket]

theorem value?_word {c : Char} {p : Value × List Char} (hc : c.isAlpha = true)
    (hword : word? (c :: r) = some p) : value? (fuel + 1) (w ++ c :: r) = some p := by
  have hne : ∀ d : Char, d.isAlpha = false → c ≠ d := by
    rintro d hd rfl
    rw [hd] at hc
    cases hc
  have hspace : isSpace c = false := by
    simp [isSpace, hne ' ' rfl, hne '\t' rfl, hne '\n' rfl, hne '\r' rfl]
  rw [value?, dropWhile_space hw hspace]
  simp only [if_neg (hne '"' rfl), if_neg (hne '[' rfl), if_neg (hne '\x7b' rfl), hword]

theorem value?_number {c : Char} (hc : c = '-' ∨ c.isDigit = true) :
    value? (fuel + 1) (w ++ c :: r) =
      (number? (c :: r)).map (fun (q, r) => (.number q, r)) := by
  have hne : ∀ d : Char, d.isDigit = false → d ≠ '-' → c ≠ d := fun d hd hminus =>
    isDigit_ne hc hd hminus
  have hspace : isSpace c = false := by
    simp [isSpace, hne ' ' rfl (by decide), hne '\t' rfl (by decide), hne '\n' rfl (by decide),
      hne '\r' rfl (by decide)]
  rw [value?, dropWhile_space hw hspace]
  simp only [if_neg (hne '"' rfl (by decide)), if_neg (hne '[' rfl (by decide)),
    if_neg (hne '\x7b' rfl (by decide)), word?_eq_none r hc]

end first

/-- A value is read to its end, which is where it ends in the grammar. -/
theorem value?_append {t : List Char} {v : Value} (h : Writes t v) {fuel : Nat} {w r : List Char}
    (hfuel : t.length ≤ fuel + 1) (hw : Space w) (hr : Ends r) :
    value? (fuel + 1) (w ++ (t ++ r)) = some (v, r) := by
  induction h generalizing fuel w r with
  | null => exact value?_word hw _ rfl rfl
  | bool b =>
    cases b with
    | true => exact value?_word hw _ rfl rfl
    | false => exact value?_word hw _ rfl rfl
  | number h =>
    obtain ⟨c, t', rfl, hc⟩ := h.head
    have hnumber := number?_append h hr.number
    rw [List.cons_append] at hnumber ⊢
    rw [value?_number hw _ hc, hnumber]
    rfl
  | @string t s h =>
    obtain ⟨u, rfl⟩ : ∃ u, t = '"' :: u := by
      obtain ⟨body, -, rfl⟩ := h
      exact ⟨_, rfl⟩
    have hstring : string? (u ++ r) = some (s, r) := string?_eq_some.2 ⟨'"' :: u, h, rfl⟩
    rw [List.cons_append, value?_string hw, hstring]
    rfl
  | noItems hw' =>
    simp only [List.cons_append, List.append_assoc]
    rw [value?_array hw, List.nil_append, group?_empty rfl hw']
    rfl
  | @items ps hne hbefore hafter hwrites ih =>
    simp only [List.cons_append, List.append_assoc]
    rw [value?_array hw, List.nil_append, group?_append rfl (by decide) hne]
    · rfl
    · intro p hp d r' hd
      refine ⟨p.after, hafter p hp, ?_⟩
      have hlength := length_le_of_mem_commas (List.mem_map_of_mem (f := Piece.whole) hp)
      have hpos := (hwrites p hp).length_pos
      simp only [List.length_cons, List.length_append, Piece.whole] at hfuel hlength
      obtain ⟨fuel, rfl⟩ : ∃ k, fuel = k + 1 := ⟨fuel - 1, by omega⟩
      rw [Piece.whole, List.append_assoc, List.append_assoc]
      refine ih p hp (by omega) (hbefore p hp) (.of_space (hafter p hp) ?_)
      exact hd.imp_right .inl
    · intro p hp r'
      obtain ⟨c, t', ht, hc, hbracket, -⟩ := (hwrites p hp).head
      rw [Piece.whole, ht, List.append_assoc, List.cons_append, List.cons_append]
      exact expect?_ne (hbefore p hp) hc hbracket
  | noMembers hw' =>
    simp only [List.cons_append, List.append_assoc]
    rw [value?_object hw, List.nil_append, group?_empty rfl hw']
    rfl
  | @members ms hne hbefore hafter hwrites ih =>
    simp only [List.cons_append, List.append_assoc]
    rw [value?_object hw, List.nil_append, group?_append rfl (by decide) hne]
    · rfl
    · intro m hm d r' hd
      refine ⟨m.2.after, hafter m hm, ?_⟩
      have hlength := length_le_of_mem_commas (List.mem_map_of_mem (f := fun m => m.2.whole) hm)
      have hpos := (hwrites m hm).length_pos
      simp only [List.length_cons, List.length_append, Piece.whole] at hfuel hlength
      obtain ⟨fuel, rfl⟩ : ∃ k, fuel = k + 1 := ⟨fuel - 1, by omega⟩
      rw [Piece.whole, List.append_assoc, List.append_assoc]
      refine member?_append (hbefore m hm) fun w hw => ?_
      refine ih m hm (by omega) hw (.of_space (hafter m hm) ?_)
      exact hd.imp_right .inr
    · intro m hm r'
      rw [Piece.whole, List.append_assoc]
      exact (hbefore m hm).expect?_ne (by decide)

/-! ## Whole texts -/

theorem decode_eq_some {text : String} {v : Value} : decode text = some v ↔
    ∃ r, value? text.toList.length text.toList = some (v, r) ∧ Space r := by
  rw [decode]
  constructor
  · intro h
    obtain ⟨⟨u, r⟩, hu, h⟩ := Option.bind_eq_some_iff.1 h
    dsimp only at h
    split at h
    · rename_i hr
      cases h
      exact ⟨r, hu, List.all_eq_true.1 hr⟩
    · cases h
  · rintro ⟨r, hv, hr⟩
    rw [hv]
    exact if_pos (List.all_eq_true.2 hr)

/-- The decoder finds the value of a text of the grammar, and no value for another text. -/
theorem decode_eq_some_iff {text : String} {v : Value} :
    decode text = some v ↔ IsText text.toList v := by
  rw [decode_eq_some]
  constructor
  · rintro ⟨r, hv, hr⟩
    obtain ⟨w, t, hw, ht, htext⟩ := value_of_some hv
    exact ⟨w, t, r, hw, ht, hr, htext⟩
  · rintro ⟨w, t, r, hw, ht, hr, htext⟩
    refine ⟨r, ?_, hr⟩
    have hpos := ht.length_pos
    obtain ⟨fuel, hfuel⟩ : ∃ k, text.toList.length = k + 1 := by
      refine ⟨text.toList.length - 1, ?_⟩
      simp only [htext, List.length_append]
      omega
    have hle : t.length ≤ fuel + 1 := by
      rw [← hfuel, htext, List.length_append, List.length_append]
      omega
    rw [hfuel, htext]
    refine value?_append ht hle hw ?_
    intro x more hx
    exact .inl (hr x (by simp [hx]))

/-- An escaped pair of surrogates is one character, and the last two texts have values in no
reading: a comma too many, and a leading zero. -/
example : decode " [1, -2.5e1, \"\\u00e9\\uD83D\\ude00\\n\", [ ], \x7b\"k\" : null\x7d]\n" ≠ none ∧
    decode "[1,]" = none ∧ decode "01" = none := by
  decide +kernel

end Json
end ChainLint
