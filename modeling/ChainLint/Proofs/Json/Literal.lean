import ChainLint.Proofs.Json.Decoder
import ChainLint.Proofs.Text.Runs
import Mathlib.Data.List.TakeWhile

/-!
# ChainLint.Proofs.Json.Literal

Strings and numbers are read as the grammar has them.

* `units_of_ofUnits`, `ofUnits_units`: code units stand for one text.
* `string?_eq_some`: a string is read up to its quote.
* `number_of_some`, `number?_append`: a number is read as far as it goes.
-/

namespace ChainLint
namespace Json

/-! ## Strings -/

theorem toNat_ofNat {n : Nat} (h : n.isValidChar) : (Char.ofNat n).toNat = n := by
  rw [Char.ofNat, dif_pos h]
  rfl

theorem unitsOf_ofNat {u : Nat} (h : u < 0xD800 ∨ 0xDFFF < u ∧ u < 0x10000) :
    Text.unitsOf (Char.ofNat u) = [u] := by
  have hvalid : u.isValidChar := by
    rcases h with h | h
    · exact .inl h
    · exact .inr ⟨h.1, by omega⟩
  have hnat := toNat_ofNat hvalid
  rw [Text.unitsOf_narrow (by omega), hnat]

theorem unitsOf_pair {u v : Nat} (hu : 0xD800 ≤ u) (hu' : u < 0xDC00) (hv : 0xDC00 ≤ v)
    (hv' : v ≤ 0xDFFF) :
    Text.unitsOf (Char.ofNat (0x10000 + (u - 0xD800) * 0x400 + (v - 0xDC00))) = [u, v] := by
  have hvalid : (0x10000 + (u - 0xD800) * 0x400 + (v - 0xDC00)).isValidChar :=
    .inr ⟨by omega, by omega⟩
  have hnat := toNat_ofNat hvalid
  have hhigh : 0xD800 + (0x10000 + (u - 0xD800) * 0x400 + (v - 0xDC00) - 0x10000) / 0x400 = u := by
    omega
  have hlow : 0xDC00 + (0x10000 + (u - 0xD800) * 0x400 + (v - 0xDC00) - 0x10000) % 0x400 = v := by
    omega
  rw [Text.unitsOf_wide (by omega), hnat, hhigh, hlow]

theorem units_of_ofUnits {us : List Nat} {cs : List Char} (h : ofUnits us = some cs) :
    us = Text.units cs := by
  fun_induction ofUnits us generalizing cs with
  | case1 =>
    cases h
    rfl
  | case2 u us hu ih =>
    obtain ⟨ds, hds, rfl⟩ := Option.map_eq_some_iff.1 h
    rw [Text.units_cons, unitsOf_ofNat hu, ← ih hds]
    rfl
  | case3 => cases h
  | case4 u hu v us hpair ih =>
    obtain ⟨ds, hds, rfl⟩ := Option.map_eq_some_iff.1 h
    rw [Text.units_cons, unitsOf_pair (by omega) hpair.1 hpair.2.1 hpair.2.2, ← ih hds]
    rfl
  | case5 => cases h

theorem ofUnits_cons {u : Nat} {us : List Nat} (h : u < 0xD800 ∨ 0xDFFF < u ∧ u < 0x10000) :
    ofUnits (u :: us) = (ofUnits us).map (Char.ofNat u :: ·) := by
  rw [ofUnits.eq_def]
  simp only [if_pos h]

theorem ofUnits_units (cs : List Char) : ofUnits (Text.units cs) = some cs := by
  induction cs with
  | nil => rfl
  | cons c cs ih =>
    rw [Text.units_cons]
    have hvalid := Text.toNat_valid c
    by_cases hnarrow : c.toNat < 0x10000
    · have hunit : c.toNat < 0xD800 ∨ 0xDFFF < c.toNat ∧ c.toNat < 0x10000 := by omega
      rw [Text.unitsOf_narrow hnarrow, List.singleton_append, ofUnits_cons hunit, ih]
      exact congrArg (fun d => some (d :: cs)) (Char.ofNat_toNat c)
    · have hhigh : ¬ (0xD800 + (c.toNat - 0x10000) / 0x400 < 0xD800 ∨
          0xDFFF < 0xD800 + (c.toNat - 0x10000) / 0x400 ∧
            0xD800 + (c.toNat - 0x10000) / 0x400 < 0x10000) := by omega
      have hlow : 0xD800 + (c.toNat - 0x10000) / 0x400 < 0xDC00 ∧
          0xDC00 ≤ 0xDC00 + (c.toNat - 0x10000) % 0x400 ∧
          0xDC00 + (c.toNat - 0x10000) % 0x400 ≤ 0xDFFF := by omega
      have hback : 0x10000 + (0xD800 + (c.toNat - 0x10000) / 0x400 - 0xD800) * 0x400 +
          (0xDC00 + (c.toNat - 0x10000) % 0x400 - 0xDC00) = c.toNat := by omega
      rw [Text.unitsOf_wide hnarrow]
      simp only [List.cons_append, List.nil_append]
      rw [ofUnits, if_neg hhigh]
      simp only [if_pos hlow, hback, ih, Char.ofNat_toNat, Option.map_some]

theorem lookup_shortEscapes {e c : Char} :
    shortEscapes.lookup e = some c ↔ (e, c) ∈ shortEscapes := by
  constructor
  · intro h
    obtain ⟨before, after, heq, -⟩ := List.lookup_eq_some_iff.1 h
    simp [heq]
  · intro h
    simp only [shortEscapes, List.mem_cons, Prod.mk.injEq, List.not_mem_nil, or_false] at h
    rcases h with ⟨rfl, rfl⟩ | ⟨rfl, rfl⟩ | ⟨rfl, rfl⟩ | ⟨rfl, rfl⟩ | ⟨rfl, rfl⟩ | ⟨rfl, rfl⟩ |
      ⟨rfl, rfl⟩ | ⟨rfl, rfl⟩ <;> rfl

/-! What the next characters do. -/

theorem units?_quote (r : List Char) : units? ('"' :: r) = some ([], r) := by
  rw [units?.eq_def]
  simp only [if_pos]

theorem units?_plain {c : Char} {r : List Char} (hc : 32 ≤ c.toNat) (hquote : c ≠ '"')
    (hslash : c ≠ '\\') :
    units? (c :: r) = (units? r).map (fun (us, r) => (Text.unitsOf c ++ us, r)) := by
  rw [units?.eq_def]
  simp only [if_neg hquote, if_neg hslash, if_neg (Nat.not_lt.2 hc)]

theorem units?_short {e c : Char} {r : List Char} (he : (e, c) ∈ shortEscapes) :
    units? ('\\' :: e :: r) = (units? r).map (fun (us, r) => (c.toNat :: us, r)) := by
  have hquote : ¬ '\\' = '"' := by decide
  have hu : e ≠ 'u' := by
    rintro rfl
    simp [shortEscapes] at he
  rw [units?.eq_def]
  simp only [if_neg hquote, if_neg hu, if_pos, lookup_shortEscapes.2 he]

theorem units?_code {a b c d : Char} {n : Nat} {r : List Char} (hn : hexUnit? a b c d = some n) :
    units? ('\\' :: 'u' :: a :: b :: c :: d :: r) =
      (units? r).map (fun (us, r) => (n :: us, r)) := by
  have hquote : ¬ '\\' = '"' := by decide
  rw [units?.eq_def]
  simp only [if_neg hquote, if_pos, hn]

theorem units?_eq_some {cs r : List Char} {us : List Nat} :
    units? cs = some (us, r) ↔ ∃ body, Units body us ∧ cs = body ++ '"' :: r := by
  constructor
  · intro h
    fun_induction units? cs generalizing us with
    | case1 => cases h
    | case2 cs =>
      cases h
      exact ⟨[], .nil, rfl⟩
    | case3 => cases h
    | case4 a b c d rest n hunit hslash ih =>
      obtain ⟨⟨vs, r'⟩, hrest, heq⟩ := Option.map_eq_some_iff.1 h
      cases heq
      obtain ⟨body, hbody, rfl⟩ := ih hrest
      exact ⟨_, .code hunit hbody, rfl⟩
    | case5 => cases h
    | case6 => cases h
    | case7 e rest he c hc hslash ih =>
      obtain ⟨⟨vs, r'⟩, hrest, heq⟩ := Option.map_eq_some_iff.1 h
      cases heq
      obtain ⟨body, hbody, rfl⟩ := ih hrest
      exact ⟨_, .short (lookup_shortEscapes.1 hc) hbody, rfl⟩
    | case8 => cases h
    | case9 => cases h
    | case10 c rest hquote hslash hcontrol ih =>
      obtain ⟨⟨vs, r'⟩, hrest, heq⟩ := Option.map_eq_some_iff.1 h
      cases heq
      obtain ⟨body, hbody, rfl⟩ := ih hrest
      exact ⟨_, .plain (Nat.not_lt.1 hcontrol) hquote hslash hbody, rfl⟩
  · rintro ⟨body, hbody, rfl⟩
    induction hbody with
    | nil => exact units?_quote r
    | plain hc hquote hslash _ ih =>
      rw [List.cons_append, units?_plain hc hquote hslash, ih]
      rfl
    | short he _ ih =>
      rw [List.cons_append, List.cons_append, units?_short he, ih]
      rfl
    | code hn _ ih =>
      simp only [List.cons_append]
      rw [units?_code hn, ih]
      rfl

/-- A string ends at its quote, whatever follows. -/
theorem string?_eq_some {cs r : List Char} {s : String} :
    string? cs = some (s, r) ↔ ∃ t, IsString t s ∧ '"' :: cs = t ++ r := by
  have hstring : string? cs = some (s, r) ↔
      ∃ us ds, units? cs = some (us, r) ∧ ofUnits us = some ds ∧ String.ofList ds = s := by
    cases hus : units? cs with
    | none => simp [string?, hus]
    | some p =>
      obtain ⟨us, r'⟩ := p
      cases hds : ofUnits us with
      | none => simp [string?, hus, hds]
      | some ds => simp [string?, hus, hds, and_comm]
  rw [hstring]
  constructor
  · rintro ⟨us, ds, hus, hds, rfl⟩
    obtain ⟨body, hbody, rfl⟩ := units?_eq_some.1 hus
    refine ⟨'"' :: (body ++ ['"']), ⟨body, ?_, rfl⟩, by simp⟩
    rw [String.toList_ofList, ← units_of_ofUnits hds]
    exact hbody
  · rintro ⟨t, ⟨body, hbody, rfl⟩, heq⟩
    refine ⟨_, s.toList, units?_eq_some.2 ⟨body, hbody, ?_⟩, ofUnits_units _, by simp⟩
    simpa using heq

/-! ## Numbers -/

/-- No number goes on with the text. -/
def NumberEnds (r : List Char) : Prop :=
  ∀ x more, r = x :: more → x.isDigit = false ∧ x ≠ '.' ∧ x ≠ 'e' ∧ x ≠ 'E'

theorem digits?_eq_some {cs ds r : List Char} :
    digits? cs = some (ds, r) ↔
      Digits ds ∧ cs = ds ++ r ∧ ∀ x more, r = x :: more → x.isDigit = false := by
  constructor
  · intro h
    rw [digits?] at h
    split at h
    · cases h
    · rename_i hne
      cases h
      refine ⟨⟨hne, fun c hc => List.mem_takeWhile_imp hc⟩, ?_, ?_⟩
      · exact List.takeWhile_append_dropWhile.symm
      · intro x more hx
        exact head_dropWhile hx
  · rintro ⟨hds, rfl, hr⟩
    rw [digits?, takeWhile_run hds.isDigit hr, dropWhile_run hds.isDigit hr, if_neg hds.ne_nil]

/-- What digits begin with is neither a sign nor a mark of a fraction or an exponent. -/
theorem Digits.head {ds r more : List Char} {x : Char} (h : Digits ds) (hx : ds ++ r = x :: more) :
    x.isDigit = true := by
  obtain ⟨d, ds', rfl⟩ := List.exists_cons_of_ne_nil h.ne_nil
  obtain ⟨rfl, -⟩ := List.cons.inj hx
  exact h.isDigit d (by simp)

theorem fraction_of_some {cs fs r : List Char} (h : fraction? cs = some (fs, r)) :
    ∃ f, IsFraction f fs ∧ cs = f ++ r := by
  cases cs with
  | nil =>
    cases h
    exact ⟨[], .none, rfl⟩
  | cons c cs =>
    rw [fraction?] at h
    split at h
    · rename_i hc
      obtain ⟨hfs, rfl, -⟩ := digits?_eq_some.1 h
      exact ⟨c :: fs, hc ▸ .some hfs, rfl⟩
    · cases h
      exact ⟨[], .none, rfl⟩

theorem fraction?_append {f fs r : List Char} (h : IsFraction f fs)
    (hr : ∀ x more, r = x :: more → x.isDigit = false ∧ x ≠ '.') :
    fraction? (f ++ r) = some (fs, r) := by
  cases h with
  | none =>
    cases r with
    | nil => rfl
    | cons x more => rw [List.nil_append, fraction?, if_neg (hr x more rfl).2]
  | some hfs =>
    rw [List.cons_append, fraction?, if_pos rfl]
    exact digits?_eq_some.2 ⟨hfs, rfl, fun x more hx => (hr x more hx).1⟩

theorem signed_of_some {cs r : List Char} {e : Int} (h : signed? cs = some (e, r)) :
    ∃ t, IsSigned t e ∧ cs = t ++ r := by
  cases cs with
  | nil => cases h
  | cons c cs =>
    rw [signed?] at h
    split at h
    · rename_i hc
      obtain ⟨⟨ds, r'⟩, hdigits, heq⟩ := Option.map_eq_some_iff.1 h
      obtain ⟨hds, rfl, -⟩ := digits?_eq_some.1 hdigits
      cases heq
      exact ⟨_, .plus hds, by rw [hc]; rfl⟩
    · split at h
      · rename_i hc
        obtain ⟨⟨ds, r'⟩, hdigits, heq⟩ := Option.map_eq_some_iff.1 h
        obtain ⟨hds, rfl, -⟩ := digits?_eq_some.1 hdigits
        cases heq
        exact ⟨_, .minus hds, by rw [hc]; rfl⟩
      · obtain ⟨⟨ds, r'⟩, hdigits, heq⟩ := Option.map_eq_some_iff.1 h
        obtain ⟨hds, hcs, -⟩ := digits?_eq_some.1 hdigits
        cases heq
        exact ⟨ds, .plain hds, hcs⟩

theorem signed?_append {t r : List Char} {e : Int} (h : IsSigned t e)
    (hr : ∀ x more, r = x :: more → x.isDigit = false) : signed? (t ++ r) = some (e, r) := by
  cases h with
  | plus hds =>
    rw [List.cons_append, signed?, if_pos rfl, digits?_eq_some.2 ⟨hds, rfl, hr⟩]
    rfl
  | minus hds =>
    rw [List.cons_append, signed?, if_neg (by decide), if_pos rfl,
      digits?_eq_some.2 ⟨hds, rfl, hr⟩]
    rfl
  | plain hds =>
    have hdigits := digits?_eq_some.2 ⟨hds, rfl, hr⟩
    cases hcs : t ++ r with
    | nil => exact absurd (List.append_eq_nil_iff.1 hcs).1 hds.ne_nil
    | cons c cs =>
      have hc := hds.head hcs
      have hplus : c ≠ '+' := by
        rintro rfl
        cases hc
      have hminus : c ≠ '-' := by
        rintro rfl
        cases hc
      rw [hcs] at hdigits
      rw [signed?, if_neg hplus, if_neg hminus, hdigits]
      rfl

theorem exponent_of_some {cs r : List Char} {e : Int} (h : exponent? cs = some (e, r)) :
    ∃ x, IsExponent x e ∧ cs = x ++ r := by
  cases cs with
  | nil =>
    cases h
    exact ⟨[], .none, rfl⟩
  | cons c cs =>
    rw [exponent?] at h
    split at h
    · rename_i hmark
      obtain ⟨t, ht, rfl⟩ := signed_of_some h
      exact ⟨c :: t, .some hmark ht, rfl⟩
    · cases h
      exact ⟨[], .none, rfl⟩

theorem exponent?_append {x r : List Char} {e : Int} (h : IsExponent x e) (hr : NumberEnds r) :
    exponent? (x ++ r) = some (e, r) := by
  cases h with
  | none =>
    cases r with
    | nil => rfl
    | cons c more =>
      obtain ⟨-, -, he, hE⟩ := hr c more rfl
      rw [List.nil_append, exponent?, if_neg (not_or.2 ⟨he, hE⟩)]
  | some hmark ht =>
    rw [List.cons_append, exponent?, if_pos hmark]
    exact signed?_append ht fun c more hc => (hr c more hc).1

theorem IsExponent.head {x r more : List Char} {e : Int} {c : Char} (h : IsExponent x e)
    (hr : NumberEnds r) (hc : x ++ r = c :: more) : c.isDigit = false ∧ c ≠ '.' := by
  cases h with
  | none =>
    obtain ⟨hdigit, hpoint, -⟩ := hr c more hc
    exact ⟨hdigit, hpoint⟩
  | some hmark _ =>
    obtain ⟨rfl, -⟩ := List.cons.inj hc
    rcases hmark with rfl | rfl
    · decide
    · decide

theorem IsFraction.head {f fs r more : List Char} {c : Char} (h : IsFraction f fs)
    (hr : ∀ x more, r = x :: more → x.isDigit = false) (hc : f ++ r = c :: more) :
    c.isDigit = false := by
  cases h with
  | none => exact hr c more hc
  | some _ =>
    obtain ⟨rfl, -⟩ := List.cons.inj hc
    rfl

theorem sign_append {negative : Bool} {cs : List Char} (h : ∀ x more, cs = x :: more → x ≠ '-') :
    sign ((if negative then ['-'] else []) ++ cs) = (negative, cs) := by
  cases negative with
  | true => rfl
  | false =>
    cases cs with
    | nil => rfl
    | cons c more => exact if_neg (h c more rfl)

theorem eq_of_sign {cs r : List Char} {negative : Bool} (h : sign cs = (negative, r)) :
    cs = (if negative then ['-'] else []) ++ r := by
  cases cs with
  | nil =>
    cases h
    rfl
  | cons c cs =>
    rw [sign] at h
    split at h
    · rename_i hc
      cases h
      rw [hc]
      rfl
    · cases h
      rfl

theorem number_of_some {cs r : List Char} {q : Rat} (h : number? cs = some (q, r)) :
    ∃ t, IsNumber t q ∧ cs = t ++ r := by
  obtain ⟨negative, cs₀, hsign⟩ : ∃ negative cs₀, sign cs = (negative, cs₀) := ⟨_, _, rfl⟩
  simp only [number?, hsign] at h
  obtain ⟨⟨ds, cs₁⟩, hdigits, hrest⟩ := Option.bind_eq_some_iff.1 h
  obtain ⟨hds, rfl, -⟩ := digits?_eq_some.1 hdigits
  by_cases hzero : ds.head? = some '0' ∧ ds ≠ ['0']
  · simp only [if_pos hzero] at hrest
    cases hrest
  · simp only [if_neg hzero] at hrest
    obtain ⟨⟨fs, cs₂⟩, hfraction, hrest⟩ := Option.bind_eq_some_iff.1 hrest
    obtain ⟨⟨e, cs₃⟩, hexponent, hrest⟩ := Option.bind_eq_some_iff.1 hrest
    cases hrest
    obtain ⟨f, hf, rfl⟩ := fraction_of_some hfraction
    obtain ⟨x, hx, rfl⟩ := exponent_of_some hexponent
    rw [not_and, not_not] at hzero
    refine ⟨_, .mk negative hds hzero hf hx, ?_⟩
    rw [eq_of_sign hsign]
    simp only [List.append_assoc]

theorem number?_append {t r : List Char} {q : Rat} (h : IsNumber t q) (hr : NumberEnds r) :
    number? (t ++ r) = some (q, r) := by
  cases h with
  | @mk negative ds f fs x e hds hzero hf hx =>
    have hexponent : ∀ c more, x ++ r = c :: more → c.isDigit = false ∧ c ≠ '.' :=
      fun c more hc => hx.head hr hc
    have hfraction : ∀ c more, f ++ (x ++ r) = c :: more → c.isDigit = false :=
      fun c more hc => hf.head (fun c more hc => (hexponent c more hc).1) hc
    have hsign : sign ((if negative then ['-'] else []) ++ (ds ++ (f ++ (x ++ r)))) =
        (negative, ds ++ (f ++ (x ++ r))) := by
      refine sign_append ?_
      rintro c more hc rfl
      cases hds.head hc
    have hzero' : ¬ (ds.head? = some '0' ∧ ds ≠ ['0']) := fun h => h.2 (hzero h.1)
    simp only [List.append_assoc]
    simp only [number?, hsign, digits?_eq_some.2 ⟨hds, rfl, hfraction⟩, Option.bind_eq_bind,
      Option.bind_some, if_neg hzero', fraction?_append hf hexponent, exponent?_append hx hr]
    rfl

end Json
end ChainLint
