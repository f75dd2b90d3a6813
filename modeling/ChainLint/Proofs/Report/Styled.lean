import ChainLint.Proofs.Text.Split
import ChainLint.Terminal

/-!
# ChainLint.Proofs.Report.Styled

Styled text and what is left of it without the sequences that set a style.

* `Plain`: a text in which no sequence can begin. Numbers are plain, and so is what is put together
  from plain texts or cut out of one.
* `Shows`: what is left of a text without its sequences, whatever comes after it. The second half
  matters, since a sequence that is begun in one text may end in the next one; with it, `Shows`
  goes through concatenation.
* `shows_paint`: a plain text in a style shows that text.

Most pieces of a report are literals; the lemmas that put a text together find out for themselves
that those are plain.
-/

namespace ChainLint
namespace Terminal

def Plain (s : String) : Prop := escape ∉ s.toList

instance (s : String) : Decidable (Plain s) := inferInstanceAs (Decidable (escape ∉ s.toList))

/-! ## Plain texts -/

@[simp] theorem plain_append {s t : String} : Plain (s ++ t) ↔ Plain s ∧ Plain t := by
  simp [Plain]

theorem Plain.append {s t : String} (hs : Plain s) (ht : Plain t) : Plain (s ++ t) :=
  plain_append.2 ⟨hs, ht⟩

/-- For a literal, whose characters are then compared without taking its bytes apart. -/
theorem plain_ofList {cs : List Char} (h : escape ∉ cs) : Plain (String.ofList cs) := by
  rwa [Plain, String.toList_ofList]

@[simp] theorem plain_nat (n : Nat) : Plain n.repr := by
  intro h
  have hdigits : escape ∈ Nat.toDigits 10 n := by simpa using h
  exact absurd (Nat.isDigit_of_mem_toDigits (by decide) (by decide) hdigits) (by decide)

@[simp] theorem plain_int (n : Int) : Plain n.repr := by
  cases n with
  | ofNat n => exact plain_nat n
  | negSucc n => exact Plain.append (s := "-") (by decide) (plain_nat (n + 1))

theorem plain_joinWith {sep : String} {l : List String} (hsep : Plain sep)
    (hl : ∀ s ∈ l, Plain s) : Plain (Text.joinWith sep l) := by
  fun_induction Text.joinWith sep l with
  | case1 => decide
  | case2 s => exact hl s (by simp)
  | case3 s rest _ ih =>
    exact ((hl s (by simp)).append hsep).append (ih (fun t ht => hl t (by simp [ht])))

theorem plain_of_mem_splitAt {sep : Char} {s piece : String} (hs : Plain s)
    (h : piece ∈ Text.splitAt sep s) : Plain piece := by
  obtain ⟨cs, hcs, rfl⟩ := List.mem_map.1 h
  intro hescape
  exact hs (Text.mem_of_mem_splitChars hcs (by simpa using hescape))

/-! ## Taking sequences out -/

/-- Without its sequences, the first text is the second one, whatever follows it. -/
def Shows (styled shown : String) : Prop :=
  ∀ rest, stripChars 0 (styled.toList ++ rest) = shown.toList ++ stripChars 0 rest

theorem Shows.strip_eq {styled shown : String} (h : Shows styled shown) :
    strip styled = shown := by
  have hall := h []
  rw [List.append_nil, stripChars, List.append_nil] at hall
  rw [strip, hall, String.ofList_toList]

theorem Shows.append {a b c d : String} (h₁ : Shows a b) (h₂ : Shows c d) :
    Shows (a ++ c) (b ++ d) := by
  intro rest
  rw [String.toList_append, String.toList_append, List.append_assoc, h₁, h₂, List.append_assoc]

theorem sequenceLength_of_ne {c : Char} (h : c ≠ escape) (cs : List Char) :
    sequenceLength (c :: cs) = none := by
  cases cs with
  | nil => rfl
  | cons d cs => simp [sequenceLength, h]

theorem stripChars_plain {cs : List Char} (h : escape ∉ cs) (rest : List Char) :
    stripChars 0 (cs ++ rest) = cs ++ stripChars 0 rest := by
  induction cs with
  | nil => rfl
  | cons c cs ih =>
    rw [List.mem_cons, not_or] at h
    rw [List.cons_append, stripChars, sequenceLength_of_ne (Ne.symm h.1), ih h.2, List.cons_append]

theorem shows_plain {s : String} (h : Plain s) : Shows s s := stripChars_plain h

theorem shows_empty : Shows "" "" := shows_plain (by decide)

theorem stripChars_skip (cs rest : List Char) :
    stripChars cs.length (cs ++ rest) = stripChars 0 rest := by
  induction cs with
  | nil => rfl
  | cons c cs ih => exact ih

theorem stripChars_sequence {code : String} (hcode : code.toList.all isParameter = true)
    (rest : List Char) : stripChars 0 (sequence code ++ rest) = stripChars 0 rest := by
  have h : ∀ c ∈ code.toList, isParameter c = true := List.all_eq_true.1 hcode
  have hlength : sequenceLength (sequence code ++ rest) = some (code.toList.length + 3) := by
    simp only [sequence, List.cons_append, List.append_assoc, List.nil_append, sequenceLength]
    rw [List.dropWhile_append_of_pos h, List.takeWhile_append_of_pos h]
    simp [isParameter]
  rw [show sequence code ++ rest = escape :: (('[' :: (code.toList ++ ['m'])) ++ rest) from rfl,
    stripChars]
  rw [show escape :: (('[' :: (code.toList ++ ['m'])) ++ rest) = sequence code ++ rest from rfl,
    hlength]
  have hskip := stripChars_skip ('[' :: (code.toList ++ ['m'])) rest
  simpa using hskip

/-! ## Styles -/

theorem stripChars_on (style : Style) (rest : List Char) :
    stripChars 0 (style.on ++ rest) = stripChars 0 rest := by
  cases style <;> exact stripChars_sequence (by decide) rest

theorem stripChars_off (style : Style) (rest : List Char) :
    stripChars 0 (style.off ++ rest) = stripChars 0 rest := by
  cases style <;> exact stripChars_sequence (by decide) rest

/-- Nothing has to be turned on again in a plain text. -/
theorem reopen_plain {code : String} {again cs : List Char} (h : escape ∉ cs) (wait : Nat) :
    reopen (sequence code) again wait 0 cs = cs := by
  induction cs generalizing wait with
  | nil => rfl
  | cons c cs ih =>
    rw [List.mem_cons, not_or] at h
    have hclose : (sequence code).isPrefixOf (c :: cs) = false := by
      simp [sequence, List.isPrefixOf, h.1]
    rw [reopen, if_neg (by simp [hclose]), ih h.2]

theorem paintChars_plain {cs : List Char} (h : escape ∉ cs) (style : Style) :
    paintChars style cs = style.on ++ cs ++ style.off := by
  have hreopen : reopen style.off style.again style.on.length 0 cs = cs := by
    cases style <;> exact reopen_plain h _
  rw [paintChars, hreopen]

theorem shows_paint {text : String} (h : Plain text) (colour : Bool) (style : Style) :
    Shows (paint colour style text) text := by
  cases colour with
  | false => exact shows_plain h
  | true =>
    intro rest
    rw [paint, if_pos rfl, String.toList_ofList, paintChars_plain h, List.append_assoc,
      List.append_assoc, stripChars_on, stripChars_plain h, stripChars_off]

theorem shows_painted {text : String} {colour : Bool} {style : Style} (h : Plain text) :
    Shows (paint colour style text) (paint false style text) :=
  shows_paint h colour style

/-- A text goes on with a plain one. -/
theorem Shows.plain {a b text : String} (h : Shows a b) (ht : Plain text := by decide) :
    Shows (a ++ text) (b ++ text) :=
  h.append (shows_plain ht)

/-- A text goes on with a plain one in a style. -/
theorem Shows.painted {a b text : String} {colour : Bool} {style : Style} (h : Shows a b)
    (ht : Plain text := by decide) :
    Shows (a ++ paint colour style text) (b ++ paint false style text) :=
  h.append (shows_painted ht)

end Terminal
end ChainLint
