import ChainLint.Directive
import ChainLint.Proofs.Text.Runs
import Mathlib.Data.List.Basic
import Mathlib.Data.List.TakeWhile

/-!
# ChainLint.Proofs.Directive

The grammar of suppression comments, and that exactly these are read.

* `Marks`: white space and the word `noqa` behind a hash sign. `FirstMark`: the leftmost one.
* `IsCode`, `Lists`, `ListsAfter`: a code, a list of codes that reaches as far as it can, and such a
  list behind a mark.
* `Reads`: what a directive says, by what follows its mark.
* `codesFrom_of_lists`, `exists_lists`: the codes that are read are those of the list, and what
  starts with a letter is a list.
* `directive_grammar`: the directive of a line is the one that its first mark gives, and the
  directives of a text are those of its lines.
-/

namespace ChainLint
namespace Directive

/-! ## Grammar -/

/-- A hash sign in front of `after` starts a directive, with `rest` behind the word. -/
def Marks (after rest : List Char) : Prop :=
  ∃ blanks word, after = blanks ++ word ++ rest ∧ (∀ x ∈ blanks, Text.isBlank x = true) ∧
    word.map Char.toLower = ['n', 'o', 'q', 'a']

/-- The leftmost mark of a line, with `rest` behind it. -/
def FirstMark (line rest : List Char) : Prop :=
  ∃ before after, line = before ++ '#' :: after ∧ Marks after rest ∧
    ∀ before' after' rest', line = before' ++ '#' :: after' → before'.length < before.length →
      ¬ Marks after' rest'

/-- Letters and, behind them, digits. -/
def IsCode (c : List Char) : Prop :=
  ∃ letters digits, c = letters ++ digits ∧ letters ≠ [] ∧ (∀ x ∈ letters, x.isAlpha = true) ∧
    ∀ x ∈ digits, x.isDigit = true

/-- The code `c` does not go on in `post`. -/
structure CodeEnds (c post : List Char) : Prop where
  digit : ∀ x more, post = x :: more → x.isDigit = false
  letter : (∀ x ∈ c, x.isDigit = false) → ∀ x more, post = x :: more → x.isAlpha = false

/-- No further code follows in `post`. -/
def ListEnds (post : List Char) : Prop :=
  ∀ s x more, post = s ++ x :: more → s ≠ [] → (∀ y ∈ s, isSeparator y = true) →
    x.isAlpha = false

/-- The text starts with the codes, with commas and white space between any two, and the list goes
as far as it can. -/
inductive Lists : List Char → List (List Char) → Prop where
  | last {c post : List Char} (hc : IsCode c) (hcode : CodeEnds c post) (hlist : ListEnds post) :
      Lists (c ++ post) [c]
  | more {c s rest : List Char} {codes : List (List Char)} (hc : IsCode c) (hne : s ≠ [])
      (hs : ∀ x ∈ s, isSeparator x = true) (hrest : Lists rest codes) :
      Lists (c ++ (s ++ rest)) (c :: codes)

/-- At most one character of white space. -/
def IsGap (w : List Char) : Prop := w = [] ∨ ∃ b, Text.isBlank b = true ∧ w = [b]

/-- A colon and a list behind a mark. -/
def ListsAfter (rest : List Char) (codes : List (List Char)) : Prop :=
  ∃ w text, rest = ':' :: (w ++ text) ∧ IsGap w ∧ Lists text codes

/-- What a directive says: the codes behind its mark, in capitals, and everything if there are
none. -/
inductive Reads (rest : List Char) : Directive → Prop where
  | codes {codes : List (List Char)} (h : ListsAfter rest codes) :
      Reads rest (.codes (codes.map (fun c => String.ofList (c.map Char.toUpper))))
  | all (h : ∀ codes, ¬ ListsAfter rest codes) : Reads rest .all

/-! ## Characters -/

theorem isAlpha_of_isBlank {x : Char} (h : Text.isBlank x = true) : x.isAlpha = false := by
  by_contra halpha
  rw [Bool.not_eq_false, isAlpha_iff] at halpha
  simp only [Text.isBlank, Bool.or_eq_true, Bool.and_eq_true, decide_eq_true_eq, beq_iff_eq] at h
  omega

theorem isDigit_of_isBlank {x : Char} (h : Text.isBlank x = true) : x.isDigit = false := by
  by_contra hdigit
  rw [Bool.not_eq_false, isDigit_iff] at hdigit
  simp only [Text.isBlank, Bool.or_eq_true, Bool.and_eq_true, decide_eq_true_eq, beq_iff_eq] at h
  omega

theorem isDigit_of_isAlpha {x : Char} (h : x.isAlpha = true) : x.isDigit = false := by
  by_contra hdigit
  rw [Bool.not_eq_false, isDigit_iff] at hdigit
  rw [isAlpha_iff] at h
  omega

theorem isAlpha_of_isSeparator {x : Char} (h : isSeparator x = true) : x.isAlpha = false := by
  rw [isSeparator, Bool.or_eq_true, beq_iff_eq] at h
  rcases h with rfl | h
  · rfl
  · exact isAlpha_of_isBlank h

theorem isDigit_of_isSeparator {x : Char} (h : isSeparator x = true) : x.isDigit = false := by
  rw [isSeparator, Bool.or_eq_true, beq_iff_eq] at h
  rcases h with rfl | h
  · rfl
  · exact isDigit_of_isBlank h

theorem toLower_of_isBlank {x : Char} (h : Text.isBlank x = true) : x.toLower = x := by
  have hcapital : ¬(x.val ≥ 'A'.val ∧ x.val ≤ 'Z'.val) := by
    rintro ⟨hlow, hhigh⟩
    have halpha : x.isAlpha = true :=
      isAlpha_iff.2 (.inl ⟨UInt32.le_iff_toNat_le.1 hlow, UInt32.le_iff_toNat_le.1 hhigh⟩)
    rw [isAlpha_of_isBlank h] at halpha
    cases halpha
  exact dif_neg hcapital

/-! ## One code -/

theorem IsCode.ne_nil {c : List Char} (h : IsCode c) : c ≠ [] := by
  obtain ⟨letters, digits, rfl, hne, -, -⟩ := h
  simp [hne]

theorem IsCode.head {c post more : List Char} {x : Char} (h : IsCode c)
    (hx : c ++ post = x :: more) : x.isAlpha = true := by
  obtain ⟨letters, digits, rfl, hne, hletters, -⟩ := h
  obtain ⟨y, ys, rfl⟩ := List.exists_cons_of_ne_nil hne
  obtain ⟨rfl, -⟩ := List.cons.inj hx
  exact hletters y (by simp)

theorem code_append {c post : List Char} (hc : IsCode c) (hpost : CodeEnds c post) :
    code (c ++ post) = some (c, post) := by
  obtain ⟨letters, digits, rfl, hne, hletters, hdigits⟩ := hc
  have hbehind : ∀ x more, digits ++ post = x :: more → x.isAlpha = false := by
    intro x more hx
    cases digits with
    | nil =>
      refine hpost.letter (fun y hy => ?_) x more hx
      exact isDigit_of_isAlpha (hletters y (by simpa using hy))
    | cons d digits =>
      obtain ⟨rfl, -⟩ := List.cons.inj hx
      by_contra halpha
      have hdigit := isDigit_of_isAlpha (by simpa using halpha)
      simp [hdigits d (by simp)] at hdigit
  have htake : ((letters ++ digits) ++ post).takeWhile isLetter = letters := by
    rw [List.append_assoc]
    exact takeWhile_run hletters hbehind
  have hdrop : ((letters ++ digits) ++ post).dropWhile isLetter = digits ++ post := by
    rw [List.append_assoc]
    exact dropWhile_run hletters hbehind
  rw [code, htake, hdrop]
  split
  · exact absurd rfl hne
  · simp only [takeWhile_run hdigits hpost.digit, dropWhile_run hdigits hpost.digit]

/-- What starts with a letter starts with a code. -/
theorem exists_code {x : Char} (hx : x.isAlpha = true) (more : List Char) :
    ∃ c post, x :: more = c ++ post ∧ IsCode c ∧ CodeEnds c post := by
  have hrest : ∀ y ys, ((x :: more).dropWhile Char.isAlpha).dropWhile Char.isDigit = y :: ys →
      y.isDigit = false := fun y ys hy => head_dropWhile hy
  refine ⟨(x :: more).takeWhile Char.isAlpha ++
      ((x :: more).dropWhile Char.isAlpha).takeWhile Char.isDigit,
    ((x :: more).dropWhile Char.isAlpha).dropWhile Char.isDigit, ?_, ?_, hrest, ?_⟩
  · rw [List.append_assoc, List.takeWhile_append_dropWhile, List.takeWhile_append_dropWhile]
  · refine ⟨_, _, rfl, ?_, fun y hy => List.mem_takeWhile_imp hy,
      fun y hy => List.mem_takeWhile_imp hy⟩
    rw [List.takeWhile_cons_of_pos hx]
    simp
  · -- Without digits, the rest is what the letters leave.
    intro hnone y ys hy
    have hdigits : ((x :: more).dropWhile Char.isAlpha).takeWhile Char.isDigit = [] := by
      rw [List.eq_nil_iff_forall_not_mem]
      intro z hz
      have hdigit := List.mem_takeWhile_imp hz
      rw [hnone z (List.mem_append_right _ hz)] at hdigit
      cases hdigit
    have hself := List.takeWhile_append_dropWhile (p := Char.isDigit)
      (l := (x :: more).dropWhile Char.isAlpha)
    rw [hdigits, List.nil_append] at hself
    exact head_dropWhile (hself.symm.trans hy)

theorem code_eq_none {text : List Char} (h : ∀ x more, text = x :: more → x.isAlpha = false) :
    code text = none := by
  rw [code, takeWhile_eq_nil (p := isLetter) h]

/-! ## Lists of codes -/

theorem Lists.head {text : List Char} {codes : List (List Char)} (h : Lists text codes) :
    ∃ x more, text = x :: more ∧ x.isAlpha = true := by
  obtain ⟨c, post, htext, hc⟩ : ∃ c post, text = c ++ post ∧ IsCode c := by
    cases h with
    | last hc => exact ⟨_, _, rfl, hc⟩
    | more hc => exact ⟨_, _, rfl, hc⟩
  obtain ⟨x, more, hx⟩ := List.exists_cons_of_ne_nil (l := c ++ post) (by simp [hc.ne_nil])
  exact ⟨x, more, htext.trans hx, hc.head hx⟩

theorem Lists.ne_nil {text : List Char} {codes : List (List Char)} (h : Lists text codes) :
    codes ≠ [] := by
  cases h with
  | last => simp
  | more => simp

theorem codesFrom_eq_nil {text : List Char} (h : ∀ x more, text = x :: more → x.isAlpha = false)
    (fuel : Nat) : codesFrom fuel text = [] := by
  cases fuel with
  | zero => rfl
  | succ fuel => rw [codesFrom, code_eq_none h]

/-- A code ends where separators begin. -/
theorem codeEnds_of_separator {c s rest : List Char} (hne : s ≠ [])
    (hs : ∀ x ∈ s, isSeparator x = true) : CodeEnds c (s ++ rest) := by
  obtain ⟨y, ys, rfl⟩ := List.exists_cons_of_ne_nil hne
  have hy := hs y (by simp)
  constructor
  · intro x more hx
    obtain ⟨rfl, -⟩ := List.cons.inj hx
    exact isDigit_of_isSeparator hy
  · intro _ x more hx
    obtain ⟨rfl, -⟩ := List.cons.inj hx
    exact isAlpha_of_isSeparator hy

/-- Behind the separators, a list that ends has no letter. -/
theorem ListEnds.head_dropWhile {post : List Char} (h : ListEnds post)
    (hne : post.takeWhile isSeparator ≠ []) :
    ∀ x more, post.dropWhile isSeparator = x :: more → x.isAlpha = false := by
  intro x more hx
  refine h _ x more ?_ hne (fun y hy => List.mem_takeWhile_imp hy)
  rw [← hx, List.takeWhile_append_dropWhile]

/-- The codes that are read are those of the list; the length of the text is fuel enough. -/
theorem codesFrom_of_lists {text : List Char} {codes : List (List Char)} (h : Lists text codes)
    {fuel : Nat} (hfuel : text.length ≤ fuel) : codesFrom fuel text = codes := by
  induction h generalizing fuel with
  | @last c post hc hcode hlist =>
    have hlen := List.length_pos_iff.2 hc.ne_nil
    rw [List.length_append] at hfuel
    obtain ⟨fuel, rfl⟩ : ∃ k, fuel = k + 1 := ⟨fuel - 1, by omega⟩
    rw [codesFrom, code_append hc hcode]
    simp only [List.isEmpty_iff]
    split
    · rfl
    · rename_i hne
      rw [codesFrom_eq_nil (hlist.head_dropWhile hne)]
  | @more c s rest codes hc hne hs hrest ih =>
    have hlen := List.length_pos_iff.2 hc.ne_nil
    rw [List.length_append, List.length_append] at hfuel
    obtain ⟨fuel, rfl⟩ : ∃ k, fuel = k + 1 := ⟨fuel - 1, by omega⟩
    have hletter : ∀ x more, rest = x :: more → isSeparator x = false := by
      intro x more hx
      obtain ⟨y, ys, hy, halpha⟩ := hrest.head
      obtain ⟨rfl, -⟩ := List.cons.inj (hx.symm.trans hy)
      by_contra hsep
      rw [isAlpha_of_isSeparator (by simpa using hsep)] at halpha
      cases halpha
    rw [codesFrom, code_append hc (codeEnds_of_separator hne hs)]
    simp only [takeWhile_run hs hletter, dropWhile_run hs hletter, List.isEmpty_iff, hne, if_false]
    rw [ih (by omega)]

theorem exists_lists {x : Char} (hx : x.isAlpha = true) (more : List Char) :
    ∃ codes, Lists (x :: more) codes := by
  induction hn : more.length using Nat.strongRecOn generalizing x more with
  | ind n ih =>
    obtain ⟨c, post, hsplit, hc, hends⟩ := exists_code hx more
    by_cases hend : ListEnds post
    · exact ⟨[c], hsplit ▸ .last hc hends hend⟩
    · simp only [ListEnds, not_forall] at hend
      obtain ⟨s, y, ys, rfl, hne, hs, hy⟩ := hend
      have hshort : ys.length < n := by
        have hlen := congrArg List.length hsplit
        simp only [List.length_cons, List.length_append] at hlen
        have hpos := List.length_pos_iff.2 hc.ne_nil
        omega
      obtain ⟨codes, hcodes⟩ := ih ys.length hshort (by simpa using hy) ys rfl
      exact ⟨c :: codes, hsplit ▸ .more hc hne hs hcodes⟩

theorem ListsAfter.head {rest : List Char} {codes : List (List Char)} (h : ListsAfter rest codes) :
    ∃ w x more, rest = ':' :: (w ++ x :: more) ∧ IsGap w ∧ x.isAlpha = true := by
  obtain ⟨w, text, rfl, hw, hlists⟩ := h
  obtain ⟨x, more, rfl, hx⟩ := hlists.head
  exact ⟨w, x, more, rfl, hw, hx⟩

theorem ListsAfter.ne_nil {rest : List Char} {codes : List (List Char)}
    (h : ListsAfter rest codes) : codes ≠ [] := by
  obtain ⟨_, _, -, -, hlists⟩ := h
  exact hlists.ne_nil

/-- A list follows where a colon, at most one white space and a letter do. -/
theorem exists_listsAfter {rest : List Char} :
    (∃ codes, ListsAfter rest codes) ↔
      ∃ w x more, rest = ':' :: (w ++ x :: more) ∧ IsGap w ∧ x.isAlpha = true := by
  constructor
  · rintro ⟨codes, h⟩
    exact h.head
  · rintro ⟨w, x, more, rfl, hw, hx⟩
    obtain ⟨codes, hcodes⟩ := exists_lists hx more
    exact ⟨codes, w, x :: more, rfl, hw, hcodes⟩

theorem codesAfter_of_listsAfter {rest : List Char} {codes : List (List Char)}
    (h : ListsAfter rest codes) : codesAfter rest = codes := by
  obtain ⟨w, text, rfl, rfl | ⟨b, hb, rfl⟩, hlists⟩ := h
  · obtain ⟨x, more, rfl, hx⟩ := hlists.head
    have hblank : Text.isBlank x = false := by
      by_contra hblank
      rw [isAlpha_of_isBlank (by simpa using hblank)] at hx
      cases hx
    rw [List.nil_append, codesAfter, if_neg (by simp [hblank])]
    exact codesFrom_of_lists hlists (Nat.le_refl _)
  · rw [List.singleton_append, codesAfter, if_pos hb]
    exact codesFrom_of_lists hlists (Nat.le_refl _)

theorem codesAfter_eq_nil {rest : List Char} (h : ∀ codes, ¬ ListsAfter rest codes) :
    codesAfter rest = [] := by
  have hnone : ¬ ∃ w x more, rest = ':' :: (w ++ x :: more) ∧ IsGap w ∧ x.isAlpha = true := by
    rw [← exists_listsAfter]
    exact not_exists.2 h
  unfold codesAfter
  split
  · rename_i c more
    split
    · rename_i hc
      refine codesFrom_eq_nil (fun x ys hx => ?_) _
      by_contra halpha
      exact hnone ⟨[c], x, ys, by simp [hx], .inr ⟨c, hc, rfl⟩, by simpa using halpha⟩
    · refine codesFrom_eq_nil (fun x ys hx => ?_) _
      by_contra halpha
      exact hnone ⟨[], x, ys, by simp [hx], .inl rfl, by simpa using halpha⟩
  · rfl

/-! ## Marks -/

theorem dropMark_eq_some {text rest : List Char} :
    dropMark text = some rest ↔
      ∃ word, text = word ++ rest ∧ word.map Char.toLower = ['n', 'o', 'q', 'a'] := by
  constructor
  · intro h
    unfold dropMark at h
    split at h
    · rename_i a b c d more
      split at h
      · rename_i hword
        cases h
        exact ⟨[a, b, c, d], rfl, hword⟩
      · cases h
    · cases h
  · rintro ⟨word, rfl, hword⟩
    obtain ⟨a, b, c, d, rfl⟩ : ∃ a b c d, word = [a, b, c, d] := by
      have hlen := congrArg List.length hword
      rw [List.length_map] at hlen
      exact List.length_eq_four.1 hlen
    rw [List.cons_append, List.cons_append, List.cons_append, List.cons_append, List.nil_append,
      dropMark, if_pos hword]

theorem marks_iff {after rest : List Char} :
    Marks after rest ↔ dropMark (after.dropWhile Text.isBlank) = some rest := by
  rw [dropMark_eq_some]
  constructor
  · rintro ⟨blanks, word, rfl, hblanks, hword⟩
    refine ⟨word, ?_, hword⟩
    rw [List.append_assoc]
    refine dropWhile_run hblanks (fun x more hx => ?_)
    -- The first letter of the word is no white space.
    cases word with
    | nil => cases hword
    | cons y ys =>
      obtain ⟨rfl, -⟩ := List.cons.inj hx
      have hn : y.toLower = 'n' := (List.cons.inj hword).1
      by_contra hblank
      rw [Bool.not_eq_false] at hblank
      rw [toLower_of_isBlank hblank] at hn
      rw [hn] at hblank
      cases hblank
  · rintro ⟨word, hdrop, hword⟩
    refine ⟨after.takeWhile Text.isBlank, word, ?_, fun x hx => List.mem_takeWhile_imp hx, hword⟩
    rw [List.append_assoc, ← hdrop, List.takeWhile_append_dropWhile]

theorem atHash_eq_none {after : List Char} : atHash after = none ↔ ∀ rest, ¬ Marks after rest := by
  simp only [marks_iff, ← Option.eq_none_iff_forall_ne_some]
  unfold atHash
  split
  · simp_all
  · split <;> simp_all

theorem exists_reads (rest : List Char) : ∃ d, Reads rest d := by
  by_cases h : ∃ codes, ListsAfter rest codes
  · obtain ⟨codes, hcodes⟩ := h
    exact ⟨_, .codes hcodes⟩
  · exact ⟨.all, .all (not_exists.1 h)⟩

theorem atHash_of_marks {after rest : List Char} {d : Directive} (hmark : Marks after rest)
    (h : Reads rest d) : atHash after = some d := by
  rw [atHash, marks_iff.1 hmark]
  cases h with
  | all h => simp only [codesAfter_eq_nil h]
  | @codes codes h =>
    obtain ⟨code, more, rfl⟩ := List.exists_cons_of_ne_nil h.ne_nil
    simp only [codesAfter_of_listsAfter h]

theorem atHash_eq_some {after : List Char} {d : Directive} :
    atHash after = some d ↔ ∃ rest, Marks after rest ∧ Reads rest d := by
  constructor
  · intro h
    have hmarked : ¬ ∀ rest, ¬ Marks after rest := by
      rw [← atHash_eq_none, h]
      simp
    obtain ⟨rest, hmark⟩ := not_forall_not.1 hmarked
    obtain ⟨d', hd'⟩ := exists_reads rest
    rw [atHash_of_marks hmark hd', Option.some.injEq] at h
    exact ⟨rest, hmark, h ▸ hd'⟩
  · rintro ⟨rest, hmark, hreads⟩
    exact atHash_of_marks hmark hreads

/-! ## Lines -/

/-- A hash sign in a line with one more character in front. -/
theorem forall_hash_cons {c : Char} {cs : List Char} {P : List Char → List Char → Prop} :
    (∀ before after, c :: cs = before ++ '#' :: after → P before after) ↔
      (c = '#' → P [] cs) ∧
        ∀ before after, cs = before ++ '#' :: after → P (c :: before) after := by
  constructor
  · intro h
    refine ⟨?_, fun before after hcs => h (c :: before) after (by rw [hcs]; rfl)⟩
    rintro rfl
    exact h [] cs rfl
  · rintro ⟨hhere, hlater⟩ before after hline
    cases before with
    | nil =>
      obtain ⟨rfl, rfl⟩ := List.cons.inj hline
      exact hhere rfl
    | cons b before =>
      obtain ⟨rfl, rfl⟩ := List.cons.inj hline
      exact hlater before after rfl

theorem ofChars_eq_none {line : List Char} :
    ofChars line = none ↔ ∀ before after, line = before ++ '#' :: after → atHash after = none := by
  induction line with
  | nil => simp [ofChars]
  | cons c cs ih =>
    rw [forall_hash_cons (P := fun _ after => atHash after = none), ← ih, ofChars]
    split
    · rename_i hc
      split
      · rename_i d hd
        simp [hc, hd]
      · rename_i hnone
        simp [hnone]
    · rename_i hc
      simp [hc]

/-- The first hash sign that gives a directive decides. -/
theorem ofChars_eq_some {line : List Char} {d : Directive} :
    ofChars line = some d ↔ ∃ before after, line = before ++ '#' :: after ∧ atHash after = some d ∧
      ∀ before' after', line = before' ++ '#' :: after' → before'.length < before.length →
        atHash after' = none := by
  induction line with
  | nil => simp [ofChars]
  | cons c cs ih =>
    -- With a character in front that gives none, the first hash sign is that of the rest.
    have hlater : (c = '#' → atHash cs = none) →
        ((∃ before after, c :: cs = before ++ '#' :: after ∧ atHash after = some d ∧
          ∀ before' after', c :: cs = before' ++ '#' :: after' → before'.length < before.length →
            atHash after' = none) ↔ ofChars cs = some d) := by
      intro hhere
      rw [ih]
      constructor
      · rintro ⟨before, after, hline, hd, hfirst⟩
        rw [forall_hash_cons (P := fun before' after' => before'.length < before.length →
          atHash after' = none)] at hfirst
        cases before with
        | nil =>
          obtain ⟨rfl, rfl⟩ := List.cons.inj hline
          rw [hhere rfl] at hd
          cases hd
        | cons b before =>
          obtain ⟨rfl, rfl⟩ := List.cons.inj hline
          refine ⟨before, after, rfl, hd, fun before' after' hcs hlt => ?_⟩
          exact hfirst.2 before' after' hcs (by simpa using hlt)
      · rintro ⟨before, after, rfl, hd, hfirst⟩
        refine ⟨c :: before, after, rfl, hd, ?_⟩
        rw [forall_hash_cons (P := fun before' after' => before'.length < (c :: before).length →
          atHash after' = none)]
        refine ⟨fun hc _ => hhere hc, fun before' after' hcs hlt => ?_⟩
        exact hfirst before' after' hcs (by simpa using hlt)
    rw [ofChars]
    split
    · rename_i hc
      split
      · rename_i d' hd'
        subst hc
        constructor
        · rintro ⟨⟩
          exact ⟨[], cs, rfl, hd', fun _ _ _ hlt => absurd hlt (by simp)⟩
        · rintro ⟨before, after, hline, hd, hfirst⟩
          cases before with
          | nil =>
            obtain ⟨-, rfl⟩ := List.cons.inj hline
            exact hd'.symm.trans hd
          | cons b before =>
            have hnone := hfirst [] cs rfl (by simp)
            rw [hd'] at hnone
            cases hnone
      · rename_i hnone
        exact (hlater fun _ => hnone).symm
    · rename_i hc
      exact (hlater fun h => absurd h hc).symm

theorem mem_ofLines {lines : List String} {number : Nat} {d : Directive} :
    (number, d) ∈ ofLines lines ↔ ∃ (n : Nat) (text : String), number = n + 1 ∧
      lines[n]? = some text ∧ ofLine text = some d := by
  simp only [ofLines, List.mem_filterMap, Option.map_eq_some_iff, Prod.exists, Prod.mk.injEq]
  constructor
  · rintro ⟨text, k, hline, _, hd, rfl, rfl⟩
    obtain ⟨hfirst, htext⟩ := List.mk_mem_zipIdx_iff_le_and_getElem?_sub.1 hline
    exact ⟨k - 1, text, by omega, htext, hd⟩
  · rintro ⟨n, text, rfl, htext, hd⟩
    refine ⟨text, n + 1, ?_, d, hd, rfl, rfl⟩
    exact List.mk_mem_zipIdx_iff_le_and_getElem?_sub.2 ⟨Nat.le_add_left 1 n, htext⟩

/-- A line has a directive exactly if some hash sign in it is followed by white space and `noqa`,
and the leftmost such sign decides what it says: the codes of a list behind a colon, which is there
if a letter follows after at most one white space, and otherwise all. Each line of a text is read by
itself, and its directive is kept under its number. -/
theorem directive_grammar :
    (∀ line, ofLine line = none ↔
      ∀ before after rest, line.toList = before ++ '#' :: after → ¬ Marks after rest) ∧
    (∀ line d, ofLine line = some d ↔ ∃ rest, FirstMark line.toList rest ∧ Reads rest d) ∧
    (∀ rest, (∃ codes, ListsAfter rest codes) ↔
      ∃ w x more, rest = ':' :: (w ++ x :: more) ∧ IsGap w ∧ x.isAlpha = true) ∧
    ∀ lines number d, (number, d) ∈ ofLines lines ↔ ∃ (n : Nat) (text : String), number = n + 1 ∧
      lines[n]? = some text ∧ ofLine text = some d := by
  refine ⟨fun line => ?_, fun line d => ?_, fun rest => exists_listsAfter,
    fun lines number d => mem_ofLines⟩
  · simp only [ofLine, ofChars_eq_none, atHash_eq_none]
    exact ⟨fun h before after rest hline => h before after hline rest,
      fun h before after hline rest => h before after rest hline⟩
  · simp only [ofLine, ofChars_eq_some, atHash_eq_none, atHash_eq_some, FirstMark]
    constructor
    · rintro ⟨before, after, hline, ⟨rest, hmark, hreads⟩, hfirst⟩
      exact ⟨rest, ⟨before, after, hline, hmark, fun before' after' rest' hline' hlt =>
        hfirst before' after' hline' hlt rest'⟩, hreads⟩
    · rintro ⟨rest, ⟨before, after, hline, hmark, hfirst⟩, hreads⟩
      exact ⟨before, after, hline, ⟨rest, hmark, hreads⟩, fun before' after' hline' hlt rest' =>
        hfirst before' after' rest' hline' hlt⟩

/-- A hash sign alone says nothing, words behind a list are codes like any other, and neither a list
after two white spaces nor that of a second mark is read. -/
example : ofLines ["# x", "a  #\tNoQa:pmc001, PMC002 because", "# noqa:  A1", "# noqa # noqa: A1"] =
    [(2, .codes ["PMC001", "PMC002", "BECAUSE"]), (3, .all), (4, .all)] := by
  decide +kernel

end Directive
end ChainLint
