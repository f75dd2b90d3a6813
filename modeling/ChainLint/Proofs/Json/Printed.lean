import ChainLint.Proofs.Json.Grammar

/-!
# ChainLint.Proofs.Json.Printed

What is printed as JSON is JSON.

* `isString_quoted`: a quoted string is a literal of the string, whatever characters it holds.
* `isNumber_decimal`: the decimal text of a whole number is a literal of the number.
* `Value.Whole`: values in which all numbers are whole.
* `writes_indented`: the indented text of such a value stands for the value, at any level.
* `isText_indentedText`: hence it is a JSON text.
-/

namespace ChainLint
namespace Json

/-! ## Strings -/

theorem eq_of_toNat {c : Char} {n : Nat} (h : c.toNat = n) : c = Char.ofNat n := by
  rw [← h, Char.ofNat_toNat]

theorem hexUnit?_hexEscape : ∀ n < 32,
    hexUnit? '0' '0' (Nat.digitChar (n / 16)) (Nat.digitChar (n % 16)) = some n := by
  decide

/-- A character is written with a letter behind a backslash, with its code point, or as itself. -/
theorem escaped_cases (c : Char) :
    (∃ e, (e, c) ∈ shortEscapes ∧ escaped c = ['\\', e]) ∨
      (c.toNat < 32 ∧ escaped c = hexEscape c.toNat) ∨
      (32 ≤ c.toNat ∧ c ≠ '"' ∧ c ≠ '\\' ∧ escaped c = [c]) := by
  have hcontrol {n : Nat} {e : Char} (h : c.toNat = n) (he : (e, Char.ofNat n) ∈ shortEscapes)
      (hwritten : escaped (Char.ofNat n) = ['\\', e]) :
      ∃ e, (e, c) ∈ shortEscapes ∧ escaped c = ['\\', e] := by
    rw [eq_of_toNat h]
    exact ⟨e, he, hwritten⟩
  by_cases hquote : c = '"'
  · exact .inl ⟨'"', by rw [hquote]; decide, by rw [hquote]; rfl⟩
  by_cases hslash : c = '\\'
  · exact .inl ⟨'\\', by rw [hslash]; decide, by rw [hslash]; rfl⟩
  by_cases h8 : c.toNat = 8
  · exact .inl (hcontrol (e := 'b') h8 (by decide) rfl)
  by_cases h9 : c.toNat = 9
  · exact .inl (hcontrol (e := 't') h9 (by decide) rfl)
  by_cases h10 : c.toNat = 10
  · exact .inl (hcontrol (e := 'n') h10 (by decide) rfl)
  by_cases h12 : c.toNat = 12
  · exact .inl (hcontrol (e := 'f') h12 (by decide) rfl)
  by_cases h13 : c.toNat = 13
  · exact .inl (hcontrol (e := 'r') h13 (by decide) rfl)
  rw [escaped, if_neg hquote, if_neg hslash, if_neg h8, if_neg h9, if_neg h10, if_neg h12,
    if_neg h13]
  by_cases hlow : c.toNat < 32
  · exact .inr (.inl ⟨hlow, if_pos hlow⟩)
  · exact .inr (.inr ⟨Nat.not_lt.1 hlow, hquote, hslash, if_neg hlow⟩)

/-- However a character is written, the literal goes on with its code units. -/
theorem units_escaped (c : Char) {t : List Char} {us : List Nat} (h : Units t us) :
    Units (escaped c ++ t) (Text.unitsOf c ++ us) := by
  rcases escaped_cases c with ⟨e, he, hwritten⟩ | ⟨hlow, hwritten⟩ |
    ⟨hhigh, hquote, hslash, hwritten⟩
  · have hnarrow : c.toNat < 0x10000 := by
      simp only [shortEscapes, List.mem_cons, Prod.mk.injEq, List.not_mem_nil, or_false] at he
      rcases he with ⟨-, rfl⟩ | ⟨-, rfl⟩ | ⟨-, rfl⟩ | ⟨-, rfl⟩ | ⟨-, rfl⟩ | ⟨-, rfl⟩ | ⟨-, rfl⟩ |
        ⟨-, rfl⟩ <;> decide
    rw [hwritten, Text.unitsOf_narrow hnarrow]
    exact .short he h
  · rw [hwritten, Text.unitsOf_narrow (by omega)]
    exact .code (hexUnit?_hexEscape _ hlow) h
  · rw [hwritten]
    exact .plain hhigh hquote hslash h

theorem isString_quoted (s : String) : IsString (quotedChars s.toList) s := by
  refine ⟨s.toList.flatMap escaped, ?_, rfl⟩
  induction s.toList with
  | nil => exact .nil
  | cons c cs ih =>
    rw [List.flatMap_cons, Text.units_cons]
    exact units_escaped c ih

/-! ## Numbers -/

theorem digits_toDigits (n : Nat) : Digits (Nat.toDigits 10 n) where
  ne_nil := Nat.toDigits_ne_nil
  isDigit := fun _ hc => Nat.isDigit_of_mem_toDigits (by decide) (by decide) hc

theorem natOf_toDigits (n : Nat) : natOf (Nat.toDigits 10 n) = n :=
  Nat.ofDigitChars_toDigits (by decide) (by decide)

/-- Only zero is written with a leading zero. -/
theorem toDigits_eq_zero {n : Nat} (h : (Nat.toDigits 10 n).head? = some '0') :
    Nat.toDigits 10 n = ['0'] := by
  induction n using Nat.strongRecOn with
  | ind n ih =>
    rcases Nat.lt_or_ge n 10 with hlt | hge
    · rw [Nat.toDigits_of_lt_base hlt] at h ⊢
      rw [Option.some.inj h]
    · have hfront : (Nat.toDigits 10 (n / 10)).head? = some '0' := by
        rw [Nat.toDigits_of_base_le (by decide) hge] at h
        obtain ⟨d, ds, hds⟩ := List.exists_cons_of_ne_nil (@Nat.toDigits_ne_nil (n / 10) 10)
        rw [hds] at h ⊢
        exact h
      have hzero := ih (n / 10) (by omega) hfront
      have hvalue : natOf (Nat.toDigits 10 (n / 10)) = 0 := by
        rw [hzero]
        rfl
      rw [natOf_toDigits] at hvalue
      omega

theorem decimal_intCast (n : Int) :
    (Text.decimal (n : Rat)).toList =
      (if n < 0 then ['-'] else []) ++ Nat.toDigits 10 n.natAbs := by
  have hpositive : ∀ m : Nat, (Text.positive m 1).toList = Nat.toDigits 10 m := by
    intro m
    rw [Text.positive, if_pos (Nat.mod_one m), Nat.div_one, Nat.toString_eq_ofList_toDigits,
      String.toList_ofList]
  rw [Text.decimal, Rat.num_intCast, Rat.den_intCast]
  split
  · rw [String.toList_append, hpositive]
    rfl
  · exact hpositive _

theorem isNumber_decimal (n : Int) : IsNumber (Text.decimal (n : Rat)).toList (n : Rat) := by
  have hvalue : numberOf (decide (n < 0)) (Nat.toDigits 10 n.natAbs) [] 0 = (n : Rat) := by
    have hdigits : natOf (Nat.toDigits 10 n.natAbs ++ []) = n.natAbs := by
      rw [List.append_nil, natOf_toDigits]
    have hpower : (10 : Rat) ^ ((0 : Int) - ([] : List Char).length) = 1 := by simp
    rw [numberOf, hdigits, hpower, mul_one]
    rcases lt_or_ge n 0 with hneg | hpos
    · have habs : ((n.natAbs : Int) : Rat) = ((-n : Int) : Rat) := by
        rw [Int.ofNat_natAbs_of_nonpos hneg.le]
      have habs' : ((n.natAbs : Nat) : Rat) = -(n : Rat) := by
        rw [← Int.cast_natCast, habs, Int.cast_neg]
      rw [decide_eq_true hneg, if_pos rfl, habs']
      simp
    · have habs : ((n.natAbs : Nat) : Rat) = (n : Rat) := by
        rw [← Int.cast_natCast, Int.natAbs_of_nonneg hpos]
      rw [decide_eq_false (not_lt.2 hpos), if_neg Bool.false_ne_true, one_mul, habs]
  have hnumber := IsNumber.mk (decide (n < 0)) (digits_toDigits n.natAbs)
    (fun h => toDigits_eq_zero h) .none .none
  rw [hvalue] at hnumber
  rw [decimal_intCast]
  simpa using hnumber

/-! ## Values -/

/-- All numbers in the value are whole. -/
inductive Value.Whole : Value → Prop where
  | null : Whole .null
  | bool (b : Bool) : Whole (.bool b)
  | number (n : Int) : Whole (.number n)
  | string (s : String) : Whole (.string s)
  | array {items : List Value} (h : ∀ v ∈ items, Whole v) : Whole (.array items)
  | object {members : List (String × Value)} (h : ∀ m ∈ members, Whole m.2) :
      Whole (.object members)

theorem space_newLine (level : Nat) : Space (newLine level) := by
  intro c hc
  rcases List.mem_cons.1 hc with rfl | hc
  · rfl
  · rw [List.eq_of_mem_replicate hc]
    rfl

section pieces

variable {α : Type} (level : Nat) (w : List Char) (front : α → List Char) (value : α → Value)

/-- Things on lines of their own, each with what is written in front of its value. Only the last one
has the text `w` behind it. -/
def pieces : List α → List (α × Piece)
  | [] => []
  | [x] => [(x, ⟨newLine level ++ front x, (value x).indented level, w, value x⟩)]
  | x :: y :: rest =>
    (x, ⟨newLine level ++ front x, (value x).indented level, [], value x⟩) :: pieces (y :: rest)

theorem map_fst_pieces (xs : List α) : (pieces level w front value xs).map Prod.fst = xs := by
  fun_induction pieces level w front value xs with
  | case1 => rfl
  | case2 => rfl
  | case3 x y rest ih => rw [List.map_cons, ih]

theorem mem_pieces {xs : List α} {p : α × Piece} (h : p ∈ pieces level w front value xs) :
    p.2.before = newLine level ++ front p.1 ∧ p.2.text = (value p.1).indented level ∧
      (p.2.after = w ∨ p.2.after = []) ∧ p.2.value = value p.1 := by
  fun_induction pieces level w front value xs with
  | case1 => cases h
  | case2 x =>
    rw [List.mem_singleton.1 h]
    exact ⟨rfl, rfl, .inl rfl, rfl⟩
  | case3 x y rest ih =>
    rcases List.mem_cons.1 h with rfl | h
    · exact ⟨rfl, rfl, .inr rfl, rfl⟩
    · exact ih h

theorem pieces_ne_nil {xs : List α} (h : xs ≠ []) : pieces level w front value xs ≠ [] := by
  intro hnil
  have hmap := map_fst_pieces level w front value xs
  rw [hnil] at hmap
  exact h hmap.symm

theorem mem_of_mem_pieces {xs : List α} {p : α × Piece} (h : p ∈ pieces level w front value xs) :
    p.1 ∈ xs := by
  rw [← map_fst_pieces level w front value xs]
  exact List.mem_map_of_mem h

theorem commas_pieces_cons (x y : α) (rest : List α) :
    commas ((pieces level w front value (x :: y :: rest)).map (fun p => p.2.whole)) =
      newLine level ++ (front x ++ ((value x).indented level ++
        ',' :: commas ((pieces level w front value (y :: rest)).map (fun p => p.2.whole)))) := by
  cases rest with
  | nil => simp [pieces, commas, Piece.whole]
  | cons z rest => simp [pieces, commas, Piece.whole]

end pieces

theorem commas_items (level : Nat) (w : List Char) {items : List Value} (h : items ≠ []) :
    commas ((pieces level w (fun _ => []) id items).map (fun p => p.2.whole)) =
      newLine level ++ (indentedItems level items ++ w) := by
  induction items with
  | nil => exact absurd rfl h
  | cons v items ih =>
    cases items with
    | nil => simp [pieces, commas, Piece.whole, indentedItems]
    | cons u items =>
      rw [commas_pieces_cons, ih (List.cons_ne_nil u items)]
      simp [indentedItems]

/-- The name of a member, the colon and a space. -/
def nameFront (m : String × Value) : List Char := quotedChars m.1.toList ++ [':', ' ']

theorem commas_members (level : Nat) (w : List Char) {members : List (String × Value)}
    (h : members ≠ []) :
    commas ((pieces level w nameFront Prod.snd members).map (fun p => p.2.whole)) =
      newLine level ++ (indentedMembers level members ++ w) := by
  induction members with
  | nil => exact absurd rfl h
  | cons m members ih =>
    cases members with
    | nil => simp [pieces, commas, Piece.whole, indentedMembers, nameFront]
    | cons u members =>
      rw [commas_pieces_cons, ih (List.cons_ne_nil u members)]
      simp [indentedMembers, nameFront]

theorem space_nil : Space [] := fun _ h => nomatch h

theorem names_front (level : Nat) (m : String × Value) :
    Names (newLine level ++ nameFront m) m.1 :=
  ⟨newLine level, quotedChars m.1.toList, [], [' '], space_newLine level, isString_quoted m.1,
    space_nil, by simp [Space, isSpace], rfl⟩

/-- Space stands behind every piece when the text behind the last one is space. -/
theorem space_after {α : Type} {level : Nat} {w : List Char} (hw : Space w)
    {front : α → List Char} {value : α → Value} {xs : List α} {p : α × Piece}
    (h : p ∈ pieces level w front value xs) : Space p.2.after := by
  obtain ⟨-, -, hafter | hafter, -⟩ := mem_pieces level w front value h
  · rwa [hafter]
  · rw [hafter]
    exact space_nil

theorem writes_items (level : Nat) {items : List Value} (hne : items ≠ [])
    (h : ∀ v ∈ items, Writes (v.indented (level + 1)) v) :
    Writes ((Value.array items).indented level) (.array items) := by
  let ps := pieces (level + 1) (newLine level) (fun _ => []) id items
  have hmem {p : Value × Piece} (hp : p ∈ ps) :=
    mem_pieces (level + 1) (newLine level) (fun _ => []) id hp
  have hwrites : Writes ('[' :: (commas ((ps.map Prod.snd).map Piece.whole) ++ [']']))
      (.array ((ps.map Prod.snd).map Piece.value)) := by
    refine .items ?_ (List.forall_mem_map.2 fun p hp => ?_) (List.forall_mem_map.2 fun p hp => ?_)
      (List.forall_mem_map.2 fun p hp => ?_)
    · simpa using pieces_ne_nil (level + 1) (newLine level) (fun _ => []) id hne
    · rw [(hmem hp).1, List.append_nil]
      exact space_newLine (level + 1)
    · exact space_after (space_newLine level) hp
    · rw [(hmem hp).2.1, (hmem hp).2.2.2]
      exact h p.1 (mem_of_mem_pieces _ _ _ _ hp)
  have hvalues : (ps.map Prod.snd).map Piece.value = items := by
    rw [List.map_map, ← map_fst_pieces (level + 1) (newLine level) (fun _ => []) id items]
    exact List.map_congr_left fun p hp => (hmem hp).2.2.2
  obtain ⟨v, vs, rfl⟩ := List.exists_cons_of_ne_nil hne
  rw [hvalues, List.map_map] at hwrites
  have htext := commas_items (level + 1) (newLine level) hne
  rw [show (Piece.whole ∘ Prod.snd : Value × Piece → List Char) = fun p => p.2.whole from rfl,
    htext] at hwrites
  simpa [Value.indented] using hwrites

theorem writes_members (level : Nat) {members : List (String × Value)} (hne : members ≠ [])
    (h : ∀ m ∈ members, Writes (m.2.indented (level + 1)) m.2) :
    Writes ((Value.object members).indented level) (.object members) := by
  let ps := pieces (level + 1) (newLine level) nameFront Prod.snd members
  have hmem {p : (String × Value) × Piece} (hp : p ∈ ps) :=
    mem_pieces (level + 1) (newLine level) nameFront Prod.snd hp
  let ms := ps.map fun p => (p.1.1, p.2)
  have hwrites : Writes ('\x7b' :: (commas (ms.map fun m => m.2.whole) ++ ['\x7d']))
      (.object (ms.map fun m => (m.1, m.2.value))) := by
    refine .members ?_ (List.forall_mem_map.2 fun p hp => ?_)
      (List.forall_mem_map.2 fun p hp => ?_) (List.forall_mem_map.2 fun p hp => ?_)
    · simpa [ms] using pieces_ne_nil (level + 1) (newLine level) nameFront Prod.snd hne
    · rw [(hmem hp).1]
      exact names_front (level + 1) p.1
    · exact space_after (p := p) (space_newLine level) hp
    · rw [(hmem hp).2.1, (hmem hp).2.2.2]
      exact h p.1 (mem_of_mem_pieces _ _ _ _ hp)
  have hvalues : ms.map (fun m => (m.1, m.2.value)) = members := by
    rw [List.map_map, ← map_fst_pieces (level + 1) (newLine level) nameFront Prod.snd members]
    exact List.map_congr_left fun p hp => Prod.ext rfl (hmem hp).2.2.2
  have htext : commas (ms.map fun m => m.2.whole) =
      newLine (level + 1) ++ (indentedMembers (level + 1) members ++ newLine level) := by
    rw [← commas_members (level + 1) (newLine level) hne, List.map_map]
    rfl
  rw [hvalues, htext] at hwrites
  obtain ⟨m, rest, rfl⟩ := List.exists_cons_of_ne_nil hne
  simpa [Value.indented] using hwrites

/-- What is printed for a value stands for it, at every level of indentation. -/
theorem writes_indented {v : Value} (h : v.Whole) (level : Nat) : Writes (v.indented level) v := by
  induction h generalizing level with
  | null => exact .null
  | bool b => exact .bool b
  | number n => exact .number (isNumber_decimal n)
  | string s => exact .string (isString_quoted s)
  | @array items _ ih =>
    rcases eq_or_ne items [] with rfl | hne
    · exact .noItems space_nil
    · exact writes_items level hne fun v hv => ih v hv (level + 1)
  | @object members _ ih =>
    rcases eq_or_ne members [] with rfl | hne
    · exact .noMembers space_nil
    · exact writes_members level hne fun m hm => ih m hm (level + 1)

theorem isText_indentedText {v : Value} (h : v.Whole) : IsText v.indentedText.toList v := by
  refine ⟨[], v.indented 0, [], space_nil, writes_indented h 0, space_nil, ?_⟩
  rw [Value.indentedText, String.toList_ofList, List.nil_append, List.append_nil]

end Json
end ChainLint
