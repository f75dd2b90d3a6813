import ChainLint.Proofs.Cst.Accepted
import ChainLint.Proofs.Cst.Asked
import ChainLint.Proofs.Cst.SourceOrder

/-!
# ChainLint.Proofs.Cst.Interpolation

What becomes of the expressions in string literals.

* `Node.Visits`: the visit of a tree comes by a node.
* `asksFor_part`: a string with an interpolation, and an interpolation itself, hand on their parts.
* `not_asksFor_of_literal`: a literal hands on nothing. Strings that stand side by side make one
  literal, interpolations or not.
* `convertModule_interpolations`: the interpolations of a string that is converted are visited; of
  strings side by side, only the text is.
-/

namespace ChainLint

/-- The visit of the tree enters the node. -/
def Node.Visits (tree n : Node) : Prop :=
  ∃ events, walk none tree = .ok events ∧ ∃ e ∈ events, e.phase = .enter ∧ e.node = n

theorem visits_iff {tree n : Node} (h : tree.Every Accepted) : tree.Visits n ↔ n ∈ tree.nodes := by
  rw [← tree.trail_entries none [], List.mem_map]
  constructor
  · rintro ⟨events, hevents, e, he, henter, rfl⟩
    rw [← Except.ok.inj ((walk_of_accepted h).symm.trans hevents)] at he
    obtain ⟨s, hs, rfl⟩ := List.mem_map.1 he
    exact ⟨s, List.mem_filter.2 ⟨hs, decide_eq_true henter⟩, rfl⟩
  · rintro ⟨s, hs, rfl⟩
    obtain ⟨hstop, henter⟩ := List.mem_filter.1 hs
    exact ⟨_, walk_of_accepted h, s.toEvent, List.mem_map_of_mem hstop,
      of_decide_eq_true henter, rfl⟩

namespace Cst

variable {source : Array (Option Char)} {c d : Cst} {n : Node}

theorem form_of_type {type : String} (h : c.type = type) : c.form = Form.ofType type := by
  rw [form, h]

/-- Nodes that become `other` nodes and hand on all their parts. -/
def HandsOnParts (c : Cst) : Prop :=
  (c.form = .string ∧ c.parts.any (fun d => d.type == "interpolation") = true) ∨ c.form = .other

theorem HandsOnParts.converts {below : Cst → Except Malformed Node} (hc : c.HandsOnParts)
    (h : convertNode source below c = .ok n) :
    ∃ ns, ConvertsAll below c.parts ns ∧ n = .other c.position c.type ns := by
  have hother : otherNode below c = .ok n := by
    unfold convertNode at h
    rcases hc with ⟨hform, hany⟩ | hform
    · simpa only [hform, hany, if_true] using h
    · simpa only [hform] using h
  obtain ⟨ns, hns, hn⟩ := bind_eq_ok.1 hother
  cases hn
  exact ⟨ns, mapM_eq_ok.1 hns, rfl⟩

theorem asksFor_part (hc : c.HandsOnParts) (hd : d ∈ c.parts) : AsksFor source c d := by
  intro below n h
  obtain ⟨ns, hns, -⟩ := hc.converts h
  obtain ⟨m, -, hm⟩ := exists_mem_of_forall₂ hns hd
  exact ⟨m, hm⟩

theorem asksFor_inner (hform : c.form = .wrapper) (hparts : c.parts = [d]) :
    AsksFor source c d := by
  intro below n h
  simp only [convertNode, hform, hparts] at h
  exact ⟨n, h⟩

theorem convertNode_literal {l : Literal} (hform : c.form = .literal l)
    (below : Cst → Except Malformed Node) :
    convertNode source below c = .ok (.constant c.position l (c.text source)) := by
  simp only [convertNode, hform]

theorem not_asksFor_of_literal {l : Literal} (hform : c.form = .literal l) (d : Cst) :
    ¬ AsksFor source c d := by
  intro h
  -- The literal is there even when nothing below it can be converted.
  obtain ⟨m, hm⟩ := h (fun e => .error ⟨"", e.position⟩) _ (convertNode_literal hform _)
  cases hm

theorem Converted.tail {root : Cst} (hc : Converted source root c) (h : AsksFor source c d) :
    Converted source root d := by
  obtain ⟨top, htop, hway⟩ := hc
  exact ⟨top, htop, hway.tail h⟩

end Cst

/-- In the tree of a text, every interpolation of a converted string is a node with its converted
parts, and these are visited. Strings side by side are one constant, and nothing of what they hold
is converted. -/
theorem convertModule_interpolations {source : Array (Option Char)} {root : Cst} {tree : Node}
    (hnatural : root.Every Cst.Natural) (h : root.convertModule source = .ok tree) :
    (∀ s, Cst.Converted source root s → s.type = "string" →
      ∀ i ∈ s.children, i.label.named = true → i.type = "interpolation" →
        ∃ ns, Cst.ConvertsAll (Cst.convert source) i.parts ns ∧
          tree.Visits (.other i.position "interpolation" ns) ∧
          ∀ d ∈ i.parts, Cst.Converted source root d) ∧
    (∀ d, Cst.Converted source root d → ∃ n, Cst.convert source d = .ok n ∧ tree.Visits n) ∧
    (∀ k, Cst.Converted source root k → k.type = "concatenated_string" →
      tree.Visits (.constant k.position .string (k.text source)) ∧
        ∀ d, ¬ Cst.AsksFor source k d) ∧
    ∀ rules, ∃ found, check rules tree = .ok found := by
  have haccepted := Cst.convertModule_accepted hnatural h
  have hvisits : ∀ d, Cst.Converted source root d →
      ∃ n, Cst.convert source d = .ok n ∧ tree.Visits n := by
    intro d hd
    obtain ⟨n, hn, hmem⟩ := Cst.converted_mem_nodes h hd
    exact ⟨n, hn, (visits_iff haccepted).2 hmem⟩
  refine ⟨?_, hvisits, ?_, fun rules => check_isOk haccepted⟩
  · intro s hs hstring i hi hnamed htype
    have hpart : i ∈ s.parts := Cst.mem_parts.2 ⟨hi, hnamed, by rw [htype]; decide⟩
    have hany : s.parts.any (fun d => d.type == "interpolation") = true :=
      List.any_eq_true.2 ⟨i, hpart, by rw [htype]; rfl⟩
    have hasked : Cst.Converted source root i :=
      hs.tail (Cst.asksFor_part (.inl ⟨Cst.form_of_type hstring, hany⟩) hpart)
    have hhands : i.HandsOnParts := .inr (Cst.form_of_type htype)
    obtain ⟨n, hn, hvisited⟩ := hvisits i hasked
    rw [Cst.convert_eq] at hn
    obtain ⟨ns, hns, rfl⟩ := hhands.converts hn
    rw [htype] at hvisited
    exact ⟨ns, hns, hvisited, fun d hd => hasked.tail (Cst.asksFor_part hhands hd)⟩
  · intro k hk htype
    have hform : k.form = .literal .string := Cst.form_of_type htype
    obtain ⟨n, hn, hvisited⟩ := hvisits k hk
    rw [Cst.convert_eq, Cst.convertNode_literal hform] at hn
    cases hn
    exact ⟨hvisited, Cst.not_asksFor_of_literal hform⟩

namespace Cst.Sample

/-- An interpolation of `a[m]`. -/
def interpolation : Cst := .node { type := "interpolation", column := 2 }
  [.node { type := "\x7b", named := false } [],
    .node { type := "subscript", column := 3 }
      [.node { type := "identifier", column := 3 } [],
        .node { type := "identifier", column := 5 } []],
    .node { type := "\x7d", named := false } []]

/-- A string with an interpolation. -/
def fstring : Cst := .node { type := "string" }
  [.node { type := "string_start" } [], interpolation, .node { type := "string_end" } []]

/-- The string beside another one. -/
def concatenated : Cst := .node { type := "concatenated_string" }
  [fstring, .node { type := "string" } []]

/-- A text that is one expression. -/
def script (c : Cst) : Cst :=
  .node { type := "module" } [.node { type := "expression_statement" } [c]]

theorem converted_script {c : Cst} (h : c.isPart = true) : Converted #[] (script c) c := by
  refine ⟨_, List.mem_singleton_self _, .single (asksFor_inner rfl ?_)⟩
  exact List.filter_cons_of_pos h

end Cst.Sample

section Samples

open Cst.Sample

theorem convertModule_interpolations_fstring :
    ∃ tree ns, (script fstring).convertModule #[] = .ok tree ∧
      Cst.ConvertsAll (Cst.convert #[]) interpolation.parts ns ∧
      tree.Visits (.other (.at 1 2) "interpolation" ns) := by
  have hnatural : (script fstring).Every Cst.Natural := by
    simp [script, fstring, interpolation, Cst.Natural, Cst.label]
  obtain ⟨tree, htree⟩ : ∃ tree, (script fstring).convertModule #[] = .ok tree := ⟨_, rfl⟩
  obtain ⟨ns, hns, hvisited, -⟩ := (convertModule_interpolations hnatural htree).1 fstring
    (converted_script rfl) rfl interpolation (by simp [fstring, Cst.children]) rfl rfl
  exact ⟨tree, ns, htree, hns, hvisited⟩

/-- Beside another string, the interpolation of a string is not visited. -/
theorem concatenated_interpolation_lost :
    (script concatenated).firstError = .ok none ∧
      Cst.Converted #[] (script concatenated) concatenated ∧
      fstring ∈ concatenated.children ∧ interpolation ∈ fstring.children ∧
      ∃ tree, (script concatenated).convertModule #[] = .ok tree ∧
        ∀ ns, ¬ tree.Visits (.other interpolation.position "interpolation" ns) := by
  have hnatural : (script concatenated).Every Cst.Natural := by
    simp [script, concatenated, fstring, interpolation, Cst.Natural, Cst.label]
  have htree : (script concatenated).convertModule #[] =
      .ok (.module (.at 1 0) [.constant (.at 1 0) .string ""]) := rfl
  refine ⟨rfl, converted_script rfl, List.mem_cons_self, ?_, _, htree, fun ns hvisited => ?_⟩
  · exact List.mem_cons_of_mem _ List.mem_cons_self
  · rw [visits_iff (Cst.convertModule_accepted hnatural htree)] at hvisited
    simp [Node.nodes_eq, Node.children] at hvisited

end Samples

end ChainLint
