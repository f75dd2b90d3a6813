import ChainLint.Proofs.Cst.Converts
import ChainLint.Proofs.Cst.Weight
import ChainLint.Source

/-!
# ChainLint.Proofs.Cst.FirstError

Texts with syntax errors.

* `firstError_eq_find?`: the search for an error finds the first node in document order that is one,
  tokens and what comments hold among the nodes.
* `convertModule_clean`: without an error in the concrete tree there is none in the tree.
* `readSource_classified`: what reading a text comes to, for everything a parser may do.
-/

namespace ChainLint
namespace Cst

variable {c : Cst}

/-! ## The search -/

/-- Reading the node does not fail. -/
def Readable (c : Cst) : Prop := c.label.unreadable = none

theorem firstErrorIn_eq_find? {cs : List Cst}
    (h : ∀ c ∈ cs, c.firstError = .ok (c.nodes.find? (fun d => d.type == "ERROR"))) :
    firstErrorIn cs = .ok ((cs.flatMap nodes).find? (fun d => d.type == "ERROR")) := by
  induction cs with
  | nil => rfl
  | cons c cs ih =>
    obtain ⟨hc, hcs⟩ := List.forall_mem_cons.1 h
    rw [firstErrorIn, hc, List.flatMap_cons, List.find?_append]
    cases c.nodes.find? (fun d => d.type == "ERROR") with
    | none => exact ih hcs
    | some e => rfl

theorem firstError_eq_find? (h : c.Every Readable) :
    c.firstError = .ok (c.nodes.find? (fun d => d.type == "ERROR")) := by
  induction c using inductionOn with
  | step c ih =>
    cases c with
    | node l cs =>
      have hread : l.unreadable = none := h.1
      have hbelow := firstErrorIn_eq_find? fun d (hd : d ∈ cs) =>
        ih d (.of_child hd) (h.inside (.of_child hd))
      simp only [firstError, hread, hbelow, nodes_eq, children, List.find?_cons, type, label]
      cases l.type == "ERROR" with
      | true => rfl
      | false => rfl

/-! ## Trees of texts without errors -/

/-- A node that is no error becomes none, unless its tree is that of a node inside. -/
theorem not_error_of_converts {source : Array (Option Char)} {below : Cst → Except Malformed Node}
    {n : Node} (hc : c.type ≠ "ERROR") (h : Converts source below c n) :
    (∃ d, Inside d c ∧ below d = .ok n) ∨ ∀ p ns, n ≠ .other p "ERROR" ns := by
  cases h with
  | unwrap _ hinner hn => exact .inl ⟨_, .of_part (hinner ▸ List.mem_cons_self), hn⟩
  | other =>
    refine .inr fun p ns heq => hc ?_
    injection heq
  | declared => exact .inr (by simp)
  | _ => exact .inr nofun

theorem convertModule_clean {source : Array (Option Char)} {root : Cst} {tree : Node}
    (hroot : root.Every (fun d => d.type ≠ "ERROR")) (h : root.convertModule source = .ok tree) :
    tree.Every (fun n => ∀ p ns, n ≠ .other p "ERROR" ns) :=
  every_of_convertModule hroot (fun _ _ => not_error_of_converts) (fun _ _ _ _ => nofun)
    (fun _ => nofun) h

end Cst

/-! ## Reading -/

/-- What reading a text comes to. A parser that fails is a failure of the file. An error among the
nodes of the concrete tree, wherever it stands, is one too, and the first in document order gives
its line and its place, both counted from one, before any tree is built. Without an error the text
comes to what the conversion comes to, and a tree has no error in it. -/
theorem readSource_classified {parser : Parser} {source : String}
    (hread : ∀ root, parser source = .parsed root → root.Every Cst.Readable) (filePath : String) :
    (∀ message, parser source = .threw message →
      readSource parser source filePath = .ok (.failure ⟨filePath, .parserFault, message, 1⟩)) ∧
    ∀ root, parser source = .parsed root →
      ((∃ d, (d = root ∨ Cst.Inside d root) ∧ d.type = "ERROR") →
        ∃ (before : List Cst) (e : Cst) (after : List Cst),
          root.nodes = before ++ e :: after ∧ e.type = "ERROR" ∧
          (∀ d ∈ before, d.type ≠ "ERROR") ∧
          readSource parser source filePath = .ok (.failure
            { filePath, reason := .badSyntax,
              message := "invalid syntax at line " ++ toString (e.label.row + 1) ++ ", column "
                ++ toString (e.label.column + 1),
              line := e.label.row + 1 })) ∧
      ((∀ d, d = root ∨ Cst.Inside d root → d.type ≠ "ERROR") →
        readSource parser source filePath =
          ((root.convertModule (Text.slots source)).mapError Fault.malformed).map
            (fun tree => .tree tree (Text.lines source)) ∧
        ∀ tree lines, readSource parser source filePath = .ok (.tree tree lines) →
          tree.Every (fun n => ∀ p ns, n ≠ .other p "ERROR" ns)) := by
  constructor
  · intro message hthrew
    rw [readSource, hthrew]
  · intro root hparsed
    have hfirst := Cst.firstError_eq_find? (hread root hparsed)
    constructor
    · rintro ⟨d, hd, htype⟩
      have hfound : (root.nodes.find? (fun d => d.type == "ERROR")).isSome = true :=
        List.find?_isSome.2 ⟨d, Cst.mem_nodes_iff.2 hd, beq_iff_eq.2 htype⟩
      obtain ⟨e, he⟩ := Option.isSome_iff_exists.1 hfound
      obtain ⟨herror, before, after, hnodes, hbefore⟩ := List.find?_eq_some_iff_append.1 he
      refine ⟨before, e, after, hnodes, beq_iff_eq.1 herror, ?_, ?_⟩
      · intro d hd
        simpa using hbefore d hd
      · rw [readSource, hparsed]
        simp only [hfirst, he, syntaxFailure]
    · intro hclean
      have hnone : root.nodes.find? (fun d => d.type == "ERROR") = none := by
        rw [List.find?_eq_none]
        intro d hd
        simpa using hclean d (Cst.mem_nodes_iff.1 hd)
      simp only [readSource, hparsed, hfirst, hnone]
      cases hmodule : root.convertModule (Text.slots source) with
      | error cause => exact ⟨rfl, nofun⟩
      | ok tree =>
        refine ⟨rfl, ?_⟩
        rintro _ _ ⟨⟩
        exact Cst.convertModule_clean ⟨hclean root (.inl rfl), fun d hd => hclean d (.inr hd)⟩
          hmodule

/-- An error that a comment holds is found, and before the one on the last line. The call without a
function is not looked at. -/
theorem readSource_classified_hidden :
    let hidden : Cst := .node { type := "module" } [
      .node { type := "comment", row := 1 } [
        .node { type := "ERROR", named := false, row := 1, column := 4 } []],
      .node { type := "call", row := 2 } [],
      .node { type := "ERROR", row := 3 } []]
    let clean : Cst := .node { type := "module" } [.node { type := "identifier", stop := 1 } []]
    let parser (outcome : ParserOutcome) : Parser := fun _ => outcome
    readSource (parser (.threw "no grammar")) "x" "a.py" =
      .ok (.failure ⟨"a.py", .parserFault, "no grammar", 1⟩) ∧
    (∃ e ∈ hidden.nodes, e.type = "ERROR" ∧ e.label.row + 1 = 2 ∧
      readSource (parser (.parsed hidden)) "x" "a.py" =
        .ok (.failure ⟨"a.py", .badSyntax, "invalid syntax at line 2, column 5", 2⟩)) ∧
    ∃ tree lines, readSource (parser (.parsed clean)) "x" "a.py" = .ok (.tree tree lines) ∧
      tree.Every (fun n => ∀ p ns, n ≠ .other p "ERROR" ns) := by
  intro hidden clean parser
  have hthrew : ∀ root, parser (.threw "no grammar") "x" = .parsed root →
      root.Every Cst.Readable := nofun
  have hread : ∀ c ∈ [hidden, clean], ∀ root, parser (.parsed c) "x" = .parsed root →
      root.Every Cst.Readable := by
    rintro c hc _ ⟨⟩
    revert c
    simp [hidden, clean, Cst.Readable, Cst.label]
  refine ⟨(readSource_classified hthrew "a.py").1 "no grammar" rfl, ?_, ?_⟩
  · have hchild : Cst.node { type := "ERROR", row := 3 } [] ∈ hidden.children := by
      simp [hidden, Cst.children]
    have herror : ∃ d, (d = hidden ∨ Cst.Inside d hidden) ∧ d.type = "ERROR" :=
      ⟨_, .inr (.of_child hchild), rfl⟩
    obtain ⟨before, e, after, hnodes, htype, -, hresult⟩ :=
      ((readSource_classified (hread hidden (by simp)) "a.py").2 hidden rfl).1 herror
    have hvalue : readSource (parser (.parsed hidden)) "x" "a.py" =
        .ok (.failure ⟨"a.py", .badSyntax, "invalid syntax at line 2, column 5", 2⟩) := rfl
    refine ⟨e, by simp [hnodes], htype, ?_, hvalue⟩
    injection hresult.symm.trans hvalue with hreading
    injection hreading with hfailure
    injection hfailure
  · have hclean : ∀ d, d = clean ∨ Cst.Inside d clean → d.type ≠ "ERROR" := by
      intro d hd
      revert d
      simp only [← Cst.mem_nodes_iff]
      decide
    obtain ⟨-, htree⟩ := ((readSource_classified (hread clean (by simp)) "a.py").2 clean rfl).2
      hclean
    exact ⟨_, _, rfl, htree _ _ rfl⟩

end ChainLint
