import ChainLint.Log
import ChainLint.Proofs.Report.Places
import ChainLint.Proofs.Report.Styled
import ChainLint.Report.Summary
import Mathlib.Data.List.Forall2

/-!
# ChainLint.Proofs.Report.Colour

Colour changes how a report looks, not what it says.

A report is put together from literals, numbers and what the findings hold. Each part of it, made
with colour, `Shows` the same part made without. Two things could have made the layout depend on
colour: the ruler below a header is measured on the styled header (`rulerWidth_eq`), and findings
are grouped by places and ids, which are never styled (`ruleBlock_shows`).

* `Diagnostic.Plain`, `Failure.Plain`: what is written of a finding or a failure has no sequence
  in it. `plain_place`: nor has the place that is shown for a path.
* `diagnostics_shows` and the like: the parts of a report.
* `Log.transcript`: all that a sequence of calls of the log writes.
* `colour_keeps_text`: taking the sequences out of a coloured report leaves the report without
  colour, line by line and as a text.
-/

namespace ChainLint

open Terminal

/-! ## Plain input -/

/-- No text of a finding has a sequence in it. -/
structure Diagnostic.Plain (d : Diagnostic) : Prop where
  ruleId : Terminal.Plain d.ruleId
  message : Terminal.Plain d.message
  filePath : Terminal.Plain d.filePath
  codeSnippet : ∀ line ∈ d.codeSnippet, Terminal.Plain line
  fix : Terminal.Plain d.fix

structure Failure.Plain (f : Failure) : Prop where
  filePath : Terminal.Plain f.filePath
  message : Terminal.Plain f.message

namespace Path

theorem plain_walk {start : Parts} {cs : List String} (hstart : ∀ s ∈ start, Plain s)
    (hcs : ∀ s ∈ cs, Plain s) : ∀ s ∈ walk start cs, Plain s := by
  induction cs generalizing start with
  | nil => exact hstart
  | cons c cs ih =>
    refine ih ?_ (fun s hs => hcs s (by simp [hs]))
    beta_reduce
    split
    · exact hstart
    · split
      · exact fun s hs => hstart s ((List.dropLast_subset start) hs)
      · intro s hs
        rcases List.mem_append.1 hs with hs | hs
        · exact hstart s hs
        · exact hcs s (by simp [List.mem_singleton.1 hs])

theorem plain_resolve {base : Parts} {s : String} (hbase : ∀ part ∈ base, Plain part)
    (hs : Plain s) : ∀ part ∈ resolve base s, Plain part := by
  refine plain_walk ?_ (fun part hpart => plain_of_mem_splitAt hs hpart)
  split
  · simp
  · exact hbase

theorem plain_display {base : Parts} {cwd path : String} (hbase : ∀ part ∈ base, Plain part)
    (hpath : Plain path) : Plain (display base cwd path) := by
  unfold display
  dsimp only
  split
  · exact hpath
  · refine plain_joinWith (by decide) (fun part hpart => ?_)
    rcases mem_relativeParts hpart with rfl | hpart
    · decide
    · exact plain_resolve hbase hpath part hpart

end Path

theorem plain_fix {r : Rule} (h : r ∈ catalog) : Plain r.fix := by
  simp only [catalog, List.mem_cons, List.not_mem_nil, or_false] at h
  rcases h with rfl | rfl | rfl | rfl | rfl | rfl | rfl
  · exact (plain_ofList (by decide)).append (plain_ofList (by decide))
  · exact plain_ofList (by decide)
  · exact plain_ofList (by decide)
  · exact plain_ofList (by decide)
  · exact plain_ofList (by decide)
  · exact ((plain_ofList (by decide)).append (plain_ofList (by decide))).append
      (plain_ofList (by decide))
  · exact plain_ofList (by decide)

theorem plain_fixOf (id : String) : Plain (fixOf id) := by
  unfold fixOf
  cases h : ruleById id with
  | none => decide
  | some r => exact plain_fix (List.mem_of_find?_eq_some h)

theorem plain_causeText (cause : FailureCause) : Plain cause.text := by
  cases cause <;> decide

namespace Report

theorem plain_counted (n : Nat) {one many : String} (hone : Plain one) (hmany : Plain many) :
    Plain (counted n one many) := by
  unfold counted
  split
  · exact hone
  · exact hmany

theorem plain_ruler (n : Nat) : Plain (ruler n) := by
  intro h
  have hmem : escape ∈ List.replicate n '─' := by simpa [ruler] using h
  exact absurd (List.eq_of_mem_replicate hmem) (by decide)

/-! ## Lines -/

/-- The same setting, with or without colour. -/
def Setting.withColour (s : Setting) (colour : Bool) : Setting := { s with colour }

theorem plain_place {s : Setting} {path : String} (hbase : ∀ part ∈ s.base, Plain part)
    (hpath : Plain path) : Plain (s.place path) :=
  Path.plain_display hbase hpath

section Lines

variable {α : Type} {l : List α}

theorem shows_map {f g : α → String} (h : ∀ x ∈ l, Shows (f x) (g x)) :
    List.Forall₂ Shows (l.map f) (l.map g) := by
  rw [List.forall₂_map_left_iff, List.forall₂_map_right_iff, List.forall₂_same]
  exact h

theorem shows_flatMap {f g : α → List String} (h : ∀ x ∈ l, List.Forall₂ Shows (f x) (g x)) :
    List.Forall₂ Shows (l.flatMap f) (l.flatMap g) := by
  induction l with
  | nil => exact .nil
  | cons x l ih =>
    exact List.rel_append (h x (by simp)) (ih (fun y hy => h y (by simp [hy])))

/-- The empty line that ends most parts of a report. -/
theorem shows_blank : List.Forall₂ Shows [""] [""] := .cons shows_empty .nil

theorem shows_ite {p : Prop} [Decidable p] {on off : List String}
    (h : p → List.Forall₂ Shows on off) :
    List.Forall₂ Shows (if p then on else []) (if p then off else []) := by
  split
  · exact h ‹p›
  · exact .nil

theorem shows_text {on off : List String} (h : List.Forall₂ Shows on off) :
    Shows (text on) (text off) := by
  induction h with
  | nil => exact shows_empty
  | cons hline _ ih => exact (hline.plain).append ih

theorem shows_joinWith {sep : String} (hsep : Plain sep) {on off : List String}
    (h : List.Forall₂ Shows on off) : Shows (Text.joinWith sep on) (Text.joinWith sep off) := by
  induction h with
  | nil => exact shows_empty
  | cons hline hrest ih =>
    cases hrest with
    | nil => exact hline
    | cons => exact (hline.plain hsep).append ih

end Lines

/-! ## Parts of a report -/

section Parts

variable {s : Setting} (c : Bool)

theorem fixBlock_shows {fix : String} (h : Plain fix) :
    List.Forall₂ Shows (fixBlock (s.withColour c) fix) (fixBlock (s.withColour false) fix) := by
  refine .cons ?_ (List.rel_append (shows_map fun line hline => ?_) shows_blank)
  · exact (shows_plain (by decide)).painted |>.plain |>.plain (plain_ruler 50)
  · exact (shows_plain (by decide)).painted (plain_of_mem_splitAt h hline)

theorem snippetRow_shows {line : String} (h : Plain line) :
    Shows (snippetRow (s.withColour c) line) (snippetRow (s.withColour false) line) :=
  (shows_plain (by decide)).painted h

theorem diagnostic_shows {d : Diagnostic} (h : d.Plain) :
    List.Forall₂ Shows (diagnostic (s.withColour c) d) (diagnostic (s.withColour false) d) := by
  have hplace : Plain (toString d.line ++ ":" ++ toString (d.column + 1)) := by
    simp +decide
  refine List.rel_append (List.rel_append (List.rel_append ?_ (shows_map fun line hline => ?_)) ?_)
    (fixBlock_shows c h.fix)
  · refine .cons ?_ (.cons ?_ shows_blank)
    · exact (shows_plain (by decide)).painted |>.plain |>.painted hplace |>.plain
        |>.painted h.ruleId
    · exact (shows_plain (by decide)).painted h.message
  · exact snippetRow_shows c (h.codeSnippet line hline)
  · split
    · exact .nil
    · exact shows_blank

theorem fileHeader_shows {path : String} (hbase : ∀ part ∈ s.base, Plain part)
    (hpath : Plain path) (n : Nat) :
    Shows (fileHeader (s.withColour c) path n) (fileHeader (s.withColour false) path n) :=
  (shows_plain (by decide)).painted (plain_place hbase hpath) |>.plain
    |>.painted (plain_nat n) |>.plain |>.plain (plain_counted n (by decide) (by decide))

/-- The ruler below a header is as long with colour as without. -/
theorem rulerWidth_eq {path : String} (hbase : ∀ part ∈ s.base, Plain part)
    (hpath : Plain path) (n : Nat) :
    rulerWidth (fileHeader (s.withColour c) path n) =
      rulerWidth (fileHeader (s.withColour false) path n) := by
  rw [rulerWidth, rulerWidth, (fileHeader_shows c hbase hpath n).strip_eq,
    (fileHeader_shows false hbase hpath n).strip_eq]

theorem fileBlock_shows {path : String} {ds : List Diagnostic}
    (hbase : ∀ part ∈ s.base, Plain part) (hpath : Plain path) (hds : ∀ d ∈ ds, d.Plain) :
    List.Forall₂ Shows (fileBlock (s.withColour c) path ds)
      (fileBlock (s.withColour false) path ds) := by
  unfold fileBlock
  dsimp only
  rw [rulerWidth_eq c hbase hpath]
  refine List.rel_append (.cons (fileHeader_shows c hbase hpath ds.length)
    (.cons ?_ shows_blank)) (shows_flatMap fun d hd => diagnostic_shows c (hds d hd))
  exact (shows_plain (by decide)).painted (plain_ruler _)

theorem byFile_shows {ds : List Diagnostic} (hbase : ∀ part ∈ s.base, Plain part)
    (hds : ∀ d ∈ ds, d.Plain) :
    List.Forall₂ Shows (byFile (s.withColour c) ds) (byFile (s.withColour false) ds) := by
  refine shows_flatMap fun e he => ?_
  obtain ⟨⟨d, hd, hpath⟩, hfound⟩ := mem_groupBy he
  have hplain : Plain e.1 := hpath ▸ (hds d hd).filePath
  exact fileBlock_shows c hbase hplain (fun d hd => hds d (hfound d hd))

theorem placeRow_shows {place : String} {ds : List Diagnostic} (hplace : Plain place) :
    Shows (placeRow (s.withColour c) place ds) (placeRow (s.withColour false) place ds) := by
  have hlines : Plain (Text.joinWith ", " (ds.map (fun d => "line " ++ toString d.line))) := by
    refine plain_joinWith (by decide) (fun line hline => ?_)
    obtain ⟨d, -, rfl⟩ := List.mem_map.1 hline
    simp +decide
  exact (shows_plain (by decide)).painted |>.plain |>.painted hplace |>.plain |>.painted hlines

theorem ruleBlock_shows {ruleId : String} {ds : List Diagnostic}
    (hbase : ∀ part ∈ s.base, Plain part) (hruleId : Plain ruleId) (hds : ∀ d ∈ ds, d.Plain) :
    List.Forall₂ Shows (ruleBlock (s.withColour c) ruleId ds)
      (ruleBlock (s.withColour false) ruleId ds) := by
  have hmessage : Plain ((ds.head?.map (fun d => d.message)).getD "") := by
    cases ds with
    | nil => decide
    | cons d ds => exact (hds d (by simp)).message
  -- places are grouped as they are shown, which no style has a part in
  have hplaces : ∀ e ∈ groupBy (fun d : Diagnostic => s.place d.filePath) ds, Plain e.1 := by
    intro e he
    obtain ⟨⟨d, hd, hplace⟩, -⟩ := mem_groupBy he
    rw [← hplace]
    exact plain_place hbase (hds d hd).filePath
  refine List.rel_append (List.rel_append (List.rel_append (List.rel_append (List.rel_append ?_
    (shows_map ?_)) (shows_ite fun _ => ?_)) shows_blank)
    (fixBlock_shows c (plain_fixOf ruleId))) ?_
  · refine .cons ?_ (.cons ?_ (.cons (shows_plain (by decide)) (.cons ?_ .nil)))
    · exact (shows_plain (by decide)).painted |>.plain |>.painted hruleId
        |>.plain |>.painted (plain_nat _) |>.plain
        |>.plain (plain_counted _ (by decide) (by decide))
    · exact (shows_plain (by decide)).painted hmessage
    · exact (shows_plain (by decide)).painted
  · exact fun e he => placeRow_shows c (hplaces e (List.mem_of_mem_take he))
  · exact .cons ((shows_plain (by decide)).painted (by simp +decide)) .nil
  · exact .cons ((shows_plain (by decide)).painted (plain_ruler 60)) shows_blank

theorem byRule_shows {ds : List Diagnostic} (hbase : ∀ part ∈ s.base, Plain part)
    (hds : ∀ d ∈ ds, d.Plain) :
    List.Forall₂ Shows (byRule (s.withColour c) ds) (byRule (s.withColour false) ds) := by
  refine List.rel_append (shows_flatMap fun e he => ?_)
    (.cons (shows_painted (by simp +decide)) shows_blank)
  obtain ⟨⟨d, hd, hid⟩, hfound⟩ := mem_groupBy (mem_sortBy.1 he)
  have hplain : Plain e.1 := hid ▸ (hds d hd).ruleId
  exact ruleBlock_shows c hbase hplain (fun d hd => hds d (hfound d hd))

theorem diagnostics_shows {ds : List Diagnostic} (hbase : ∀ part ∈ s.base, Plain part)
    (hds : ∀ d ∈ ds, d.Plain) (limit : Int) :
    List.Forall₂ Shows (diagnostics (s.withColour c) limit ds)
      (diagnostics (s.withColour false) limit ds) := by
  have hshown : ∀ d ∈ limited limit ds, d.Plain := by
    unfold limited
    split
    · exact fun d hd => hds d (List.mem_of_mem_take hd)
    · exact hds
  unfold diagnostics
  split
  · exact .nil
  · refine List.rel_append ?_ ?_
    · split
      · exact byRule_shows c hbase hshown
      · exact byFile_shows c hbase hshown
    · exact shows_ite fun _ => .cons (shows_painted (by simp +decide)) shows_blank

theorem header_shows (files : Int) :
    List.Forall₂ Shows (header (s.withColour c) files) (header (s.withColour false) files) :=
  .cons ((shows_painted (by decide)).painted (by simp +decide)) shows_blank

theorem plain_failureLine {f : Failure} (hbase : ∀ part ∈ s.base, Plain part) (hf : f.Plain) :
    Plain (failureLine s f) := by
  unfold failureLine
  simp +decide [plain_place hbase hf.filePath, plain_causeText, hf.message]

theorem failures_shows {fs : List Failure} (hbase : ∀ part ∈ s.base, Plain part)
    (hfs : ∀ f ∈ fs, f.Plain) :
    List.Forall₂ Shows (failures (s.withColour c) fs) (failures (s.withColour false) fs) := by
  unfold failures
  split
  · exact .nil
  · refine .cons (shows_painted ?_) (List.rel_append (shows_map fun f hf => ?_) shows_blank)
    · simp +decide [plain_counted]
    · exact (shows_plain (by decide)).painted |>.plain |>.plain (plain_failureLine hbase (hfs f hf))

theorem summary_shows (ds : List Diagnostic) (fs : List Failure) (totalFiles : Int) :
    List.Forall₂ Shows (summary (s.withColour c) ds fs totalFiles)
      (summary (s.withColour false) ds fs totalFiles) := by
  unfold summary
  split
  · refine .cons ?_ .nil
    exact (shows_painted (by decide)).plain |>.plain (plain_int _) |>.plain
  · refine .cons (.append (.painted (.plain (.painted (shows_plain (by decide)) ?_) (by decide)) ?_)
      ?_) .nil
    · simp +decide [plain_counted]
    · simp +decide
    · split
      · exact shows_empty
      · exact (shows_plain (by decide)).painted (by simp +decide)

theorem ruleList_shows {rules : List Rule} (h : ∀ r ∈ rules, Plain r.id ∧ Plain r.message) :
    Shows (ruleList (s.withColour c) rules) (ruleList (s.withColour false) rules) := by
  refine shows_joinWith (by decide) (shows_map fun r hr => ?_)
  exact (shows_plain (by decide)).painted (h r hr).1 |>.plain |>.plain (h r hr).2

end Parts

end Report

/-! ## Messages -/

namespace Log

/-- What a run asks of the log: a message, or to write debug messages from now on or no longer. -/
inductive Call where
  | verbosity (on : Bool)
  | message (level : Level) (text : String)

def Call.Plain : Call → Prop
  | verbosity _ => True
  | message _ text => Terminal.Plain text

/-- All that is written for a sequence of calls. -/
def transcript (colour : Bool) : Bool → List Call → String
  | _, [] => ""
  | _, .verbosity on :: calls => transcript colour on calls
  | verbose, .message level text :: calls =>
    render colour verbose level text ++ transcript colour verbose calls

theorem render_shows {text : String} (h : Plain text) (c verbose : Bool) (level : Level) :
    Shows (render c verbose level text) (render false verbose level text) := by
  have htag : Shows (Terminal.paint c (tagStyle level) tag ++ " ")
      (Terminal.paint false (tagStyle level) tag ++ " ") :=
    (shows_painted (by decide)).plain
  unfold render line
  split
  · exact shows_empty
  · split
    · exact (htag.painted h).plain
    · exact (htag.plain h).plain

theorem transcript_shows {calls : List Call} (h : ∀ call ∈ calls, call.Plain) (c verbose : Bool) :
    Shows (transcript c verbose calls) (transcript false verbose calls) := by
  induction calls generalizing verbose with
  | nil => exact shows_empty
  | cons call calls ih =>
    obtain ⟨hcall, hcalls⟩ := List.forall_mem_cons.1 h
    cases call with
    | verbosity on => exact ih hcalls on
    | message level text => exact (render_shows hcall c verbose level).append (ih hcalls verbose)

end Log

/-! ## The text of a report -/

namespace Report

/-- Without its sequences, each line in colour is the line without colour, and so is the text that
the lines make. -/
structure SameText (report : Bool → List String) : Prop where
  lines : (report true).map strip = report false
  text : strip (text (report true)) = text (report false)

theorem sameText_of_shows {report : Bool → List String}
    (h : List.Forall₂ Shows (report true) (report false)) : SameText report where
  lines := by
    have hstrip : List.Forall₂ (fun on off => strip on = off) (report true) (report false) :=
      h.imp fun _ _ => Shows.strip_eq
    rw [← List.forall₂_eq_eq_eq, List.forall₂_map_left_iff]
    exact hstrip
  text := (shows_text h).strip_eq

/-- Where the working directory, and what is reported or logged, has no sequence in it. -/
theorem colour_keeps_text {s : Setting} (hbase : ∀ part ∈ s.base, Plain part) :
    (∀ rules : List Rule, (∀ r ∈ rules, Plain r.id ∧ Plain r.message) →
      strip (ruleList (s.withColour true) rules) = ruleList (s.withColour false) rules) ∧
    (∀ files, SameText fun c => header (s.withColour c) files) ∧
    (∀ d : Diagnostic, d.Plain → SameText fun c => diagnostic (s.withColour c) d) ∧
    (∀ limit (ds : List Diagnostic), (∀ d ∈ ds, d.Plain) →
      SameText fun c => diagnostics (s.withColour c) limit ds) ∧
    (∀ fs : List Failure, (∀ f ∈ fs, f.Plain) → SameText fun c => failures (s.withColour c) fs) ∧
    (∀ ds fs totalFiles, SameText fun c => summary (s.withColour c) ds fs totalFiles) ∧
    ∀ verbose (calls : List Log.Call), (∀ call ∈ calls, call.Plain) →
      strip (Log.transcript true verbose calls) = Log.transcript false verbose calls := by
  refine ⟨fun rules h => ?_, fun files => ?_, fun d h => ?_, fun limit ds h => ?_, fun fs h => ?_,
    fun ds fs totalFiles => ?_, fun verbose calls h => ?_⟩
  · exact (ruleList_shows true h).strip_eq
  · exact sameText_of_shows (header_shows true files)
  · exact sameText_of_shows (diagnostic_shows true h)
  · exact sameText_of_shows (diagnostics_shows true hbase h limit)
  · exact sameText_of_shows (failures_shows true hbase h)
  · exact sameText_of_shows (summary_shows true ds fs totalFiles)
  · exact (Log.transcript_shows h true verbose).strip_eq

namespace Sample

def inRepository : Setting := ⟨true, ["repo"], "/repo"⟩

def marked : Diagnostic where
  ruleId := "PMC004"
  message := "assignment using subscript"
  filePath := "/repo/a.py"
  line := 3
  column := 0
  codeSnippet := ["▶ 3 | df['a'] = 1"]
  fix := "df = df.assign(a=1)"

end Sample

/-- A finding with its header, in colour and without. -/
theorem colour_keeps_text_of_marked :
    (∀ part ∈ Sample.inRepository.base, Plain part) ∧
    (fileHeader Sample.inRepository "/repo/a.py" 1 ≠
      fileHeader (Sample.inRepository.withColour false) "/repo/a.py" 1) ∧
    SameText fun c => diagnostics (Sample.inRepository.withColour c) 0 [Sample.marked] := by
  have hbase : ∀ part ∈ Sample.inRepository.base, Plain part := by decide
  have hmarked : Sample.marked.Plain := ⟨by decide, by decide, by decide, by decide, by decide⟩
  refine ⟨hbase, by decide, ?_⟩
  exact (colour_keeps_text hbase).2.2.2.1 0 [Sample.marked] (by simpa using hmarked)

end Report
end ChainLint
