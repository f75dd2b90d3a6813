import ChainLint.CommandLine.Run
import ChainLint.Grammar.Parse
import ChainLint.Proofs.Report.Length
import ChainLint.Proofs.Scan.Verdict
import ChainLint.Yaml.Document
import Mathlib.Data.List.TakeDrop

/-!
# ChainLint.Proofs.CommandLine.ExitCode

What the exit code of a run says, and what arrives of its output.

A run looks at the format, the path and the configuration, in this order, and refuses a request in
which one of them is wrong (`Refused`). All other requests are in order (`InOrder`): the rules are
listed, or the files are scanned and the exit code tells whether something was found or failed.

The program is stopped with its exit code as soon as it has written a report on something found or
failed. Where the output goes to a pipe, what this has not taken by then is lost.

* `refused_or_inOrder`: there is no third case. `execute_of_refused`, `execute_of_inOrder`: what
  the program does in each.
* `ending_of_inOrder`: how a run ends, as a function of the scan alone.
* `received_json`: what arrives of a document. `received_json_ne`: with too many findings for the
  room in a pipe it is not the whole document.
* `exit_code_of_run`: the codes, the document that the JSON format writes and what arrives of it,
  and that the format, the limit and the debug messages have no say in the code.
-/

namespace ChainLint

namespace ReportFormat

theorem ofText?_text (f : ReportFormat) : ofText? f.text = some f := by cases f <;> decide

theorem ofText?_eq_some_iff {t : String} {f : ReportFormat} : ofText? t = some f ↔ t = f.text := by
  constructor
  · intro h
    have htext := List.find?_some h
    exact (of_decide_eq_true htext).symm
  · rintro rfl
    exact ofText?_text f

theorem ofText?_eq_none_iff {t : String} : ofText? t = none ↔ ∀ f : ReportFormat, t ≠ f.text := by
  rw [Option.eq_none_iff_forall_not_mem]
  exact forall_congr' fun f => not_congr ofText?_eq_some_iff

end ReportFormat

namespace CommandLine

/-! ## Requests -/

section Requests

/-- The path that is asked for. -/
def target (s : Surroundings) (a : Arguments) : Path.Parts := Path.resolve s.cwd a.path

/-- The configuration that is asked for. -/
def configured (s : Surroundings) (a : Arguments) : Except ConfigError Config :=
  ConfigFile.load s.yaml s.place.files s.cwd (configDir s.place.files (target s a)) a.config

/-- What a scan comes to with the settings of the configuration and of the command line. -/
def scanned (s : Surroundings) (a : Arguments) (base : Config) : Except Fault ScanOutcome :=
  (Scan.scan s.place (base.merge (overrides a)) (target s a)).outcome

inductive Refused (s : Surroundings) (a : Arguments) : Prop where
  | format (unknown : ∀ f : ReportFormat, a.format ≠ f.text)
  | path (missing : s.place.files.contains (target s a) = false)
  | config (e : ConfigError) (wrong : configured s a = .error e)

structure InOrder (s : Surroundings) (a : Arguments) (format : ReportFormat) (base : Config) :
    Prop where
  format : a.format = format.text
  path : s.place.files.contains (target s a) = true
  config : configured s a = .ok base

variable {s : Surroundings} {a : Arguments} {format : ReportFormat} {base : Config}

theorem InOrder.not_refused (h : InOrder s a format base) : ¬Refused s a := by
  rintro (unknown | missing | ⟨e, wrong⟩)
  · exact unknown format h.format
  · exact Bool.noConfusion (missing.symm.trans h.path)
  · cases wrong.symm.trans h.config

theorem refused_or_inOrder (s : Surroundings) (a : Arguments) :
    Refused s a ∨ ∃ format base, InOrder s a format base := by
  cases hformat : ReportFormat.ofText? a.format with
  | none => exact .inl (.format (ReportFormat.ofText?_eq_none_iff.1 hformat))
  | some format =>
    cases hpath : s.place.files.contains (target s a) with
    | false => exact .inl (.path hpath)
    | true =>
      cases hconfig : configured s a with
      | error e => exact .inl (.config e hconfig)
      | ok base =>
        exact .inr ⟨format, base, ReportFormat.ofText?_eq_some_iff.1 hformat, hpath, hconfig⟩

theorem execute_of_refused (h : Refused s a) :
    ∃ message, execute s a = refuse s.colour message := by
  unfold execute
  split
  · exact ⟨_, rfl⟩
  · rename_i format hformat
    dsimp only
    split
    · exact ⟨_, rfl⟩
    · rename_i hpath
      split
      · exact ⟨_, rfl⟩
      · rename_i base hconfig
        have horder : InOrder s a format base :=
          ⟨ReportFormat.ofText?_eq_some_iff.1 hformat, by simpa [target] using hpath, hconfig⟩
        exact absurd h horder.not_refused

/-- The first note of a run. -/
def configNote (a : Arguments) (base : Config) : String :=
  "config: " ++ (base.merge (overrides a)).toJson.compactText

theorem execute_of_inOrder (h : InOrder s a format base) :
    execute s a =
      if a.listRules then
        ⟨⟨listRules s (base.merge (overrides a)),
          Log.debugLines s.colour a.verbose [configNote a base]⟩, .exit 0⟩
      else checkTarget s a format (base.merge (overrides a)) (target s a) [configNote a base] := by
  have hpath : s.place.files.contains (Path.resolve s.cwd a.path) = true := h.path
  have hconfig : ConfigFile.load s.yaml s.place.files s.cwd
      (configDir s.place.files (Path.resolve s.cwd a.path)) a.config = .ok base := h.config
  simp only [execute, ReportFormat.ofText?_eq_some_iff.2 h.format, hpath, hconfig, Bool.not_true,
    Bool.false_eq_true, if_false]
  rfl

end Requests

/-! ## Endings -/

section Endings

variable {r : ScanOutcome}

theorem conclude_of_none (h : r.diagnostics = [] ∧ r.failures = []) : conclude r = .finished := by
  simp [conclude, h.1, h.2]

theorem conclude_of_some (h : ¬(r.diagnostics = [] ∧ r.failures = [])) : conclude r = .exit 1 := by
  rw [conclude, if_neg (by simpa using h)]

theorem code?_conclude (r : ScanOutcome) :
    (conclude r).code? = some (if r.diagnostics = [] ∧ r.failures = [] then 0 else 1) := by
  by_cases h : r.diagnostics = [] ∧ r.failures = []
  · rw [conclude_of_none h, if_pos h, Ending.code?]
  · rw [conclude_of_some h, if_neg h, Ending.code?]

theorem code?_conclude_eq_zero_iff :
    (conclude r).code? = some 0 ↔ r.diagnostics = [] ∧ r.failures = [] := by
  simp [code?_conclude]

theorem code?_conclude_eq_one_iff :
    (conclude r).code? = some 1 ↔ r.diagnostics ≠ [] ∨ r.failures ≠ [] := by
  rw [ne_eq, ne_eq, ← not_and_or]
  simp [code?_conclude]

/-- How a run ends that scans and does not watch. -/
def conclusion : Except Fault ScanOutcome → Ending
  | .error e => .crashed e
  | .ok r => conclude r

theorem code?_conclusion_ne_two (x : Except Fault ScanOutcome) : (conclusion x).code? ≠ some 2 := by
  cases x with
  | error e => simp [conclusion, Ending.code?]
  | ok r =>
    rw [conclusion, code?_conclude]
    split <;> simp

variable {s : Surroundings} {a : Arguments} {format : ReportFormat} {base : Config}

theorem checkTarget_ending (hwatch : a.watch = false) (format : ReportFormat) (base : Config)
    (notes : List String) :
    (checkTarget s a format (base.merge (overrides a)) (target s a) notes).ending =
      conclusion (scanned s a base) := by
  unfold checkTarget scanned
  dsimp only
  cases (Scan.scan s.place (base.merge (overrides a)) (target s a)).outcome with
  | error e => rfl
  | ok r => simp [hwatch, conclusion]

theorem checkTarget_stdout (hwatch : a.watch = false) {r : ScanOutcome}
    (hscan : scanned s a base = .ok r) (format : ReportFormat) (notes : List String) :
    (checkTarget s a format (base.merge (overrides a)) (target s a) notes).streams.stdout =
      Report.text (report s.setting format (leadingInt a.maxIssues) r) := by
  unfold checkTarget
  rw [scanned] at hscan
  simp [hscan, hwatch]

theorem ending_of_inOrder (h : InOrder s a format base) (hwatch : a.watch = false) :
    (execute s a).ending =
      if a.listRules then .exit 0 else conclusion (scanned s a base) := by
  rw [execute_of_inOrder h]
  split
  · rfl
  · exact checkTarget_ending hwatch format base _

theorem exit_two_iff (hwatch : a.watch = false) :
    (execute s a).ending.code? = some 2 ∧ (execute s a).streams.stdout = "" ↔ Refused s a := by
  constructor
  · rintro ⟨hcode, -⟩
    rcases refused_or_inOrder s a with hrefused | ⟨format, base, horder⟩
    · exact hrefused
    · rw [ending_of_inOrder horder hwatch] at hcode
      split at hcode
      · cases hcode
      · exact absurd hcode (code?_conclusion_ne_two _)
  · intro hrefused
    obtain ⟨message, hexecute⟩ := execute_of_refused hrefused
    rw [hexecute]
    exact ⟨rfl, rfl⟩

/-- An error that ends the scan is no malformed tree, so without other errors the scan returns. -/
theorem exists_scanned
    (h : ∀ e, scanned s a base = .error e → ∃ cause, e = .malformed cause) :
    ∃ r, scanned s a base = .ok r := by
  cases hscan : scanned s a base with
  | ok r => exact ⟨r, rfl⟩
  | error e =>
    obtain ⟨cause, rfl⟩ := h e hscan
    exact absurd hscan (Scan.scan_ne_malformed cause)

/-- The format, the limit and the debug messages do not decide how a run ends. -/
theorem ending_congr (hwatch : a.watch = false) {known : ReportFormat}
    (hknown : a.format = known.text) (format : ReportFormat) (maxIssues : String) (verbose : Bool) :
    (execute s { a with format := format.text, maxIssues, verbose }).ending =
      (execute s a).ending := by
  rcases refused_or_inOrder s a with hrefused | ⟨_, base, horder⟩
  · have hother : Refused s { a with format := format.text, maxIssues, verbose } := by
      rcases hrefused with unknown | missing | ⟨e, wrong⟩
      · exact absurd hknown (unknown known)
      · exact .path missing
      · exact .config e wrong
    obtain ⟨message, hexecute⟩ := execute_of_refused hrefused
    obtain ⟨message', hexecute'⟩ := execute_of_refused hother
    rw [hexecute, hexecute']
    rfl
  · have hother : InOrder s { a with format := format.text, maxIssues, verbose } format base :=
      ⟨rfl, horder.path, horder.config⟩
    rw [ending_of_inOrder hother hwatch, ending_of_inOrder horder hwatch]
    rfl

end Endings

/-! ## What arrives -/

section Arrival

open Text.Utf8

variable {s : Surroundings} {a : Arguments} {format : ReportFormat} {base : Config}
  {r : ScanOutcome}

theorem stdout_json (h : InOrder s a .json base) (hwatch : a.watch = false)
    (hlist : a.listRules = false) (hscan : scanned s a base = .ok r) :
    (execute s a).streams.stdout = Report.documentText .messageFirst s.setting r ++ "\n" := by
  rw [execute_of_inOrder h, if_neg (by simp [hlist]), checkTarget_stdout hwatch hscan]
  simp [report, Report.text]

theorem ending_of_scanned (h : InOrder s a format base) (hwatch : a.watch = false)
    (hlist : a.listRules = false) (hscan : scanned s a base = .ok r) :
    (execute s a).ending = conclude r := by
  rw [ending_of_inOrder h hwatch, if_neg (by simp [hlist]), hscan, conclusion]

/-- All that is written arrives if nothing was found or failed. Otherwise only what has been taken
of it does. -/
theorem received_of_scanned (h : InOrder s a format base) (hwatch : a.watch = false)
    (hlist : a.listRules = false) (hscan : scanned s a base = .ok r) (c : Channel) :
    (execute s a).received c =
      if r.diagnostics = [] ∧ r.failures = [] then encode (execute s a).streams.stdout
      else c.taken (encode (execute s a).streams.stdout) := by
  rw [Outcome.received, ending_of_scanned h hwatch hlist hscan]
  split
  · rw [conclude_of_none ‹_›, Ending.delivered]
  · rw [conclude_of_some ‹_›, Ending.delivered]

theorem received_pipe_iff (h : InOrder s a format base) (hwatch : a.watch = false)
    (hlist : a.listRules = false) (hscan : scanned s a base = .ok r) (room : Nat) :
    (execute s a).received (.pipe room) = encode (execute s a).streams.stdout ↔
      r.diagnostics = [] ∧ r.failures = [] ∨
        (encode (execute s a).streams.stdout).length ≤ room := by
  rw [received_of_scanned h hwatch hlist hscan]
  split
  · simp [*]
  · rw [Channel.taken, List.take_eq_self_iff, or_iff_right ‹_›]

/-- Every finding makes the document longer. -/
theorem sum_lt_written (h : InOrder s a .json base) (hwatch : a.watch = false)
    (hlist : a.listRules = false) (hscan : scanned s a base = .ok r) :
    (r.diagnostics.map Report.leastLength).sum < (encode (execute s a).streams.stdout).length := by
  have hdocument := Report.sum_le_documentText .messageFirst s.setting r
  have hbytes := length_le_encode (Report.documentText .messageFirst s.setting r ++ "\n")
  rw [String.toList_append, List.length_append] at hbytes
  have hend : "\n".toList.length = 1 := rfl
  rw [stdout_json h hwatch hlist hscan]
  omega

/-- With too many findings for the room in a pipe, the document does not arrive. -/
theorem received_pipe_ne (h : InOrder s a .json base) (hwatch : a.watch = false)
    (hlist : a.listRules = false) (hscan : scanned s a base = .ok r) {room : Nat}
    (hroom : room < (r.diagnostics.map Report.leastLength).sum) :
    (execute s a).received (.pipe room) ≠
      encode (Report.documentText .messageFirst s.setting r ++ "\n") := by
  have hfound : r.diagnostics ≠ [] := by
    intro hnone
    simp [hnone] at hroom
  have hlonger := Nat.lt_trans hroom (sum_lt_written h hwatch hlist hscan)
  rw [← stdout_json h hwatch hlist hscan, ne_eq, received_pipe_iff h hwatch hlist hscan, not_or]
  exact ⟨fun hnone => hfound hnone.1, Nat.not_le.2 hlonger⟩

end Arrival

/-- For a request without a watch, whose scan, where it comes to one, throws nothing but what is
said of a malformed tree: the codes two, zero and one, and what has no say in them. The JSON format
writes the document of the scan, whatever the limit and the debug messages, and each finding takes
its part in it. A file gets all that is written, but of a report on something found or failed a pipe
gets only what it has room for. -/
theorem exit_code_of_run {s : Surroundings} {args : List String} {a : Arguments}
    (hparse : parse args = .run a) (hwatch : a.watch = false)
    (hscan : ∀ format base e, InOrder s a format base → a.listRules = false →
      scanned s a base = .error e → ∃ cause, e = .malformed cause) :
    ((run s args).ending.code? = some 2 ∧ (run s args).streams.stdout = "" ↔ Refused s a) ∧
    (¬Refused s a → a.listRules = true → (run s args).ending.code? = some 0) ∧
    (¬Refused s a → a.listRules = false →
      ∃ base r, configured s a = .ok base ∧ scanned s a base = .ok r ∧
        ((run s args).ending.code? = some 1 ↔ r.diagnostics ≠ [] ∨ r.failures ≠ []) ∧
        ((run s args).ending.code? = some 0 ↔ r.diagnostics = [] ∧ r.failures = []) ∧
        let written := Text.Utf8.encode (run s args).streams.stdout
        (a.format = ReportFormat.json.text →
          (run s args).streams.stdout = Report.documentText .messageFirst s.setting r ++ "\n" ∧
            (r.diagnostics.map Report.leastLength).sum < written.length) ∧
        (run s args).received .direct = written ∧
        ∀ room,
          ((run s args).received (.pipe room) = written ↔
            r.diagnostics = [] ∧ r.failures = [] ∨ written.length ≤ room) ∧
          (r.diagnostics ≠ [] ∨ r.failures ≠ [] →
            (run s args).received (.pipe room) = written.take room)) ∧
    ∀ args' (known format : ReportFormat) maxIssues verbose, a.format = known.text →
      parse args' = .run { a with format := format.text, maxIssues, verbose } →
        (run s args').ending = (run s args).ending := by
  have hrun : run s args = execute s a := by rw [run, hparse]
  rw [hrun]
  refine ⟨exit_two_iff hwatch, ?_, ?_, ?_⟩
  · intro hrefused hlist
    obtain ⟨format, base, horder⟩ := (refused_or_inOrder s a).resolve_left hrefused
    rw [ending_of_inOrder horder hwatch, if_pos hlist, Ending.code?]
  · intro hrefused hlist
    obtain ⟨format, base, horder⟩ := (refused_or_inOrder s a).resolve_left hrefused
    obtain ⟨r, hr⟩ := exists_scanned fun e => hscan format base e horder hlist
    have hending := ending_of_scanned horder hwatch hlist hr
    have hreceived := received_of_scanned horder hwatch hlist hr
    refine ⟨base, r, horder.config, hr, ?_, ?_, ?_, ?_, fun room => ⟨?_, ?_⟩⟩
    · rw [hending, code?_conclude_eq_one_iff]
    · rw [hending, code?_conclude_eq_zero_iff]
    · intro hjson
      have hformat : format = .json := by
        have hsame := horder.format.symm.trans hjson
        rw [← Option.some.injEq, ← ReportFormat.ofText?_text format, hsame,
          ReportFormat.ofText?_text]
      subst hformat
      exact ⟨stdout_json horder hwatch hlist hr, sum_lt_written horder hwatch hlist hr⟩
    · rw [hreceived, Channel.taken, ite_self]
    · exact received_pipe_iff horder hwatch hlist hr room
    · intro hsome
      rw [hreceived, if_neg (by rwa [not_and_or]), Channel.taken]
  · intro args' known format maxIssues verbose hknown hparse'
    rw [run, hparse']
    exact ending_congr hwatch hknown format maxIssues verbose

namespace Sample

/-- A directory with a file that has a finding and one that breaks off. -/
def broken : Surroundings where
  place :=
    ⟨(({} : FileTree).write ["p", "b.py"] "x = (\n".toUTF8.toList).write ["p", "a.py"]
      "df.index = 1\n".toUTF8.toList, Grammar.parse⟩
  yaml := Yaml.load
  cwd := []
  colour := false

def asked : Arguments := { path := "p", format := "json" }

theorem parse_asked : parse ["--format", "json", "p"] = .run asked := by decide +kernel

theorem configured_asked : configured broken asked = .ok {} := by decide +kernel

theorem inOrder_asked : InOrder broken asked .json {} := ⟨rfl, by decide +kernel, configured_asked⟩

theorem scanned_asked :
    ∃ r, scanned broken asked {} = .ok r ∧ r.diagnostics.length = 1 ∧ r.failures.length = 1 := by
  have hscan : (scanned broken asked {}).map
      (fun r => (r.diagnostics.length, r.failures.length)) = .ok (1, 1) := by
    decide +kernel
  cases hr : scanned broken asked {} with
  | error e =>
    rw [hr] at hscan
    cases hscan
  | ok r =>
    rw [hr] at hscan
    exact ⟨r, rfl, Prod.mk.inj (Except.ok.inj hscan)⟩

end Sample

theorem exit_code_of_run_broken :
    parse ["--format", "json", "p"] = .run Sample.asked ∧ Sample.asked.watch = false ∧
    (run Sample.broken ["--format", "json", "p"]).ending.code? = some 1 ∧
    (run Sample.broken ["p", "--format=compact", "--verbose"]).ending.code? = some 1 := by
  obtain ⟨r, hr, hfound, -⟩ := Sample.scanned_asked
  obtain ⟨-, -, hcode, hsame⟩ := exit_code_of_run Sample.parse_asked rfl (by
    intro format base e hbase _ he
    cases Sample.configured_asked.symm.trans hbase.config
    cases hr.symm.trans he)
  obtain ⟨base, r', hbase, hr', hone, -⟩ := hcode Sample.inOrder_asked.not_refused rfl
  cases Sample.configured_asked.symm.trans hbase
  cases hr.symm.trans hr'
  have hending := hone.2 (.inl (List.ne_nil_of_length_pos (by omega)))
  refine ⟨Sample.parse_asked, rfl, hending, ?_⟩
  rw [hsame _ .json .compact "0" true rfl (by decide +kernel), hending]

/-- A pipe that is full when the program starts and not read from before it has ended. There is a
finding, and the document on it does not arrive. -/
theorem document_lost :
    parse ["--format", "json", "p"] = .run Sample.asked ∧ Sample.asked.watch = false ∧
    ¬Refused Sample.broken Sample.asked ∧
    ∃ r, scanned Sample.broken Sample.asked {} = .ok r ∧
      (run Sample.broken ["--format", "json", "p"]).received (.pipe 0) ≠
        Text.Utf8.encode (Report.documentText .messageFirst Sample.broken.setting r ++ "\n") := by
  obtain ⟨r, hr, hfound, -⟩ := Sample.scanned_asked
  obtain ⟨d, hd⟩ := List.length_eq_one_iff.1 hfound
  have hroom : 0 < (r.diagnostics.map Report.leastLength).sum := by
    simp only [hd, List.map_cons, List.map_nil, List.sum_cons, List.sum_nil, Report.leastLength]
    omega
  refine ⟨Sample.parse_asked, rfl, Sample.inOrder_asked.not_refused, r, hr, ?_⟩
  rw [run, Sample.parse_asked]
  exact received_pipe_ne Sample.inOrder_asked rfl rfl hr hroom

end CommandLine
end ChainLint
