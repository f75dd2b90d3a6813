import ChainLint.Rule.Basic
import ChainLint.Rule.Shape

/-!
# ChainLint.Rule.Catalog

The rules for the method-chaining style, in the order they are listed.

* `PMC001` to `PMC007`, `catalog`.
* `fixOf`: the advice of a rule by its id, empty for an unknown id.
-/

namespace ChainLint

/-- A keyword argument `inplace=True`. -/
def isInplaceTrue : Node → Bool
  | .keyword _ (some name) (.constant _ .bool text) => name == "inplace" && text == "True"
  | _ => false

def inplaceTrue : Rule where
  id := "PMC001"
  message := "usage of 'inplace=True' should be avoided"
  kinds := [.call]
  fix := "# Instead of mutating in place:\ndf.set_index('col', inplace=True)\n\n" ++
    "# keep the result and chain on it:\ndf = df.set_index('col')"
  check node _ :=
    match node with
    | .call _ _ _ keywords => keywords.any isInplaceTrue
    | _ => false

/-- Some target is the plain name `root`. -/
def bindsRoot (targets : List Node) : Option String → Bool
  | some root => targets.any (Node.isName root)
  | none => false

def reassignWithCall : Rule where
  id := "PMC002"
  message := "reassignment using call could be replaced by method chaining"
  kinds := [.assign]
  fix := "df = (\n    df\n    .method1()\n    .method2()\n)"
  check node _ :=
    match node with
    | .assign _ targets _ value =>
      match value.receiver with
      | some object => bindsRoot targets object.chainBase
      | none => false
    | _ => false

def reassignWithSubscript : Rule where
  id := "PMC003"
  message := "reassignment using subscript could be replaced by method chaining"
  kinds := [.assign]
  fix := "df = (\n    df\n    .method()\n    .loc[lambda df_: df_.col > 0]\n)"
  check node _ :=
    match node with
    | .assign _ targets _ (.subscript _ value _) => bindsRoot targets value.chainBase
    | _ => false

def assignWithSubscript : Rule where
  id := "PMC004"
  message := "assignment using subscript could be replaced by 'assign()'"
  kinds := [.assign, .augassign]
  fix := "df = df.assign(col=0)"
  check node _ := node.targets.any Node.isSubscript

/-- Goes by the shape alone: any attribute counts, whatever it is an attribute of. -/
def assignWithAttribute : Rule where
  id := "PMC005"
  message := "assignment using attribute could be replaced by 'assign()'"
  kinds := [.assign, .augassign]
  fix := "df = df.assign(col=0)"
  check node _ := node.targets.any (fun t => t.isAttr && !t.isLabelAttr)

def assignIndexColumns : Rule where
  id := "PMC006"
  message := "assignment of index or columns could be replaced by 'rename()'"
  kinds := [.assign, .augassign]
  supersedes := ["PMC005"]
  fix := "df = df.rename(\x7b1: 'idx1', 2: 'idx2'\x7d)\n" ++
    "df = df.rename(\x7b'a': 'col1', 'b': 'col2'\x7d, axis=1)\n\n" ++
    "# or, to replace every label at once:\ndf = df.set_axis(['col1', 'col2'], axis=1)"
  check node _ := node.targets.any Node.isLabelAttr

/-- A selection by a name that was bound to a mask in the same scope. -/
def selectionWithMaskVariable : Rule where
  id := "PMC007"
  message := "selection reusing a variable could be performed with a lambda"
  kinds := [.subscript]
  fix := "df.loc[lambda df_: df_.a > 0]"
  check node b :=
    match node with
    | .subscript _ _ indices =>
      indices.any (fun i =>
        match i with
        | .name _ id => b.has id .mask
        | _ => false)
    | _ => false

def catalog : List Rule :=
  [inplaceTrue, reassignWithCall, reassignWithSubscript, assignWithSubscript,
    assignWithAttribute, assignIndexColumns, selectionWithMaskVariable]

/-- The rule of the catalogue with this id. -/
def ruleById (id : String) : Option Rule := catalog.find? (fun r => r.id == id)

/-- The advice for a rule id. -/
def fixOf (id : String) : String := ((ruleById id).map Rule.fix).getD ""

end ChainLint
