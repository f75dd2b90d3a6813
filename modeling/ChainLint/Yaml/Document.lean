import ChainLint.Yaml.Scalar

/-!
# ChainLint.Yaml.Document

Nodes, collections and documents.

* `Found`: what was read at a place, and the tag it ended up with.
* `composeNode`: a node in its context, given the reading of the nodes inside it.
* `document`, `load`: a stream holds one document at most.
-/

namespace ChainLint
namespace Yaml

/-- Where a node stands: as an entry of a block or of a flow collection, or as a key. -/
inductive Context where
  | blockOut | blockIn | flowIn | flowOut
  deriving DecidableEq

def Context.isBlock : Context → Bool
  | .blockOut | .blockIn => true
  | .flowIn | .flowOut => false

structure Found where
  tag : Option String := none
  value : Value := .null
  /-- There is something, if only a tag or an anchor. -/
  isPresent : Bool := false
  sort : Option NodeSort := none

/-- How a node is asked for. -/
structure Request where
  parentIndent : Int
  context : Context
  /-- The node may start on a later line. -/
  seek : Bool
  /-- A block collection may start in the middle of a line. -/
  compact : Bool

abbrev Compose := Request → Read Found

/-- Content before tags are applied. An unquoted scalar still gets its value. -/
structure Content where
  sort : Option NodeSort
  value : Value
  isPlain : Bool := false

/-! ### Properties -/

def isTagHandle (cs : List Char) : Bool :=
  match cs with
  | ['!'] | ['!', '!'] => true
  | '!' :: rest =>
    match rest.getLast? with
    | some '!' => rest.dropLast.all (fun c => c.isAlpha || c == '-')
    | _ => false
  | _ => false

/-- Characters of a tag; a percent sign stands in front of two hexadecimal digits. -/
def isTagText : List Char → Bool
  | [] => true
  | '%' :: a :: b :: cs => digitValue a < 16 && digitValue b < 16 && isTagText cs
  | c :: cs => (c.isAlphanum || "-#;/?:@&=+$,_.!~*'()[]".toList.contains c) && isTagText cs

def isTagUri (cs : List Char) : Bool :=
  match cs with
  | [] => false
  | c :: rest => !isFlowMark c && isTagText rest

/-- Replaces percent escapes of ASCII characters. -/
def decodeTag : List Char → List Char
  | [] => []
  | '%' :: a :: b :: cs => Char.ofNat (16 * digitValue a + digitValue b) :: decodeTag cs
  | c :: cs => c :: decodeTag cs

def tagFor (handle suffix : List Char) : Read String := do
  if !suffix.isEmpty && !isTagUri suffix then invalid
  let suffix := String.ofList (decodeTag suffix)
  match (← get).handles.lookup (String.ofList handle), handle with
  | some text, _ => return text ++ suffix
  | none, ['!'] => return "!" ++ suffix
  | none, ['!', '!'] => return core "" ++ suffix
  | none, _ => invalid

/-- A tag, if one starts here. -/
def tagProperty : Read (Option String) := do
  if (← peek) != '!' then return none
  advance 1
  if (← peek) == '<' then
    advance 1
    let name ← takeWhile (· != '>')
    if isEnd (← peek) || !isTagUri name then invalid
    advance 1
    return some (String.ofList (decodeTag name))
  else
    let cs ← takeWhile (fun c => !isSpaceOrBreak c)
    let handle := cs.takeWhile (· != '!')
    let (handle, suffix) :=
      if handle.length = cs.length then (['!'], cs)
      else ('!' :: handle ++ ['!'], cs.drop (handle.length + 1))
    if !isTagHandle handle || suffix.contains '!' || suffix.any isFlowMark then invalid
    return some (← tagFor handle suffix)

/-- The name behind an anchor or alias mark. -/
def nodeName : Read String := do
  advance 1
  let cs ← takeWhile (fun c => !isSpaceOrBreak c && !isFlowMark c)
  if cs.isEmpty then invalid else return String.ofList cs

def setAnchor (name : Option String) (v : Value) : Read Unit :=
  match name with
  | some n => modify (fun c => { c with anchors := (n, v) :: c.anchors })
  | none => pure ()

/-- How the current line lies to the parent: deeper, level or shallower. -/
def indentStatus (parent : Int) : Read Int := do
  let i := (← get).indent
  return if parent < i then 1 else if i = parent then 0 else -1

structure Properties where
  tag : Option String := none
  anchor : Option String := none
  status : Int := 1
  newLine : Bool := false
  /-- Block collections may follow. -/
  collections : Bool

/-- Tags and anchors in front of a node; each at most once. -/
def properties (parent : Int) (allowed : Bool) : Nat → Properties → Read Properties
  | 0, p => pure p
  | fuel + 1, p => do
    let c ← peek
    let p ←
      if c == '!' && p.tag.isNone then do pure { p with tag := ← tagProperty }
      else if c == '&' && p.anchor.isNone then do pure { p with anchor := some (← nodeName) }
      else if c == '!' || c == '&' then invalid
      else return p
    if (← skipSpace true) > 0 then
      properties parent allowed fuel
        { p with newLine := true, collections := allowed, status := ← indentStatus parent }
    else properties parent allowed fuel { p with collections := false }

/-! ### Mappings -/

/-- Entries in order, and the keys that came from a merge and may still be given. -/
structure Entries where
  list : List (String × Value) := []
  merged : List String := []

def mergeInto (e : Entries) (source : Value) : Option Entries :=
  match source with
  | .mapping pairs =>
    some (pairs.foldl (fun e (k, v) =>
      if (e.list.lookup k).isSome then e else ⟨e.list ++ [(k, v)], k :: e.merged⟩) e)
  | .sequence items =>
    some (items.zipIdx.foldl (fun e (v, i) =>
      let k := toString i
      if (e.list.lookup k).isSome then e else ⟨e.list ++ [(k, v)], k :: e.merged⟩) e)
  | .instant _ | .bytes _ => some e
  | _ => none

def setEntry (key : String) (v : Value) : List (String × Value) → List (String × Value)
  | [] => [(key, v)]
  | (k, w) :: rest => if k = key then (key, v) :: rest else (k, w) :: setEntry key v rest

/-- Adds a pair. A merge key brings in the entries of its value; any other key must be new. -/
def storePair (e : Entries) (key : Found) (v : Value) : Option Entries := do
  let text ← keyText key.value
  if key.tag = some (core "merge") then
    match v with
    | .sequence sources => sources.foldlM mergeInto e
    | source => mergeInto e source
  else if (e.list.lookup text).isSome && !e.merged.contains text then none
  else some ⟨setEntry text v e.list, e.merged.filter (· != text)⟩

def store (e : Entries) (key : Found) (v : Value) : Read Entries :=
  match storePair e key v with
  | some e => pure e
  | none => invalid

section

variable (compose : Compose)

/-! ### Flow collections -/

/-- The pair or value at this place in a flow collection. -/
def flowEntry (indent : Int) : Read (Found × Option Value) := do
  let isExplicit := (← peek) == '?' && isSpaceOrBreak (← ahead 1)
  if isExplicit then
    advance 1
    discard (skipSpace true)
  let line := (← get).line
  let key ← compose ⟨indent, .flowIn, false, true⟩
  discard (skipSpace true)
  if (isExplicit || (← get).line == line) && (← peek) == ':' then
    advance 1
    discard (skipSpace true)
    let v ← compose ⟨indent, .flowIn, false, true⟩
    return (key, some v.value)
  else return (key, if isExplicit then some .null else none)

structure FlowState where
  entries : Entries := {}
  items : List Value := []
  /-- Keys of pairs in a sequence that came from a merge. -/
  merged : List String := []
  /-- A comma, or the start, came last. -/
  ready : Bool := true

def flowEntries (indent : Int) (isMapping : Bool) : Nat → FlowState → Read FlowState
  | 0, _ => invalid
  | fuel + 1, s => do
    discard (skipSpace true)
    let c ← peek
    if isEnd c then invalid
    else if c == (if isMapping then '\x7d' else ']') then
      advance 1
      return s
    else if !s.ready || c == ',' then invalid
    else
      let (key, v) ← flowEntry compose indent
      let s ← if isMapping then do
          pure { s with entries := ← store s.entries key (v.getD .null) }
        else
          match v with
          | some v => do
            let pair ← store ⟨[], s.merged⟩ key v
            pure { s with items := s.items ++ [.mapping pair.list], merged := pair.merged }
          | none => pure { s with items := s.items ++ [key.value] }
      discard (skipSpace true)
      let isComma := (← peek) == ','
      if isComma then advance 1
      flowEntries indent isMapping fuel { s with ready := isComma }

def flowCollection (indent : Int) (anchor : Option String) : Read (Option Content) := do
  let c ← peek
  if c != '[' && c != '\x7b' then return none
  let isMapping := c == '\x7b'
  setAnchor anchor (if isMapping then .mapping [] else .sequence [])
  advance 1
  let s ← flowEntries compose indent isMapping ((← get).input.size + 1) {}
  return some (if isMapping then ⟨some .mapping, .mapping s.entries.list, false⟩
    else ⟨some .sequence, .sequence s.items, false⟩)

/-! ### Block collections -/

def blockItems (indent : Int) : Nat → List Value → Read (List Value)
  | 0, _ => invalid
  | fuel + 1, items => do
    let c ← peek
    if isEnd c then return items
    if (← get).tabbed then invalid
    if c != '-' || !isSpaceOrBreak (← ahead 1) then return items
    advance 1
    if (← skipSpace true) > 0 && (← get).indent ≤ indent then
      blockItems indent fuel (items ++ [.null])
    else
      let line := (← get).line
      let item ← compose ⟨indent, .blockIn, false, true⟩
      discard (skipSpace true)
      let now ← get
      if (now.line == line || indent < now.indent) && !isEnd (← peek) then invalid
      else if now.indent < indent then return items ++ [item.value]
      else blockItems indent fuel (items ++ [item.value])

def blockSequence (indent : Int) (anchor : Option String) : Read (Option Content) := do
  if (← get).tabbed || (← peek) != '-' || !isSpaceOrBreak (← ahead 1) then return none
  setAnchor anchor (.sequence [])
  let items ← blockItems compose indent ((← get).input.size + 1) []
  return some ⟨some .sequence, .sequence items, false⟩

structure MapState where
  entries : Entries := {}
  /-- The key after a question mark, whose value is still to come. -/
  openKey : Option Found := none
  /-- A key has been seen. -/
  detected : Bool := false

/-- What one round of a block mapping came to. -/
inductive MapStep where
  /-- A key was read; its value comes next. -/
  | key (k : Found) (compact : Bool)
  /-- A question mark: the key itself comes next. -/
  | question
  /-- No pair starts here. -/
  | done
  /-- A node without a colon: it is not a mapping at all. -/
  | single (f : Found)

def closeKey (s : MapState) : Read MapState :=
  match s.openKey with
  | some k => do return { s with entries := ← store s.entries k .null, openKey := none }
  | none => pure s

/-- Reads a key, or finds out that there is none. -/
def mapKey (flowIndent : Int) (s : MapState) : Read (MapStep × MapState) := do
  let c ← peek
  if c == '?' && isSpaceOrBreak (← ahead 1) then
    let s ← closeKey s
    advance 1
    return (.question, { s with detected := true })
  else if c == ':' && isSpaceOrBreak (← ahead 1) then
    match s.openKey with
    | some k =>
      advance 1
      return (.key k true, { s with openKey := none })
    | none => invalid
  else
    let line := (← get).line
    let key ← compose ⟨flowIndent, .flowOut, false, true⟩
    if !key.isPresent then return (.done, s)
    let sameLine := (← get).line == line
    if sameLine then discard (takeWhile isSpace)
    if sameLine && (← peek) == ':' then
      if !isSpaceOrBreak (← ahead 1) then invalid
      advance 1
      let s ← closeKey s
      return (.key key false, { s with detected := true })
    else if s.detected then invalid
    else return (.single key, s)

/-- The end of a round: what follows must be a new line that is not deeper. -/
def mapContinues (indent : Int) (line : Nat) : Read Bool := do
  let now ← get
  if (now.line == line || indent < now.indent) && !isEnd (← peek) then invalid
  else return indent ≤ now.indent

def blockPairs (indent flowIndent : Int) : Nat → MapState → Read (Option Found × MapState)
  | 0, _ => invalid
  | fuel + 1, s => do
    if isEnd (← peek) then return (none, s)
    if s.openKey.isNone && (← get).tabbed then invalid
    let line := (← get).line
    let (step, s) ← mapKey compose flowIndent s
    match step with
    | .done => return (none, s)
    | .single f => return (some f, s)
    | .question =>
      let now ← get
      let key ← if now.line == line || indent < now.indent then do
          let k ← compose ⟨indent, .blockOut, true, true⟩
          discard (skipSpace true)
          pure k
        else pure {}
      let s := { s with openKey := some { key with tag := none } }
      if ← mapContinues indent line then blockPairs indent flowIndent fuel s
      else return (none, s)
    | .key k compact =>
      let v ← compose ⟨indent, .blockOut, true, compact⟩
      let s := { s with entries := ← store s.entries k v.value }
      discard (skipSpace true)
      if ← mapContinues indent line then blockPairs indent flowIndent fuel s
      else return (none, s)

/-- A block mapping, or the single node that stands here instead of one. -/
def blockMapping (indent flowIndent : Int) (anchor : Option String) :
    Read (Option Content) := do
  if (← get).tabbed then return none
  setAnchor anchor (.mapping [])
  let (single, s) ← blockPairs compose indent flowIndent ((← get).input.size + 1) {}
  match single with
  | some f => return some ⟨f.sort, f.value, false⟩
  | none =>
    if s.detected then
      let s ← closeKey s
      return some ⟨some .mapping, .mapping s.entries.list, false⟩
    else return none

/-! ### Nodes -/

def scalarContent (s : Option String) (isPlain : Bool) : Option Content :=
  s.map (fun s => ⟨some .scalar, .string s, isPlain⟩)

/-- The value an alias stands for. -/
def aliasContent (p : Properties) : Read (Option Content) := do
  if (← peek) != '*' then return none
  let name ← nodeName
  match (← get).anchors.lookup name with
  | some v =>
    discard (skipSpace true)
    if p.tag.isSome || p.anchor.isSome then invalid else return some ⟨none, v, false⟩
  | none => invalid

/-- The first form that is present. -/
def firstOf : List (Read (Option Content)) → Read (Option Content)
  | [] => return none
  | p :: ps => do
    match ← p with
    | some c => return some c
    | none => firstOf ps

/-- The content of a node that lies deeper than its parent. -/
def content (r : Request) (p : Properties) : Read (Option Content) := do
  let flowIndent := if r.context.isBlock then r.parentIndent + 1 else r.parentIndent
  let now ← get
  let blockIndent : Int := now.pos - now.lineStart
  let collections := p.collections && (p.newLine || r.compact)
  if p.status = 1 then
    firstOf
      [if collections then blockSequence compose blockIndent p.anchor else pure none,
        if collections then blockMapping compose blockIndent flowIndent p.anchor else pure none,
        flowCollection compose flowIndent p.anchor,
        if r.context.isBlock then do return scalarContent (← blockScalar flowIndent) false
          else pure none,
        do return scalarContent (← quotedScalar '\'') false,
        do return scalarContent (← quotedScalar '"') false,
        aliasContent p,
        do return scalarContent (← plainScalar flowIndent (r.context == .flowIn)) true]
  else if p.status = 0 && r.context == .blockOut && collections then
    blockSequence compose blockIndent p.anchor
  else return none

/-- Applies the tag of a node, or finds the tag of a plain scalar. -/
def tagged (p : Properties) (c : Option Content) : Read Found :=
  match p.tag, c with
  | none, none => pure { isPresent := p.anchor.isSome }
  | none, some c =>
    match c.isPlain, c.value with
    | true, .string s =>
      let (v, tag) := resolvePlain s
      pure ⟨some tag, v, true, c.sort⟩
    | _, v => pure ⟨none, v, true, c.sort⟩
  | some tag, c =>
    match applyTag tag (c.bind Content.sort) ((c.map Content.value).getD .null) with
    | some v => pure ⟨some tag, v, true, c.bind Content.sort⟩
    | none => invalid

/-- A node with its properties. -/
def composeNode : Compose := fun r => do
  let start : Properties := { collections := r.context.isBlock }
  let start ← if r.seek && (← skipSpace true) > 0 then do
      pure { start with newLine := true, status := ← indentStatus r.parentIndent }
    else pure start
  let p ← if start.status = 1 then
      properties r.parentIndent r.context.isBlock ((← get).input.size + 1) start
    else pure start
  let c ← content compose r p
  let found ← tagged p c
  setAnchor p.anchor found.value
  return found

end

/-- Nodes to a nesting depth. -/
def composeWithin : Nat → Compose
  | 0 => fun _ => invalid
  | fuel + 1 => composeNode (composeWithin fuel)

/-! ### Documents -/

/-- The words of a directive line. -/
def directiveWords : Nat → List String → Read (List String)
  | 0, words => pure words
  | fuel + 1, words => do
    discard (takeWhile isSpace)
    if (← peek) == '#' then
      skipComment
      return words
    let w ← takeWhile (fun c => !isSpaceOrBreak c)
    if w.isEmpty then return words else directiveWords fuel (words ++ [String.ofList w])

def isVersion (s : String) : Bool :=
  match Text.splitAt '.' s with
  | [major, minor] =>
    (numeral 10 major.toList) == some 1 && (numeral 10 minor.toList).isSome
  | _ => false

structure Directives where
  seen : Bool := false
  version : Bool := false

def directive (d : Directives) (name : String) (words : List String) : Read Directives := do
  match name, words with
  | "YAML", [v] => if d.version || !isVersion v then invalid else return ⟨true, true⟩
  | "TAG", [handle, text] =>
    if !isTagHandle handle.toList || ((← get).handles.lookup handle).isSome
        || !isTagUri text.toList then invalid
    else
      modify (fun c =>
        { c with handles := (handle, String.ofList (decodeTag text.toList)) :: c.handles })
      return { d with seen := true }
  | "YAML", _ | "TAG", _ => invalid
  | _, _ => return { d with seen := true }

def directives : Nat → Directives → Read Directives
  | 0, d => pure d
  | fuel + 1, d => do
    discard (skipSpace true)
    if 0 < (← get).indent || (← peek) != '%' then return d
    advance 1
    let name ← takeWhile (fun c => !isSpaceOrBreak c)
    if name.isEmpty then invalid
    let words ← directiveWords ((← get).input.size + 1) []
    if !isEnd (← peek) then lineBreak
    directives fuel (← directive d (String.ofList name) words)

/-- The three dashes at the start of a document. -/
def documentStart : Read Bool := do
  return (← get).indent == 0 && (← peek) == '-' && (← ahead 1) == '-' && (← ahead 2) == '-'

def atStreamEnd : Read Bool := do
  let c ← get
  return c.input.size ≤ c.pos + 2

def document : Read Value := do
  modify (fun c => { c with anchors := [], handles := [] })
  let size := (← get).input.size
  let d ← directives (size + 1) {}
  discard (skipSpace true)
  if ← documentStart then
    advance 3
    discard (skipSpace true)
  else if d.seen then invalid
  let found ← composeWithin (size + 2) ⟨(← get).indent - 1, .blockOut, false, true⟩
  discard (skipSpace true)
  if ← atSeparator then
    if (← peek) == '.' then
      advance 3
      discard (skipSpace true)
    return found.value
  else if ← atStreamEnd then return found.value
  else invalid

def documents : Nat → List Value → Read (List Value)
  | 0, vs => pure vs
  | fuel + 1, vs => do
    if ← atStreamEnd then return vs
    documents fuel (vs ++ [← document])

/-- The stream ends in a line break, and a byte order mark at its start is dropped. -/
def streamOf (text : String) : List Char :=
  let cs := text.toList
  let cs := match cs.getLast? with
    | some c => if isBreak c then cs else cs ++ ['\n']
    | none => []
  match cs with
  | c :: rest => if c.toNat = 0xFEFF then rest else cs
  | [] => []

/-- The value of a text with at most one document, null when it has none; nothing when the text
is not valid. -/
def load (text : String) : Option Value := do
  let cs := streamOf text
  if cs.any isEnd then none
  else
    let spaces := (cs.takeWhile (· == ' ')).length
    let start : Cursor :=
      { input := (cs ++ ['\x00']).toArray, pos := spaces, indent := (spaces : Int) }
    match ← (documents (cs.length + 1) []).run start with
    | ([], _) => some .null
    | ([v], _) => some v
    | (_, _) => none

end Yaml
end ChainLint
