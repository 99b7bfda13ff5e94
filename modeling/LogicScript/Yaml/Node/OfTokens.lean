import LogicScript.Yaml.Node
import LogicScript.Yaml.Token

/-! From the tokens of a YAML text to the node of its first document.

The functions that read nodes take as first argument a bound on the number of their nested steps,
which the number of tokens provides. -/
namespace LogicScript
namespace Yaml

structure Composer where
  tokens : List Token
  /-- The anchors in their order, each with its node once that has been read. -/
  anchors : Array (String × Option Node) := #[]
  /-- The handles of tags and what they stand for. -/
  handles : List (String × String) := []

abbrev Composing := StateT Composer Option

namespace Composing

def peek : Composing Token := do
  match (← get).tokens with
  | [] => failure
  | t :: _ => return t

def skip : Composing Unit := modify fun c => { c with tokens := c.tokens.drop 1 }

/-- Goes on if the next token is that one, and tells whether it is. -/
def accept (t : Token) : Composing Bool := do
  if (← peek) = t then
    skip
    return true
  else return false

/-- Reads a node, unless the next token stands where it would be missing. -/
def nodeUnless (absent : List Token) (read : Composing Node) : Composing Node := do
  if absent.contains (← peek) then return .missing else read

/-! Tags and anchors. -/

def commonHandles : List (String × String) := [("!", "!"), ("!!", "tag:yaml.org,2002:")]

def commonStart : List Char := "tag:yaml.org,2002:".toList

def shorten (tag : String) : String :=
  if commonStart.isPrefixOf tag.toList then
    "!!" ++ String.ofList (tag.toList.drop commonStart.length)
  else tag

def expandTag (handle suffix : String) : Composing String := do
  if handle = "" then return shorten suffix
  let start ← ((← get).handles ++ commonHandles).lookup handle
  return shorten (start ++ suffix)

def tag? : Composing (Option String) := do
  match ← peek with
  | .tag handle suffix =>
    let tag ← expandTag handle suffix
    skip
    return some tag
  | _ => return none

def anchor? : Composing (Option String) := do
  match ← peek with
  | .anchor name =>
    skip
    return some name
  | _ => return none

def properties : Composing (Option String × Option String) := do
  match ← anchor? with
  | some name => return (some name, ← tag?)
  | none =>
    let tag ← tag?
    if tag.isNone then return (none, none)
    return (← anchor?, tag)

def openAnchor (name : String) : Composing Nat :=
  modifyGet fun c => (c.anchors.size, { c with anchors := c.anchors.push (name, none) })

def closeAnchor (number : Nat) (node : Node) : Composing Unit :=
  modify fun c => { c with anchors := c.anchors.modify number fun a => (a.1, some node) }

def aliasNode (name : String) : Composing Node := do
  match (← get).anchors.findRev? (·.1 = name) with
  | none => failure
  | some (_, none) => return .loop name
  | some (_, some node) => return .alias name node

/-! Nodes. -/

mutual

/-- A node. Block collections may begin where `block` is true, and a block sequence may also stand
in the column of the key it belongs to where `indentless` is true. -/
def node : Nat → Bool → Bool → Composing Node
  | 0, _, _ => failure
  | n + 1, block, indentless => do
    match ← peek with
    | .alias name =>
      skip
      aliasNode name
    | _ =>
      match ← properties with
      | (none, none) => content n block indentless none
      | (none, some tag) => contentOrMissing n block indentless (some tag)
      | (some name, tag) =>
        let number ← openAnchor name
        let node ← contentOrMissing n block indentless tag
        closeAnchor number node
        return node

/-- What follows an anchor or a tag; it may be missing. -/
def contentOrMissing : Nat → Bool → Bool → Option String → Composing Node
  | 0, _, _, _ => failure
  | n + 1, block, indentless, tag => do
    let present := match ← peek with
      | .scalar _ _ | .flowSequenceStart | .flowMappingStart => true
      | .blockSequenceStart | .blockMappingStart => block
      | .blockEntry => indentless
      | _ => false
    if present then content n block indentless tag
    else return .scalar (.ofTag true tag) ""

def content : Nat → Bool → Bool → Option String → Composing Node
  | 0, _, _, _ => failure
  | n + 1, block, indentless, tag => do
    match ← peek with
    | .scalar plain text =>
      skip
      return .scalar (.ofTag plain tag) text
    | .flowSequenceStart =>
      skip
      return .sequence (← flowItems n true)
    | .flowMappingStart =>
      skip
      return .mapping (← flowEntries n true)
    | .blockSequenceStart =>
      if !block then failure
      skip
      return .sequence (← blockItems n)
    | .blockMappingStart =>
      if !block then failure
      skip
      return .mapping (← blockEntries n)
    | .blockEntry =>
      if !indentless then failure
      return .sequence (← indentlessItems n)
    | _ => failure

def blockItems : Nat → Composing (List Node)
  | 0 => failure
  | n + 1 => do
    if ← accept .blockEntry then
      let item ← nodeUnless [.blockEntry, .blockEnd] (node n true false)
      return item :: (← blockItems n)
    else if ← accept .blockEnd then return []
    else failure

/-- The items of a block sequence that stands in the column of its key. -/
def indentlessItems : Nat → Composing (List Node)
  | 0 => failure
  | n + 1 => do
    if ← accept .blockEntry then
      let item ← nodeUnless [.blockEntry, .key, .value, .blockEnd] (node n true false)
      return item :: (← indentlessItems n)
    else return []

def blockEntries : Nat → Composing (List (Node × Node))
  | 0 => failure
  | n + 1 => do
    if ← accept .key then
      let key ← nodeUnless [.key, .value, .blockEnd] (node n true true)
      let value ← if ← accept .value then
          nodeUnless [.key, .value, .blockEnd] (node n true true)
        else pure .missing
      return (key, value) :: (← blockEntries n)
    else if ← accept .blockEnd then return []
    else failure

/-- The items of a flow sequence up to its end; `first` tells whether none has been read. A pair
among them is a mapping of its own. -/
def flowItems : Nat → Bool → Composing (List Node)
  | 0, _ => failure
  | n + 1, first => do
    if ← accept .flowSequenceEnd then return []
    if !first then
      if !(← accept .flowEntry) then failure
      if ← accept .flowSequenceEnd then return []
    let item ← if ← accept .key then flowPair n else node n false false
    return item :: (← flowItems n false)

/-- A pair in a flow sequence. The token that tells that its key is missing is passed over. -/
def flowPair : Nat → Composing Node
  | 0 => failure
  | n + 1 => do
    let key ← if [.value, .flowEntry, .flowSequenceEnd].contains (← peek) then do
        skip
        pure .missing
      else node n false false
    let value ← if ← accept .value then
        nodeUnless [.flowEntry, .flowSequenceEnd] (node n false false)
      else pure .missing
    return .mapping [(key, value)]

/-- The entries of a flow mapping up to its end; `first` tells whether none has been read. A key
may stand alone. -/
def flowEntries : Nat → Bool → Composing (List (Node × Node))
  | 0, _ => failure
  | n + 1, first => do
    if ← accept .flowMappingEnd then return []
    if !first then
      if !(← accept .flowEntry) then failure
      if ← accept .flowMappingEnd then return []
    let entry ← if ← accept .key then do
        let key ← nodeUnless [.value, .flowEntry, .flowMappingEnd] (node n false false)
        let value ← if ← accept .value then
            nodeUnless [.flowEntry, .flowMappingEnd] (node n false false)
          else pure .missing
        pure (key, value)
      else do
        let key ← node n false false
        pure (key, .missing)
    return entry :: (← flowEntries n false)

end

/-! Documents. -/

/-- Reads the directives in front of a document: at most one version, which is 1.1, and handles,
each at most once. -/
def directives : Nat → Bool → Composing Unit
  | 0, _ => failure
  | n + 1, versioned => do
    match ← peek with
    | .versionDirective major minor =>
      if versioned || (major, minor) ≠ (1, 1) then failure
      skip
      directives n true
    | .tagDirective handle start =>
      if ((← get).handles.lookup handle).isSome then failure
      modify fun c => { c with handles := (handle, start) :: c.handles }
      skip
      directives n versioned
    | _ => return

def endsDocument : Token → Bool
  | .versionDirective _ _ | .tagDirective _ _ | .documentStart | .documentEnd | .streamEnd => true
  | _ => false

/-- The node of the first document, unless there is none. What follows the document is not looked
at, apart from its first token. -/
def document : Composing (Option Node) := do
  let bound := 4 * (← get).tokens.length + 8
  let first ← peek
  if first = .streamEnd then return none
  let root ← if endsDocument first && first ≠ .documentEnd then do
      directives bound false
      if !(← accept .documentStart) then failure
      if endsDocument (← peek) then pure .missing else node bound true false
    else node bound true false
  let _ ← peek
  return some root

end Composing

/-- The node of the first document that tokens describe: `none` if they describe none, and
`some none` if there is no document. -/
def Node.ofTokens? (tokens : List Token) : Option (Option Node) :=
  (Composing.document.run { tokens }).map (·.1)

end Yaml
end LogicScript
