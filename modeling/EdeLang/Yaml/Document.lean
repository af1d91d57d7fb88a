import EdeLang.Yaml.Token

/-!
# Documents

The node of a document from its tokens. An alias stands for the node with its anchor.
-/

namespace EdeLang.Yaml

/-- What is left to read, and the names that were given. -/
structure Reading where
  tokens : List Token
  /-- Anchored nodes, latest first. A node that is still being read has no value yet. -/
  anchors : List (String × Option Yaml)
  /-- Handles of tags, with what they stand for. -/
  handles : List (String × String)

abbrev Reader := StateT Reading Option

namespace Reader

/-- The next token. -/
def next? : Reader (Option Token) := return (← get).tokens.head?

def advance : Reader Unit := modify fun r => { r with tokens := r.tokens.drop 1 }

/-- Reads the token if it is next. -/
def take (t : Token) : Reader Bool := do
  if (← next?) == some t then
    advance
    return true
  else return false

/-- Reads the token, which has to be next. -/
def expect (t : Token) : Reader Unit := do
  if !(← take t) then failure

/-- The next token is one of those given. -/
def isNext (ts : List Token) : Reader Bool := do
  match ← next? with
  | some t => return ts.contains t
  | none => return false

/-- The tag that a handle and what follows it spell. -/
def tagName (handle suffix : String) : Reader String := do
  if handle = "" then return suffix
  else
    match (← get).handles.lookup handle with
    | some uri => return uri ++ suffix
    | none => failure

/-- Reads an anchor if it is next. -/
def anchor : Reader (Option String) := do
  match ← next? with
  | some (.anchor name) =>
    advance
    return some name
  | _ => return none

/-- Reads a tag if it is next. -/
def tag : Reader (Option String) := do
  match ← next? with
  | some (.tag handle suffix) =>
    advance
    return some (← tagName handle suffix)
  | _ => return none

/-- Reads the anchor and the tag of a node, in either order. -/
def properties : Reader (Option String × Option String) := do
  match ← anchor with
  | some name => return (some name, ← tag)
  | none =>
    match ← tag with
    | some t => return (← anchor, some t)
    | none => return (none, none)

/-- Gives a node or, before it is read, its place a name. -/
def name (anchor : Option String) (node : Option Yaml) : Reader Unit :=
  match anchor with
  | some name => modify fun r => { r with anchors := (name, node) :: r.anchors }
  | none => return ()

/-- The node with an anchor. -/
def named (name : String) : Reader Yaml := do
  match (← get).anchors.lookup name with
  | some node => return node.getD .cycle
  | none => failure

mutual

/-- Reads a node. In a block it may be a block collection, and under a key a list may stand
without more indentation. -/
def node : Nat → Bool → Bool → Reader Yaml
  | 0, _, _ => failure
  | fuel + 1, block, underKey => do
    match ← next? with
    | some (.alias name) =>
      advance
      named name
    | _ =>
      let (anchor, tag) ← properties
      name anchor none
      let y ← content fuel block underKey anchor.isSome tag
      name anchor (some y)
      return y

/-- Reads a node after its properties. It may be empty if it has some. -/
def content : Nat → Bool → Bool → Bool → Option String → Reader Yaml
  | 0, _, _, _, _ => failure
  | fuel + 1, block, underKey, anchored, tag => do
    match ← next? with
    | some (.scalar style text) =>
      advance
      return .scalar style tag text
    | some .flowListStart =>
      advance
      return .list (← flowItems fuel true)
    | some .flowMapStart =>
      advance
      return .map (← flowEntries fuel true)
    | t =>
      if underKey && t == some .item then return .list (← items fuel)
      else if block && t == some .blockListStart then
        advance
        let items ← items fuel
        expect .blockEnd
        return .list items
      else if block && t == some .blockMapStart then
        advance
        return .map (← entries fuel)
      else if anchored || tag.isSome then return .scalar .plain tag ""
      else failure

/-- Reads items of a block list. -/
def items : Nat → Reader (List Yaml)
  | 0 => failure
  | fuel + 1 => do
    if ← take .item then
      let item ←
        if ← isNext [.item, .key, .value, .blockEnd] then pure empty else node fuel true false
      return item :: (← items fuel)
    else return []

/-- Reads entries of a block map up to its end. -/
def entries : Nat → Reader (List (Yaml × Yaml))
  | 0 => failure
  | fuel + 1 => do
    if ← take .blockEnd then return []
    else
      expect .key
      let key ← part fuel true [.key, .value, .blockEnd]
      let v ← if ← take .value then part fuel true [.key, .value, .blockEnd] else pure empty
      return (key, v) :: (← entries fuel)

/-- Reads a key or a value, which is empty before one of the given tokens. -/
def part : Nat → Bool → List Token → Reader Yaml
  | 0, _, _ => failure
  | fuel + 1, block, ends => do
    if ← isNext ends then return empty else node fuel block block

/-- Reads items of a flow list up to its end. Commas divide them, and one may stand last. -/
def flowItems : Nat → Bool → Reader (List Yaml)
  | 0, _ => failure
  | fuel + 1, first => do
    if ← take .flowListEnd then return []
    else
      if !first then expect .comma
      if !first && (← isNext [.flowListEnd]) then
        advance
        return []
      else
        let item ← if ← take .key then flowPair fuel else node fuel false false
        return item :: (← flowItems fuel false)

/-- Reads a flow map of one entry without braces. -/
def flowPair : Nat → Reader Yaml
  | 0 => failure
  | fuel + 1 => do
    let key ← node fuel false false
    let v ← if ← take .value then part fuel false [.comma, .flowListEnd] else pure empty
    return .map [(key, v)]

/-- Reads entries of a flow map up to its end. Commas divide them, and one may stand last. -/
def flowEntries : Nat → Bool → Reader (List (Yaml × Yaml))
  | 0, _ => failure
  | fuel + 1, first => do
    if ← take .flowMapEnd then return []
    else
      if !first then expect .comma
      if !first && (← isNext [.flowMapEnd]) then
        advance
        return []
      else
        let marked ← take .key
        let key ←
          if marked then part fuel false [.value, .comma, .flowMapEnd] else node fuel false false
        let v ←
          if marked then
            if ← take .value then part fuel false [.comma, .flowMapEnd] else pure empty
          else pure empty
        return (key, v) :: (← flowEntries fuel false)

end

/-- Reads directives: at most one version, of a kind that is known, and handles, each once. The
result says whether there were any. -/
def directives (versionSeen any : Bool) (own : List (String × String)) :
    List Token → Reader Bool
  | .version major minor :: ts =>
    if versionSeen || major != 1 || (minor != 1 && minor != 2) then failure
    else do
      advance
      directives true true own ts
  | .tagHandle handle uri :: ts =>
    if (own.lookup handle).isSome then failure
    else do
      advance
      modify fun r => { r with handles := (handle, uri) :: r.handles }
      directives versionSeen true ((handle, uri) :: own) ts
  | _ => return any

/-- The node of a document is missing: the document, or the text, ends. -/
def atEnd : Reader Bool := do
  match ← next? with
  | none | some .documentStart | some .documentEnd => return true
  | some (.version _ _) | some (.tagHandle _ _) => return true
  | _ => return false

/-- Reads one document and the marks of its end. -/
def document (fuel : Nat) : Reader Yaml := do
  if (← get).tokens.isEmpty then return empty
  else
    let directed ← directives false false [] (← get).tokens
    let marked ← take .documentStart
    if directed && !marked then failure
    else
      let y ← if marked && (← atEnd) then pure empty else node fuel true false
      modify fun r => { r with tokens := r.tokens.dropWhile (· == .documentEnd) }
      return y

end Reader

/-- The handles that need no directive. -/
def standardHandles : List (String × String) :=
  [("!", "!"), ("!!", "tag:yaml.org,2002:")]

/-- The node of a text that holds one document, or none at all. -/
def ofText? (text : String) : Option Yaml := do
  let tokens ← tokens? text
  let (y, r) ← (Reader.document (4 * tokens.length + 4)).run ⟨tokens, [], standardHandles⟩
  if r.tokens.isEmpty then some y else none

end EdeLang.Yaml
