import ClassLang.Settings.Yaml.Token

/-!
The nodes of a YAML document: texts, lists and mappings, each with a tag or without
one, and aliases of nodes that have a name. Only the first document of a text is
read, and nothing behind its root is looked at.
-/

namespace ClassLang.Settings.Yaml

/-- A node. A scalar is plain if it is not in quotes, and an alias that stands in
the very node that it names has no target. -/
inductive Node where
  | scalar (text : String) (plain : Bool) (tag : Option String)
  | list (items : List Node)
  | map (pairs : List (Node × Node))
  | alias (name : String) (target : Option Node)

/-- The node where nothing is written. -/
def Node.empty : Node := .scalar "" true none

/-! Reading tokens -/

/-- What has been scanned, the texts that the handles of tags stand for, and the
nodes with a name, each with a mark of its own and without the node while it is
being read. -/
structure Reader where
  scanner : Scanner
  prefixes : List (String × String) := []
  named : List (String × Nat × Option Node) := []

/-- A part of a document. -/
abbrev Read := StateT Reader Option

namespace Read

/-- The next token. -/
def peek : Read Token := do
  let r ← get
  let (t, scanner) ← r.scanner.peek?
  set { r with scanner }
  return t

/-- Passes over the next token. -/
def skip : Read Unit := modify fun r => { r with scanner.read := r.scanner.read + 1 }

/-- The text that every handle stands for unless a directive says otherwise. -/
def defaultPrefixes : List (String × String) := [("!", "!"), ("!!", "tag:yaml.org,2002:")]

/-- The tag with a handle. The single exclamation mark says nothing. -/
def tagText (handle suffix : String) : Read (Option String) := do
  let text ←
    if handle.isEmpty then pure suffix
    else do return (← List.lookup handle ((← get).prefixes ++ defaultPrefixes)) ++ suffix
  return if text = "!" then none else some text

/-- The name and the tag in front of a node, in either order, and whether there is
one of them. -/
def properties : Read (Option String × Option String × Bool) := do
  match ← peek with
  | .anchor name =>
    skip
    match ← peek with
    | .tag handle suffix =>
      skip
      return (some name, ← tagText handle suffix, true)
    | _ => return (some name, none, true)
  | .tag handle suffix =>
    skip
    let tag ← tagText handle suffix
    match ← peek with
    | .anchor name =>
      skip
      return (some name, tag, true)
    | _ => return (none, tag, true)
  | _ => return (none, none, false)

/-- The alias of a node with a name. -/
def aliasOf (name : String) : Read Node := do
  match List.lookup name (← get).named with
  | some (_, target) => return .alias name target
  | none => failure

/-- Reads a node that may have a name. -/
def withName (name : Option String) (node : Read Node) : Read Node := do
  match name with
  | none => node
  | some name =>
    let r ← get
    let mark := r.scanner.read
    set { r with named := (name, mark, none) :: r.named }
    let n ← node
    modify fun r => { r with
      named := r.named.map fun e => if e.2.1 = mark then (e.1, mark, some n) else e }
    return n

/-- Whether a token ends a key or value in a block. -/
def endsPair (t : Token) : Bool := t = .key || t = .value || t = .blockEnd

/-- Whether a token ends a key or value in brackets or braces. -/
def endsFlow (close t : Token) : Bool := t = .flowEntry || t = close

/-- The token behind the comma that separates an item from the one before it, or
the token that closes the brackets or braces. -/
def separator (close : Token) (first : Bool) : Read Token := do
  let t ← peek
  if t = close || first then return t
  else if t = .flowEntry then
    skip
    peek
  else failure

mutual

/-- A node. Those in block style stand only in blocks, and a list at the column of
its key only as a part of a mapping. The fuel bounds the tokens. -/
def node : Nat → (inBlock inMap : Bool) → Read Node
  | 0, _, _ => failure
  | fuel + 1, inBlock, inMap => do
    match ← peek with
    | .alias name =>
      skip
      aliasOf name
    | _ =>
      let (name, tag, given) ← properties
      withName name (content fuel inBlock inMap tag given)

/-- The content of a node. With a name or tag there may be none. -/
def content : Nat → (inBlock inMap : Bool) → Option String → Bool → Read Node
  | 0, _, _, _, _ => failure
  | fuel + 1, inBlock, inMap, tag, given => do
    match ← peek with
    | .scalar text plain =>
      skip
      return .scalar text plain tag
    | .flowListStart =>
      skip
      return .list (← flowItems fuel true)
    | .flowMapStart =>
      skip
      return .map (← flowPairs fuel true)
    | t =>
      if t = .blockEntry && inMap then return .list (← entries fuel false)
      else if t = .blockListStart && inBlock then
        skip
        return .list (← entries fuel true)
      else if t = .blockMapStart && inBlock then
        skip
        return .map (← pairs fuel)
      else if given then return .scalar "" true tag
      else failure

/-- The entries of a list in block style. One with a block of its own has an end. -/
def entries : Nat → (closed : Bool) → Read (List Node)
  | 0, _ => failure
  | fuel + 1, closed => do
    match ← peek with
    | .blockEntry =>
      skip
      let t ← peek
      let bare := t = .blockEntry || t = .blockEnd || (!closed && endsPair t)
      let n ← if bare then pure .empty else node fuel true false
      return n :: (← entries fuel closed)
    | t =>
      if !closed then return []
      else if t = .blockEnd then
        skip
        return []
      else failure

/-- The keys and values of a mapping in block style. -/
def pairs : Nat → Read (List (Node × Node))
  | 0 => failure
  | fuel + 1 => do
    match ← peek with
    | .key =>
      skip
      let k ← if endsPair (← peek) then pure .empty else node fuel true true
      let v ← blockValue fuel
      return (k, v) :: (← pairs fuel)
    | .blockEnd =>
      skip
      return []
    | _ => failure

/-- The value behind a key in block style. -/
def blockValue : Nat → Read Node
  | 0 => failure
  | fuel + 1 => do
    if (← peek) = .value then
      skip
      if endsPair (← peek) then return .empty else node fuel true true
    else return .empty

/-- The items of a list in brackets. An item may be a key with its value; a token
in the place of that key is passed over. -/
def flowItems : Nat → (first : Bool) → Read (List Node)
  | 0, _ => failure
  | fuel + 1, first => do
    let t ← separator .flowListEnd first
    if t = .flowListEnd then
      skip
      return []
    else if t = .key then
      skip
      let t ← peek
      let k ←
        if t = .value || endsFlow .flowListEnd t then
          skip
          pure .empty
        else node fuel false false
      let v ← flowValue fuel .flowListEnd
      return .map [(k, v)] :: (← flowItems fuel false)
    else
      let n ← node fuel false false
      return n :: (← flowItems fuel false)

/-- The keys and values of a mapping in braces. A key may stand alone. -/
def flowPairs : Nat → (first : Bool) → Read (List (Node × Node))
  | 0, _ => failure
  | fuel + 1, first => do
    let t ← separator .flowMapEnd first
    if t = .flowMapEnd then
      skip
      return []
    else if t = .key then
      skip
      let t ← peek
      let k ←
        if t = .value || endsFlow .flowMapEnd t then pure .empty else node fuel false false
      let v ← flowValue fuel .flowMapEnd
      return (k, v) :: (← flowPairs fuel false)
    else
      let k ← node fuel false false
      return (k, .empty) :: (← flowPairs fuel false)

/-- The value behind a key in brackets or braces. -/
def flowValue : Nat → (close : Token) → Read Node
  | 0, _ => failure
  | fuel + 1, close => do
    if (← peek) = .value then
      skip
      if endsFlow close (← peek) then return .empty else node fuel false false
    else return .empty

end

/-! Documents -/

/-- Reads the directives in front of a document: at most one version, and each
handle once. -/
def directives : Nat → (versioned : Bool) → Read Unit
  | 0, _ => failure
  | fuel + 1, versioned => do
    match ← peek with
    | .version major minor =>
      if versioned || major ≠ 1 || minor ≠ 1 then failure
      else
        skip
        directives fuel true
    | .tagPrefix handle text =>
      let r ← get
      if (List.lookup handle r.prefixes).isSome then failure
      else
        set { r with prefixes := (handle, text) :: r.prefixes }
        skip
        directives fuel versioned
    | _ => return ()

/-- Whether a token says something about documents rather than in one. -/
def isOutside : Token → Bool
  | .version _ _ | .tagPrefix _ _ | .documentStart | .documentEnd | .streamEnd => true
  | _ => false

/-- The root of the first document, unless the text is empty. -/
def document (fuel : Nat) : Read (Option Node) := do
  match ← peek with
  | .streamEnd => return none
  | .version _ _ | .tagPrefix _ _ | .documentStart =>
    directives fuel false
    if (← peek) ≠ .documentStart then failure
    skip
    let n ← if isOutside (← peek) then pure .empty else node fuel true false
    let _ ← peek
    return some n
  | _ =>
    let n ← node fuel true false
    let _ ← peek
    return some n

end Read

/-- The root of the first document of a text, unless the text is empty. -/
def root? (text : String) : Option (Option Node) := do
  let cursor ← Cursor.start? text
  return (← (Read.document (16 * (text.length + 4))).run { scanner := { cursor } }).1

end ClassLang.Settings.Yaml
