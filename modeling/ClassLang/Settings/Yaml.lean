import ClassLang.Settings.Yaml.Node
import ClassLang.Settings.Yaml.Scalar

/-!
Settings files in YAML: a mapping whose values are scalars or mappings of scalars.
Where nothing is written a setting stays as it is. A mapping may take over the keys
of others that it does not give itself.
-/

namespace ClassLang.Settings.Yaml

namespace Node

/-- The node that a node stands for. -/
def target? : Node → Option Node
  | .alias _ target => target
  | n => some n

/-- The keys and values of the mapping that a node stands for. -/
def pairs? (n : Node) : Option (List (Node × Node)) :=
  match n.target? with
  | some (.map pairs) => some pairs
  | _ => none

/-- Whether two keys are written alike. -/
def alike : Node → Node → Bool
  | .scalar s _ _, .scalar t _ _ | .alias s _, .alias t _ => s = t
  | .list _, .list _ | .map _, .map _ => true
  | _, _ => false

/-- Whether a key takes over the keys of other mappings. -/
def isMerge : Node → Bool
  | .scalar "<<" plain none => plain
  | .scalar "<<" _ (some tag) => shortTag tag = "!!merge"
  | _ => false

/-- The mappings that are taken over for the value of such a key: one mapping, or
those of a list. -/
def takenOver : Node → List Node
  | .list items => items
  | n => [n]

end Node

/-- Whether no two keys are written alike. -/
def distinct : List (Node × Node) → Bool
  | [] => true
  | (k, _) :: rest => !(rest.any fun (l, _) => k.alike l) && distinct rest

/-- Why settings cannot be loaded. A mapping that takes over keys of others cannot
have a list or a mapping as a key, since its keys have to be compared. -/
inductive Fault where
  | malformed
  | incomparableKey
  deriving DecidableEq, Repr

/-! Keys of mappings that take over others -/

/-- What a node is where any node may stand. A mapping that gives a key twice is
nothing. -/
inductive Shape where
  | word
  | collection
  | nothing
  deriving DecidableEq, Repr

mutual

/-- What a node is where any node may stand. `compared` tells whether its keys are
compared with those of the mapping that takes over others. The fuel bounds how deep
nodes stand in each other. -/
def shape : Nat → (compared : Bool) → Node → Except Fault Shape
  | 0, _, _ => throw .malformed
  | fuel + 1, compared, n => do
    match n.target? with
    | some (.scalar text plain tag) =>
      if (scalar? text plain tag).isNone then throw .malformed else return .word
    | some (.list items) =>
      items.forM fun n => discard (shape fuel compared n)
      return .collection
    | some (.map pairs) =>
      if !distinct pairs then return .nothing
      else
        shapePairs fuel compared pairs
        return .collection
    | _ => throw .malformed

/-- Looks at the keys and values of a mapping where any node may stand. -/
def shapePairs : Nat → (compared : Bool) → List (Node × Node) → Except Fault Unit
  | 0, _, _ => throw .malformed
  | fuel + 1, compared, pairs => do
    pairs.forM fun (k, v) => do
      if !k.isMerge then
        match ← shape fuel false k with
        | .word => discard (shape fuel false v)
        | .collection => throw (if compared then .incomparableKey else .malformed)
        | .nothing => return ()
    match pairs.find? (·.1.isMerge) with
    | none => return ()
    | some (_, others) =>
      others.takenOver.forM fun n =>
        match n.pairs? with
        | some pairs => if distinct pairs then shapePairs fuel true pairs else return ()
        | none => throw .malformed

end

/-! Reading -/

/-- The settings so far, and whether all that has been read fits them. -/
structure Progress where
  settings : Settings
  fits : Bool := true

/-- Notes that something does not fit. -/
def Progress.reject (p : Progress) : Progress := { p with fits := false }

mutual

/-- What is known after the node at a path has been read. The fuel bounds how deep
nodes stand in each other. -/
def assign : Nat → Progress → List String → Node → Except Fault Progress
  | 0, _, _, _ => throw .malformed
  | fuel + 1, p, path, n => do
    match n.target? with
    | some (.scalar text plain tag) =>
      match scalar? text plain tag with
      | none => throw .malformed
      | some none => return p
      | some (some v) =>
        match p.settings.assign path v with
        | some settings => return { p with settings }
        | none => return p.reject
    | some (.map pairs) =>
      if Settings.kind? path ≠ some .group then return p.reject
      else return (← fill fuel path false pairs (p, [])).1
    | some _ => return p.reject
    | none => if Settings.kind? path = some .group then throw .malformed else return p.reject

/-- What is known after a mapping at a path has been read, and the keys that are
taken. A key that is taken is passed over in a mapping that is taken over, and may
not be given again in any other. -/
def fill : Nat → List String → (isTakenOver : Bool) → List (Node × Node) →
    Progress × List String → Except Fault (Progress × List String)
  | 0, _, _, _, _ => throw .malformed
  | fuel + 1, path, isTakenOver, pairs, start => do
    if !distinct pairs then return (start.1.reject, start.2)
    else
      let own ← pairs.foldlM (fun state pair =>
        if pair.1.isMerge then pure state else fillOne fuel path isTakenOver pair state) start
      match pairs.find? (·.1.isMerge) with
      | none => return own
      | some (_, others) =>
        if !isTakenOver then
          pairs.forM fun (k, _) => do
            if (← shape fuel true k) = .collection then throw .incomparableKey
        takeOver fuel path others own

/-- What is known after one key of a mapping and its value have been read. -/
def fillOne : Nat → List String → (isTakenOver : Bool) → Node × Node →
    Progress × List String → Except Fault (Progress × List String)
  | 0, _, _, _, _ => throw .malformed
  | fuel + 1, path, isTakenOver, (k, v), (p, taken) => do
    match k.target? with
    | some (.scalar text plain tag) =>
      match scalar? text plain tag with
      | none => throw .malformed
      | some key =>
        match key.bind (·.asText) with
        | none => return (p, taken)
        | some bytes =>
          let name := Utf8.decode bytes
          let full := path ++ [name]
          if taken.contains name then return (if isTakenOver then p else p.reject, taken)
          else if (Settings.kind? full).isNone then return (p.reject, name :: taken)
          else return (← assign fuel p full v, name :: taken)
    | _ => return (p.reject, taken)

/-- What is known after the mappings have been read whose keys are taken over. -/
def takeOver : Nat → List String → Node → Progress × List String →
    Except Fault (Progress × List String)
  | 0, _, _, _ => throw .malformed
  | fuel + 1, path, others, start => do
    others.takenOver.foldlM (fun state n =>
      match n.pairs? with
      | some pairs => fill fuel path true pairs state
      | none => throw .malformed) start

end

/-- The settings after those of a file. -/
def load (settings : Settings) (text : String) : Except Fault Settings := do
  match root? text with
  | none => throw .malformed
  | some none => return settings
  | some (some n) =>
    let p ← assign (6 * text.length + 6) { settings } [] n
    if p.fits then return p.settings else throw .malformed

end ClassLang.Settings.Yaml
