import ClassLang.Settings.Toml.Expression

/-!
Settings files in TOML. Keys are found in any case, but the same key may not be
given twice. A header may also name a setting as long as no key follows, but it
may not lead through a setting.
-/

namespace ClassLang.Settings.Toml

/-! Keys that have been given -/

/-- How a path was given. A group that a header names is closed at once, one that
a key leads through when the next header follows; no key may lead through a
closed group, and no header may name one. -/
structure Mark where
  isGroup : Bool
  closed : Bool := false
  byKey : Bool := false

/-- The paths that have been given. -/
abbrev Given := List (List String × Mark)

namespace Given

/-- The beginnings of a path but the path itself, the shortest first. -/
def steps (path : List String) : List (List String) :=
  (List.range (path.length - 1)).map fun n => path.take (n + 1)

/-- Gives a path a mark. -/
def set (g : Given) (path : List String) (m : Mark) : Given :=
  (path, m) :: g.filter (·.1 ≠ path)

/-- Closes the groups below `current` that keys led through. -/
def close (g : Given) (current : List String) : Given :=
  g.map fun (path, m) =>
    if m.byKey && current.isPrefixOf path && path ≠ current then
      (path, { m with closed := true, byKey := false })
    else (path, m)

/-- The paths given after a header, unless it may not stand there. -/
def header? (g : Given) (current path : List String) : Option Given := do
  let g ← (steps path).foldlM (fun g step =>
    match List.lookup step g with
    | none => some (set g step { isGroup := true })
    | some m => if m.isGroup then some g else none) (close g current)
  match List.lookup path g with
  | none => return set g path { isGroup := true, closed := true }
  | some m => if m.isGroup && !m.closed then some (set g path { m with closed := true }) else none

/-- The paths given after a key in the group `current`, unless it may not stand
there. -/
def key? (g : Given) (current key : List String) : Option Given := do
  let g ← (steps key).foldlM (fun g step =>
    match List.lookup (current ++ step) g with
    | none => some (set g (current ++ step) { isGroup := true, byKey := true })
    | some m => if m.isGroup && !m.closed then some g else none) g
  match List.lookup (current ++ key) g with
  | none => return set g (current ++ key) { isGroup := false, byKey := true }
  | some _ => none

end Given

mutual

/-- Whether no key is given twice in a value. -/
def Value.isDistinct : Value → Bool
  | .list items => distinctItems items
  | .group pairs => distinctPairs [] pairs
  | _ => true

/-- Whether no key is given twice in the values of a list. -/
def distinctItems : List Value → Bool
  | [] => true
  | v :: rest => v.isDistinct && distinctItems rest

/-- Whether no key is given twice in a group, and none in the values of it. -/
def distinctPairs (g : Given) : List (List String × Value) → Bool
  | [] => true
  | (key, v) :: rest =>
    match g.key? [] key with
    | some g => v.isDistinct && distinctPairs g rest
    | none => false

end

/-! Documents -/

/-- Why settings cannot be read. A header may not lead through a setting, and no
setting or group takes a date or time. -/
inductive Fault where
  | malformed
  | throughSetting (kind : SettingKind)
  | moment (kind : MomentKind) (path : List String)
  deriving DecidableEq, Repr

/-- What has been read: the settings, the group that keys belong to as it was
written, whether it is one of settings, and whether there was a key or group that
does not exist. -/
structure State where
  settings : Settings
  group : List String := []
  known : Bool := true
  strange : Bool := false
  given : Given := []

/-- A path as settings are named. -/
def named (path : List String) : List String := path.map Text.lowercase

/-- The kind of the first setting that a path below the group `group` leads
through. -/
def through? (group path : List String) : Option SettingKind :=
  (Given.steps path).findSome? fun step =>
    (Settings.kind? (group ++ step)).filter (· ≠ .group)

/-- The settings after the key `path` has been given a scalar that fits. -/
def assignScalar (s : Settings) (path : List String) (v : Scalar) :
    Except Fault (Settings × Bool) :=
  match s.assign path v with
  | some s => .ok (s, false)
  | none => .error .malformed

mutual

/-- The settings after the key `path` has been given a value, and whether a key
did not exist. -/
def assign (s : Settings) (path : List String) : Value → Except Fault (Settings × Bool)
  | .text t => assignScalar s path { asText := some (Utf8.encode t) }
  | .truth b => assignScalar s path { asBool := some b }
  | .integer word => assignScalar s path { asInt := int? word }
  | .float | .list _ => .error .malformed
  | .moment kind word => .error (if kind.holds word then .moment kind path else .malformed)
  | .group pairs =>
    if Settings.kind? path = some .group then assignPairs s path pairs else .error .malformed

/-- The settings after the keys of a group have been given values. -/
def assignPairs (s : Settings) (path : List String) :
    List (List String × Value) → Except Fault (Settings × Bool)
  | [] => .ok (s, false)
  | (key, v) :: rest => do
    let full := path ++ named key
    let (s, strange) ←
      match Settings.kind? full with
      | some _ => assign s full v
      | none => if (through? path (named key)).isSome then .error .malformed else .ok (s, true)
    let (s, others) ← assignPairs s path rest
    return (s, strange || others)

end

/-- Reads a header. -/
def readHeader (s : State) (path : List String) (ofList : Bool) : Except Fault State := do
  match s.given.header? s.group path with
  | none => throw .malformed
  | some given =>
    let name := named path
    match through? [] name with
    | some kind => throw (.throughSetting kind)
    | none =>
      let known := (Settings.kind? name).isSome
      if ofList && known then throw .malformed
      return { s with given, group := path, known, strange := s.strange || !known }

/-- Reads a key with its value. -/
def readPair (s : State) (key : List String) (v : Value) : Except Fault State := do
  if !s.known then return s
  match s.given.key? s.group key with
  | none => throw .malformed
  | some given =>
    if !v.isDistinct || Settings.kind? (named s.group) ≠ some .group then throw .malformed
    let (settings, strange) ← assignPairs s.settings (named s.group) [(key, v)]
    return { s with settings, given, strange := s.strange || strange }

/-- Reads one expression. -/
def readExpression (s : State) : Expression → Except Fault State
  | .blank => .ok s
  | .header path ofList => readHeader s path ofList
  | .pair key v => readPair s key v

/-- Reads expressions, each on lines of its own. The fuel bounds the lines. -/
def read : Nat → State → List Char → Except Fault State
  | 0, _, _ => .error .malformed
  | fuel + 1, s, cs =>
    match expression? cs with
    | none => .error .malformed
    | some (e, rest) => do
      let s ← readExpression s e
      match rest, newline? rest with
      | [], _ => return s
      | _, some rest => read fuel s rest
      | _, none => throw .malformed

/-- The settings after those of a file. -/
def load (settings : Settings) (text : String) : Except Fault Settings := do
  let s ← read (text.length + 1) { settings } text.toList
  if s.strange then throw .malformed
  return s.settings

end ClassLang.Settings.Toml
