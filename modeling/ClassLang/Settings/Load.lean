import ClassLang.Settings.Toml
import ClassLang.Settings.Yaml

/-!
Settings from files. The path of a file tells where it is, and its name the format.
-/

namespace ClassLang.Path

/-- The names of a path, without those that are empty or stand for the same
directory. -/
def names (path : String) : List String :=
  (path.splitOn "/").filter fun n => !n.isEmpty && n ≠ "."

/-- Where one part of a path leads to from a directory. Two dots lead up, but the
directory above all others is its own parent. -/
def step (dir : List String) (part : String) : List String :=
  if part.isEmpty || part = "." then dir
  else if part = ".." then dir.dropLast
  else dir ++ [part]

/-- The names from the top that lead to `path`, seen from the directory `dir`. -/
def resolve (dir : List String) (path : String) : List String :=
  (path.splitOn "/").foldl step (if path.startsWith "/" then [] else dir)

/-- The path from the top along names. -/
def text (names : List String) : String := "/" ++ "/".intercalate names

/-- The part of a path before its last name. -/
def directory (path : String) : String :=
  String.ofList (path.toList.reverse.dropWhile (· ≠ '/')).reverse

/-- The last name of a path from its last dot on, empty if it has no dot. -/
def extension (path : String) : String :=
  let name := (path.toList.reverse.takeWhile (· ≠ '/'))
  if name.contains '.' then "." ++ String.ofList (name.takeWhile (· ≠ '.')).reverse else ""

/-- The directories from `dir` to the top, each as its names. -/
def upwards (dir : List String) : List (List String) :=
  (List.range (dir.length + 1)).reverse.map dir.take

end ClassLang.Path

namespace ClassLang

/-- Why settings cannot be loaded. -/
inductive SettingsError where
  | unreadable (path why : String)
  | unknownFormat (path format : String)
  | malformed (path : String)
  /-- A header of the file leads through a setting of a given kind. -/
  | throughSetting (kind : SettingKind)
  /-- The file gives a date or time to the setting or group at a path. -/
  | moment (kind : Settings.Toml.MomentKind) (path : List String)
  /-- The file takes over keys next to a key that is no word. -/
  | incomparableKey
  | invalid (path : String) (fault : SettingsFault)
  deriving DecidableEq, Repr

namespace SettingsError

/-- The word for what the setting or group at a path takes. -/
def taken : List String → String
  | ["log"] => "config.LogConfig"
  | ["emit"] => "config.EmitConfig"
  | path => ((Settings.kind? path).map (·.word)).getD ""

/-- The wording of an error. -/
def message : SettingsError → String
  | .unreadable path why => s!"config: read {path}: {why}"
  | .unknownFormat path format => s!"config: {path}: unknown format {Text.quote format}"
  | .malformed path => s!"config: parse {path}: malformed"
  | .throughSetting kind => s!"unhandled part: {kind.word}"
  | .moment kind path =>
    s!"reflect.Set: value of type {kind.word} is not assignable to type {taken path}"
  | .incomparableKey => "a key cannot be compared"
  | .invalid path fault => s!"config: {path}: {fault.message}"

end SettingsError

namespace Settings

/-- The names that a settings file may have, in the order in which they are
looked for. -/
def fileNames : List String := ["kyac.toml", "kyac.yaml", "kyac.yml"]

/-- The files that may hold the settings for the directory `dir`, by their names from
the top: in the directory itself, and then in those above it. -/
def candidates (dir : List String) : List (List String) :=
  (Path.upwards dir).flatMap fun d => fileNames.map fun n => d ++ [n]

/-- The settings that a text in the format of a given file extension gives, over
those that hold without one. -/
def ofText (path format text : String) : Except SettingsError Settings :=
  match format with
  | ".toml" =>
    match Toml.load {} text with
    | .ok s => .ok s
    | .error .malformed => .error (.malformed path)
    | .error (.throughSetting kind) => .error (.throughSetting kind)
    | .error (.moment kind path) => .error (.moment kind path)
  | ".yaml" | ".yml" =>
    match Yaml.load {} text with
    | .ok s => .ok s
    | .error .malformed => .error (.malformed path)
    | .error .incomparableKey => .error .incomparableKey
  | _ => .error (.unknownFormat path format)

/-- The settings that a file gives, if they can be used. -/
def ofFile (path text : String) : Except SettingsError Settings := do
  let s ← ofText path (Text.lowercase (Path.extension path)) text
  match s.fault? with
  | some fault => throw (.invalid path fault)
  | none => return s

end Settings

end ClassLang
