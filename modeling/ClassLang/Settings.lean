import ClassLang.Text.Lowercase
import ClassLang.Text.Quoted

/-!
The settings of the compiler.
-/

namespace ClassLang

/-- How much is logged. -/
inductive LogLevel where
  | debug | info | warn | error | dpanic | panic | fatal
  deriving DecidableEq, Repr, Inhabited

namespace LogLevel

/-- Every level, the most talkative first. -/
def all : List LogLevel := [.debug, .info, .warn, .error, .dpanic, .panic, .fatal]

/-- The word for a level. -/
def text : LogLevel → String
  | .debug => "debug"
  | .info => "info"
  | .warn => "warn"
  | .error => "error"
  | .dpanic => "dpanic"
  | .panic => "panic"
  | .fatal => "fatal"

/-- The level that a word names in any case. The empty word names `info`. -/
def ofText? (s : String) : Option LogLevel :=
  if s.isEmpty then some .info else all.find? (·.text = Text.lowercase s)

end LogLevel

/-- The settings. Zero errors stand for no limit, and zero jobs for as many as the
machine can run at once. Texts are kept as bytes, since a file can give bytes that
are no text. -/
structure Settings where
  maxErrors : Int := 10
  jobs : Int := 0
  verify : Bool := true
  logLevel : List UInt8 := Utf8.encode "warn"
  layoutFormat : List UInt8 := Utf8.encode "text"
  deriving Repr, Inhabited

/-- Why settings cannot be used. -/
inductive SettingsFault where
  | negativeMaxErrors (n : Int)
  | negativeJobs (n : Int)
  | unknownLevel (text : List UInt8)
  | unknownLayoutFormat (text : List UInt8)
  deriving DecidableEq, Repr

namespace SettingsFault

/-- The wording of a fault. -/
def message : SettingsFault → String
  | .negativeMaxErrors n => s!"max_errors must not be negative (got {n})"
  | .negativeJobs n => s!"jobs must not be negative (got {n})"
  | .unknownLevel s => "log.level: unrecognized level: " ++ Text.quoteBytes s
  | .unknownLayoutFormat s =>
    "emit.layout_format must be \"text\" or \"yaml\" (got " ++ Text.quoteBytes s ++ ")"

end SettingsFault

namespace Settings

/-- The format of layouts that is not plain text. -/
def yamlFormat : String := "yaml"

/-- The formats that layouts can be listed in. -/
def layoutFormats : List String := ["text", yamlFormat]

/-- The level that the settings name. -/
def level? (s : Settings) : Option LogLevel := LogLevel.ofText? (Utf8.decode s.logLevel)

/-- The format of layouts that the settings name. -/
def format (s : Settings) : String := Utf8.decode s.layoutFormat

/-- The first fault of settings. -/
def fault? (s : Settings) : Option SettingsFault :=
  if s.maxErrors < 0 then some (.negativeMaxErrors s.maxErrors)
  else if s.jobs < 0 then some (.negativeJobs s.jobs)
  else if s.level?.isNone then some (.unknownLevel s.logLevel)
  else if !layoutFormats.contains s.format then some (.unknownLayoutFormat s.layoutFormat)
  else none

/-- The limit on the number of errors, if there is one. -/
def errorLimit (s : Settings) : Option Nat :=
  if s.maxErrors = 0 then none else some s.maxErrors.toNat

end Settings

/-! Files -/

/-- A value in a settings file as what it can be taken for. -/
structure Scalar where
  asText : Option (List UInt8) := none
  asInt : Option Int := none
  asBool : Option Bool := none
  deriving Repr, Inhabited

/-- What a name stands for: a group of settings, or a setting with the kind of
values that it takes. -/
inductive SettingKind where
  | group
  | int
  | bool
  | text
  deriving DecidableEq, Repr

namespace SettingKind

/-- The word for a kind. -/
def word : SettingKind → String
  | .group => "struct"
  | .int => "int"
  | .bool => "bool"
  | .text => "string"

end SettingKind

namespace Settings

/-- What the name at the end of a path stands for. The empty path leads to the
group of all settings. -/
def kind? : List String → Option SettingKind
  | [] | ["log"] | ["emit"] => some .group
  | ["max_errors"] | ["jobs"] => some .int
  | ["verify_ir"] => some .bool
  | ["log", "level"] | ["emit", "layout_format"] => some .text
  | _ => none

/-- The settings after one has been given a value, unless there is no such setting
or the value does not fit. -/
def assign (s : Settings) : List String → Scalar → Option Settings
  | ["max_errors"], v => v.asInt.map fun n => { s with maxErrors := n }
  | ["jobs"], v => v.asInt.map fun n => { s with jobs := n }
  | ["verify_ir"], v => v.asBool.map fun b => { s with verify := b }
  | ["log", "level"], v => v.asText.map fun t => { s with logLevel := t }
  | ["emit", "layout_format"], v => v.asText.map fun t => { s with layoutFormat := t }
  | _, _ => none

end Settings

end ClassLang
