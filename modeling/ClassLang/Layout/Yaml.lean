import ClassLang.Layout

/-!
Layouts as a document of texts, numbers, lists and records, written as YAML in block
style. Fields that would be empty are left out.
-/

namespace ClassLang

/-! Documents -/

/-- A document. -/
inductive Yaml where
  | text (s : String)
  | number (n : Int)
  | list (items : List Yaml)
  | record (fields : List (String × Yaml))

namespace Yaml

/-- The words that a reader may take for something other than a text. -/
def reserved : List String :=
  ["y", "Y", "n", "N", "yes", "Yes", "YES", "no", "No", "NO", "on", "On", "ON", "off", "Off",
   "OFF", "true", "True", "TRUE", "false", "False", "FALSE", "null", "Null", "NULL"]

/-- A text, in quotes if it is empty or reserved. -/
def scalar (s : String) : String :=
  if s.isEmpty || reserved.contains s then "\"" ++ s ++ "\"" else s

/-- The blanks at the start of a line. -/
def indentation (depth : Nat) : String := String.join (List.replicate depth "  ")

mutual

/-- What stands behind a key or a dash at `depth`, with the end of the line. -/
def value (depth : Nat) : Yaml → String
  | .text s => " " ++ scalar s ++ "\n"
  | .number n => " " ++ toString n ++ "\n"
  | .list [] => " []\n"
  | .list (x :: rest) => "\n" ++ items (depth + 1) (x :: rest)
  | .record fields => "\n" ++ entries (depth + 1) fields

/-- The items of a list, each behind a dash. -/
def items (depth : Nat) : List Yaml → String
  | [] => ""
  | .record ((key, v) :: fields) :: rest =>
    indentation depth ++ "- " ++ key ++ ":" ++ value (depth + 1) v
      ++ entries (depth + 1) fields ++ items depth rest
  | x :: rest => indentation depth ++ "-" ++ value depth x ++ items depth rest

/-- The fields of a record, each on lines of its own. -/
def entries (depth : Nat) : List (String × Yaml) → String
  | [] => ""
  | (key, v) :: rest => indentation depth ++ key ++ ":" ++ value depth v ++ entries depth rest

end

/-- A record as a whole document. -/
def document (fields : List (String × Yaml)) : String := entries 0 fields

end Yaml

/-! Layouts -/

/-- A field of a record, left out if there is nothing to say. -/
def Yaml.optional (key : String) : Option String → List (String × Yaml)
  | some s => [(key, .text s)]
  | none => []

/-- A list in a record, left out if it is empty. -/
def Yaml.unlessEmpty (key : String) : List Yaml → List (String × Yaml)
  | [] => []
  | items => [(key, .list items)]

namespace FieldSlot

/-- A field as a document. -/
def yaml (s : FieldSlot) : Yaml :=
  .record [("name", .text s.field.name), ("type", .text s.field.ty.text),
    ("offset", .number s.offset)]

end FieldSlot

namespace DispatchEntry

/-- An entry of a dispatch table as a document. -/
def yaml (e : DispatchEntry) : Yaml :=
  .record ([("slot", .number e.slot), ("name", .text e.name)]
    ++ Yaml.optional "impl" (e.impl.map (·.fullName)))

end DispatchEntry

namespace ClassLayout

/-- A layout as a document. -/
def yaml (l : ClassLayout) : Yaml :=
  .record ([("name", .text l.name)]
    ++ Yaml.optional "parent" l.parent
    ++ [("size", .number l.size), ("descriptor", .text l.descriptor)]
    ++ Yaml.unlessEmpty "fields" (l.fields.map (·.yaml))
    ++ Yaml.unlessEmpty "dispatch" (l.dispatch.map (·.yaml)))

end ClassLayout

namespace Layouts

/-- All layouts as a document, with the method names by slot. -/
def yaml (ls : Layouts) : String :=
  Yaml.document [("slots", .list (ls.slots.map .text)),
    ("classes", .list (ls.classes.map (·.yaml)))]

end Layouts

end ClassLang
