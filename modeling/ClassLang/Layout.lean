import ClassLang.Table

/-!
How objects lie in memory. An object starts with a header of two words, which
are followed by one word for each field. The fields of a class are those of its
parent followed by its own, so an object of a descendant can be used wherever
one of an ancestor is expected. Every method name of a unit has a slot; the
dispatch table of a class leads from a slot to the method that its objects run.
-/

namespace ClassLang

/-! Words -/

/-- The size of a word in bytes. -/
def wordSize : Nat := 8

/-- The size of the header of an object in bytes. -/
def headerSize : Nat := 2 * wordSize

/-- Where the header points to the dispatch table. -/
def dispatchOffset : Nat := wordSize

/-- Where field number `i` of an object lies. -/
def fieldOffset (i : Int) : Int := headerSize + i * wordSize

/-- The size of an object with `n` fields. -/
def objectSize (n : Int) : Int := fieldOffset n

namespace Ty

/-- The size of a value in bytes. Every value takes one word. -/
def size : Ty → Nat
  | .invalid | .void | .func .. | .missing => 0
  | _ => wordSize

/-- The alignment of a value in bytes. -/
def align (t : Ty) : Nat := if t.size = 0 then 1 else wordSize

/-- The letter that tells whether a field holds a reference. -/
def mark (t : Ty) : Char := if t.isReference then 'p' else 'i'

end Ty

/-! Layouts -/

/-- A field at its place in an object. -/
structure FieldSlot where
  field : Field
  index : Nat
  deriving Repr, Inhabited

namespace FieldSlot

/-- Where a field lies, in bytes from the start of the object. -/
def offset (s : FieldSlot) : Int := fieldOffset s.index

end FieldSlot

/-- One entry of a dispatch table, empty if the class lacks the method. -/
structure DispatchEntry where
  slot : Nat
  name : String
  impl : Option Method
  deriving Repr, Inhabited

/-- The layout of one class. -/
structure ClassLayout where
  id : Nat
  name : String
  parent : Option String
  fields : List FieldSlot
  dispatch : List DispatchEntry
  deriving Repr, Inhabited

namespace ClassLayout

/-- The size of an object of the class in bytes. -/
def size (l : ClassLayout) : Int := objectSize l.fields.length

/-- The letters of all fields. -/
def descriptor (l : ClassLayout) : String := String.ofList (l.fields.map (·.field.ty.mark))

/-- The field with a given name. -/
def field? (l : ClassLayout) (name : String) : Option FieldSlot :=
  l.fields.find? (·.field.name = name)

/-- The method that a slot leads to. -/
def method? (l : ClassLayout) (slot : Int) : Option Method :=
  if slot < 0 then none else (l.dispatch[slot.toNat]?).bind (·.impl)

end ClassLayout

/-- The layouts of a unit, ancestors first, and the method names by slot. -/
structure Layouts where
  table : Table
  slots : List String
  classes : List ClassLayout

instance : Inhabited Layouts := ⟨⟨{}, [], []⟩⟩

namespace Layouts

/-- The method names of a unit, each once: those of classes, ancestors first, and
then those that only bounds ask for. -/
def methodNames (t : Table) : List String :=
  let own := (t.order.filterMap t.class?).flatMap (·.methods)
  let asked := t.bounds.flatMap (·.methods)
  ((own ++ asked).map (·.name)).eraseDups

/-- The dispatch table of a class, up to the last method it has. -/
def dispatchTable (t : Table) (slots : List String) (c : ClassInfo) : List DispatchEntry :=
  let entries := slots.mapIdx fun slot name =>
    (⟨slot, name, t.lookupMethod c.id name⟩ : DispatchEntry)
  (entries.reverse.dropWhile (·.impl.isNone)).reverse

/-- The layout of a class, given the layouts of its ancestors. -/
def classLayout (t : Table) (slots : List String) (built : List ClassLayout) (c : ClassInfo) :
    ClassLayout :=
  let parent := c.parent.bind fun p => built.find? (·.id = p)
  let inherited := (parent.map (·.fields)).getD []
  { id := c.id
    name := c.name
    parent := parent.map (·.name)
    fields := inherited ++ c.fields.mapIdx fun i f => ⟨f, inherited.length + i⟩
    dispatch := dispatchTable t slots c }

/-- The layouts of all classes of a sealed table. -/
def build (t : Table) : Layouts :=
  let slots := methodNames t
  { table := t
    slots
    classes := (t.order.filterMap t.class?).foldl
      (fun built c => built ++ [classLayout t slots built c]) [] }

/-- The layout of the class with a given name. -/
def named? (ls : Layouts) (name : String) : Option ClassLayout :=
  ls.classes.find? (·.name = name)

/-- The layouts in the order in which the classes were registered. -/
def byId (ls : Layouts) : List ClassLayout :=
  ls.table.classes.filterMap fun c => ls.named? c.name

/-- The slot of a method name. -/
def slot? (ls : Layouts) (name : String) : Option Nat := ls.slots.idxOf? name

end Layouts

/-! Bounds -/

/-- Why a class that satisfies a bound cannot be called through it. -/
inductive BoundFault where
  | noSlot (bound method : String)
  | notAtSlot (bound cls method : String) (slot : Nat)
  deriving DecidableEq, Repr

namespace BoundFault

/-- The wording of a fault. -/
def message : BoundFault → String
  | .noSlot bound method => s!"bound {bound}: method {method} has no slot"
  | .notAtSlot bound cls method slot =>
    s!"bound {bound}: class {cls} does not implement {method} at slot {slot}"

end BoundFault

namespace Layouts

/-- Checks that the class of a layout has the method `m` of the bound `b` at the
slot that calls through the bound use. -/
def methodFault? (ls : Layouts) (b : BoundInfo) (l : ClassLayout) (m : Method) :
    Option BoundFault :=
  match ls.slot? m.name with
  | none => some (.noSlot b.name m.name)
  | some slot =>
    let wanted := (ls.table.lookupMethod l.id m.name).map (·.ref)
    match l.method? slot with
    | some impl =>
      if some impl.ref = wanted then none else some (.notAtSlot b.name l.name m.name slot)
    | none => some (.notAtSlot b.name l.name m.name slot)

/-- Checks that every class satisfying a bound has its methods at their slots.
Generic classes are left out, since their signatures mention their parameters. -/
def boundFaults (ls : Layouts) (b : BoundInfo) : List BoundFault :=
  ls.classes.flatMap fun l =>
    match ls.table.class? l.id with
    | none => []
    | some c =>
      if c.isGeneric || (ls.table.missingMethod? (.cls c.name) b).isSome then []
      else b.methods.filterMap (ls.methodFault? b l)

/-- Checks all bounds of a unit. -/
def faults (ls : Layouts) : List BoundFault := ls.table.bounds.flatMap ls.boundFaults

end Layouts

/-! Listing -/

namespace ClassLayout

/-- A layout as text. -/
def text (l : ClassLayout) : String :=
  let parent := (l.parent.map (" : " ++ ·)).getD ""
  let head := s!"class {l.name}{parent} size={l.size} desc={l.descriptor}\n"
  let field (s : FieldSlot) : String :=
    s!"  field {s.field.name} {s.field.ty.text} @{s.offset}\n"
  let entry (e : DispatchEntry) : String :=
    let impl := (e.impl.map (·.fullName)).getD "-"
    s!"  slot {e.slot} {e.name} -> {impl}\n"
  head ++ String.join (l.fields.map field) ++ String.join (l.dispatch.map entry)

end ClassLayout

namespace Layouts

/-- All layouts as text, ancestors first. -/
def text (ls : Layouts) : String := String.join (ls.classes.map (·.text))

end Layouts

end ClassLang
