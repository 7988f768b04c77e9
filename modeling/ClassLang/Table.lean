import ClassLang.Diagnostic
import ClassLang.Symbol

/-!
The table of a unit: its top-level names, its classes and its bounds.

A table is filled in steps. Classes, bounds, functions and constants are
registered first, in any order. Linking then resolves the parent of every class
and works out the chains of ancestors. Fields and methods are added after that,
and sealing ends all changes.
-/

namespace ClassLang

/-- A class of a unit. Classes are numbered in the order of registration. -/
structure ClassInfo where
  id : Nat
  decl : ClassDecl
  tparams : List TypeParam
  parent : Option Nat := none
  fields : List Field := []
  methods : List Method := []
  children : List Nat := []

namespace ClassInfo

/-- The name of a class. -/
def name (c : ClassInfo) : String := c.decl.name.text

/-- Where the name of a class is declared. -/
def pos (c : ClassInfo) : Pos := c.decl.name.pos

/-- Whether a class has type parameters. -/
def isGeneric (c : ClassInfo) : Bool := !c.tparams.isEmpty

/-- The own field of a class with a given name. -/
def field? (c : ClassInfo) (name : String) : Option Field :=
  c.fields.find? (·.name = name)

/-- The own method of a class with a given name. -/
def method? (c : ClassInfo) (name : String) : Option Method :=
  c.methods.find? (·.name = name)

end ClassInfo

/-- A bound of a unit with the methods it asks for. -/
structure BoundInfo where
  decl : BoundDecl
  methods : List Method := []

namespace BoundInfo

/-- The name of a bound. -/
def name (b : BoundInfo) : String := b.decl.name.text

/-- The method of a bound with a given name. -/
def method? (b : BoundInfo) (name : String) : Option Method :=
  b.methods.find? (·.name = name)

end BoundInfo

/-- The table of a unit. Once it is linked, `chains` holds for each class its
number, that of its parent, and so on to the root, and `order` lists every class
after its ancestors. -/
structure Table where
  unit : Scope Symbol := { label := "unit" }
  classes : List ClassInfo := []
  bounds : List BoundInfo := []
  chains : List (List Nat) := []
  order : List Nat := []
  linked : Bool := false
  isSealed : Bool := false

instance : Inhabited Table := ⟨{}⟩

namespace Table

/-- The class with a given number. -/
def class? (t : Table) (id : Nat) : Option ClassInfo := t.classes[id]?

/-- The class with a given name. -/
def classNamed? (t : Table) (name : String) : Option ClassInfo :=
  t.classes.find? (·.name = name)

/-- The bound with a given name. -/
def boundNamed? (t : Table) (name : String) : Option BoundInfo :=
  t.bounds.find? (·.name = name)

/-- Changes the class with a given number. -/
def modifyClass (t : Table) (id : Nat) (f : ClassInfo → ClassInfo) : Table :=
  { t with classes := t.classes.modify id f }

/-- Changes the bound with a given name. -/
def modifyBound (t : Table) (name : String) (f : BoundInfo → BoundInfo) : Table :=
  { t with bounds := t.bounds.map fun b => if b.name = name then f b else b }

/-- The names of a list of classes, given by number. -/
def namesOf (t : Table) (ids : List Nat) : List String :=
  ids.filterMap fun id => (t.class? id).map (·.name)

/-! Registration -/

/-- Declares a top-level name, which must be new in the unit and not be a
predeclared one. -/
def declare (t : Table) (id : Ident) (s : Symbol) : Except Diagnostic Table :=
  if (predeclared.find? id.text).isSome then
    .error ⟨.duplicateDeclaration, id.pos, s!"cannot redeclare predeclared {id.text}"⟩
  else
    match t.unit.insert id.text s with
    | .ok unit => .ok { t with unit }
    | .error old =>
      .error ⟨.duplicateDeclaration, id.pos,
        s!"{id.text} redeclared in this unit (previous declaration at {old.pos.text})"⟩

/-- The type parameters that a declaration of `owner` introduces, as yet without
their bounds. -/
def freshParams (owner : String) (ds : List TypeParamDecl) : List TypeParam :=
  ds.mapIdx fun i d => { owner, index := i, name := d.name.text, bound := none }

/-- Registers a class. Its parent may be registered later. -/
def registerClass (t : Table) (d : ClassDecl) : Except Diagnostic Table := do
  let t' ← t.declare d.name (.cls d.name)
  let c : ClassInfo :=
    { id := t.classes.length, decl := d, tparams := freshParams d.name.text d.tparams }
  return { t' with classes := t.classes ++ [c] }

/-- Registers a bound. -/
def registerBound (t : Table) (d : BoundDecl) : Except Diagnostic Table := do
  let t' ← t.declare d.name (.bound d.name)
  return { t' with bounds := t.bounds ++ [{ decl := d }] }

/-- Registers any declaration. -/
def register (t : Table) : Decl → Except Diagnostic Table
  | .cls d => t.registerClass d
  | .bound d => t.registerBound d
  | .func d => t.declare d.name (.func d.name d.host)
  | .const d => t.declare d.name (.const d.name)

/-! Linking -/

/-- The class that `name` stands for. -/
def resolve (t : Table) (name : Ident) : Except Diagnostic ClassInfo :=
  match Scope.lookup [t.unit, predeclared] name.text with
  | none => .error ⟨.unknownType, name.pos, s!"undefined: {name.text}"⟩
  | some (.cls _) =>
    match t.classNamed? name.text with
    | some c => .ok c
    | none => .error ⟨.unknownType, name.pos, s!"undefined: {name.text}"⟩
  | some _ => .error ⟨.unknownType, name.pos, s!"{name.text} is not a class"⟩

/-- The parent of a class, which may not be generic. -/
def resolveParent (t : Table) (c : ClassInfo) (name : Ident) : Except Diagnostic Nat := do
  let p ← t.resolve name
  if p.isGeneric then
    throw ⟨.typeMismatch, name.pos, s!"class {c.name} cannot extend generic class {p.name}"⟩
  return p.id

/-- The table with the parents that can be resolved, and the errors of those
that cannot. -/
def linkParents (t : Table) : Table × List Diagnostic :=
  let resolved := t.classes.map fun c =>
    match c.decl.parent with
    | none => (c, none)
    | some name =>
      match t.resolveParent c name with
      | .ok p => ({ c with parent := some p }, none)
      | .error e => (c, some e)
  ({ t with classes := resolved.map (·.1) }, resolved.filterMap (·.2))

/-- Follows the parents from class `id`, at most `fuel` of them. The classes
passed so far are in `seen`, the last one first. The result is the whole chain,
or the classes of the cycle that the walk ran into. -/
def walk (t : Table) : Nat → List Nat → Nat → Except (List Nat) (List Nat)
  | 0, seen, _ => .ok seen.reverse
  | fuel + 1, seen, id =>
    if seen.contains id then .error (seen.reverse.dropWhile (· ≠ id))
    else
      match (t.class? id).bind (·.parent) with
      | none => .ok (id :: seen).reverse
      | some p => walk t fuel (id :: seen) p

/-- The chain from a class to its root, or the cycle its parents run into. -/
def walkParents (t : Table) (id : Nat) : Except (List Nat) (List Nat) :=
  t.walk (t.classes.length + 1) [] id

/-- The smallest number of a cycle. -/
def anchor (cycle : List Nat) : Nat := cycle.min?.getD 0

/-- The error that reports a cycle: it names its classes from the one registered
first, and stands at that class. -/
def cycleError (t : Table) (cycle : List Nat) : Diagnostic :=
  let first := anchor cycle
  let round := cycle.dropWhile (· ≠ first) ++ cycle.takeWhile (· ≠ first) ++ [first]
  ⟨.cyclicInheritance, ((t.class? first).map (·.pos)).getD Pos.none,
    "cyclic inheritance: " ++ " -> ".intercalate (t.namesOf round)⟩

/-- The errors of the cycles that the classes `ids` run into, each cycle once. -/
def cycleErrors (t : Table) (ids : List Nat) : List Diagnostic :=
  let cycles := ids.filterMap fun id =>
    match t.walkParents id with
    | .error cycle => some cycle
    | .ok _ => none
  let firsts := cycles.foldl (fun acc c =>
    if acc.any (anchor · = anchor c) then acc else acc ++ [c]) []
  firsts.map t.cycleError

/-- Puts a class in front of the first one that is not nearer to its root. -/
def insertByDepth (depth : Nat → Nat) (id : Nat) : List Nat → List Nat
  | [] => [id]
  | other :: rest =>
    if depth id ≤ depth other then id :: other :: rest
    else other :: insertByDepth depth id rest

/-- Classes in the order of their depths; classes of one depth keep their order. -/
def sortByDepth (depth : Nat → Nat) (ids : List Nat) : List Nat :=
  ids.foldr (insertByDepth depth) []

/-- Resolves the parents of all classes and works out the chains of ancestors.
The errors come in the order of their places; with an error the table keeps the
parents found but is not linked. -/
def linkAll (t : Table) : Table × List Diagnostic :=
  let (t, unresolved) := t.linkParents
  let ids := t.classes.map (·.id)
  let errors := unresolved ++ t.cycleErrors ids
  if !errors.isEmpty then (t, Diagnostic.sort errors)
  else
    let chains := ids.map fun id =>
      match t.walkParents id with
      | .ok chain => chain
      | .error _ => []
    let depth (id : Nat) : Nat := (chains.getD id []).length
    let order := sortByDepth depth ids
    let children (id : Nat) : List Nat :=
      (t.classes.filter (·.parent = some id)).map (·.id)
    let classes := t.classes.map fun c => { c with children := c.children ++ children c.id }
    ({ t with classes, chains, order, linked := true }, [])

/-! Members -/

/-- Adds an own field to a class. -/
def pushField (t : Table) (id : Nat) (name : String) (pos : Pos) (ty : Ty) : Table :=
  t.modifyClass id fun c =>
    { c with fields := c.fields ++ [{ name, pos, ty, owner := c.name, index := c.fields.length }] }

/-- Adds an own method to a class. -/
def pushMethod (t : Table) (id : Nat) (name : String) (pos : Pos) (sig : Signature) : Table :=
  t.modifyClass id fun c =>
    { c with methods := c.methods ++ [{ name, pos, owner := c.name, sig }] }

/-! Queries on a linked table -/

/-- The numbers of a class and its ancestors, the class first. -/
def chain (t : Table) (id : Nat) : List Nat := t.chains.getD id []

/-- The classes of a chain of ancestors. -/
def chainClasses (t : Table) (id : Nat) : List ClassInfo :=
  (t.chain id).filterMap t.class?

/-- The root of the hierarchy of a class. -/
def root (t : Table) (id : Nat) : Nat := (t.chain id).getLast?.getD id

/-- Whether `anc` is the class `id` or one of its ancestors. -/
def isAncestor (t : Table) (anc id : Nat) : Bool := (t.chain id).contains anc

/-- The classes whose root is `root`, ancestors first. -/
def hierarchy (t : Table) (root : Nat) : List Nat :=
  t.order.filter fun id => t.root id = root

/-- The field `name` of a class, its own or the nearest inherited one. -/
def lookupField (t : Table) (id : Nat) (name : String) : Option Field :=
  (t.chainClasses id).findSome? (·.field? name)

/-- The method `name` of a class, its own or the nearest inherited one. -/
def lookupMethod (t : Table) (id : Nat) (name : String) : Option Method :=
  (t.chainClasses id).findSome? (·.method? name)

/-- All fields of a class, those of the root first. -/
def flatFields (t : Table) (id : Nat) : List Field :=
  (t.chainClasses id).reverse.flatMap (·.fields)

/-- The methods called `name` of all classes related to the class `id`,
ancestors first. -/
def implementations (t : Table) (id : Nat) (name : String) : List Method :=
  (t.hierarchy (t.root id)).filterMap fun c => (t.class? c).bind (·.method? name)

/-- The signature of method `name` on values of a type. The type arguments of an
instance are filled in, and a type parameter has the methods of its bound. -/
def methodSignature? (t : Table) (ty : Ty) (name : String) : Option Signature :=
  match ty with
  | .cls c => do
    let c ← t.classNamed? c
    return (← t.lookupMethod c.id name).sig
  | .inst c args => do
    let c ← t.classNamed? c
    return (← t.lookupMethod c.id name).sig.subst c.tparams args
  | .param p => do
    let b ← t.boundNamed? (← p.bound)
    return (← b.method? name).sig
  | _ => none

/-- The first method of a bound that a type lacks, or has with another
signature. -/
def missingMethod? (t : Table) (ty : Ty) (b : BoundInfo) : Option Method :=
  b.methods.find? fun want =>
    match t.methodSignature? ty want.name with
    | some have_ => !have_.identical want.sig
    | none => true

end Table

end ClassLang
