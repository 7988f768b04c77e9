/-!
Lexical scopes: trees of named tables. A scope keeps its entries in the order in
which they were declared, and a name at most once. Several trees may stand side by
side; their scopes are numbered in the order in which they are opened.
-/

namespace ClassLang

/-- A scope with the entries declared in it and the scopes inside it. -/
structure Scope (α : Type) where
  label : String
  entries : List (String × α) := []
  inner : List (Scope α) := []

namespace Scope

variable {α : Type}

instance : Inhabited (Scope α) := ⟨{ label := "" }⟩

/-- The entry of `name` in a scope, without the scopes around it. -/
def find? (s : Scope α) (name : String) : Option α := s.entries.lookup name

/-- A scope with one more entry. -/
def push (s : Scope α) (name : String) (a : α) : Scope α :=
  { s with entries := s.entries ++ [(name, a)] }

/-- A scope with one more entry, or the entry that has the name already. -/
def insert (s : Scope α) (name : String) (a : α) : Except α (Scope α) :=
  match s.find? name with
  | some old => .error old
  | none => .ok (s.push name a)

/-- A scope with one more scope inside it. -/
def nest (s t : Scope α) : Scope α := { s with inner := s.inner ++ [t] }

/-- The names of a scope in the order of their declaration. -/
def names (s : Scope α) : List String := s.entries.map (·.1)

/-- The names of a scope in alphabetical order. -/
def sortedNames (s : Scope α) : List String := s.names.mergeSort (· ≤ ·)

/-- The innermost entry of `name` in a chain of scopes, the innermost of which
is first. -/
def lookup (chain : List (Scope α)) (name : String) : Option α :=
  chain.findSome? (·.find? name)

/-- The scope at the end of `path`, where each number picks a scope inside. -/
def at? : Scope α → List Nat → Option (Scope α)
  | s, [] => some s
  | s, i :: path => s.inner[i]?.bind (·.at? path)

/-- The scopes along `path`, the innermost first. -/
def chain : Scope α → List Nat → List (Scope α)
  | s, [] => [s]
  | s, i :: path =>
    match s.inner[i]? with
    | some t => t.chain path ++ [s]
    | none => [s]

/-- Changes the scope at the end of `path`. -/
def modifyAt (f : Scope α → Scope α) : List Nat → Scope α → Scope α
  | [], s => f s
  | i :: path, s => { s with inner := s.inner.modify i (modifyAt f path) }

mutual

/-- A scope and those inside it as indented text. `describe` gives the text
shown behind a name, or none for a dash. -/
def dump (describe : α → Option String) (indent : String) : Scope α → String
  | ⟨label, entries, inner⟩ =>
    let line (e : String × α) : String :=
      indent ++ "  " ++ e.1 ++ ": " ++ (describe e.2).getD "-" ++ "\n"
    indent ++ "scope " ++ label ++ " \x7b\n" ++ String.join (entries.map line)
      ++ dumpAll describe (indent ++ "  ") inner ++ indent ++ "\x7d\n"

/-- The texts of a list of scopes. -/
def dumpAll (describe : α → Option String) (indent : String) : List (Scope α) → String
  | [] => ""
  | s :: rest => dump describe indent s ++ dumpAll describe indent rest

end

end Scope

/-! Forests -/

/-- A scope of a forest: none, the one around trees, or one in a tree. -/
inductive ScopeRef where
  | nowhere
  | outer
  | number (i : Nat)
  deriving DecidableEq, Repr

/-- A forest of scopes. A tree that stands inside `outer` is marked; `places`
gives for each number the tree and the path of a scope. -/
structure Forest (α : Type) where
  outer : Scope α
  trees : List (Scope α × Bool) := []
  places : List (Nat × List Nat) := []

namespace Forest

variable {α : Type}

/-- The scope that `r` refers to. -/
def scope? (f : Forest α) : ScopeRef → Option (Scope α)
  | .nowhere => none
  | .outer => some f.outer
  | .number i => do
    let (t, path) ← f.places[i]?
    let (root, _) ← f.trees[t]?
    root.at? path

/-- Changes the scope that `r` refers to. -/
def modify (f : Forest α) (r : ScopeRef) (g : Scope α → Scope α) : Forest α :=
  match r with
  | .nowhere => f
  | .outer => { f with outer := g f.outer }
  | .number i =>
    match f.places[i]? with
    | none => f
    | some (t, path) =>
      { f with trees := f.trees.modify t fun (root, inside) => (root.modifyAt g path, inside) }

/-- Opens an empty scope inside `r`. A scope that stands in no tree starts one. -/
def openIn (f : Forest α) (r : ScopeRef) (label : String) : Forest α :=
  match r with
  | .number i =>
    match f.places[i]?, f.scope? r with
    | some (t, path), some parent =>
      let g := f.modify r (·.nest { label })
      { g with places := f.places ++ [(t, path ++ [parent.inner.length])] }
    | _, _ => f
  | r =>
    { f with
      trees := f.trees ++ [({ label }, decide (r = .outer))]
      places := f.places ++ [(f.trees.length, [])] }

/-- The scopes from `r` outwards, each with its reference. -/
def chain (f : Forest α) : ScopeRef → List (ScopeRef × Scope α)
  | .nowhere => []
  | .outer => [(.outer, f.outer)]
  | .number i =>
    match f.places[i]? with
    | none => []
    | some (t, path) =>
      let inTree := (List.range (path.length + 1)).reverse.filterMap fun n => do
        let k ← f.places.idxOf? (t, path.take n)
        let (root, _) ← f.trees[t]?
        return (.number k, ← root.at? (path.take n))
      match f.trees[t]? with
      | some (_, true) => inTree ++ [(.outer, f.outer)]
      | _ => inTree

/-- The scope around `r`. -/
def parent (f : Forest α) (r : ScopeRef) : ScopeRef :=
  ((f.chain r)[1]?.map (·.1)).getD .nowhere

/-- The entry of `name` in the innermost scope that has one, with that scope. -/
def lookup? (f : Forest α) (r : ScopeRef) (name : String) : Option (ScopeRef × α) :=
  (f.chain r).findSome? fun (k, s) => (s.find? name).map fun a => (k, a)

end Forest

end ClassLang
