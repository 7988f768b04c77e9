import ClassLang.Machine.Value

/-!
Host functions. What a host function does is a sequence of requests to the machine, each of
which depends on the answers to those before. It may print, use the objects of the heap, keep
values for later calls, and call functions of a program; how such a call ends is an answer
like others.
-/

namespace ClassLang.Machine

/-- How many more blocks a run may enter. Without a budget it is never stopped. -/
abbrev Budget := Option Nat

/-- What a host function does when it is called. -/
inductive Reply where
  /-- It returns a value. -/
  | value (x : Value)
  /-- It fails with a message. -/
  | fail (text : String)
  /-- It fails as the call did that it made last. -/
  | pass
  /-- It stops the machine itself. -/
  | crash
  | print (text : String) (next : Reply)
  | look (ref : Nat) (next : Object → Reply)
  | change (ref : Nat) (o : Object) (next : Reply)
  | create (o : Object) (next : Nat → Reply)
  /-- It asks for the values that host functions have kept. -/
  | kept (next : List Value → Reply)
  | keep (memory : List Value) (next : Reply)
  /-- It gives another host function a name. -/
  | bind (name : String) (respond : List Value → Reply) (next : Reply)
  /-- It calls a function, with a budget of its own if there is one, and goes on with the value
  or the failure. -/
  | call (fn : Graph.Func) (args : List Value) (own : Option Budget)
      (next : Except Failure Value → Reply)
  deriving Inhabited

/-- A host function by what it does with given arguments. -/
structure Host where
  respond : List Value → Reply

namespace Host

/-- The reply to a call with the wrong number of arguments. -/
def wrongCount (name : String) (n : Nat) : Reply :=
  .fail s!"{name}: got {n} arguments, want 1"

/-- Prints a text and ends the line. -/
def println : Host where
  respond args :=
    match args with
    | [.str s] => .print (s ++ "\n") (.value .nil)
    | [x] => .fail s!"println: argument is {x.kindText}, want string"
    | xs => wrongCount "println" xs.length

/-- Prints an integer and ends the line. -/
def printInt : Host where
  respond args :=
    match args with
    | [.int n] => .print s!"{n.toInt}\n" (.value .nil)
    | [x] => .fail s!"print_int: argument is {x.kindText}, want int"
    | xs => wrongCount "print_int" xs.length

/-- The host functions that every machine starts with. -/
def standard : List (String × Host) := [("println", println), ("print_int", printInt)]

/-- A host function that calls a function with its own arguments and ends as the call does. -/
def calling (fn : Graph.Func) (budget : Budget) : Host where
  respond args := .call fn args (some budget) fun
    | .ok x => .value x
    | .error _ => .pass

/-- A host function that gets to know how often it has been called, which it keeps in the cell
`cell`. -/
def counting (respond : Nat → List Value → Reply) (cell : Nat) : Host where
  respond args := .kept fun memory =>
    let n :=
      match memory[cell]? with
      | some (.int n) => n.toInt.toNat + 1
      | _ => 1
    .keep (memory.set cell (.int (Int64.ofNat n))) (respond n args)

end Host

end ClassLang.Machine
