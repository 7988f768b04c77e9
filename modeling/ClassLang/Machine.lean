import ClassLang.Machine.Action

/-!
The machine that runs graphs. It works in small steps: entering a block, running
one instruction, or leaving a block. A call puts a frame on the stack, and a
return or a failure takes it off again; the machine counts the calls under way.
Before a block is entered it asks whether it may go on; a budget says how often
the answer is yes.
-/

namespace ClassLang.Machine

open ClassLang.Graph (Instr Op Callee)

/-- The depth of calls that a machine allows if no other is asked for. -/
def defaultDepth : Nat := 10000

end ClassLang.Machine

namespace ClassLang

/-- A machine between two runs. `memory` is what its host functions have kept. -/
structure Machine where
  program : Graph.Program
  maxDepth : Nat := Machine.defaultDepth
  heap : Array Machine.Object := #[]
  hosts : List (String × Machine.Host) := Machine.Host.standard
  memory : List Machine.Value := []

namespace Machine

/-- Gives a host function a name. -/
def bind (m : Machine) (name : String) (host : Host) : Machine :=
  { m with hosts := (name, host) :: m.hosts.filter (·.1 ≠ name) }

/-- Gives a name to a host function that has cells of its own and finds them by the
number of the first. -/
def bindWith (m : Machine) (name : String) (cells : List Value) (host : Nat → Host) : Machine :=
  { m.bind name (host m.memory.length) with memory := m.memory ++ cells }

end Machine

end ClassLang

namespace ClassLang.Machine

open ClassLang.Graph (Instr Op Callee)

/-! States -/

/-- A machine in the middle of a run. `depth` counts the calls under way. -/
structure State where
  machine : Machine
  budget : Budget
  out : String := ""
  stack : List Frame := []
  depth : Int := 0

/-- How a step ends: the run goes on, or it is over. -/
inductive Step where
  | next (s : State)
  | done (s : State) (result : Except Failure Value)

namespace State

/-- Ends a run with a failure. -/
def fail (s : State) (e : Failure) : Step := .done s (.error e)

/-- Gives the value of the instruction that the top frame waits for. -/
def deliver (s : State) (x : Value) : Step :=
  match s.stack with
  | [] => .done s (.ok x)
  | f :: rest =>
    match f.todo with
    | some (v :: todo) =>
      let f := { f with values := f.values.setIfInBounds v (some x), todo := some todo }
      .next { s with stack := f :: rest }
    | _ => s.fail (.crash .fault)

/-- The failure of a call of `fn` that would be too deep. -/
def tooDeep (s : State) (fn : Graph.Func) : Failure :=
  .runtime fn.name Pos.none (.tooDeep s.machine.maxDepth)

/-- Puts the frame of a call on the stack. -/
def started (s : State) (fn : Graph.Func) (args : List Value) (outer : Option Waiting) : State :=
  { s with depth := s.depth + 1, stack := Frame.start fn args outer :: s.stack }

/-- Starts a function, unless too many calls are under way. -/
def push (s : State) (fn : Graph.Func) (args : List Value) (outer : Option Waiting) : Step :=
  if s.machine.maxDepth ≤ s.depth then s.fail (s.tooDeep fn)
  else .next (s.started fn args outer)

/-- Changes the heap. -/
def modifyHeap (s : State) (f : Array Object → Array Object) : State :=
  { s with machine := { s.machine with heap := f s.machine.heap } }

/-- Takes the frame of a call off the stack. `budget` counts again if the call had one
of its own. -/
def left (s : State) (rest : List Frame) (budget : Option Budget) : State :=
  { s with stack := rest, depth := s.depth - 1, budget := budget.getD s.budget }

/-- Does what a host function asks for, until it ends or calls a function. `last` is the
failure of the call that it made last. -/
def answer (s : State) (last : Option Failure) : Reply → Step
  | .value x => s.deliver x
  | .fail text => s.fail (.host text)
  | .pass => s.fail (last.getD (.crash .fault))
  | .crash => s.fail (.crash .fault)
  | .print text next => { s with out := s.out ++ text }.answer last next
  | .look ref next =>
    match s.machine.heap[ref]? with
    | some o => s.answer last (next o)
    | none => s.fail (.crash .fault)
  | .change ref o next => (s.modifyHeap (·.setIfInBounds ref o)).answer last next
  | .create o next => (s.modifyHeap (·.push o)).answer last (next s.machine.heap.size)
  | .kept next => s.answer last (next s.machine.memory)
  | .keep memory next => { s with machine := { s.machine with memory } }.answer last next
  | .bind name respond next =>
    { s with machine := s.machine.bind name ⟨respond⟩ }.answer last next
  | .call fn args own next =>
    if s.machine.maxDepth ≤ s.depth then
      s.answer (some (s.tooDeep fn)) (next (.error (s.tooDeep fn)))
    else
      let waiting : Waiting := { budget := own.map fun _ => s.budget, next }
      .next ({ s with budget := own.getD s.budget }.started fn args (some waiting))

/-- Calls a host function. -/
def callHost (s : State) (name : String) (args : List Value) : Step :=
  match s.machine.hosts.lookup name with
  | none => s.fail (.runtime name Pos.none .noHost)
  | some h => s.answer none (h.respond args)

/-- Calls a function. -/
def call (s : State) (target : Callee) (args : List Value) : Step :=
  match target with
  | .host name | .strayHost name => s.callHost name args
  | .strayFunc name => s.fail (.runtime name Pos.none .noBody)
  | .func ref =>
    match s.machine.program.func? ref with
    | some f => s.push f args none
    | none => s.fail (.runtime ref.text Pos.none .noBody)

/-- Carries out what the instruction `v` of the frame `f` does. -/
def perform (s : State) (f : Frame) (rest : List Frame) (v : Nat) : Action → Step
  | .give x => s.deliver x
  | .newSlot =>
    let f := { f with slots := f.slots.setIfInBounds v (some .nil) }
    { s with stack := f :: rest }.deliver .nil
  | .store slot x =>
    let f := { f with slots := f.slots.setIfInBounds slot (some x) }
    { s with stack := f :: rest }.deliver .nil
  | .allocate o =>
    let ref := s.machine.heap.size
    (s.modifyHeap (·.push o)).deliver (.obj ref)
  | .setField ref i x =>
    (s.modifyHeap (·.modify ref fun o =>
      { o with fields := o.fields.setIfInBounds i x })).deliver .nil
  | .setDispatch ref l =>
    (s.modifyHeap (·.modify ref fun o => { o with dispatch := some l })).deliver .nil
  | .call target args => s.call target args

/-! Blocks -/

/-- The values that the instructions `phi` at the start of a block take on the
edge from the block before. -/
def edgeValues (f : Frame) (b : Graph.Block) : List Nat → Except Failure (List (Nat × Value))
  | [] => .ok []
  | i :: rest =>
    match f.fn.instr? i with
    | none => .ok []
    | some v =>
      if v.op = .phi then
        match f.origin.bind fun p => b.preds.idxOf? p with
        | none =>
          f.fail v (.strangeEdge b.label ((f.origin.map f.fn.blockLabel).getD "<nil>"))
        | some k => do
          let x ← f.operand v k
          let others ← edgeValues f b rest
          return (i, x) :: others
      else .ok []

/-- Enters the block of the top frame. -/
def enterBlock (s : State) (f : Frame) (rest : List Frame) : Step :=
  if s.budget = some 0 then s.fail .cancelled
  else
    let s := { s with budget := s.budget.map (· - 1) }
    match f.block.bind f.fn.block? with
    | none => s.fail (.crash .fault)
    | some b =>
      match edgeValues f b b.values with
      | .error e => s.fail e
      | .ok xs =>
        let values := xs.foldl (fun vs (i, x) => vs.setIfInBounds i (some x)) f.values
        let todo := b.values.filter fun i => (f.fn.instr? i).map (·.op) ≠ some .phi
        .next { s with stack := { f with values, todo := some todo } :: rest }

/-- Goes from the block of the top frame to the block `b`. -/
def jump (s : State) (f : Frame) (rest : List Frame) : Option Nat → Step
  | none => s.fail (.crash .fault)
  | some b =>
    .next { s with stack := { f with block := some b, origin := f.block, todo := none } :: rest }

/-- Whether the condition of a branch holds. A value that is no truth value
counts as false. -/
def holds (f : Frame) (c : Option Nat) : Bool :=
  match c.map f.value with
  | some (.bool b) => b
  | _ => false

/-- Takes the top frame off the stack and hands its value to whatever made the call. -/
def returnTo (s : State) (rest : List Frame) (outer : Option Waiting) (x : Value) : Step :=
  match outer with
  | none => (s.left rest none).deliver x
  | some w => (s.left rest w.budget).answer none (w.next (.ok x))

/-- Leaves the block of the top frame. -/
def leaveBlock (s : State) (f : Frame) (rest : List Frame) : Step :=
  match f.block.bind f.fn.block? with
  | none => s.fail (.crash .fault)
  | some b =>
    match b.kind with
    | .plain => s.jump f rest b.succs.head?
    | .branch =>
      match b.controls with
      | [] => s.fail (.crash .fault)
      | c :: _ => s.jump f rest (b.succs[if holds f c then 0 else 1]?)
    | .ret =>
      let x :=
        match b.controls with
        | some c :: _ => f.value c
        | _ => .nil
      s.returnTo rest f.outer x
    | kind => s.fail (.crash (.strangeBlock b.label kind.text))

/-- One step of a run. -/
def step (s : State) : Step :=
  match s.stack with
  | [] => .done s (.ok .nil)
  | f :: rest =>
    match f.todo with
    | none => s.enterBlock f rest
    | some [] => s.leaveBlock f rest
    | some (v :: _) =>
      match f.fn.instr? v with
      | none => s.fail (.crash .fault)
      | some x =>
        match action f s.machine.heap x with
        | .error e => s.fail e
        | .ok a => s.perform f rest v a

/-- Takes frames off the stack that a failure ends. A host function that made one of
their calls goes on with the failure. -/
def unwind : List Frame → Failure → State → Step
  | [], e, s => .done s (.error e)
  | f :: rest, e, s =>
    match f.outer with
    | none => unwind rest e (s.left rest none)
    | some w =>
      match (s.left rest w.budget).answer (some e) (w.next (.error e)) with
      | .done s (.error e) => unwind rest e s
      | step => step

/-- One step of a run with what follows from its failure. -/
def advance (s : State) : Step :=
  match s.step with
  | .done s' (.error e) => unwind s'.stack e s'
  | step => step

/-- At most `fuel` steps of a run. A run that is not over by then has no
result. -/
def run : Nat → State → Option (State × Except Failure Value)
  | 0, _ => none
  | fuel + 1, s =>
    match s.advance with
    | .done s result => some (s, result)
    | .next s => run fuel s

end State

/-! Runs -/

/-- What a run leaves behind: the machine, what was printed, and the value. -/
structure Run where
  machine : Machine
  out : String
  result : Except Failure Value

/-- Calls a function with given arguments while `depth` calls are under way, and tells
how many there are afterwards. -/
def callWithin (m : Machine) (depth : Int) (fuel : Nat) (budget : Budget) (fn : Graph.Func)
    (args : List Value) : Option (Int × Run) :=
  let start : State := { machine := m, budget, depth }
  match start.push fn args none with
  | .done s result => some (s.depth, ⟨s.machine, s.out, result⟩)
  | .next s =>
    (s.run fuel).map fun (s, result) => (s.depth, ⟨s.machine, s.out, result⟩)

/-- Calls a function with given arguments; a method takes its receiver first. -/
def call (m : Machine) (fuel : Nat) (budget : Budget) (fn : Graph.Func)
    (args : List Value) : Option Run :=
  (m.callWithin 0 fuel budget fn args).map (·.2)

/-- Runs a program from its entry point. -/
def runMain (m : Machine) (fuel : Nat) (budget : Budget) : Option Run :=
  match m.program.main? with
  | none => some ⟨m, "", .error .noMain⟩
  | some f => m.call fuel budget f []

/-- A number of steps that no run of a real program takes. -/
def ampleFuel : Nat := Nat.pow 2 62

/-! Sessions -/

/-- A machine with the number of calls under way. -/
structure Session where
  machine : Machine
  depth : Int := 0

/-- What a machine is asked to do from outside. -/
inductive Order where
  | run (budget : Budget)
  | call (fn : Graph.Func) (args : List Value) (budget : Budget)
  | bind (name : String) (cells : List Value) (host : Nat → Host)

namespace Session

/-- Calls a function. -/
def call (c : Session) (fuel : Nat) (budget : Budget) (fn : Graph.Func) (args : List Value) :
    Option (Session × String × Except Failure Value) :=
  (c.machine.callWithin c.depth fuel budget fn args).map fun (depth, r) =>
    (⟨r.machine, depth⟩, r.out, r.result)

/-- Does what is asked. Nothing is printed and no value given where a host function gets a
name. -/
def obey (c : Session) (fuel : Nat) : Order → Option (Session × String × Except Failure Value)
  | .run budget =>
    match c.machine.program.main? with
    | none => some (c, "", .error .noMain)
    | some f => c.call fuel budget f []
  | .call fn args budget => c.call fuel budget fn args
  | .bind name cells host =>
    some ({ c with machine := c.machine.bindWith name cells host }, "", .ok .nil)

end Session

end ClassLang.Machine
