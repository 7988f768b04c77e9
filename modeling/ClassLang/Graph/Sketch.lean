import ClassLang.Graph

/-!
Graphs that are written down block by block. A sketch may break every rule that
graphs built from a unit keep: it may have edges with one side only, operands
that are missing, and blocks and instructions of another function.
-/

namespace ClassLang.Graph

/-- A block as it is written down. Each instruction is given by its number and
that of its block; `order` says in which order the block lists them. Beside the
edges to `succs` there may be ends of edges that lack the other end. -/
structure BlockSketch where
  kind : BlockKind := .plain
  instrs : List (Nat → Nat → Instr) := []
  order : Option (List Nat) := none
  succs : List Nat := []
  looseSuccs : List Nat := []
  loosePreds : List Nat := []
  controls : List (Option Nat) := []
  owned : Bool := true

/-- A function as it is written down. Without an order its blocks stay as they are
listed. The number behind the last block stands for a block of another function,
and the number behind the last instruction for an instruction of it. -/
structure Sketch where
  name : String
  sig : Option Signature := none
  recv : Option Ty := none
  blocks : List BlockSketch := []
  order : Option (List Nat) := none
  hasEntry : Bool := true

namespace Sketch

/-- The number of the first instruction of block `i`. -/
def firstInstr (s : Sketch) (i : Nat) : Nat :=
  (s.blocks.take i).foldl (fun n b => n + b.instrs.length) 0

/-- The number of instructions. -/
def instrCount (s : Sketch) : Nat := s.firstInstr s.blocks.length

/-- The instructions, numbered through all blocks. -/
def instrs (s : Sketch) : List Instr :=
  s.blocks.zipIdx.flatMap fun (b, i) =>
    b.instrs.mapIdx fun k v => v (s.firstInstr i + k) i

/-- Block `i` without the edges that other blocks give it. -/
def block (s : Sketch) (i : Nat) (b : BlockSketch) : Block :=
  let values := List.range' (s.firstInstr i) b.instrs.length
  { id := i
    kind := b.kind
    controls := b.controls
    values :=
      match b.order with
      | some order => order.filterMap (values[·]?)
      | none => values
    owned := b.owned }

/-- Adds the edges that start at block `i`, and the loose ends at it. -/
def addEdges (blocks : Array Block) (i : Nat) (b : BlockSketch) : Array Block :=
  let blocks := b.succs.foldl (fun blocks t =>
    (blocks.modify i fun x => { x with succs := x.succs ++ [t] }).modify t
      fun x => { x with preds := x.preds ++ [i] }) blocks
  blocks.modify i fun x =>
    { x with succs := x.succs ++ b.looseSuccs, preds := x.preds ++ b.loosePreds }

/-- The instruction of the other function. -/
def strayInstr (block : Nat) : Instr :=
  { id := 0, op := .const64, type := some .int, block }

/-- The function that a sketch stands for. -/
def func (s : Sketch) : Func :=
  let n := s.blocks.length
  let stray : Block := { id := 0, values := [s.instrCount], owned := false }
  let blocks := (s.blocks.mapIdx s.block ++ [stray]).toArray
  { name := s.name
    sig := s.sig
    recv := s.recv
    entry := if s.hasEntry then some 0 else none
    order := s.order.getD (List.range n)
    blocks := s.blocks.zipIdx.foldl (fun blocks (b, i) => addEdges blocks i b) blocks
    instrs := (s.instrs ++ [strayInstr n]).toArray }

end Sketch

end ClassLang.Graph
