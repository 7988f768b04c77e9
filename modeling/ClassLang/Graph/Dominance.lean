import ClassLang.Graph

/-!
The order in which control reaches the blocks of a graph, and which blocks it
must pass on the way to another.
-/

namespace ClassLang.Graph

/-! Reverse post-order -/

/-- The state of a depth-first walk: the blocks seen, and those whose successors
have all been seen, the last one first. -/
structure Walk where
  seen : List Nat := []
  done : List Nat := []

/-- Walks depth-first from block `b`. The fuel bounds the depth. -/
def visit (succs : Nat → List Nat) : Nat → Walk → Nat → Walk
  | 0, w, _ => w
  | fuel + 1, w, b =>
    if w.seen.contains b then w
    else
      let w := (succs b).foldl (visit succs fuel) { w with seen := b :: w.seen }
      { w with done := b :: w.done }

namespace Func

/-- The blocks that control can reach, in reverse post-order. -/
def reversePostOrder (f : Func) : List Nat :=
  match f.entry with
  | some e => (visit f.succs (f.blocks.size + 1) {} e).done
  | none => []

end Func

/-! Immediate dominators -/

/-- For each block the closest block that every path to it passes, as far as it
is known. While the blocks are worked out the entry has itself. -/
abbrev Idoms := Array (Option Nat)

/-- The closest common dominator of two blocks, found by going up from whichever
comes later in `order`. -/
def intersect (order : List Nat) (idoms : Idoms) : Nat → Nat → Nat → Nat
  | 0, a, _ => a
  | fuel + 1, a, b =>
    if a = b then a
    else if order.idxOf b < order.idxOf a then
      intersect order idoms fuel ((idoms.getD a none).getD a) b
    else
      intersect order idoms fuel a ((idoms.getD b none).getD b)

/-- The immediate dominator of a block as far as its predecessors tell. -/
def mergePreds (order : List Nat) (idoms : Idoms) (preds : List Nat) : Option Nat :=
  preds.foldl (fun acc p =>
    match idoms.getD p none, acc with
    | none, _ => acc
    | some _, none => some p
    | some _, some d => some (intersect order idoms (2 * order.length + 2) p d)) none

/-- Works out the blocks of `rest` once more, and tells whether one changed. -/
def refine (preds : Nat → List Nat) (order : List Nat) :
    Idoms × Bool → List Nat → Idoms × Bool :=
  List.foldl fun (idoms, changed) b =>
    match mergePreds order idoms (preds b) with
    | none => (idoms, changed)
    | some d =>
      if idoms.getD b none = some d then (idoms, changed)
      else (idoms.setIfInBounds b (some d), true)

/-- Works out all blocks until none changes. -/
def settle (preds : Nat → List Nat) (order rest : List Nat) : Nat → Idoms → Idoms
  | 0, idoms => idoms
  | fuel + 1, idoms =>
    let (idoms, changed) := refine preds order (idoms, false) rest
    if changed then settle preds order rest fuel idoms else idoms

namespace Func

/-- What is stored for the blocks once those of the function have been forgotten. -/
def forgotten (f : Func) (stored : Idoms) : Idoms :=
  f.order.foldl (fun idoms b => idoms.setIfInBounds b none) stored

/-- The immediate dominator of every block that control can reach, worked out over
what is stored. The entry has none. -/
def idomsFrom (f : Func) (stored : Idoms) : Idoms :=
  match f.reversePostOrder with
  | [] => stored
  | e :: rest =>
    let start := (f.forgotten stored).setIfInBounds e (some e)
    let n := f.blocks.size
    (settle f.preds (e :: rest) rest (n * n + 2) start).setIfInBounds e none

/-- The immediate dominators where nothing has been stored yet. -/
def idoms (f : Func) : Idoms := f.idomsFrom (Array.replicate f.blocks.size none)

end Func

/-- Whether block `a` is `b` or is met on the way up from `b`. -/
def Idoms.above (idoms : Idoms) : Nat → Nat → Nat → Bool
  | 0, a, b => a = b
  | fuel + 1, a, b =>
    a = b ||
      (match idoms.getD b none with
      | some d => Idoms.above idoms fuel a d
      | none => false)

/-- Whether block `a` dominates block `b`. -/
def Idoms.dominates (idoms : Idoms) (a b : Nat) : Bool := idoms.above idoms.size a b

end ClassLang.Graph
