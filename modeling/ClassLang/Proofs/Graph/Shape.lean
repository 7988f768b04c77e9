import ClassLang.Graph.Lower
import ClassLang.Graph.Verify
import Mathlib.Data.List.Nodup

/-!
Graphs under construction that obey all rules but one: some of their blocks may still
be open. The rules come in four groups, and each step of construction touches few of
them.
-/

namespace ClassLang.Graph

/-! Steps of construction on the graph alone -/

namespace Func

/-- How block `b` ends. -/
def kindOf (f : Func) (b : Nat) : BlockKind := ((f.block? b).map (·.kind)).getD .plain

/-- The conditions or results that block `b` ends with. -/
def controlsOf (f : Func) (b : Nat) : List (Option Nat) :=
  ((f.block? b).map (·.controls)).getD []

/-- The graph with an instruction behind the first `n` instructions of block `b`. -/
def inserted (f : Func) (b n : Nat) (v : Instr) : Func :=
  { f with
    instrs := f.instrs.push v
    blocks := f.blocks.modify b fun x =>
      { x with values := x.values.take n ++ f.instrs.size :: x.values.drop n } }

/-- The graph with an empty block. -/
def grown (f : Func) : Func :=
  { f with
    blocks := f.blocks.push { id := f.blocks.size }
    order := f.order ++ [f.blocks.size] }

/-- The graph without block `b`. -/
def without (f : Func) (b : Nat) : Func := { f with order := f.order.erase b }

/-- The graph with an edge from block `a` to block `b`. -/
def linked (f : Func) (a b : Nat) : Func :=
  { f with
    blocks := (f.blocks.modify a fun x => { x with succs := x.succs ++ [b] }).modify b
      fun x => { x with preds := x.preds ++ [a] } }

/-- The graph where block `b` ends in a given way. -/
def ended (f : Func) (b : Nat) (kind : BlockKind) (controls : List (Option Nat)) : Func :=
  { f with blocks := f.blocks.modify b fun x => { x with kind, controls } }

/-- The graph where block `a` ends with a branch. -/
def branched (f : Func) (a cond yes no : Nat) : Func :=
  ((f.ended a .branch [some cond]).linked a yes).linked a no

variable (f : Func) (a b c i n : Nat) (v : Instr) (kind : BlockKind) (controls : List (Option Nat))

theorem getElem?_modify_block (blocks : Array Block) (g : Block → Block) :
    (blocks.modify b g)[c]? = if b = c then blocks[c]?.map g else blocks[c]? :=
  Array.getElem?_modify ..

section

variable {α : Type} (get : Block → α) (default : α) (blocks : Array Block) (g : Block → Block)

/-- A part of the blocks that a change leaves alone. -/
theorem part_modify (h : ∀ x, get (g x) = get x) :
    ((blocks.modify b g)[c]?.map get).getD default = (blocks[c]?.map get).getD default := by
  rw [getElem?_modify_block]
  split
  · simp [Function.comp_def, h]
  · rfl

/-- A part of the blocks that a change of block `b` reaches. -/
theorem part_modify_if (change : α → α) (h : ∀ x, get (g x) = change (get x))
    (hb : b < blocks.size) : ((blocks.modify b g)[c]?.map get).getD default =
      if b = c then change ((blocks[c]?.map get).getD default)
      else (blocks[c]?.map get).getD default := by
  rw [getElem?_modify_block]
  split
  next heq =>
    subst heq
    simp [Array.getElem?_eq_getElem hb, h]
  next => rfl

/-- A part that an empty block has like a missing one. -/
theorem part_push (x : Block) (h : get x = default) :
    ((blocks.push x)[c]?.map get).getD default = (blocks[c]?.map get).getD default := by
  rw [Array.getElem?_push]
  split
  next heq => simp [heq, h]
  next => rfl

end

@[simp] theorem succs_inserted : (f.inserted b n v).succs c = f.succs c :=
  part_modify b c Block.succs [] _ _ fun _ => rfl

@[simp] theorem preds_inserted : (f.inserted b n v).preds c = f.preds c :=
  part_modify b c Block.preds [] _ _ fun _ => rfl

@[simp] theorem kindOf_inserted : (f.inserted b n v).kindOf c = f.kindOf c :=
  part_modify b c Block.kind .plain _ _ fun _ => rfl

@[simp] theorem controlsOf_inserted : (f.inserted b n v).controlsOf c = f.controlsOf c :=
  part_modify b c Block.controls [] _ _ fun _ => rfl

@[simp] theorem order_inserted : (f.inserted b n v).order = f.order := rfl

@[simp] theorem size_inserted : (f.inserted b n v).blocks.size = f.blocks.size := by
  simp [inserted]

theorem instr?_inserted :
    (f.inserted b n v).instr? i = if i = f.instrs.size then some v else f.instr? i := by
  rw [instr?, inserted, Array.getElem?_push]
  rfl

theorem values_inserted (hb : b < f.blocks.size) : (f.inserted b n v).values c =
    if b = c then (f.values c).take n ++ f.instrs.size :: (f.values c).drop n
    else f.values c :=
  part_modify_if b c Block.values [] _ _ (fun vs => vs.take n ++ f.instrs.size :: vs.drop n)
    (fun _ => rfl) hb

@[simp] theorem succs_grown : f.grown.succs c = f.succs c := part_push c Block.succs [] _ _ rfl

@[simp] theorem preds_grown : f.grown.preds c = f.preds c := part_push c Block.preds [] _ _ rfl

@[simp] theorem values_grown : f.grown.values c = f.values c := part_push c Block.values [] _ _ rfl

@[simp] theorem kindOf_grown : f.grown.kindOf c = f.kindOf c := part_push c Block.kind .plain _ _ rfl

@[simp] theorem controlsOf_grown : f.grown.controlsOf c = f.controlsOf c := part_push c Block.controls [] _ _ rfl

@[simp] theorem instr?_grown : f.grown.instr? i = f.instr? i := rfl

theorem order_grown : f.grown.order = f.order ++ [f.blocks.size] := rfl

@[simp] theorem size_grown : f.grown.blocks.size = f.blocks.size + 1 := by simp [grown]

theorem succs_linked (ha : a < f.blocks.size) : (f.linked a b).succs c =
    if a = c then f.succs c ++ [b] else f.succs c := by
  unfold succs block? linked
  rw [part_modify b c Block.succs []]
  · exact part_modify_if a c Block.succs [] _ _ (· ++ [b]) (fun _ => rfl) ha
  · exact fun _ => rfl

theorem preds_linked (hb : b < f.blocks.size) : (f.linked a b).preds c =
    if b = c then f.preds c ++ [a] else f.preds c := by
  have hfirst : ∀ c, (((f.blocks.modify a fun x => { x with succs := x.succs ++ [b] })[c]?).map
      (·.preds)).getD [] = f.preds c := fun c => part_modify a c Block.preds [] _ _ fun _ => rfl
  rw [← hfirst c]
  exact part_modify_if b c Block.preds [] _ _ (· ++ [a]) (fun _ => rfl) (by simpa using hb)

/-- An edge to a block that need not be there leaves the edges to other blocks alone. -/
theorem preds_linked_of_ne (h : b ≠ c) : (f.linked a b).preds c = f.preds c := by
  unfold preds block? linked
  rw [getElem?_modify_block, if_neg h]
  exact part_modify a c Block.preds [] _ _ fun _ => rfl

@[simp] theorem values_linked : (f.linked a b).values c = f.values c := by
  unfold values block? linked
  rw [part_modify b c Block.values [], part_modify a c Block.values []]
  · exact fun _ => rfl
  · exact fun _ => rfl

@[simp] theorem kindOf_linked : (f.linked a b).kindOf c = f.kindOf c := by
  unfold kindOf block? linked
  rw [part_modify b c Block.kind .plain, part_modify a c Block.kind .plain]
  · exact fun _ => rfl
  · exact fun _ => rfl

@[simp] theorem controlsOf_linked : (f.linked a b).controlsOf c = f.controlsOf c := by
  unfold controlsOf block? linked
  rw [part_modify b c Block.controls [], part_modify a c Block.controls []]
  · exact fun _ => rfl
  · exact fun _ => rfl

@[simp] theorem instr?_linked : (f.linked a b).instr? i = f.instr? i := rfl

@[simp] theorem order_linked : (f.linked a b).order = f.order := rfl

@[simp] theorem size_linked : (f.linked a b).blocks.size = f.blocks.size := by simp [linked]

@[simp] theorem succs_ended : (f.ended b kind controls).succs c = f.succs c :=
  part_modify b c Block.succs [] _ _ fun _ => rfl

@[simp] theorem preds_ended : (f.ended b kind controls).preds c = f.preds c :=
  part_modify b c Block.preds [] _ _ fun _ => rfl

@[simp] theorem values_ended : (f.ended b kind controls).values c = f.values c :=
  part_modify b c Block.values [] _ _ fun _ => rfl

theorem kindOf_ended (hb : b < f.blocks.size) : (f.ended b kind controls).kindOf c =
    if b = c then kind else f.kindOf c :=
  part_modify_if b c Block.kind .plain _ _ (fun _ => kind) (fun _ => rfl) hb

theorem controlsOf_ended (hb : b < f.blocks.size) : (f.ended b kind controls).controlsOf c =
    if b = c then controls else f.controlsOf c :=
  part_modify_if b c Block.controls [] _ _ (fun _ => controls) (fun _ => rfl) hb

@[simp] theorem instr?_ended : (f.ended b kind controls).instr? i = f.instr? i := rfl

@[simp] theorem order_ended : (f.ended b kind controls).order = f.order := rfl

@[simp] theorem size_ended : (f.ended b kind controls).blocks.size = f.blocks.size := by
  simp [ended]

section branched

variable (cond yes no : Nat)

theorem succs_branched (ha : a < f.blocks.size) : (f.branched a cond yes no).succs c =
    if a = c then f.succs c ++ [yes, no] else f.succs c := by
  unfold branched
  rw [succs_linked _ _ _ _ (by simpa using ha), succs_linked _ _ _ _ (by simpa using ha),
    succs_ended]
  split
  · rw [List.append_assoc]
    rfl
  · rfl

theorem preds_branched (hyes : b < f.blocks.size) (hno : c < f.blocks.size) (cond i : Nat) :
    (f.branched a cond b c).preds i =
      f.preds i ++ (if b = i then [a] else []) ++ if c = i then [a] else [] := by
  unfold branched
  rw [preds_linked _ _ _ _ (by simpa using hno), preds_linked _ _ _ _ (by simpa using hyes),
    preds_ended]
  split <;> split <;> simp

@[simp] theorem values_branched : (f.branched a cond yes no).values c = f.values c := by
  simp [branched]

theorem kindOf_branched (ha : a < f.blocks.size) : (f.branched a cond yes no).kindOf c =
    if a = c then .branch else f.kindOf c := by
  rw [branched, kindOf_linked, kindOf_linked, kindOf_ended _ _ _ _ _ ha]

theorem controlsOf_branched (ha : a < f.blocks.size) : (f.branched a cond yes no).controlsOf c =
    if a = c then [some cond] else f.controlsOf c := by
  rw [branched, controlsOf_linked, controlsOf_linked, controlsOf_ended _ _ _ _ _ ha]

@[simp] theorem instr?_branched : (f.branched a cond yes no).instr? i = f.instr? i := by
  simp [branched]

@[simp] theorem order_branched : (f.branched a cond yes no).order = f.order := by
  simp [branched]

@[simp] theorem size_branched : (f.branched a cond yes no).blocks.size = f.blocks.size := by
  simp [branched]

end branched

@[simp] theorem succs_without : (f.without b).succs c = f.succs c := rfl

@[simp] theorem preds_without : (f.without b).preds c = f.preds c := rfl

@[simp] theorem values_without : (f.without b).values c = f.values c := rfl

@[simp] theorem kindOf_without : (f.without b).kindOf c = f.kindOf c := rfl

@[simp] theorem controlsOf_without : (f.without b).controlsOf c = f.controlsOf c := rfl

@[simp] theorem instr?_without : (f.without b).instr? i = f.instr? i := rfl

@[simp] theorem size_without : (f.without b).blocks.size = f.blocks.size := rfl

theorem succs_nil (h : f.blocks.size ≤ b) : f.succs b = [] := by
  simp [succs, block?, Array.getElem?_eq_none h]

theorem preds_nil (h : f.blocks.size ≤ b) : f.preds b = [] := by
  simp [preds, block?, Array.getElem?_eq_none h]

theorem values_nil (h : f.blocks.size ≤ b) : f.values b = [] := by
  simp [values, block?, Array.getElem?_eq_none h]

end Func

end ClassLang.Graph
