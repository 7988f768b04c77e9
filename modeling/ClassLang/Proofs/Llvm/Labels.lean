import ClassLang.Proofs.Llvm.Declared
import Std.Data.String.ToNat

/-!
The labels of a function. A block of the graph has its number in its label, and the blocks that
a division goes on in have the number of the division. No two of them are the same.
-/

namespace ClassLang.Llvm

/-! The forms of labels -/

/-- What a label is made from: the number of a block of the graph, or that of a division. -/
inductive LabelForm where
  | block (i : Nat)
  | zero (n : Nat)
  | ok (n : Nat)
  deriving DecidableEq

namespace LabelForm

/-- The label of a given form. -/
def text : LabelForm → String
  | .block i => s!"b{i}"
  | .zero n => s!"divzero.{n}"
  | .ok n => s!"divok.{n}"

/-- The labels of the division with a given number. -/
def division (n : Nat) : List LabelForm := [.zero n, .ok n]

/-- The labels of the divisions behind number `a` up to number `b`. -/
def divisions (a b : Nat) : List LabelForm := (List.range' (a + 1) (b - a)).flatMap division

theorem toList_block (i : Nat) : (block i).text.toList = 'b' :: (toString i).toList := by
  simp [text, toString]

theorem toList_zero (n : Nat) :
    (zero n).text.toList = "divzero".toList ++ '.' :: (toString n).toList := by
  simp [text, toString]

theorem toList_ok (n : Nat) :
    (ok n).text.toList = "divok".toList ++ '.' :: (toString n).toList := by
  simp [text, toString]

/-- Different forms give different labels. -/
theorem text_inj {l l' : LabelForm} (h : l.text = l'.text) : l = l' := by
  have hnumber : ∀ {i j : Nat}, (toString i).toList = (toString j).toList → i = j :=
    fun h => Nat.repr_injective (String.toList_inj.1 h)
  have hlist := congrArg String.toList h
  cases l <;> cases l' <;> simp only [toList_block, toList_zero, toList_ok] at hlist
  case block.block i j => rw [hnumber (List.cons.inj hlist).2]
  case zero.zero i j => rw [hnumber (List.cons.inj (List.append_cancel_left hlist)).2]
  case ok.ok i j => rw [hnumber (List.cons.inj (List.append_cancel_left hlist)).2]
  all_goals simp at hlist

/-- A label that is spelled as a name is that of a block of the graph. -/
theorem exists_block_of_isName {l : LabelForm} (h : Scan.IsName l.text) : ∃ i, l = block i := by
  have hdot := h.dot_notMem
  cases l with
  | block i => exact ⟨i, rfl⟩
  | zero n => exact absurd (by simp [toList_zero]) hdot
  | ok n => exact absurd (by simp [toList_ok]) hdot

theorem divisions_self (a : Nat) : divisions a a = [] := by simp [divisions]

theorem divisions_succ (a : Nat) : divisions a (a + 1) = division (a + 1) := by simp [divisions]

/-- The divisions behind `a` up to `c` are those up to `b` and those behind it. -/
theorem divisions_append {a b c : Nat} (hab : a ≤ b) (hbc : b ≤ c) :
    divisions a b ++ divisions b c = divisions a c := by
  have hrange : List.range' (a + 1) (b - a) ++ List.range' (b + 1) (c - b) =
      List.range' (a + 1) (c - a) := by
    have hstart : b + 1 = (a + 1) + 1 * (b - a) := by omega
    rw [hstart, List.range'_append]
    congr 1
    omega
  rw [divisions, divisions, divisions, ← hrange, List.flatMap_append]

theorem mem_division {l : LabelForm} {n : Nat} : l ∈ division n ↔ l = zero n ∨ l = ok n := by
  simp [division]

theorem divisions_nodup (a b : Nat) : (divisions a b).Nodup := by
  refine List.nodup_flatMap.2 ⟨fun n _ => by simp [division], ?_⟩
  refine (List.pairwise_lt_range' (s := a + 1) 1).imp fun {m n} hlt => ?_
  simp [Function.onFun, division, hlt.ne']

theorem block_notMem_divisions {i a b : Nat} : block i ∉ divisions a b := by
  simp [divisions, mem_division]

end LabelForm

/-! What writing does to the labels -/

open LabelForm (divisions)

/-- The labels of the blocks written so far. -/
def Writer.labels (s : Writer) : List String := s.body.map (·.label)

/-- The blocks of `s` have kept their labels in `s'`, and those of the divisions that were
written in between stand behind them. -/
structure Splits (s s' : Writer) : Prop where
  le : s.splits ≤ s'.splits
  labels : s'.labels = s.labels ++ (divisions s.splits s'.splits).map LabelForm.text

namespace Splits

variable {s s' s'' : Writer}

theorem of_same (hsplits : s'.splits = s.splits) (hlabels : s'.labels = s.labels) :
    Splits s s' :=
  ⟨Nat.le_of_eq hsplits.symm, by simp [hsplits, hlabels, LabelForm.divisions_self]⟩

theorem refl (s : Writer) : Splits s s := .of_same rfl rfl

theorem trans (h : Splits s s') (h' : Splits s' s'') : Splits s s'' :=
  ⟨h.le.trans h'.le, by
    rw [h'.labels, h.labels, List.append_assoc, ← List.map_append,
      LabelForm.divisions_append h.le h'.le]⟩

end Splits

theorem labels_modify (s : Writer) (k : Nat) {f : Block → Block}
    (hf : ∀ b, (f b).label = b.label) :
    (s.blocks.modify k f).toList.map (·.label) = s.labels := by
  apply List.ext_getElem?
  intro i
  rw [Writer.labels, Writer.body, List.getElem?_map, List.getElem?_map, Array.getElem?_toList,
    Array.getElem?_toList, Array.getElem?_modify]
  split
  · cases s.blocks[i]? <;> simp [hf]
  · rfl

theorem labels_emitted (s : Writer) (i : Instr) : (s.emitted i).labels = s.labels :=
  labels_modify s s.current fun _ => rfl

theorem labels_closed (s : Writer) (t : Terminator) : (s.closed t).labels = s.labels :=
  labels_modify s s.current fun _ => rfl

theorem labels_divided (s : Writer) (z : Operand) (failing ok : Nat) (text : String) :
    (s.divided z failing ok text).labels = s.labels := by
  change (Writer.closed (Writer.emitted _ _) _).labels = _
  rw [labels_closed, labels_emitted]
  change (Writer.closed s _).labels = _
  rw [labels_closed]

theorem labels_grown (s : Writer) (label : String) :
    (s.grown label).labels = s.labels ++ [label] := by
  simp [Writer.labels, Writer.body, Writer.grown]

/-- Whatever comes of the step `m`, blocks keep their labels, and the new ones are those of
divisions. -/
def Write.KeepsLabels {α : Type} (m : Write α) : Prop :=
  ∀ s a s', m.run s = .ok (a, s') → Splits s s'

namespace Write.KeepsLabels

variable {α β : Type} {c : Context}

theorem pure (a : α) : KeepsLabels (pure a : Write α) := by
  intro s b s' h
  cases h
  exact .refl s

theorem bind {m : Write α} {f : α → Write β} (hm : KeepsLabels m)
    (hf : ∀ a, KeepsLabels (f a)) : KeepsLabels (m >>= f) := by
  intro s b s' h
  rw [StateT.run_bind] at h
  cases hrun : m.run s with
  | error e =>
      rw [hrun] at h
      cases h
  | ok p =>
      rw [hrun] at h
      exact (hm s p.1 p.2 hrun).trans (hf p.1 p.2 b s' h)

theorem throw (e : EmitError) : KeepsLabels (throw e : Write α) := by
  intro s a s' h
  cases h

theorem get : KeepsLabels (get : Write Writer) := by
  intro s a s' h
  cases h
  exact .refl s

theorem modify {f : Writer → Writer} (h : ∀ s, Splits s (f s)) :
    KeepsLabels (modify f : Write Unit) := by
  intro s a s' hrun
  cases hrun
  exact h s

theorem discard {m : Write α} (h : KeepsLabels m) : KeepsLabels (discard m) :=
  h.bind fun _ => .pure ()

/-- The operand of a step is handed on. -/
theorem given {m : Write α} (h : KeepsLabels m) :
    KeepsLabels (do return some (← m) : Write (Option α)) := h.bind fun _ => .pure _

theorem forM {f : α → Write Unit} {l : List α} (h : ∀ x, KeepsLabels (f x)) :
    KeepsLabels (l.forM f) := by
  induction l with
  | nil => exact .pure ()
  | cons x l ih => exact (h x).bind fun _ => ih

theorem mapM {f : α → Write β} {l : List α} (h : ∀ x, KeepsLabels (f x)) :
    KeepsLabels (l.mapM f) := by
  induction l with
  | nil => exact .pure []
  | cons x l ih =>
      rw [List.mapM_cons]
      exact (h x).bind fun _ => ih.bind fun _ => .pure _

/-! The steps of writing -/

theorem emit (i : Instr) : KeepsLabels (emit i) := by
  intro s a s' h
  cases h
  exact .of_same rfl (labels_emitted s i)

theorem close (t : Terminator) : KeepsLabels (close t) :=
  .modify fun s => .of_same rfl (labels_closed s t)

theorem enter (b : Nat) : KeepsLabels (enter b) := .modify fun _ => .of_same rfl rfl

theorem fault (f : Fault) : KeepsLabels (fault f : Write α) := .throw _

theorem refuse (why : Refusal) : KeepsLabels (refuse c why : Write α) := .throw _

theorem literal (x : String) : KeepsLabels (literal x) := by
  intro s a s' h
  cases h
  exact .of_same rfl rfl

theorem lift (x : Except EmitError α) : KeepsLabels (liftM x : Write α) := by
  intro s a s' h
  cases x with
  | error e => cases h
  | ok b =>
      cases h
      exact .refl s

theorem store (x y : Operand) : KeepsLabels (store x y) := by
  unfold Write.store
  split
  · split
    · exact (emit _).discard
    · exact fault _
  · exact fault _

theorem call (f : Operand) (args : List Operand) : KeepsLabels (call f args) := by
  unfold Write.call
  split
  · exact emit _
  · exact fault _
  · exact fault _

theorem icmp (pred : IntPred) (x y : Operand) : KeepsLabels (icmp pred x y) := by
  unfold Write.icmp
  split
  · exact emit _
  · exact emit _
  · exact fault _

theorem fcmp (pred : FloatPred) (x y : Operand) : KeepsLabels (fcmp pred x y) := by
  unfold Write.fcmp
  split
  · exact emit _
  · exact fault _

theorem element (type : Ty) (base : Operand) (index : Int) :
    KeepsLabels (element type base index) := by
  unfold Write.element
  split
  · exact emit _
  · exact fault _

theorem fieldAddress (object : Operand) (offset : Int) (elem : Ty) :
    KeepsLabels (fieldAddress object offset elem) :=
  (element _ _ _).bind fun _ => emit _

theorem operand (i : Option Nat) : KeepsLabels (operand c i) := by
  unfold Write.operand
  split
  · exact fault _
  · refine get.bind fun s => ?_
    split
    · exact .pure _
    · exact fault _

theorem argument (v : Graph.Instr) (k : Nat) : KeepsLabels (argument c v k) := by
  unfold Write.argument
  split
  · exact operand _
  · exact fault _

/-- A division adds the two blocks with its number. -/
theorem checkDivisor (pos : Pos) (y : Operand) : KeepsLabels (checkDivisor pos y) := by
  intro s a s' h
  let counted : Writer := { s with splits := s.splits + 1 }
  let grown := counted.grown (LabelForm.zero counted.splits).text
  let both := grown.grown (LabelForm.ok counted.splits).text
  have hboth : Splits s both := by
    refine ⟨Nat.le_succ _, ?_⟩
    rw [labels_grown, labels_grown, List.append_assoc]
    change _ = s.labels ++ (divisions s.splits (s.splits + 1)).map LabelForm.text
    rw [LabelForm.divisions_succ]
    rfl
  let text := (if pos.isValid then pos.text ++ ": " else "") ++ "integer divide by zero"
  have hall : (Write.checkDivisor pos y).run s = (Write.icmp .eq y (.word 0)).run both >>=
      fun p => .ok ((), p.2.divided p.1 counted.blocks.size grown.blocks.size text) := rfl
  rw [hall] at h
  cases hrun : (Write.icmp .eq y (.word 0)).run both with
  | error e =>
      rw [hrun] at h
      cases h
  | ok p =>
      rw [hrun] at h
      cases h
      exact (hboth.trans (icmp _ _ _ _ _ _ hrun)).trans (.of_same rfl (labels_divided ..))

theorem quotient (x y : Operand) : KeepsLabels (quotient x y) :=
  (icmp _ _ _).bind fun _ => (emit _).bind fun _ => (emit _).bind fun _ => (emit _).bind fun _ =>
    emit _

theorem remainder (x y : Operand) : KeepsLabels (remainder x y) :=
  (icmp _ _ _).bind fun _ => (emit _).bind fun _ => (emit _).bind fun _ => emit _

theorem binary (v : Graph.Instr) (op : BinaryOp) : KeepsLabels (binary c v op) :=
  (argument _ _).bind fun _ => (argument _ _).bind fun _ => emit _

theorem compareInts (v : Graph.Instr) (pred : IntPred) : KeepsLabels (compareInts c v pred) :=
  (argument _ _).bind fun _ => (argument _ _).bind fun _ => icmp _ _ _

theorem compareFloats (v : Graph.Instr) (pred : FloatPred) :
    KeepsLabels (compareFloats c v pred) :=
  (argument _ _).bind fun _ => (argument _ _).bind fun _ => fcmp _ _ _

theorem compareStrings (v : Graph.Instr) (pred : IntPred) :
    KeepsLabels (compareStrings c v pred) :=
  (argument _ _).bind fun _ => (argument _ _).bind fun _ => (call _ _).bind fun _ => icmp _ _ _

theorem parameter (v : Graph.Instr) : KeepsLabels (parameter c v) := by
  unfold Write.parameter
  dsimp only
  split
  · exact .pure _
  · exact fault _

theorem layout (v : Graph.Instr) : KeepsLabels (layout v) := by
  unfold Write.layout
  split
  · exact .pure _
  · exact fault _

theorem callee (v : Graph.Instr) : KeepsLabels (callee c v) := by
  unfold Write.callee
  split
  · exact .pure _
  · exact refuse _
  · exact fault _

theorem instr (v : Graph.Instr) : KeepsLabels (instr c v) := by
  have hcall : ∀ (f : Operand) (args : List (Option Nat)),
      KeepsLabels (do return some (← Write.call f (← args.mapM (Write.operand c)))) :=
    fun _ _ => (mapM operand).bind fun _ => (call _ _).given
  unfold Write.instr
  split
  all_goals with_reducible first
    | exact .pure _
    | exact (binary _ _).given
    | exact (compareInts _ _).given
    | exact (compareFloats _ _).given
    | exact (compareStrings _ _).given
    | exact refuse _
    | skip
  · exact (literal _).given
  · exact (parameter _).given
  · exact (lift _).bind fun _ => (emit _).given
  · exact (lift _).bind fun _ => (argument _ _).bind fun _ => (emit _).given
  · exact (argument _ _).bind fun _ => (argument _ _).bind fun _ => (store _ _).bind fun _ => .pure _
  · exact (argument _ _).bind fun _ => (checkDivisor _ _).bind fun _ => (argument _ _).bind fun _ =>
      (quotient _ _).given
  · exact (argument _ _).bind fun _ => (checkDivisor _ _).bind fun _ => (argument _ _).bind fun _ =>
      (remainder _ _).given
  · exact (argument _ _).bind fun _ => (emit _).given
  · exact (argument _ _).bind fun _ => (emit _).given
  · exact (argument _ _).bind fun _ => (emit _).given
  · refine (lift _).bind fun _ => KeepsLabels.bind (.modify fun s => ?_) fun _ => (emit _).given
    exact .of_same rfl rfl
  · exact (layout _).bind fun _ => (call _ _).given
  · exact (lift _).bind fun _ => (argument _ _).bind fun _ => (fieldAddress _ _ _).bind fun _ =>
      (emit _).given
  · exact (argument _ _).bind fun _ => (argument _ _).bind fun _ => (fieldAddress _ _ _).bind fun _ =>
      (store _ _).bind fun _ => .pure _
  · exact (layout _).bind fun _ => (argument _ _).bind fun _ => (fieldAddress _ _ _).bind fun _ =>
      (store _ _).bind fun _ => .pure _
  · exact (callee _).bind fun _ => hcall _ _
  · exact (argument _ _).bind fun _ => (fieldAddress _ _ _).bind fun _ => (emit _).bind fun _ =>
      (emit _).given
  · split
    · exact (argument _ _).bind fun _ => (element _ _ _).bind fun _ => (emit _).bind fun _ =>
        (lift _).bind fun _ => (emit _).given
    · exact refuse _
  · exact (argument _ _).bind fun _ => hcall _ _

theorem value (i : Nat) : KeepsLabels (value c i) := by
  unfold Write.value
  split
  · exact fault _
  · refine (instr _).bind fun x => ?_
    split
    · exact .modify fun _ => .of_same rfl rfl
    · exact .pure _

theorem target (b : Option Nat) : KeepsLabels (target c b) := by
  unfold Write.target
  split
  · exact .pure _
  · exact fault _

theorem terminate (b : Graph.Block) : KeepsLabels (terminate c b) := by
  unfold Write.terminate
  split
  · exact (target _).bind fun _ => close _
  · split
    · exact (operand _).bind fun _ => (target _).bind fun _ => (target _).bind fun _ => close _
    · exact fault _
  · split
    · exact (operand _).bind fun _ => close _
    · exact close _
  · exact refuse _

theorem block (b : Nat) : KeepsLabels (block c b) := by
  unfold Write.block
  split
  · exact fault _
  · refine (enter _).bind fun _ => (forM value).bind fun _ =>
      KeepsLabels.bind (.modify fun s => ?_) fun _ => terminate _
    exact .of_same rfl rfl

theorem incoming (v : Graph.Instr) : KeepsLabels (incoming c v) := by
  unfold Write.incoming
  refine get.bind fun s => (mapM fun p => ?_).bind fun _ => .pure _
  dsimp only
  split
  · exact fault _
  · split
    · exact .pure _
    · split
      · exact .pure _
      · exact fault _

theorem fillPhi (number : Nat) (v : Graph.Instr) : KeepsLabels (fillPhi c number v) :=
  (incoming v).bind fun _ => .modify fun s => .of_same rfl <| by
    simp [Writer.labels, Writer.body, Function.comp_def]

theorem body : KeepsLabels (body c) := by
  unfold Write.body
  refine (forM block).bind fun _ => get.bind fun s => KeepsLabels.bind (forM fun p => ?_) fun _ =>
    get.bind fun _ => .pure _
  exact fillPhi p.1 p.2

end Write.KeepsLabels

/-! The labels of a function -/

section

variable {u : Typed.File} {d : Declared} {literals : List String} {f : Graph.Func} {func : Func}
  {w : Writer} {dom : Graph.Doms}

/-- The forms of the labels of a function with `n` divisions: the blocks of its graph stand
first. -/
def labelForms (f : Graph.Func) (n : Nat) : List LabelForm :=
  f.reversePostOrder.map .block ++ divisions 0 n

theorem labelForms_nodup (horder : f.reversePostOrder.Nodup) (n : Nat) :
    (labelForms f n).Nodup := by
  refine List.nodup_append.2
    ⟨horder.map fun _ _ => LabelForm.block.inj, LabelForm.divisions_nodup 0 n, ?_⟩
  rintro l hl _ hl' rfl
  obtain ⟨i, _, rfl⟩ := List.mem_map.1 hl
  exact LabelForm.block_notMem_divisions hl'

theorem blockLabel_of_wired (h : f.Wired) {b : Nat} (hb : b ∈ f.order) :
    f.blockLabel b = (LabelForm.block b).text := by
  have hlt := h.known b hb
  have hblock : f.block? b = some f.blocks[b] := Array.getElem?_eq_getElem hlt
  rw [Graph.Func.blockLabel, hblock, Option.map_some, Option.getD_some, Graph.Block.label,
    (h.ids b _ hblock).1]
  rfl

/-- The labels of a function that was written are those of its graph and of its divisions. -/
theorem Emitted.labels_eq (h : Emitted u d literals f func w) :
    ∃ n, func.blocks.map (·.label) = (labelForms f n).map LabelForm.text ∧
      (labelForms f n).Nodup := by
  obtain ⟨head, before, dom, s, _, _, hsound, hrun, rfl, _⟩ := h.exists_run
  have hlabels := (Write.KeepsLabels.body _ _ _ hrun).labels
  have hstart : (Writer.start f before).labels =
      (f.reversePostOrder.map LabelForm.block).map LabelForm.text := by
    have hbody : (Writer.start f before).body =
        f.reversePostOrder.map fun b => ({ label := f.blockLabel b } : Block) :=
      body_start hsound before
    rw [Writer.labels, hbody, List.map_map, List.map_map]
    exact List.map_congr_left fun b hb =>
      blockLabel_of_wired hsound.good.wired (hsound.mem_order.1 hb)
  refine ⟨w.splits, ?_, labelForms_nodup hsound.nodup _⟩
  rw [hstart] at hlabels
  rw [labelForms, List.map_append]
  exact hlabels

end

end ClassLang.Llvm
