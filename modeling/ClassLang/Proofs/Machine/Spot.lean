import ClassLang.Proofs.Graph.Spot
import ClassLang.Proofs.Machine.Step
import Mathlib.Logic.Relation

/-!
The machine at a spot of a graph. An instruction takes it to the next spot, and the end of
a block to the start of another. Values that have been computed stay.
-/

namespace ClassLang.Machine

open ClassLang.Graph (Instr Spot)

namespace State

/-- One step of a run that goes on. -/
def Next (s s' : State) : Prop := s.step = .next s'

/-- Some steps of a run that goes on. -/
abbrev Steps : State → State → Prop := Relation.ReflTransGen Next

end State

namespace Frame

/-- The frame stands at the spot `p` of the graph `g`. -/
structure Stands (f : Frame) (g : Graph.Func) (p : Spot) : Prop where
  fn : f.fn = g
  block : f.block = some p.block
  todo : f.todo = some ((g.body p.block).drop p.index)
  values : f.values.size = g.instrs.size
  slots : f.slots.size = g.instrs.size

/-- From `f` to `f'` the same activation has gone on. The values of the first `n` instructions
have been kept. -/
structure Keeps (n : Nat) (f f' : Frame) : Prop where
  args : f'.args = f.args
  outer : f'.outer = f.outer
  values : ∀ i < n, f'.value i = f.value i

variable {f f' f'' : Frame} {g : Graph.Func} {p q : Spot} {v : Instr} {m n : Nat} {x : Value}

namespace Keeps

theorem refl (n : Nat) (f : Frame) : Keeps n f f := ⟨rfl, rfl, fun _ _ => rfl⟩

theorem trans (h : Keeps n f f') (h' : Keeps n f' f'') : Keeps n f f'' :=
  ⟨h'.args.trans h.args, h'.outer.trans h.outer,
    fun i hi => (h'.values i hi).trans (h.values i hi)⟩

theorem narrow (h : Keeps n f f') (hle : m ≤ n) : Keeps m f f' :=
  ⟨h.args, h.outer, fun i hi => h.values i (Nat.lt_of_lt_of_le hi hle)⟩

theorem given (n : Nat) (f : Frame) (x : Value) (todo : List Nat) : Keeps n f (f.given n x todo) := by
  refine ⟨rfl, rfl, fun i hi => ?_⟩
  simp only [Frame.value, Frame.given]
  rw [Array.getD_eq_getD_getElem?, Array.getD_eq_getD_getElem?,
    Array.getElem?_setIfInBounds_ne (Nat.ne_of_gt hi)]

theorem stored (n : Nat) (f : Frame) (a : Nat) (x : Value) : Keeps n f (f.stored a x) :=
  ⟨rfl, rfl, fun _ _ => rfl⟩

end Keeps

namespace Stands

/-- The instruction at the spot is the next one to run. -/
theorem at_ (h : f.Stands g p) (hv : g.Holds p v) :
    f.At p.count v ((g.body p.block).drop p.next.index) where
  todo := by
    rw [h.todo, List.drop_eq_getElem_cons (List.getElem?_eq_some_iff.1 hv.body).1,
      (List.getElem?_eq_some_iff.1 hv.body).2]
    rfl
  instr := h.fn ▸ hv.instr

theorem given (h : f.Stands g p) (x : Value) (k : Nat) :
    (f.given k x ((g.body p.block).drop p.next.index)).Stands g p.next where
  fn := h.fn
  block := h.block
  todo := rfl
  values := by simpa [Frame.given] using h.values
  slots := h.slots

theorem stored (h : f.Stands g p) (a : Nat) (x : Value) : (f.stored a x).Stands g p where
  fn := h.fn
  block := h.block
  todo := h.todo
  values := h.values
  slots := by simpa [Frame.stored] using h.slots

/-- An instruction has the value that it has been given. -/
theorem value_given (h : f.Stands g p) (hv : g.Holds p v) (x : Value) (todo : List Nat) :
    (f.given p.count x todo).value p.count = x := by
  have hlt : p.count < f.values.size := by
    rw [h.values]
    exact Graph.Func.instr?_lt hv.instr
  simp [Frame.value, Frame.given, Array.getD_eq_getD_getElem?, hlt]

end Stands

end Frame

namespace State

variable {s : State} {f : Frame} {rest : List Frame} {g : Graph.Func} {p q r : Spot} {v : Instr}
  {x : Value} {a : Action}

/-- The instruction at the spot of the top frame is carried out. -/
theorem step_spot (hstack : s.stack = f :: rest) (hf : f.Stands g p) (hv : g.Holds p v)
    (haction : action f s.machine.heap v = .ok a) : s.step = s.perform f rest p.count a := by
  have hat := hf.at_ hv
  unfold step
  rw [hstack]
  dsimp only
  rw [hat.todo]
  dsimp only
  rw [hat.instr]
  dsimp only
  rw [haction]

/-- The instruction at the spot of the top frame gives a value. -/
theorem next_give (hstack : s.stack = f :: rest) (hf : f.Stands g p) (hv : g.Holds p v)
    (haction : action f s.machine.heap v = .ok (.give x)) :
    s.Next (s.withTop (f.given p.count x ((g.body p.block).drop p.next.index)) rest) := by
  rw [Next, step_spot hstack hf hv haction]
  exact deliver_eq hstack (hf.at_ hv).todo x

/-- The instruction at the spot of the top frame stores a value into a slot. -/
theorem next_store {slot : Nat} (hstack : s.stack = f :: rest) (hf : f.Stands g p)
    (hv : g.Holds p v) (haction : action f s.machine.heap v = .ok (.store slot x)) :
    s.Next (s.withTop ((f.stored slot x).given p.count .nil
      ((g.body p.block).drop p.next.index)) rest) := by
  rw [Next, step_spot hstack hf hv haction]
  exact deliver_eq (s := s.withTop (f.stored slot x) rest) rfl ((hf.stored slot x).at_ hv).todo .nil

/-- The instruction at the spot of the top frame changes the heap. -/
theorem next_heap {change : Array Object → Array Object} (hstack : s.stack = f :: rest)
    (hf : f.Stands g p) (hv : g.Holds p v) (haction : action f s.machine.heap v = .ok a)
    (hperform : s.perform f rest p.count a = (s.modifyHeap change).deliver x) :
    s.Next ((s.modifyHeap change).withTop
      (f.given p.count x ((g.body p.block).drop p.next.index)) rest) := by
  rw [Next, step_spot hstack hf hv haction, hperform]
  exact deliver_eq (s := s.modifyHeap change) hstack (hf.at_ hv).todo x

/-- The end of the block. -/
theorem step_end (hstack : s.stack = f :: rest) (hf : f.Stands g p)
    (hlast : p.index = (g.body p.block).length) : s.step = s.leaveBlock f rest := by
  unfold step
  rw [hstack]
  dsimp only
  rw [hf.todo, hlast, List.drop_length]

/-- The block that a frame is in. -/
theorem exists_block (hf : f.Stands g p) (hknown : p.block < g.blocks.size) :
    ∃ b, f.block.bind f.fn.block? = some b ∧ b.kind = g.kindOf p.block ∧
      b.succs = g.succs p.block ∧ b.controls = g.controlsOf p.block := by
  have hblock : g.block? p.block = some (g.blocks[p.block]) :=
    Array.getElem?_eq_getElem hknown
  refine ⟨_, by rw [hf.block, hf.fn]; exact hblock, ?_⟩
  rw [Graph.Func.kindOf, Graph.Func.succs, Graph.Func.controlsOf, hblock]
  exact ⟨rfl, rfl, rfl⟩

/-- Where a block ends that leads to one other block, the frame goes there. -/
theorem next_link {b : Nat} (hstack : s.stack = f :: rest) (hf : f.Stands g p)
    (hlink : g.Links p b) : s.Next (s.withTop (f.jumped b) rest) := by
  obtain ⟨x, hx, hkind, hsuccs, _⟩ := exists_block hf hlink.known
  rw [Next, step_end hstack hf hlink.last, leaveBlock, hx]
  simp only [hkind, hlink.kind, hsuccs, hlink.succs]
  rfl

/-- Where a block ends with a branch, the frame goes to the side of the condition. -/
theorem next_fork {cond : Nat} {side : Bool → Nat} {b : Bool} (hstack : s.stack = f :: rest)
    (hf : f.Stands g p) (hfork : g.Forks p cond side) (hcond : f.value cond = .bool b) :
    s.Next (s.withTop (f.jumped (side b)) rest) := by
  obtain ⟨x, hx, hkind, hsuccs, hcontrols⟩ := exists_block hf hfork.ends.known
  have hholds : holds f (some cond) = b := by simp [holds, hcond]
  rw [Next, step_end hstack hf hfork.ends.last, leaveBlock, hx]
  simp only [hkind, hfork.ends.kind, hsuccs, hfork.ends.succs, hcontrols, hfork.ends.controls, hholds]
  cases b <;> rfl

/-! Entering blocks -/

/-- Where a block starts without a `phi`, nothing is taken from the edge. -/
theorem edgeValues_calm {b : Graph.Block} {is : List Nat}
    (hcalm : ∀ i ∈ is.head?, ∃ v, f.fn.instr? i = some v ∧ v.op ≠ .phi) :
    edgeValues f b is = .ok [] := by
  cases is with
  | nil => rfl
  | cons i rest =>
      obtain ⟨v, hv, hop⟩ := hcalm i rfl
      unfold edgeValues
      rw [hv]
      dsimp only
      rw [if_neg hop]

theorem filter_calm {g : Graph.Func} {is : List Nat}
    (hcalm : ∀ i ∈ is, ∃ v, g.instr? i = some v ∧ v.op ≠ .phi) :
    is.filter (fun i => (g.instr? i).map (·.op) ≠ some .phi) = is := by
  refine List.filter_eq_self.2 fun i hi => ?_
  obtain ⟨v, hv, hop⟩ := hcalm i hi
  simp [hv, hop]

/-- The block that a frame enters that has just jumped. -/
theorem step_enter {t : Graph.Builder} {b : Nat} {xs : List (Nat × Value)} (ht : t.Finished)
    (hstack : s.stack = f.jumped b :: rest) (hfn : f.fn = t.func) (hknown : b < t.func.blocks.size)
    (hb : b ≠ 0) (hbudget : s.budget ≠ some 0)
    (hedge : ∀ x, t.func.block? b = some x → x.values = t.func.body b →
      x.preds = t.func.preds b → edgeValues (f.jumped b) x (t.func.body b) = .ok xs) :
    s.Next (s.charged.withTop { f.jumped b with
      values := xs.foldl (fun vs (i, x) => vs.setIfInBounds i (some x)) f.values
      todo := some ((t.func.body b).filter fun i =>
        (t.func.instr? i).map (·.op) ≠ some .phi) } rest) := by
  have hblock : t.func.block? b = some (t.func.blocks[b]) :=
    Array.getElem?_eq_getElem hknown
  have hvalues : (t.func.blocks[b]).values = t.func.body b := by
    rw [← ht.values_eq hb, Graph.Func.values, hblock]
    rfl
  have hpreds : (t.func.blocks[b]).preds = t.func.preds b := by
    rw [Graph.Func.preds, hblock]
    rfl
  have hfound : (f.jumped b).block.bind (f.jumped b).fn.block? = some (t.func.blocks[b]) := by
    rw [← hblock, ← hfn]
    rfl
  have hedge := hedge _ hblock hvalues hpreds
  unfold Next step
  rw [hstack]
  change s.enterBlock (f.jumped b) rest = _
  unfold enterBlock
  rw [if_neg hbudget, hfound]
  dsimp only
  rw [hvalues, hedge]
  dsimp only
  rw [← hfn]
  rfl

/-- A frame that has jumped enters the block. -/
theorem next_land {t : Graph.Builder} {b : Nat} (ht : t.Finished)
    (hstack : s.stack = f.jumped b :: rest) (hf : f.Stands t.func p) (hland : t.func.Landing b)
    (hbudget : s.budget ≠ some 0) (n : Nat) :
    ∃ f', s.Next (s.charged.withTop f' rest) ∧ f'.Stands t.func ⟨b, 0, n⟩ ∧ (∀ m, f.Keeps m f') ∧
      f'.slots = f.slots := by
  have hcalm : ∀ i ∈ (t.func.body b).head?, ∃ v, (f.jumped b).fn.instr? i = some v ∧ v.op ≠ .phi := by
    intro i hi
    obtain ⟨v, hv, hop⟩ := hland.calm i (List.mem_of_mem_head? hi)
    exact ⟨v, (congrArg (·.instr? i) hf.fn).trans hv, hop⟩
  have henter := step_enter ht hstack hf.fn hland.known hland.entry hbudget
    fun x _ _ _ => edgeValues_calm hcalm
  rw [filter_calm hland.calm] at henter
  exact ⟨_, henter, ⟨hf.fn, rfl, rfl, hf.values, hf.slots⟩, fun _ => ⟨rfl, rfl, fun _ _ => rfl⟩, rfl⟩

/-- From the end of a block control gets to the start of another. -/
theorem steps_land {t : Graph.Builder} {b : Nat} (ht : t.Finished)
    (hjump : s.Next (s.withTop (f.jumped b) rest)) (hf : f.Stands t.func p)
    (hland : t.func.Landing b) (hbudget : s.budget ≠ some 0) (n : Nat) :
    ∃ f', s.Steps (s.charged.withTop f' rest) ∧ f'.Stands t.func ⟨b, 0, n⟩ ∧ (∀ m, f.Keeps m f') ∧
      f'.slots = f.slots := by
  obtain ⟨f', hnext, hf'⟩ := next_land (s := s.withTop (f.jumped b) rest) ht rfl hf hland hbudget n
  exact ⟨f', .tail (.single hjump) hnext, hf'⟩

/-- What stands in a block that starts with a `phi`. -/
theorem body_phi {t : Graph.Builder} {args : List Nat} {pos : Pos} (ht : t.Finished)
    (hb : r.block ≠ 0) (hstart : r.index = 0)
    (hphi : t.func.Holds r (r.instr .phi (some .bool) args pos 0 none)) :
    ∃ l, t.func.body r.block = r.count :: l ∧
      ∀ i ∈ l, ∃ v, t.func.instr? i = some v ∧ v.op ≠ .phi := by
  obtain ⟨l, hl⟩ : ∃ l, t.func.body r.block = r.count :: l := by
    have hget := hphi.body
    rw [hstart] at hget
    cases hbody : t.func.body r.block with
    | nil => simp [hbody] at hget
    | cons i l => exact ⟨l, by simpa [hbody] using hget⟩
  refine ⟨l, hl, fun i hi => ?_⟩
  have hvalues := (ht.values_eq hb).trans hl
  obtain ⟨dom, hcoded⟩ := ht.coded
  obtain ⟨v, hv, _⟩ := (hcoded.placed r.block i).1 (hvalues ▸ List.mem_cons_of_mem _ hi)
  exact ⟨v, hv, ht.not_phi hvalues hi hv⟩

/-- A frame that has jumped enters a block that starts with a `phi`. -/
theorem next_merge {t : Graph.Builder} {args : List Nat} {a k : Nat} {pos : Pos}
    (ht : t.Finished) (hstack : s.stack = f.jumped r.block :: rest) (hf : f.Stands t.func p)
    (hknown : r.block < t.func.blocks.size) (hb : r.block ≠ 0)
    (hstart : r.index = 0) (hphi : t.func.Holds r (r.instr .phi (some .bool) args pos 0 none))
    (hk : (t.func.preds r.block).idxOf? p.block = some k) (ha : args[k]? = some a)
    (hbudget : s.budget ≠ some 0) :
    ∃ f', s.Next (s.charged.withTop f' rest) ∧ f'.Stands t.func r.next ∧ f.Keeps r.count f' ∧
      f'.slots = f.slots ∧ f'.value r.count = f.value a := by
  obtain ⟨l, hl, hcalm⟩ := body_phi ht hb hstart hphi
  have hinstr : f.fn.instr? r.count = some (r.instr .phi (some .bool) args pos 0 none) :=
    (congrArg (·.instr? r.count) hf.fn).trans hphi.instr
  have hedge : ∀ x, t.func.block? r.block = some x → x.values = t.func.body r.block →
      x.preds = t.func.preds r.block →
      edgeValues (f.jumped r.block) x (t.func.body r.block) = .ok [(r.count, f.value a)] := by
    intro x _ _ hpreds
    rw [hl]
    unfold edgeValues
    simp only [Frame.jumped, hinstr, hf.block, Option.bind_some, hpreds, hk]
    have hop : ((f.jumped r.block).operand (r.instr .phi (some .bool) args pos 0 none) k) =
        .ok (f.value a) := by
      simp [Frame.operand, Spot.instr, ha]
      rfl
    have hothers : edgeValues (f.jumped r.block) x l = .ok [] := by
      refine edgeValues_calm fun i hi => ?_
      obtain ⟨v, hv, hop⟩ := hcalm i (List.mem_of_mem_head? hi)
      exact ⟨v, (congrArg (·.instr? i) hf.fn).trans hv, hop⟩
    unfold Frame.jumped at hop hothers
    rw [hf.block] at hop hothers
    rw [if_pos (show (r.instr .phi (some .bool) args pos 0 none).op = .phi from rfl), hop, hothers]
    rfl
  have henter := step_enter ht hstack hf.fn hknown hb hbudget hedge
  have htodo : (t.func.body r.block).filter (fun i =>
      (t.func.instr? i).map (·.op) ≠ some .phi) = (t.func.body r.block).drop r.next.index := by
    rw [hl, List.filter_cons_of_neg (by simp [hphi.instr, Spot.instr]), filter_calm hcalm]
    simp [Spot.next, hstart]
  rw [htodo] at henter
  refine ⟨_, henter, ⟨hf.fn, rfl, rfl, by simpa using hf.values, hf.slots⟩,
    ⟨rfl, rfl, fun i hi => ?_⟩, rfl, ?_⟩
  · simp [Frame.value, Array.getD_eq_getD_getElem?, Array.getElem?_setIfInBounds_ne (Nat.ne_of_gt hi)]
  · have hlt : r.count < f.values.size := by
      rw [hf.values]
      exact Graph.Func.instr?_lt hphi.instr
    simp [Frame.value, Array.getD_eq_getD_getElem?, hlt]

/-- From the end of a block control gets to a block that starts with a `phi`. -/
theorem steps_merge {t : Graph.Builder} {args : List Nat} {a k : Nat} {pos : Pos}
    (ht : t.Finished) (hstack : s.stack = f :: rest) (hf : f.Stands t.func p)
    (hlink : t.func.Links p r.block) (hknown : r.block < t.func.blocks.size) (hb : r.block ≠ 0)
    (hstart : r.index = 0) (hphi : t.func.Holds r (r.instr .phi (some .bool) args pos 0 none))
    (hk : (t.func.preds r.block).idxOf? p.block = some k) (ha : args[k]? = some a)
    (hbudget : s.budget ≠ some 0) :
    ∃ f', s.Steps (s.charged.withTop f' rest) ∧ f'.Stands t.func r.next ∧ f.Keeps r.count f' ∧
      f'.slots = f.slots ∧ f'.value r.count = f.value a := by
  obtain ⟨f', hnext, hf'⟩ := next_merge (s := s.withTop (f.jumped r.block) rest) ht rfl hf hknown hb
    hstart hphi hk ha hbudget
  exact ⟨f', .tail (.single (next_link hstack hf hlink)) hnext, hf'⟩

/-! The start and the end of a function -/

theorem withTop_self (hstack : s.stack = f :: rest) : s.withTop f rest = s := by
  unfold withTop
  rw [← hstack]

/-- A slot is made. -/
theorem next_slot {i : Nat} {todo : List Nat} (hstack : s.stack = f :: rest)
    (hslot : f.fn.isSlot i = true) (htodo : f.todo = some (i :: todo)) :
    s.Next (s.withTop ((f.stored i .nil).given i .nil todo) rest) := by
  obtain ⟨v, hv, hop⟩ : ∃ v, f.fn.instr? i = some v ∧ v.op = .alloca := by
    simpa [Graph.Func.isSlot] using hslot
  have hperform : s.step = s.perform f rest i .newSlot := by
    unfold step
    rw [hstack]
    dsimp only
    rw [htodo]
    simp only [hv, action, hop]
  rw [Next, hperform]
  exact deliver_eq (s := s.withTop (f.stored i .nil) rest) rfl htodo .nil

/-- The slots at the start of the entry are made. -/
theorem steps_slots {is todo : List Nat} (hslots : ∀ i ∈ is, g.isSlot i = true)
    (hstack : s.stack = f :: rest) (hfn : f.fn = g) (htodo : f.todo = some (is ++ todo)) :
    ∃ f', s.Steps (s.withTop f' rest) ∧ f'.fn = g ∧ f'.block = f.block ∧ f'.todo = some todo ∧
      f'.args = f.args ∧ f'.outer = f.outer ∧ f'.values.size = f.values.size ∧
      f'.slots.size = f.slots.size := by
  induction is generalizing s f with
  | nil => exact ⟨f, by rw [withTop_self hstack], hfn, rfl, htodo, rfl, rfl, rfl, rfl⟩
  | cons i is ih =>
      obtain ⟨hi, his⟩ := List.forall_mem_cons.1 hslots
      have hstep := next_slot hstack (hfn ▸ hi) htodo
      obtain ⟨f', hsteps, hfn', hblock, htodo', hargs, houter, hvalues, hslots⟩ :=
        ih (s := s.withTop ((f.stored i .nil).given i .nil (is ++ todo)) rest) his rfl hfn rfl
      refine ⟨f', .head hstep hsteps, hfn', hblock, htodo', hargs, houter, ?_, ?_⟩
      · simpa [Frame.given, Frame.stored] using hvalues
      · simpa [Frame.given, Frame.stored] using hslots

/-- A function that has been started enters its first block, where all its slots come first. -/
theorem next_start {t : Graph.Builder} {args : List Value} {outer : Option Waiting}
    (ht : t.Finished) (hentry : t.func.entry = some 0) (hknown : 0 < t.func.blocks.size)
    (hstack : s.stack = .start t.func args outer :: rest) (hbudget : s.budget ≠ some 0) :
    ∃ is, (∀ i, t.func.isSlot i = true ↔ i ∈ is) ∧
      s.Next (s.charged.withTop { Frame.start t.func args outer with
        todo := some (is ++ t.func.body 0) } rest) := by
  obtain ⟨n, hslotted⟩ := ht.slotted
  obtain ⟨dom, hcoded⟩ := ht.coded
  have hblock : t.func.block? 0 = some (t.func.blocks[0]) := Array.getElem?_eq_getElem hknown
  have hvalues : (t.func.blocks[0]).values = t.func.values 0 := by
    rw [Graph.Func.values, hblock]
    rfl
  have hcalm : ∀ i ∈ t.func.values 0, ∃ v, t.func.instr? i = some v ∧ v.op ≠ .phi := by
    intro i hi
    obtain ⟨v, hv, hhome⟩ := (hcoded.placed 0 i).1 hi
    exact ⟨v, hv, hcoded.entry i v hv hhome⟩
  have hfront : (t.func.values 0).take n ++ t.func.body 0 = t.func.values 0 := by
    have hbody : t.func.body 0 = (t.func.values 0).drop n := by
      rw [Graph.Func.body, ← List.take_append_drop n (t.func.values 0), List.filter_append,
        List.filter_eq_nil_iff.2 (by simpa using hslotted.front),
        List.filter_eq_self.2 (by simpa using hslotted.back), List.take_append_drop]
      rfl
    rw [hbody, List.take_append_drop]
  have hfound : (Frame.start t.func args outer).block.bind
      (Frame.start t.func args outer).fn.block? = some (t.func.blocks[0]) := by
    rw [← hblock]
    exact congrArg (·.bind t.func.block?) hentry
  have hall : ∀ i, t.func.isSlot i = true ↔ i ∈ (t.func.values 0).take n := by
    refine fun i => ⟨fun hi => ?_, hslotted.front i⟩
    obtain ⟨v, hv, -⟩ : ∃ v, t.func.instr? i = some v ∧ v.op = .alloca := by
      simpa [Graph.Func.isSlot] using hi
    have hmem := (hcoded.placed v.block i).2 ⟨v, hv, rfl⟩
    by_cases hblock : v.block = 0
    · rw [hblock, ← List.take_append_drop n (t.func.values 0)] at hmem
      exact (List.mem_append.1 hmem).resolve_right fun h => by simp [hslotted.back i h] at hi
    · simp [hslotted.others _ hblock i hmem] at hi
  refine ⟨(t.func.values 0).take n, hall, ?_⟩
  unfold Next step
  rw [hstack]
  change s.enterBlock _ rest = _
  unfold enterBlock
  rw [if_neg hbudget, hfound]
  dsimp only
  rw [hvalues, edgeValues_calm (f := .start t.func args outer)
    fun i hi => hcalm i (List.mem_of_mem_head? hi)]
  dsimp only
  rw [hfront, show ((t.func.values 0).filter fun i =>
    ((Frame.start t.func args outer).fn.instr? i).map (·.op) ≠ some .phi) = t.func.values 0
    from filter_calm hcalm]
  rfl

/-- A function that has been started gets to its first spot. -/
theorem steps_start {t : Graph.Builder} {args : List Value} {outer : Option Waiting}
    (ht : t.Finished) (hentry : t.func.entry = some 0) (hknown : 0 < t.func.blocks.size)
    (hstack : s.stack = .start t.func args outer :: rest) (hbudget : s.budget ≠ some 0) (n : Nat) :
    ∃ f, s.Steps (s.charged.withTop f rest) ∧ f.Stands t.func ⟨0, 0, n⟩ ∧ f.args = args ∧
      f.outer = outer := by
  obtain ⟨is, hall, henter⟩ := next_start ht hentry hknown hstack hbudget
  obtain ⟨f, hsteps, hfn, hstands, htodo, hargs, houter, hsize, hslots⟩ :=
    steps_slots (s := s.charged.withTop _ rest) (f := { Frame.start t.func args outer with
      todo := some (is ++ t.func.body 0) }) (fun i hi => (hall i).2 hi) rfl rfl rfl
  refine ⟨f, .head henter hsteps, ⟨hfn, hstands.trans hentry, htodo, ?_, ?_⟩, hargs, houter⟩
  · rw [hsize]
    simp [Frame.start]
  · rw [hslots]
    simp [Frame.start]

/-- Where the function returns, its caller gets the result. -/
theorem step_quits {result : Option Nat} (hstack : s.stack = f :: rest) (hf : f.Stands g p)
    (hquits : g.Quits p result) :
    s.step = s.returnTo rest f.outer ((result.map f.value).getD .nil) := by
  obtain ⟨b, hb, hkind, _, hcontrols⟩ := exists_block hf hquits.known
  rw [step_end hstack hf hquits.last, leaveBlock, hb]
  simp only [hkind, hquits.kind, hcontrols, hquits.controls]
  cases result <;> rfl

theorem advance_of_next {s' : State} (h : s.Next s') : s.advance = .next s' := by
  unfold advance
  rw [show s.step = _ from h]

/-- A run that comes to an end does so with any fuel that is enough. -/
theorem run_of_steps {s' last : State} {x : Value} (h : s.Steps s')
    (hlast : s'.step = .done last (.ok x)) : ∃ n, ∀ fuel, n ≤ fuel →
      s.run fuel = some (last, .ok x) := by
  induction h using Relation.ReflTransGen.head_induction_on with
  | refl =>
      refine ⟨1, fun fuel hfuel => ?_⟩
      obtain ⟨k, rfl⟩ := Nat.exists_eq_add_of_le' hfuel
      rw [run, advance, hlast]
  | head hstep _ ih =>
      obtain ⟨n, hn⟩ := ih
      refine ⟨n + 1, fun fuel hfuel => ?_⟩
      obtain ⟨k, rfl⟩ := Nat.exists_eq_add_of_le' (Nat.le_of_add_left_le hfuel)
      rw [run, advance_of_next hstep]
      exact hn k (Nat.le_of_succ_le_succ hfuel)

end State

end ClassLang.Machine

/-!
One activation of a function. Whatever the calls do that it makes, its frame only changes as its
own code asks, so that it can be followed from frame to frame.
-/

namespace ClassLang.Machine

/-- The frame has begun to run its function. -/
def Frame.Begun (f : Frame) : Prop := f.todo = none → f.origin ≠ none

/-- The activation above the frames `rest` is under way. -/
def Lives (rest fs : List Frame) : Prop := ∃ above f, fs = above ++ f :: rest ∧ f.Begun

section

variable {rest above fs gs : List Frame} {f : Frame} {fn : Graph.Func} {args : List Value}
  {outer : Option Waiting}

theorem Lives.length_lt (h : Lives rest fs) : rest.length < fs.length := by
  obtain ⟨above, f, rfl, -⟩ := h
  simp only [List.length_append, List.length_cons]
  omega

/-- A function that is called anew is another activation. -/
theorem Lives.not_start (h : Lives rest (.start fn args outer :: gs)) : ¬ gs <:+ rest := by
  obtain ⟨above, f, heq, hbegun⟩ := h
  intro hsuffix
  have hlength := hsuffix.length_le
  have hlengths := congrArg List.length heq
  simp only [List.length_append, List.length_cons] at hlengths
  obtain rfl : above = [] := List.length_eq_zero_iff.1 (by omega)
  obtain ⟨rfl, -⟩ := List.cons.inj heq
  exact hbegun rfl rfl

/-- As long as an activation is under way, its frame stays while it waits for a call, and else it
changes as its code asks. -/
theorem Shift.follows (h : Shift (above ++ f :: rest) fs) (hwaits : above ≠ [] → f.Calls)
    (hlives : Lives rest fs) :
    (∃ above', above' ≠ [] ∧ fs = above' ++ f :: rest ∧ f.Calls) ∨
      ∃ f', f.Next f' ∧ fs = f' :: rest := by
  have hgiven : ∀ {v todo x}, above ≠ [] → f.todo = some (v :: todo) → f.Next (f.given v x todo) := by
    intro v todo x habove htodo
    obtain ⟨w, i, todo', hat, hcall⟩ := hwaits habove
    obtain ⟨rfl, rfl⟩ := List.cons.inj (Option.some.inj (hat.todo.symm.trans htodo))
    exact .given hat (ne_alloca_of_isCall hcall)
  have hbelow : ∀ {gs}, gs <:+ (above ++ f :: rest).tail → gs <:+ rest ∨ gs = f :: rest ∧ above ≠ [] ∨
      ∃ front, front ≠ [] ∧ gs = front ++ f :: rest ∧ above ≠ [] := by
    intro gs hgs
    cases above with
    | nil => exact Or.inl hgs
    | cons a above =>
        rcases List.suffix_or_suffix_of_suffix hgs (List.suffix_append above (f :: rest)) with h | h
        · rcases List.suffix_cons_iff.1 h with h | h
          · exact Or.inr (Or.inl ⟨h, by simp⟩)
          · exact Or.inl h
        · obtain ⟨front, rfl⟩ := h
          by_cases hfront : front = []
          · exact Or.inr (Or.inl ⟨by simp [hfront], by simp⟩)
          · exact Or.inr (Or.inr ⟨front, hfront, rfl, by simp⟩)
  cases h with
  | @top g g' _ stack next =>
      cases above with
      | nil =>
          obtain ⟨rfl, rfl⟩ := List.cons.inj stack
          exact Or.inr ⟨g', next, rfl⟩
      | cons a above =>
          obtain ⟨rfl, rfl⟩ := List.cons.inj stack
          exact Or.inl ⟨g' :: above, by simp, rfl, hwaits (by simp)⟩
  | @back g _ v todo x below waits =>
      rcases hbelow below with h | ⟨h, habove⟩ | ⟨front, hfront, h, habove⟩
      · exact absurd h.length_le (Nat.not_le_of_lt hlives.length_lt)
      · obtain ⟨rfl, rfl⟩ := List.cons.inj h
        exact Or.inr ⟨_, hgiven habove waits, rfl⟩
      · cases front with
        | nil => exact absurd rfl hfront
        | cons a front =>
            obtain ⟨rfl, rfl⟩ := List.cons.inj h
            exact Or.inl ⟨g.given v x todo :: front, by simp, rfl, hwaits habove⟩
  | @push f' rest' fn args outer stack calls =>
      refine Or.inl ⟨.start fn args outer :: above, by simp, rfl, ?_⟩
      cases above with
      | nil =>
          obtain ⟨rfl, -⟩ := List.cons.inj stack
          exact calls
      | cons => exact hwaits (by simp)
  | @again gs fn args outer below =>
      rcases hbelow below with h | ⟨rfl, habove⟩ | ⟨front, -, rfl, habove⟩
      · exact absurd h hlives.not_start
      · exact Or.inl ⟨[.start fn args outer], by simp, rfl, hwaits habove⟩
      · exact Or.inl ⟨.start fn args outer :: front, by simp, rfl, hwaits habove⟩

end

namespace State

/-- From `s` the run gets to `s'`, where `P` comes to hold, while the activation above `rest` is under
way. -/
inductive Gets (rest : List Frame) (P : State → Prop) : State → State → Prop
  | here {s : State} (holds : P s) : Gets rest P s s
  | next {s t s' : State} (before : ¬ P s) (advance : s.advance = .next t)
      (lives : Lives rest t.stack) (more : Gets rest P t s') : Gets rest P s s'

end State

namespace Frame

/-- In the next `n` changes of the frame `I` holds until `Q` does. -/
def Until (I Q : Frame → Prop) : Nat → Frame → Prop
  | 0, _ => True
  | n + 1, f => Q f ∨ I f ∧ ∀ f', f.Next f' → Until I Q n f'

namespace Until

variable {I Q R : Frame → Prop} {m n : Nat} {f : Frame}

theorem mono (h : Until I Q n f) (hle : m ≤ n) : Until I Q m f := by
  induction n generalizing m f with
  | zero =>
      obtain rfl := Nat.le_zero.1 hle
      trivial
  | succ n ih =>
      cases m with
      | zero => trivial
      | succ m =>
          exact h.imp_right fun ⟨hI, hnext⟩ =>
            ⟨hI, fun f' hf' => ih (hnext f' hf') (Nat.le_of_succ_le_succ hle)⟩

theorem trans (h : Until I Q n f) (hQ : ∀ f', Q f' → Until I R n f') : Until I R n f := by
  induction n generalizing f with
  | zero => trivial
  | succ n ih =>
      rcases h with h | ⟨hI, hnext⟩
      · exact hQ f h
      · exact Or.inr ⟨hI, fun f' hf' =>
          ih (hnext f' hf') fun f'' hf'' => (hQ f'' hf'').mono (Nat.le_succ n)⟩

end Until

end Frame

/-- What holds of the frame of an activation until `Q` does, holds where the run comes to `P`, if it
does so no later than to `Q`. -/
theorem State.Gets.until {rest : List Frame} {P : State → Prop} {I Q : Frame → Prop} {s s' : State}
    (h : s.Gets rest P s') (hQ : ∀ (t : State) f, t.stack = f :: rest → Q f → P t)
    {above : List Frame} {f f' : Frame} (hstack : s.stack = above ++ f :: rest)
    (hwaits : above ≠ [] → f.Calls ∧ ¬ Q f) (huntil : ∀ n, f.Until I Q n)
    (hstack' : s'.stack = f' :: rest) : I f' ∨ Q f' := by
  induction h generalizing above f with
  | here _ =>
      have hlength := congrArg List.length (hstack.symm.trans hstack')
      simp only [List.length_append, List.length_cons] at hlength
      obtain rfl : above = [] := List.length_eq_zero_iff.1 (by omega)
      obtain ⟨rfl, -⟩ := List.cons.inj (hstack.symm.trans hstack')
      exact ((huntil 1).imp_right And.left).symm
  | @next s t _ before advance lives _ ih =>
      have hnot : ¬ Q f := by
        by_cases habove : above = []
        · exact fun hf => before (hQ s f (by rw [hstack, habove]; rfl) hf)
        · exact (hwaits habove).2
      have hshift := (Goes.of_advance advance).shift
      rw [hstack] at hshift
      rcases hshift.follows (fun habove => (hwaits habove).1) lives with
        ⟨above', -, ht, hcalls⟩ | ⟨g, hnext, ht⟩
      · exact ih ht (fun _ => ⟨hcalls, hnot⟩) huntil hstack'
      · exact @ih [] g ht (fun h => absurd rfl h)
          (fun n => ((huntil (n + 1)).resolve_left hnot).2 g hnext) hstack'

end ClassLang.Machine
