import ClassLang.Graph.Lower
import ClassLang.Machine
import ClassLang.Proofs.Check.Result
import ClassLang.Proofs.Layout.Dispatch
import ClassLang.Proofs.Tree.Encoded
import ClassLang.Proofs.Typing

/-!
Direct calls are sound. A call of a method is direct if the hierarchy of its receiver
holds one method of that name; then every class that the receiver can be of runs this
method, and looking it up in the dispatch table of the receiver would lead to it too.
-/

namespace ClassLang

/-! Hierarchies -/

namespace Table

variable {t : Table} {i j : Nat} {name : String} {m : Method}

/-- An ancestor has the same root. -/
theorem root_of_mem_chain (h : t.Linked) (hi : i < t.classes.length) (hj : j ∈ t.chain i) :
    t.root j = t.root i := by
  obtain ⟨l, hl, hsuffix⟩ := (h.ancestry hi).exists_suffix hj
  have hchain : t.chain j = l := (h.ancestry (h.lt_of_mem_chain hi hj)).unique hl
  obtain ⟨before, hbefore⟩ := hsuffix
  have hne : l ≠ [] := by cases hl <;> simp
  unfold root
  rw [hchain, ← hbefore, List.getLast?_append_of_ne_nil _ hne]
  cases hlast : l.getLast? with
  | none => exact absurd (List.getLast?_eq_none_iff.1 hlast) hne
  | some r => rfl

/-- What a lookup finds is one of the methods of the hierarchy. -/
theorem lookupMethod_mem_implementations (h : t.Linked) (hi : i < t.classes.length)
    (hm : t.lookupMethod i name = some m) : m ∈ t.implementations i name := by
  obtain ⟨c, hc, hm⟩ := List.exists_of_findSome?_eq_some hm
  obtain ⟨j, hj, hclass⟩ := List.mem_filterMap.1 hc
  refine List.mem_filterMap.2 ⟨j, List.mem_filter.2 ⟨?_, ?_⟩, by simp [hclass, hm]⟩
  · exact h.order_perm.mem_iff.2 (List.mem_range.2 (h.lt_of_mem_chain hi hj))
  · simpa using root_of_mem_chain h hi hj

/-- If the hierarchy holds one method of a name, all its classes that have such a method
have this one. -/
theorem lookupMethod_of_direct (h : t.Linked) (ho : t.Overrides) (hi : i < t.classes.length)
    (hj : t.isAncestor j i = true) (hdirect : Check.dispatch t j name = .direct)
    (hm : t.lookupMethod j name = some m) : t.lookupMethod i name = some m := by
  obtain ⟨m', hm', _⟩ := lookupMethod_of_isAncestor h ho hi hj hm
  have hmem := lookupMethod_mem_implementations h
    (h.lt_of_mem_chain hi (isAncestor_iff.1 hj)) hm
  have hmem' := lookupMethod_mem_implementations h hi hm'
  unfold implementations at hmem hmem'
  rw [← root_of_mem_chain h hi (isAncestor_iff.1 hj)] at hmem'
  have hone : (t.implementations j name).length ≤ 1 := by
    unfold Check.dispatch at hdirect
    split at hdirect
    · cases hdirect
    · omega
  obtain rfl : m = m' := by
    unfold implementations at hone
    generalize List.filterMap _ _ = found at hmem hmem' hone
    obtain _ | ⟨x, _ | ⟨y, more⟩⟩ := found <;> simp_all
  exact hm'

end Table

/-! Calls by the machine -/

namespace Machine

open ClassLang.Graph (Instr)

/-- The instruction of a direct call of `m` on `recv`. -/
structure CallsDirectly (m : Method) (recv : Nat) (args : List Nat) (v : Instr) : Prop where
  op : v.op = .callDirect
  args : v.args = (recv :: args).map some
  callee : v.aux = some (.callee (.func m.ref))

/-- The instructions `i`, `j` and `k` of a function call through the dispatch table of
`recv`. The first two compute values that are not among the operands. -/
structure CallsThroughTable (slot : Nat) (recv : Nat) (args : List Nat) (fn : Graph.Func)
    (i j k : Nat) : Prop where
  table : ∃ v, fn.instr? i = some v ∧ v.op = .dispatchTable ∧ v.args = [some recv]
  entry : ∃ v, fn.instr? j = some v ∧ v.op = .dispatchEntry ∧ v.args = [some i] ∧
    v.number = Int64.ofInt slot
  call : ∃ v, fn.instr? k = some v ∧ v.op = .callIndirect ∧
    v.args = (j :: recv :: args).map some
  fresh : i ∉ recv :: args ∧ j ∉ recv :: args

namespace Frame

variable {f : Frame} {i : Nat} {x : Value}

theorem operands_map_some (f : Frame) (args : List Nat) :
    f.operands (args.map some) = args.map f.value := by
  simp [operands]

theorem object_eq {heap : Array Object} {v : Instr} {recv ref : Nat} {o : Object}
    (hargs : v.args = [some recv]) (hrecv : f.value recv = .obj ref) (ho : heap[ref]? = some o) :
    f.object heap v = .ok (ref, o) := by
  simp only [object, operand, hargs, List.getElem?_cons_zero, hrecv, ho, Bind.bind, Except.bind,
    Pure.pure, Except.pure]

/-- The frame behind the instruction `i`, which gave the value `x`. -/
def after (f : Frame) (i : Nat) (x : Value) (todo : List Nat) : Frame :=
  { f with values := f.values.setIfInBounds i (some x), todo := some todo }

theorem value_after_ne {j : Nat} (h : i ≠ j) (todo : List Nat) :
    (f.after i x todo).value j = f.value j := by
  simp [after, value, Array.getD_eq_getD_getElem?, Array.getElem?_setIfInBounds_ne h]

theorem value_after_self (h : i < f.values.size) (todo : List Nat) :
    (f.after i x todo).value i = x := by
  simp [after, value, Array.getD_eq_getD_getElem?, h]

theorem map_value_after {args : List Nat} (h : i ∉ args) (todo : List Nat) :
    args.map (f.after i x todo).value = args.map f.value :=
  List.map_congr_left fun _ hj => value_after_ne (ne_of_mem_of_not_mem hj h).symm todo

end Frame

namespace State

/-- The top frame of `s` is `f`, which goes on with the instructions `is`. -/
def At (s : State) (f : Frame) (is : List Nat) : Prop :=
  ∃ rest todo, s.stack = f :: rest ∧ f.todo = some (is ++ todo)

end State

/-- What the two ways to call a method come to on a receiver with the dispatch table of
`l`: the direct call of `m`, and the call of what stands in `slot`. Both call `m`, with the
receiver and the arguments that the frame holds. -/
structure CallsAgree (m : Method) (slot : Nat) (l : ClassLayout) : Prop where
  direct : ∀ {s : State} {f : Frame} {i recv : Nat} {args : List Nat} {v : Instr},
    s.At f [i] → f.fn.instr? i = some v → CallsDirectly m recv args v →
      s.step = s.call (.func m.ref) ((recv :: args).map f.value)
  throughTable : ∀ {s : State} {f : Frame} {i j k recv ref : Nat} {args : List Nat} {o : Object},
    s.At f [i, j, k] → CallsThroughTable slot recv args f.fn i j k →
      f.fn.instrs.size ≤ f.values.size → f.value recv = .obj ref →
      s.machine.heap[ref]? = some o → o.dispatch = some l →
      ∃ s₁ s₂, s.step = .next s₁ ∧ s₁.step = .next s₂ ∧ s₂.machine = s.machine ∧
        s₂.step = s₂.call (.func m.ref) ((recv :: args).map f.value)

namespace State

variable {s : State} {f : Frame} {rest : List Frame} {v : Nat} {todo : List Nat} {x : Instr}

theorem step_instr (hs : s.stack = f :: rest) (htodo : f.todo = some (v :: todo))
    (hx : f.fn.instr? v = some x) {a : Action} (ha : action f s.machine.heap x = .ok a) :
    s.step = s.perform f rest v a := by
  simp [step, hs, htodo, hx, ha]

theorem step_give (hs : s.stack = f :: rest) (htodo : f.todo = some (v :: todo))
    (hx : f.fn.instr? v = some x) {y : Value} (ha : action f s.machine.heap x = .ok (.give y)) :
    s.step = .next { s with stack := f.after v y todo :: rest } := by
  rw [step_instr hs htodo hx ha]
  simp [perform, deliver, hs, htodo, Frame.after]

theorem step_direct {m : Method} {recv : Nat} {args : List Nat} (hs : s.stack = f :: rest)
    (htodo : f.todo = some (v :: todo)) (hx : f.fn.instr? v = some x)
    (hcall : CallsDirectly m recv args x) :
    s.step = s.call (.func m.ref) ((recv :: args).map f.value) := by
  have ha : action f s.machine.heap x =
      .ok (.call (.func m.ref) ((recv :: args).map f.value)) := by
    simp only [action, hcall.op, Instr.callee?, hcall.callee, hcall.args, f.operands_map_some]
  rw [step_instr hs htodo hx ha, perform]

/-- A call through the dispatch table of an object takes two steps to find the method, and
then calls it. -/
theorem steps_throughTable {m : Method} {slot recv : Nat} {args : List Nat} {i j k : Nat}
    {ref : Nat} {o : Object} {l : ClassLayout} (hs : s.stack = f :: rest)
    (htodo : f.todo = some (i :: j :: k :: todo))
    (hcall : CallsThroughTable slot recv args f.fn i j k)
    (hi : i < f.values.size) (hj : j < f.values.size)
    (hrecv : f.value recv = .obj ref) (ho : s.machine.heap[ref]? = some o)
    (hl : o.dispatch = some l) (hm : l.method? slot = some m) (hslot : slot < 2 ^ 63) :
    ∃ s₁ s₂ f₂, s.step = .next s₁ ∧ s₁.step = .next s₂ ∧ s₂ = { s with stack := f₂ :: rest } ∧
      s₂.step = s₂.call (.func m.ref) ((recv :: args).map f.value) := by
  obtain ⟨x, hx, hop, hargs⟩ := hcall.table
  obtain ⟨y, hy, hop', hargs', hnumber⟩ := hcall.entry
  obtain ⟨z, hz, hop'', hargs''⟩ := hcall.call
  obtain ⟨hirest, hjrest⟩ := hcall.fresh
  let f₁ := f.after i (.table l) (j :: k :: todo)
  let f₂ := f₁.after j (.method m.ref) (k :: todo)
  let s₁ : State := { s with stack := f₁ :: rest }
  let s₂ : State := { s with stack := f₂ :: rest }
  have htable : action f s.machine.heap x = .ok (.give (.table l)) := by
    simp only [action, hop, Frame.object_eq hargs hrecv ho, hl, Bind.bind, Except.bind, Pure.pure,
      Except.pure]
  have hvalue : f₁.value i = .table l := Frame.value_after_self hi _
  have hnumber' : y.number.toInt = slot := by
    rw [hnumber]
    exact Int64.toInt_ofInt_of_le (by omega) (by omega)
  have hentry : action f₁ s₁.machine.heap y = .ok (.give (.method m.ref)) := by
    simp only [action, hop', Frame.operand, hargs', List.getElem?_cons_zero, hvalue, hnumber', hm,
      Bind.bind, Except.bind, Pure.pure, Except.pure]
  have hmethod : f₂.value j = .method m.ref :=
    Frame.value_after_self (by simpa [f₁, Frame.after] using hj) _
  have hsame : (recv :: args).map f₂.value = (recv :: args).map f.value := by
    rw [Frame.map_value_after hjrest, Frame.map_value_after hirest]
  have hoperand : f₂.operand z 0 = .ok (.method m.ref) := by
    simp only [Frame.operand, hargs'', List.map_cons, List.getElem?_cons_zero, hmethod]
  have hrest : z.args.tail = (recv :: args).map some := by
    rw [hargs'', List.map_cons, List.tail_cons]
  have hindirect : action f₂ s₂.machine.heap z =
      .ok (.call (.func m.ref) ((recv :: args).map f.value)) := by
    simp only [action, hop'', hoperand, hrest, f₂.operands_map_some, hsame, Bind.bind, Except.bind,
      Pure.pure, Except.pure]
  refine ⟨s₁, s₂, f₂, step_give hs htodo hx htable, ?_, rfl, ?_⟩
  · exact step_give (s := s₁) rfl rfl hy hentry
  · rw [step_instr (s := s₂) rfl rfl hz hindirect, perform]

end State

theorem instr?_lt {fn : Graph.Func} {i : Nat} {v : Instr} (h : fn.instr? i = some v) :
    i < fn.instrs.size := (Array.getElem?_eq_some_iff.1 h).1

theorem callsAgree {m : Method} {slot : Nat} {l : ClassLayout} (hm : l.method? slot = some m)
    (hslot : slot < 2 ^ 63) : CallsAgree m slot l where
  direct := by
    rintro s f i recv args v ⟨rest, todo, hs, htodo⟩ hv hcall
    exact State.step_direct hs htodo hv hcall
  throughTable := by
    rintro s f i j k recv ref args o ⟨rest, todo, hs, htodo⟩ hcall hsize hrecv ho hl
    obtain ⟨x, hx, _⟩ := hcall.table
    obtain ⟨y, hy, _⟩ := hcall.entry
    obtain ⟨s₁, s₂, f₂, hfirst, hsecond, rfl, hthird⟩ := State.steps_throughTable hs htodo hcall
      (Nat.lt_of_lt_of_le (instr?_lt hx) hsize) (Nat.lt_of_lt_of_le (instr?_lt hy) hsize)
      hrecv ho hl hm hslot
    exact ⟨s₁, _, hfirst, hsecond, rfl, hthird⟩

end Machine

/-! Calls as they are lowered -/

namespace Graph

open Build

variable {b : Builder} {args : List Nat}

theorem run_bind {α β : Type} (m : Build α) (g : α → Build β) (b : Builder) :
    (m >>= g).run b = (g (m.run b).1).run (m.run b).2 := rfl

theorem func_here (b : Builder) : (here.run b).2.func = b.func := by
  obtain ⟨func, current, slotCount, slots, faults⟩ := b
  cases current <;> rfl

/-- An instruction that is emitted comes behind all others. -/
theorem run_emitWith (b : Builder) (op : Op) (type : Option Ty) (args : List Nat) (pos : Pos)
    (number : Int64) (aux : Option Aux) : ∃ (b' : Builder) (v : Instr),
      (emitWith op type args pos number aux).run b = (b.func.instrs.size, b') ∧
      b'.func.instrs = b.func.instrs.push v ∧
      v.op = op ∧ v.args = args.map some ∧ v.number = number ∧ v.aux = aux := by
  have hrun : (emitWith op type args pos number aux).run b =
      (emitAt (here.run b).1 op type args pos number aux).run (here.run b).2 := rfl
  rw [hrun, ← func_here b]
  generalize here.run b = r
  let v : Instr :=
    { id := r.2.func.instrs.size, op, type, args := args.map some, block := r.1, number, aux, pos }
  exact ⟨_, v, rfl, rfl, rfl, rfl, rfl, rfl⟩

/-- A direct call ends with the instruction that calls the method. -/
theorem expr_direct (ls : Layouts) (x : Typed.Expr) (sel : Ident) (m : Method) (sig : Signature)
    (args : List Typed.Expr) (b : Builder) :
    let r := (Lower.expr ls (.invoke x sel .direct m sig args)).run b
    ∃ recv is v, r.2.func.instr? r.1 = some v ∧ Machine.CallsDirectly m recv is v := by
  let i := (Lower.expr ls x).run b
  let is := (Lower.exprs ls args).run i.2
  obtain ⟨b', v, hrun, hpush, hop, hargs, _, haux⟩ := run_emitWith is.2 .callDirect
    (some sig.result) (i.1 :: is.1) x.pos 0 (some (.callee (.func m.ref)))
  have hexpr : (Lower.expr ls (.invoke x sel .direct m sig args)).run b =
      (is.2.func.instrs.size, b') := by
    rw [← hrun]
    simp only [Lower.expr]
    rfl
  refine ⟨i.1, is.1, v, ?_, hop, hargs, haux⟩
  simp [hexpr, Func.instr?, hpush]

/-- Any other call ends with the three instructions that look the method up. -/
theorem virtualCall_throughTable {ls : Layouts} {name : String} {slot : Nat}
    (hslot : ls.slot? name = some slot) (sig : Signature) (pos : Pos) {recv : Nat}
    (hargs : ∀ i ∈ recv :: args, i < b.func.instrs.size) :
    let r := (Lower.virtualCall ls name sig pos recv args).run b
    Machine.CallsThroughTable slot recv args r.2.func b.func.instrs.size
      (b.func.instrs.size + 1) r.1 := by
  let n := b.func.instrs.size
  obtain ⟨b₁, v₁, hrun₁, hpush₁, hop₁, hargs₁, _⟩ :=
    run_emitWith b .dispatchTable none [recv] pos 0 none
  have hsize₁ : b₁.func.instrs.size = n + 1 := by simp [hpush₁, n]
  obtain ⟨b₂, v₂, hrun₂, hpush₂, hop₂, hargs₂, hnumber, _⟩ := run_emitWith b₁ .dispatchEntry
    (some sig.ty) [n] pos (Int64.ofInt slot) (some (.text name))
  have hsize₂ : b₂.func.instrs.size = n + 2 := by simp [hpush₂, hsize₁]
  obtain ⟨b₃, v₃, hrun₃, hpush₃, hop₃, hargs₃, _⟩ := run_emitWith b₂ .callIndirect
    (some sig.result) ((n + 1) :: recv :: args) pos 0 none
  rw [hsize₁] at hrun₂
  rw [hsize₂] at hrun₃
  have hrun : (Lower.virtualCall ls name sig pos recv args).run b = (n + 2, b₃) := by
    unfold Lower.virtualCall
    rw [hslot]
    change (emitWith .dispatchTable none [recv] pos 0 none >>= fun table =>
      emitWith .dispatchEntry (some sig.ty) [table] pos (Int64.ofInt slot) (some (.text name)) >>=
        fun entry =>
          emitWith .callIndirect (some sig.result) (entry :: recv :: args) pos 0 none).run
          b = _
    rw [run_bind, hrun₁, run_bind, hrun₂, hrun₃]
  have hnew : n ∉ recv :: args ∧ n + 1 ∉ recv :: args :=
    ⟨fun hmem => absurd (hargs n hmem) (by omega), fun hmem => absurd (hargs _ hmem) (by omega)⟩
  rw [hrun]
  refine ⟨⟨v₁, ?_, hop₁, hargs₁⟩, ⟨v₂, ?_, hop₂, hargs₂, hnumber⟩, ⟨v₃, ?_, hop₃, hargs₃⟩, hnew⟩
  all_goals
    simp only [Func.instr?, hpush₃, hpush₂, hpush₁]
    grind

end Graph

/-! Direct calls in a checked unit -/

/-- What a direct call in a well typed unit is known to be: the receiver has a class, whose
hierarchy has no other method of that name. -/
theorem Typed.File.Ok.direct {u : Typed.File} (h : u.Ok) {g : Typed.Func} (hg : g ∈ u.bodies)
    {x : Typed.Expr} {sel : Ident} {m : Method} {sig : Signature} {args : List Typed.Expr}
    (hsite : g.Holds (.invoke x sel .direct m sig args)) :
    ∃ c, u.table.classOf? x.ty = some c ∧ u.table.lookupMethod c.id sel.text = some m ∧
      Check.dispatch u.table c.id sel.text = .direct := by
  obtain ⟨Δ, vs, hok⟩ := h.holds hg hsite
  generalize hkind : CallKind.direct = kind at hok
  cases hok with
  | invoke receiver cls method => exact ⟨_, cls, method, rfl⟩
  | invokeBound => cases hkind

/-- Direct calls are sound. Where a checked text calls a method `m` directly, each class
that the receiver can be of finds `m` under that name, in its chain as in its dispatch table.
The call is lowered to one instruction that calls `m`; the sequence that a call through the
table is lowered to calls `m` as well, with the same receiver and arguments, whichever of
these classes the receiver is of. -/
theorem direct_calls_sound {name : String} {bytes : List UInt8} {limit : Option Nat}
    {typed : Typed.File} (hparse : (parseFile name bytes).reports = [])
    (hcheck : (parseFile name bytes).file.check limit = .ok typed) (hlimit : limit ≠ some 0)
    {g : Typed.Func} (hg : g ∈ typed.bodies) {x : Typed.Expr} {sel : Ident} {m : Method}
    {sig : Signature} {args : List Typed.Expr}
    (hsite : g.Holds (.invoke x sel .direct m sig args)) :
    let t := typed.table
    let ls := Layouts.build t
    (∀ b, let r := (Graph.Lower.expr ls (.invoke x sel .direct m sig args)).run b
      ∃ recv is v, r.2.func.instr? r.1 = some v ∧ Machine.CallsDirectly m recv is v) ∧
    ∃ c, t.classOf? x.ty = some c ∧
      ∀ d ∈ t.classes, t.isAncestor c.id d.id = true →
        t.lookupMethod d.id sel.text = some m ∧
        ∃ l slot, ls.named? d.name = some l ∧ ls.slot? sel.text = some slot ∧
          l.method? slot = some m ∧
          (∀ (b : Graph.Builder) (pos : Pos) (recv : Nat) (is : List Nat),
            (∀ i ∈ recv :: is, i < b.func.instrs.size) →
            let r := (Graph.Lower.virtualCall ls sel.text sig pos recv is).run b
            Machine.CallsThroughTable slot recv is r.2.func b.func.instrs.size
              (b.func.instrs.size + 1) r.1) ∧
          (bytes.length < 2 ^ 63 → Machine.CallsAgree m slot l) := by
  intro t ls
  have hok : typed.Ok := checked_ok hparse hcheck hlimit
  have hwell : t.WellTyped := hok.sound.table
  have hlinked := hwell.linked
  obtain ⟨c, hc, hm, hdirect⟩ := hok.direct hg hsite
  refine ⟨Graph.expr_direct ls x sel m sig args, c, hc, fun d hd hdesc => ?_⟩
  have hi := Table.class?_eq_some_lt (hlinked.class?_id hd)
  have hlookup := Table.lookupMethod_of_direct hlinked hwell.overrides hi hdesc hdirect hm
  obtain ⟨l, slot, hnamed, hslot, hentry⟩ := Layouts.exists_entry hlinked hd hlookup
  refine ⟨hlookup, l, slot, hnamed, hslot, hentry, fun b pos recv is his => ?_, fun hbytes => ?_⟩
  · exact Graph.virtualCall_throughTable hslot sig pos his
  · obtain ⟨names, hlength, hnames⟩ := checked_method_names hparse hcheck hlimit
    have hlt := Layouts.slot_lt_of_lookupMethod hlinked hnames hi hlookup hslot
    exact Machine.callsAgree hentry (by omega)

/-- A text with a call of the only method of its hierarchy. -/
def directText : List UInt8 :=
  "class A{fun m(self){}} class B:A{} fun f(a:A){a.m();}".toUTF8.toList

/-- The method that a body of one direct call names. -/
def directMethod? (b : Typed.Block) : Option Method :=
  match b.stmts with
  | [.expr (.invoke _ _ .direct m _ _)] => some m
  | _ => none

theorem directMethod?_eq_some {b : Typed.Block} {m : Method} (h : directMethod? b = some m) :
    ∃ x sel sig args, b.stmts = [.expr (.invoke x sel .direct m sig args)] := by
  unfold directMethod? at h
  split at h
  next hstmts =>
    cases h
    exact ⟨_, _, _, _, hstmts⟩
  next => cases h

theorem directText_sound : ∃ (typed : Typed.File) (g : Typed.Func) (x : Typed.Expr)
    (sel : Ident) (m : Method) (sig : Signature) (args : List Typed.Expr),
    (parseFile "t" directText).reports = [] ∧
    (parseFile "t" directText).file.check none = .ok typed ∧ g ∈ typed.bodies ∧
    g.Holds (.invoke x sel .direct m sig args) ∧
    typed.table.classes.length = 2 ∧
    ∃ c, typed.table.classOf? x.ty = some c ∧
      ∀ d ∈ typed.table.classes, typed.table.isAncestor c.id d.id = true →
        typed.table.lookupMethod d.id sel.text = some m := by
  have hrun : (fun r : Parsed => (r.reports, (r.file.check none).toOption.map fun typed =>
      typed.bodies.getLast?.bind fun g => g.body.bind fun b =>
        (directMethod? b).map fun m => (m.name, typed.table.classes.length)))
          (parseFile "t" directText) = ([], some (some ("m", 2))) := by
    rw [directText, parseFile_ofList]
    decide +kernel
  obtain ⟨hparse, typed, hcheck, hsite⟩ := Parsed.exists_checked hrun
  simp only [Option.bind_eq_some_iff, Option.map_eq_some_iff] at hsite
  obtain ⟨g, hg, b, hb, m, hm, hnames⟩ := hsite
  obtain ⟨x, sel, sig, args, hstmts⟩ := directMethod?_eq_some hm
  have hg : g ∈ typed.bodies := List.mem_of_getLast? hg
  have hholds : g.Holds (.invoke x sel .direct m sig args) :=
    ⟨b, hb, _, hstmts ▸ List.mem_singleton.2 rfl, .own (List.mem_singleton.2 rfl) .refl⟩
  obtain ⟨_, c, hc, hclasses⟩ :=
    direct_calls_sound hparse hcheck (by simp) hg hholds
  exact ⟨typed, g, x, sel, m, sig, args, hparse, hcheck, hg, hholds, (Prod.mk.inj hnames).2, c,
    hc, fun d hd hdesc => (hclasses d hd hdesc).1⟩

end ClassLang
