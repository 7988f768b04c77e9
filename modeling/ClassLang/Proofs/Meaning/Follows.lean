import ClassLang.Proofs.Machine.Spot
import ClassLang.Proofs.Meaning.Direct
import ClassLang.Proofs.Meaning.Values

/-!
How the frame of an activation follows the course of its function. Each request of the course is
an instruction of the frame, and the answers to it are the values that the instruction can have;
all other steps of the frame are its own affair. What the frame relies on is what is known of the
objects of the heap, and that never becomes less while other functions run.
-/

namespace ClassLang

/-! Calls -/

namespace Typed.File

/-- In the function or method `g` the type parameters `ps` are known. -/
inductive Binds (u : File) (g : Func) : List TypeParam → Prop
  | func (mem : g ∈ u.funcs) (body : g ∈ u.bodies) : Binds u g g.header.sig.tparams
  | method {c : ClassInfo} {m : Method} (cls : c ∈ u.table.classes) (method : m ∈ c.methods)
      (body : g ∈ u.bodies) (impl : u.Implements c m g) : Binds u g c.tparams

namespace Binds

variable {u : File} {g : Func} {ps : List TypeParam}

theorem mem (h : u.Binds g ps) : g ∈ u.bodies := by
  cases h with
  | func _ body => exact body
  | method _ _ body _ => exact body

theorem ok (h : u.Binds g ps) (hu : u.Ok) : g.Ok (u.context ps) := by
  cases h with
  | func mem _ => exact (hu.funcs g mem).2.2.2
  | method _ _ _ impl => exact impl.ok

end Binds

end Typed.File

namespace Machine

open ClassLang.Graph (Callee Instr Spot)
open Direct (Course)

/-- Values have types, one by one. -/
def Values.Have (t : Table) (σ : Marks) (xs : List Value) (tys : List Ty) : Prop :=
  List.Forall₂ (fun x ty => x.Has t σ ty) xs tys

/-- A function is called with arguments of the types that it declares. Its result has the type
`R`. -/
inductive Accepts (u : Typed.File) (σ : Marks) : Callee → List Value → Ty → Prop
  | func {g : Typed.Func} {ps : List TypeParam} {as : List Ty} {xs : List Value}
      (binds : u.Binds g ps) (ground : u.table.Ground ps as)
      (args : Values.Have u.table σ xs (g.header.declared.map fun v => v.ty.subst ps as)) :
      Accepts u σ (.func g.ref) xs (g.header.sig.result.subst ps as)
  | host {g : Typed.Func} {xs : List Value} (mem : g ∈ u.hosts)
      (args : Values.Have u.table σ xs (g.header.declared.map (·.ty))) :
      Accepts u σ (.host g.decl.name.text) xs g.header.sig.result

theorem Values.Have.mono {t : Table} {σ σ' : Marks} {xs : List Value} {tys : List Ty}
    (h : Values.Have t σ xs tys) (hle : σ.Le σ') : Values.Have t σ' xs tys :=
  List.Forall₂.imp (fun _ _ h => h.mono hle) h

/-- The ways in which a run of a well typed unit can fail. -/
inductive Failure.Allowed : Failure → Prop
  | divideByZero {func : String} {pos : Pos} : Allowed (.runtime func pos .divideByZero)
  | tooDeep {func : String} {pos : Pos} {limit : Nat} : Allowed (.runtime func pos (.tooDeep limit))
  | noHost {func : String} {pos : Pos} : Allowed (.runtime func pos .noHost)
  | host {text : String} : Allowed (.host text)
  | cancelled : Allowed .cancelled

namespace Frame

/-- The next instruction neither makes an object nor makes one whole. -/
def Quiet (f : Frame) : Prop :=
  ∀ v w todo, f.At v w todo → w.op ≠ .alloc ∧ w.op ≠ .setDispatch

/-- `P` holds of every state with the frame on top in which what is known of the heap holds, and
of the frames below. -/
def On (f : Frame) (t : Table) (σ : Marks) (P : State → List Frame → Prop) : Prop :=
  ∀ (s : State) (rest : List Frame), s.stack = f :: rest → HeapOk t σ s.machine.heap → P s rest

theorem At.quiet {f : Frame} {v : Nat} {w : Instr} {todo : List Nat} (h : f.At v w todo)
    (halloc : w.op ≠ .alloc) (hdispatch : w.op ≠ .setDispatch) : f.Quiet := by
  intro v' w' todo' h'
  obtain ⟨rfl, rfl⟩ := List.cons.inj (Option.some.inj (h.todo.symm.trans h'.todo))
  obtain rfl : w = w' := Option.some.inj (h.instr.symm.trans h'.instr)
  exact ⟨halloc, hdispatch⟩

end Frame

/-- The frame follows a course whose result has the type `R`, where `σ` is known of the heap. The
course is not lost before `k` steps have been made. -/
inductive Follows (u : Typed.File) (R : Ty) : Nat → Marks → Course Value → Frame → Prop
  /-- A step that is no request. -/
  | pass {k : Nat} {σ : Marks} {c : Course Value} {f : Frame} (I : Frame → Prop) (quiet : f.Quiet)
      (step : f.On u.table σ fun s rest =>
        ∃ f', s.Next (s.withTop f' rest) ∧ f'.outer = f.outer ∧ I f')
      (next : ∀ f', I f' → Follows u R (k - 1) σ c f') : Follows u R k σ c f
  /-- A block is entered, which may be forbidden. -/
  | enter {k : Nat} {σ : Marks} {c : Course Value} {f : Frame} (I : Frame → Prop)
      (todo : f.todo = none)
      (step : f.On u.table σ fun s rest => s.budget ≠ some 0 →
        ∃ f', s.Next (s.charged.withTop f' rest) ∧ f'.outer = f.outer ∧ I f')
      (next : ∀ f', I f' → Follows u R (k - 1) σ c f') : Follows u R k σ c f
  | ret {k : Nat} {σ : Marks} {x : Value} {f : Frame} (quiet : f.Quiet) (typed : x.Has u.table σ R)
      (step : f.On u.table σ fun s rest => s.step = s.returnTo rest f.outer x) :
      Follows u R k σ (.done x) f
  | fail {k : Nat} {σ : Marks} {e : Failure} {f : Frame} (quiet : f.Quiet) (allowed : e.Allowed)
      (step : f.On u.table σ fun s _ => s.step = s.fail e) : Follows u R k σ (.fail e) f
  | lost {σ : Marks} {f : Frame} : Follows u R 0 σ .lost f
  | create {k : Nat} {σ : Marks} {cls : String} {next : Value → Course Value} {f : Frame} {v : Nat}
      {w : Instr} {todo : List Nat} {l : ClassLayout} {c : ClassInfo} {ty : Ty}
      (here : f.At v w todo) (alloc : w.op = .alloc) (owns : u.table.Owns c ty)
      (name : c.name = cls) (layout : (Layouts.build u.table).named? cls = some l)
      (step : f.On u.table σ fun s _ => s.step = (s.modifyHeap (·.push
        { layout := l, fields := Array.replicate l.fields.length .nil })).deliver
          (.obj s.machine.heap.size))
      (others : ∀ ref, σ ref = none → Follows u R (k - 1) (σ.set ref ⟨ty, [], false⟩)
        (next (.obj ref)) (f.given v (.obj ref) todo)) :
      Follows u R k σ (.create cls next) f
  /-- An object is made whole, which the course does not see. -/
  | finish {k : Nat} {σ : Marks} {course : Course Value} {f : Frame} {v : Nat} {w : Instr}
      {todo : List Nat} {l : ClassLayout} {c : ClassInfo} {ref : Nat} {m : Mark}
      (here : f.At v w todo) (dispatch : w.op = .setDispatch) (known : σ ref = some m)
      (cls : u.table.classOf? m.type = some c)
      (layout : (Layouts.build u.table).named? c.name = some l)
      (full : ∀ fd ∈ u.table.flatFields c.id, fd.name ∈ m.given)
      (object : f.On u.table σ fun s _ => ∃ o, f.object s.machine.heap w = .ok (ref, o))
      (step : f.On u.table σ fun s _ => s.step =
        (s.modifyHeap (·.modify ref fun o => { o with dispatch := some l })).deliver .nil)
      (next : Follows u R (k - 1) (σ.set ref m.finish) course (f.given v .nil todo)) :
      Follows u R k σ course f
  | get {k i : Nat} {σ : Marks} {name : String} {next : Value → Course Value} {f : Frame} {v : Nat}
      {w : Instr} {todo : List Nat} {c : ClassInfo} {ref : Nat} {m : Mark} {fd : Field}
      (here : f.At v w todo) (quiet : f.Quiet) (known : σ ref = some m)
      (cls : u.table.classOf? m.type = some c) (place : (u.table.flatFields c.id)[i]? = some fd)
      (named : fd.name = name) (whole : m.whole = true)
      (step : f.On u.table σ fun s _ => ∀ o y, s.machine.heap[ref]? = some o →
        o.fields[i]? = some y → s.step = s.deliver y)
      (others : ∀ y : Value, y.Has u.table σ (fd.ty.subst c.tparams m.type.args) →
        Follows u R (k - 1) σ (next y) (f.given v y todo)) :
      Follows u R k σ (.get (.obj ref) name next) f
  | set {k i : Nat} {σ : Marks} {name : String} {y : Value} {next : Course Value} {f : Frame}
      {v : Nat} {w : Instr} {todo : List Nat} {c : ClassInfo} {ref : Nat} {m : Mark} {fd : Field}
      (here : f.At v w todo) (quiet : f.Quiet) (known : σ ref = some m)
      (cls : u.table.classOf? m.type = some c) (place : (u.table.flatFields c.id)[i]? = some fd)
      (named : fd.name = name) (typed : y.Has u.table σ (fd.ty.subst c.tparams m.type.args))
      (step : f.On u.table σ fun s _ => s.step = (s.modifyHeap (·.modify ref fun o =>
        { o with fields := o.fields.setIfInBounds i y })).deliver .nil)
      (others : Follows u R (k - 1) (σ.set ref (m.give name)) next (f.given v .nil todo)) :
      Follows u R k σ (.set (.obj ref) name y next) f
  | call {k : Nat} {σ : Marks} {target : Callee} {args : List Value} {T : Ty}
      {next : Value → Course Value} {f : Frame} {v : Nat} {w : Instr} {todo : List Nat}
      (here : f.At v w todo) (quiet : f.Quiet) (accepts : Accepts u σ target args T)
      (step : f.On u.table σ fun s _ => s.step = s.call target args)
      (others : ∀ σ' x, σ.Le σ' → x.Has u.table σ' T →
        Follows u R (k - 1) σ' (next x) (f.given v x todo)) :
      Follows u R k σ (.call target args next) f
  /-- The method is the one that the class of the object has. -/
  | invoke {k : Nat} {σ : Marks} {name : String} {args : List Value} {next : Value → Course Value}
      {f : Frame} {c : ClassInfo} {ref : Nat} {m : Mark} {found : Method} (known : σ ref = some m)
      (cls : u.table.classOf? m.type = some c)
      (method : u.table.lookupMethod c.id name = some found)
      (resolved : Follows u R k σ (.call (.func found.ref) (.obj ref :: args) next) f) :
      Follows u R k σ (.invoke (.obj ref) name args next) f

namespace Follows

variable {u : Typed.File} {R : Ty} {j k : Nat} {σ : Marks} {c : Course Value} {f : Frame}

/-- Fewer steps are followed as well. -/
theorem mono (h : Follows u R k σ c f) (hle : j ≤ k) : Follows u R j σ c f := by
  induction h generalizing j with
  | pass I quiet step _ ih => exact .pass I quiet step fun f' hf' => ih f' hf' (by omega)
  | enter I todo step _ ih => exact .enter I todo step fun f' hf' => ih f' hf' (by omega)
  | ret quiet typed step => exact .ret quiet typed step
  | fail quiet allowed step => exact .fail quiet allowed step
  | lost =>
      obtain rfl := Nat.le_zero.1 hle
      exact .lost
  | create here alloc owns name layout step _ ih =>
      exact .create here alloc owns name layout step fun ref hnone => ih ref hnone (by omega)
  | finish here dispatch known cls layout full object step _ ih =>
      exact .finish here dispatch known cls layout full object step (ih (by omega))
  | get here quiet known cls place named whole step _ ih =>
      exact .get here quiet known cls place named whole step fun y hy => ih y hy (by omega)
  | set here quiet known cls place named typed step _ ih =>
      exact .set here quiet known cls place named typed step (ih (by omega))
  | call here quiet accepts step _ ih =>
      exact .call here quiet accepts step fun σ' x hle hx => ih σ' x hle hx (by omega)
  | invoke known cls method _ ih => exact .invoke known cls method (ih hle)

end Follows

/-! Spots -/

namespace Frame

/-- From `f` on the frame has come to the spot `q`. The values of the first `n` instructions have
been kept, and so have the slots. -/
structure Comes (f : Frame) (g : Graph.Func) (n : Nat) (q : Spot) (f' : Frame) : Prop where
  stands : f'.Stands g q
  keeps : f.Keeps n f'
  slots : f'.slots = f.slots

variable {f f' f'' : Frame} {g : Graph.Func} {p q r : Spot} {m n : Nat} {w : Instr}

namespace Comes

theorem refl (h : f.Stands g p) (n : Nat) : f.Comes g n p f := ⟨h, .refl n f, rfl⟩

theorem trans (h : f.Comes g n q f') (h' : f'.Comes g m r f'') (hle : n ≤ m) :
    f.Comes g n r f'' :=
  ⟨h'.stands, h.keeps.trans (h'.keeps.narrow hle), h'.slots.trans h.slots⟩

theorem narrow (h : f.Comes g n q f') (hle : m ≤ n) : f.Comes g m q f' :=
  ⟨h.stands, h.keeps.narrow hle, h.slots⟩

end Comes

/-- The frame behind the instruction at the spot `p`, which has got the value `x`. -/
def past (f : Frame) (g : Graph.Func) (p : Spot) (x : Value) : Frame :=
  f.given p.count x ((g.body p.block).drop p.next.index)

theorem Stands.past (h : f.Stands g p) (x : Value) : f.Comes g p.count p.next (f.past g p x) :=
  ⟨h.given x p.count, .given p.count f x _, rfl⟩

theorem value_past (h : f.Stands g p) (hw : g.Holds p w) (x : Value) :
    (f.past g p x).value p.count = x :=
  h.value_given hw x _

end Frame

namespace State

variable {s : State} {f : Frame} {rest : List Frame} {g : Graph.Func} {p : Spot} {w : Instr}
  {e : Failure}

/-- The instruction at the spot of the top frame fails. -/
theorem step_fails (hstack : s.stack = f :: rest) (hf : f.Stands g p) (hw : g.Holds p w)
    (haction : action f s.machine.heap w = .error e) : s.step = s.fail e := by
  have hat := hf.at_ hw
  unfold step
  rw [hstack]
  dsimp only
  rw [hat.todo]
  dsimp only
  rw [hat.instr]
  dsimp only
  rw [haction]

end State

namespace Follows

variable {u : Typed.File} {R : Ty} {j k n : Nat} {σ : Marks} {c : Course Value} {f : Frame}
  {t : Graph.Builder} {g : Graph.Func} {p q r : Spot} {w : Instr} {x : Value} {e : Failure}

/-- The instruction at the spot has a value. -/
theorem gives (hf : f.Stands g p) (hw : g.Holds p w) (halloc : w.op ≠ .alloc)
    (hdispatch : w.op ≠ .setDispatch)
    (haction : f.On u.table σ fun s _ => action f s.machine.heap w = .ok (.give x))
    (h : Follows u R (k - 1) σ c (f.past g p x)) : Follows u R k σ c f := by
  refine .pass (· = f.past g p x) ((hf.at_ hw).quiet halloc hdispatch) ?_ ?_
  · intro s rest hs hheap
    exact ⟨_, State.next_give hs hf hw (haction s rest hs hheap), rfl, rfl⟩
  · rintro _ rfl
    exact h

/-- The instruction at the spot stores a value into a slot. -/
theorem stores {slot : Nat} (hf : f.Stands g p) (hw : g.Holds p w) (halloc : w.op ≠ .alloc)
    (hdispatch : w.op ≠ .setDispatch)
    (haction : f.On u.table σ fun s _ => action f s.machine.heap w = .ok (.store slot x))
    (h : Follows u R (k - 1) σ c ((f.stored slot x).past g p .nil)) : Follows u R k σ c f := by
  refine .pass (· = (f.stored slot x).past g p .nil) ((hf.at_ hw).quiet halloc hdispatch) ?_ ?_
  · intro s rest hs hheap
    exact ⟨_, State.next_store hs hf hw (haction s rest hs hheap), rfl, rfl⟩
  · rintro _ rfl
    exact h

/-- The instruction at the spot fails. -/
theorem fails (hf : f.Stands g p) (hw : g.Holds p w) (halloc : w.op ≠ .alloc)
    (hdispatch : w.op ≠ .setDispatch) (allowed : e.Allowed)
    (haction : f.On u.table σ fun s _ => action f s.machine.heap w = .error e) :
    Follows u R k σ (.fail e) f :=
  .fail ((hf.at_ hw).quiet halloc hdispatch) allowed fun s rest hs hheap =>
    State.step_fails hs hf hw (haction s rest hs hheap)

/-- At the end of a block nothing is made. -/
theorem quiet_of_end (hf : f.Stands g p) (hlast : p.index = (g.body p.block).length) : f.Quiet := by
  intro v w todo hat
  have htodo := hf.todo.symm.trans hat.todo
  rw [hlast, List.drop_length] at htodo
  cases htodo

/-- A frame that has jumped enters the block, where there is no `phi`. -/
theorem lands {b : Nat} (ht : t.Finished) (hf : f.Stands t.func p) (hland : t.func.Landing b)
    (n : Nat) (h : ∀ f', (∀ m, f.Comes t.func m ⟨b, 0, n⟩ f') → Follows u R (k - 1) σ c f') :
    Follows u R k σ c (f.jumped b) := by
  refine .enter (fun f' => ∀ m, f.Comes t.func m ⟨b, 0, n⟩ f') rfl ?_ h
  intro s rest hs _ hbudget
  obtain ⟨f', hnext, hstands, hkeeps, hslots⟩ := State.next_land ht hs hf hland hbudget n
  exact ⟨f', hnext, (hkeeps 0).outer, fun m => ⟨hstands, hkeeps m, hslots⟩⟩

/-- From the end of a block control goes to another. -/
theorem leads {b : Nat} (ht : t.Finished) (hf : f.Stands t.func p) (hleads : t.func.Leads p b)
    (n : Nat) (h : ∀ f', (∀ m, f.Comes t.func m ⟨b, 0, n⟩ f') → Follows u R (k - 1 - 1) σ c f') :
    Follows u R k σ c f := by
  refine .pass (· = f.jumped b) (quiet_of_end hf hleads.links.last) ?_ ?_
  · intro s rest hs _
    exact ⟨_, State.next_link hs hf hleads.links, rfl, rfl⟩
  · rintro _ rfl
    exact lands ht hf hleads.landing n h

/-- From the end of a block control goes to the side of the condition. -/
theorem forks {cond : Nat} {side : Bool → Nat} {b : Bool} (ht : t.Finished)
    (hf : f.Stands t.func p) (hfork : t.func.Forks p cond side) (hcond : f.value cond = .bool b)
    (n : Nat)
    (h : ∀ f', (∀ m, f.Comes t.func m ⟨side b, 0, n⟩ f') → Follows u R (k - 1 - 1) σ c f') :
    Follows u R k σ c f := by
  refine .pass (· = f.jumped (side b)) (quiet_of_end hf hfork.ends.last) ?_ ?_
  · intro s rest hs _
    exact ⟨_, State.next_fork hs hf hfork hcond, rfl, rfl⟩
  · rintro _ rfl
    exact lands ht hf (hfork.landing b) n h

/-- From the end of a block control gets to where paths meet. -/
theorem merges {args : List Nat} {a i : Nat} {pos : Pos} {q' : Spot} (ht : t.Finished)
    (hf : f.Stands t.func p) (hlinks : t.func.Links p r.block)
    (hmerges : t.func.Merges q q' args pos r)
    (hi : (t.func.preds r.block).idxOf? p.block = some i) (ha : args[i]? = some a)
    (h : ∀ f', f.Comes t.func r.count r.next f' → f'.value r.count = f.value a →
      Follows u R (k - 1 - 1) σ c f') : Follows u R k σ c f := by
  refine .pass (· = f.jumped r.block) (quiet_of_end hf hlinks.last) ?_ ?_
  · intro s rest hs _
    exact ⟨_, State.next_link hs hf hlinks, rfl, rfl⟩
  · rintro _ rfl
    refine .enter (fun f' => f.Comes t.func r.count r.next f' ∧ f'.value r.count = f.value a) rfl ?_
      fun f' hf' => h f' hf'.1 hf'.2
    intro s rest hs _ hbudget
    obtain ⟨f', hnext, hstands, hkeeps, hslots, hvalue⟩ := State.next_merge ht hs hf hmerges.known
      hmerges.entry hmerges.start hmerges.phi hi ha hbudget
    exact ⟨f', hnext, hkeeps.outer, ⟨hstands, hkeeps, hslots⟩, hvalue⟩

/-- The function returns. -/
theorem quits {result : Option Nat} (hf : f.Stands g p) (hquits : g.Quits p result)
    (hx : (result.map f.value).getD .nil = x) (typed : x.Has u.table σ R) :
    Follows u R k σ (.done x) f := by
  subst hx
  exact .ret (quiet_of_end hf hquits.last) typed fun s rest hs _ => State.step_quits hs hf hquits

end Follows

end Machine

end ClassLang
