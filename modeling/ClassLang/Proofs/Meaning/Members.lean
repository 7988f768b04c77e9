import ClassLang.Proofs.Layout.Direct
import ClassLang.Proofs.Machine.Initializer
import ClassLang.Proofs.Meaning.Activation

/-!
The fields of an object are found at their offsets, whatever class the object was typed with, and
the methods in its dispatch table. So the code that reads and writes fields, builds objects and
calls functions follows the course that finds everything by name.
-/

namespace ClassLang

/-! Types of members -/

namespace Ty

variable {ps : List TypeParam} {as : List Ty} {ty : Ty}

theorem className?_subst (h : ty.className?.isSome = true) :
    (ty.subst ps as).className? = ty.className? := by
  cases ty <;> simp_all [className?, subst]

theorem args_subst (h : ty.className?.isSome = true) :
    (ty.subst ps as).args = substAll ps as ty.args := by
  cases ty <;> simp_all [className?, subst, args, substAll]

end Ty

namespace Table

variable {t : Table} {c e : ClassInfo} {own ty : Ty} {ps qs : List TypeParam} {as : List Ty}
  {name : String}

theorem classOf?_subst (hc : t.classOf? ty = some c) : t.classOf? (ty.subst ps as) = some c := by
  rw [classOf?, Ty.className?_subst (isSome_className? hc)]
  exact hc

/-- The type of a member, as it is seen from a type whose parameters are filled in. -/
theorem subst_member {mem : Ty} (hmem : mem.Scoped t.arity c.tparams) (hty : ty.Scoped t.arity qs)
    (hc : t.classOf? ty = some c) : (mem.subst c.tparams ty.args).subst ps as =
      mem.subst c.tparams (ty.subst ps as).args := by
  rw [hmem.subst_subst (classOf?_args hty hc).1, Ty.args_subst (isSome_className? hc)]

/-- A field has the same type in a class that the object descends from. -/
theorem Fits.field (ht : t.WellTyped) (hown : t.Owns e own) (hty : ty.Scoped t.arity [])
    (hfits : t.Fits own ty) (hc : t.classOf? ty = some c) {f : Field}
    (hf : t.lookupField c.id name = some f) :
    t.isAncestor c.id e.id = true ∧
      f.ty.subst e.tparams own.args = f.ty.subst c.tparams ty.args := by
  obtain ⟨hdesc, rfl | hcls⟩ := hfits.classes ht.linked hown.cls hc
  · obtain rfl : e = c := Option.some.inj (hown.cls.symm.trans hc)
    exact ⟨hdesc, rfl⟩
  · refine ⟨hdesc, ?_⟩
    have hargs := (classOf?_args hty hc).1
    rw [hcls] at hargs
    have hnil : c.tparams = [] := List.length_eq_zero_iff.1 hargs.symm
    obtain ⟨-, hscoped, -⟩ := ht.lookupField_scoped (ht.linked.class?_id (classOf?_mem hc)) hf
    rw [hnil] at hscoped
    rw [hscoped.subst_closed, hscoped.subst_closed]

end Table

/-- The numbers that a graph carries for the members of a unit are machine words. -/
structure Typed.File.Sized (u : Typed.File) : Prop where
  objects : ∀ l ∈ (Layouts.build u.table).classes, l.size < 2 ^ 63
  methods : ∃ names : List String, names.length < 2 ^ 63 ∧
    ∀ c ∈ u.table.classes, ∀ m ∈ c.methods, m.name ∈ names
  vars : ∀ g ∈ u.bodies, g.binders.length < 2 ^ 63
  params : ∀ c ∈ u.table.classes, Check.Indexed c.tparams

namespace Typed.File.Sized

variable {u : Typed.File} {c : ClassInfo} {l : ClassLayout}

/-- The layout of a class. -/
theorem exists_layout (h : u.Sized) (hu : u.Ok) (hc : c ∈ u.table.classes) :
    ∃ l, (Layouts.build u.table).named? c.name = some l ∧
      Layouts.IsLayout u.table (Layouts.build u.table).slots c l ∧ Machine.Sized l := by
  obtain ⟨l, hl, his⟩ := Layouts.named?_build hu.sound.table.linked hc
  exact ⟨l, hl, his, Machine.sized_of_isLayout hu.sound.table hc his
    (h.objects l (List.mem_of_find?_eq_some hl))⟩

end Typed.File.Sized

namespace Machine

open Direct (Course Env)
open ClassLang.Graph (Callee Instr Op Spot)

/-! Requests at a spot -/

namespace Follows

variable {u : Typed.File} {R T : Ty} {k i : Nat} {σ : Marks} {f : Frame} {g : Graph.Func} {p : Spot}
  {w : Instr} {next : Value → Course Value} {course : Course Value} {target : Callee}
  {args : List Value} {c : ClassInfo} {ref : Nat} {m : Mark} {fd : Field} {name : String}
  {y : Value} {l : ClassLayout} {ty : Ty}

theorem calls (hf : f.Stands g p) (hw : g.Holds p w) (halloc : w.op ≠ .alloc)
    (hdispatch : w.op ≠ .setDispatch) (haccepts : Accepts u σ target args T)
    (haction : f.On u.table σ fun s _ => action f s.machine.heap w = .ok (.call target args))
    (h : ∀ σ' x, σ.Le σ' → x.Has u.table σ' T → Follows u R (k - 1) σ' (next x) (f.past g p x)) :
    Follows u R k σ (.call target args next) f :=
  .call (hf.at_ hw) ((hf.at_ hw).quiet halloc hdispatch) haccepts
    (fun s rest hs hheap => State.step_spot hs hf hw (haction s rest hs hheap)) h

theorem gets (hf : f.Stands g p) (hw : g.Holds p w) (halloc : w.op ≠ .alloc)
    (hdispatch : w.op ≠ .setDispatch) (hm : σ ref = some m) (hwhole : m.whole = true)
    (hc : u.table.classOf? m.type = some c) (hplace : (u.table.flatFields c.id)[i]? = some fd)
    (haction : f.On u.table σ fun s _ => ∀ o y, s.machine.heap[ref]? = some o →
      o.fields[i]? = some y → action f s.machine.heap w = .ok (.give y))
    (h : ∀ y : Value, y.Has u.table σ (fd.ty.subst c.tparams m.type.args) →
      Follows u R (k - 1) σ (next y) (f.past g p y)) :
    Follows u R k σ (.get (.obj ref) fd.name next) f :=
  .get (hf.at_ hw) ((hf.at_ hw).quiet halloc hdispatch) hm hc hplace rfl hwhole
    (fun s rest hs hheap o y ho hy => State.step_spot hs hf hw (haction s rest hs hheap o y ho hy))
    h

theorem sets (hf : f.Stands g p) (hw : g.Holds p w) (halloc : w.op ≠ .alloc)
    (hdispatch : w.op ≠ .setDispatch) (hm : σ ref = some m)
    (hc : u.table.classOf? m.type = some c) (hplace : (u.table.flatFields c.id)[i]? = some fd)
    (hy : y.Has u.table σ (fd.ty.subst c.tparams m.type.args))
    (haction : f.On u.table σ fun s _ => action f s.machine.heap w = .ok (.setField ref i y))
    (h : Follows u R (k - 1) (σ.set ref (m.give fd.name)) course (f.past g p .nil)) :
    Follows u R k σ (.set (.obj ref) fd.name y course) f :=
  .set (hf.at_ hw) ((hf.at_ hw).quiet halloc hdispatch) hm hc hplace rfl hy
    (fun s rest hs hheap => State.step_spot hs hf hw (haction s rest hs hheap)) h

theorem creates (hf : f.Stands g p) (hw : g.Holds p w) (halloc : w.op = .alloc)
    (howns : u.table.Owns c ty) (hl : (Layouts.build u.table).named? c.name = some l)
    (hlayout : w.layout? = some l)
    (h : ∀ ref, σ ref = none → Follows u R (k - 1) (σ.set ref ⟨ty, [], false⟩) (next (.obj ref))
      (f.past g p (.obj ref))) : Follows u R k σ (.create c.name next) f := by
  refine .create (hf.at_ hw) halloc howns rfl hl (fun s rest hs _ => ?_) h
  refine State.step_spot hs hf hw (a := .allocate _) ?_
  simp only [action, halloc, carriedLayout, hlayout, Bind.bind, Except.bind, Pure.pure, Except.pure]

theorem finishes {obj : Nat} (hf : f.Stands g p) (hw : g.Holds p w)
    (hdispatch : w.op = .setDispatch)
    (hargs : w.args = [some obj]) (hobj : f.value obj = .obj ref) (hm : σ ref = some m)
    (hc : u.table.classOf? m.type = some c) (hl : (Layouts.build u.table).named? c.name = some l)
    (hlayout : w.layout? = some l) (hfull : ∀ fd ∈ u.table.flatFields c.id, fd.name ∈ m.given)
    (h : Follows u R (k - 1) (σ.set ref m.finish) course (f.past g p .nil)) :
    Follows u R k σ course f := by
  have hobject : f.On u.table σ fun s _ => ∃ o, f.object s.machine.heap w = .ok (ref, o) := by
    intro s rest _ hheap
    obtain ⟨o, -, ho, -⟩ := hheap.exists_object hm
    exact ⟨o, Frame.object_eq hargs hobj ho⟩
  refine .finish (hf.at_ hw) hdispatch hm hc hl hfull hobject (fun s rest hs hheap => ?_) h
  obtain ⟨o, ho⟩ := hobject s rest hs hheap
  refine State.step_spot hs hf hw (a := .setDispatch ref l) ?_
  simp only [action, hdispatch, ho, carriedLayout, hlayout, Bind.bind, Except.bind, Pure.pure,
    Except.pure]

end Follows

/-! Operands -/

namespace Activation

/-- What an activation relies on. -/
structure Valid (A : Activation) : Prop where
  unit : A.unit.Ok
  sized : A.unit.Sized
  ground : A.table.Ground A.params A.args
  finished : A.code.Finished

/-- The courses of expressions of the body. -/
def values (A : Activation) (es : List Typed.Expr) (env : Env) : Course (List Value) :=
  Direct.exprs A.setting env es

/-- Behind the spot `q` the code follows `next` with the values of the instructions `is`. -/
def AfterAll (A : Activation) (k : Nat) (σ : Marks) (f : Frame) (n : Nat) (q : Spot)
    (is : List Nat) (es : List Typed.Expr) (next : List Value → Course Value) : Prop :=
  ∀ σ' f', σ.Le σ' → f.Comes A.code.func n q f' →
    Values.Have A.table σ' (is.map f'.value) (es.map fun e => A.type e.ty) →
    A.Follows k σ' (next (is.map f'.value)) f'

/-- The code from `p` to `q` follows the courses of expressions. Their values are those of the
instructions `is`. -/
def ComputesAll (A : Activation) (vars : List Var) (es : List Typed.Expr) (p : Spot) (is : List Nat)
    (q : Spot) : Prop :=
  ∀ ⦃k : Nat⦄ ⦃σ : Marks⦄ ⦃f : Frame⦄ ⦃env : Env⦄ ⦃next : List Value → Course Value⦄,
    f.Stands A.code.func p → A.Sees σ f vars env → A.AfterAll k σ f p.count q is es next →
    A.Follows k σ ((A.values es env).andThen next) f

variable {A : Activation} {vars : List Var} {p q r s : Spot} {i : Nat} {is : List Nat}
  {e : Typed.Expr} {es : List Typed.Expr}

namespace ComputesAll

theorem nil : A.ComputesAll vars [] p [] p := by
  intro k σ f env next hf _ hnext
  rw [values, Direct.exprs]
  exact hnext σ f (.refl σ) (.refl hf _) .nil

theorem cons (hx : A.Computes vars e.ty (A.value e) p i q) (hle : p.count ≤ q.count)
    (hlt : i < q.count) (hrest : A.ComputesAll vars es q is r) :
    A.ComputesAll vars (e :: es) p (i :: is) r := by
  intro k σ f env next hf hsees hnext
  rw [values, Direct.exprs, Course.bind_andThen]
  refine hx hf hsees fun σ₁ f₁ hσ₁ hf₁ hty => ?_
  rw [Course.bind_andThen]
  refine hrest hf₁.stands (hsees.later hσ₁ hf₁.slots) fun σ₂ f₂ hσ₂ hf₂ htys => ?_
  have hkept : f₂.value i = f₁.value i := hf₂.keeps.values i hlt
  have hlast := hnext σ₂ f₂ (hσ₁.trans hσ₂) (hf₁.trans hf₂ hle)
  rw [List.map_cons, hkept] at hlast
  exact hlast (.cons (hty.mono hσ₂) htys)

end ComputesAll

/-! Calls -/

/-- What is called gives the value of the instruction at the spot. -/
theorem After.calls {k n : Nat} {σ : Marks} {f : Frame} {w : Instr} {ty : Ty}
    {next : Value → Course Value} {target : Callee} {xs : List Value}
    (h : A.After k σ f n p.next p.count ty next) (hf : f.Stands A.code.func p) (hle : n ≤ p.count)
    (hw : A.code.func.Holds p w) (halloc : w.op ≠ .alloc) (hdispatch : w.op ≠ .setDispatch)
    (haccepts : Accepts A.unit σ target xs (A.type ty))
    (haction : ∀ heap, action f heap w = .ok (.call target xs)) :
    A.Follows k σ (.call target xs next) f := by
  refine .calls hf hw halloc hdispatch haccepts (fun s _ _ _ => haction s.machine.heap)
    fun σ' x hσ' hx => ?_
  have hnext := h σ' _ hσ' ((hf.past x).narrow hle)
  rw [Frame.value_past hf hw] at hnext
  exact (hnext hx).mono (Nat.sub_le k 1)

/-- What a call of a method finds: the class of the object has such a method, which takes the
call, and if the method was already known then it is that one. -/
def Finds (A : Activation) (ty : Ty) (kind : CallKind) (m : Method) (name : String)
    (sig : Signature) : Prop :=
  ∀ (d : ClassInfo) (own : Ty), A.table.Owns d own → A.table.Fits own (A.type ty) →
    ∃ found, A.table.lookupMethod d.id name = some found ∧
      Table.Takes own d found (sig.paramTypes.map A.type) (A.type sig.result) ∧
      (kind = .direct → found = m)

namespace Computes

/-- A call of a function by its name. -/
theorem call (hA : A.Valid) {fn id : Ident} {host : Bool} {targs : List Ty} {sig : Signature}
    (hfunc : A.context.funcs.lookup fn.text = some (host, sig)) (hname : id.text = fn.text)
    (hinst : A.context.Instance sig.tparams targs) (hcount : es.length = sig.params.length)
    (hfit : ∀ e ∈ es.zip (sig.subst sig.tparams targs).paramTypes, A.table.Fits e.1.ty e.2)
    (hargs : A.ComputesAll vars es p is q) (hle : p.count ≤ q.count)
    (hw : A.code.func.Holds q (q.instr .callDirect (some (sig.subst sig.tparams targs).result) is
      fn.pos 0 (some (.callee (Graph.Lower.calleeOf (.func id host)))))) :
    A.Computes vars (sig.subst sig.tparams targs).result
      (A.value (.call fn (.func id host) targs (sig.subst sig.tparams targs) es)) p q.count
      q.next := by
  intro k σ f env next hf hsees hnext
  rw [value, Direct.expr, Course.bind_andThen]
  refine hargs hf hsees fun σ₁ f₁ hσ₁ hf₁ htys => ?_
  have hlen : es.length = (sig.subst sig.tparams targs).paramTypes.length := by
    rw [Signature.paramTypes_subst, List.length_map, hcount, Signature.paramTypes, List.length_map]
  obtain ⟨g, hg, htarget, haccepts⟩ := accepts_func hA.unit hfunc hinst hA.ground
    (Values.Have.fits hA.unit.sound.table.linked htys hlen hfit)
  have hcallee : (Graph.Lower.calleeOf (.func id host)) =
      if host then .host fn.text else .func (.func fn.text) := by
    cases host <;> simp [Graph.Lower.calleeOf, hname]
  have hcourse : Direct.callNamed A.setting fn.text (is.map f₁.value) =
      .call (if host then .host fn.text else .func (.func fn.text)) (is.map f₁.value) pure := by
    rw [Direct.callNamed, setting, hg, ← htarget]
  rw [hcourse]
  refine (hnext.from_ hσ₁ hf₁ hle).calls hf₁.stands (Nat.le_refl _) hw (by simp [Spot.instr])
    (by simp [Spot.instr]) haccepts fun heap => ?_
  simp only [action, Spot.instr, Instr.callee?, hcallee, Frame.operands_map_some]

/-- A call of a method. -/
theorem invoke (hA : A.Valid) {sel : Ident} {kind : CallKind} {m : Method} {sig : Signature}
    (hcls : (A.type e.ty).className?.isSome = true) (hfinds : A.Finds e.ty kind m sel.text sig)
    (hcount : es.length = sig.paramTypes.length)
    (hfit : ∀ e ∈ es.zip sig.paramTypes, A.table.Fits e.1.ty e.2)
    (hx : A.Computes vars e.ty (A.value e) p i q) (hargs : A.ComputesAll vars es q is r)
    (hle : p.count ≤ q.count) (hlt : i < q.count) (hle' : q.count ≤ r.count)
    (hlts : ∀ j ∈ is, j < r.count)
    (hcode : Graph.CallsMethod (Layouts.build A.table) A.code.func kind m sel.text sig e.pos i is r
      s) : A.Computes vars sig.result (A.value (.invoke e sel kind m sig es)) p s.count s.next := by
  intro k σ f env next hf hsees hnext
  rw [value, Direct.expr, Course.bind_andThen]
  refine hx hf hsees fun σ₁ f₁ hσ₁ hf₁ hty => ?_
  rw [Course.bind_andThen]
  refine hargs hf₁.stands (hsees.later hσ₁ hf₁.slots) fun σ₂ f₂ hσ₂ hf₂ htys => ?_
  have hkept : f₂.value i = f₁.value i := hf₂.keeps.values i hlt
  obtain ⟨ref, mark, d, hobj, hmark, hwhole, howns, hfits⟩ := (hty.mono hσ₂).exists_mark hcls
  obtain ⟨found, hfound, htakes, hdirect⟩ := hfinds d mark.type howns hfits
  have haccepts := accepts_method hA.unit hA.sized.params hmark hwhole howns hfound htakes
    (Values.Have.fits hA.unit.sound.table.linked htys hcount hfit)
  have hcomes := hf₁.trans hf₂ hle
  have hafter := hnext.from_ (hσ₁.trans hσ₂) hcomes (Nat.le_trans hle hle')
  rw [hobj]
  refine .invoke hmark howns.cls hfound ?_
  rw [← hobj, ← hkept] at haccepts ⊢
  cases hcode with
  | direct direct call =>
      obtain rfl := hdirect direct
      refine hafter.calls hf₂.stands (Nat.le_refl _) call (by simp [Spot.instr])
        (by simp [Spot.instr]) haccepts fun heap => ?_
      simp only [action, Spot.instr, Instr.callee?, ← List.map_cons, Frame.operands_map_some]
  | @table slot looked hslot table entry call =>
      have hd := Table.classOf?_mem howns.cls
      have hlinked : A.table.Linked := hA.unit.sound.table.linked
      obtain ⟨l, hl, his, -⟩ := hA.sized.exists_layout hA.unit hd
      have hmethod : l.method? slot = some found := by
        have hentry := Layouts.method?_slot? hlinked hd his sel.text
        rwa [hslot, hfound] at hentry
      obtain ⟨names, hnames, hall⟩ := hA.sized.methods
      have hword := Layouts.slot_lt_of_lookupMethod hlinked hall
        (Table.class?_eq_some_lt (hlinked.class?_id hd)) hfound hslot
      have hnumber : (Int64.ofInt slot).toInt = slot :=
        Int64.toInt_ofInt_of_le (by omega) (by omega)
      -- the dispatch table of the object
      refine .gives (x := .table l) hf₂.stands table (by simp [Spot.instr]) (by simp [Spot.instr])
        (fun st _ _ hheap => ?_) ?_
      · obtain ⟨o, c, ho, hsuits⟩ := hheap.exists_object hmark
        obtain rfl := hsuits.cls_unique howns.cls
        have hlayout : o.dispatch = some l := by
          rw [hsuits.dispatch hwhole, ← hsuits.layout, hl]
        have hobject := Frame.object_eq (v := r.instr .dispatchTable none [i] e.pos 0 none) rfl
          (hkept.trans hobj) ho
        rw [action]
        simp only [Spot.instr] at hobject ⊢
        simp only [hobject, hlayout, Bind.bind, Except.bind, Pure.pure, Except.pure]
      have hf₃ := hf₂.stands.past (.table l)
      have hvalue₃ := Frame.value_past hf₂.stands table (.table l)
      generalize f₂.past A.code.func r (.table l) = f₃ at hf₃ hvalue₃
      -- the entry of the table
      refine .gives (x := .method found.ref) hf₃.stands entry (by simp [Spot.instr])
        (by simp [Spot.instr]) (fun st _ _ _ => ?_) ?_
      · simp only [action, Spot.instr, Frame.operand, List.map_cons, List.map_nil,
          List.getElem?_cons_zero, hvalue₃, hnumber, hmethod, Bind.bind, Except.bind, Pure.pure,
          Except.pure]
      have hf₄ := hf₃.stands.past (.method found.ref)
      have hvalue₄ := Frame.value_past hf₃.stands entry (.method found.ref)
      generalize f₃.past A.code.func r.next (.method found.ref) = f₄ at hf₄ hvalue₄
      have hcomes₄ := hf₃.trans hf₄ (Nat.le_succ _)
      have hsame : (i :: is).map f₄.value = (i :: is).map f₂.value :=
        List.map_congr_left fun j hj => hcomes₄.keeps.values j
          ((List.mem_cons.1 hj).elim (fun h => h ▸ Nat.lt_of_lt_of_le hlt hle') (hlts j))
      refine ((hafter.mono (by omega)).from_ (.refl _) (hcomes₄.narrow (Nat.le_refl _))
        (Nat.le_refl _)).calls hf₄.stands (Nat.le_add_right _ 2) call (by simp [Spot.instr])
        (by simp [Spot.instr]) haccepts fun heap => ?_
      rw [List.map_cons, List.map_cons] at hsame
      simp only [action, Spot.instr, Frame.operand, List.map_cons, List.getElem?_cons_zero, hvalue₄,
        List.tail_cons, Bind.bind, Except.bind, Pure.pure, Except.pure]
      rw [← hsame, ← List.map_cons (f := some), Frame.operands_map_some, List.map_cons]

end Computes

/-! Fields -/

section

variable {c d : ClassInfo} {fd : Field} {name : String} {slot : FieldSlot} {l : ClassLayout}
  {ref j : Nat} {m : Mark} {σ : Marks} {x : Value} {o : Object} {sel : Ident} {ty own : Ty}
  {targs : List Ty}

/-- Where a layout has a field. -/
theorem getElem?_flatFields {t : Table} {slots : List String}
    (his : Layouts.IsLayout t slots c l) (hsized : Sized l) (hslot : l.field? name = some slot) :
    (t.flatFields c.id)[slot.index]? = some slot.field ∧ slot.field.name = name := by
  refine ⟨?_, by simpa using List.find?_some hslot⟩
  have hget := hsized.getElem?_index (List.mem_of_find?_eq_some hslot)
  rw [his.getElem?_fields] at hget
  obtain ⟨f, hf, heq⟩ := Option.map_eq_some_iff.1 hget
  rw [hf, ← heq]

/-- An object of the class `d` has a field, which has the type `ty` of the body. -/
structure Placed (A : Activation) (σ : Marks) (fd : Field) (slot : FieldSlot) (ty : Ty) (ref : Nat)
    (m : Mark) (d : ClassInfo) (l : ClassLayout) : Prop where
  known : σ ref = some m
  cls : A.table.classOf? m.type = some d
  layout : (Layouts.build A.table).named? d.name = some l
  sized : Sized l
  found : ∃ name, l.field? name = some slot
  place : (A.table.flatFields d.id)[slot.index]? = some fd
  type : fd.ty.subst d.tparams m.type.args = A.type ty

/-- An object has its fields where the layout of its static class has them. -/
theorem exists_placed (hA : A.Valid) (hx : x.Has A.table σ (A.type e.ty))
    (hscoped : e.ty.Scoped A.table.arity A.params) (hc : A.table.classOf? e.ty = some c)
    (hfield : A.table.lookupField c.id name = some fd)
    (hslot : (Layouts.build A.table).fieldSlot? e.ty name = some slot) :
    ∃ ref m d l, x = .obj ref ∧ m.whole = true ∧
      A.Placed σ fd slot (fd.ty.subst c.tparams e.ty.args) ref m d l := by
  have hwell : A.table.WellTyped := hA.unit.sound.table
  have hc' : A.table.classOf? (A.type e.ty) = some c := Table.classOf?_subst hc
  obtain ⟨ref, m, d, rfl, hm, hwhole, howns, hfits⟩ := hx.exists_mark (Table.isSome_className? hc')
  have hclosed := hscoped.subst hA.ground.length hA.ground.closed
  obtain ⟨hdesc, htype⟩ := Table.Fits.field hwell howns hclosed hfits hc' hfield
  have hcmem := Table.classOf?_mem hc
  have hdmem := Table.classOf?_mem howns.cls
  obtain ⟨-, hfscoped, -⟩ := hwell.lookupField_scoped (hwell.linked.class?_id hcmem) hfield
  obtain ⟨lc, hlc, hisc, -⟩ := hA.sized.exists_layout hA.unit hcmem
  obtain ⟨ld, hld, hisd, hsized⟩ := hA.sized.exists_layout hA.unit hdmem
  obtain ⟨s, rfl, hs, hs', hplace⟩ := hisc.exists_place hwell hcmem hdmem hdesc hisd hfield
  obtain rfl : s = slot := by
    rw [Layouts.fieldSlot?, Table.classOf?_name hc, Option.bind_some, hlc, Option.bind_some, hs]
      at hslot
    exact Option.some.inj hslot
  exact ⟨ref, m, d, ld, rfl, hwhole, hm, howns.cls, hld, hsized, ⟨name, hs'⟩,
    (getElem?_flatFields hisd hsized hs').1,
    htype.trans (Table.subst_member hfscoped hscoped hc).symm⟩

/-- The machine finds a field of an object that it knows. -/
theorem Placed.fieldAt (h : A.Placed σ fd slot ty ref m d l) {heap : Array Object}
    (hheap : HeapOk A.table σ heap) (ho : heap[ref]? = some o) :
    ∃ y, o.fields[slot.index]? = some y ∧
      Machine.fieldAt o (Int64.ofInt slot.offset) = .ok (slot.index, y) := by
  obtain ⟨name, hname⟩ := h.found
  obtain ⟨c, hsuits⟩ := hheap.suits h.known ho
  obtain rfl := hsuits.cls_unique h.cls
  have hlt : slot.index < o.fields.size :=
    hsuits.size ▸ (List.getElem?_eq_some_iff.1 h.place).1
  have hy : o.fields[slot.index]? = some o.fields[slot.index] := Array.getElem?_eq_getElem hlt
  exact ⟨_, hy, h.sized.fieldAt hname hy⟩

/-- A field that is read. -/
theorem Computes.field (hA : A.Valid) {shown : Ty} (hscoped : e.ty.Scoped A.table.arity A.params)
    (hc : A.table.classOf? e.ty = some c) (hfield : A.table.lookupField c.id sel.text = some fd)
    (hslot : (Layouts.build A.table).fieldSlot? e.ty sel.text = some slot)
    (hx : A.Computes vars e.ty (A.value e) p i q) (hle : p.count ≤ q.count)
    (hw : A.code.func.Holds q (q.instr .loadField (some shown) [i] sel.pos
      (Int64.ofInt slot.offset) (some (.text sel.text)))) :
    A.Computes vars (fd.ty.subst c.tparams e.ty.args) (A.value (.field e sel fd ty)) p q.count
      q.next := by
  intro k σ f env next hf hsees hnext
  rw [value, Direct.expr, Course.bind_andThen]
  refine hx hf hsees fun σ₁ f₁ hσ₁ hf₁ hty => ?_
  obtain ⟨ref, m, d, l, hobj, hwhole, hplaced⟩ := exists_placed hA hty hscoped hc hfield hslot
  have hname : fd.name = sel.text := (Table.lookupField_mem hfield).2
  rw [hobj, ← hname]
  refine .gets hf₁.stands hw (by simp [Spot.instr]) (by simp [Spot.instr]) hplaced.known
    hwhole hplaced.cls hplaced.place (fun s _ _ hheap o y ho hy => ?_) fun y hy => ?_
  · obtain ⟨y', hy', hat⟩ := hplaced.fieldAt hheap ho
    obtain rfl : y' = y := Option.some.inj (hy'.symm.trans hy)
    have hobject := Frame.object_eq (v := q.instr .loadField (some shown) [i] sel.pos
      (Int64.ofInt slot.offset) (some (.text sel.text))) rfl hobj ho
    rw [action]
    simp only [Spot.instr] at hobject ⊢
    simp only [hobject, hat, Bind.bind, Except.bind, Pure.pure, Except.pure]
  · have hlast := hnext σ₁ _ hσ₁ (hf₁.trans (hf₁.stands.past y) hle)
    rw [Frame.value_past hf₁.stands hw] at hlast
    exact (hlast (hplaced.type ▸ hy)).mono (Nat.sub_le k 1)

/-- A value is stored in a field. -/
theorem Placed.sets {k a : Nat} {f : Frame} {pos : Pos} {text : String}
    {course : Course Value} (h : A.Placed σ fd slot ty ref m d l) (hf : f.Stands A.code.func p)
    (hobj : f.value i = .obj ref) (hy : (f.value a).Has A.table σ (A.type ty))
    (hw : A.code.func.Holds p (p.instr .storeField none [i, a] pos (Int64.ofInt slot.offset)
      (some (.text text))))
    (hnext : A.Follows (k - 1) (σ.set ref (m.give fd.name)) course (f.past A.code.func p .nil)) :
    A.Follows k σ (.set (.obj ref) fd.name (f.value a) course) f := by
  refine .sets hf hw (by simp [Spot.instr]) (by simp [Spot.instr]) h.known h.cls h.place
    (h.type ▸ hy) (fun s _ _ hheap => ?_) hnext
  obtain ⟨o, -, ho, -⟩ := hheap.exists_object h.known
  obtain ⟨y, -, hat⟩ := h.fieldAt hheap ho
  simp only [action, Spot.instr, Frame.object, Frame.operand, List.map_cons, List.map_nil,
    List.getElem?_cons_zero, List.getElem?_cons_succ, hobj, ho, hat, Bind.bind, Except.bind,
    Pure.pure, Except.pure]

/-! Objects -/

/-- The code from `p` to `q` gives the object that is the value of instruction `i` its fields. -/
def Fills (A : Activation) (vars : List Var) (own : Ty) (i : Nat)
    (elems : List (Ident × Typed.Expr)) (p q : Spot) : Prop :=
  ∀ ⦃k : Nat⦄ ⦃σ : Marks⦄ ⦃f : Frame⦄ ⦃env : Env⦄ ⦃next : Unit → Course Value⦄ ⦃ref : Nat⦄
      ⦃m : Mark⦄,
    f.Stands A.code.func p → A.Sees σ f vars env → i < p.count → f.value i = .obj ref →
    σ ref = some m → m.type = own →
    (∀ σ' f' m', σ.Le σ' → f.Comes A.code.func p.count q f' → σ' ref = some m' → m.Le m' →
      (∀ e ∈ elems, e.1.text ∈ m'.given) → A.Follows k σ' (next ()) f') →
    A.Follows k σ ((Direct.fill A.setting env (.obj ref) elems).andThen next) f

theorem Fills.nil : A.Fills vars own i [] p p := by
  intro k σ f env next ref m hf _ _ _ hm _ hnext
  rw [Direct.fill]
  exact hnext σ f m (.refl σ) (.refl hf _) hm ⟨rfl, fun _ => id, id⟩ (by simp)

theorem Fills.cons (hA : A.Valid) {key : Ident} {elems : List (Ident × Typed.Expr)}
    (hown : A.table.classOf? own = some c) (hl : (Layouts.build A.table).named? c.name = some l)
    (his : Layouts.IsLayout A.table (Layouts.build A.table).slots c l) (hsized : Sized l)
    (hslot : l.field? key.text = some slot)
    (htype : slot.field.ty.subst c.tparams own.args = A.type (slot.field.ty.subst c.tparams targs))
    (hfits : A.table.Fits e.ty (slot.field.ty.subst c.tparams targs))
    (hx : A.Computes vars e.ty (A.value e) p j q) (hle : p.count ≤ q.count)
    (hw : A.code.func.Holds q (q.instr .storeField none [i, j] key.pos (Int64.ofInt slot.offset)
      (some (.text key.text))))
    (hrest : A.Fills vars own i elems q.next r) : A.Fills vars own i ((key, e) :: elems) p r := by
  intro k σ f env next ref m hf hsees hi hobj hm hmtype hnext
  rw [Direct.fill, Course.bind_andThen]
  refine hx hf hsees fun σ₁ f₁ hσ₁ hf₁ hty => ?_
  obtain ⟨m₁, hm₁, hle₁⟩ := hσ₁ ref m hm
  have hmtype₁ : m₁.type = own := hle₁.type.trans hmtype
  obtain ⟨hplace, hname⟩ := getElem?_flatFields his hsized hslot
  have hplaced : A.Placed σ₁ slot.field slot (slot.field.ty.subst c.tparams targs) ref m₁ c l :=
    ⟨hm₁, hmtype₁ ▸ hown, hl, hsized, ⟨_, hslot⟩, hplace, hmtype₁ ▸ htype⟩
  have hobj₁ : f₁.value i = .obj ref := (hf₁.keeps.values i hi).trans hobj
  have hy := hty.fits hA.unit.sound.table.linked (hfits.subst A.params A.args)
  rw [Direct.Course.andThen, ← hname]
  refine hplaced.sets hf₁.stands hobj₁ hy hw ?_
  have hσ₂ := Marks.le_set hm₁ (m₁.le_give slot.field.name)
  have hf₂ := hf₁.stands.past .nil
  have hi₂ : i < q.next.count := Nat.lt_succ_of_lt (Nat.lt_of_lt_of_le hi hle)
  refine (hrest hf₂.stands (hsees.later (hσ₁.trans hσ₂) (hf₂.slots.trans hf₁.slots)) hi₂
    ((hf₂.keeps.values i (Nat.lt_of_lt_of_le hi hle)).trans hobj₁) (Marks.set_self ..) hmtype₁
    fun σ₃ f₃ m₃ hσ₃ hf₃ hm₃ hle₃ hgiven => ?_).mono (Nat.le_refl _)
  refine (hnext σ₃ f₃ m₃ (hσ₁.trans (hσ₂.trans hσ₃))
    (hf₁.trans (hf₂.trans hf₃ (Nat.le_succ _)) hle) hm₃ ?_ ?_).mono (Nat.sub_le k 1)
  · exact ⟨hle₃.type.trans hle₁.type, fun n hn => hle₃.given n (List.mem_cons_of_mem _
      (hle₁.given n hn)), fun hw => hle₃.whole (hle₁.whole hw)⟩
  · refine List.forall_mem_cons.2 ⟨hle₃.given _ ?_, hgiven⟩
    rw [hname]
    exact List.mem_cons_self

/-- An initializer. -/
theorem Computes.init {cls : Ident} {sym : Symbol} {elems : List (Ident × Typed.Expr)}
    {fields : List Field} (howns : A.table.Owns c (A.type ty)) (hname : c.name = cls.text)
    (hl : (Layouts.build A.table).named? cls.text = some l)
    (hkeys : ∀ f ∈ A.table.flatFields c.id, ∃ e ∈ elems, e.1.text = f.name)
    (halloc : A.code.func.Holds p (p.instr .alloc (some ty) [] cls.pos (Int64.ofInt l.size)
      (some (.layout l))))
    (hfill : A.Fills vars (A.type ty) p.count elems p.next q) (hle : p.next.count ≤ q.count)
    (hdispatch : A.code.func.Holds q (q.instr .setDispatch none [p.count] Pos.none 0
      (some (.layout l)))) :
    A.Computes vars ty (A.value (.init cls sym ty fields elems)) p p.count q.next := by
  intro k σ f env next hf hsees hnext
  rw [value, Direct.expr, Direct.Course.andThen, ← hname]
  rw [← hname] at hl
  refine .creates hf halloc rfl howns hl rfl fun ref hnone => ?_
  rw [Course.bind_andThen]
  have hσ₁ := Marks.le_set_of_none ⟨A.type ty, [], false⟩ hnone
  have hf₁ := hf.past (.obj ref)
  refine hfill hf₁.stands (hsees.later hσ₁ hf₁.slots) (Nat.lt_succ_self _)
    (Frame.value_past hf halloc _) (Marks.set_self ..) rfl fun σ₂ f₂ m hσ₂ hf₂ hm hle₂ hgiven => ?_
  have hobj : f₂.value p.count = .obj ref :=
    (hf₂.keeps.values _ (Nat.lt_succ_self _)).trans (Frame.value_past hf halloc _)
  have hmtype : m.type = A.type ty := hle₂.type
  have hfull : ∀ fd ∈ A.table.flatFields c.id, fd.name ∈ m.given := by
    intro fd hfd
    obtain ⟨e, he, heq⟩ := hkeys fd hfd
    exact heq ▸ hgiven e he
  refine .finishes hf₂.stands hdispatch rfl rfl hobj hm (hmtype ▸ howns.cls) hl rfl hfull ?_
  have hf₃ := hf₂.stands.past .nil
  have hkept := hf₃.keeps.values p.count (Nat.lt_of_succ_le hle)
  have hlast := hnext (σ₂.set ref m.finish) _
    (hσ₁.trans (hσ₂.trans (Marks.le_set hm m.le_finish)))
    (hf₁.trans (hf₂.trans hf₃ hle) (Nat.le_succ _))
  rw [hkept, hobj] at hlast
  have howns' : A.table.Owns c m.finish.type := hmtype ▸ howns
  have hfits : A.table.Fits m.finish.type (A.type ty) := hmtype ▸ .refl _ _
  exact (hlast (.obj (Marks.set_self ..) rfl howns' hfits (Table.isSome_className? howns.cls))).mono
    (by omega)

end

end Activation

end Machine

end ClassLang
