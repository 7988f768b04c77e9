import ClassLang.Proofs.Graph.Logic
import ClassLang.Proofs.Layout
import ClassLang.Proofs.Typing

/-!
Well typed expressions are computed without a fault: every instruction has the operands
that it needs, and the value has the type of the expression.
-/

namespace ClassLang

namespace Layouts

variable {t : Table} {c : ClassInfo} {name : String}

theorem exists_slot_of_mem {ls : Layouts} (h : name ∈ ls.slots) : ∃ s, ls.slot? name = some s := by
  obtain ⟨k, hk⟩ := List.getElem?_of_mem h
  cases hslot : ls.slot? name with
  | some s => exact ⟨s, rfl⟩
  | none => exact absurd h (List.idxOf?_eq_none_iff.1 hslot)

/-- The layout of a class has all of its fields. -/
theorem exists_named (hwell : t.WellTyped) (hc : t.classNamed? name = some c) :
    ∃ l, (build t).named? name = some l ∧
      ∀ f ∈ t.flatFields c.id, ∃ p, l.field? f.name = some p := by
  have hmem : c ∈ t.classes := List.mem_of_find?_eq_some hc
  have hname : c.name = name := by simpa using List.find?_some hc
  obtain ⟨l, hl, hlayout⟩ := named?_build hwell.linked hmem
  refine ⟨l, hname ▸ hl, fun f hf => ?_⟩
  have hfield := hlayout.field?_map_field hwell hmem f.name
  obtain ⟨g, hg⟩ := Option.isSome_iff_exists.1 (Table.lookupField_isSome hf)
  rw [hg, Option.map_eq_some_iff] at hfield
  obtain ⟨p, hp, _⟩ := hfield
  exact ⟨p, hp⟩

end Layouts

theorem Ty.eq_bool {t : Ty} (h : t.isBool = true) : t = .bool := by
  cases t <;> simp_all [isBool]

namespace Graph.Op

variable {op : BinaryOp} {t : Ty}

theorem ofUnary_cases (op : UnaryOp) (t : Ty) :
    ofUnary op t = .not ∨ ofUnary op t = .neg64 ∨ ofUnary op t = .negF64 := by
  cases op <;> cases t <;> simp [ofUnary]

/-- The operators that are defined on a type have an operation. -/
theorem ofBinary_cases (hdefined : Check.BinaryOp.defined op t = true)
    (hlogic : ¬(op = .and ∨ op = .or)) :
    ofBinary op t = ofInt op ∨ (ofBinary op t = ofFloat op ∧ op ≠ .rem) ∨
      (ofBinary op t = ofStr op ∧ (op = .eql ∨ op = .neq)) := by
  cases t with
  | float =>
      refine Or.inr (Or.inl ⟨rfl, ?_⟩)
      rintro rfl
      simp [Check.BinaryOp.defined, Ty.isInt] at hdefined
  | str =>
      refine Or.inr (Or.inr ⟨rfl, ?_⟩)
      cases op <;> simp_all [Check.BinaryOp.defined, Ty.isNumeric, Ty.isInt, Ty.isFloat]
  | _ => exact Or.inl rfl

theorem ofBinary_ne (hdefined : Check.BinaryOp.defined op t = true)
    (hlogic : ¬(op = .and ∨ op = .or)) :
    ofBinary op t ≠ .invalid ∧ ofBinary op t ≠ .phi ∧ ofBinary op t ≠ .alloca := by
  obtain hof | ⟨hof, hrem⟩ | ⟨hof, rfl | rfl⟩ := ofBinary_cases hdefined hlogic
  · rw [hof]
    cases op <;> simp_all [ofInt]
  · rw [hof]
    cases op <;> simp_all [ofFloat]
  · simp [hof, ofStr]
  · simp [hof, ofStr]

/-- An instruction for an operator has two operands and a type. -/
theorem fault?_ofBinary {f : Func} {v : Instr} {ty : Ty}
    (hdefined : Check.BinaryOp.defined op t = true) (hlogic : ¬(op = .and ∨ op = .or))
    (hop : v.op = ofBinary op t) (hargs : v.args.length = 2) (htype : v.type = some ty) :
    v.fault? f = .ok none := by
  unfold Instr.fault? Instr.operandFault? Instr.countFault?
  obtain hof | ⟨hof, hrem⟩ | ⟨hof, rfl | rfl⟩ := ofBinary_cases hdefined hlogic
  · rw [hop, hof]
    cases op <;> simp_all [ofInt, isVoid]
  · rw [hop, hof]
    cases op <;> simp_all [ofFloat, isVoid]
  · simp [hop, hof, ofStr, isVoid, hargs, htype]
  · simp [hop, hof, ofStr, isVoid, hargs, htype]

end Graph.Op

namespace Graph

namespace Build

open Builder (Inv Step Has Value)

variable {α : Type} {pend : List Nat} {dom : Doms} {s : Builder} {vars : List Var}

/-- There is a slot for each of the visible variables. -/
theorem computes_slotOf {v : Var} (hv : v ∈ vars) :
    Computes vars (slotOf v) fun i _ s => ∃ p, (p, i) ∈ s.slots := by
  intro pend dom s h
  obtain ⟨i, hi⟩ := Option.isSome_iff_exists.1 (h.bound v hv)
  have hrun : (slotOf v).run s =
      (Build.require (s.slots.lookup v.pos) (.noSlot v.name) 0).run s := rfl
  obtain ⟨l, l', hsplit, _⟩ := List.lookup_eq_some_iff.1 hi
  exact .of_eq hrun (.require hi _ _ h.inv h.current ⟨v.pos, by simp [hsplit]⟩)

/-- The value of a new instruction has its type. -/
theorem Makes.typed {m : Build Nat} {op : Op} {ty : Ty}
    (h : Makes pend dom s m fun i dom' s' => ∃ v, Has dom' s' i v ∧ v.op = op ∧ v.type = some ty) :
    Makes pend dom s m (Value ty) :=
  h.imp fun _ _ _ _ ⟨v, hv, _, hty⟩ => ⟨v, hv, hty⟩

theorem Makes.emitFloat {ty : Ty} (h : Inv dom pend s) (hcur : s.current.isSome = true) (pos : Pos)
    (float : Double) : Makes pend dom s (emitFloat (some ty) pos float) (Value ty) := by
  obtain ⟨c, hc⟩ := Option.isSome_iff_exists.1 hcur
  have hplace : Makes pend dom s (Build.place c fun i =>
      { id := i, op := .constFloat, type := some ty, block := c, float, pos }) (Value ty) :=
    (Makes.place h hc (by simp) (by simp) (by simp) (by simp) (fun i => rfl) (by simp)).imp
      fun i dom' s' _ hi => ⟨_, hi.1, rfl⟩
  refine .of_eq ?_ hplace
  unfold Build.emitFloat
  rw [run_bind, run_here hc]

/-- A constant that has the type it should have is a value of that type. -/
theorem computes_constant {ty : Ty} {pos : Pos} {c : Constant} (h : c.Fits ty) :
    Computes vars (Lower.constant ty pos c) (Value ty) := by
  intro pend dom s hs
  have hnone : Lower.constantFault? ty c = none := by
    cases c <;> cases ty <;> simp_all [Constant.Fits, Lower.constantFault?]
  unfold Lower.constant
  rw [hnone]
  cases c with
  | int n =>
      exact (Makes.emitWith hs.inv hs.current (by simp) (by simp) (by simp) fun _ _ => rfl).typed
  | float q => exact .emitFloat hs.inv hs.current pos _
  | bool b =>
      exact (Makes.emitWith hs.inv hs.current (by simp) (by simp) (by simp) fun _ _ => rfl).typed
  | str x =>
      exact (Makes.emitWith hs.inv hs.current (by simp) (by simp) (by simp) fun _ _ => rfl).typed

/-- Expressions are computed one after the other. -/
theorem computes_exprs {ls : Layouts} {xs : List Typed.Expr}
    (h : ∀ x ∈ xs, Computes vars (Lower.expr ls x) (Value x.ty)) :
    Computes vars (Lower.exprs ls xs) fun is dom s => ∀ i ∈ is, ∃ v, Has dom s i v := by
  induction xs with
  | nil =>
      intro pend dom s hs
      rw [Lower.exprs]
      exact .pure hs.inv hs.current (by simp)
  | cons x rest ih =>
      intro pend dom s hs
      rw [Lower.exprs]
      refine (h x (by simp) _ _ _ hs).bind fun i dom₁ s₁ hstep hcur hi => ?_
      have hs₁ := hs.next hstep hcur
      refine (ih (fun y hy => h y (by simp [hy])) _ _ _ hs₁).bind
        fun is dom₂ s₂ hstep hcur his => ?_
      refine .pure (hs₁.next hstep hcur).inv hcur fun j hj => ?_
      rcases List.mem_cons.1 hj with rfl | hj
      · exact (hi.next hstep hcur).exists_has
      · exact his j hj

theorem computes_var {ls : Layouts} {id : Ident} {v : Var} (hv : v ∈ vars) :
    Computes vars (Lower.expr ls (.var id v)) (Value v.ty) := by
  intro pend dom s hs
  rw [Lower.expr]
  refine (computes_slotOf hv _ _ _ hs).bind ?_
  rintro slot dom₁ s₁ hstep hcur ⟨p, hp⟩
  obtain ⟨x, hx, hop⟩ := hstep.inv.has_slot hcur hp
  refine (Makes.emitWith hstep.inv hcur (by simp) (by simp) (by simpa using ⟨x, hx⟩)
    fun id block => ?_).typed
  simp [Instr.fault?, Instr.operandFault?, Instr.targetFault?, Instr.countFault?, Instr.firstOp,
    hx.instr, hop, Op.isVoid, Bind.bind, Except.bind, Pure.pure, Except.pure]

theorem computes_unary {ls : Layouts} {pos : Pos} {op : UnaryOp} {x : Typed.Expr}
    {value : Option Constant} (hx : Computes vars (Lower.expr ls x) (Value x.ty))
    (hfits : ∀ c ∈ value, c.Fits x.ty) :
    Computes vars (Lower.expr ls (.unary pos op x x.ty value)) (Value x.ty) := by
  intro pend dom s hs
  cases value with
  | some c =>
      rw [Lower.expr]
      exact computes_constant (hfits c rfl) _ _ _ hs
  | none =>
      rw [Lower.expr]
      refine (hx _ _ _ hs).bind fun i dom₁ s₁ hstep hcur hi => ?_
      have hhas : ∀ a ∈ [i], ∃ v, Has dom₁ s₁ a v := by simpa using hi.exists_has
      obtain hop | hop | hop := Op.ofUnary_cases op x.ty
      all_goals
        rw [hop]
        exact (Makes.emitWith hstep.inv hcur (by simp) (by simp) hhas fun _ _ => rfl).typed

theorem computes_binary {ls : Layouts} {op : BinaryOp} {x y : Typed.Expr}
    {value : Option Constant} (hx : Computes vars (Lower.expr ls x) (Value x.ty))
    (hy : Computes vars (Lower.expr ls y) (Value y.ty)) (hsame : x.ty = y.ty)
    (hdefined : Check.BinaryOp.defined op x.ty = true)
    (hfits : ∀ c ∈ value, c.Fits (Check.BinaryOp.result op x.ty)) :
    Computes vars (Lower.expr ls (.binary op x y (Check.BinaryOp.result op x.ty) value))
      (Value (Check.BinaryOp.result op x.ty)) := by
  intro pend dom s hs
  cases value with
  | some c =>
      rw [Lower.expr]
      exact computes_constant (hfits c rfl) _ _ _ hs
  | none =>
      rw [Lower.expr]
      by_cases hlogic : op = .and ∨ op = .or
      · have hbool : x.ty = .bool := by
          refine Ty.eq_bool (t := x.ty) ?_
          rcases hlogic with rfl | rfl <;> exact hdefined
        have hresult : Check.BinaryOp.result op x.ty = .bool := by
          rcases hlogic with rfl | rfl <;> exact hbool
        have hcond : (decide (op = .and) || decide (op = .or)) = true := by simpa using hlogic
        simp only [if_pos hcond]
        refine (hx _ _ _ hs).bind fun i dom₁ s₁ hstep hcur hi => ?_
        rw [hbool] at hi
        rw [hresult]
        rw [← hsame, hbool] at hy
        exact makes_logic (op = .and) _ (hs.next hstep hcur) hi hy
      · have hcond : ¬(decide (op = .and) || decide (op = .or)) = true := by simpa using hlogic
        simp only [if_neg hcond]
        refine (hx _ _ _ hs).bind fun i dom₁ s₁ hstep hcur hi => ?_
        have hs₁ := hs.next hstep hcur
        refine (hy _ _ _ hs₁).bind fun j dom₂ s₂ hstep hcur hj => ?_
        have hargs : ∀ a ∈ [i, j], ∃ v, Has dom₂ s₂ a v := by
          simpa using ⟨(hi.next hstep hcur).exists_has, hj.exists_has⟩
        obtain ⟨hinvalid, hphi, hslot⟩ := Op.ofBinary_ne hdefined hlogic
        simp only [if_neg hinvalid]
        exact (Makes.emitWith hstep.inv hcur hphi hslot hargs
          fun _ _ => Op.fault?_ofBinary hdefined hlogic rfl rfl rfl).typed

theorem computes_call {ls : Layouts} {fn : Ident} {sym : Symbol} {targs : List Ty}
    {sig : Signature} {args : List Typed.Expr}
    (hargs : ∀ x ∈ args, Computes vars (Lower.expr ls x) (Value x.ty)) :
    Computes vars (Lower.expr ls (.call fn sym targs sig args)) (Value sig.result) := by
  intro pend dom s hs
  rw [Lower.expr]
  refine (computes_exprs hargs _ _ _ hs).bind fun is dom₁ s₁ hstep hcur his => ?_
  exact (Makes.emitWith hstep.inv hcur (by simp) (by simp) his fun _ _ => rfl).typed

/-- A call through a dispatch table is made of three instructions. -/
theorem makes_virtualCall {ls : Layouts} {name : String} {slot recv : Nat} {args : List Nat}
    (hslot : ls.slot? name = some slot) (sig : Signature) (pos : Pos) (hs : Ready vars pend dom s)
    (hargs : ∀ i ∈ recv :: args, ∃ v, Has dom s i v) :
    Makes pend dom s (Lower.virtualCall ls name sig pos recv args) (Value sig.result) := by
  unfold Lower.virtualCall
  rw [hslot]
  refine (Makes.require rfl _ _ hs.inv hs.current trivial (Q := fun _ _ _ => True)).bind
    fun k dom₁ s₁ hstep hcur _ => ?_
  have hargs : ∀ i ∈ recv :: args, ∃ v, Has dom₁ s₁ i v := fun i hi =>
    (hargs i hi).imp fun _ hv => hstep.has hcur hv
  have hs := hs.next hstep hcur
  refine (Makes.emitWith (t := none) hs.inv hs.current (by simp) (by simp)
    (by simpa using hargs recv (by simp)) fun _ _ => rfl).bind
    fun table dom₂ s₂ hstep hcur ⟨v, hv, hop, _⟩ => ?_
  have hargs : ∀ i ∈ recv :: args, ∃ v, Has dom₂ s₂ i v := fun i hi =>
    (hargs i hi).imp fun _ hv => hstep.has hcur hv
  have hs := hs.next hstep hcur
  refine (Makes.emitWith hs.inv hs.current (by simp) (by simp) (by simpa using ⟨v, hv⟩)
    fun _ _ => ?_).bind fun entry dom₃ s₃ hstep hcur ⟨w, hw, hop, _⟩ => ?_
  · simp [Instr.fault?, Instr.operandFault?, Instr.targetFault?, Instr.countFault?, Instr.firstOp,
      hv.instr, hop, Op.isVoid, Signature.ty, Bind.bind, Except.bind, Pure.pure, Except.pure]
  have hs := hs.next hstep hcur
  refine (Makes.emitWith hs.inv hs.current (by simp) (by simp) (fun i hi => ?_)
    fun _ _ => ?_).typed
  · rcases List.mem_cons.1 hi with rfl | hi
    · exact ⟨w, hw⟩
    · exact (hargs i hi).imp fun _ hv => hstep.has hcur hv
  · simp [Instr.fault?, Instr.operandFault?, Instr.firstOp, hw.instr, hop, Op.isVoid, Op.isCall,
      Bind.bind, Except.bind, Pure.pure, Except.pure]

theorem computes_invoke {ls : Layouts} {x : Typed.Expr} {sel : Ident} {kind : CallKind}
    {m : Method} {sig : Signature} {args : List Typed.Expr}
    (hx : Computes vars (Lower.expr ls x) (Value x.ty))
    (hargs : ∀ x ∈ args, Computes vars (Lower.expr ls x) (Value x.ty))
    (hslot : ∃ slot, ls.slot? sel.text = some slot) :
    Computes vars (Lower.expr ls (.invoke x sel kind m sig args)) (Value sig.result) := by
  intro pend dom s hs
  rw [Lower.expr]
  refine (hx _ _ _ hs).bind fun i dom₁ s₁ hstep hcur hi => ?_
  have hs := hs.next hstep hcur
  refine (computes_exprs hargs _ _ _ hs).bind fun is dom₂ s₂ hstep hcur his => ?_
  have hs := hs.next hstep hcur
  have hall : ∀ j ∈ i :: is, ∃ v, Has dom₂ s₂ j v := by
    intro j hj
    rcases List.mem_cons.1 hj with rfl | hj
    · exact (hi.next hstep hcur).exists_has
    · exact his j hj
  split
  next => exact (Makes.emitWith hs.inv hcur (by simp) (by simp) hall fun _ _ => rfl).typed
  next =>
    obtain ⟨slot, hslot⟩ := hslot
    exact makes_virtualCall hslot sig x.pos hs hall

/-- A layout has the field `name` that is selected from `x`. -/
structure HasField (ls : Layouts) (x : Typed.Expr) (name : String) : Prop where
  place : ∃ cls l p, x.ty.className? = some cls ∧ ls.named? cls = some l ∧ l.field? name = some p

theorem hasField_of_found {t : Table} {x : Typed.Expr} {c : ClassInfo} {name : String} {f : Field}
    (ht : t.WellTyped) (hc : t.classOf? x.ty = some c)
    (hf : t.lookupField c.id name = some f) : HasField (Layouts.build t) x name := by
  obtain ⟨cls, hcls, hc⟩ := Option.bind_eq_some_iff.1 hc
  obtain ⟨l, hl, hfields⟩ := Layouts.exists_named ht hc
  obtain ⟨hmem, hname⟩ := Table.lookupField_mem hf
  obtain ⟨p, hp⟩ := hfields _ hmem
  exact ⟨cls, l, p, hcls, hl, hname ▸ hp⟩

theorem makes_fieldOffset {ls : Layouts} {x : Typed.Expr} {name : String}
    (hfield : HasField ls x name) (hs : Ready vars pend dom s) :
    Makes pend dom s (Lower.fieldOffset ls x name) fun _ _ _ => True := by
  obtain ⟨cls, l, p, hcls, hl, hp⟩ := hfield.place
  unfold Lower.fieldOffset
  rw [hcls]
  have hoffset : ((ls.named? cls).bind fun l => (l.field? name).map (·.offset)) = some p.offset := by
    simp [hl, hp]
  exact (Makes.require hoffset _ _ hs.inv hs.current trivial (Q := fun _ _ _ => True)).bind
    fun _ _ _ hstep hcur _ => .pure hstep.inv hcur trivial

theorem computes_field {ls : Layouts} {x : Typed.Expr} {sel : Ident} {f : Field} {ty : Ty}
    (hx : Computes vars (Lower.expr ls x) (Value x.ty)) (hfield : HasField ls x sel.text) :
    Computes vars (Lower.expr ls (.field x sel f ty)) (Value ty) := by
  intro pend dom s hs
  rw [Lower.expr]
  refine (hx _ _ _ hs).bind fun i dom₁ s₁ hstep hcur hi => ?_
  have hs := hs.next hstep hcur
  refine (makes_fieldOffset hfield hs).bind fun offset dom₂ s₂ hstep hcur _ => ?_
  exact (Makes.emitWith hstep.inv hcur (by simp) (by simp)
    (by simpa using (hi.next hstep hcur).exists_has) fun _ _ => rfl).typed

/-- The elements of an initializer are stored into the object. -/
theorem makes_fill {ls : Layouts} {l : ClassLayout} {obj : Nat} {elems : List (Ident × Typed.Expr)}
    (hkeys : ∀ e ∈ elems, ∃ p, l.field? e.1.text = some p)
    (helems : ∀ e ∈ elems, Computes vars (Lower.expr ls e.2) (Value e.2.ty))
    (hs : Ready vars pend dom s) {v : Instr} (hobj : Has dom s obj v) :
    Makes pend dom s (Lower.fill ls l obj elems) fun _ dom' s' => Has dom' s' obj v := by
  induction elems generalizing dom s with
  | nil =>
      rw [Lower.fill]
      exact .pure hs.inv hs.current hobj
  | cons e rest ih =>
      obtain ⟨key, value⟩ := e
      obtain ⟨p, hp⟩ := hkeys (key, value) (by simp)
      rw [Lower.fill, hp]
      refine (Makes.require rfl _ _ hs.inv hs.current trivial (Q := fun _ _ _ => True)).bind
        fun k dom₁ s₁ hstep hcur _ => ?_
      have hs := hs.next hstep hcur
      have hobj := hstep.has hcur hobj
      refine (helems (key, value) (by simp) _ _ _ hs).bind fun i dom₂ s₂ hstep hcur hi => ?_
      have hs := hs.next hstep hcur
      have hobj := hstep.has hcur hobj
      refine (Makes.emitWith (t := none) hs.inv hs.current (by simp) (by simp)
        (by simpa using ⟨⟨v, hobj⟩, hi.exists_has⟩) fun _ _ => rfl).discard.bind
        fun _ dom₃ s₃ hstep hcur _ => ?_
      exact ih (fun e he => hkeys e (by simp [he])) (fun e he => helems e (by simp [he]))
        (hs.next hstep hcur) (hstep.has hcur hobj)

theorem computes_init {ls : Layouts} {l : ClassLayout} {cls : Ident} {sym : Symbol} {ty : Ty}
    {fields : List Field} {elems : List (Ident × Typed.Expr)} (hl : ls.named? cls.text = some l)
    (hkeys : ∀ e ∈ elems, ∃ p, l.field? e.1.text = some p)
    (helems : ∀ e ∈ elems, Computes vars (Lower.expr ls e.2) (Value e.2.ty)) :
    Computes vars (Lower.expr ls (.init cls sym ty fields elems)) (Value ty) := by
  intro pend dom s hs
  rw [Lower.expr, hl]
  refine (Makes.require rfl _ _ hs.inv hs.current rfl (Q := fun k _ _ => k = l)).bind
    fun k dom₁ s₁ hstep hcur hk => ?_
  subst hk
  have hs := hs.next hstep hcur
  refine (Makes.emitWith hs.inv hs.current (by simp) (by simp) (by simp) fun _ _ => rfl).bind ?_
  rintro i dom₂ s₂ hstep hcur ⟨v, hv, _, hty⟩
  have hs := hs.next hstep hcur
  refine (makes_fill hkeys helems hs hv).bind fun _ dom₃ s₃ hstep hcur hv => ?_
  have hs := hs.next hstep hcur
  refine (Makes.emitWith (t := none) hs.inv hs.current (by simp) (by simp)
    (by simpa using ⟨v, hv⟩) fun _ _ => rfl).discard.bind fun _ dom₄ s₄ hstep hcur _ => ?_
  exact .pure hstep.inv hcur ⟨v, hstep.has hcur hv, hty⟩

theorem computes_paren {ls : Layouts} {pos : Pos} {x : Typed.Expr}
    (hx : Computes vars (Lower.expr ls x) (Value x.ty))
    (hfits : ∀ c ∈ x.value?, c.Fits x.ty) :
    Computes vars (Lower.expr ls (.paren pos x)) (Value x.ty) := by
  intro pend dom s hs
  rw [Lower.expr]
  cases hvalue : x.value? with
  | some c => exact computes_constant (hfits c hvalue) _ _ _ hs
  | none => exact hx _ _ _ hs

/-- Every well typed expression is computed without a fault, and its value has its type. -/
theorem computes_expr {Γ : Typed.Context} (hΓ : Γ.Sound) {e : Typed.Expr} (h : e.Ok Γ vars) :
    Computes vars (Lower.expr (Layouts.build Γ.table) e) (Value e.ty) := by
  have hlinked := hΓ.table.linked
  induction h with
  | var found _ _ => exact computes_var (List.mem_of_find?_eq_some found)
  | const fits =>
      intro pend dom s hs
      rw [Lower.expr]
      exact computes_constant fits _ _ _ hs
  | literal fits =>
      intro pend dom s hs
      rw [Lower.expr]
      exact computes_constant fits _ _ _ hs
  | unary _ _ fits _ ih => exact computes_unary ih fits
  | binary _ _ same defined fits _ _ ihx ihy => exact computes_binary ihx ihy same defined fits
  | call _ _ _ _ _ _ ih => exact computes_call ih
  | @invoke x sel c m args _ cls method _ _ _ ihx ih =>
      have hi := Table.class?_eq_some_lt (hlinked.class?_id (Table.classOf?_mem cls))
      exact computes_invoke ihx ih
        (Layouts.exists_slot_of_mem (Layouts.mem_slots_of_lookupMethod hlinked hi method))
  | @invokeBound x sel p b m args _ _ bound method _ _ _ ihx ih =>
      obtain ⟨_, _, hb⟩ := Option.bind_eq_some_iff.1 bound
      have hname : m.name = sel.text := by simpa using List.find?_some method
      refine computes_invoke ihx ih (Layouts.exists_slot_of_mem (hname ▸ ?_))
      exact Layouts.mem_slots_of_bound (List.mem_of_find?_eq_some hb)
        (List.mem_of_find?_eq_some method)
  | field _ cls found ih => exact computes_field ih (hasField_of_found hΓ.table cls found)
  | @init cls sym c targs elems found _ keys _ _ ih =>
      obtain ⟨l, hl, hfields⟩ := Layouts.exists_named hΓ.table found
      refine computes_init hl (fun e he => ?_) ih
      obtain ⟨f, hf, hname⟩ := List.mem_map.1 (keys.mem_iff.1 (List.mem_map_of_mem he))
      exact hname ▸ hfields f hf
  | paren inner ih => exact computes_paren ih fun c hc => inner.value_fits hc

end Build

end Graph

end ClassLang
