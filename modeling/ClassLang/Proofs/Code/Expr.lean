import ClassLang.Proofs.Code.Rules
import ClassLang.Proofs.Graph.Expr

/-!
Construction makes the code of an expression. What is said of a piece of construction is said
of the graph that is finished later, so that the code of a whole is put together from that of
its parts.
-/

namespace ClassLang.Graph

namespace Build

open Builder (Inv Step Stage Value Later Has)

variable {pend : List Nat} {dom : Doms} {s : Builder} {vars : List Var} {ls : Layouts}

theorem codes_constant {ty : Ty} {pos : Pos} {c : Constant} (h : c.Fits ty) :
    CodesAll vars (Lower.constant ty pos c) fun t p i q =>
      i = p.count ∧ q = p.next ∧ t.func.Holds p (p.constant ty pos c) := by
  intro pend dom s hs
  have hnone : Lower.constantFault? ty c = none := by
    cases c <;> cases ty <;> simp_all [Constant.Fits, Lower.constantFault?]
  obtain ⟨a, ha⟩ := Option.isSome_iff_exists.1 hs.current
  unfold Lower.constant
  rw [hnone]
  cases c with
  | int n => exact .emitWith _ _ _ _ _ _ hs.inv hs.current (by simp) (by simp)
  | float q =>
      refine .of_eq ?_ (.place (v := fun b i =>
        { id := i, op := .constFloat, type := some ty, block := b, float := Double.ofRat q, pos })
        hs.inv ha (by simp) (by simp))
      change (emitFloat (some ty) pos (Double.ofRat q)).run s = _
      unfold emitFloat
      rw [run_bind, run_here ha]
  | bool b => exact .emitWith _ _ _ _ _ _ hs.inv hs.current (by simp) (by simp)
  | str x => exact .emitWith _ _ _ _ _ _ hs.inv hs.current (by simp) (by simp)

/-- A slot that was made for a variable is found in the finished graph. -/
theorem codes_slotOf {v : Var} (hv : v ∈ vars) :
    CodesAll vars (slotOf v) fun t p i q => t.slots.lookup v.pos = some i ∧ q = p := by
  intro pend dom s hs
  obtain ⟨i, hi⟩ := Option.isSome_iff_exists.1 (hs.bound v hv)
  have hrun : (slotOf v).run s = (i, s) := run_require hi _ _ s
  intro t ht hlater
  rw [hrun] at hlater ⊢
  exact ⟨hlater, ht.lookup hlater hi, rfl⟩

/-- The code of an expression is made wherever the variables `vars` have slots. -/
abbrev CodesExpr (ls : Layouts) (vars : List Var) (e : Typed.Expr) : Prop :=
  CodesAll vars (Lower.expr ls e) fun t p i q => ExprCode ls t e p i q

theorem codes_exprs {xs : List Typed.Expr}
    (hx : ∀ x ∈ xs, Computes vars (Lower.expr ls x) (Value x.ty))
    (h : ∀ x ∈ xs, CodesExpr ls vars x) :
    CodesAll vars (Lower.exprs ls xs) fun t p is q => ExprsCode ls t xs p is q := by
  induction xs with
  | nil =>
      intro pend dom s hs
      rw [Lower.exprs]
      refine Codes.pure.imp ?_
      rintro t p is q _ ⟨rfl, rfl⟩
      exact .nil
  | cons x rest ih =>
      intro pend dom s hs
      rw [Lower.exprs]
      refine Codes.imp (Codes.andThen (hx x (by simp) _ _ _ hs) (h x (by simp) _ _ _ hs)
        fun i dom₁ s₁ hstep hcur _ =>
          have hs₁ := hs.next hstep hcur
          Codes.andThen (computes_exprs (fun y hy => hx y (by simp [hy])) _ _ _ hs₁)
            (ih (fun y hy => hx y (by simp [hy])) (fun y hy => h y (by simp [hy])) _ _ _ hs₁)
            fun is dom₂ s₂ _ _ _ => .pure) ?_
      rintro t p _ q _ ⟨i, r, hi, is, _, his, rfl, rfl⟩
      exact .cons hi his

theorem codes_var {id : Ident} {v : Var} (hv : v ∈ vars) : CodesExpr ls vars (.var id v) := by
  intro pend dom s hs
  rw [Lower.expr]
  refine Codes.imp (Codes.andThen (computes_slotOf hv _ _ _ hs) (codes_slotOf hv _ _ _ hs)
    fun slot dom₁ s₁ hstep hcur _ => .emitWith .load (some v.ty) [slot] id.pos
      0 none hstep.inv hcur (by simp) (by simp)) ?_
  rintro t p i q _ ⟨slot, _, ⟨hslot, rfl⟩, rfl, rfl, hload⟩
  exact .var hslot hload

theorem codes_unary {pos : Pos} {op : UnaryOp} {x : Typed.Expr} {ty : Ty} {value : Option Constant}
    (hx : Computes vars (Lower.expr ls x) (Value x.ty)) (h : CodesExpr ls vars x)
    (hfits : ∀ c ∈ value, c.Fits ty) : CodesExpr ls vars (.unary pos op x ty value) := by
  intro pend dom s hs
  cases value with
  | some c =>
      rw [Lower.expr]
      refine (codes_constant (hfits c rfl) _ _ _ hs).imp ?_
      rintro t p i q _ ⟨rfl, rfl, hinstr⟩
      exact .unaryFolded hinstr
  | none =>
      rw [Lower.expr]
      refine Codes.imp (Codes.andThen (hx _ _ _ hs) (h _ _ _ hs) fun i dom₁ s₁ hstep hcur _ =>
        .emitWith (Op.ofUnary op x.ty) (some x.ty) [i] pos 0 none hstep.inv hcur
          (by obtain h | h | h := Op.ofUnary_cases op x.ty <;> simp [h])
          (by obtain h | h | h := Op.ofUnary_cases op x.ty <;> simp [h])) ?_
      rintro t p i q _ ⟨i, r, hi, rfl, rfl, hinstr⟩
      exact .unary hi hinstr

theorem codes_binary {op : BinaryOp} {x y : Typed.Expr} {value : Option Constant}
    (hx : Computes vars (Lower.expr ls x) (Value x.ty))
    (hy : Computes vars (Lower.expr ls y) (Value y.ty)) (h : CodesExpr ls vars x)
    (h' : CodesExpr ls vars y) (hsame : x.ty = y.ty)
    (hdefined : Check.BinaryOp.defined op x.ty = true)
    (hfits : ∀ c ∈ value, c.Fits (Check.BinaryOp.result op x.ty)) :
    CodesExpr ls vars (.binary op x y (Check.BinaryOp.result op x.ty) value) := by
  intro pend dom s hs
  cases value with
  | some c =>
      rw [Lower.expr]
      refine (codes_constant (hfits c rfl) _ _ _ hs).imp ?_
      rintro t p i q _ ⟨rfl, rfl, hinstr⟩
      exact .binaryFolded hinstr
  | none =>
      rw [Lower.expr]
      by_cases hlogic : op = .and ∨ op = .or
      · have hbool : x.ty = .bool := by
          refine Ty.eq_bool (t := x.ty) ?_
          rcases hlogic with rfl | rfl <;> exact hdefined
        have hcond : (decide (op = .and) || decide (op = .or)) = true := by simpa using hlogic
        simp only [if_pos hcond]
        refine Codes.imp (Codes.andThen (hx _ _ _ hs) (h _ _ _ hs) fun i dom₁ s₁ hstep hcur hi =>
          codes_logic (op = .and) _ (hs.next hstep hcur) (hbool ▸ hi) (hbool ▸ hsame ▸ hy) h') ?_
        rintro t p i q _ ⟨left, r, hleft, side, merge, j, short, e, hfork, hstart, hshort, hright,
          hmerges, rfl, rfl⟩
        exact .logic hlogic hleft hfork hstart hshort hright hmerges
      · have hcond : ¬(decide (op = .and) || decide (op = .or)) = true := by simpa using hlogic
        simp only [if_neg hcond]
        obtain ⟨hinvalid, hphi, hslot⟩ := Op.ofBinary_ne hdefined hlogic
        simp only [if_neg hinvalid]
        refine Codes.imp (Codes.andThen (hx _ _ _ hs) (h _ _ _ hs) fun i dom₁ s₁ hstep hcur _ =>
          have hs₁ := hs.next hstep hcur
          Codes.andThen (hy _ _ _ hs₁) (h' _ _ _ hs₁) fun j dom₂ s₂ hstep hcur _ =>
            .emitWith _ _ _ _ _ _ hstep.inv hcur hphi hslot) ?_
        rintro t p i q _ ⟨i, _, hi, j, _, hj, rfl, rfl, hinstr⟩
        exact .binary hlogic hi hj hinstr

theorem codes_call {fn : Ident} {sym : Symbol} {targs : List Ty} {sig : Signature}
    {args : List Typed.Expr} (hx : ∀ x ∈ args, Computes vars (Lower.expr ls x) (Value x.ty))
    (h : ∀ x ∈ args, CodesExpr ls vars x) : CodesExpr ls vars (.call fn sym targs sig args) := by
  intro pend dom s hs
  rw [Lower.expr]
  refine Codes.imp (Codes.andThen (computes_exprs hx _ _ _ hs) (codes_exprs hx h _ _ _ hs)
    fun is dom₁ s₁ hstep hcur _ => .emitWith .callDirect (some sig.result) is fn.pos 0
      (some (.callee (Lower.calleeOf sym))) hstep.inv hcur (by simp) (by simp)) ?_
  rintro t p i q _ ⟨is, r, his, rfl, rfl, hinstr⟩
  exact .call his hinstr

theorem codes_virtualCall {name : String} {slot recv : Nat} {args : List Nat} {sig : Signature}
    {pos : Pos} {kind : CallKind} {m : Method} (hkind : kind ≠ .direct)
    (hslot : ls.slot? name = some slot) (hs : Ready vars pend dom s)
    (hargs : ∀ i ∈ recv :: args, ∃ v, Has dom s i v) :
    Codes s (Lower.virtualCall ls name sig pos recv args) fun t p i q =>
      ∃ r, CallsMethod ls t.func kind m name sig pos recv args p r ∧ i = r.count ∧ q = r.next := by
  unfold Lower.virtualCall
  rw [hslot]
  refine Codes.imp (Codes.andThen
    (Makes.require (x := some slot) rfl (.noDispatchSlot name) 0 hs.inv hs.current trivial
      (Q := fun _ _ _ => True))
    (Codes.require (x := some slot) rfl (.noDispatchSlot name) 0)
    fun k dom₁ s₁ hstep hcur _ =>
      have hs₁ := hs.next hstep hcur
      Codes.emits .dispatchTable none [recv] pos 0 none hs₁ (by simp) (by simp)
        (by
          obtain ⟨v, hv⟩ := hargs recv (by simp)
          simpa using ⟨v, hstep.has hcur hv⟩)
        (fun _ _ => rfl)
        fun table dom₂ s₂ hstep hcur htable =>
          have hs₂ := hs₁.next hstep hcur
          Codes.emits .dispatchEntry (some sig.ty) [table] pos (Int64.ofInt k) (some (.text name))
            hs₂ (by simp) (by simp)
            (by
              obtain ⟨v, hv, _⟩ := htable
              simpa using ⟨v, hv⟩)
            (fun _ _ => by
              obtain ⟨v, hv, hop, _⟩ := htable
              simp [Instr.fault?, Instr.operandFault?, Instr.targetFault?, Instr.countFault?,
                Instr.firstOp, hv.instr, hop, Op.isVoid, Signature.ty, Bind.bind, Except.bind,
                Pure.pure, Except.pure])
            fun entry dom₃ s₃ hstep hcur _ =>
              .emitWith .callIndirect (some sig.result) (entry :: recv :: args) pos 0 none hstep.inv
                hcur (by simp) (by simp)) ?_
  rintro t p i q _ ⟨k, _, ⟨rfl, rfl⟩, htable, hentry, rfl, rfl, hcall⟩
  exact ⟨_, .table hkind hslot htable hentry hcall, rfl, rfl⟩

theorem codes_invoke {x : Typed.Expr} {sel : Ident} {kind : CallKind} {m : Method}
    {sig : Signature} {args : List Typed.Expr} (hx : Computes vars (Lower.expr ls x) (Value x.ty))
    (hargs : ∀ x ∈ args, Computes vars (Lower.expr ls x) (Value x.ty)) (h : CodesExpr ls vars x)
    (hall : ∀ x ∈ args, CodesExpr ls vars x) (hslot : ∃ slot, ls.slot? sel.text = some slot) :
    CodesExpr ls vars (.invoke x sel kind m sig args) := by
  intro pend dom s hs
  rw [Lower.expr]
  refine Codes.imp (Codes.andThen (hx _ _ _ hs) (h _ _ _ hs) fun i dom₁ s₁ hstep hcur hi =>
    have hs₁ := hs.next hstep hcur
    Codes.andThen (computes_exprs hargs _ _ _ hs₁) (codes_exprs hargs hall _ _ _ hs₁)
      (E := fun is t p j q => ∃ r, CallsMethod ls t.func kind m sel.text sig x.pos i is p r ∧
        j = r.count ∧ q = r.next)
      fun is dom₂ s₂ hstep hcur his => by
        have hs₂ := hs₁.next hstep hcur
        split
        next hdirect =>
          refine (Codes.emitWith _ _ _ _ _ _ hs₂.inv hcur (by simp) (by simp)).imp ?_
          rintro t p j q _ ⟨rfl, rfl, hcall⟩
          exact ⟨p, .direct hdirect hcall, rfl, rfl⟩
        next hkind =>
          obtain ⟨slot, hslot⟩ := hslot
          refine codes_virtualCall hkind hslot hs₂ fun j hj => ?_
          rcases List.mem_cons.1 hj with rfl | hj
          · exact (hi.next hstep hcur).exists_has
          · exact his j hj) ?_
  rintro t p j q _ ⟨i, _, hi, is, _, his, _, hcall, rfl, rfl⟩
  exact .invoke hi his hcall

theorem codes_fieldOffset {x : Typed.Expr} {name : String} (hfield : HasField ls x name) :
    Codes s (Lower.fieldOffset ls x name) fun _ p offset q => q = p ∧
      ∃ slot, ls.fieldSlot? x.ty name = some slot ∧ offset = Int64.ofInt slot.offset := by
  obtain ⟨cls, l, slot, hcls, hl, hslot⟩ := hfield.place
  have hfound : ls.fieldSlot? x.ty name = some slot := by
    simp [Layouts.fieldSlot?, hcls, hl, hslot]
  have hoffset : ((ls.named? cls).bind fun l => (l.field? name).map (·.offset)) =
      some slot.offset := by
    simp [hl, hslot]
  unfold Lower.fieldOffset
  rw [hcls]
  intro t ht hlater
  have hrun := run_require hoffset (.noField cls name) 0 s
  rw [run_bind, hrun] at hlater ⊢
  exact ⟨hlater, rfl, slot, hfound, rfl⟩

theorem codes_field {x : Typed.Expr} {sel : Ident} {f : Field} {ty : Ty}
    (hx : Computes vars (Lower.expr ls x) (Value x.ty)) (h : CodesExpr ls vars x)
    (hfield : HasField ls x sel.text) : CodesExpr ls vars (.field x sel f ty) := by
  intro pend dom s hs
  rw [Lower.expr]
  refine Codes.imp (Codes.andThen (hx _ _ _ hs) (h _ _ _ hs) fun i dom₁ s₁ hstep hcur _ =>
    have hs₁ := hs.next hstep hcur
    Codes.andThen (makes_fieldOffset hfield hs₁) (codes_fieldOffset hfield)
      fun offset dom₂ s₂ hstep hcur _ => .emitWith .loadField (some ty) [i] sel.pos offset
        (some (.text sel.text)) hstep.inv hcur (by simp) (by simp)) ?_
  rintro t p j q _ ⟨i, _, hi, _, _, ⟨rfl, slot, hslot, rfl⟩, rfl, rfl, hload⟩
  exact .field hi hslot hload

theorem codes_fill {l : ClassLayout} {obj : Nat} {elems : List (Ident × Typed.Expr)}
    (hkeys : ∀ e ∈ elems, ∃ p, l.field? e.1.text = some p)
    (hx : ∀ e ∈ elems, Computes vars (Lower.expr ls e.2) (Value e.2.ty))
    (h : ∀ e ∈ elems, CodesExpr ls vars e.2) (hs : Ready vars pend dom s) {v : Instr}
    (hobj : Has dom s obj v) :
    Codes s (Lower.fill ls l obj elems) fun t p _ q => FillCode ls t l obj elems p q := by
  induction elems generalizing dom s with
  | nil =>
      rw [Lower.fill]
      refine Codes.pure.imp ?_
      rintro t p _ q _ ⟨_, rfl⟩
      exact .nil
  | cons e rest ih =>
      obtain ⟨key, value⟩ := e
      obtain ⟨slot, hslot⟩ := hkeys (key, value) (by simp)
      rw [Lower.fill, hslot]
      refine Codes.imp (Codes.andThen
        (Makes.require (x := (some slot).map (·.offset)) rfl (.noElement l.name key.text) 0 hs.inv
          hs.current trivial (Q := fun _ _ _ => True))
        (Codes.require (x := (some slot).map (·.offset)) rfl (.noElement l.name key.text) 0)
        fun k dom₁ s₁ hstep hcur _ =>
          have hs₁ := hs.next hstep hcur
          have hobj₁ := hstep.has hcur hobj
          Codes.andThen (hx (key, value) (by simp) _ _ _ hs₁) (h (key, value) (by simp) _ _ _ hs₁)
            fun i dom₂ s₂ hstep hcur hi =>
              have hs₂ := hs₁.next hstep hcur
              have hobj₂ := hstep.has hcur hobj₁
              Codes.discards .storeField [obj, i] key.pos (Int64.ofInt k) (some (.text key.text))
                hs₂ (by simp) (by simp) (by simpa using ⟨⟨v, hobj₂⟩, hi.exists_has⟩)
                (fun _ _ => rfl)
                fun dom₃ s₃ hstep hcur =>
                  ih (fun e he => hkeys e (by simp [he])) (fun e he => hx e (by simp [he]))
                    (fun e he => h e (by simp [he])) (hs₂.next hstep hcur) (hstep.has hcur hobj₂)) ?_
      rintro t p _ q _ ⟨k, _, ⟨rfl, rfl⟩, i, _, hi, hstore, hrest⟩
      exact .cons hslot hi hstore hrest

theorem codes_init {l : ClassLayout} {cls : Ident} {sym : Symbol} {ty : Ty} {fields : List Field}
    {elems : List (Ident × Typed.Expr)} (hl : ls.named? cls.text = some l)
    (hkeys : ∀ e ∈ elems, ∃ p, l.field? e.1.text = some p)
    (hx : ∀ e ∈ elems, Computes vars (Lower.expr ls e.2) (Value e.2.ty))
    (h : ∀ e ∈ elems, CodesExpr ls vars e.2) : CodesExpr ls vars (.init cls sym ty fields elems) := by
  intro pend dom s hs
  rw [Lower.expr, hl]
  refine Codes.imp (Codes.andThen
    (Makes.require (x := some l) rfl (.noLayout cls.text) default hs.inv hs.current rfl
      (Q := fun k _ _ => k = l))
    (Codes.require (x := some l) rfl (.noLayout cls.text) default)
    fun k dom₁ s₁ hstep hcur hk =>
      have hs₁ := hs.next hstep hcur
      Codes.emits .alloc (some ty) [] cls.pos (Int64.ofInt k.size) (some (.layout k)) hs₁
        (by simp) (by simp) (by simp) (fun _ _ => rfl)
        (E := fun i t p j q => j = i ∧ ∃ r, FillCode ls t k i elems p r ∧ q = r.next ∧
          t.func.Holds r (r.instr .setDispatch none [i] Pos.none 0 (some (.layout k))))
        fun i dom₂ s₂ hstep hcur hi => by
          subst hk
          obtain ⟨v, hv, _⟩ := hi
          have hs₂ := hs₁.next hstep hcur
          refine (Codes.andThen (makes_fill hkeys hx hs₂ hv) (codes_fill hkeys hx h hs₂ hv)
            fun _ dom₃ s₃ hstep hcur hv₃ =>
              Codes.discards .setDispatch [i] Pos.none 0 (some (.layout k)) (hs₂.next hstep hcur)
                (by simp) (by simp) (by simpa using ⟨v, hv₃⟩) (fun _ _ => rfl)
                fun dom₄ s₄ hstep hcur => .pure).imp ?_
          rintro t p j q _ ⟨_, r, hfill, hdispatch, rfl, rfl⟩
          exact ⟨rfl, r, hfill, rfl, hdispatch⟩) ?_
  rintro t p j q _ ⟨k, _, ⟨rfl, rfl⟩, halloc, rfl, r, hfill, rfl, hdispatch⟩
  exact .init hl halloc hfill hdispatch

theorem codes_paren {pos : Pos} {x : Typed.Expr} (h : CodesExpr ls vars x)
    (hfits : ∀ c ∈ x.value?, c.Fits x.ty) : CodesExpr ls vars (.paren pos x) := by
  intro pend dom s hs
  rw [Lower.expr]
  cases hvalue : x.value? with
  | some c =>
      refine (codes_constant (hfits c hvalue) _ _ _ hs).imp ?_
      rintro t p i q _ ⟨rfl, rfl, hinstr⟩
      exact .parenFolded hvalue hinstr
  | none =>
      refine (h _ _ _ hs).imp ?_
      intro t p i q _ hi
      exact .paren hvalue hi

/-- Construction makes the code of every well typed expression. -/
theorem codes_expr {Γ : Typed.Context} (hΓ : Γ.Sound) {e : Typed.Expr} (h : e.Ok Γ vars) :
    CodesExpr (Layouts.build Γ.table) vars e := by
  have hlinked := hΓ.table.linked
  induction h with
  | var found _ _ => exact codes_var (List.mem_of_find?_eq_some found)
  | const fits =>
      intro pend dom s hs
      rw [Lower.expr]
      refine (codes_constant fits _ _ _ hs).imp ?_
      rintro t p i q _ ⟨rfl, rfl, hinstr⟩
      exact .const hinstr
  | literal fits =>
      intro pend dom s hs
      rw [Lower.expr]
      refine (codes_constant fits _ _ _ hs).imp ?_
      rintro t p i q _ ⟨rfl, rfl, hinstr⟩
      exact .literal hinstr
  | unary operand _ fits _ ih => exact codes_unary (computes_expr hΓ operand) ih fits
  | binary left right same defined fits _ _ ihx ihy =>
      exact codes_binary (computes_expr hΓ left) (computes_expr hΓ right) ihx ihy same defined fits
  | call _ _ _ _ operands _ ih => exact codes_call (fun x hx => computes_expr hΓ (operands x hx)) ih
  | @invoke x sel c m args receiver cls method _ operands _ ihx ih =>
      have hi := Table.class?_eq_some_lt (hlinked.class?_id (Table.classOf?_mem cls))
      exact codes_invoke (computes_expr hΓ receiver) (fun x hx => computes_expr hΓ (operands x hx)) ihx
        ih (Layouts.exists_slot_of_mem (Layouts.mem_slots_of_lookupMethod hlinked hi method))
  | @invokeBound x sel p b m args receiver _ bound method _ operands _ ihx ih =>
      obtain ⟨_, _, hb⟩ := Option.bind_eq_some_iff.1 bound
      have hname : m.name = sel.text := by simpa using List.find?_some method
      refine codes_invoke (computes_expr hΓ receiver) (fun x hx => computes_expr hΓ (operands x hx)) ihx
        ih (Layouts.exists_slot_of_mem (hname ▸ ?_))
      exact Layouts.mem_slots_of_bound (List.mem_of_find?_eq_some hb)
        (List.mem_of_find?_eq_some method)
  | field receiver cls found ih =>
      exact codes_field (computes_expr hΓ receiver) ih (hasField_of_found hΓ.table cls found)
  | @init cls sym c targs elems found _ keys operands _ ih =>
      obtain ⟨l, hl, hfields⟩ := Layouts.exists_named hΓ.table found
      refine codes_init hl (fun e he => ?_) (fun e he => computes_expr hΓ (operands e he)) ih
      obtain ⟨f, hf, hname⟩ := List.mem_map.1 (keys.mem_iff.1 (List.mem_map_of_mem he))
      exact hname ▸ hfields f hf
  | paren inner ih => exact codes_paren ih fun c hc => inner.value_fits hc

end Build

end ClassLang.Graph
