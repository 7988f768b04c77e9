import ClassLang.Proofs.Meaning.Members

/-!
The code of a well typed expression follows the course of the expression. The induction is on the
typing, one case for each kind of expression.
-/

namespace ClassLang.Machine.Activation

open ClassLang.Graph (Spot ExprCode ExprsCode FillCode)

variable {A : Activation} {vars : List Var} {p q : Spot} {i : Nat} {is : List Nat}
  {e : Typed.Expr} {es : List Typed.Expr}

/-- What the body is typed against is sound. -/
theorem Valid.sound (hA : A.Valid) : A.context.Sound := ⟨hA.unit.sound.table, hA.unit.sound.funcs⟩

/-- The code of an expression follows its course, wherever it stands. -/
def Covers (A : Activation) (vars : List Var) (e : Typed.Expr) : Prop :=
  ∀ ⦃p i q⦄, ExprCode (Layouts.build A.table) A.code e p i q →
    A.Computes vars e.ty (A.value e) p i q

/-! Operands -/

theorem computesAll (h : ∀ e ∈ es, A.Covers vars e)
    (hcode : ExprsCode (Layouts.build A.table) A.code es p is q) :
    A.ComputesAll vars es p is q := by
  induction es generalizing p is with
  | nil =>
      cases hcode
      exact .nil
  | cons e es ih =>
      cases hcode with
      | cons first others =>
          obtain ⟨hle, hlt⟩ := first.count_le
          exact .cons (h e List.mem_cons_self first) hle hlt
            (ih (fun e he => h e (List.mem_cons_of_mem _ he)) others)

/-- The elements of an initializer are those of the class `c`. -/
theorem fills (hA : A.Valid) {c : ClassInfo} {own : Ty} {targs : List Ty} {l : ClassLayout}
    {elems : List (Ident × Typed.Expr)} (hown : A.table.classOf? own = some c)
    (hl : (Layouts.build A.table).named? c.name = some l)
    (his : Layouts.IsLayout A.table (Layouts.build A.table).slots c l) (hsized : Sized l)
    (htype : ∀ f ∈ A.table.flatFields c.id,
      f.ty.subst c.tparams own.args = A.type (f.ty.subst c.tparams targs))
    (hfit : ∀ e ∈ elems, ∀ f ∈ A.table.flatFields c.id, f.name = e.1.text →
      A.table.Fits e.2.ty (f.ty.subst c.tparams targs))
    (h : ∀ e ∈ elems, A.Covers vars e.2)
    (hcode : FillCode (Layouts.build A.table) A.code l i elems p q) :
    A.Fills vars own i elems p q := by
  induction elems generalizing p with
  | nil =>
      cases hcode
      exact .nil
  | cons elem elems ih =>
      cases hcode with
      | cons place first store others =>
          obtain ⟨hplace, hname⟩ := getElem?_flatFields his hsized place
          have hmem := List.mem_of_getElem? hplace
          exact .cons hA hown hl his hsized place (htype _ hmem)
            (hfit _ List.mem_cons_self _ hmem hname) (h _ List.mem_cons_self first) first.count_le.1
            store (ih (fun e he => hfit e (List.mem_cons_of_mem _ he))
              (fun e he => h e (List.mem_cons_of_mem _ he)) others)

/-! Methods -/

section

variable {c : ClassInfo} {m : Method} {name : String} {ty : Ty}

/-- A call through a class. -/
theorem finds_method (hA : A.Valid) (hscoped : ty.Scoped A.table.arity A.params)
    (hc : A.table.classOf? ty = some c) (hm : A.table.lookupMethod c.id name = some m) :
    A.Finds ty (Check.dispatch A.table c.id name) m name (m.sig.subst c.tparams ty.args) := by
  intro d own howns hfits
  have hwell : A.table.WellTyped := hA.unit.sound.table
  have hclosed := hscoped.subst hA.ground.length hA.ground.closed
  have hc' : A.table.classOf? (A.type ty) = some c := Table.classOf?_subst hc
  obtain ⟨found, hfound, htakes⟩ := Table.Fits.method hwell howns hclosed hfits hc' hm
  have hid := hwell.linked.class?_id (Table.classOf?_mem hc)
  obtain ⟨-, hsig, -⟩ := hwell.lookupMethod_scoped hid hm
  obtain ⟨hlen, hargs⟩ := Table.classOf?_args hscoped hc
  refine ⟨found, hfound, ⟨htakes.params.trans ?_, htakes.result.trans ?_⟩, fun hdirect => ?_⟩
  · rw [Signature.paramTypes_subst, List.map_map]
    exact List.map_congr_left fun ty' hty' =>
      (Table.subst_member (hsig.1 ty' hty').1 hscoped hc).symm
  · rw [hsig.result_subst hlen hargs]
    exact (Table.subst_member hsig.2 hscoped hc).symm
  · have hd := Table.class?_eq_some_lt (hwell.linked.class?_id (Table.classOf?_mem howns.cls))
    have hanc := (Table.Fits.classes hwell.linked hfits howns.cls hc').1
    exact Option.some.inj (hfound.symm.trans
      (Table.lookupMethod_of_direct hwell.linked hwell.overrides hd hanc hdirect hm))

/-- A type parameter stands for a type that has what its bound asks for. -/
theorem admits_param (hA : A.Valid) {tp : TypeParam}
    (hscoped : (Ty.param tp).Scoped A.table.arity A.params) :
    A.table.Admits tp (A.type (.param tp)) := by
  simp only [Ty.Scoped] at hscoped
  exact hA.ground.param hscoped

/-- A call through the bound of a type parameter. -/
theorem finds_bound (hA : A.Valid) {tp : TypeParam} {b : BoundInfo}
    (hscoped : (Ty.param tp).Scoped A.table.arity A.params)
    (hb : tp.bound.bind A.table.boundNamed? = some b) (hm : b.method? name = some m) :
    A.Finds (.param tp) .bound m name m.sig := by
  intro d own howns hfits
  have hwell : A.table.WellTyped := hA.unit.sound.table
  have hclosed := hscoped.subst hA.ground.length hA.ground.closed
  obtain ⟨href, hsat⟩ := admits_param hA hscoped
  obtain ⟨bname, -, hbname⟩ := Option.bind_eq_some_iff.1 hb
  have hbmem := List.mem_of_find?_eq_some hbname
  have hmmem := List.mem_of_find?_eq_some hm
  have hname : m.name = name := by simpa using List.find?_some hm
  obtain ⟨found, hfound, htakes⟩ :=
    Table.Fits.boundMethod hwell howns hclosed hfits href hbmem (hsat b hb) hmmem
  have hsig := (hwell.bounds b hbmem m hmmem).1
  refine ⟨found, hname ▸ hfound, ⟨htakes.params.trans ?_, htakes.result.trans ?_⟩, by simp⟩
  · exact (Table.map_subst_closed fun ty' hty' => (hsig.1 ty' hty').1).symm
  · exact hsig.2.subst_closed.symm

end

/-! Expressions -/

/-- The type of an initializer. -/
theorem owns_init (hA : A.Valid) {c : ClassInfo} {targs : List Ty} {ty : Ty}
    (hty : ty = if c.isGeneric then .inst c.name targs else .cls c.name)
    (hscoped : ty.Scoped A.table.arity A.params) (hc : c ∈ A.table.classes)
    (hinst : A.context.Instance c.tparams targs) : A.table.Owns c (A.type ty) ∧
      ∀ f ∈ A.table.flatFields c.id,
        f.ty.subst c.tparams (A.type ty).args = A.type (f.ty.subst c.tparams targs) := by
  have hwell : A.table.WellTyped := hA.unit.sound.table
  have hfound := hwell.linked.classNamed?_name hc
  have hlt := Table.class?_eq_some_lt (hwell.linked.class?_id hc)
  have hfields : ∀ f ∈ A.table.flatFields c.id, f.ty.Scoped A.table.arity c.tparams :=
    fun f hf => (hwell.lookupField_scoped (hwell.linked.class?_id hc)
      (hwell.lookupField_eq hlt hf)).2.1
  have hclosed := hscoped.subst hA.ground.length hA.ground.closed
  cases hgeneric : c.isGeneric with
  | true =>
      obtain rfl : ty = .inst c.name targs := by simpa [hgeneric] using hty
      refine ⟨⟨?_, hclosed, hinst.ground hwell hA.ground⟩, fun f hf => ?_⟩
      · simpa [Table.classOf?, Ty.className?, type, Ty.subst] using hfound
      · exact ((hfields f hf).subst_subst hinst.length).symm
  | false =>
      have hnil : c.tparams = [] := by simpa [ClassInfo.isGeneric] using hgeneric
      obtain rfl : ty = .cls c.name := by simpa [hgeneric] using hty
      refine ⟨⟨?_, hclosed, hnil ▸ .nil _⟩, fun f hf => ?_⟩
      · simpa [Table.classOf?, Ty.className?, type, Ty.subst] using hfound
      · have hf' := hfields f hf
        rw [hnil] at hf'
        rw [hf'.subst_closed, hf'.subst_closed]
        exact hf'.subst_closed.symm

/-- A well typed expression is covered. -/
theorem covers (hA : A.Valid) (h : e.Ok A.context vars) : A.Covers vars e := by
  induction h with
  | var found =>
      intro p i q hcode
      cases hcode with
      | var slot load => exact .var found slot load
  | const fits =>
      intro p i q hcode
      cases hcode with
      | const instr => exact .constant instr fits fun env => Direct.expr_of_value rfl
  | literal fits =>
      intro p i q hcode
      cases hcode with
      | literal instr => exact .constant instr fits fun env => Direct.expr_of_value rfl
  | unary operand defined fits folds ih =>
      intro p i q hcode
      cases hcode with
      | unaryFolded instr =>
          exact .constant instr (fits _ rfl) fun env => Direct.expr_of_value rfl
      | unary operand' instr =>
          exact .unary (ih operand') operand'.count_le.1 defined instr
  | @binary op x y value left right same defined fits folds divisor ihx ihy =>
      intro p i q hcode
      cases hcode with
      | binaryFolded instr =>
          exact .constant instr (fits _ rfl) fun env => Direct.expr_of_value rfl
      | binary arithmetic left' right' instr =>
          exact .binary arithmetic (ihx left') (same ▸ ihy right') left'.count_le.1
            left'.count_le.2 right'.count_le.1 defined instr
      | logic logic left' fork start shortValue right' merges =>
          have hbool : x.ty = .bool := by
            obtain rfl | rfl := logic <;> exact Ty.eq_bool defined
          have hresult : Check.BinaryOp.result op x.ty = x.ty := by
            obtain rfl | rfl := logic <;> rfl
          rw [Typed.Expr.ty, hresult]
          exact .logic hA.finished logic hbool (ihx left') fork start shortValue (same ▸ ihy right')
            merges left'.count_le.1 right'.count_le.1
  | call func name inst count operands fit ih =>
      intro p i q hcode
      cases hcode with
      | call operands' instr =>
          exact .call hA func name inst count fit (computesAll ih operands') operands'.count_le.1
            instr
  | @invoke x sel c m args receiver cls method count operands fit ihx ih =>
      intro p i q hcode
      have hscoped := receiver.scoped hA.sound
      cases hcode with
      | invoke receiver' operands' call =>
          refine .invoke hA ?_ (finds_method hA hscoped cls method) ?_ fit (ihx receiver')
            (computesAll ih operands') receiver'.count_le.1 receiver'.count_le.2
            operands'.count_le.1 operands'.count_le.2 call
          · exact Table.isSome_className? (Table.classOf?_subst cls)
          · rw [Signature.paramTypes_subst, List.length_map, Signature.paramTypes, List.length_map,
              count]
  | @invokeBound x sel tp b m args receiver param bound method count operands fit ihx ih =>
      intro p i q hcode
      have hscoped := receiver.scoped hA.sound
      rw [param] at hscoped
      cases hcode with
      | invoke receiver' operands' call =>
          refine .invoke hA ?_ (param ▸ finds_bound hA hscoped bound method) ?_ fit (ihx receiver')
            (computesAll ih operands') receiver'.count_le.1 receiver'.count_le.2
            operands'.count_le.1 operands'.count_le.2 call
          · obtain ⟨c, hc⟩ := Table.exists_classOf?
              (hscoped.subst hA.ground.length hA.ground.closed) (admits_param hA hscoped).1
            exact param ▸ Table.isSome_className? hc
          · rw [Signature.paramTypes, List.length_map, count]
  | @field x sel c f receiver cls found ih =>
      intro p i q hcode
      have hscoped := receiver.scoped hA.sound
      cases hcode with
      | field object place load =>
          exact .field hA hscoped cls found place (ih object) object.count_le.1 load
  | @init cls sym c targs elems found inst keys operands fit ih =>
      intro p i q hcode
      have hok : (Typed.Expr.init cls sym _ _ elems).Ok _ _ := .init found inst keys operands fit
      have hscoped := hok.scoped hA.sound
      have hc := List.mem_of_find?_eq_some found
      have hname : c.name = cls.text := by simpa using List.find?_some found
      obtain ⟨howns, htype⟩ := owns_init hA rfl hscoped hc inst
      cases hcode with
      | @init _ _ _ _ _ _ _ l layout alloc fill dispatch =>
          obtain ⟨l', hl', his, hsized⟩ := hA.sized.exists_layout hA.unit hc
          obtain rfl : l' = l := by
            rw [hname] at hl'
            exact Option.some.inj (hl'.symm.trans layout)
          refine .init howns hname layout (fun f hf => ?_) alloc
            (fills hA howns.cls hl' his hsized htype fit ih fill) fill.count_le dispatch
          have hmem : f.name ∈ elems.map (·.1.text) :=
            keys.mem_iff.2 (List.mem_map_of_mem hf)
          obtain ⟨e, he, heq⟩ := List.mem_map.1 hmem
          exact ⟨e, he, heq⟩
  | @paren pos x inner ih =>
      intro p i q hcode
      cases hcode with
      | parenFolded value instr =>
          exact .constant instr (inner.value_fits value) fun env => Direct.expr_of_value value
      | paren value inner' => exact .paren pos (ih inner')

end ClassLang.Machine.Activation
