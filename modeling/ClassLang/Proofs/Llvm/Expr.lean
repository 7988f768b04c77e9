import Mathlib
import ClassLang.Proofs.Formed.Expr
import ClassLang.Proofs.Graph.Function
import ClassLang.Proofs.Llvm.Typing

/-!
Lowering keeps to the types of LLVM. What is well typed in the language is well typed
there once it is lowered: a call has the types of its callee, whatever type arguments it
has, and a call through a dispatch table those of each method that it may find.
-/

namespace ClassLang

namespace Ty

variable {t : Table} {ps : List TypeParam} {as : List Ty}

/-- The arguments of a well-formed type are references. -/
theorem Formed.args_reference {ty : Ty} (h : ty.Formed t) {c : ClassInfo}
    (hc : t.classOf? ty = some c) : ∀ a ∈ ty.args, a.isReference = true := by
  cases ty with
  | inst name args =>
      intro a ha
      obtain ⟨⟨d, _, hlen, hadmits⟩, _⟩ := h
      obtain ⟨p, hp⟩ := exists_mem_zip hlen ha
      exact (hadmits _ hp).1
  | cls name => simp [Ty.args]
  | _ => simp [Table.classOf?, className?] at hc

end Ty

namespace Typed

variable {Γ : Context} {ps : List TypeParam} {targs : List Ty}

theorem Context.Instance.reference (h : Γ.Instance ps targs) :
    ∀ a ∈ targs, a.isReference = true := by
  intro a ha
  obtain ⟨p, hp⟩ := Ty.exists_mem_zip h.length ha
  exact (h.admits _ hp).1

theorem Expr.elemFacts_formed {t : Table} {fields : List Field} {elems : List (Ident × Expr)}
    (h : FactsFormed t (Expr.elemFacts fields elems)) :
    ∀ e ∈ elems, FactsFormed t e.2.facts := by
  induction elems with
  | nil => simp
  | cons e rest ih =>
      obtain ⟨key, value⟩ := e
      rw [Expr.elemFacts, factsFormed_append, factsFormed_append] at h
      exact List.forall_mem_cons.2 ⟨h.1.2, ih h.2⟩

end Typed

/-- The type of a function leads back to a signature with the same types. -/
theorem Signature.ofTy?_ty (s : Signature) : ∃ s', Signature.ofTy? s.ty = some s' ∧
    s'.paramTypes = s.paramTypes ∧ s'.result = s.result := by
  refine ⟨_, rfl, ?_, rfl⟩
  simp [Signature.paramTypes, Function.comp_def]

/-! Types and calls -/

namespace Llvm

variable {ar : String → Option Nat} {Δ : List TypeParam} {t : ClassLang.Ty} {type : Ty}

theorem Ty.isValue_ofTy? (h : Ty.ofTy? t = some type) (hscoped : t.Scoped ar Δ)
    (hvoid : t.isVoid = false) : type.isValue = true := by
  cases t with
  | void => simp [ClassLang.Ty.isVoid] at hvoid
  | invalid | missing | func => simp [ClassLang.Ty.Scoped] at hscoped
  | _ =>
      obtain rfl := Option.some.inj h
      rfl

/-- The module declares every function of a unit with the types of its signature. There are
not too many methods for a slot to fit in a word. -/
structure Env.Covers (e : Env) (Γ : Typed.Context) : Prop where
  table : e.table = Γ.table
  funcs : ∀ name host sig, Γ.funcs.lookup name = some (host, sig) → ∃ head params result,
    sig.Erases params result ∧
    e.declared.find? (some (if host then .host name else .func (.func name))) = some head ∧
    head.params.map (·.type) = params ∧ head.result = result
  methods : ∀ c ∈ Γ.table.classes, ∀ m ∈ c.methods, ∃ head params result,
    m.sig.Erases params result ∧ e.declared.find? (some (.func m.ref)) = some head ∧
    head.params.map (·.type) = .bytes :: params ∧ head.result = result
  names : ∃ names : List String, names.length ≤ 2 ^ 63 ∧
    ∀ c ∈ Γ.table.classes, ∀ m ∈ c.methods, m.name ∈ names

section

variable {t : Table} {c d : ClassInfo} {l : ClassLayout} {m : Method} {name : String} {slot : Nat}
  {params : List Ty} {result : Ty} {names : List String}

/-- Where a class has a method its slot leads to it. -/
theorem slot_leads (ht : t.Linked) (hlength : names.length ≤ 2 ^ 63)
    (hnames : ∀ c ∈ t.classes, ∀ m ∈ c.methods, m.name ∈ names) (hd : d ∈ t.classes)
    (hl : (Layouts.build t).named? d.name = some l)
    (hslot : (Layouts.build t).slot? name = some slot) (hm : t.lookupMethod d.id name = some m) :
    l.method? (Int64.ofInt slot).toInt = some m := by
  have hi := Table.class?_eq_some_lt (ht.class?_id hd)
  have hlt := Layouts.slot_lt_of_lookupMethod ht hnames hi hm hslot
  have hnumber : (Int64.ofInt slot).toInt = slot :=
    Int64.toInt_ofInt_of_le (by omega) (by omega)
  obtain ⟨l', hl', hlayout⟩ := Layouts.named?_build ht hd
  obtain rfl : l = l' := Option.some.inj (hl.symm.trans hl')
  have hentry := Layouts.method?_slot? ht hd hlayout name
  rwa [hslot, Option.bind_some, hm, ← hnumber] at hentry

/-- A call through a class finds methods of one type. -/
theorem dispatches_of_class (ht : t.WellTyped) (hlength : names.length ≤ 2 ^ 63)
    (hnames : ∀ c ∈ t.classes, ∀ m ∈ c.methods, m.name ∈ names) {ty : ClassLang.Ty}
    (hc : t.classOf? ty = some c) (hm : t.lookupMethod c.id name = some m)
    (hslot : (Layouts.build t).slot? name = some slot) (herases : m.sig.Erases params result) :
    Dispatches t ty (Int64.ofInt slot).toInt (.func result (.bytes :: params)) := by
  intro d hreach l hl found hfound
  cases hreach with
  | @cls _ c' cls known descends =>
      obtain rfl : c = c' := Option.some.inj (hc.symm.trans cls)
      have hi := Table.class?_eq_some_lt (ht.linked.class?_id known)
      obtain ⟨own, hown, hid⟩ :=
        Table.lookupMethod_of_isAncestor ht.linked ht.overrides hi descends hm
      have hleads := slot_leads ht.linked hlength hnames known hl hslot hown
      obtain rfl : found = own := Option.some.inj (hfound.symm.trans hleads)
      exact methodType_ok (herases.identical hid)
  | param => simp [Table.classOf?, ClassLang.Ty.className?] at hc

/-- A call through a bound finds methods of one type. -/
theorem dispatches_of_bound (ht : t.WellTyped) (hlength : names.length ≤ 2 ^ 63)
    (hnames : ∀ c ∈ t.classes, ∀ m ∈ c.methods, m.name ∈ names) {p : TypeParam} {b : BoundInfo}
    (hb : p.bound.bind t.boundNamed? = some b) (hm : b.method? name = some m)
    (hslot : (Layouts.build t).slot? name = some slot) (herases : m.sig.Erases params result) :
    Dispatches t (.param p) (Int64.ofInt slot).toInt (.func result (.bytes :: params)) := by
  intro d hreach l hl found hfound
  cases hreach with
  | cls cls => simp [Table.classOf?, ClassLang.Ty.className?] at cls
  | @param _ arg c admits formed cls known descends =>
      have hname : m.name = name := by simpa using List.find?_some hm
      obtain ⟨own, hown, hid⟩ := ht.descendant_satisfies cls (admits.2 b hb) known descends
        (List.mem_of_find?_eq_some hm)
      rw [hname] at hown
      have hleads := slot_leads ht.linked hlength hnames known hl hslot hown
      obtain rfl : found = own := Option.some.inj (hfound.symm.trans hleads)
      obtain ⟨_, hscoped, _⟩ := ht.lookupMethod_scoped (ht.linked.class?_id known) hown
      obtain ⟨params', result', hfound⟩ := Signature.exists_erases hscoped
      have hfilled := (hfound.subst c.tparams hscoped
        (formed.args_reference cls)).identical hid
      obtain ⟨rfl, rfl⟩ := hfilled.unique herases
      exact methodType_ok hfound

/-- A method that a class has is one of the methods of some class. -/
theorem mem_methods_of_lookup (hm : t.lookupMethod c.id name = some m) :
    ∃ k ∈ t.classes, m ∈ k.methods := by
  obtain ⟨k, hk, hmem⟩ := List.exists_of_findSome?_eq_some hm
  obtain ⟨i, _, hi⟩ := List.mem_filterMap.1 hk
  exact ⟨k, List.mem_of_getElem? hi, (Table.method?_mem hmem).1⟩

end

end Llvm

/-! Expressions -/

attribute [local simp] Llvm.operation?

namespace Llvm

theorem isVoid_of_operation {op : Graph.Op} {types : List Ty} {type : Ty}
    (h : operation? op = some (types, type)) : op.isVoid = false := by
  cases op <;> first | rfl | simp at h

/-- What the value of an operation is does not depend on where it comes from. -/
theorem resultType?_of_operation {v : Graph.Instr} {types : List Ty} {type : Ty}
    (h : operation? v.op = some (types, type)) (hne : v.op ≠ .dispatchTable) :
    resultType? v = Ty.ofTy? (v.type.getD .missing) := by
  unfold resultType?
  split <;> simp_all

end Llvm

namespace Graph.Op

open Llvm (operation?)

theorem operation?_ofUnary {op : UnaryOp} {t : Ty} (h : Typed.unaryDefined op t = true) :
    ∃ type, Llvm.Ty.ofTy? t = some type ∧
      operation? (ofUnary op t) = some ([type], type) := by
  cases op <;> cases t <;>
    simp_all [Typed.unaryDefined, Ty.isBool, Ty.isNumeric, Ty.isInt, Ty.isFloat, ofUnary,
      Llvm.Ty.ofTy?]

/-- An operator works on operands of one type. Only equality does so on several types. -/
theorem operation?_ofBinary {op : BinaryOp} {t : Ty}
    (hdefined : Check.BinaryOp.defined op t = true) (hlogic : ¬(op = .and ∨ op = .or)) :
    ∃ type result, Llvm.Ty.ofTy? t = some type ∧
      Llvm.Ty.ofTy? (Check.BinaryOp.result op t) = some result ∧
      (operation? (ofBinary op t) = some ([type, type], result) ∨
        ((ofBinary op t = .eq64 ∨ ofBinary op t = .neq64) ∧
          (type = .i64 ∨ type = .i1) ∧ result = .i1)) := by
  cases t <;> cases op <;>
    simp_all [Check.BinaryOp.defined, Check.BinaryOp.result, BinaryOp.token, Token.isComparison, Token.isOrdering,
      Ty.isBasic, Ty.isBool, Ty.isNumeric, Ty.isInt, Ty.isFloat, Ty.isStr, ofBinary, ofInt,
      ofFloat, ofStr, Llvm.Ty.ofTy?]

end Graph.Op

namespace Graph.Build

open Llvm (Env GraphTyped InstrTyped Carries FindsMethod Dispatches resultType? operation?)
open Typed (FactsFormed)

variable {e : Env} {ps : List Pos} {s s' : Builder} {t : Ty} {vars : List Var} {ls : Layouts}
  {Γ : Typed.Context}

namespace Keeps

section

variable {op : Op} {args : List Nat} {pos : Pos} {number : Int64} {aux : Option Aux}
  {types : List Llvm.Ty} {type : Llvm.Ty}

/-- The value of an operation with operands of the right types. -/
theorem operation (hop : operation? op = some (types, type)) (hne : op ≠ .dispatchTable)
    (hargs : List.Forall₂ (Carries s.func) (args.map some) types)
    (htype : Llvm.Ty.ofTy? t = some type) :
    Keeps e ps s (Build.emitWith op (some t) args pos number aux) fun i s' => Holds s' i t := by
  have hresult : ∀ id block, resultType?
      { id, op, type := some t, args := args.map some, block, number, aux, pos } = some type :=
    fun id block => (Llvm.resultType?_of_operation hop hne).trans htype
  refine (Keeps.emitWith fun f hinstrs id block => ?_).value
    (fun _ _ => Llvm.isVoid_of_operation hop) (fun _ _ => rfl) htype hresult
  exact .operation hop (hargs.imp fun _ _ harg => harg.mono hinstrs) (hresult id block)

/-- The value of a slot. -/
theorem load {slot : Nat} (hslot : Reserves s slot t) (htype : Llvm.Ty.ofTy? t = some type)
    (hvalue : type.isValue = true) :
    Keeps e ps s (Build.emit .load (some t) [slot] pos) fun i s' => Holds s' i t := by
  refine (Keeps.emitWith fun f hinstrs id block => ?_).value (fun _ _ => rfl) (fun _ _ => rfl) htype
    fun _ _ => htype
  exact .load rfl hvalue (.cons ((hslot.carries htype).mono hinstrs) .nil) htype

/-- A value is stored into a slot of its type. -/
theorem store {slot i : Nat} (hslot : Reserves s slot t) (htype : Llvm.Ty.ofTy? t = some type)
    (hvalue : type.isValue = true) (hi : Carries s.func (some i) type) :
    Keeps e ps s (Functor.discard (Build.emit .store none [slot, i] pos)) fun _ _ => True := by
  refine ((Keeps.emitWith fun f hinstrs id block => ?_).trivial.discard).trivial
  exact .store rfl hvalue
    (.cons ((hslot.carries htype).mono hinstrs) (.cons (hi.mono hinstrs) .nil))

theorem slotOf {v : Var} (hv : v ∈ vars) (hs : Slots vars s) :
    Keeps e ps s (Build.slotOf v) fun i s' => Reserves s' i v.ty := by
  obtain ⟨i, hi, hslot⟩ := hs v hv
  exact .look (.require hi _ _ hslot)

end

/-- A constant that has the type it should have. -/
theorem constant {pos : Pos} {c : Constant} (h : c.Fits t) :
    Keeps e ps s (Lower.constant t pos c) fun i s' => Holds s' i t := by
  have hnone : Lower.constantFault? t c = none := by
    cases c <;> cases t <;> simp_all [Constant.Fits, Lower.constantFault?]
  unfold Lower.constant
  rw [hnone]
  cases c with
  | int n =>
      obtain rfl : t = .int := by cases t <;> simp_all [Constant.Fits]
      change Keeps e ps s (Build.emitWith .const64 (some .int) [] pos _ none) _
      exact .operation rfl (by simp) .nil rfl
  | float q =>
      obtain rfl : t = .float := by cases t <;> simp_all [Constant.Fits]
      refine Keeps.here.seq fun b s' _ _ => ?_
      refine (Keeps.place b fun i => ?_).imp fun i s' _ hi => ?_
      · exact .operation rfl .nil rfl
      · exact ⟨_, .double, hi, rfl, rfl, rfl, rfl⟩
  | bool b =>
      obtain rfl : t = .bool := by cases t <;> simp_all [Constant.Fits]
      change Keeps e ps s (Build.emitWith .constBool (some .bool) [] pos _ none) _
      exact .operation rfl (by simp) .nil rfl
  | str x =>
      obtain rfl : t = .str := by cases t <;> simp_all [Constant.Fits]
      change Keeps e ps s (Build.emitWith .constString (some .str) [] pos 0 _) _
      exact .operation rfl (by simp) .nil rfl

/-- The paths of a logical operator, where `m` computes its right operand. -/
theorem logic {m : Build Nat} {left : Nat} {pos : Pos} (p : Prop) [Decidable p] (number : Int64)
    (hleft : Holds s left .bool)
    (hm : ∀ s', Grows ps s s' → Keeps e ps s' m fun i s'' => Holds s'' i .bool) :
    Keeps e ps s (do
      let right ← Build.newBlock
      let short ← Build.newBlock
      let merge ← Build.newBlock
      if p then Build.branch left right short else Build.branch left short right
      let shortValue ← Build.emitAt short .constBool (some .bool) [] Pos.none number none
      Build.addEdge short merge
      Build.enter (some right)
      let i ← m
      Lower.join pos shortValue i merge) fun i s' => Holds s' i .bool := by
  refine Keeps.newBlock.seq fun right s₁ h₁ _ => Keeps.newBlock.seq fun short s₂ h₂ _ =>
    Keeps.newBlock.seq fun merge s₃ h₃ _ => ?_
  have hleft := ((hleft.grow h₁).grow h₂).grow h₃
  have hrest : ∀ s₄, Grows ps s₃ s₄ → Keeps e ps s₄ (do
      let shortValue ← Build.emitAt short .constBool (some .bool) [] Pos.none number none
      Build.addEdge short merge
      Build.enter (some right)
      let i ← m
      Lower.join pos shortValue i merge) fun i s' => Holds s' i .bool := by
    intro s₄ h₄
    have hvalue : Keeps e ps s₄
        (Build.emitAt short .constBool (some .bool) [] Pos.none number none)
        fun i s' => Holds s' i .bool :=
      (Keeps.emitAt short fun _ _ => .operation rfl .nil rfl).value
        (fun _ _ => rfl) (fun _ _ => rfl) rfl fun _ _ => rfl
    refine hvalue.seq fun shortValue s₅ h₅ hshort => ?_
    refine (Keeps.addEdge short merge).seq fun _ s₆ h₆ _ => (Keeps.enter _).seq fun _ s₇ h₇ _ => ?_
    have hgrows := ((((h₁.trans h₂).trans h₃).trans h₄).trans h₅).trans (h₆.trans h₇)
    refine (hm s₇ hgrows).seq fun i s₈ h₈ hi => (Keeps.jump merge).seq fun _ s₉ h₉ _ =>
      (Keeps.enter _).seq fun _ s₁₀ h₁₀ _ => ?_
    have hshort := ((((hshort.grow h₆).grow h₇).grow h₈).grow h₉).grow h₁₀
    have hi := (hi.grow h₉).grow h₁₀
    refine (Keeps.emitAt merge fun _ _ => ?_).value (fun _ _ => rfl) (fun _ _ => rfl) rfl fun _ _ => rfl
    have hargs : ∀ arg ∈ [some shortValue, some i], Carries s₁₀.func arg .i1 := by
      simpa using ⟨hshort.carries rfl, hi.carries rfl⟩
    exact .phi rfl rfl hargs rfl
  dsimp only
  split
  · exact (Keeps.branch hleft _ _).seq fun _ s₄ h₄ _ => hrest s₄ h₄
  · exact (Keeps.branch hleft _ _).seq fun _ s₄ h₄ _ => hrest s₄ h₄

end Keeps

/-- Computing an expression of the type `t` keeps to the types wherever the variables `vars`
have slots. -/
def Lowers (e : Env) (vars : List Var) (m : Build Nat) (t : Ty) : Prop :=
  ∀ s, Slots vars s → Keeps e [] s m fun i s' => Holds s' i t

theorem lowers_var {id : Ident} {v : Var} {type : Llvm.Ty} (hv : v ∈ vars)
    (htype : Llvm.Ty.ofTy? v.ty = some type) (hvalue : type.isValue = true) :
    Lowers e vars (Lower.expr ls (.var id v)) v.ty := by
  intro s hs
  rw [Lower.expr]
  exact (Keeps.slotOf hv hs).seq fun slot s' _ hslot => .load hslot htype hvalue

theorem lowers_unary {pos : Pos} {op : UnaryOp} {x : Typed.Expr} {value : Option Constant}
    (hx : Lowers e vars (Lower.expr ls x) x.ty) (hdefined : Typed.unaryDefined op x.ty = true)
    (hfits : ∀ c ∈ value, c.Fits x.ty) :
    Lowers e vars (Lower.expr ls (.unary pos op x x.ty value)) x.ty := by
  intro s hs
  cases value with
  | some c =>
      rw [Lower.expr]
      exact .constant (hfits c rfl)
  | none =>
      rw [Lower.expr]
      refine (hx s hs).seq fun i s' _ hi => ?_
      obtain ⟨type, htype, hop⟩ := Op.operation?_ofUnary hdefined
      refine .operation hop (fun heq => ?_) (.cons (hi.carries htype) .nil) htype
      obtain hcase | hcase | hcase := Op.ofUnary_cases op x.ty <;> simp [hcase] at heq

theorem lowers_binary {op : BinaryOp} {x y : Typed.Expr} {value : Option Constant}
    (hx : Lowers e vars (Lower.expr ls x) x.ty) (hy : Lowers e vars (Lower.expr ls y) y.ty)
    (hsame : x.ty = y.ty) (hdefined : Check.BinaryOp.defined op x.ty = true)
    (hfits : ∀ c ∈ value, c.Fits (Check.BinaryOp.result op x.ty)) :
    Lowers e vars (Lower.expr ls (.binary op x y (Check.BinaryOp.result op x.ty) value))
      (Check.BinaryOp.result op x.ty) := by
  intro s hs
  cases value with
  | some c =>
      rw [Lower.expr]
      exact .constant (hfits c rfl)
  | none =>
      rw [Lower.expr]
      by_cases hlogic : op = .and ∨ op = .or
      · have hbool : x.ty = .bool := by
          refine Ty.eq_bool (t := x.ty) ?_
          rcases hlogic with rfl | rfl <;> exact hdefined
        have hresult : Check.BinaryOp.result op x.ty = .bool := by
          rcases hlogic with rfl | rfl <;> exact hbool
        have hcond : (decide (op = .and) || decide (op = .or)) = true := by simpa using hlogic
        simp only [if_pos hcond]
        rw [hresult]
        refine (hx s hs).seq fun i s₁ h₁ hi => ?_
        rw [hbool] at hi
        rw [← hsame, hbool] at hy
        exact .logic (op = .and) _ hi fun s₂ h₂ => hy s₂ ((hs.keep h₁).keep h₂)
      · have hcond : ¬(decide (op = .and) || decide (op = .or)) = true := by simpa using hlogic
        simp only [if_neg hcond]
        refine (hx s hs).seq fun i s₁ h₁ hi => (hy s₁ (hs.keep h₁)).seq fun j s₂ h₂ hj => ?_
        obtain ⟨hinvalid, _, _⟩ := Op.ofBinary_ne hdefined hlogic
        obtain ⟨type, result, htype, hresult, hop⟩ := Op.operation?_ofBinary hdefined hlogic
        simp only [if_neg hinvalid]
        have hi := (hi.grow h₂).carries htype
        have hj := hj.carries (hsame ▸ htype)
        obtain hop | ⟨hop, hkind, rfl⟩ := hop
        · refine .operation hop (fun heq => ?_) (.cons hi (.cons hj .nil)) hresult
          simp [heq] at hop
        · have hvalue : ∀ v : Instr, v.op = Op.ofBinary op x.ty →
              v.type = some (Check.BinaryOp.result op x.ty) → resultType? v = some .i1 := by
            intro v hv hty
            rcases hop with hop | hop <;> simp [hv, hop, hty, resultType?, hresult]
          have hnotVoid : (Op.ofBinary op x.ty).isVoid = false := by
            rcases hop with hop | hop <;> rw [hop] <;> rfl
          refine (Keeps.emitWith fun f hinstrs id block => ?_).value (fun _ _ => hnotVoid)
            (fun _ _ => rfl) hresult fun _ _ => hvalue _ rfl rfl
          exact .equality hop hkind (.cons (hi.mono hinstrs) (.cons (hj.mono hinstrs) .nil))
            (hvalue _ rfl rfl)

/-- Operands keep to the types one after the other. -/
theorem lowers_exprs {xs : List Typed.Expr}
    (h : ∀ x ∈ xs, Lowers e vars (Lower.expr ls x) x.ty) (hs : Slots vars s) :
    Keeps e [] s (Lower.exprs ls xs) fun is s' =>
      List.Forall₂ (fun i x => Holds s' i x.ty) is xs := by
  induction xs generalizing s with
  | nil =>
      rw [Lower.exprs]
      exact .pure .nil
  | cons x rest ih =>
      rw [Lower.exprs]
      refine (h x List.mem_cons_self s hs).seq fun i s₁ h₁ hi => ?_
      refine (ih (fun y hy => h y (List.mem_cons_of_mem _ hy)) (hs.keep h₁)).seq
        fun is s₂ h₂ his => .pure ?_
      exact .cons (hi.grow h₂) his

/-- The operands of a call have the types that its parameters become. -/
theorem carries_args {xs : List Typed.Expr} {is : List Nat} {ts : List Ty}
    {types : List Llvm.Ty} {t : Table} (his : List.Forall₂ (fun i x => Holds s i x.ty) is xs)
    (hlen : xs.length = ts.length) (hfit : ∀ e ∈ xs.zip ts, t.Fits e.1.ty e.2)
    (htypes : ts.map Llvm.Ty.ofTy? = types.map some) :
    List.Forall₂ (Carries s.func) (is.map some) types := by
  induction his generalizing ts types with
  | nil =>
      obtain rfl : ts = [] := List.length_eq_zero_iff.1 hlen.symm
      obtain rfl : types = [] := by simpa using htypes.symm
      exact .nil
  | @cons i x is xs hi his ih =>
      cases ts with
      | nil => simp at hlen
      | cons u ts =>
          cases types with
          | nil => simp at htypes
          | cons type types =>
              obtain ⟨htype, htypes⟩ := List.cons.inj htypes
              obtain ⟨hx, hrest⟩ := List.forall_mem_cons.1 hfit
              refine .cons (hi.carries ?_) (ih (by simpa using hlen) hrest htypes)
              rw [Llvm.Ty.ofTy?_of_fits hx]
              exact htype

theorem lowers_call {fn id : Ident} {host : Bool} {targs : List Ty} {sig : Signature}
    {args : List Typed.Expr} (he : e.Covers Γ) (hΓ : Γ.Sound)
    (hfunc : Γ.funcs.lookup fn.text = some (host, sig)) (hname : id.text = fn.text)
    (hinst : Γ.Instance sig.tparams targs) (hcount : args.length = sig.params.length)
    (hfit : ∀ e ∈ args.zip (sig.subst sig.tparams targs).paramTypes, Γ.table.Fits e.1.ty e.2)
    (hargs : ∀ x ∈ args, Lowers e vars (Lower.expr ls x) x.ty) :
    Lowers e vars (Lower.expr ls (.call fn (.func id host) targs (sig.subst sig.tparams targs) args))
      (sig.subst sig.tparams targs).result := by
  intro s hs
  obtain ⟨head, params, result, herases, hhead, hparams, hresult⟩ := he.funcs _ _ _ hfunc
  have hfilled := herases.subst sig.tparams (hΓ.funcs _ _ _ hfunc) hinst.reference
  rw [Lower.expr]
  refine (lowers_exprs hargs hs).seq fun is s₁ h₁ his => ?_
  refine (Keeps.emitWith fun f hinstrs id' block => ?_).value (fun _ _ => rfl) (fun _ _ => rfl) hfilled.result
    fun _ _ => hfilled.result
  refine .callDirect rfl (?_ : _ = some head) ?_ (hresult ▸ hfilled.result)
  · rw [← hhead]
    cases host <;> simp [Instr.callee?, Lower.calleeOf, hname]
  · rw [hparams]
    have hlen : args.length = (sig.subst sig.tparams targs).paramTypes.length := by
      simpa [Signature.paramTypes, Signature.length_subst] using hcount
    exact (carries_args his hlen hfit hfilled.params).imp fun _ _ harg => harg.mono hinstrs

/-- A direct call of a method has the receiver before its operands. -/
theorem keeps_directCall {m : Method} {c : ClassInfo} {recv : Nat}
    {args : List Nat} {params : List Llvm.Ty} {result : Llvm.Ty} {pos : Pos} (he : e.Covers Γ)
    (hc : c ∈ Γ.table.classes) (hm : m ∈ c.methods) (herases : m.sig.Erases params result)
    (hresult : Llvm.Ty.ofTy? t = some result) (hrecv : Carries s.func (some recv) .bytes)
    (hargs : List.Forall₂ (Carries s.func) (args.map some) params) :
    Keeps e ps s (emitWith .callDirect (some t) (recv :: args) pos 0
      (some (.callee (.func m.ref)))) fun i s' => Holds s' i t := by
  obtain ⟨head, params', result', herases', hhead, hparams, hresult'⟩ := he.methods c hc m hm
  obtain ⟨rfl, rfl⟩ := herases.unique herases'
  refine (Keeps.emitWith fun f hinstrs id block => ?_).value (fun _ _ => rfl) (fun _ _ => rfl) hresult
    fun _ _ => hresult
  refine .callDirect rfl hhead ?_ (hresult' ▸ hresult)
  rw [hparams]
  exact .cons (hrecv.mono hinstrs) (hargs.imp fun _ _ harg => harg.mono hinstrs)

/-- A call through a dispatch table that only leads to methods of one type. -/
theorem keeps_virtualCall {name : String} {sig : Signature} {pos : Pos} {recv slot : Nat}
    {args : List Nat} {params : List Llvm.Ty} {result : Llvm.Ty}
    (hslot : ls.slot? name = some slot) (herases : sig.Erases params result)
    (hdispatch : Dispatches e.table t (Int64.ofInt slot).toInt (.func result (.bytes :: params)))
    (hrecv : Holds s recv t) (htype : Llvm.Ty.ofTy? t = some .bytes)
    (hargs : List.Forall₂ (Carries s.func) (args.map some) params) :
    Keeps e ps s (Lower.virtualCall ls name sig pos recv args)
      fun i s' => Holds s' i sig.result := by
  obtain ⟨sig', hsig, hparamTypes, hresult⟩ := sig.ofTy?_ty
  have herases' : sig'.Erases params result :=
    ⟨by rw [hparamTypes, herases.params], by rw [hresult, herases.result]⟩
  have hmethod := Llvm.methodType_ok herases'
  unfold Lower.virtualCall
  rw [hslot]
  refine (Keeps.require (Q := fun k _ => k = slot) rfl _ _ rfl).seq fun k s₁ h₁ hk => ?_
  subst hk
  have hrecv := hrecv.grow h₁
  refine (Keeps.emitWith fun f hinstrs id block => ?_).seq fun table s₂ h₂ ⟨_, _, htable⟩ => ?_
  · exact .operation rfl
      (.cons ((hrecv.carries htype).mono hinstrs) .nil) rfl
  have hrecv := hrecv.grow h₂
  have htable : Carries s₂.func (some table) (.ptr .bytes) := ⟨table, _, rfl, htable, rfl, rfl⟩
  refine (Keeps.emitWith fun f hinstrs id block => ?_).seq fun entry s₃ h₃ ⟨_, _, hentry⟩ => ?_
  · exact .dispatchEntry rfl (by simpa using hsig) hmethod (.cons (htable.mono hinstrs) .nil)
  have hrecv := hrecv.grow h₃
  have hcallee : Carries s₃.func (some entry) (.ptr (.func result (.bytes :: params))) := by
    refine ⟨entry, _, rfl, hentry, rfl, ?_⟩
    simp [resultType?, hsig, hmethod, Except.toOption]
  have hargs : List.Forall₂ (Carries s₃.func) (args.map some) params :=
    hargs.imp fun _ _ harg => ((harg.mono h₁.instrs).mono h₂.instrs).mono h₃.instrs
  refine (Keeps.emitWith fun f hinstrs id block => ?_).value (fun _ _ => rfl) (fun _ _ => rfl) herases.result
    fun _ _ => herases.result
  refine .callIndirect rfl (.cons (hcallee.mono hinstrs)
    (.cons ((hrecv.carries htype).mono hinstrs) (hargs.imp fun _ _ harg => harg.mono hinstrs)))
    herases.result ?_
  obtain ⟨v, _, hv, hty, _⟩ := hrecv
  exact ⟨⟨entry, recv, args.map some, _, v, t, rfl, hinstrs _ _ hentry, rfl, hinstrs _ _ hv, hty,
    hdispatch⟩⟩

theorem lowers_invoke {x : Typed.Expr} {sel : Ident} {kind : CallKind} {c : ClassInfo}
    {m : Method} {args : List Typed.Expr} (he : e.Covers Γ) (hΓ : Γ.Sound)
    (hformed : x.ty.Formed Γ.table) (hcls : Γ.table.classOf? x.ty = some c)
    (hmethod : Γ.table.lookupMethod c.id sel.text = some m)
    (hcount : args.length = m.sig.params.length)
    (hfit : ∀ e ∈ args.zip (m.sig.subst c.tparams x.ty.args).paramTypes,
      Γ.table.Fits e.1.ty e.2)
    (hx : Lowers e vars (Lower.expr (Layouts.build Γ.table) x) x.ty)
    (hargs : ∀ x ∈ args, Lowers e vars (Lower.expr (Layouts.build Γ.table) x) x.ty) :
    Lowers e vars (Lower.expr (Layouts.build Γ.table)
      (.invoke x sel kind m (m.sig.subst c.tparams x.ty.args) args))
      (m.sig.subst c.tparams x.ty.args).result := by
  intro s hs
  have hlinked := hΓ.table.linked
  have hid := hlinked.class?_id (Table.classOf?_mem hcls)
  obtain ⟨_, hscoped, _⟩ := hΓ.table.lookupMethod_scoped hid hmethod
  obtain ⟨params, result, herases⟩ := Signature.exists_erases hscoped
  have hfilled := herases.subst c.tparams hscoped (hformed.args_reference hcls)
  obtain ⟨name, hname, _⟩ := Option.bind_eq_some_iff.1 hcls
  have hbytes := Llvm.Ty.ofTy?_of_className? hname
  rw [Lower.expr]
  refine (hx s hs).seq fun i s₁ h₁ hi => (lowers_exprs hargs (hs.keep h₁)).seq
    fun is s₂ h₂ his => ?_
  have hlen : args.length = (m.sig.subst c.tparams x.ty.args).paramTypes.length := by
    simpa [Signature.paramTypes, Signature.length_subst] using hcount
  have hoperands := carries_args his hlen hfit hfilled.params
  have hi := hi.grow h₂
  split
  next =>
    obtain ⟨k, hk, hmem⟩ := Llvm.mem_methods_of_lookup hmethod
    exact keeps_directCall he hk hmem herases hfilled.result (hi.carries hbytes) hoperands
  next =>
    obtain ⟨slot, hslot⟩ := Layouts.exists_slot_of_mem
      (Layouts.mem_slots_of_lookupMethod hlinked (Table.class?_eq_some_lt hid) hmethod)
    obtain ⟨names, hlength, hnames⟩ := he.names
    refine keeps_virtualCall hslot hfilled ?_ hi hbytes hoperands
    rw [he.table]
    exact Llvm.dispatches_of_class hΓ.table hlength hnames hcls hmethod hslot herases

theorem lowers_invokeBound {x : Typed.Expr} {sel : Ident} {p : TypeParam} {b : BoundInfo}
    {m : Method} {args : List Typed.Expr} (he : e.Covers Γ) (hΓ : Γ.Sound)
    (hparam : x.ty = .param p) (hbound : p.bound.bind Γ.table.boundNamed? = some b)
    (hmethod : b.method? sel.text = some m) (hcount : args.length = m.sig.params.length)
    (hfit : ∀ e ∈ args.zip m.sig.paramTypes, Γ.table.Fits e.1.ty e.2)
    (hx : Lowers e vars (Lower.expr (Layouts.build Γ.table) x) x.ty)
    (hargs : ∀ x ∈ args, Lowers e vars (Lower.expr (Layouts.build Γ.table) x) x.ty) :
    Lowers e vars (Lower.expr (Layouts.build Γ.table) (.invoke x sel .bound m m.sig args))
      m.sig.result := by
  intro s hs
  obtain ⟨_, _, hb⟩ := Option.bind_eq_some_iff.1 hbound
  have hmem := List.mem_of_find?_eq_some hmethod
  have hname : m.name = sel.text := by simpa using List.find?_some hmethod
  have hb := List.mem_of_find?_eq_some hb
  obtain ⟨params, result, herases⟩ := Signature.exists_erases (hΓ.table.bounds b hb m hmem).1
  have hbytes : Llvm.Ty.ofTy? x.ty = some .bytes := by
    rw [hparam]
    rfl
  obtain ⟨slot, hslot⟩ := Layouts.exists_slot_of_mem (Layouts.mem_slots_of_bound hb hmem)
  rw [hname] at hslot
  obtain ⟨names, hlength, hnames⟩ := he.names
  rw [Lower.expr]
  refine (hx s hs).seq fun i s₁ h₁ hi => (lowers_exprs hargs (hs.keep h₁)).seq
    fun is s₂ h₂ his => ?_
  have hoperands := carries_args his (by simpa [Signature.paramTypes] using hcount) hfit
    herases.params
  rw [if_neg (by simp)]
  refine keeps_virtualCall hslot herases ?_ (hi.grow h₂) hbytes hoperands
  rw [he.table, hparam]
  exact Llvm.dispatches_of_bound hΓ.table hlength hnames hbound hmethod hslot herases

theorem keeps_fieldOffset {x : Typed.Expr} {name : String} :
    Keeps e ps s (Lower.fieldOffset ls x name) fun _ _ => True := by
  unfold Lower.fieldOffset
  cases x.ty.className? with
  | none => exact (Keeps.fault _).seq fun _ _ _ _ => .pure trivial
  | some cls => exact (Keeps.anyRequire _ _ _).seq fun _ _ _ _ => .pure trivial

/-- The type of a field, as it is seen from a type of its class, is one of values. -/
theorem exists_fieldType {c : ClassInfo} {f : Field} {as : List Ty} {name : String}
    (hΓ : Γ.Sound) (hc : c ∈ Γ.table.classes) (hf : Γ.table.lookupField c.id name = some f)
    (has : ∀ a ∈ as, a.isReference = true) : ∃ type,
      Llvm.Ty.ofTy? (f.ty.subst c.tparams as) = some type ∧ type.isValue = true := by
  obtain ⟨_, hscoped, hvoid⟩ :=
    hΓ.table.lookupField_scoped (hΓ.table.linked.class?_id hc) hf
  obtain ⟨type, htype⟩ := Llvm.Ty.exists_ofTy? hscoped
  refine ⟨type, ?_, Llvm.Ty.isValue_ofTy? htype hscoped hvoid⟩
  rw [Llvm.Ty.ofTy?_subst has, htype]

theorem lowers_field {x : Typed.Expr} {sel : Ident} {f : Field} {name : String}
    {type : Llvm.Ty} (hname : x.ty.className? = some name)
    (htype : Llvm.Ty.ofTy? t = some type) (hvalue : type.isValue = true)
    (hx : Lowers e vars (Lower.expr ls x) x.ty) :
    Lowers e vars (Lower.expr ls (.field x sel f t)) t := by
  intro s hs
  have hbytes := Llvm.Ty.ofTy?_of_className? hname
  rw [Lower.expr]
  refine (hx s hs).seq fun i s₁ h₁ hi => keeps_fieldOffset.seq fun offset s₂ h₂ _ => ?_
  refine (Keeps.emitWith fun f hinstrs id block => ?_).value (fun _ _ => rfl) (fun _ _ => rfl) htype
    fun _ _ => htype
  exact .loadField rfl hvalue (.cons (((hi.grow h₂).carries hbytes).mono hinstrs) .nil) htype

/-- A value is stored into a field of an object. -/
theorem keeps_storeField {obj i : Nat} {pos : Pos} {number : Int64} {aux : Option Aux}
    {type : Llvm.Ty} (hvalue : type.isValue = true) (hobj : Carries s.func (some obj) .bytes)
    (hi : Carries s.func (some i) type) :
    Keeps e ps s (discard (emitWith .storeField none [obj, i] pos number aux)) fun _ _ => True := by
  refine ((Keeps.emitWith fun f hinstrs id block => ?_).trivial.discard).trivial
  exact .storeField rfl hvalue (.cons (hobj.mono hinstrs) (.cons (hi.mono hinstrs) .nil))

/-- The elements of an initializer are stored into the object. -/
theorem keeps_fill {l : ClassLayout} {obj : Nat} {elems : List (Ident × Typed.Expr)}
    (hvalues : ∀ e ∈ elems, ∃ type, Llvm.Ty.ofTy? e.2.ty = some type ∧ type.isValue = true)
    (helems : ∀ x ∈ elems, Lowers e vars (Lower.expr ls x.2) x.2.ty) (hs : Slots vars s)
    (hobj : Carries s.func (some obj) .bytes) :
    Keeps e [] s (Lower.fill ls l obj elems) fun _ _ => True := by
  induction elems generalizing s with
  | nil =>
      rw [Lower.fill]
      exact .pure trivial
  | cons x rest ih =>
      obtain ⟨key, value⟩ := x
      obtain ⟨type, htype, hvalue⟩ := hvalues (key, value) List.mem_cons_self
      rw [Lower.fill]
      refine (Keeps.anyRequire _ _ _).seq fun offset s₁ h₁ _ => ?_
      have hs := hs.keep h₁
      refine (helems (key, value) List.mem_cons_self s₁ hs).seq fun i s₂ h₂ hi => ?_
      have hs := hs.keep h₂
      have hobj := (hobj.mono h₁.instrs).mono h₂.instrs
      refine (keeps_storeField hvalue hobj (hi.carries htype)).seq fun _ s₃ h₃ _ => ?_
      exact ih (fun y hy => hvalues y (List.mem_cons_of_mem _ hy))
        (fun y hy => helems y (List.mem_cons_of_mem _ hy)) (hs.keep h₃) (hobj.mono h₃.instrs)

theorem lowers_init {l : ClassLayout} {cls : Ident} {sym : Symbol} {fields : List Field}
    {elems : List (Ident × Typed.Expr)} (hl : (Layouts.build Γ.table).named? cls.text = some l)
    (he : e.Covers Γ) (hbytes : Llvm.Ty.ofTy? t = some .bytes)
    (hvalues : ∀ e ∈ elems, ∃ type, Llvm.Ty.ofTy? e.2.ty = some type ∧ type.isValue = true)
    (helems : ∀ x ∈ elems, Lowers e vars (Lower.expr (Layouts.build Γ.table) x.2) x.2.ty) :
    Lowers e vars (Lower.expr (Layouts.build Γ.table) (.init cls sym t fields elems)) t := by
  intro s hs
  have hknown : l ∈ (Layouts.build e.table).classes := by
    rw [he.table]
    exact List.mem_of_find?_eq_some hl
  rw [Lower.expr, hl]
  refine (Keeps.require (Q := fun k _ => k = l) rfl _ _ rfl).seq fun k s₁ h₁ hk => ?_
  subst hk
  have hs := hs.keep h₁
  have halloc : Keeps e [] s₁ (emitWith .alloc (some t) [] cls.pos (Int64.ofInt k.size)
      (some (.layout k))) fun i s' => Holds s' i t := by
    refine (Keeps.emitWith fun f hinstrs id block => ?_).value (fun _ _ => rfl) (fun _ _ => rfl) hbytes
      fun _ _ => hbytes
    exact .alloc rfl rfl hknown hbytes
  refine halloc.seq fun i s₂ h₂ hi => ?_
  refine (keeps_fill hvalues helems (hs.keep h₂) (hi.carries hbytes)).seq fun _ s₃ h₃ _ => ?_
  have hdispatch : Keeps e [] s₃ (discard (emitWith .setDispatch none [i] Pos.none 0
      (some (.layout k)))) fun _ _ => True := by
    refine ((Keeps.emitWith fun f hinstrs id block => ?_).trivial.discard).trivial
    exact .setDispatch rfl rfl hknown
      (.cons (((hi.grow h₃).carries hbytes).mono hinstrs) .nil)
  exact hdispatch.seq fun _ s₄ h₄ _ => .pure ((hi.grow h₃).grow h₄)

theorem lowers_paren {pos : Pos} {x : Typed.Expr} (hx : Lowers e vars (Lower.expr ls x) x.ty)
    (hfits : ∀ c ∈ x.value?, c.Fits x.ty) :
    Lowers e vars (Lower.expr ls (.paren pos x)) x.ty := by
  intro s hs
  rw [Lower.expr]
  cases hvalue : x.value? with
  | some c => exact .constant (hfits c hvalue)
  | none => exact hx s hs

/-- Computing a well typed expression keeps to the types. -/
theorem lowers_expr {x : Typed.Expr} (he : e.Covers Γ) (hΓ : Γ.Sound) (h : x.Ok Γ vars)
    (hfacts : FactsFormed Γ.table x.facts) :
    Lowers e vars (Lower.expr (Layouts.build Γ.table) x) x.ty := by
  induction h with
  | var found known value =>
      obtain ⟨type, htype⟩ := Llvm.Ty.exists_ofTy? known
      exact lowers_var (List.mem_of_find?_eq_some found) htype
        (Llvm.Ty.isValue_ofTy? htype known value)
  | const fits =>
      intro s _
      rw [Lower.expr]
      exact .constant fits
  | literal fits =>
      intro s _
      rw [Lower.expr]
      exact .constant fits
  | unary _ defined fits _ ih =>
      rw [Typed.Expr.facts, Typed.factsFormed_cons] at hfacts
      exact lowers_unary (ih hfacts.2) defined fits
  | binary _ _ same defined fits _ _ ihx ihy =>
      rw [Typed.Expr.facts, Typed.factsFormed_cons, Typed.factsFormed_append] at hfacts
      exact lowers_binary (ihx hfacts.2.1) (ihy hfacts.2.2) same defined fits
  | call func name inst count _ fit ih =>
      rw [Typed.Expr.facts, Typed.factsFormed_append, Typed.factsFormed_factsOf] at hfacts
      exact lowers_call he hΓ func name inst count fit fun y hy => ih y hy (hfacts.2 y hy)
  | invoke _ cls method count _ fit ihx ih =>
      simp only [Typed.Expr.facts, Typed.factsFormed_append, Typed.factsFormed_factsOf] at hfacts
      exact lowers_invoke he hΓ (Typed.Expr.ty_formed hfacts.1.1.2) cls method count fit
        (ihx hfacts.1.1.2) fun y hy => ih y hy (hfacts.2 y hy)
  | invokeBound _ param bound method count _ fit ihx ih =>
      simp only [Typed.Expr.facts, Typed.factsFormed_append, Typed.factsFormed_factsOf] at hfacts
      exact lowers_invokeBound he hΓ param bound method count fit (ihx hfacts.1.1.2)
        fun y hy => ih y hy (hfacts.2 y hy)
  | @field x sel c f _ cls found ih =>
      simp only [Typed.Expr.facts, Typed.factsFormed_cons, Typed.factsFormed_append] at hfacts
      obtain ⟨_, hx, _⟩ := hfacts
      obtain ⟨name, hname, _⟩ := Option.bind_eq_some_iff.1 cls
      obtain ⟨type, htype, hvalue⟩ := exists_fieldType hΓ (Table.classOf?_mem cls) found
        ((Typed.Expr.ty_formed hx).args_reference cls)
      exact lowers_field hname htype hvalue (ih hx)
  | @init cls sym c targs elems found inst keys _ fit ih =>
      rw [Typed.Expr.facts, Typed.factsFormed_append] at hfacts
      have hvalues := Typed.Expr.elemFacts_formed hfacts.2
      have hc : c ∈ Γ.table.classes := List.mem_of_find?_eq_some found
      have hi := Table.class?_eq_some_lt (hΓ.table.linked.class?_id hc)
      obtain ⟨l, hl, _⟩ := Layouts.exists_named hΓ.table found
      refine lowers_init hl he (by split <;> rfl) (fun y hy => ?_) fun y hy => ih y hy (hvalues y hy)
      obtain ⟨f, hf, hname⟩ := List.mem_map.1 (keys.mem_iff.1 (List.mem_map_of_mem hy))
      obtain ⟨type, htype, hvalue⟩ :=
        exists_fieldType hΓ hc (hΓ.table.lookupField_eq hi hf) inst.reference
      exact ⟨type, (Llvm.Ty.ofTy?_of_fits (fit y hy f hf hname)).trans htype, hvalue⟩
  | paren inner ih =>
      rw [Typed.Expr.facts, Typed.factsFormed_cons] at hfacts
      exact lowers_paren (ih hfacts.2) fun c hc => inner.value_fits hc

end Graph.Build

end ClassLang
