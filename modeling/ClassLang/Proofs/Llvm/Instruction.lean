import ClassLang.Proofs.Llvm.Steps

/-!
Writing one instruction of a graph. Whatever its operation is, it can be written when its
operands have been, and what is written for it has the type that its operation gives.
-/

namespace ClassLang.Llvm

variable {c : Context} {e : Env} {dom : Graph.Doms} {s s' : Writer} {rest : List Nat} {b : Nat}
  {v : Graph.Instr} {type : Ty} {types : List Ty}

/-- What writing an instruction gives: nothing if it has no value, and else an operand. -/
def Produces (c : Context) (e : Env) (b : Nat) (v : Graph.Instr) (r : Option Operand)
    (s : Writer) : Prop :=
  (v.op.isVoid = true ∧ r = none) ∨ ∃ x type, r = some x ∧ v.op.isVoid = false ∧
    resultType? v = some type ∧ Made c e b s x type ∧ Form s v x

/-- Most operands are only known by their types. -/
theorem Form.plain {x : Operand} (hphi : v.op ≠ .phi) (hentry : v.op ≠ .dispatchEntry)
    (hcall : v.op ≠ .callIndirect) : Form s v x := by
  unfold Form
  split
  next heq => exact absurd heq hphi
  next heq => exact absurd heq hentry
  next heq => exact absurd heq hcall
  next => trivial

namespace Writes

theorem gives {m : Write Operand} (hvoid : v.op.isVoid = false)
    (hresult : resultType? v = some type)
    (h : Writes c e dom b rest s m fun x s' => Made c e b s' x type ∧ Form s' v x) :
    Writes c e dom b rest s (do return some (← m)) (Produces c e b v) :=
  h.bind fun x _ _ h => .pure (Or.inr ⟨x, type, rfl, hvoid, hresult, h.1, h.2⟩)

theorem givesNothing {m : Write Unit} (hvoid : v.op.isVoid = true)
    (h : Writes c e dom b rest s m fun _ _ => True) :
    Writes c e dom b rest s (do m; return none) (Produces c e b v) :=
  h.bind fun _ _ _ _ => .pure (Or.inl ⟨hvoid, rfl⟩)

/-! Operations with the same types everywhere -/

section

variable (hargs : List.Forall₂ (Given c e dom b s) v.args types)

include hargs

theorem binary {op : BinaryOp} (htypes : types = [type, type])
    (htyped : ∀ x y, x.type = type → y.type = type → (Instr.binary op x y).Typed) :
    Writes c e dom b rest s (Write.binary c v op) fun z s' => Made c e b s' z type := by
  subst htypes
  unfold Write.binary
  refine (Writes.argument hargs (n := 0) rfl).bind ?_
  rintro x s₁ h₁ ⟨_, _, hx⟩
  refine (Writes.argument (weaken_all hargs h₁) (n := 1) rfl).bind ?_
  rintro y s₂ h₂ ⟨_, _, hy⟩
  refine (Writes.emit (htyped x y hx.type hy.type) rfl (by
    simp [Instr.operands, hx.known.weaken h₂, hy.known])).imp ?_
  rintro z s₃ _ ⟨hz, _⟩
  rwa [Instr.type, hx.type] at hz

theorem compareInts {pred : IntPred} {width : Nat} (htypes : types = [.int width, .int width]) :
    Writes c e dom b rest s (Write.compareInts c v pred) fun z s' => Made c e b s' z .i1 := by
  subst htypes
  unfold Write.compareInts
  refine (Writes.argument hargs (n := 0) rfl).bind ?_
  rintro x s₁ h₁ ⟨_, _, hx⟩
  refine (Writes.argument (weaken_all hargs h₁) (n := 1) rfl).bind ?_
  rintro y s₂ h₂ ⟨_, _, hy⟩
  exact .icmp hx.type hy.type (hx.known.weaken h₂) hy.known

theorem compareFloats {pred : FloatPred} (htypes : types = [.double, .double]) :
    Writes c e dom b rest s (Write.compareFloats c v pred) fun z s' => Made c e b s' z .i1 := by
  subst htypes
  unfold Write.compareFloats
  refine (Writes.argument hargs (n := 0) rfl).bind ?_
  rintro x s₁ h₁ ⟨_, _, hx⟩
  refine (Writes.argument (weaken_all hargs h₁) (n := 1) rfl).bind ?_
  rintro y s₂ h₂ ⟨_, _, hy⟩
  exact .fcmp hx.type hy.type (hx.known.weaken h₂) hy.known

theorem compareStrings (hb : b ∈ c.order) {pred : IntPred} (htypes : types = [.bytes, .bytes]) :
    Writes c e dom b rest s (Write.compareStrings c v pred) fun z s' => Made c e b s' z .i1 := by
  subst htypes
  unfold Write.compareStrings
  refine (Writes.argument hargs (n := 0) rfl).bind ?_
  rintro x s₁ h₁ ⟨_, _, hx⟩
  refine (Writes.argument (weaken_all hargs h₁) (n := 1) rfl).bind ?_
  rintro y s₂ h₂ ⟨_, _, hy⟩
  have hknown : Known c e dom b s₂ compareTexts.address :=
    .const (.func (by simp [visible, Declared.all])) rfl
  refine (Writes.call rfl
    (by simp [compareTexts, hx.type, hy.type]) hknown
    (by simp [hx.known.weaken h₂, hy.known])).bind ?_
  rintro z s₃ h₃ ⟨hz, _⟩
  exact .icmp hz.type rfl (hz.known hb) .int

/-- A division first makes sure that its divisor is not zero. -/
theorem division (hc : Sound c e dom) {op : Operand → Operand → Write Operand}
    (htypes : types = [.i64, .i64]) (hvoid : v.op.isVoid = false)
    (hresult : resultType? v = some .i64) (hform : ∀ s x, Form s v x)
    (hop : ∀ s x y, x.type = .i64 → y.type = .i64 → Known c e dom b s x → Known c e dom b s y →
      Writes c e dom b rest s (op x y) fun z s' => Made c e b s' z .i64) :
    Writes c e dom b rest s (do
      let y ← Write.argument c v 1
      Write.checkDivisor v.pos y
      return some (← op (← Write.argument c v 0) y)) (Produces c e b v) := by
  subst htypes
  refine (Writes.argument hargs (n := 1) rfl).bind ?_
  rintro y s₁ h₁ ⟨_, _, hy⟩
  refine (Writes.checkDivisor hc v.pos hy.type hy.known).bind fun _ s₂ h₂ _ => ?_
  refine (Writes.argument (weaken_all (weaken_all hargs h₁) h₂) (n := 0) rfl).bind ?_
  rintro x s₃ h₃ ⟨_, _, hx⟩
  have hy' := (hy.weaken h₂).weaken h₃
  exact .gives hvoid hresult ((hop s₃ x y hx.type hy.type hx.known hy'.known).imp
    fun z s₄ _ hz => ⟨hz, hform s₄ z⟩)

end

/-- An operation that has the same types everywhere. -/
theorem operation (hc : Sound c e dom) (hb : b ∈ c.order) (hop : operation? v.op = some (types, type))
    (hargs : List.Forall₂ (Given c e dom b s) v.args types)
    (hresult : resultType? v = some type) :
    Writes c e dom b rest s (Write.instr c v) (Produces c e b v) := by
  have hform : ∀ s x, Form s v x := by
    intro s x
    refine .plain ?_ ?_ ?_ <;> intro heq <;> rw [heq] at hop <;> cases hop
  have hvoid : v.op.isVoid = false := by
    cases heq : v.op <;> rw [heq] at hop <;> first | rfl | cases hop
  have hgives : ∀ {m : Write Operand},
      (Writes c e dom b rest s m fun z s' => Made c e b s' z type) →
      Writes c e dom b rest s (do return some (← m)) (Produces c e b v) := fun h =>
    .gives hvoid hresult (h.imp fun z s' _ hz => ⟨hz, hform s' z⟩)
  have hconst : ∀ {x : Operand}, x.Typed (visible c e s) → x.type = type → x.line? = none →
      Writes c e dom b rest s (Pure.pure (some x)) (Produces c e b v) := fun htyped htype hline =>
    .pure (Or.inr ⟨_, _, rfl, hvoid, hresult, .const htyped htype hline, hform _ _⟩)
  unfold Write.instr
  cases heq : v.op <;> rw [heq] at hop <;>
    first | (obtain ⟨rfl, rfl⟩ := Prod.mk.inj (Option.some.inj hop)) | cases hop
  case const64 => exact hconst .int rfl rfl
  case constFloat => exact hconst .double rfl rfl
  case constBool => exact hconst .bool rfl rfl
  case constString => exact hgives (.literal v.name)
  case add64 | sub64 | mul64 => exact hgives (.binary hargs rfl fun _ _ => .int rfl)
  case div64 => exact .division hargs hc rfl hvoid hresult hform fun _ _ _ => .quotient hb
  case mod64 => exact .division hargs hc rfl hvoid hresult hform fun _ _ _ => .remainder hb
  case neg64 =>
    refine (Writes.argument hargs (n := 0) rfl).bind ?_
    rintro x s₁ h₁ ⟨_, _, hx⟩
    have hneg : (Instr.binary .sub (.word 0) x).Typed := .int rfl rfl hx.type
    refine .gives hvoid hresult ((Writes.emit hneg rfl (by
      simp [Instr.operands, hx.known, Operand.word, Known.int])).imp ?_)
    rintro z s₂ _ ⟨hz, _⟩
    exact ⟨hz, hform s₂ z⟩
  case addF64 | subF64 | mulF64 | divF64 =>
    exact hgives (.binary hargs rfl fun _ _ => .float rfl)
  case negF64 =>
    refine (Writes.argument hargs (n := 0) rfl).bind ?_
    rintro x s₁ h₁ ⟨_, _, hx⟩
    refine .gives hvoid hresult ((Writes.emit (.fneg hx.type) rfl (by
      simp [Instr.operands, hx.known])).imp ?_)
    rintro z s₂ _ ⟨hz, _⟩
    refine ⟨?_, hform s₂ z⟩
    rwa [Instr.type, hx.type] at hz
  case not =>
    refine (Writes.argument hargs (n := 0) rfl).bind ?_
    rintro x s₁ h₁ ⟨_, _, hx⟩
    have hxor : (Instr.binary .xor x (.bool true)).Typed := .int rfl hx.type rfl
    refine .gives hvoid hresult ((Writes.emit hxor rfl (by
      simp [Instr.operands, hx.known, Known.bool])).imp ?_)
    rintro z s₂ _ ⟨hz, _⟩
    refine ⟨?_, hform s₂ z⟩
    rwa [Instr.type, hx.type] at hz
  case lt64 | leq64 | gt64 | geq64 => exact hgives (.compareInts hargs rfl)
  case eqF64 | neqF64 | ltF64 | leqF64 | gtF64 | geqF64 =>
    exact hgives (.compareFloats hargs rfl)
  case eqStr | neqStr => exact hgives (.compareStrings hargs hb rfl)
  case dispatchTable =>
    refine (Writes.argument hargs (n := 0) rfl).bind ?_
    rintro x s₁ h₁ ⟨_, _, hx⟩
    refine (Writes.fieldAddress hb hx.type hx.known dispatchOffset .bytes).bind
      fun slot s₂ h₂ hslot => ?_
    have hload : (Instr.load .bytes slot).Typed := .load (by simp) hslot.type
    refine (Writes.emit hload rfl (by simp [Instr.operands, hslot.known hb])).bind ?_
    rintro table s₃ h₃ ⟨htable, _⟩
    refine .gives hvoid hresult ((Writes.emit (.bitcast htable.type) rfl (by
      simp [Instr.operands, htable.known hb])).imp ?_)
    rintro z s₄ _ ⟨hz, _⟩
    exact ⟨hz, hform s₄ z⟩

/-- A comparison of two integers or of two truth values. -/
theorem equality (hop : v.op = .eq64 ∨ v.op = .neq64) (hkind : type = .i64 ∨ type = .i1)
    (hargs : List.Forall₂ (Given c e dom b s) v.args [type, type])
    (hresult : resultType? v = some .i1) :
    Writes c e dom b rest s (Write.instr c v) (Produces c e b v) := by
  obtain ⟨width, rfl⟩ : ∃ width, type = .int width := by
    rcases hkind with rfl | rfl
    · exact ⟨64, rfl⟩
    · exact ⟨1, rfl⟩
  unfold Write.instr
  rcases hop with heq | heq
  all_goals
    rw [heq]
    apply gives (by rw [heq]; rfl) hresult
    apply (Writes.compareInts hargs rfl).imp
    exact fun z s' _ hz => ⟨hz, .plain (by simp [heq]) (by simp [heq]) (by simp [heq])⟩

theorem lift {α β : Type} {m : Except EmitError α} {a : α} {f : α → Write β}
    {R : β → Writer → Prop} (hm : m = .ok a) (hf : Writes c e dom b rest s (f a) R) :
    Writes c e dom b rest s (do f (← m)) R := by
  subst hm
  exact hf

theorem parameter (hc : Sound c e dom) {i : Nat} {p : Param}
    (hplace : v.number.toInt + (if e.method then 1 else 0) = i)
    (hparam : e.head.params[i]? = some p) :
    Writes c e dom b rest s (Write.parameter c v) fun x s' => Made c e b s' x p.type := by
  have hget : (if (i : Int) < 0 then none else c.head.params[(i : Int).toNat]?) = some p := by
    rw [if_neg (by omega), hc.head]
    exact hparam
  unfold Write.parameter
  rw [hc.method, hplace]
  dsimp only
  rw [hget]
  exact .pure (.const (.param (v := visible c e s) (by rw [visible, hc.head]; exact hparam))
    rfl rfl)

theorem typeOf_eq (h : Ty.ofTy? (v.type.getD .missing) = some type) : typeOf v.type = .ok type := by
  unfold typeOf valueType
  rw [h]

theorem alloca (hop : v.op = .alloca) (hvalue : type.isValue = true)
    (hresult : resultType? v = some (.ptr type)) :
    Writes c e dom b rest s (Write.instr c v) (Produces c e b v) := by
  have htype : Ty.ofTy? (v.type.getD .missing) = some type := by
    simpa [resultType?, hop] using hresult
  unfold Write.instr
  rw [hop]
  apply lift (typeOf_eq htype)
  have htyped : (Instr.alloca type).Typed := .alloca (by rintro rfl; cases hvalue)
  apply gives (by rw [hop]; rfl) hresult
  apply (Writes.emit htyped rfl (by simp [Instr.operands])).imp
  rintro z s' _ ⟨hz, _⟩
  exact ⟨hz, .plain (by simp [hop]) (by simp [hop]) (by simp [hop])⟩

theorem load (hop : v.op = .load) (hvalue : type.isValue = true)
    (hargs : List.Forall₂ (Given c e dom b s) v.args [.ptr type])
    (hresult : resultType? v = some type) :
    Writes c e dom b rest s (Write.instr c v) (Produces c e b v) := by
  have htype : Ty.ofTy? (v.type.getD .missing) = some type := by
    simpa [resultType?, hop] using hresult
  unfold Write.instr
  rw [hop]
  apply lift (typeOf_eq htype)
  refine (Writes.argument hargs (n := 0) rfl).bind ?_
  rintro x s₁ h₁ ⟨_, _, hx⟩
  have htyped : (Instr.load type x).Typed := .load (by rintro rfl; cases hvalue) hx.type
  apply gives (by rw [hop]; rfl) hresult
  apply (Writes.emit htyped rfl (by simp [Instr.operands, hx.known])).imp
  rintro z s' _ ⟨hz, _⟩
  exact ⟨hz, .plain (by simp [hop]) (by simp [hop]) (by simp [hop])⟩

theorem storeInstr (hop : v.op = .store)
    (hargs : List.Forall₂ (Given c e dom b s) v.args [.ptr type, type]) :
    Writes c e dom b rest s (Write.instr c v) (Produces c e b v) := by
  unfold Write.instr
  rw [hop]
  refine (Writes.argument hargs (n := 1) rfl).bind ?_
  rintro x s₁ h₁ ⟨_, _, hx⟩
  refine (Writes.argument (weaken_all hargs h₁) (n := 0) rfl).bind ?_
  rintro y s₂ h₂ ⟨_, _, hy⟩
  apply givesNothing (by rw [hop]; rfl)
  exact .store (by rw [hy.type, hx.type]) (hx.known.weaken h₂) hy.known

theorem loadField (hb : b ∈ c.order) (hop : v.op = .loadField) (hvalue : type.isValue = true)
    (hargs : List.Forall₂ (Given c e dom b s) v.args [.bytes])
    (hresult : resultType? v = some type) :
    Writes c e dom b rest s (Write.instr c v) (Produces c e b v) := by
  have htype : Ty.ofTy? (v.type.getD .missing) = some type := by
    simpa [resultType?, hop] using hresult
  unfold Write.instr
  rw [hop]
  apply lift (typeOf_eq htype)
  refine (Writes.argument hargs (n := 0) rfl).bind ?_
  rintro x s₁ h₁ ⟨_, _, hx⟩
  refine (Writes.fieldAddress hb hx.type hx.known v.number.toInt type).bind fun y s₂ h₂ hy => ?_
  have htyped : (Instr.load type y).Typed := .load (by rintro rfl; cases hvalue) hy.type
  apply gives (by rw [hop]; rfl) hresult
  apply (Writes.emit htyped rfl (by simp [Instr.operands, hy.known hb])).imp
  rintro z s' _ ⟨hz, _⟩
  exact ⟨hz, .plain (by simp [hop]) (by simp [hop]) (by simp [hop])⟩

theorem storeField (hb : b ∈ c.order) (hop : v.op = .storeField)
    (hargs : List.Forall₂ (Given c e dom b s) v.args [.bytes, type]) :
    Writes c e dom b rest s (Write.instr c v) (Produces c e b v) := by
  unfold Write.instr
  rw [hop]
  refine (Writes.argument hargs (n := 1) rfl).bind ?_
  rintro x s₁ h₁ ⟨_, _, hx⟩
  refine (Writes.argument (weaken_all hargs h₁) (n := 0) rfl).bind ?_
  rintro y s₂ h₂ ⟨_, _, hy⟩
  refine (Writes.fieldAddress hb hy.type hy.known v.number.toInt x.type).bind
    fun z s₃ h₃ hz => ?_
  apply givesNothing (by rw [hop]; rfl)
  exact .store hz.type ((hx.known.weaken h₂).weaken h₃) (hz.known hb)

/-- The constants of a class that has a layout. -/
theorem classGlobals_visible {l : ClassLayout} {g : Global}
    (hknown : l ∈ (Layouts.build e.table).classes) (hg : g ∈ classGlobals c.declared l) :
    g ∈ (visible c e s).globals :=
  List.mem_append_left _ (List.mem_flatMap.2 ⟨l, hknown, hg⟩)

theorem layout {l : ClassLayout} (hl : v.layout? = some l) :
    Writes c e dom b rest s (Write.layout v) fun l' _ => l' = l := by
  unfold Write.layout
  rw [hl]
  exact .pure rfl

/-- An object is made with the descriptor of its class. -/
theorem alloc {l : ClassLayout} (hop : v.op = .alloc) (hl : v.layout? = some l)
    (hknown : l ∈ (Layouts.build e.table).classes) (hresult : resultType? v = some .bytes) :
    Writes c e dom b rest s (Write.instr c v) (Produces c e b v) := by
  unfold Write.instr
  rw [hop]
  refine (Writes.layout hl).bind fun l' s₁ h₁ heq => ?_
  subst heq
  have hcallee : Known c e dom b s₁ allocate.address :=
    .const (.func (by simp [visible, Declared.all, supportFuncs])) rfl
  have hdescriptor : Known c e dom b s₁
      (.firstByte (descriptorSymbol l'.name) (l'.descriptor.utf8ByteSize + 1)) :=
    .const (.firstByte (g := ⟨descriptorSymbol l'.name, .chars l'.descriptor⟩)
      (classGlobals_visible hknown (by simp [classGlobals])) rfl) rfl
  apply gives (by rw [hop]; rfl) hresult
  apply (Writes.call rfl rfl hcallee
    (by simp [hdescriptor, Operand.word, Known.int])).imp
  rintro z s' _ ⟨hz, _⟩
  exact ⟨hz, .plain (by simp [hop]) (by simp [hop]) (by simp [hop])⟩

theorem setDispatch (hb : b ∈ c.order) {l : ClassLayout} (hop : v.op = .setDispatch)
    (hl : v.layout? = some l) (hknown : l ∈ (Layouts.build e.table).classes)
    (hargs : List.Forall₂ (Given c e dom b s) v.args [.bytes]) :
    Writes c e dom b rest s (Write.instr c v) (Produces c e b v) := by
  unfold Write.instr
  rw [hop]
  refine (Writes.layout hl).bind fun l' s₁ h₁ heq => ?_
  subst heq
  refine (Writes.argument (weaken_all hargs h₁) (n := 0) rfl).bind ?_
  rintro x s₂ h₂ ⟨_, _, hx⟩
  refine (Writes.fieldAddress hb hx.type hx.known dispatchOffset .bytes).bind
    fun y s₃ h₃ hy => ?_
  -- the table is an array of pointers, and objects refer to it as bytes
  let table : Global :=
    ⟨dispatchSymbol l'.name, .pointers (l'.dispatch.map (dispatchEntry c.declared))⟩
  have htable : table ∈ (visible c e s₃).globals :=
    classGlobals_visible hknown (by simp [classGlobals, table])
  have htype : Operand.global (dispatchSymbol l'.name) (.array l'.dispatch.length .bytes) =
      .global table.name table.contents.type := by simp [table, Contents.type]
  apply givesNothing (by rw [hop]; rfl)
  apply Writes.store hy.type
  · rw [htype]
    exact .const (.cast (.global htable) rfl) rfl
  · exact hy.known hb

theorem callee {head : Func} (hhead : c.declared.find? v.callee? = some head) :
    Writes c e dom b rest s (Write.callee c v) fun f s' =>
      f = head.address ∧ Known c e dom b s' f := by
  unfold Write.callee
  rw [hhead]
  exact .pure ⟨rfl, .const (.func (Declared.mem_all hhead)) rfl⟩

/-- A call of a function passes operands of the types of its parameters. -/
theorem callDirect (hc : Sound c e dom) {head : Func} (hop : v.op = .callDirect)
    (hhead : e.declared.find? v.callee? = some head)
    (hargs : List.Forall₂ (Given c e dom b s) v.args (head.params.map (·.type)))
    (hresult : resultType? v = some head.result) :
    Writes c e dom b rest s (Write.instr c v) (Produces c e b v) := by
  rw [← hc.declared] at hhead
  unfold Write.instr
  rw [hop]
  refine (Writes.callee hhead).bind ?_
  rintro f s₁ h₁ ⟨hf, hknown⟩
  refine (Writes.operands (weaken_all hargs h₁)).bind ?_
  rintro xs s₂ h₂ ⟨htypes, hxs⟩
  apply gives (by rw [hop]; rfl) hresult
  apply (Writes.call (by rw [hf]; rfl) htypes (hknown.weaken h₂) hxs).imp
  rintro z s' _ ⟨hz, _⟩
  exact ⟨hz, .plain (by simp [hop]) (by simp [hop]) (by simp [hop])⟩

/-- The entry of a dispatch table is taken as a method of the type of the call. -/
theorem dispatchEntry (hb : b ∈ c.order) {sig : Signature} (hop : v.op = .dispatchEntry)
    (hsig : v.type.bind Signature.ofTy? = some sig) (herased : methodType sig = .ok type)
    (hargs : List.Forall₂ (Given c e dom b s) v.args [.ptr .bytes]) :
    Writes c e dom b rest s (Write.instr c v) (Produces c e b v) := by
  have hresult : resultType? v = some (.ptr type) := by
    simp [resultType?, hop, hsig, herased, Except.toOption]
  unfold Write.instr
  rw [hop, hsig]
  refine (Writes.argument hargs (n := 0) rfl).bind ?_
  rintro x s₁ h₁ ⟨_, _, hx⟩
  refine (Writes.element hx.type hx.known v.number.toInt).bind fun p s₂ h₂ hp => ?_
  have hload : (Instr.load .bytes p).Typed := .load (by simp) hp.type
  refine (Writes.emit hload rfl (by simp [Instr.operands, hp.known hb])).bind ?_
  rintro impl s₃ h₃ ⟨himpl, _⟩
  apply lift herased
  apply gives (by rw [hop]; rfl) hresult
  apply (Writes.emit (.bitcast himpl.type) rfl (by simp [Instr.operands, himpl.known hb])).imp
  rintro z s' _ ⟨hz, k, i, n, rfl, hline⟩
  refine ⟨hz, ?_⟩
  simp only [Form, hop]
  exact ⟨k, i, n, impl, type, rfl, hline⟩

/-- A call of a method passes the receiver first. -/
theorem callIndirect {params : List Ty} {result : Ty} (hop : v.op = .callIndirect)
    (hargs : List.Forall₂ (Given c e dom b s) v.args (.ptr (.func result params) :: params))
    (hresult : resultType? v = some result) :
    Writes c e dom b rest s (Write.instr c v) (Produces c e b v) := by
  unfold Write.instr
  rw [hop]
  refine (Writes.argument hargs (n := 0) rfl).bind ?_
  rintro f s₁ h₁ ⟨entry, hentry, hf⟩
  have hrest : List.Forall₂ (Given c e dom b s₁) (v.args.drop 1) params := by
    have hall := weaken_all hargs h₁
    cases hv : v.args with
    | nil => simp [hv] at hentry
    | cons x xs =>
        rw [hv] at hall
        exact (List.forall₂_cons.1 hall).2
  refine (Writes.operands hrest).bind ?_
  rintro xs s₂ h₂ ⟨htypes, hxs⟩
  have hf₂ := hf.weaken h₂
  apply gives (by rw [hop]; rfl) hresult
  apply (Writes.call hf₂.type htypes hf₂.known hxs).imp
  rintro z s' h₃ ⟨hz, k, i, n, rfl, hline⟩
  obtain ⟨j, rfl, hj⟩ := (hf₂.weaken h₃).stored
  refine ⟨hz, ?_⟩
  simp only [Form, hop]
  exact ⟨k, i, n, j, f, xs, by rw [hf₂.type]; rfl, hline, hentry, hj⟩

/-- A phi starts its block. What it chooses from is filled in when all blocks are there. -/
theorem phi {j : Nat} (hv : c.graph.instr? j = some v) (hop : v.op = .phi)
    (hvalue : type.isValue = true) (hresult : resultType? v = some type)
    (hplace : s.current = c.order.idxOf v.block) (hempty : s.body.count s.current = 0) :
    Writes c e dom b rest s (Write.instr c v) (Produces c e b v) := by
  have htype : Ty.ofTy? (v.type.getD .missing) = some type := by
    simpa [resultType?, hop] using hresult
  unfold Write.instr
  rw [hop]
  apply lift (typeOf_eq htype)
  let noted : Writer := { s with phis := s.phis ++ [(s.next, v)] }
  refine .of_run (noted.emitted (.phi type [])) rfl fun hs => ?_
  have hlt := hs.inv.lt_size List.mem_cons_self
  have hextends : Extends s (noted.emitted (.phi type [])) := by
    have hemitted := extends_emitted (s := noted) hlt (.phi type [])
    exact ⟨hemitted.size, hemitted.lines, hemitted.ends, hemitted.literals⟩
  have hline : (noted.emitted (.phi type [])).body.line? s.current
      (s.body.count s.current) = some ⟨s.next, .phi type []⟩ := by
    rw [Writer.line?_emitted (s := noted) hlt, if_pos ⟨rfl, rfl⟩]
  have htyped : (Instr.phi type []).Typed :=
    .phi (by rintro rfl; cases hvalue) fun _ h => absurd h List.not_mem_nil
  have hinv := hs.inv.emit List.mem_cons_self (.phi type []) [(s.next, v)]
    ⟨htyped, by simp [Instr.operands], by simp [Instr.operands]⟩
    (Or.inr ⟨j, v, type, rfl, rfl, hempty, hplace, hv, hop, hresult⟩)
  have hblank : ∀ k ∈ rest, ∀ i, (noted.emitted (.phi type [])).body.line? k i = none := by
    intro k hk i
    rw [Writer.line?_emitted (s := noted) hlt, if_neg]
    · exact hs.blank k hk i
    · rintro ⟨rfl, _⟩
      exact (List.nodup_cons.1 hs.inv.nodup).1 hk
  have hmade : Made c e b (noted.emitted (.phi type [])) (.result s.next type) type := by
    refine ⟨.result (v := visible c e (noted.emitted (.phi type []))) hline, rfl, fun m hm => ?_⟩
    obtain rfl := Option.some.inj hm
    exact ⟨s.current, hextends.within hs.within, _, _, hline, rfl⟩
  refine ⟨⟨hinv, hs.mem, hextends.within hs.within, hblank⟩,
    ⟨hextends, rfl, rfl, List.subset_append_left _ _⟩,
    Or.inr ⟨_, type, rfl, by rw [hop]; rfl, hresult, hmade, ?_⟩⟩
  simp only [Form, hop]
  exact ⟨s.next, type, rfl, List.mem_append_right _ List.mem_cons_self⟩

/-! All operations -/

/-- Operands that are carried in the graph have been written. -/
theorem given_all {args : List (Option Nat)}
    (hargs : List.Forall₂ (Carries c.graph) args types)
    (hgiven : ∀ arg ∈ args, ∀ type, Carries c.graph arg type → Given c e dom b s arg type) :
    List.Forall₂ (Given c e dom b s) args types := by
  induction hargs with
  | nil => exact .nil
  | cons harg _ ih =>
      exact .cons (hgiven _ List.mem_cons_self _ harg)
        (ih fun arg h => hgiven arg (List.mem_cons_of_mem _ h))

/-- An instruction can be written when its operands have been. -/
theorem instr (hc : Sound c e dom) (hb : b ∈ c.order) {j : Nat} (hv : c.graph.instr? j = some v)
    (hgiven : v.op ≠ .phi → ∀ arg ∈ v.args, ∀ type, Carries c.graph arg type →
      Given c e dom b s arg type)
    (hphi : v.op = .phi → s.current = c.order.idxOf v.block ∧ s.body.count s.current = 0) :
    Writes c e dom b rest s (Write.instr c v) (Produces c e b v) := by
  have hall : ∀ {types}, v.op ≠ .phi → List.Forall₂ (Carries c.graph) v.args types →
      List.Forall₂ (Given c e dom b s) v.args types := fun hop hargs =>
    given_all hargs (hgiven hop)
  cases hc.typed.instrs j v hv with
  | operation op args result =>
      refine .operation hc hb op (hall ?_ args) result
      rintro heq
      rw [heq] at op
      cases op
  | equality op kind args result =>
      exact .equality op kind (hall (by rcases op with h | h <;> simp [h]) args) result
  | arg op place param result =>
      unfold Write.instr
      rw [op]
      apply gives (by rw [op]; rfl) result
      apply (Writes.parameter hc place param).imp
      exact fun z s' _ hz => ⟨hz, .plain (by simp [op]) (by simp [op]) (by simp [op])⟩
  | alloca op value result => exact .alloca op value result
  | load op value args result => exact .load op value (hall (by simp [op]) args) result
  | store op value args => exact .storeInstr op (hall (by simp [op]) args)
  | phi op value args result => exact .phi hv op value result (hphi op).1 (hphi op).2
  | alloc op layout known result => exact .alloc op layout known result
  | loadField op value args result =>
      exact .loadField hb op value (hall (by simp [op]) args) result
  | storeField op value args => exact .storeField hb op (hall (by simp [op]) args)
  | setDispatch op layout known args =>
      exact .setDispatch hb op layout known (hall (by simp [op]) args)
  | callDirect op callee args result =>
      exact .callDirect hc op callee (hall (by simp [op]) args) result
  | dispatchEntry op signature erased args =>
      exact .dispatchEntry hb op signature erased (hall (by simp [op]) args)
  | callIndirect op args value finds =>
      exact .callIndirect op (hall (by simp [op]) args) value

end Writes

end ClassLang.Llvm
