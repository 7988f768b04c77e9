import ClassLang.Proofs.Graph.Builder
import ClassLang.Proofs.Llvm.Erasure

/-!
Which types the operands of an instruction need so that it can be written, and the
rules by which a graph under construction keeps to them. Where an instruction is placed
does not matter here, so the rules look at what construction adds and not at where.
-/

namespace ClassLang

namespace Table

/-- An object of the class `d` can be a value of a type: the type is one of a class of which
`d` descends, or a parameter that admits such a type. -/
inductive Reaches (t : Table) (d : ClassInfo) : Ty → Prop
  | cls {ty : Ty} {c : ClassInfo} (cls : t.classOf? ty = some c) (known : d ∈ t.classes)
      (descends : t.isAncestor c.id d.id = true) : Reaches t d ty
  | param {p : TypeParam} {arg : Ty} {c : ClassInfo} (admits : t.Admits p arg)
      (formed : arg.Formed t) (cls : t.classOf? arg = some c) (known : d ∈ t.classes)
      (descends : t.isAncestor c.id d.id = true) : Reaches t d (.param p)

end Table

namespace Llvm

/-- Whether a type is one of values that instructions work on. -/
def Ty.isValue : Ty → Bool
  | .int _ | .double | .ptr _ => true
  | _ => false

/-- The type of the value of an instruction of a graph. -/
def resultType? (v : Graph.Instr) : Option Ty :=
  match v.op with
  | .alloca => (Ty.ofTy? (v.type.getD .missing)).map .ptr
  | .dispatchTable => some (.ptr .bytes)
  | .dispatchEntry =>
    ((v.type.bind Signature.ofTy?).bind fun s => (methodType s).toOption).map .ptr
  | _ => Ty.ofTy? (v.type.getD .missing)

/-- The types of the operands and of the value of an operation that has the same ones
everywhere. -/
def operation? : Graph.Op → Option (List Ty × Ty)
  | .const64 => some ([], .i64)
  | .constFloat => some ([], .double)
  | .constBool => some ([], .i1)
  | .constString => some ([], .bytes)
  | .add64 | .sub64 | .mul64 | .div64 | .mod64 => some ([.i64, .i64], .i64)
  | .neg64 => some ([.i64], .i64)
  | .addF64 | .subF64 | .mulF64 | .divF64 => some ([.double, .double], .double)
  | .negF64 => some ([.double], .double)
  | .not => some ([.i1], .i1)
  | .lt64 | .leq64 | .gt64 | .geq64 => some ([.i64, .i64], .i1)
  | .eqF64 | .neqF64 | .ltF64 | .leqF64 | .gtF64 | .geqF64 => some ([.double, .double], .i1)
  | .eqStr | .neqStr => some ([.bytes, .bytes], .i1)
  | .dispatchTable => some ([.bytes], .ptr .bytes)
  | _ => none

/-- What a function is written against: the table of its unit, the declarations of the
module, its own declaration, and whether it is a method. -/
structure Env where
  table : Table
  declared : Declared
  head : Func
  method : Bool

/-- The operand `arg` is there and has a value of the type `type`. -/
def Carries (f : Graph.Func) (arg : Option Nat) (type : Ty) : Prop :=
  ∃ i v, arg = some i ∧ f.instr? i = some v ∧ v.op.isVoid = false ∧ resultType? v = some type

/-- A call through slot number `slot` of a receiver of type `recv` only finds methods of the
type `type`, whichever class the receiver is of. -/
def Dispatches (t : Table) (recv : ClassLang.Ty) (slot : Int) (type : Ty) : Prop :=
  ∀ d, t.Reaches d recv → ∀ l, (Layouts.build t).named? d.name = some l →
    ∀ m, l.method? slot = some m → methodType m.sig = .ok type

/-- The first operand is the entry of a dispatch table, and the second one the receiver that
it is called with. -/
structure FindsMethod (t : Table) (f : Graph.Func) (args : List (Option Nat)) (type : Ty) :
    Prop where
  exists_operands : ∃ i j rest entry recv ty, args = some i :: some j :: rest ∧
    f.instr? i = some entry ∧ entry.op = .dispatchEntry ∧
    f.instr? j = some recv ∧ recv.type = some ty ∧ Dispatches t ty entry.number.toInt type

/-- An instruction has operands of the types that it works on, and a value of the type that
it says. -/
inductive InstrTyped (e : Env) (f : Graph.Func) (v : Graph.Instr) : Prop
  | operation {types : List Ty} {type : Ty} (op : operation? v.op = some (types, type))
      (args : List.Forall₂ (Carries f) v.args types) (result : resultType? v = some type)
  | equality {type : Ty} (op : v.op = .eq64 ∨ v.op = .neq64) (kind : type = .i64 ∨ type = .i1)
      (args : List.Forall₂ (Carries f) v.args [type, type]) (result : resultType? v = some .i1)
  | arg {i : Nat} {p : Param} (op : v.op = .arg)
      (place : v.number.toInt + (if e.method then 1 else 0) = i)
      (param : e.head.params[i]? = some p) (result : resultType? v = some p.type)
  | alloca {type : Ty} (op : v.op = .alloca) (value : type.isValue = true)
      (result : resultType? v = some (.ptr type))
  | load {type : Ty} (op : v.op = .load) (value : type.isValue = true)
      (args : List.Forall₂ (Carries f) v.args [.ptr type]) (result : resultType? v = some type)
  | store {type : Ty} (op : v.op = .store) (value : type.isValue = true)
      (args : List.Forall₂ (Carries f) v.args [.ptr type, type])
  | phi {type : Ty} (op : v.op = .phi) (value : type.isValue = true)
      (args : ∀ arg ∈ v.args, Carries f arg type) (result : resultType? v = some type)
  | alloc {l : ClassLayout} (op : v.op = .alloc) (layout : v.layout? = some l)
      (known : l ∈ (Layouts.build e.table).classes) (result : resultType? v = some .bytes)
  | loadField {type : Ty} (op : v.op = .loadField) (value : type.isValue = true)
      (args : List.Forall₂ (Carries f) v.args [.bytes]) (result : resultType? v = some type)
  | storeField {type : Ty} (op : v.op = .storeField) (value : type.isValue = true)
      (args : List.Forall₂ (Carries f) v.args [.bytes, type])
  | setDispatch {l : ClassLayout} (op : v.op = .setDispatch) (layout : v.layout? = some l)
      (known : l ∈ (Layouts.build e.table).classes)
      (args : List.Forall₂ (Carries f) v.args [.bytes])
  | callDirect {head : Func} (op : v.op = .callDirect)
      (callee : e.declared.find? v.callee? = some head)
      (args : List.Forall₂ (Carries f) v.args (head.params.map (·.type)))
      (result : resultType? v = some head.result)
  | dispatchEntry {sig : Signature} {type : Ty} (op : v.op = .dispatchEntry)
      (signature : v.type.bind Signature.ofTy? = some sig) (erased : methodType sig = .ok type)
      (args : List.Forall₂ (Carries f) v.args [.ptr .bytes])
  | callIndirect {params : List Ty} {result : Ty} (op : v.op = .callIndirect)
      (args : List.Forall₂ (Carries f) v.args (.ptr (.func result params) :: params))
      (value : resultType? v = some result)
      (finds : FindsMethod e.table f v.args (.func result params))

/-- The instructions of a graph have operands of the right types, and so have the ends of
its blocks. -/
structure GraphTyped (e : Env) (f : Graph.Func) : Prop where
  instrs : ∀ i v, f.instr? i = some v → InstrTyped e f v
  branches : ∀ b x, f.block? b = some x → x.kind = .branch → ∀ c ∈ x.controls, Carries f c .i1
  returns : ∀ b x, f.block? b = some x → x.kind = .ret → ∀ c ∈ x.controls,
    Carries f c e.head.result

variable {e : Env} {f f' : Graph.Func} {v : Graph.Instr} {type : Ty}

/-! What has been added stays typed -/

section

variable (hinstrs : ∀ i v, f.instr? i = some v → f'.instr? i = some v)

include hinstrs

theorem Carries.mono {arg : Option Nat} (h : Carries f arg type) : Carries f' arg type := by
  obtain ⟨i, v, harg, hv, hrest⟩ := h
  exact ⟨i, v, harg, hinstrs i v hv, hrest⟩

theorem FindsMethod.mono {t : Table} {args : List (Option Nat)} (h : FindsMethod t f args type) :
    FindsMethod t f' args type := by
  obtain ⟨i, j, rest, entry, recv, ty, hargs, hentry, hop, hrecv, hty, hdispatch⟩ :=
    h.exists_operands
  exact ⟨i, j, rest, entry, recv, ty, hargs, hinstrs i _ hentry, hop, hinstrs j _ hrecv, hty,
    hdispatch⟩

theorem InstrTyped.mono (h : InstrTyped e f v) : InstrTyped e f' v := by
  have hall : ∀ {types}, List.Forall₂ (Carries f) v.args types →
      List.Forall₂ (Carries f') v.args types := fun hargs =>
    hargs.imp fun _ _ harg => harg.mono hinstrs
  cases h with
  | operation op args result => exact .operation op (hall args) result
  | equality op kind args result => exact .equality op kind (hall args) result
  | arg op place param result => exact .arg op place param result
  | alloca op value result => exact .alloca op value result
  | load op value args result => exact .load op value (hall args) result
  | store op value args => exact .store op value (hall args)
  | phi op value args result =>
      exact .phi op value (fun arg harg => (args arg harg).mono hinstrs) result
  | alloc op layout known result => exact .alloc op layout known result
  | loadField op value args result => exact .loadField op value (hall args) result
  | storeField op value args => exact .storeField op value (hall args)
  | setDispatch op layout known args => exact .setDispatch op layout known (hall args)
  | callDirect op callee args result => exact .callDirect op callee (hall args) result
  | dispatchEntry op signature erased args =>
      exact .dispatchEntry op signature erased (hall args)
  | callIndirect op args value finds =>
      exact .callIndirect op (hall args) value (finds.mono hinstrs)

end

namespace GraphTyped

/-- A change that leaves the instructions and the ends of blocks alone. -/
theorem congr (h : GraphTyped e f) (hinstrs : f'.instrs = f.instrs)
    (hblocks : ∀ b x', f'.block? b = some x' → x'.kind = .plain ∨
      ∃ x, f.block? b = some x ∧ x'.kind = x.kind ∧ x'.controls = x.controls) :
    GraphTyped e f' := by
  have hmono : ∀ i v, f.instr? i = some v → f'.instr? i = some v := fun i v hv => by
    rwa [Graph.Func.instr?, hinstrs]
  refine ⟨fun i v hv => ?_, fun b x' hx' hkind c hc => ?_, fun b x' hx' hkind c hc => ?_⟩
  · rw [Graph.Func.instr?, hinstrs] at hv
    exact (h.instrs i v hv).mono hmono
  · obtain hplain | ⟨x, hx, hkind', hcontrols⟩ := hblocks b x' hx'
    · rw [hkind] at hplain
      cases hplain
    · exact (h.branches b x hx (hkind' ▸ hkind) c (hcontrols ▸ hc)).mono hmono
  · obtain hplain | ⟨x, hx, hkind', hcontrols⟩ := hblocks b x' hx'
    · rw [hkind] at hplain
      cases hplain
    · exact (h.returns b x hx (hkind' ▸ hkind) c (hcontrols ▸ hc)).mono hmono

/-- A block may be changed apart from its end. -/
theorem modified (h : GraphTyped e f) (b : Nat) (g : Graph.Block → Graph.Block)
    (hkind : ∀ x, (g x).kind = x.kind) (hcontrols : ∀ x, (g x).controls = x.controls) :
    GraphTyped e { f with blocks := f.blocks.modify b g } := by
  refine h.congr rfl fun c x' hx' => Or.inr ?_
  rw [Graph.Func.block?, Graph.Func.getElem?_modify_block] at hx'
  split at hx'
  · obtain ⟨x, hx, rfl⟩ := Option.map_eq_some_iff.1 hx'
    exact ⟨x, hx, hkind x, hcontrols x⟩
  · exact ⟨x', hx', rfl, rfl⟩

/-- The end of a block may be changed to one whose operand has the right type. -/
theorem ended (h : GraphTyped e f) (b : Nat) (kind : Graph.BlockKind)
    (controls : List (Option Nat))
    (hbranch : kind = .branch → ∀ c ∈ controls, Carries f c .i1)
    (hret : kind = .ret → ∀ c ∈ controls, Carries f c e.head.result) :
    GraphTyped e (f.ended b kind controls) := by
  have hblock : ∀ c x', (f.ended b kind controls).block? c = some x' →
      (x'.kind = kind ∧ x'.controls = controls) ∨ f.block? c = some x' := by
    intro c x' hx'
    rw [Graph.Func.block?, Graph.Func.ended, Graph.Func.getElem?_modify_block] at hx'
    split at hx'
    · obtain ⟨x, _, rfl⟩ := Option.map_eq_some_iff.1 hx'
      exact Or.inl ⟨rfl, rfl⟩
    · exact Or.inr hx'
  have hmono : ∀ i v, f.instr? i = some v → (f.ended b kind controls).instr? i = some v :=
    fun _ _ hv => hv
  refine ⟨fun i v hv => (h.instrs i v hv).mono hmono, fun c x' hx' hkind a ha => ?_,
    fun c x' hx' hkind a ha => ?_⟩
  · obtain ⟨rfl, rfl⟩ | hx := hblock c x' hx'
    · exact (hbranch hkind a ha).mono hmono
    · exact (h.branches c x' hx hkind a ha).mono hmono
  · obtain ⟨rfl, rfl⟩ | hx := hblock c x' hx'
    · exact (hret hkind a ha).mono hmono
    · exact (h.returns c x' hx hkind a ha).mono hmono

/-- A typed instruction may be added anywhere. -/
theorem inserted (h : GraphTyped e f) (b n : Nat) (hv : InstrTyped e f v) :
    GraphTyped e (f.inserted b n v) := by
  have hmono : ∀ i w, f.instr? i = some w → (f.inserted b n v).instr? i = some w :=
    fun i w hw => Graph.Func.instr?_inserted_of hw v b n
  have hblock : ∀ c x', (f.inserted b n v).block? c = some x' →
      ∃ x, f.block? c = some x ∧ x'.kind = x.kind ∧ x'.controls = x.controls := by
    intro c x' hx'
    rw [Graph.Func.block?, Graph.Func.inserted, Graph.Func.getElem?_modify_block] at hx'
    split at hx'
    · obtain ⟨x, hx, rfl⟩ := Option.map_eq_some_iff.1 hx'
      exact ⟨x, hx, rfl, rfl⟩
    · exact ⟨x', hx', rfl, rfl⟩
  refine ⟨fun i w hw => ?_, fun c x' hx' hkind a ha => ?_, fun c x' hx' hkind a ha => ?_⟩
  · rw [Graph.Func.instr?_inserted] at hw
    split at hw
    · obtain rfl := Option.some.inj hw
      exact hv.mono hmono
    · exact (h.instrs i w hw).mono hmono
  · obtain ⟨x, hx, hkind', hcontrols⟩ := hblock c x' hx'
    exact (h.branches c x hx (hkind' ▸ hkind) a (hcontrols ▸ ha)).mono hmono
  · obtain ⟨x, hx, hkind', hcontrols⟩ := hblock c x' hx'
    exact (h.returns c x hx (hkind' ▸ hkind) a (hcontrols ▸ ha)).mono hmono

end GraphTyped

end Llvm

/-! Steps of construction -/

namespace Graph.Build

open Llvm (Env GraphTyped InstrTyped Carries resultType?)

variable {α β : Type} {e : Env} {ps qs : List Pos} {s s' s'' : Builder} {i : Nat} {t : Ty}
  {Q R : α → Builder → Prop} {vars : List Var}

/-- From `s` to `s'` instructions are only added, and slots only for the variables that are
declared at the places `ps`. -/
structure Grows (ps : List Pos) (s s' : Builder) : Prop where
  instrs : ∀ i v, s.func.instr? i = some v → s'.func.instr? i = some v
  slots : ∀ p, p ∉ ps → s'.slots.lookup p = s.slots.lookup p

namespace Grows

theorem refl (ps : List Pos) (s : Builder) : Grows ps s s := ⟨fun _ _ h => h, fun _ _ => rfl⟩

theorem trans (h : Grows ps s s') (h' : Grows ps s' s'') : Grows ps s s'' :=
  ⟨fun i v hv => h'.instrs i v (h.instrs i v hv), fun p hp =>
    (h'.slots p hp).trans (h.slots p hp)⟩

theorem mono (h : Grows ps s s') (hsub : ps ⊆ qs) : Grows qs s s' :=
  ⟨h.instrs, fun p hp => h.slots p fun hmem => hp (hsub hmem)⟩

end Grows

/-- Instruction `i` is a value of the type `t`. -/
def Holds (s : Builder) (i : Nat) (t : Ty) : Prop :=
  ∃ v type, s.func.instr? i = some v ∧ v.type = some t ∧ Llvm.Ty.ofTy? t = some type ∧
    v.op.isVoid = false ∧ resultType? v = some type

theorem Holds.grow (h : Holds s i t) (hgrows : Grows ps s s') : Holds s' i t := by
  obtain ⟨v, type, hv, hrest⟩ := h
  exact ⟨v, type, hgrows.instrs i v hv, hrest⟩

theorem Holds.carries {type : Llvm.Ty} (h : Holds s i t) (htype : Llvm.Ty.ofTy? t = some type) :
    Carries s.func (some i) type := by
  obtain ⟨v, type', hv, _, htype', hrest⟩ := h
  obtain rfl := Option.some.inj (htype.symm.trans htype')
  exact ⟨i, v, rfl, hv, hrest⟩

/-- Instruction `i` is a slot for values of the type `t`. -/
def Reserves (s : Builder) (i : Nat) (t : Ty) : Prop :=
  ∃ v, s.func.instr? i = some v ∧ v.op = .alloca ∧ v.type = some t

theorem Reserves.grow (h : Reserves s i t) (hgrows : Grows ps s s') : Reserves s' i t := by
  obtain ⟨v, hv, hop, hty⟩ := h
  exact ⟨v, hgrows.instrs i v hv, hop, hty⟩

theorem Reserves.carries {type : Llvm.Ty} (h : Reserves s i t)
    (htype : Llvm.Ty.ofTy? t = some type) : Carries s.func (some i) (.ptr type) := by
  obtain ⟨v, hv, hop, hty⟩ := h
  refine ⟨i, v, rfl, hv, ?_⟩
  simp [resultType?, hop, hty, htype, Op.isVoid]

/-- Each of the variables `vars` has a slot for values of its type. -/
def Slots (vars : List Var) (s : Builder) : Prop :=
  ∀ v ∈ vars, ∃ i, s.slots.lookup v.pos = some i ∧ Reserves s i v.ty

theorem Slots.grow (h : Slots vars s) (hgrows : Grows ps s s') (hvars : ∀ v ∈ vars, v.pos ∉ ps) :
    Slots vars s' := by
  intro v hv
  obtain ⟨i, hi, hslot⟩ := h v hv
  exact ⟨i, (hgrows.slots _ (hvars v hv)).trans hi, hslot.grow hgrows⟩

theorem Slots.keep (h : Slots vars s) (hgrows : Grows [] s s') : Slots vars s' :=
  h.grow hgrows fun _ _ => List.not_mem_nil

/-- From `s` on the construction `m` keeps to the types, with `Q` of its result. -/
def Keeps (e : Env) (ps : List Pos) (s : Builder) (m : Build α) (Q : α → Builder → Prop) : Prop :=
  GraphTyped e s.func →
    GraphTyped e (m.run s).2.func ∧ Grows ps s (m.run s).2 ∧ Q (m.run s).1 (m.run s).2

namespace Keeps

theorem of_run (t : Builder) {m : Build α} {a : α} (hrun : m.run s = (a, t))
    (htyped : GraphTyped e s.func → GraphTyped e t.func) (hgrows : Grows ps s t) (hQ : Q a t) :
    Keeps e ps s m Q := by
  intro h
  rw [hrun]
  exact ⟨htyped h, hgrows, hQ⟩

theorem pure {a : α} (hQ : Q a s) : Keeps e ps s (pure a) Q :=
  .of_run s rfl id (.refl ps s) hQ

theorem imp {m : Build α} (h : Keeps e ps s m Q)
    (himp : ∀ a s', Grows ps s s' → Q a s' → R a s') : Keeps e ps s m R := by
  intro hs
  obtain ⟨htyped, hgrows, hQ⟩ := h hs
  exact ⟨htyped, hgrows, himp _ _ hgrows hQ⟩

theorem mono {m : Build α} (h : Keeps e ps s m Q) (hsub : ps ⊆ qs) : Keeps e qs s m Q := by
  intro hs
  obtain ⟨htyped, hgrows, hQ⟩ := h hs
  exact ⟨htyped, hgrows.mono hsub, hQ⟩

/-- What follows may rely on the slots that `m` leaves alone. -/
theorem bind {m : Build α} {f : α → Build β} {R : β → Builder → Prop} (hm : Keeps e ps s m Q)
    (hsub : ps ⊆ qs) (hf : ∀ a s', Grows ps s s' → Q a s' → Keeps e qs s' (f a) R) :
    Keeps e qs s (m >>= f) R := by
  intro hs
  obtain ⟨htyped, hgrows, hQ⟩ := hm hs
  obtain ⟨htyped', hgrows', hR⟩ := hf _ _ hgrows hQ htyped
  exact ⟨htyped', (hgrows.mono hsub).trans hgrows', hR⟩

theorem seq {m : Build α} {f : α → Build β} {R : β → Builder → Prop} (hm : Keeps e ps s m Q)
    (hf : ∀ a s', Grows ps s s' → Q a s' → Keeps e ps s' (f a) R) : Keeps e ps s (m >>= f) R :=
  hm.bind (List.Subset.refl _) hf

theorem discard {m : Build α} (h : Keeps e ps s m Q) :
    Keeps e ps s (discard m) fun _ s' => ∃ a, Q a s' := by
  intro hs
  obtain ⟨htyped, hgrows, hQ⟩ := h hs
  exact ⟨htyped, hgrows, _, hQ⟩

theorem trivial {m : Build α} (h : Keeps e ps s m Q) : Keeps e ps s m fun _ _ => True :=
  h.imp fun _ _ _ _ => True.intro

/-- The state can be looked at. -/
theorem look {f : Builder → Build β} {R : β → Builder → Prop} (h : Keeps e ps s (f s) R) :
    Keeps e ps s (do f (← get)) R := h

theorem require {x : Option α} {a : α} (hx : x = some a) (missing : Fault) (default : α)
    (hQ : Q a s) : Keeps e ps s (Build.require x missing default) Q := by
  subst hx
  exact .pure hQ

theorem fault (x : Fault) : Keeps e ps s (Build.fault x) fun _ _ => True :=
  .of_run { s with faults := s.faults ++ [x] } rfl id ⟨fun _ _ h => h, fun _ _ => rfl⟩
    True.intro

/-- What may be missing is of no importance. -/
theorem anyRequire (x : Option α) (missing : Fault) (default : α) :
    Keeps e ps s (Build.require x missing default) fun _ _ => True := by
  cases x with
  | some a => exact .require rfl _ _ True.intro
  | none => exact (Keeps.fault missing).seq fun _ _ _ _ => .pure True.intro

theorem here : Keeps e ps s Build.here fun _ _ => True := .look (.anyRequire _ _ _)

/-- A change of the graph that leaves its instructions alone. -/
theorem rewire {g : Func → Func} (hinstrs : (g s.func).instrs = s.func.instrs)
    (htyped : GraphTyped e s.func → GraphTyped e (g s.func)) :
    Keeps e ps s (modifyFunc g) fun _ _ => True := by
  refine .of_run { s with func := g s.func } rfl htyped ⟨fun i v hv => ?_, fun _ _ => rfl⟩
    True.intro
  change (g s.func).instrs[i]? = some v
  rwa [hinstrs]

theorem modifyBlock (b : Nat) (g : Block → Block) (hkind : ∀ x, (g x).kind = x.kind)
    (hcontrols : ∀ x, (g x).controls = x.controls) :
    Keeps e ps s (Build.modifyBlock b g) fun _ _ => True :=
  .rewire rfl fun h => h.modified b g hkind hcontrols

theorem newBlock : Keeps e ps s Build.newBlock fun _ _ => True := by
  refine .of_run _ (run_newBlock s) (fun h => h.congr rfl fun b x' hx' => ?_)
    ⟨fun _ _ hv => hv, fun _ _ => rfl⟩ True.intro
  change (s.func.blocks.push { id := s.func.blocks.size })[b]? = some x' at hx'
  rw [Array.getElem?_push] at hx'
  split at hx'
  · obtain rfl := Option.some.inj hx'
    exact Or.inl rfl
  · exact Or.inr ⟨x', hx', rfl, rfl⟩

theorem removeBlock (b : Nat) : Keeps e ps s (Build.removeBlock b) fun _ _ => True :=
  .rewire rfl fun h => h.congr rfl fun _ x' hx' => Or.inr ⟨x', hx', rfl, rfl⟩

theorem enter (b : Option Nat) : Keeps e ps s (Build.enter b) fun _ _ => True :=
  .of_run (s.entered b) rfl id ⟨fun _ _ h => h, fun _ _ => rfl⟩ True.intro

theorem addEdge (a b : Nat) : Keeps e ps s (Build.addEdge a b) fun _ _ => True := by
  unfold Build.addEdge
  exact (Keeps.modifyBlock a _ (by simp) (by simp)).seq fun _ _ _ _ =>
    .modifyBlock b _ (by simp) (by simp)

theorem jump (b : Nat) : Keeps e ps s (Build.jump b) fun _ _ => True := by
  refine .look ?_
  cases s.current with
  | some a => exact .addEdge a b
  | none => exact .pure True.intro

/-- A block may end with an operand of the right type. -/
theorem close (b : Nat) (kind : BlockKind) (controls : List (Option Nat))
    (hbranch : kind = .branch → ∀ c ∈ controls, Carries s.func c .i1)
    (hret : kind = .ret → ∀ c ∈ controls, Carries s.func c e.head.result) :
    Keeps e ps s (Build.modifyBlock b fun x => { x with kind, controls }) fun _ _ => True :=
  .rewire rfl fun h => h.ended b kind controls hbranch hret

theorem branch {cond : Nat} (hcond : Holds s cond .bool) (yes no : Nat) :
    Keeps e ps s (Build.branch cond yes no) fun _ _ => True := by
  refine Keeps.here.seq fun a s₁ hgrows _ => ?_
  refine (Keeps.close a .branch _ (fun _ c hc => ?_) (by simp)).seq fun _ _ _ _ =>
    (Keeps.addEdge a yes).seq fun _ _ _ _ => .addEdge a no
  rw [List.mem_singleton.1 hc]
  exact (hcond.grow hgrows).carries rfl

theorem ret {result : Option Nat}
    (hresult : ∀ i ∈ result, Carries s.func (some i) e.head.result) :
    Keeps e ps s (Build.ret result) fun _ _ => True := by
  refine Keeps.here.seq fun a s₁ hgrows _ =>
    .close a .ret _ (by simp) fun _ c hc => ?_
  obtain ⟨i, hi, rfl⟩ := List.mem_map.1 hc
  exact (hresult i (Option.mem_toList.1 hi)).mono hgrows.instrs

/-- A new instruction at the end of a block. -/
theorem place (b : Nat) {v : Nat → Instr} (hv : ∀ i, InstrTyped e s.func (v i)) :
    Keeps e ps s (Build.place b v) fun i s' => s'.func.instr? i = some (v i) := by
  refine .of_run _ (run_place b v s) (fun h => h.inserted _ _ (hv _))
    ⟨fun i w hw => Func.instr?_inserted_of hw _ _ _, fun _ _ => rfl⟩ ?_
  exact (Func.instr?_inserted ..).trans (if_pos rfl)

section

variable {op : Op} {type : Option Ty} {args : List Nat} {pos : Pos} {number : Int64}
  {aux : Option Aux}

theorem emitAt (b : Nat) (hv : ∀ id block, InstrTyped e s.func
      { id, op, type, args := args.map some, block, number, aux, pos }) :
    Keeps e ps s (Build.emitAt b op type args pos number aux) fun i s' => ∃ id block,
      s'.func.instr? i =
        some { id, op, type, args := args.map some, block, number, aux, pos } :=
  (Keeps.place b fun i => hv i b).imp fun i _ _ h => ⟨i, b, h⟩

theorem emitWith (hv : ∀ f, (∀ i v, s.func.instr? i = some v → f.instr? i = some v) →
      ∀ id block, InstrTyped e f
        { id, op, type, args := args.map some, block, number, aux, pos }) :
    Keeps e ps s (Build.emitWith op type args pos number aux) fun i s' => ∃ id block,
      s'.func.instr? i =
        some { id, op, type, args := args.map some, block, number, aux, pos } :=
  Keeps.here.seq fun b s' hgrows _ => .emitAt b (hv s'.func hgrows.instrs)

end

/-- A value whose type does not depend on how it is made. -/
theorem value {m : Build Nat} {v : Nat → Nat → Instr} {type : Llvm.Ty}
    (h : Keeps e ps s m fun i s' => ∃ id block, s'.func.instr? i = some (v id block))
    (hop : ∀ id block, (v id block).op.isVoid = false) (hty : ∀ id block, (v id block).type = some t)
    (htype : Llvm.Ty.ofTy? t = some type)
    (hresult : ∀ id block, resultType? (v id block) = some type) :
    Keeps e ps s m fun i s' => Holds s' i t :=
  h.imp fun _ _ _ ⟨id, block, hv⟩ =>
    ⟨_, type, hv, hty id block, htype, hop id block, hresult id block⟩

end Keeps

end Graph.Build

end ClassLang
