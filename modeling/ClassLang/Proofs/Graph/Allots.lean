import ClassLang.Proofs.Graph.Returns

/-!
Which variables get slots. Each variable of a function gets one slot at most, in source order, and
no two of them share one.
-/

namespace ClassLang.Graph

namespace Builder

/-- No two variables share a slot. -/
structure Apart (s : Builder) : Prop where
  nodup : (s.slots.map (·.2)).Nodup
  known : ∀ e ∈ s.slots, e.2 < s.func.instrs.size

/-- From `s` to `s'` some of the variables declared at `l` get slots, in this order. -/
structure Allotted (l : List Pos) (s s' : Builder) : Prop where
  slots : ∃ l' : List Pos, l'.Sublist l ∧ s'.slots.map (·.1) = l'.reverse ++ s.slots.map (·.1)
  apart : s.Apart → s'.Apart

namespace Allotted

variable {l l' : List Pos} {s s' s'' : Builder}

theorem of_same (hslots : s'.slots = s.slots) (hinstrs : s.func.instrs.size ≤ s'.func.instrs.size) :
    Allotted l s s' where
  slots := ⟨[], List.nil_sublist l, by rw [hslots]; rfl⟩
  apart h := ⟨hslots ▸ h.nodup, fun e he => Nat.lt_of_lt_of_le (h.known e (hslots ▸ he)) hinstrs⟩

theorem trans (h : Allotted l s s') (h' : Allotted l' s' s'') : Allotted (l ++ l') s s'' where
  slots := by
    obtain ⟨k, hk, heq⟩ := h.slots
    obtain ⟨k', hk', heq'⟩ := h'.slots
    exact ⟨k ++ k', hk.append hk', by rw [heq', heq, List.reverse_append, List.append_assoc]⟩
  apart ha := h'.apart (h.apart ha)

theorem mono (h : Allotted l s s') (hsub : l.Sublist l') : Allotted l' s s' where
  slots := by
    obtain ⟨k, hk, heq⟩ := h.slots
    exact ⟨k, hk.trans hsub, heq⟩
  apart := h.apart

end Allotted

end Builder

namespace Build

open Builder (Allotted)

variable {α β : Type} {l l' : List Pos} {ls : Layouts}

/-- The construction `m` gives slots to some of the variables declared at `l`. -/
def Allots (l : List Pos) (m : Build α) : Prop := ∀ s, Allotted l s (m.run s).2

namespace Allots

variable {m : Build α}

theorem of_same (hslots : ∀ s, (m.run s).2.slots = s.slots)
    (hinstrs : ∀ s, s.func.instrs.size ≤ (m.run s).2.func.instrs.size) : Allots l m :=
  fun s => .of_same (hslots s) (hinstrs s)

theorem bind {f : α → Build β} (hm : Allots l m) (hf : ∀ a, Allots l' (f a)) :
    Allots (l ++ l') (m >>= f) := fun s => by
  rw [run_bind]
  exact (hm s).trans (hf _ _)

theorem mono (h : Allots l m) (hsub : l.Sublist l') : Allots l' m := fun s => (h s).mono hsub

/-- What comes first gives no slots. -/
theorem behind {f : α → Build β} (hm : Allots [] m) (hf : ∀ a, Allots l (f a)) :
    Allots l (m >>= f) := bind hm hf

/-- What comes next gives no slots. -/
theorem before {f : α → Build β} (hm : Allots l m) (hf : ∀ a, Allots [] (f a)) :
    Allots l (m >>= f) := List.append_nil l ▸ bind hm hf

theorem discard (h : Allots l m) : Allots l (discard m) := h

theorem pure (a : α) : Allots l (pure a : Build α) := .of_same (fun _ => rfl) fun _ => Nat.le_refl _

theorem get : Allots l (MonadState.get : Build Builder) :=
  .of_same (fun _ => rfl) fun _ => Nat.le_refl _

theorem fault (x : Fault) : Allots l (fault x) := .of_same (fun _ => rfl) fun _ => Nat.le_refl _

theorem require (x : Option α) (missing : Fault) (default : α) :
    Allots l (require x missing default) := by
  unfold Build.require
  split
  next => exact .pure _
  next => exact (fault missing).behind fun _ => .pure _

theorem here : Allots l here := by
  unfold Build.here
  exact get.behind fun t => require t.current .noBlock 0

theorem place (b : Nat) (v : Nat → Instr) : Allots l (place b v) := by
  refine .of_same (fun s => ?_) fun s => ?_ <;> rw [run_place]
  · rfl
  · simp [Builder.func_placed, Func.inserted]

theorem emitAt (b : Nat) (op : Op) (type : Option Ty) (args : List Nat) (pos : Pos)
    (number : Int64) (aux : Option Aux) : Allots l (emitAt b op type args pos number aux) :=
  place b _

theorem emitWith (op : Op) (type : Option Ty) (args : List Nat) (pos : Pos) (number : Int64)
    (aux : Option Aux) : Allots l (emitWith op type args pos number aux) :=
  here.behind fun b => emitAt b op type args pos number aux

theorem emit (op : Op) (type : Option Ty) (args : List Nat) (pos : Pos) :
    Allots l (emit op type args pos) := emitWith op type args pos 0 none

theorem emitFloat (type : Option Ty) (pos : Pos) (x : Double) : Allots l (emitFloat type pos x) :=
  here.behind fun b => place b _

/-- A new slot is that of the instruction that makes it. -/
theorem newSlot (v : Var) : Allots [v.pos] (newSlot v) := fun s => by
  rw [run_newSlot]
  refine ⟨⟨[v.pos], List.Sublist.refl _, rfl⟩, fun h => ⟨?_, fun e he => ?_⟩⟩
  · refine List.nodup_cons.2 ⟨fun hmem => ?_, h.nodup⟩
    obtain ⟨e, he, heq⟩ := List.mem_map.1 hmem
    exact absurd (h.known e he) (by simp [heq])
  · have hsize (i : Instr) :
        (s.func.inserted 0 s.slotCount i).instrs.size = s.func.instrs.size + 1 := by
      simp [Func.inserted]
    rw [hsize]
    rcases List.mem_cons.1 he with rfl | he
    · exact Nat.lt_succ_self _
    · exact Nat.lt_succ_of_lt (h.known e he)

theorem slotOf (v : Var) : Allots l (slotOf v) := by
  unfold Build.slotOf
  exact get.behind fun t => require (t.slots.lookup v.pos) (.noSlot v.name) 0

theorem newBlock : Allots l newBlock := .of_same (fun _ => rfl) fun _ => Nat.le_refl _

theorem enter (b : Option Nat) : Allots l (enter b) := .of_same (fun _ => rfl) fun _ => Nat.le_refl _

theorem addEdge (a b : Nat) : Allots l (addEdge a b) := .of_same (fun _ => rfl) fun _ => Nat.le_refl _

theorem ret (i : Option Nat) : Allots l (ret i) :=
  here.behind fun _ => .of_same (fun _ => rfl) fun _ => Nat.le_refl _

theorem branch (cond yes no : Nat) : Allots l (branch cond yes no) :=
  here.behind fun a => .behind (.of_same (fun _ => rfl) fun _ => Nat.le_refl _) fun _ =>
    (addEdge a yes).behind fun _ => addEdge a no

theorem jump (b : Nat) : Allots l (jump b) := by
  unfold Build.jump
  refine get.behind fun t => ?_
  split
  next a _ => exact addEdge a b
  next => exact .pure ()

theorem rejoin (done : Nat) : Allots l (Lower.rejoin done) := by
  unfold Lower.rejoin
  refine get.behind fun t => ?_
  split
  next => exact .behind (.of_same (fun _ => rfl) fun _ => Nat.le_refl _) fun _ => enter none
  next => exact enter (some done)

end Allots

/-! Expressions -/

theorem allots_constant (ty : Ty) (pos : Pos) (c : Constant) :
    Allots l (Lower.constant ty pos c) := by
  unfold Lower.constant
  cases Lower.constantFault? ty c with
  | some x =>
      refine (Allots.fault x).behind fun _ => ?_
      cases c with
      | float q => exact .emitFloat _ _ _
      | _ => exact .emitWith _ _ _ _ _ _
  | none =>
      cases c with
      | float q => exact .emitFloat _ _ _
      | _ => exact .emitWith _ _ _ _ _ _

theorem allots_fieldOffset (x : Typed.Expr) (name : String) :
    Allots l (Lower.fieldOffset ls x name) := by
  unfold Lower.fieldOffset
  split
  next => exact (Allots.fault _).behind fun _ => .pure _
  next => exact (Allots.require _ _ _).behind fun _ => .pure _

theorem allots_virtualCall (name : String) (sig : Signature) (pos : Pos) (recv : Nat)
    (args : List Nat) : Allots l (Lower.virtualCall ls name sig pos recv args) := by
  unfold Lower.virtualCall
  exact (Allots.require _ _ _).behind fun _ => (Allots.emit _ _ _ _).behind fun _ =>
    (Allots.emitWith _ _ _ _ _ _).behind fun _ => .emit _ _ _ _

mutual

/-- An expression declares no variables. -/
theorem allots_expr : (x : Typed.Expr) → Allots [] (Lower.expr ls x)
  | .var id v => by
    rw [Lower.expr]
    exact (Allots.slotOf v).behind fun _ => .emit _ _ _ _
  | .const .. | .literal .. => by
    rw [Lower.expr]
    exact allots_constant _ _ _
  | .unary pos op x ty (some c) | .binary op x y ty (some c) => by
    rw [Lower.expr]
    exact allots_constant _ _ c
  | .unary pos op x ty none => by
    rw [Lower.expr]
    exact (allots_expr x).behind fun _ => .emit _ _ _ _
  | .binary op x y ty none => by
    rw [Lower.expr]
    split
    · refine (allots_expr x).behind fun left => Allots.newBlock.behind fun right =>
        Allots.newBlock.behind fun short => Allots.newBlock.behind fun merge => ?_
      have hrest (number : Int64) : Allots [] (do
          let shortValue ← emitAt short .constBool (some .bool) [] Pos.none number none
          addEdge short merge
          enter (some right)
          let i ← Lower.expr ls y
          Lower.join x.pos shortValue i merge) :=
        (Allots.emitAt _ _ _ _ _ _ _).behind fun _ => (Allots.addEdge _ _).behind fun _ =>
          (Allots.enter _).behind fun _ => (allots_expr y).behind fun _ =>
          (Allots.jump _).behind fun _ => (Allots.enter _).behind fun _ =>
          .emitAt _ _ _ _ _ _ _
      dsimp only
      split
      · exact (Allots.branch left right short).behind fun _ => hrest _
      · exact (Allots.branch left short right).behind fun _ => hrest _
    · refine (allots_expr x).behind fun _ => (allots_expr y).behind fun _ => ?_
      dsimp only
      split
      · exact (Allots.fault _).behind fun _ => .emit _ _ _ _
      · exact (Allots.pure ()).behind fun _ => .emit _ _ _ _
  | .call fn sym targs sig args => by
    rw [Lower.expr]
    exact (allots_exprs args).behind fun _ => .emitWith _ _ _ _ _ _
  | .invoke x sel kind m sig args => by
    rw [Lower.expr]
    refine (allots_expr x).behind fun _ => (allots_exprs args).behind fun _ => ?_
    split
    · exact .emitWith _ _ _ _ _ _
    · exact allots_virtualCall _ _ _ _ _
  | .field x sel f ty => by
    rw [Lower.expr]
    exact (allots_expr x).behind fun _ => (allots_fieldOffset x _).behind fun _ =>
      .emitWith _ _ _ _ _ _
  | .init cls sym ty fields elems => by
    rw [Lower.expr]
    exact (Allots.require _ _ _).behind fun l => (Allots.emitWith _ _ _ _ _ _).behind fun i =>
      (allots_fill l i elems).behind fun _ =>
      (Allots.discard (.emitWith _ _ _ _ _ _)).behind fun _ => .pure i
  | .paren pos x => by
    rw [Lower.expr]
    split
    · exact allots_constant _ _ _
    · exact allots_expr x

theorem allots_exprs : (xs : List Typed.Expr) → Allots [] (Lower.exprs ls xs)
  | [] => by
    rw [Lower.exprs]
    exact .pure []
  | x :: rest => by
    rw [Lower.exprs]
    exact (allots_expr x).behind fun _ => (allots_exprs rest).behind fun _ => .pure _

theorem allots_fill (l : ClassLayout) (obj : Nat) :
    (elems : List (Ident × Typed.Expr)) → Allots [] (Lower.fill ls l obj elems)
  | [] => by
    rw [Lower.fill]
    exact .pure ()
  | (key, value) :: rest => by
    rw [Lower.fill]
    exact (Allots.require _ _ _).behind fun _ => (allots_expr value).behind fun _ =>
      (Allots.discard (.emitWith _ _ _ _ _ _)).behind fun _ => allots_fill l obj rest

end

/-! Statements -/

theorem allots_bindVar (v : Var) (i : Nat) (pos : Pos) : Allots [v.pos] (Lower.bindVar v i pos) := by
  unfold Lower.bindVar
  exact (Allots.newSlot v).before fun _ => .discard (.emit _ _ _ _)

theorem allots_assign (x y : Typed.Expr) : Allots [] (Lower.assign ls x y) := by
  unfold Lower.assign
  split
  · exact (Allots.slotOf _).behind fun _ => (allots_expr y).behind fun _ =>
      .discard (.emit _ _ _ _)
  · exact (allots_expr _).behind fun _ => (allots_expr y).behind fun _ =>
      (allots_fieldOffset _ _).behind fun _ => .discard (.emitWith _ _ _ _ _ _)
  · exact .fault _

theorem allots_increment (slot : Nat) : Allots [] (Lower.increment slot) := by
  unfold Lower.increment
  exact (Allots.emit _ _ _ _).behind fun _ => (Allots.emitWith _ _ _ _ _ _).behind fun _ =>
    (Allots.emit _ _ _ _).behind fun _ => .discard (.emit _ _ _ _)

mutual

/-- A statement gives slots to variables that it declares. -/
theorem allots_stmt : (st : Typed.Stmt) → Allots st.binders (Lower.stmt ls st)
  | .empty pos => by
    rw [Lower.stmt]
    exact .pure ()
  | .expr x => by
    rw [Lower.stmt]
    exact .discard (allots_expr x)
  | .bind pos v term x => by
    rw [Lower.stmt]
    exact (allots_expr x).behind fun i => allots_bindVar v i pos
  | .assign lhs rhs => by
    rw [Lower.stmt]
    exact allots_assign lhs rhs
  | .block (.mk list) => by
    rw [Lower.stmt, Lower.block]
    exact allots_stmts list
  | .ifElse cond (.mk list) none => by
    rw [Lower.stmt, Lower.block]
    exact (allots_expr cond).behind fun c => Allots.newBlock.behind fun _ =>
      Allots.newBlock.behind fun _ => (Allots.branch _ _ _).behind fun _ => (Allots.enter _).behind fun _ =>
      (allots_stmts list).before fun _ => (Allots.jump _).behind fun _ => .rejoin _
  | .ifElse cond (.mk list) (some other) => by
    rw [Lower.stmt, Lower.block]
    exact (allots_expr cond).behind fun c => Allots.newBlock.behind fun _ =>
      Allots.newBlock.behind fun _ => Allots.newBlock.behind fun _ => (Allots.branch _ _ _).behind fun _ =>
      (Allots.enter _).behind fun _ => (allots_stmts list).bind fun _ => (Allots.jump _).behind fun _ =>
      (Allots.enter _).behind fun _ => (allots_stmt other).before fun _ =>
      (Allots.jump _).behind fun _ => .rejoin _
  | .whileLoop cond (.mk list) => by
    rw [Lower.stmt, Lower.block]
    exact Allots.newBlock.behind fun _ => Allots.newBlock.behind fun _ =>
      Allots.newBlock.behind fun _ => (Allots.jump _).behind fun _ => (Allots.enter _).behind fun _ =>
      (allots_expr cond).behind fun _ => (Allots.branch _ _ _).behind fun _ =>
      (Allots.enter _).behind fun _ => (allots_stmts list).before fun _ =>
      (Allots.jump _).behind fun _ => .enter _
  | .forLoop pos v start low high (.mk list) => by
    rw [Lower.stmt, Lower.block]
    simp only [counting_eq]
    have hcounted (slot : Nat) : Allots (Typed.bindersAll list) (do
        Lower.stmts ls list
        if (← get).current.isSome then
          Lower.increment slot) :=
      (allots_stmts list).before fun _ => Allots.get.behind fun _ => by
        split
        · exact allots_increment slot
        · exact .pure ()
    exact (allots_expr low).behind fun first => (allots_expr high).behind fun last =>
      (allots_bindVar v first pos).bind fun _ => (Allots.slotOf v).behind fun slot =>
      Allots.newBlock.behind fun _ => Allots.newBlock.behind fun _ =>
      Allots.newBlock.behind fun _ => (Allots.jump _).behind fun _ => (Allots.enter _).behind fun _ =>
      (Allots.emit _ _ _ _).behind fun _ => (Allots.emit _ _ _ _).behind fun _ =>
      (Allots.branch _ _ _).behind fun _ => (Allots.enter _).behind fun _ =>
      (hcounted slot).before fun _ => (Allots.jump _).behind fun _ => .enter _
  | .ret pos none => by
    rw [Lower.stmt]
    exact (Allots.ret none).behind fun _ => .enter none
  | .ret pos (some x) => by
    rw [Lower.stmt]
    exact (allots_expr x).behind fun i => (Allots.ret (some i)).behind fun _ => .enter none

theorem allots_stmts : (list : List Typed.Stmt) → Allots (Typed.bindersAll list) (Lower.stmts ls list)
  | [] => by
    rw [Lower.stmts]
    exact .pure ()
  | st :: rest => by
    rw [Lower.stmts]
    refine Allots.get.behind fun t => ?_
    split
    · exact (allots_stmt st).bind fun _ => allots_stmts rest
    · exact .pure ()

end

/-! Functions -/

theorem allots_parameter (v : Var) (index : Int64) : Allots [v.pos] (Lower.parameter v index) := by
  unfold Lower.parameter
  exact (Allots.emitAt _ _ _ _ _ _ _).behind fun _ => (Allots.newSlot v).before fun _ => .discard (.emitAt _ _ _ _ _ _ _)

theorem allots_parameters (n : Nat) (vs : List Var) :
    Allots (vs.map (·.pos)) (Lower.parameters n vs) := by
  induction vs generalizing n with
  | nil => exact .pure ()
  | cons v rest ih => exact (allots_parameter v _).bind fun _ => ih (n + 1)

theorem allots_finish : Allots [] finish := by
  unfold finish
  refine Allots.get.behind fun t => ?_
  split
  · exact .pure ()
  · refine Allots.get.behind fun t => ?_
    split
    · exact .ret none
    · exact .pure ()

theorem allots_funcBody (ls : Layouts) {g : Typed.Func} {body : Typed.Block} (hbody : g.body = some body) :
    Allots g.binders (Lower.funcBody ls g body) := by
  obtain ⟨list⟩ := body
  have hrest : Allots ((g.header.params.map (·.1.pos)) ++ Typed.bindersAll list) (do
      Lower.parameters 0 (g.header.params.map (·.1))
      Lower.block ls (.mk list)
      finish) := by
    have hparams := allots_parameters 0 (g.header.params.map (·.1))
    rw [List.map_map] at hparams
    refine hparams.bind fun _ => ?_
    rw [Lower.block]
    exact (allots_stmts list).before fun _ => allots_finish
  unfold Lower.funcBody
  rw [Typed.Func.binders, hbody, List.append_assoc]
  cases g.header.recv with
  | some v => exact (allots_parameter v _).bind fun _ => hrest
  | none =>
      dsimp only
      split
      · exact (Allots.fault _).behind fun _ => hrest
      · exact (Allots.pure ()).behind fun _ => hrest

end Build

namespace Func

/-- Each variable of a function has a slot of its own. -/
theorem slots_lowered (ls : Layouts) {g : Typed.Func} {body : Typed.Block}
    (hbody : g.body = some body) (hg : g.binders.Nodup) :
    ((lowered ls g body).slots.map (·.1)).Nodup ∧ (lowered ls g body).Apart := by
  obtain ⟨⟨l, hl, heq⟩, hapart⟩ := Build.allots_funcBody ls hbody
    (Builder.start g.ref.text g.ref g.header.sig (g.header.recv.map (·.ty)))
  refine ⟨?_, hapart ⟨List.nodup_nil, by simp [Builder.start]⟩⟩
  rw [show (lowered ls g body).slots.map (·.1) = _ from heq]
  simpa [Builder.start] using hg.sublist hl

end Func

end ClassLang.Graph
