import ClassLang.Proofs.Graph.Builder
import ClassLang.Proofs.Typing

/-!
Where construction stops. A statement leaves an open block behind it unless it returns on every
path. Whether it does is read off its form, and this holds in every state with an open block, also
in one that nothing well typed leads to.
-/

namespace ClassLang.Graph

namespace Build

variable {α β : Type} {n : Nat} {returns returns' : Bool} {ls : Layouts}

/-- From `s` to `s'` no edge is added to the first `n` blocks. -/
structure Beyond (n : Nat) (s s' : Builder) : Prop where
  size : n ≤ s'.func.blocks.size
  preds : ∀ b < n, s'.func.preds b = s.func.preds b

namespace Beyond

variable {s s' s'' : Builder}

theorem refl (h : n ≤ s.func.blocks.size) : Beyond n s s := ⟨h, fun _ _ => rfl⟩

theorem trans (h : Beyond n s s') (h' : Beyond n s' s'') : Beyond n s s'' :=
  ⟨h'.size, fun b hb => (h'.preds b hb).trans (h.preds b hb)⟩

end Beyond

/-- Where there are `n` blocks, the construction `m` adds no edge to them, and if it starts in an
open block it ends in one unless it `returns`. -/
def Leaves (n : Nat) (returns : Bool) (m : Build α) : Prop :=
  ∀ s, n ≤ s.func.blocks.size → Beyond n s (m.run s).2 ∧
    (s.current.isSome = true → (m.run s).2.current.isSome = !returns)

namespace Leaves

theorem of_same {m : Build α} (hsize : ∀ s, (m.run s).2.func.blocks.size = s.func.blocks.size)
    (hpreds : ∀ s b, (m.run s).2.func.preds b = s.func.preds b)
    (hcurrent : ∀ s, (m.run s).2.current = s.current) : Leaves n false m := fun s hn =>
  ⟨⟨by rwa [hsize], fun b _ => hpreds s b⟩, fun hcur => by rw [hcurrent, hcur]; rfl⟩

theorem pure (a : α) : Leaves n false (pure a : Build α) :=
  .of_same (fun _ => rfl) (fun _ _ => rfl) fun _ => rfl

theorem bind {m : Build α} {f : α → Build β} (hm : Leaves n false m)
    (hf : ∀ a, Leaves n returns (f a)) : Leaves n returns (m >>= f) := fun s hn => by
  obtain ⟨hbeyond, hcurrent⟩ := hm s hn
  obtain ⟨hbeyond', hcurrent'⟩ := hf (m.run s).1 (m.run s).2 hbeyond.size
  rw [run_bind]
  exact ⟨hbeyond.trans hbeyond', fun hcur => hcurrent' (hcurrent hcur)⟩

theorem discard {m : Build α} (h : Leaves n returns m) : Leaves n returns (discard m) := h

theorem get : Leaves n false (MonadState.get : Build Builder) :=
  .of_same (fun _ => rfl) (fun _ _ => rfl) fun _ => rfl

theorem fault (x : Fault) : Leaves n false (fault x) :=
  .of_same (fun _ => rfl) (fun _ _ => rfl) fun _ => rfl

theorem require (x : Option α) (missing : Fault) (default : α) :
    Leaves n false (require x missing default) := by
  unfold Build.require
  split
  next => exact .pure _
  next => exact (fault missing).bind fun _ => .pure _

theorem here : Leaves n false here := by
  unfold Build.here
  exact get.bind fun t => require t.current .noBlock 0

theorem place (b : Nat) (v : Nat → Instr) : Leaves n false (place b v) := by
  refine .of_same (fun s => ?_) (fun s c => ?_) fun s => ?_ <;> rw [run_place]
  · exact Func.size_inserted ..
  · exact Func.preds_inserted ..
  · rfl

theorem emitAt (b : Nat) (op : Op) (type : Option Ty) (args : List Nat) (pos : Pos)
    (number : Int64) (aux : Option Aux) : Leaves n false (emitAt b op type args pos number aux) :=
  place b _

theorem emitWith (op : Op) (type : Option Ty) (args : List Nat) (pos : Pos) (number : Int64)
    (aux : Option Aux) : Leaves n false (emitWith op type args pos number aux) :=
  here.bind fun b => emitAt b op type args pos number aux

theorem emit (op : Op) (type : Option Ty) (args : List Nat) (pos : Pos) :
    Leaves n false (emit op type args pos) := emitWith op type args pos 0 none

theorem emitFloat (type : Option Ty) (pos : Pos) (x : Double) :
    Leaves n false (emitFloat type pos x) := here.bind fun b => place b _

theorem newSlot (v : Var) : Leaves n false (newSlot v) := by
  refine .of_same (fun s => ?_) (fun s c => ?_) fun s => ?_ <;> rw [run_newSlot]
  · exact Func.size_inserted ..
  · exact Func.preds_inserted ..

theorem slotOf (v : Var) : Leaves n false (slotOf v) := by
  unfold Build.slotOf
  exact get.bind fun t => require (t.slots.lookup v.pos) (.noSlot v.name) 0

/-! Blocks -/

/-- A new block comes behind all others. -/
theorem newBlock {f : Nat → Build α} (hf : ∀ b, n ≤ b → Leaves n returns (f b)) :
    Leaves n returns (newBlock >>= f) := fun s hn => by
  rw [run_bind, run_newBlock]
  have hsize : n ≤ (s.withFunc s.func.grown).func.blocks.size := by
    rw [Builder.func_withFunc, Func.size_grown]
    omega
  obtain ⟨hbeyond, hcurrent⟩ := hf s.func.blocks.size hn (s.withFunc s.func.grown) hsize
  exact ⟨.trans ⟨hsize, fun b _ => Func.preds_grown ..⟩ hbeyond, hcurrent⟩

theorem enter (b : Nat) : Leaves n false (enter (some b)) := fun _ hn =>
  ⟨⟨hn, fun _ _ => rfl⟩, fun _ => rfl⟩

theorem addEdge (a : Nat) {b : Nat} (hb : n ≤ b) : Leaves n false (addEdge a b) := fun s hn => by
  rw [run_addEdge]
  refine ⟨⟨by rwa [Builder.func_withFunc, Func.size_linked], fun c hc => ?_⟩, fun hcur => by
    rw [Builder.current_withFunc, hcur]; rfl⟩
  exact Func.preds_linked_of_ne _ _ _ _ (by omega)

theorem branch (cond : Nat) {yes no : Nat} (hyes : n ≤ yes) (hno : n ≤ no) :
    Leaves n false (branch cond yes no) :=
  here.bind fun a => .bind (.of_same (fun s => Func.size_ended s.func a .branch [some cond])
    (fun s c => Func.preds_ended s.func a c .branch [some cond]) fun _ => rfl) fun _ =>
    .bind (addEdge a hyes) fun _ => addEdge a hno

theorem jump {b : Nat} (hb : n ≤ b) : Leaves n false (jump b) := by
  unfold Build.jump
  refine get.bind fun t => ?_
  split
  next a _ => exact addEdge a hb
  next => exact .pure ()

end Leaves

/-! Expressions -/

theorem leaves_constant (ty : Ty) (pos : Pos) (c : Constant) :
    Leaves n false (Lower.constant ty pos c) := by
  unfold Lower.constant
  cases Lower.constantFault? ty c with
  | some x =>
      refine (Leaves.fault x).bind fun _ => ?_
      cases c with
      | float q => exact .emitFloat _ _ _
      | _ => exact .emitWith _ _ _ _ _ _
  | none =>
      cases c with
      | float q => exact .emitFloat _ _ _
      | _ => exact .emitWith _ _ _ _ _ _

theorem leaves_fieldOffset (x : Typed.Expr) (name : String) :
    Leaves n false (Lower.fieldOffset ls x name) := by
  unfold Lower.fieldOffset
  split
  next => exact (Leaves.fault _).bind fun _ => .pure _
  next => exact (Leaves.require _ _ _).bind fun _ => .pure _

theorem leaves_virtualCall (name : String) (sig : Signature) (pos : Pos) (recv : Nat)
    (args : List Nat) : Leaves n false (Lower.virtualCall ls name sig pos recv args) := by
  unfold Lower.virtualCall
  exact (Leaves.require _ _ _).bind fun _ => (Leaves.emit _ _ _ _).bind fun _ =>
    (Leaves.emitWith _ _ _ _ _ _).bind fun _ => .emit _ _ _ _

mutual

/-- An expression ends in an open block. -/
theorem leaves_expr (n : Nat) : (x : Typed.Expr) → Leaves n false (Lower.expr ls x)
  | .var id v => by
    rw [Lower.expr]
    exact (Leaves.slotOf v).bind fun _ => .emit _ _ _ _
  | .const .. | .literal .. => by
    rw [Lower.expr]
    exact leaves_constant _ _ _
  | .unary pos op x ty (some c) | .binary op x y ty (some c) => by
    rw [Lower.expr]
    exact leaves_constant _ _ c
  | .unary pos op x ty none => by
    rw [Lower.expr]
    exact (leaves_expr n x).bind fun _ => .emit _ _ _ _
  | .binary op x y ty none => by
    rw [Lower.expr]
    split
    · refine (leaves_expr n x).bind fun left => .newBlock fun right hright =>
        .newBlock fun short hshort => .newBlock fun merge hmerge => ?_
      have hrest (number : Int64) : Leaves n false (do
          let shortValue ← emitAt short .constBool (some .bool) [] Pos.none number none
          addEdge short merge
          enter (some right)
          let i ← Lower.expr ls y
          Lower.join x.pos shortValue i merge) :=
        (Leaves.emitAt _ _ _ _ _ _ _).bind fun _ => (Leaves.addEdge _ hmerge).bind fun _ =>
          (Leaves.enter _).bind fun _ => (leaves_expr n y).bind fun _ =>
          (Leaves.jump hmerge).bind fun _ => (Leaves.enter _).bind fun _ =>
          .emitAt _ _ _ _ _ _ _
      dsimp only
      split
      · exact (Leaves.branch left hright hshort).bind fun _ => hrest _
      · exact (Leaves.branch left hshort hright).bind fun _ => hrest _
    · refine (leaves_expr n x).bind fun _ => (leaves_expr n y).bind fun _ => ?_
      dsimp only
      split
      · exact (Leaves.fault _).bind fun _ => .emit _ _ _ _
      · exact (Leaves.pure ()).bind fun _ => .emit _ _ _ _
  | .call fn sym targs sig args => by
    rw [Lower.expr]
    exact (leaves_exprs n args).bind fun _ => .emitWith _ _ _ _ _ _
  | .invoke x sel kind m sig args => by
    rw [Lower.expr]
    refine (leaves_expr n x).bind fun _ => (leaves_exprs n args).bind fun _ => ?_
    split
    · exact .emitWith _ _ _ _ _ _
    · exact leaves_virtualCall _ _ _ _ _
  | .field x sel f ty => by
    rw [Lower.expr]
    exact (leaves_expr n x).bind fun _ => (leaves_fieldOffset x _).bind fun _ =>
      .emitWith _ _ _ _ _ _
  | .init cls sym ty fields elems => by
    rw [Lower.expr]
    exact (Leaves.require _ _ _).bind fun l => (Leaves.emitWith _ _ _ _ _ _).bind fun i =>
      (leaves_fill n l i elems).bind fun _ =>
      (Leaves.discard (.emitWith _ _ _ _ _ _)).bind fun _ => .pure i
  | .paren pos x => by
    rw [Lower.expr]
    split
    · exact leaves_constant _ _ _
    · exact leaves_expr n x

theorem leaves_exprs (n : Nat) : (xs : List Typed.Expr) → Leaves n false (Lower.exprs ls xs)
  | [] => by
    rw [Lower.exprs]
    exact .pure []
  | x :: rest => by
    rw [Lower.exprs]
    exact (leaves_expr n x).bind fun _ => (leaves_exprs n rest).bind fun _ => .pure _

theorem leaves_fill (n : Nat) (l : ClassLayout) (obj : Nat) :
    (elems : List (Ident × Typed.Expr)) → Leaves n false (Lower.fill ls l obj elems)
  | [] => by
    rw [Lower.fill]
    exact .pure ()
  | (key, value) :: rest => by
    rw [Lower.fill]
    exact (Leaves.require _ _ _).bind fun _ => (leaves_expr n value).bind fun _ =>
      (Leaves.discard (.emitWith _ _ _ _ _ _)).bind fun _ => leaves_fill n l obj rest

end

/-! Paths that meet -/

theorem leaves_bindVar (v : Var) (i : Nat) (pos : Pos) : Leaves n false (Lower.bindVar v i pos) := by
  unfold Lower.bindVar
  exact (Leaves.newSlot v).bind fun _ => .discard (.emit _ _ _ _)

theorem leaves_assign (x y : Typed.Expr) : Leaves n false (Lower.assign ls x y) := by
  unfold Lower.assign
  split
  · exact (Leaves.slotOf _).bind fun _ => (leaves_expr n y).bind fun _ =>
      .discard (.emit _ _ _ _)
  · exact (leaves_expr n _).bind fun _ => (leaves_expr n y).bind fun _ =>
      (leaves_fieldOffset _ _).bind fun _ => .discard (.emitWith _ _ _ _ _ _)
  · exact .fault _

theorem leaves_increment (slot : Nat) : Leaves n false (Lower.increment slot) := by
  unfold Lower.increment
  exact (Leaves.emit _ _ _ _).bind fun _ => (Leaves.emitWith _ _ _ _ _ _).bind fun _ =>
    (Leaves.emit _ _ _ _).bind fun _ => .discard (.emit _ _ _ _)

/-- What comes behind a loop is reached whether or not its body gets to its end. -/
theorem Leaves.reenter {m m' : Build Unit} {returns returns' : Bool} (hm : Leaves n returns m)
    (hm' : Leaves n returns' m') (b : Nat) : Leaves n false (do m; m'; Build.enter (some b)) :=
  fun s hn => by
    obtain ⟨hbeyond, _⟩ := hm s hn
    obtain ⟨hbeyond', _⟩ := hm' (m.run s).2 hbeyond.size
    refine ⟨hbeyond.trans (hbeyond'.trans ?_), fun _ => rfl⟩
    exact (Leaves.enter b _ hbeyond'.size).1

/-- What follows a construction is skipped where that leaves no open block. -/
theorem Leaves.andThen {m m' : Build Unit} (hm : Leaves n returns m) (hm' : Leaves n returns' m')
    (hskip : ∀ s, s.current = none → m'.run s = ((), s)) :
    Leaves n (returns || returns') (do m; m') := fun s hn => by
  obtain ⟨hbeyond, hcurrent⟩ := hm s hn
  obtain ⟨hbeyond', hcurrent'⟩ := hm' (m.run s).2 hbeyond.size
  rw [run_bind]
  refine ⟨hbeyond.trans hbeyond', fun hcur => ?_⟩
  have hopen := hcurrent hcur
  cases returns with
  | false => exact hcurrent' hopen
  | true =>
      have hnone : (m.run s).2.current = none := by simpa using hopen
      have hrun : (m'.run (m.run s).2).2.current = none := by rw [hskip _ hnone, hnone]
      rw [hrun]
      rfl

/-- A path through the block `b` leads to the block `done` unless it returns on the way. -/
theorem leaves_path {m : Build Unit} (hm : ∀ n, Leaves n returns m) (b done : Nat)
    (hdone : n ≤ done) (s : Builder) (hlt : done < s.func.blocks.size) :
    let s' := ((do enter (some b); m; jump done : Build Unit).run s).2
    Beyond n s s' ∧ done < s'.func.blocks.size ∧
      (s'.func.preds done).isEmpty = ((s.func.preds done).isEmpty && returns) := by
  obtain ⟨hbeyond, hcurrent⟩ := hm (done + 1) (s.entered (some b)) hlt
  obtain ⟨s₁, hs₁⟩ : ∃ s₁, (m.run (s.entered (some b))).2 = s₁ := ⟨_, rfl⟩
  have hrun : (do enter (some b); m; jump done : Build Unit).run s = (jump done).run s₁ := by
    rw [run_bind, run_enter, run_bind, hs₁]
  rw [hs₁] at hbeyond hcurrent
  have hpreds : s₁.func.preds done = s.func.preds done := hbeyond.preds done (Nat.lt_succ_self _)
  have hopen : s₁.current.isSome = !returns := hcurrent rfl
  have hfirst : Beyond n s s₁ :=
    ⟨Nat.le_trans hdone (Nat.le_of_lt hbeyond.size), fun c hc => hbeyond.preds c (by omega)⟩
  dsimp only
  rw [hrun]
  refine ⟨hfirst.trans (Leaves.jump hdone s₁ hfirst.size).1, ?_⟩
  cases hc : s₁.current with
  | none =>
      have hreturns : returns = true := by simpa [hc] using hopen
      rw [run_jump_none hc, hpreds, hreturns, Bool.and_true]
      exact ⟨hbeyond.size, rfl⟩
  | some a =>
      have hreturns : returns = false := by simpa [hc] using hopen
      rw [run_jump hc, Builder.func_withFunc, Func.preds_linked _ _ _ _ hbeyond.size, if_pos rfl,
        Func.size_linked, hreturns]
      exact ⟨hbeyond.size, by simp⟩

theorem run_rejoin_of_isEmpty {s : Builder} {done : Nat} (h : s.func.preds done = []) :
    (Lower.rejoin done).run s = ((), (s.withFunc (s.func.without done)).entered none) := by
  have hrun : (Lower.rejoin done).run s = (if (s.func.preds done).isEmpty then
      (do removeBlock done; enter none) else enter (some done) : Build Unit).run s := rfl
  rw [hrun, h]
  rfl

theorem run_rejoin_of_cons {s : Builder} {done p : Nat} {rest : List Nat}
    (h : s.func.preds done = p :: rest) :
    (Lower.rejoin done).run s = ((), s.entered (some done)) := by
  have hrun : (Lower.rejoin done).run s = (if (s.func.preds done).isEmpty then
      (do removeBlock done; enter none) else enter (some done) : Build Unit).run s := rfl
  rw [hrun, h]
  rfl

/-- Construction goes on in the block where paths meet if one of them leads there. -/
theorem leaves_rejoin (done : Nat) (s : Builder) (hn : n ≤ s.func.blocks.size) :
    let s' := ((Lower.rejoin done).run s).2
    Beyond n s s' ∧ s'.current.isSome = !(s.func.preds done).isEmpty := by
  cases hpreds : s.func.preds done with
  | nil =>
      rw [run_rejoin_of_isEmpty hpreds]
      exact ⟨⟨hn, fun _ _ => rfl⟩, rfl⟩
  | cons p rest =>
      rw [run_rejoin_of_cons hpreds]
      exact ⟨⟨hn, fun _ _ => rfl⟩, rfl⟩

/-- A branch leads to both of its blocks, also where there is no block that it could end. -/
theorem exists_run_branch (cond yes no : Nat) (s : Builder) :
    ∃ a s', (branch cond yes no).run s = ((), s') ∧ s'.current = s.current ∧
      s'.func = s.func.branched a cond yes no := by
  have hhere : ∃ a s', here.run s = (a, s') ∧ s'.current = s.current ∧ s'.func = s.func := by
    have hrequire : ∀ x : Option Nat, ∃ a s', (require x .noBlock 0).run s = (a, s') ∧
        s'.current = s.current ∧ s'.func = s.func := by
      intro x
      cases x with
      | some a => exact ⟨a, s, rfl, rfl, rfl⟩
      | none => exact ⟨0, { s with faults := s.faults ++ [.noBlock] }, rfl, rfl, rfl⟩
    unfold here
    exact hrequire s.current
  obtain ⟨a, s', hrun, hcurrent, hfunc⟩ := hhere
  have hbranch := run_branch_of_here hrun cond yes no
  rw [hfunc] at hbranch
  exact ⟨a, _, hbranch, hcurrent, rfl⟩

/-- The condition decides between a path and the block behind it. -/
theorem leaves_ifThen {m : Build Unit} (cond : Nat) (hm : ∀ n, Leaves n returns m) :
    Leaves n false (do
      let yes ← newBlock
      let done ← newBlock
      branch cond yes done
      enter (some yes)
      m
      jump done
      Lower.rejoin done) := fun s hn => by
  obtain ⟨k, hk⟩ : ∃ k, s.func.blocks.size = k := ⟨_, rfl⟩
  obtain ⟨a, s₁, hrun₁, hcurrent₁, hfunc₁⟩ :=
    exists_run_branch cond k (k + 1) (s.withFunc s.func.grown.grown)
  have hsize₁ : s₁.func.blocks.size = k + 2 := by
    rw [hfunc₁, Func.size_branched, Builder.func_withFunc, Func.size_grown, Func.size_grown, hk]
  have hpreds₁ : ∀ b, s₁.func.preds b =
      s.func.preds b ++ (if k = b then [a] else []) ++ if k + 1 = b then [a] else [] := fun b => by
    rw [hfunc₁, Builder.func_withFunc, Func.preds_branched _ _ _ _ (by simp; omega)
      (by simp; omega), Func.preds_grown, Func.preds_grown]
  obtain ⟨hbeyond₂, hlt₂, hpreds₂⟩ := leaves_path (n := n) hm k (k + 1) (by omega) s₁
    (by omega)
  obtain ⟨hbeyond₃, hcurrent₃⟩ := leaves_rejoin (k + 1) _ hbeyond₂.size
  have hbeyond₁ : Beyond n s s₁ := ⟨by omega, fun b hb => by
    rw [hpreds₁, if_neg (by omega), if_neg (by omega), List.append_nil, List.append_nil]⟩
  have hrun : (do
      let yes ← newBlock
      let done ← newBlock
      branch cond yes done
      enter (some yes)
      m
      jump done
      Lower.rejoin done : Build Unit).run s = (Lower.rejoin (k + 1)).run
        ((do enter (some k); m; jump (k + 1) : Build Unit).run s₁).2 := by
    simp only [run_bind, run_newBlock, Builder.func_withFunc, Builder.withFunc_withFunc,
      Func.size_grown, hk, hrun₁]
  rw [hrun]
  refine ⟨hbeyond₁.trans (hbeyond₂.trans hbeyond₃), fun _ => ?_⟩
  rw [hcurrent₃, hpreds₂, hpreds₁, if_pos rfl]
  simp

/-- The condition decides between two paths. -/
theorem leaves_ifElse {m m' : Build Unit} (cond : Nat) (hm : ∀ n, Leaves n returns m)
    (hm' : ∀ n, Leaves n returns' m') : Leaves n (returns && returns') (do
      let yes ← newBlock
      let done ← newBlock
      let no ← newBlock
      branch cond yes no
      enter (some yes)
      m
      jump done
      enter (some no)
      m'
      jump done
      Lower.rejoin done) := fun s hn => by
  obtain ⟨k, hk⟩ : ∃ k, s.func.blocks.size = k := ⟨_, rfl⟩
  obtain ⟨a, s₁, hrun₁, hcurrent₁, hfunc₁⟩ :=
    exists_run_branch cond k (k + 2) (s.withFunc s.func.grown.grown.grown)
  have hsize₁ : s₁.func.blocks.size = k + 3 := by
    rw [hfunc₁, Func.size_branched, Builder.func_withFunc, Func.size_grown, Func.size_grown,
      Func.size_grown, hk]
  have hpreds₁ : ∀ b, s₁.func.preds b =
      s.func.preds b ++ (if k = b then [a] else []) ++ if k + 2 = b then [a] else [] := fun b => by
    rw [hfunc₁, Builder.func_withFunc, Func.preds_branched _ _ _ _ (by simp; omega)
      (by simp; omega), Func.preds_grown, Func.preds_grown, Func.preds_grown]
  obtain ⟨hbeyond₂, hlt₂, hpreds₂⟩ := leaves_path (n := n) hm k (k + 1) (by omega) s₁
    (by omega)
  obtain ⟨hbeyond₃, hlt₃, hpreds₃⟩ := leaves_path (n := n) hm' (k + 2) (k + 1) (by omega) _
    hlt₂
  obtain ⟨hbeyond₄, hcurrent₄⟩ := leaves_rejoin (k + 1) _ hbeyond₃.size
  have hbeyond₁ : Beyond n s s₁ := ⟨by omega, fun b hb => by
    rw [hpreds₁, if_neg (by omega), if_neg (by omega), List.append_nil, List.append_nil]⟩
  have hnew : s.func.preds (k + 1) = [] := Func.preds_nil _ _ (by omega)
  have hrun : (do
      let yes ← newBlock
      let done ← newBlock
      let no ← newBlock
      branch cond yes no
      enter (some yes)
      m
      jump done
      enter (some no)
      m'
      jump done
      Lower.rejoin done : Build Unit).run s = (Lower.rejoin (k + 1)).run
        ((do enter (some (k + 2)); m'; jump (k + 1) : Build Unit).run
          ((do enter (some k); m; jump (k + 1) : Build Unit).run s₁).2).2 := by
    simp only [run_bind, run_newBlock, Builder.func_withFunc, Builder.withFunc_withFunc,
      Func.size_grown, hk, Nat.add_assoc, Nat.reduceAdd, hrun₁]
  rw [hrun]
  refine ⟨hbeyond₁.trans (hbeyond₂.trans (hbeyond₃.trans hbeyond₄)), fun _ => ?_⟩
  rw [hcurrent₄, hpreds₃, hpreds₂, hpreds₁, hnew, if_neg (by omega), if_neg (by omega)]
  simp

/-! Statements -/

/-- Where construction has ended, statements are skipped. -/
theorem run_stmts_none {b : List Typed.Stmt} {s : Builder} (h : s.current = none) :
    (Lower.stmts ls b).run s = ((), s) := by
  cases b with
  | nil =>
      rw [Lower.stmts]
      rfl
  | cons st rest =>
      rw [Lower.stmts, run_ifOpen, h]
      rfl

theorem leaves_loop {test : Build Nat} {m : Build Unit} (htest : Leaves n false test)
    (hm : Leaves n returns m) : Leaves n false (do
      let header ← newBlock
      let inside ← newBlock
      let done ← newBlock
      jump header
      enter (some header)
      let c ← test
      branch c inside done
      enter (some inside)
      m
      jump header
      enter (some done)) :=
  .newBlock fun _ hheader => .newBlock fun _ hinside => .newBlock fun done hdone =>
    (Leaves.jump hheader).bind fun _ => (Leaves.enter _).bind fun _ => htest.bind fun c =>
    (Leaves.branch c hinside hdone).bind fun _ => (Leaves.enter _).bind fun _ =>
    hm.reenter (.jump hheader) done

/-- The counting variable of a loop is only incremented if the body gets to its end. -/
theorem counting_eq (body : Build Unit) (slot header done : Nat) :
    (do
      body
      if (← get).current.isSome then
        Lower.increment slot
        jump header
      enter (some done) : Build Unit) = (do
      (do
        body
        if (← get).current.isSome then
          Lower.increment slot)
      jump header
      enter (some done)) := by
  funext s
  obtain ⟨u, s', hs'⟩ : ∃ u s', body.run s = (u, s') := ⟨_, _, rfl⟩
  change (do
      body
      if (← get).current.isSome then
        Lower.increment slot
        jump header
      enter (some done) : Build Unit).run s = (do
      (do
        body
        if (← get).current.isSome then
          Lower.increment slot)
      jump header
      enter (some done) : Build Unit).run s
  have hget : (get : Build Builder).run s' = (s', s') := rfl
  simp only [run_bind, hs', hget]
  cases hc : s'.current with
  | none =>
      have hjump := run_jump_none hc header
      simp only [Option.isSome_none, Bool.false_eq_true, if_false]
      change _ = (enter (some done)).run ((jump header).run s').2
      rw [hjump]
  | some c =>
      simp only [Option.isSome_some, if_true]
      rfl

/-- The counting variable of a loop is incremented where the body gets to its end. -/
theorem leaves_counted {m : Build Unit} (slot : Nat) (hm : Leaves n returns m) :
    Leaves n (returns || false) (do
      m
      if (← get).current.isSome then
        Lower.increment slot) := by
  refine hm.andThen (Leaves.get.bind fun t => ?_) fun s hc => ?_
  · split
    · exact leaves_increment slot
    · exact .pure ()
  · rw [run_ifOpen, hc]
    rfl

/-- A return leaves no open block. -/
theorem leaves_ret (i : Option Nat) : Leaves n true (do ret i; enter none) := fun s hn => by
  have hret : Leaves n false (ret i) := Leaves.here.bind fun a =>
    .of_same (fun s => Func.size_ended s.func a .ret (i.toList.map some))
      (fun s c => Func.preds_ended s.func a c .ret (i.toList.map some)) fun _ => rfl
  obtain ⟨hbeyond, _⟩ := hret s hn
  exact ⟨⟨hbeyond.size, hbeyond.preds⟩, fun _ => rfl⟩

/-- In an open block the first of several statements is run. -/
theorem run_stmts_cons {st : Typed.Stmt} {rest : List Typed.Stmt} {s : Builder}
    (h : s.current.isSome = true) : (Lower.stmts ls (st :: rest)).run s =
      (do Lower.stmt ls st; Lower.stmts ls rest : Build Unit).run s := by
  rw [Lower.stmts, run_ifOpen, if_pos h]

mutual

/-- A statement that is run in an open block ends in one unless it returns on every path. -/
theorem leaves_stmt (n : Nat) : (st : Typed.Stmt) → Leaves n st.returns (Lower.stmt ls st)
  | .empty pos => by
    rw [Lower.stmt]
    exact .pure ()
  | .expr x => by
    rw [Lower.stmt]
    exact .discard (leaves_expr n x)
  | .bind pos v term x => by
    rw [Lower.stmt]
    exact (leaves_expr n x).bind fun i => leaves_bindVar v i pos
  | .assign lhs rhs => by
    rw [Lower.stmt]
    exact leaves_assign lhs rhs
  | .block (.mk list) => by
    rw [Lower.stmt, Lower.block]
    exact leaves_stmts n list
  | .ifElse cond (.mk list) none => by
    rw [Lower.stmt, Lower.block]
    exact (leaves_expr n cond).bind fun c => leaves_ifThen c fun k => leaves_stmts k list
  | .ifElse cond (.mk list) (some other) => by
    rw [Lower.stmt, Lower.block]
    exact (leaves_expr n cond).bind fun c =>
      leaves_ifElse c (fun k => leaves_stmts k list) fun k => leaves_stmt k other
  | .whileLoop cond (.mk list) => by
    rw [Lower.stmt, Lower.block]
    exact leaves_loop (leaves_expr n cond) (leaves_stmts n list)
  | .forLoop pos v start low high (.mk list) => by
    rw [Lower.stmt, Lower.block]
    simp only [counting_eq]
    exact (leaves_expr n low).bind fun first => (leaves_expr n high).bind fun last =>
      (leaves_bindVar v first pos).bind fun _ => (Leaves.slotOf v).bind fun slot =>
      .newBlock fun _ hheader => .newBlock fun _ hinside => .newBlock fun done hdone =>
      (Leaves.jump hheader).bind fun _ => (Leaves.enter _).bind fun _ =>
      (Leaves.emit _ _ _ _).bind fun _ => (Leaves.emit _ _ _ _).bind fun c =>
      (Leaves.branch c hinside hdone).bind fun _ => (Leaves.enter _).bind fun _ =>
      (leaves_counted slot (leaves_stmts n list)).reenter (.jump hheader) done
  | .ret pos none => by
    rw [Lower.stmt]
    exact leaves_ret none
  | .ret pos (some x) => by
    rw [Lower.stmt]
    exact (leaves_expr n x).bind fun i => leaves_ret (some i)

/-- Statements that are run in an open block end in one unless one of them returns on every
path. -/
theorem leaves_stmts (n : Nat) : (list : List Typed.Stmt) →
    Leaves n (Typed.returnsAny list) (Lower.stmts ls list)
  | [] => by
    rw [Lower.stmts]
    exact .pure ()
  | st :: rest => fun s hn => by
    cases hc : s.current with
    | none =>
        rw [run_stmts_none hc]
        exact ⟨.refl hn, by simp⟩
    | some a =>
        have hcur : s.current.isSome = true := by rw [hc]; rfl
        rw [run_stmts_cons hcur, ← hc]
        exact (leaves_stmt n st).andThen (leaves_stmts n rest) (fun _ h => run_stmts_none h) s hn

end

/-! The parts of a function -/

/-- The arguments and the body of a function. A block may still be open behind them. -/
def argumentsAndBody (ls : Layouts) (g : Typed.Func) (body : Typed.Block) : Build Unit := do
  match g.header.recv with
  | some v => Lower.parameter v (-1)
  | none => if g.decl.recv.isSome then fault (.noReceiver g.ref.text)
  Lower.parameters 0 (g.header.params.map (·.1))
  Lower.block ls body

/-- The end of a function. A block that is still open returns. -/
def finish : Build Unit := do
  match (← get).current with
  | none => return
  | some b => if !(((← get).func.block? b).map (·.terminated)).getD true then ret none

theorem run_funcBody (ls : Layouts) (g : Typed.Func) (body : Typed.Block) (s : Builder) :
    (Lower.funcBody ls g body).run s = finish.run ((argumentsAndBody ls g body).run s).2 := by
  unfold Lower.funcBody argumentsAndBody
  cases g.header.recv with
  | some v => rfl
  | none => cases g.decl.recv <;> rfl

end Build

end ClassLang.Graph
