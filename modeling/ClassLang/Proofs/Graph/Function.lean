import ClassLang.Proofs.Graph.Stmt
import ClassLang.Proofs.Graph.Verify

/-!
Whole functions. The construction of a well typed function starts with an empty entry
block, stores the arguments into slots, runs the body, and leaves no block open.
-/

namespace ClassLang.Graph

namespace Func

/-- A graph that has an empty entry block only. -/
structure Empty (f : Func) : Prop where
  entry : f.entry = some 0
  order : f.order = [0]
  blocks : f.blocks = #[{ id := 0 }]
  instrs : f.instrs = #[]

namespace Empty

variable {f : Func} {b i : Nat}

theorem block? (h : f.Empty) : f.block? b = if b = 0 then some { id := 0 } else none := by
  unfold Func.block?
  rw [h.blocks]
  cases b <;> rfl

theorem succs (h : f.Empty) : f.succs b = [] := by
  unfold Func.succs
  rw [h.block?]
  split <;> rfl

theorem preds (h : f.Empty) : f.preds b = [] := by
  unfold Func.preds
  rw [h.block?]
  split <;> rfl

theorem values (h : f.Empty) : f.values b = [] := by
  unfold Func.values
  rw [h.block?]
  split <;> rfl

theorem controlsOf (h : f.Empty) : f.controlsOf b = [] := by
  unfold Func.controlsOf
  rw [h.block?]
  split <;> rfl

theorem kindOf (h : f.Empty) : f.kindOf b = .plain := by
  unfold Func.kindOf
  rw [h.block?]
  split <;> rfl

theorem instr? (h : f.Empty) : f.instr? i = none := by
  unfold Func.instr?
  rw [h.instrs]
  rfl

/-- No block must be passed before the entry, which is open. -/
theorem good (h : f.Empty) : f.Good (fun _ => []) [0] where
  wired :=
    { entry := h.entry
      head := by rw [h.order]; rfl
      nodup := by simp [h.order]
      known := by simp [h.order, h.blocks]
      ids := fun b x hx => by
        rw [h.block?] at hx
        split at hx
        next heq =>
          obtain rfl := Option.some.inj hx
          exact ⟨heq.symm, rfl⟩
        next => cases hx
      edges := by simp [h.succs, h.preds]
      single := by simp [h.succs, h.preds]
      inside := by simp [h.succs]
      entry_preds := h.preds }
  coded :=
    { ids := by simp [h.instr?]
      home := by simp [h.instr?]
      placed := by simp [h.instr?, h.values]
      nodup := by simp [h.values]
      entry := by simp [NoPhi, h.instr?]
      sane := by simp [h.instr?]
      phis := by simp [h.instr?]
      uses := by simp [h.instr?] }
  closed :=
    { order := by simp [h.order]
      nodup := by simp
      opened := fun b _ => ⟨h.kindOf, h.succs, h.controlsOf⟩
      ends := by simp [h.order]
      controls := by simp [h.controlsOf]
      reach := by simp [h.order] }
  covered := ⟨rfl, by simp [h.preds], by simp [h.order]⟩

theorem slotted (h : f.Empty) : f.Slotted 0 := by
  refine ⟨?_, ?_, ?_, ?_⟩ <;> simp [h.values]

end Empty

end Func

namespace Builder

theorem inv_start (name : String) (ref : FuncRef) (sig : Signature) (recv : Option Ty) :
    Inv (fun _ => []) [] (start name ref sig recv) := by
  have hempty : (start name ref sig recv).func.Empty := ⟨rfl, rfl, rfl, rfl⟩
  refine ⟨hempty.good, fun c hc => ?_, by simp [start], hempty.slotted, rfl⟩
  obtain rfl : 0 = c := Option.some.inj hc
  exact .entry

end Builder

namespace Build

open Builder (Inv Step Has Stage Value)

variable {pend : List Nat} {dom : Doms} {s : Builder} {vars : List Var}

/-- An argument is stored into a slot of its own in the entry. -/
theorem makes_parameter {v : Var} {index : Int64} (hs : Ready vars pend dom s)
    (hc : s.current = some 0) : Makes pend dom s (Lower.parameter v index) fun _ _ s' =>
      Bound (v :: vars) s' ∧ s'.current = some 0 := by
  unfold Lower.parameter
  refine (Makes.emitAt hs.inv hc (by simp) (by simp) (by simp) fun _ _ => rfl).bind
    fun i dom₁ s₁ hstep hcur ⟨⟨x, hx, _⟩, hc⟩ => ?_
  have hs := hs.next hstep hcur
  have hnew : Makes pend dom₁ s₁ (newSlot v) fun slot _ s' =>
      s'.slots = (v.pos, slot) :: s₁.slots ∧ s'.current = some 0 :=
    .of_run rfl (Step.slotted hs.inv v) hcur ⟨rfl, hc⟩
  refine hnew.bind fun slot dom₂ s₂ hstep hcur ⟨hslots, hc⟩ => ?_
  obtain ⟨y, hy, hop⟩ := hstep.inv.has_slot hcur (hslots ▸ List.mem_cons_self)
  refine (Makes.emitAt (t := none) hstep.inv hc (by simp) (by simp)
    (by simpa using ⟨⟨y, hy⟩, x, hstep.has hcur hx⟩) fun _ _ => ?_).discard.imp
    fun _ _ s₃ hstep' ⟨_, _, hc⟩ => ⟨(hs.bound.cons hslots).mono hstep'.slots, hc⟩
  simp [Instr.fault?, Instr.operandFault?, Instr.targetFault?, Instr.countFault?, Instr.firstOp,
    hy.instr, hop, Op.isVoid, Bind.bind, Except.bind, Pure.pure, Except.pure]

/-- All arguments are stored into slots. -/
theorem makes_parameters {l : List Var} (n : Nat) (hs : Ready vars pend dom s)
    (hc : s.current = some 0) : Makes pend dom s (Lower.parameters n l) fun _ _ s' =>
      Bound (l ++ vars) s' := by
  induction l generalizing n vars dom s with
  | nil =>
      rw [Lower.parameters]
      exact .pure hs.inv hs.current hs.bound
  | cons v rest ih =>
      rw [Lower.parameters]
      refine (makes_parameter hs hc).bind fun _ dom₁ s₁ hstep hcur ⟨hbound, hc⟩ => ?_
      refine (ih (n + 1) ⟨hstep.inv, hcur, hbound⟩ hc).imp fun _ _ s₂ _ hbound w hw => ?_
      exact hbound w (by simpa [or_left_comm] using hw)

/-- No step of construction has decided how an open block ends. -/
theorem run_finish (h : Inv dom pend s) :
    finish.run s = (if s.current.isSome then ret none else pure () : Build Unit).run s := by
  unfold finish
  rw [run_bind, run_get]
  dsimp only
  cases hc : s.current with
  | none => rfl
  | some b =>
      obtain ⟨x, hx⟩ : ∃ x, s.func.block? b = some x :=
        ⟨_, Array.getElem?_eq_getElem (h.lt_size hc)⟩
      have hopen := h.good.closed.opened b (by simp [hc])
      have hkind : x.kind = .plain := by simpa [Func.kindOf, hx] using hopen.kind
      have hsuccs : x.succs = [] := by simpa [Func.succs, hx] using hopen.succs
      have hterminated : x.terminated = false := by simp [Block.terminated, hkind, hsuccs]
      have hret : (do
          if !(((← get).func.block? b).map (·.terminated)).getD true then
            ret none : Build Unit).run s = (if !((s.func.block? b).map Block.terminated).getD true
          then ret none else pure () : Build Unit).run s := rfl
      dsimp only
      rw [hret, hx, Option.map_some, Option.getD_some, hterminated]
      rfl

/-- Arguments and a body leave an open block behind unless the body returns on every path. -/
theorem leaves_argumentsAndBody (n : Nat) (ls : Layouts) (g : Typed.Func) (body : Typed.Block) :
    Leaves n body.returns (argumentsAndBody ls g body) := by
  obtain ⟨stmts⟩ := body
  have hparameter (v : Var) (index : Int64) : Leaves n false (Lower.parameter v index) :=
    (Leaves.emitAt _ _ _ _ _ _ _).bind fun _ => (Leaves.newSlot v).bind fun _ =>
      .discard (.emitAt _ _ _ _ _ _ _)
  have hparameters (l : List Var) : ∀ k, Leaves n false (Lower.parameters k l) := by
    induction l with
    | nil => exact fun _ => .pure ()
    | cons v rest ih => exact fun k => (hparameter v _).bind fun _ => ih (k + 1)
  have hrest : Leaves n (Typed.Block.mk stmts).returns (do
      Lower.parameters 0 (g.header.params.map (·.1))
      Lower.block ls (.mk stmts)) :=
    (hparameters _ 0).bind fun _ => by
      rw [Lower.block]
      exact leaves_stmts n stmts
  unfold argumentsAndBody
  split
  · exact (hparameter _ _).bind fun _ => hrest
  · split
    · exact (Leaves.fault _).bind fun _ => hrest
    · exact (Leaves.pure ()).bind fun _ => hrest

/-- The arguments and the body of a well typed function run without a fault. -/
theorem flows_argumentsAndBody {Γ : Typed.Context} (hΓ : Γ.Sound) {g : Typed.Func}
    {body : Typed.Block} (hg : g.Ok Γ) (hbody : g.body = some body)
    (hfree : g.header.recv = none → g.decl.recv = none) (name : String) (ref : FuncRef)
    (recv : Option Ty) : ∃ vars', Flows [] (fun _ => [])
      (Builder.start name ref g.header.sig recv) vars'
      (argumentsAndBody (Layouts.build Γ.table) g body) := by
  obtain ⟨vars', hok⟩ := hg.body body hbody
  obtain ⟨stmts⟩ := body
  refine ⟨vars', ?_⟩
  have hstart : Ready [] [] (fun _ => []) (Builder.start name ref g.header.sig recv) :=
    ⟨Builder.inv_start name ref g.header.sig recv, rfl, by simp [Bound]⟩
  have hparams : ∀ {dom : Doms} {s : Builder} {vars : List Var}, Ready vars [] dom s →
      s.current = some 0 → vars = g.header.recv.toList →
      s.func.hasResult = !g.header.sig.result.isVoid → Flows [] dom s vars' (do
        Lower.parameters 0 (g.header.params.map (·.1))
        Lower.block (Layouts.build Γ.table) (.mk stmts)) := by
    rintro dom s vars hs hc rfl hresult
    refine .bind (makes_parameters 0 hs hc) fun _ dom₁ s₁ hstep hcur hbound => ?_
    rw [Lower.block]
    refine executes_stmts hΓ hok _ _ _ ⟨hstep.inv, hcur, fun v hv => hbound v ?_⟩
      ((Step.hasResult hstep).trans hresult)
    rw [List.mem_append, or_comm, ← List.mem_append]
    exact List.mem_reverse.1 hv
  unfold argumentsAndBody
  cases hrecv : g.header.recv with
  | none =>
      have hdecl : ¬g.decl.recv.isSome = true := by simp [hfree hrecv]
      simp only [if_neg hdecl]
      exact hparams hstart rfl (by rw [hrecv]; rfl) rfl
  | some v =>
      refine .bind (makes_parameter hstart rfl) fun _ dom₁ s₁ hstep hcur ⟨hbound, hc⟩ => ?_
      exact hparams ⟨hstep.inv, hcur, hbound⟩ hc (by rw [hrecv]; rfl) (Step.hasResult hstep)

/-- The construction of a well typed function runs without a fault and leaves no block open. At its
end a return is added just if the body does not return on every path. -/
theorem run_funcBody_good {Γ : Typed.Context} (hΓ : Γ.Sound) {g : Typed.Func}
    {body : Typed.Block} (hg : g.Ok Γ) (hbody : g.body = some body)
    (hfree : g.header.recv = none → g.decl.recv = none) (name : String) (ref : FuncRef)
    (recv : Option Ty) :
    let ls := Layouts.build Γ.table
    let start := Builder.start name ref g.header.sig recv
    let s := ((argumentsAndBody ls g body).run start).2
    let s' := ((Lower.funcBody ls g body).run start).2
    s.current.isSome = !body.returns ∧ s' = (if body.returns then s else ((ret none).run s).2) ∧
      ∃ dom, s'.func.Good dom [] ∧ s'.faults = [] ∧ s'.func.head = start.func.head := by
  intro ls start s s'
  obtain ⟨vars', dom, hstep, _⟩ := flows_argumentsAndBody hΓ hg hbody hfree name ref recv
  have hcurrent : s.current.isSome = !body.returns :=
    (leaves_argumentsAndBody 0 ls g body start (Nat.zero_le _)).2 rfl
  have hs' : s' = (if body.returns then s else ((ret none).run s).2) := by
    change ((Lower.funcBody ls g body).run start).2 = _
    rw [run_funcBody, run_finish hstep.inv, hcurrent]
    cases body.returns <;> rfl
  refine ⟨hcurrent, hs', dom, ?_⟩
  rw [hs']
  have hgood := hstep.inv.good
  cases hreturns : body.returns with
  | true =>
      have hnone : s.current = none := by simpa [hreturns] using hcurrent
      rw [show ((argumentsAndBody ls g body).run start).2.current = none from hnone] at hgood
      exact ⟨hgood, hstep.inv.faults, hstep.frame.head⟩
  | false =>
      obtain ⟨b, hb⟩ : ∃ b, s.current = some b :=
        Option.isSome_iff_exists.1 (by rw [hcurrent, hreturns]; rfl)
      have hvoid : g.header.sig.result.isVoid = true := by
        cases hvoid : g.header.sig.result.isVoid with
        | true => rfl
        | false => simp [hg.returns body hbody hvoid] at hreturns
      rw [show ((argumentsAndBody ls g body).run start).2.current = some b from hb] at hgood
      have hclosed := hgood.ret (a := b) (by simp) (hstep.inv.reach b hb) none (by simp) ?_
      · rw [Option.toList_some, List.singleton_append, List.erase_cons_head] at hclosed
        rw [run_ret hb]
        exact ⟨hclosed, hstep.inv.faults, hstep.frame.head⟩
      · rw [Step.hasResult hstep]
        change (!g.header.sig.result.isVoid) = _
        rw [hvoid]
        rfl

end Build

end ClassLang.Graph
