import ClassLang.Proofs.Code.Stmt
import ClassLang.Proofs.Graph.Allots
import ClassLang.Proofs.Graph.Function

/-!
Construction makes the code of a function. Its graph is finished, so that all that is said of
finished graphs is true of it.
-/

namespace ClassLang.Graph

namespace Build

open Builder (Inv Step Stage Value Later Has)

variable {pend : List Nat} {dom : Doms} {s s' : Builder} {vars vars' : List Var} {ls : Layouts}

/-- An argument is stored into a slot of its own in the entry. -/
theorem codes_parameter {v : Var} {index : Int64} (hs : Ready vars pend dom s)
    (hc : s.current = some 0) :
    Codes s (Lower.parameter v index) fun t p _ q =>
      t.func.Holds p (p.instr .arg (some v.ty) [] v.pos index (some (.text v.name))) ∧
        BindCode t v p.count Pos.none p.next ∧ q = p.next.skip.next := by
  have harg : Makes pend dom s (emitAt 0 .arg (some v.ty) [] v.pos index (some (.text v.name)))
      fun _ _ s' => s'.current = some 0 :=
    (Makes.emitAt hs.inv hc (by simp) (by simp) (by simp) fun _ _ => rfl).imp
      fun _ _ _ _ h => h.2
  have hbind (i : Nat) (s' : Builder) (hc : s'.current = some 0) : (do
      let slot ← newSlot v
      discard (emitAt 0 .store none [slot, i] Pos.none 0 none) : Build Unit).run s' =
        (Lower.bindVar v i Pos.none).run s' := by
    unfold Lower.bindVar emit
    rw [run_bind, run_bind]
    exact congrArg (fun r => ((), r.2)) (run_emitWith (s := ((newSlot v).run s').2) hc ..).symm
  unfold Lower.parameter
  refine (Codes.andThen harg (Codes.emitAt hs.inv hc (by simp) (by simp))
    fun i dom₁ s₁ hstep hcur hc₁ => .of_eq (hbind i s₁ hc₁)
      (codes_bindVar (hs.next hstep hcur))).imp ?_
  rintro t p _ q _ ⟨_, _, ⟨rfl, rfl, harg⟩, hslot, rfl⟩
  exact ⟨harg, hslot, rfl⟩

/-- All arguments are stored into slots. -/
theorem codes_parameters {l : List Var} (n : Nat) (hs : Ready vars pend dom s)
    (hc : s.current = some 0) :
    Codes s (Lower.parameters n l) fun t p _ q =>
      ParamsCode t (l.mapIdx fun i v => (v, Int64.ofNat (n + i))) p q := by
  induction l generalizing n vars dom s with
  | nil =>
      rw [Lower.parameters]
      refine Codes.pure.imp ?_
      rintro t p _ q _ ⟨_, rfl⟩
      exact .nil
  | cons v rest ih =>
      rw [Lower.parameters]
      refine (Codes.andThen (makes_parameter hs hc) (codes_parameter hs hc)
        fun _ dom₁ s₁ hstep hcur h =>
          ih (n + 1) ⟨hstep.inv, hcur, h.1⟩ h.2).imp ?_
      rintro t p _ q _ ⟨_, _, ⟨harg, hbind, rfl⟩, hrest⟩
      rw [List.mapIdx_cons]
      refine .cons harg hbind ?_
      simpa [Nat.add_assoc, Nat.add_comm 1] using hrest

/-- The code of the arguments and the body of a well typed function. -/
theorem codes_argumentsAndBody {Γ : Typed.Context} (hΓ : Γ.Sound) {g : Typed.Func}
    {b : List Typed.Stmt} (hg : g.Ok Γ) (hbody : g.body = some (.mk b))
    (hfree : g.header.recv = none → g.decl.recv = none) (name : String) (ref : FuncRef)
    (recv : Option Ty) : CodesRun (Builder.start name ref g.header.sig recv)
      (argumentsAndBody (Layouts.build Γ.table) g (.mk b)) fun t p r => ∃ q,
        ParamsCode t g.header.indexed p q ∧ StmtsCode (Layouts.build Γ.table) t b q r := by
  obtain ⟨vars', hok⟩ := hg.body _ hbody
  have hstart : Ready [] [] (fun _ => []) (Builder.start name ref g.header.sig recv) :=
    ⟨Builder.inv_start name ref g.header.sig recv, rfl, by simp [Bound]⟩
  have hparams : ∀ {dom : Doms} {s : Builder} {vars : List Var}, Ready vars [] dom s →
      s.current = some 0 → vars = g.header.recv.toList →
      s.func.hasResult = !g.header.sig.result.isVoid → CodesRun s (do
        Lower.parameters 0 (g.header.params.map (·.1))
        Lower.block (Layouts.build Γ.table) (.mk b)) fun t p r => ∃ q,
          ParamsCode t ((g.header.params.map (·.1)).mapIdx fun i v => (v, Int64.ofNat i)) p q ∧
            StmtsCode (Layouts.build Γ.table) t b q r := by
    rintro dom s vars hs hc rfl hresult
    refine (CodesRun.bind (makes_parameters 0 hs hc) (codes_parameters 0 hs hc)
      fun _ dom₁ s₁ hstep hcur hbound => by
        rw [Lower.block]
        refine writes_stmts hΓ hok _ _ _ ⟨hstep.inv, hcur, fun v hv => hbound v ?_⟩
          ((Step.hasResult hstep).trans hresult)
        rw [List.mem_append, or_comm, ← List.mem_append]
        exact List.mem_reverse.1 hv).imp ?_
    rintro t p r _ ⟨_, q, hparams, hcode⟩
    exact ⟨q, by simpa using hparams, hcode⟩
  unfold argumentsAndBody Typed.Header.indexed
  cases hrecv : g.header.recv with
  | none =>
      have hdecl : ¬g.decl.recv.isSome = true := by simp [hfree hrecv]
      simp only [if_neg hdecl]
      exact hparams hstart rfl (by rw [hrecv]; rfl) rfl
  | some v =>
      refine (CodesRun.bind (makes_parameter hstart rfl) (codes_parameter hstart rfl)
        fun _ dom₁ s₁ hstep hcur h =>
          hparams ⟨hstep.inv, hcur, h.1⟩ h.2 (by rw [hrecv]; rfl) (Step.hasResult hstep)).imp ?_
      rintro t p r _ ⟨_, _, ⟨harg, hbind, rfl⟩, q, hparams, hcode⟩
      exact ⟨q, .cons harg hbind hparams, hcode⟩

end Build

namespace Func

/-- The graph of a well typed function is finished, and it is the code of the function. -/
theorem code_lowered {Γ : Typed.Context} (hΓ : Γ.Sound) {g : Typed.Func} {b : List Typed.Stmt}
    (hg : g.Ok Γ) (hbody : g.body = some (.mk b)) (hfree : g.header.recv = none → g.decl.recv = none)
    (hbinders : g.binders.Nodup) :
    (lowered (Layouts.build Γ.table) g (.mk b)).Finished ∧
      FuncCode (Layouts.build Γ.table) (lowered (Layouts.build Γ.table) g (.mk b)) g (.mk b) := by
  obtain ⟨t, ht⟩ : ∃ t, lowered (Layouts.build Γ.table) g (.mk b) = t := ⟨_, rfl⟩
  obtain ⟨start, hstart⟩ : ∃ s, Builder.start g.ref.text g.ref g.header.sig
    (g.header.recv.map (·.ty)) = s := ⟨_, rfl⟩
  obtain ⟨s, hs⟩ : ∃ s, ((Build.argumentsAndBody (Layouts.build Γ.table) g (.mk b)).run start).2 = s :=
    ⟨_, rfl⟩
  obtain ⟨vars', dom, hstep, -⟩ := Build.flows_argumentsAndBody hΓ hg hbody hfree g.ref.text g.ref
    (g.header.recv.map (·.ty))
  have hcode := Build.codes_argumentsAndBody hΓ hg hbody hfree g.ref.text g.ref
    (g.header.recv.map (·.ty))
  obtain ⟨hcurrent, hlast, dom', hgood, -⟩ := Build.run_funcBody_good hΓ hg hbody hfree g.ref.text
    g.ref (g.header.recv.map (·.ty))
  obtain ⟨hdistinct, hapart⟩ := slots_lowered (Layouts.build Γ.table) hbody hbinders
  rw [show ((Lower.funcBody _ g (.mk b)).run _).2 = t from ht] at hlast hgood
  unfold Build.CodesRun at hcode
  rw [hstart, hs] at hstep hcurrent hlast hcode
  rw [ht] at hdistinct hapart ⊢
  have hinv : Builder.Inv dom [] s := hstep.inv
  have hspot : start.spot = ⟨0, 0, 0⟩ := by
    rw [← hstart]
    rfl
  cases hreturns : (Typed.Block.mk b).returns with
  | true =>
      rw [hreturns] at hcurrent hlast
      obtain rfl : t = s := hlast
      have ht : t.Finished := ⟨hdistinct, hapart.nodup, ⟨_, hinv.slotted⟩, ⟨_, hgood.coded⟩⟩
      obtain ⟨-, q, hparams, hstmts⟩ := hcode t ht (.refl t)
      rw [hspot] at hparams
      refine ⟨ht, .code hparams hstmts fun e he => ?_⟩
      rw [Builder.spot?_none (by simpa using hcurrent)] at he
      cases he
  | false =>
      rw [hreturns] at hcurrent hlast
      obtain ⟨a, ha⟩ := Option.isSome_iff_exists.1 hcurrent
      have halt := hinv.lt_size ha
      have hopen := hinv.opened ha
      obtain rfl : t = s.withFunc (s.func.ended a .ret []) := by
        rw [hlast, if_neg (by simp), Build.run_ret ha]
        rfl
      have hslotted := hinv.slotted.congr (Func.values_ended s.func a · .ret [])
        (Func.instr?_ended s.func a · .ret [])
      have ht : (s.withFunc (s.func.ended a .ret [])).Finished :=
        ⟨hdistinct, hapart.nodup, ⟨_, hslotted⟩, ⟨_, hgood.coded⟩⟩
      obtain ⟨-, q, hparams, hstmts⟩ := hcode _ ht ((Builder.Later.refl _).closed halt hopen.not_ended)
      rw [hspot] at hparams
      refine ⟨ht, .code hparams hstmts fun e he => ?_⟩
      rw [Builder.spot?_of_current ha, Builder.spot_of_current ha] at he
      obtain rfl := Option.some.inj he
      exact quits_ended halt hopen none _

end Func

end ClassLang.Graph
