import ClassLang.Proofs.Code.Expr
import ClassLang.Proofs.Graph.Stmt

/-!
Construction makes the code of a statement. A statement may return, so that construction does not
go on behind it and the code has no end.
-/

namespace ClassLang.Graph

namespace Build

open Builder (Inv Step Stage Value Later Has)

variable {α β : Type} {pend : List Nat} {dom dom' : Doms} {s s₁ s' t : Builder}
  {vars vars' : List Var} {result : Ty} {ls : Layouts}

/-- What the construction `m` makes from `s` on is `C` of the graph that is finished later, of the
spot where it starts, and of the spot where it goes on behind it, if there is one. -/
def CodesRun (s : Builder) (m : Build α) (C : Builder → Spot → Option Spot → Prop) : Prop :=
  ∀ t, t.Finished → Later (m.run s).2 t → Later s t ∧ C t s.spot (m.run s).2.spot?

namespace CodesRun

variable {C D : Builder → Spot → Option Spot → Prop} {m : Build α}

theorem imp (h : CodesRun s m C) (himp : ∀ t p r, t.Finished → C t p r → D t p r) :
    CodesRun s m D :=
  fun t ht hlater => (h t ht hlater).imp_right (himp t _ _ ht)

theorem of_eq {m' : Build α} (heq : m.run s = m'.run s) (h : CodesRun s m' C) : CodesRun s m C := by
  unfold CodesRun
  rw [heq]
  exact h

/-- Construction that goes on behind an expression. -/
theorem bind {f : α → Build β} {Q : α → Doms → Builder → Prop}
    {E : Builder → Spot → α → Spot → Prop} {F : α → Builder → Spot → Option Spot → Prop}
    (hm : Makes pend dom s m Q) (hE : Codes s m E)
    (hf : ∀ a dom' s', Step pend dom s dom' s' → s'.current.isSome = true → Q a dom' s' →
      CodesRun s' (f a) (F a)) :
    CodesRun s (m >>= f) fun t p r => ∃ a q, E t p a q ∧ F a t q r := by
  obtain ⟨dom', hstep, hcur, hQ⟩ := hm
  intro t ht hlater
  rw [run_bind] at hlater ⊢
  obtain ⟨hlater, hF⟩ := hf _ dom' _ hstep hcur hQ t ht hlater
  obtain ⟨hlater, hE⟩ := hE t ht hlater
  exact ⟨hlater, _, _, hE, hF⟩

/-- Construction that always goes on behind what it makes. -/
theorem of_codes {Q : α → Doms → Builder → Prop} {E : Builder → Spot → α → Spot → Prop}
    (hm : Makes pend dom s m Q) (hE : Codes s m E) :
    CodesRun s m fun t p r => ∃ a q, r = some q ∧ E t p a q := by
  obtain ⟨dom', _, hcur, _⟩ := hm
  intro t ht hlater
  obtain ⟨hlater, hE⟩ := hE t ht hlater
  exact ⟨hlater, _, _, Builder.spot?_eq hcur, hE⟩

end CodesRun

/-- The code `C` is made wherever the variables `vars` have slots. -/
def Writes (result : Ty) (vars : List Var) (m : Build Unit)
    (C : Builder → Spot → Option Spot → Prop) : Prop :=
  ∀ pend dom s, Ready vars pend dom s → s.func.hasResult = !result.isVoid → CodesRun s m C

/-! Statements without other statements in them -/

/-- A variable gets a slot, and a value is stored into it. -/
theorem codes_bindVar {v : Var} {i : Nat} {pos : Pos} (hs : Ready vars pend dom s) :
    Codes s (Lower.bindVar v i pos) fun t p _ q => BindCode t v i pos p ∧ q = p.skip.next := by
  obtain ⟨c, hc⟩ := Option.isSome_iff_exists.1 hs.current
  have hzero := hs.inv.good.wired.zero_lt
  have hstep := Step.slotted hs.inv v
  have hspot : (s.slotted v).spot = s.spot.skip := by
    rw [Builder.spot_of_current hc, Builder.spot_of_current (s := s.slotted v) hc,
      Builder.func_slotted, Func.body_slot hs.inv.good.coded hzero rfl]
    simp [Spot.skip, Func.inserted]
  have hstore := (Codes.emitWith .store none [s.func.instrs.size, i] pos 0 none hstep.inv hs.current
    (by simp) (by simp)).discard
  intro t ht hlater
  obtain ⟨hlater, _, -, hend, hinstr⟩ := hstore t ht hlater
  have hslot : t.slots.lookup v.pos = some s.func.instrs.size := by
    refine ht.lookup hlater ?_
    rw [Builder.slots_slotted, List.lookup_cons_self]
  rw [hspot] at hend hinstr
  have hcount : s.func.instrs.size = s.spot.count := by rw [Builder.spot_of_current hc]
  rw [hcount] at hslot hinstr
  exact ⟨hlater.slotted hs.inv.good.coded hzero, ⟨hslot, hinstr⟩, hend⟩

theorem writes_bind {Γ : Typed.Context} {x : Typed.Expr} {pos : Pos} {v : Var}
    {term : Typed.TypeTerm} (hΓ : Γ.Sound) (hx : x.Ok Γ vars) :
    Writes result vars (Lower.stmt (Layouts.build Γ.table) (.bind pos v term x))
      fun t p r => StmtCode (Layouts.build Γ.table) t (.bind pos v term x) p r := by
  intro pend dom s hs _
  rw [Lower.stmt]
  refine (CodesRun.bind (computes_expr hΓ hx _ _ _ hs) (codes_expr hΓ hx _ _ _ hs)
    fun i dom₁ s₁ hstep hcur hi =>
      have hs₁ := hs.next hstep hcur
      .of_codes (makes_bindVar hs₁ hi.exists_has) (codes_bindVar hs₁)).imp ?_
  rintro t p r _ ⟨i, q, hi, _, _, rfl, hbind, rfl⟩
  exact .bind hi hbind

theorem writes_assign {Γ : Typed.Context} {x y : Typed.Expr} (hΓ : Γ.Sound) (hx : x.Ok Γ vars)
    (hvariable : x.isVariable = true) (hy : y.Ok Γ vars) :
    Writes result vars (Lower.assign (Layouts.build Γ.table) x y)
      fun t p r => StmtCode (Layouts.build Γ.table) t (.assign x y) p r := by
  intro pend dom s hs _
  have hok := hx.unparen
  unfold Lower.assign
  obtain ⟨id, v, hvar⟩ | ⟨z, sel, f, ty, hfield⟩ := unparen_of_isVariable hvariable
  · rw [hvar] at hok ⊢
    cases hok with
    | var found _ _ =>
        have hv := List.mem_of_find?_eq_some found
        refine (CodesRun.bind (computes_slotOf hv _ _ _ hs) (codes_slotOf hv _ _ _ hs)
          fun slot dom₁ s₁ hstep hcur ⟨p, hp⟩ =>
            have hs₁ := hs.next hstep hcur
            .bind (computes_expr hΓ hy _ _ _ hs₁) (codes_expr hΓ hy _ _ _ hs₁)
              fun i dom₂ s₂ hstep hcur hi =>
                .of_codes (makes_store (hs₁.next hstep hcur) (hstep.slots.subset hp) hi.exists_has)
                  (Codes.emitWith _ _ _ _ _ _ hstep.inv hcur (by simp) (by simp)).discard).imp ?_
        rintro t p r _ ⟨slot, _, ⟨hslot, rfl⟩, i, q, hi, _, _, rfl, _, rfl, rfl, hstore⟩
        exact .assignVar hvar hslot hi hstore
  · rw [hfield] at hok ⊢
    cases hok with
    | field receiver cls found =>
        have hhas := hasField_of_found hΓ.table cls found
        refine (CodesRun.bind (computes_expr hΓ receiver _ _ _ hs) (codes_expr hΓ receiver _ _ _ hs)
          fun obj dom₁ s₁ hstep hcur hobj =>
            have hs₁ := hs.next hstep hcur
            .bind (computes_expr hΓ hy _ _ _ hs₁) (codes_expr hΓ hy _ _ _ hs₁)
              fun i dom₂ s₂ hstep hcur hi =>
                have hs₂ := hs₁.next hstep hcur
                have hobj₂ := hobj.next hstep hcur
                .bind (makes_fieldOffset hhas hs₂) (codes_fieldOffset hhas)
                  fun offset dom₃ s₃ hstep hcur _ =>
                    .of_codes (Makes.emitWith (t := none) hstep.inv hcur (by simp) (by simp)
                      (by simpa using ⟨(hobj₂.next hstep hcur).exists_has,
                        (hi.next hstep hcur).exists_has⟩) fun _ _ => rfl).discard
                      (Codes.emitWith _ _ _ _ _ _ hstep.inv hcur (by simp) (by simp)).discard).imp ?_
        rintro t p r _ ⟨obj, _, hobj, i, q, hi, _, _, ⟨rfl, slot, hslot, rfl⟩, _, _, rfl, _, rfl, rfl,
          hstore⟩
        exact .assignField hfield hobj hi hslot hstore

/-- A return ends the current block. -/
theorem codes_ret {i : Option Nat} (hs : Ready vars pend dom s) :
    CodesRun s (do ret i; enter none) fun t p r => r = none ∧ t.func.Quits p i := by
  obtain ⟨a, ha⟩ := Option.isSome_iff_exists.1 hs.current
  have halt := hs.inv.lt_size ha
  have hopen := hs.inv.opened ha
  intro t ht hlater
  rw [run_bind, run_ret ha, run_enter] at hlater ⊢
  have hquits := Func.quits_ended halt hopen i s.func.instrs.size
  have hkept : (s.func.ended a .ret (i.toList.map some)).Kept t.func := hlater.toKept
  refine ⟨.left hkept (.closed halt hopen.not_ended _ _) hlater.slots fun b hb => ?_, rfl, ?_⟩
  · obtain rfl : a = b := Option.some.inj (ha.symm.trans hb)
    exact ⟨hquits.known, hquits.ended, Func.body_ended ..⟩
  · rw [Builder.spot_of_current ha]
    exact hkept.ending hquits

/-- One is added to a counting variable. -/
theorem codes_increment {slot : Nat} {p : Pos} (hs : Ready vars pend dom s)
    (hslot : (p, slot) ∈ s.slots) :
    Codes s (Lower.increment slot) fun t p _ q => q = p.next.next.next.next ∧
      ∀ b, t.func.Leads q b → CountCode t.func slot p b := by
  obtain ⟨x, hx, hop⟩ := hs.inv.has_slot hs.current hslot
  refine (Codes.emits .load (some .int) [slot] Pos.none 0 none hs (by simp) (by simp)
    (by simpa using ⟨x, hx⟩) (fun _ _ => fault_load hx hop) fun i dom₁ s₁ hstep hcur hi =>
      have hs₁ := hs.next hstep hcur
      .emits .const64 (some .int) [] Pos.none 1 none hs₁ (by simp) (by simp) (by simp)
        (fun _ _ => rfl) fun one dom₂ s₂ hstep hcur hone =>
          have hs₂ := hs₁.next hstep hcur
          .emits .add64 (some .int) [i, one] Pos.none 0 none hs₂ (by simp) (by simp)
            (by
              obtain ⟨v, hv, -⟩ := hi
              obtain ⟨w, hw, -⟩ := hone
              simpa using ⟨⟨v, hstep.has hcur hv⟩, w, hw⟩)
            (fun _ _ => rfl) fun next dom₃ s₃ hstep hcur _ =>
              (Codes.emitWith .store none [slot, next] Pos.none 0 none hstep.inv hcur (by simp)
                (by simp)).discard).imp ?_
  rintro t p _ q _ ⟨hload, hone, hadd, _, _, rfl, hstore⟩
  exact ⟨rfl, fun b hleads => ⟨hload, hone, hadd, hstore, hleads⟩⟩

/-- A counting variable is compared with its last value. -/
theorem codes_compare {slot last : Nat} {p : Pos} (hs : Ready vars pend dom s)
    (hslot : (p, slot) ∈ s.slots) :
    Codes s (do
      let i ← emit .load (some .int) [slot] Pos.none
      emit .leq64 (some .bool) [i, last] Pos.none) fun t p c q => c = p.next.count ∧
        q = p.next.next ∧ t.func.Holds p (p.instr .load (some .int) [slot] Pos.none 0 none) ∧
        t.func.Holds p.next (p.next.instr .leq64 (some .bool) [p.count, last] Pos.none 0 none) := by
  obtain ⟨x, hx, hop⟩ := hs.inv.has_slot hs.current hslot
  refine (Codes.emits .load (some .int) [slot] Pos.none 0 none hs (by simp) (by simp)
    (by simpa using ⟨x, hx⟩) (fun _ _ => fault_load hx hop) fun i dom₁ s₁ hstep hcur hi =>
      .emitWith .leq64 (some .bool) [i, last] Pos.none 0 none hstep.inv hcur (by simp) (by simp)).imp ?_
  rintro t p c q _ ⟨hload, rfl, rfl, htest⟩
  exact ⟨rfl, rfl, hload, htest⟩

/-- A body of a loop is followed by an increment of the counting variable. -/
theorem writes_counted {m : Build Unit} {slot : Nat} {p : Pos}
    {C : Builder → Spot → Option Spot → Prop} (hslot : (p, slot) ∈ s.slots)
    (hm : Flows pend dom s vars m) (hC : CodesRun s m C) : CodesRun s (do
      m
      if (← get).current.isSome then
        Lower.increment slot) fun t p r => ∃ e, C t p e ∧ ∀ x ∈ e, ∃ y ∈ r,
          x.count ≤ y.count ∧ ∀ b, t.func.Leads y b → CountCode t.func slot x b := by
  obtain ⟨dom', hstep, hbound⟩ := hm
  intro t ht hlater
  rw [run_bind, run_ifOpen] at hlater ⊢
  cases hc : (m.run s).2.current with
  | none =>
      rw [hc] at hlater
      obtain ⟨hlater, hC⟩ := hC t ht hlater
      refine ⟨hlater, _, hC, fun x hx => ?_⟩
      simp [Builder.spot?_none hc] at hx
  | some c =>
      rw [hc] at hlater
      rw [if_pos (show (some c).isSome = true from rfl)] at hlater ⊢
      have hcur : (m.run s).2.current.isSome = true := by rw [hc]; rfl
      have hs' : Ready vars pend dom' (m.run s).2 := ⟨hstep.inv, hcur, hbound hcur⟩
      have hslot' := hstep.slots.subset hslot
      obtain ⟨dom'', -, hcur', -⟩ := makes_increment hs' hslot'
      obtain ⟨hlater, hend, hcount⟩ := codes_increment hs' hslot' t ht hlater
      obtain ⟨hlater, hC⟩ := hC t ht hlater
      refine ⟨hlater, _, hC, fun x hx => ⟨_, Builder.spot?_eq hcur', ?_, ?_⟩⟩
      · rw [Builder.spot?_eq hcur] at hx
        obtain rfl := Option.some.inj hx
        rw [hend]
        simp only [Spot.next]
        omega
      · rw [Builder.spot?_eq hcur] at hx
        obtain rfl := Option.some.inj hx
        exact hcount

/-! Statements with a branch -/

theorem grows_zero (f : Func) : f.grows 0 = f := rfl

-- changes of a graph are only known by what they do
attribute [local irreducible] Func.inserted Func.grown Func.without Func.linked Func.ended
  Func.branched Func.grows

/-- What is open gets an edge to the block `done`. -/
theorem links_of_jump {done : Nat} (hs : Inv dom pend s) (hdone : done < s.func.blocks.size)
    (hrun : (jump done).run s = ((), s')) (hkept : s'.func.Kept t.func)
    (hslots : s'.slots ⊆ t.slots) :
    Later s t ∧ s'.func.instrs = s.func.instrs ∧ ∀ e ∈ s.spot?, t.func.Links e done ∧
      e.count = s.func.instrs.size ∧ s'.func.preds done ≠ [] := by
  cases hc : s.current with
  | none =>
      obtain rfl : s = s' := congrArg Prod.snd ((run_jump_none hc done).symm.trans hrun)
      refine ⟨⟨hkept, hslots, by simp [hc]⟩, rfl, fun e he => ?_⟩
      simp [Builder.spot?_none hc] at he
  | some c =>
      obtain rfl : s.withFunc (s.func.linked c done) = s' :=
        congrArg Prod.snd ((run_jump hc done).symm.trans hrun)
      have hclt := hs.lt_size hc
      have hopen := hs.opened hc
      have hlinks := Func.links_linked hclt hopen done s.func.instrs.size
      refine ⟨.left hkept (.linked hclt hdone hopen.not_ended) hslots fun b hb => ?_,
        Func.instrs_linked .., fun e he => ?_⟩
      · obtain rfl : c = b := Option.some.inj (hc.symm.trans hb)
        exact ⟨hlinks.known, hlinks.ended, Func.body_linked ..⟩
      · rw [Builder.spot?_of_current hc, Builder.spot_of_current hc] at he
        obtain rfl := Option.some.inj he
        refine ⟨hkept.ending hlinks, rfl, ?_⟩
        rw [Builder.func_withFunc, Func.preds_linked _ _ _ _ hdone, if_pos rfl]
        simp

/-- New blocks have been made, and the current block ends with a branch to two of them. -/
theorem forks_of_branch {a cond k yes no : Nat} (hs : Inv dom pend s) (ha : s.current = some a)
    (hyes : yes < s.func.blocks.size + k) (hno : no < s.func.blocks.size + k)
    (hlater : ((s.func.grows k).branched a cond yes no).Kept t.func) (hslots : s.slots ⊆ t.slots) :
    Later s t ∧ t.func.Ending s.spot .branch [some cond] [yes, no] := by
  have halt := hs.lt_size ha
  have hgrown : a < (s.func.grows k).blocks.size := by
    rw [Func.size_grows]
    exact Nat.lt_add_right k halt
  have hopen := (hs.opened ha).grows k
  have hends := Func.ending_branched hgrown hopen cond yes no s.func.instrs.size
  rw [Func.body_grows] at hends
  have hkept : s.func.Kept ((s.func.grows k).branched a cond yes no) :=
    (Func.Kept.grows s.func k).trans (.branched hgrown (by rwa [Func.size_grows])
      (by rwa [Func.size_grows]) hopen.not_ended)
  refine ⟨.left hlater hkept hslots fun b hb => ?_, ?_⟩
  · obtain rfl : a = b := Option.some.inj (ha.symm.trans hb)
    exact ⟨hends.known, hends.ended, by rw [Func.body_branched, Func.body_grows]⟩
  · rw [Builder.spot_of_current ha]
    exact hlater.ending hends

/-- New blocks have been made, and the current block leads to one of them. -/
theorem links_of_leap {a b k : Nat} (hs : Inv dom pend s) (ha : s.current = some a)
    (hkept : ((s.func.grows k).linked a b).Kept t.func) : t.func.Links s.spot b := by
  have hlinks := Func.links_linked (f := s.func.grows k)
    (by rw [Func.size_grows]; exact Nat.lt_add_right k (hs.lt_size ha)) ((hs.opened ha).grows k) b
    s.func.instrs.size
  rw [Func.body_grows] at hlinks
  rw [Builder.spot_of_current ha]
  exact hkept.ending hlinks

/-- The start of a block that has just been entered and is empty. -/
theorem spot_entered {b : Nat} (hbody : s.func.body b = []) :
    (s.entered (some b)).spot = ⟨b, 0, s.func.instrs.size⟩ := by
  rw [Builder.spot_of_current rfl, Builder.func_entered, hbody]
  rfl

/-- The code of a path through the new block `b` to the block `done`. -/
theorem codes_path {m : Build Unit} {b : Nat} {C : Builder → Spot → Option Spot → Prop}
    (done : Nat) (hs : Ready vars pend dom (s.entered (some b)))
    (hm : Flows pend dom (s.entered (some b)) vars' m)
    (hC : CodesRun (s.entered (some b)) m C) (hbody : s.func.body b = []) (hb : b ≠ 0)
    (hdone : done < s.func.blocks.size)
    (hrun : (jump done).run (m.run (s.entered (some b))).2 = ((), s')) (ht : t.Finished)
    (hkept : s'.func.Kept t.func) (hslots : s'.slots ⊆ t.slots) :
    Later (s.entered (some b)) t ∧ t.func.Landing b ∧
      s.func.instrs.size ≤ s'.func.instrs.size ∧ ∃ r, C t ⟨b, 0, s.func.instrs.size⟩ r ∧
        ∀ e ∈ r, t.func.Links e done ∧ e.count = s'.func.instrs.size ∧ s'.func.preds done ≠ [] := by
  obtain ⟨dom', hstep, -⟩ := hm
  obtain ⟨hlater, hinstrs, hlinks⟩ := links_of_jump hstep.inv
    (Nat.lt_of_lt_of_le hdone hstep.frame.size) hrun hkept hslots
  obtain ⟨hlater, hCt⟩ := hC t ht hlater
  rw [spot_entered hbody] at hCt
  rw [hinstrs]
  exact ⟨hlater, hlater.landing (hs.inv.lt_size rfl) hb hbody, Func.count_le hstep.frame.instrs,
    _, hCt, hlinks⟩

theorem writes_ifThen {m : Build Unit} {cond : Nat} {C : Builder → Spot → Option Spot → Prop}
    (hm : Executes result vars vars' m) (hC : Writes result vars m C) (hs : Ready vars pend dom s)
    (hresult : s.func.hasResult = !result.isVoid) (hcond : Value .bool cond dom s) :
    CodesRun s (do
      let yes ← newBlock
      let done ← newBlock
      branch cond yes done
      enter (some yes)
      m
      jump done
      Lower.rejoin done) fun t p out => ∃ (side : Bool → Nat) (r : Option Spot) (n : Nat),
        t.func.Forks p cond side ∧ C t ⟨side true, 0, p.count⟩ r ∧ p.count ≤ n ∧
        (∀ e ∈ r, t.func.Leads e (side false) ∧ e.count ≤ n) ∧ out = some ⟨side false, 0, n⟩ := by
  obtain ⟨n, hn⟩ : ∃ n, s.func.blocks.size = n := ⟨_, rfl⟩
  obtain ⟨a, dom₁, s₁, dom₂, s₂, ha, hs₁, h₁, hreach, hbody₁, hrun₂, hbody₂, hstep, hrun⟩ :=
    run_ifThen hm hs hresult hcond hn
  have hready := Stage.ready h₁ hreach hs.bound
  have hresult₁ := (Func.hasResult_congr h₁.frame.head).trans hresult
  have hfunc₁ : s₁.func = (s.func.grows 2).branched a cond n (n + 1) := by
    rw [hs₁, Builder.func_withFunc]
  have hzero : 0 < n := hn ▸ Nat.lt_of_le_of_lt (Nat.zero_le a) (hs.inv.lt_size ha)
  have hcount : s₁.func.instrs.size = s.spot.count := by
    rw [hfunc₁, Func.instrs_branched, Func.instrs_grows, Builder.spot_of_current ha]
  intro t ht hlater
  rw [hrun] at hlater ⊢
  obtain ⟨hlater₁, hyes, hle, r, hr, hlinks⟩ := codes_path (n + 1) hready
    (hm _ _ _ hready hresult₁) (hC _ _ _ hready hresult₁) hbody₁ (by omega)
    (by rw [hfunc₁, Func.size_branched, Func.size_grows]; omega) hrun₂ ht hlater.toKept hlater.slots
  obtain ⟨-, hends⟩ := forks_of_branch hs.inv ha (by omega) (by omega) (hfunc₁ ▸ hlater₁.toKept)
    (List.Subset.trans h₁.more.subset hlater₁.slots)
  have hno := hlater.landing (hstep.inv.lt_size rfl) (by omega) hbody₂
  rw [hcount] at hr hle
  refine ⟨hlater.step hs.inv hstep, fun b => if b then n else n + 1, r, s₂.func.instrs.size,
    ⟨hends, fun b => ?_⟩, hr, hle, fun e he => ?_, ?_⟩
  · cases b
    · exact hno
    · exact hyes
  · obtain ⟨hlink, hcount, -⟩ := hlinks e he
    exact ⟨⟨hlink, hno⟩, Nat.le_of_eq hcount⟩
  · rw [Builder.spot?_of_current rfl, spot_entered hbody₂]
    rfl

/-- Where paths meet construction goes on, unless none gets there. -/
theorem later_rejoin {done : Nat} (hrun : (Lower.rejoin done).run s = ((), s')) (hlater : Later s' t)
    (hbody : s.func.body done = []) (hne : done ≠ 0) :
    s.func.Kept t.func ∧ s.slots ⊆ t.slots ∧ (s.func.preds done ≠ [] →
      t.func.Landing done ∧ s'.spot? = some ⟨done, 0, s.func.instrs.size⟩) := by
  cases hpreds : s.func.preds done with
  | nil =>
      obtain rfl : (s.withFunc (s.func.without done)).entered none = s' :=
        congrArg Prod.snd ((run_rejoin_of_isEmpty hpreds).symm.trans hrun)
      exact ⟨(Func.Kept.without s.func done).trans hlater.toKept, hlater.slots, fun h => absurd rfl h⟩
  | cons x rest =>
      obtain rfl : s.entered (some done) = s' :=
        congrArg Prod.snd ((run_rejoin_of_cons hpreds).symm.trans hrun)
      have hlt : done < s.func.blocks.size := by
        by_contra hle
        simp [Func.preds, Func.block?, hle] at hpreds
      refine ⟨hlater.toKept, hlater.slots, fun _ => ⟨hlater.landing hlt hne hbody, ?_⟩⟩
      rw [Builder.spot?_of_current rfl, spot_entered hbody]

theorem writes_ifElse {m m' : Build Unit} {cond : Nat} {vars₁ vars₂ : List Var}
    {C D : Builder → Spot → Option Spot → Prop} (hm : Executes result vars vars₁ m)
    (hm' : Executes result vars vars₂ m') (hC : Writes result vars m C) (hD : Writes result vars m' D)
    (hs : Ready vars pend dom s) (hresult : s.func.hasResult = !result.isVoid)
    (hcond : Value .bool cond dom s) :
    CodesRun s (do
      let yes ← newBlock
      let done ← newBlock
      let no ← newBlock
      branch cond yes no
      enter (some yes)
      m
      jump done
      enter (some no)
      m'
      jump done
      Lower.rejoin done) fun t p out => ∃ (side : Bool → Nat) (r r' : Option Spot) (k : Nat),
        t.func.Forks p cond side ∧ C t ⟨side true, 0, p.count⟩ r ∧ p.count ≤ k ∧
        D t ⟨side false, 0, k⟩ r' ∧ ∀ e, e ∈ r ∨ e ∈ r' → ∃ d n, out = some ⟨d, 0, n⟩ ∧
          t.func.Leads e d ∧ e.count ≤ n ∧ k ≤ n := by
  obtain ⟨n, hn⟩ : ∃ n, s.func.blocks.size = n := ⟨_, rfl⟩
  obtain ⟨a, dom₁, s₁, dom₂, s₂, dom₃, s₃, s₄, ha, hs₁, h₁, hreach₁, hbody₁, hrun₂, h₂, hreach₂,
    hbody₂, hrun₃, hbody₃, hpreds, hrun₄, hstep, hrun⟩ := run_ifElse hm hm' hs hresult hcond hn
  have hready₁ := Stage.ready h₁ hreach₁ hs.bound
  have hresult₁ := (Func.hasResult_congr h₁.frame.head).trans hresult
  have hready₂ := Stage.ready h₂ hreach₂ hs.bound
  have hresult₂ := (Func.hasResult_congr h₂.frame.head).trans hresult
  have hfunc₁ : s₁.func = (s.func.grows 3).branched a cond n (n + 2) := by
    rw [hs₁, Builder.func_withFunc]
  have hzero : 0 < n := hn ▸ Nat.lt_of_le_of_lt (Nat.zero_le a) (hs.inv.lt_size ha)
  have hcount : s₁.func.instrs.size = s.spot.count := by
    rw [hfunc₁, Func.instrs_branched, Func.instrs_grows, Builder.spot_of_current ha]
  have hdone₂ : n + 1 < s₂.func.blocks.size :=
    h₂.good.wired.known _ (h₂.good.closed.order _ (by simp))
  intro t ht hlater
  rw [hrun] at hlater ⊢
  obtain ⟨hkept₃, hslots₃, hmeet⟩ := later_rejoin hrun₄ hlater hbody₃ (by omega)
  obtain ⟨hlater₂, hno, hle₃, r', hr', hlinks'⟩ := codes_path (n + 1) hready₂
    (hm' _ _ _ hready₂ hresult₂) (hD _ _ _ hready₂ hresult₂) hbody₂ (by omega) hdone₂ hrun₃ ht hkept₃
    hslots₃
  obtain ⟨hlater₁, hyes, hle₂, r, hr, hlinks⟩ := codes_path (n + 1) hready₁
    (hm _ _ _ hready₁ hresult₁) (hC _ _ _ hready₁ hresult₁) (hbody₁ n (Nat.le_refl n)) (by omega)
    (by rw [hfunc₁, Func.size_branched, Func.size_grows]; omega) hrun₂ ht hlater₂.toKept hlater₂.slots
  obtain ⟨-, hends⟩ := forks_of_branch hs.inv ha (by omega) (by omega) (hfunc₁ ▸ hlater₁.toKept)
    (List.Subset.trans h₁.more.subset hlater₁.slots)
  rw [hcount] at hr hle₂
  refine ⟨hlater.step hs.inv hstep, fun b => if b then n else n + 2, r, r', s₂.func.instrs.size,
    ⟨hends, fun b => ?_⟩, hr, hle₂, hr', fun e he => ⟨n + 1, s₃.func.instrs.size, ?_⟩⟩
  · cases b
    · exact hno
    · exact hyes
  · -- a path that gets to its end leads to where the paths meet
    rcases he with he | he
    · obtain ⟨hlink, hcount, hpred⟩ := hlinks e he
      obtain ⟨hland, hspot⟩ := hmeet (hpreds.ne_nil hpred)
      exact ⟨hspot, ⟨hlink, hland⟩, hcount ▸ hle₃, hle₃⟩
    · obtain ⟨hlink, hcount, hpred⟩ := hlinks' e he
      obtain ⟨hland, hspot⟩ := hmeet hpred
      exact ⟨hspot, ⟨hlink, hland⟩, Nat.le_of_eq hcount, hle₃⟩

theorem writes_loop {test : Build Nat} {m : Build Unit} {C : Builder → Spot → Nat → Spot → Prop}
    {D : Builder → Spot → Option Spot → Prop} (hs : Ready vars pend dom s)
    (htest : ∀ rest dom' s', Ready vars rest dom' s' → s.slots <:+ s'.slots →
      (∀ i v, Has dom s i v → Has dom' s' i v) →
      Makes rest dom' s' test (Value .bool) ∧ Codes s' test C)
    (hm : ∀ rest dom' s', Ready vars rest dom' s' → s.slots <:+ s'.slots →
      s'.func.hasResult = s.func.hasResult → Flows rest dom' s' vars m ∧ CodesRun s' m D) :
    CodesRun s (do
      let header ← newBlock
      let inside ← newBlock
      let done ← newBlock
      jump header
      enter (some header)
      let c ← test
      branch c inside done
      enter (some inside)
      m
      jump header
      enter (some done)) fun t p out => ∃ (header c n : Nat) (side : Bool → Nat) (q : Spot)
        (r : Option Spot), t.func.Leads p header ∧ C t ⟨header, 0, p.count⟩ c q ∧
        t.func.Forks q c side ∧ D t ⟨side true, 0, q.count⟩ r ∧ q.count ≤ n ∧
        (∀ e ∈ r, t.func.Links e header ∧ e.count ≤ n) ∧ out = some ⟨side false, 0, n⟩ := by
  obtain ⟨n, hn⟩ : ∃ n, s.func.blocks.size = n := ⟨_, rfl⟩
  obtain ⟨a, dom₁, s₁, c, s₂, dom₃, s₃, dom₄, s₄, ha, hs₁, h₁, hreach₁, hkeep, hrun₂, hrun₃, h₃,
    hreach₃, hbody₃, hrun₄, hbody₄, hstep, hrun⟩ :=
    run_loop test m hs (fun rest dom' s' h h' h'' => (htest rest dom' s' h h' h'').1)
      (fun rest dom' s' h h' h'' => (hm rest dom' s' h h' h'').1) hn
  have hzero : 0 < n := hn ▸ Nat.lt_of_le_of_lt (Nat.zero_le a) (hs.inv.lt_size ha)
  have hfunc₁ : s₁.func = (s.func.grows 3).linked a n := by rw [hs₁, Builder.func_withFunc]
  have hcount₁ : s₁.func.instrs.size = s.spot.count := by
    rw [hfunc₁, Func.instrs_linked, Func.instrs_grows, Builder.spot_of_current ha]
  have hbody₁ : s₁.func.body n = [] := by
    rw [hfunc₁, Func.body_linked, Func.body_grows, Func.body, Func.values_nil _ _ (Nat.le_of_eq hn),
      List.filter_nil]
  have hready₁ := Stage.ready h₁ hreach₁ hs.bound
  obtain ⟨htests, htestCode⟩ := htest _ _ _ hready₁ h₁.more hkeep
  obtain ⟨dom₂, hstep₂, hcur₂, -⟩ := htests
  rw [hrun₂] at hstep₂ hcur₂
  have hinv₂ : Inv dom₂ ((n + 1) :: (n + 2) :: pend) s₂ := hstep₂.inv
  obtain ⟨e, he⟩ : ∃ e, s₂.current = some e := Option.isSome_iff_exists.1 hcur₂
  have hready₃ := Stage.ready h₃ hreach₃ hs.bound
  obtain ⟨hflows, hcode⟩ := hm _ _ _ hready₃ h₃.more (Func.hasResult_congr h₃.frame.head)
  have hfunc₃ : s₃ = s₂.withFunc ((s₂.func.grows 0).branched e c (n + 1) (n + 2)) := by
    rw [grows_zero]
    exact congrArg Prod.snd (hrun₃.symm.trans (run_branch he c (n + 1) (n + 2)))
  have hdone₃ : n + 2 < s₃.func.blocks.size :=
    h₃.good.wired.known _ (h₃.good.closed.order _ (by simp))
  intro t ht hlater
  rw [hrun] at hlater ⊢
  obtain ⟨hlater₃, hyes, hle, r, hr, hlinks⟩ := codes_path n hready₃ hflows hcode hbody₃
    (by omega) (by omega) hrun₄ ht hlater.toKept hlater.slots
  have hno := hlater.landing (hstep.inv.lt_size rfl) (by omega) hbody₄
  have hsize₂ : s₂.func.blocks.size = s₃.func.blocks.size := by
    rw [hfunc₃, Builder.func_withFunc, Func.size_branched, grows_zero]
  have hkept₃ : ((s₂.func.grows 0).branched e c (n + 1) (n + 2)).Kept t.func := by
    have hkept := hlater₃.toKept
    rw [hfunc₃] at hkept
    exact hkept
  have hslots₃ : s₂.slots ⊆ t.slots := by
    have hslots := hlater₃.slots
    rw [hfunc₃] at hslots
    exact hslots
  obtain ⟨hlater₂, hends⟩ := forks_of_branch hinv₂ he (by omega) (by omega) hkept₃ hslots₃
  obtain ⟨hlater₁, hC⟩ := htestCode t ht (by rw [hrun₂]; exact hlater₂)
  rw [hrun₂, spot_entered hbody₁, hcount₁] at hC
  have hheader := hlater₁.landing (hready₁.inv.lt_size rfl) (by omega) hbody₁
  have hcount₃ : s₃.func.instrs.size = s₂.spot.count := by
    rw [hfunc₃, Builder.func_withFunc, Func.instrs_branched, grows_zero,
      Builder.spot_of_current he]
  rw [hcount₃] at hr hle
  refine ⟨hlater.step hs.inv hstep, n, c, s₄.func.instrs.size,
    fun b => if b then n + 1 else n + 2, s₂.spot, r,
    ⟨links_of_leap hs.inv ha (hfunc₁ ▸ hlater₁.toKept), hheader⟩, hC, ⟨hends, fun b => ?_⟩, hr, hle,
    fun e he => ?_, ?_⟩
  · cases b
    · exact hno
    · exact hyes
  · obtain ⟨hlink, hcount, -⟩ := hlinks e he
    exact ⟨hlink, Nat.le_of_eq hcount⟩
  · rw [Builder.spot?_of_current rfl, spot_entered hbody₄]
    rfl

theorem writes_forLoop {Γ : Typed.Context} {pos start : Pos} {v : Var} {low high : Typed.Expr}
    {b : List Typed.Stmt} (hΓ : Γ.Sound) (hlow : low.Ok Γ vars) (hhigh : high.Ok Γ vars)
    (hbody : Executes result (v :: vars) vars' (Lower.stmts (Layouts.build Γ.table) b))
    (hC : Writes result (v :: vars) (Lower.stmts (Layouts.build Γ.table) b) fun t p r =>
      StmtsCode (Layouts.build Γ.table) t b p r) :
    Writes result vars (Lower.stmt (Layouts.build Γ.table) (.forLoop pos v start low high (.mk b)))
      fun t p r => StmtCode (Layouts.build Γ.table) t (.forLoop pos v start low high (.mk b)) p r := by
  intro pend dom s hs hresult
  rw [Lower.stmt]
  simp only [counting_eq]
  refine (CodesRun.bind (computes_expr hΓ hlow _ _ _ hs) (codes_expr hΓ hlow _ _ _ hs)
    fun first dom₁ s₁ hstep hcur hfirst =>
      have hs₁ := hs.next hstep hcur
      have hresult₁ := (Step.hasResult hstep).trans hresult
      .bind (computes_expr hΓ hhigh _ _ _ hs₁) (codes_expr hΓ hhigh _ _ _ hs₁)
        fun last dom₂ s₂ hstep hcur hlast =>
          have hs₂ := hs₁.next hstep hcur
          have hresult₂ := (Step.hasResult hstep).trans hresult₁
          .bind (makes_bindVar hs₂ (hfirst.next hstep hcur).exists_has) (codes_bindVar hs₂)
            fun _ dom₃ s₃ hstep hcur hbound =>
              have hs₃ : Ready (v :: vars) pend dom₃ s₃ := ⟨hstep.inv, hcur, hbound⟩
              have hresult₃ := (Step.hasResult hstep).trans hresult₂
              .bind (computes_slotOf (List.mem_cons_self) _ _ _ hs₃)
                (codes_slotOf (List.mem_cons_self) _ _ _ hs₃)
                fun slot dom₄ s₄ hstep' hcur' ⟨p, hp⟩ =>
                  writes_loop (hs₃.next hstep' hcur')
                    (fun rest dom' s' hs' hslots hkeep =>
                      ⟨makes_compare hs' (hslots.subset hp) (by
                        obtain ⟨w, hw⟩ := ((hlast.next hstep hcur).next hstep' hcur').exists_has
                        exact ⟨w, hkeep last w hw⟩), codes_compare hs' (hslots.subset hp)⟩)
                    fun rest dom' s' hs' hslots heq =>
                      have hresult' := heq.trans ((Step.hasResult hstep').trans hresult₃)
                      have hflows : Flows rest dom' s' (v :: vars) _ :=
                        (hbody _ _ _ hs' hresult').close hs'
                      ⟨flows_counted (hslots.subset hp) hflows,
                        writes_counted (hslots.subset hp) hflows (hC _ _ _ hs' hresult')⟩).imp ?_
  rintro t p r _ ⟨first, q, hfirst, last, q', hlast, _, _, ⟨hbind, rfl⟩, slot, _, ⟨hslot, rfl⟩,
    header, c, n, side, _, e', hleads, ⟨rfl, rfl, hload, htest⟩, hfork, ⟨e, hbody, hcount⟩, hle, hends,
    rfl⟩
  obtain rfl : slot = q'.count := Option.some.inj (hslot.symm.trans hbind.slot)
  refine .forLoop hfirst hlast hbind hleads rfl hload htest hfork hbody hle fun x hx => ?_
  obtain ⟨y, hy, hxy, hcode⟩ := hcount x hx
  obtain ⟨hlinks, hyn⟩ := hends y hy
  exact ⟨hcode header ⟨hlinks, hleads.landing⟩, Nat.le_trans hxy hyn⟩

theorem writes_cons {st : Typed.Stmt} {rest : List Typed.Stmt} (hs : Ready vars pend dom s)
    (hm : Flows pend dom s vars' (Lower.stmt ls st))
    (hC : CodesRun s (Lower.stmt ls st) fun t p r => StmtCode ls t st p r)
    (hrest : ∀ dom' s', Step pend dom s dom' s' → Ready vars' pend dom' s' →
      CodesRun s' (Lower.stmts ls rest) fun t p r => StmtsCode ls t rest p r) :
    CodesRun s (Lower.stmts ls (st :: rest)) fun t p r => StmtsCode ls t (st :: rest) p r := by
  refine .of_eq (run_stmts_cons hs.current) fun t ht hlater => ?_
  obtain ⟨dom', hstep, hbound⟩ := hm
  rw [run_bind] at hlater ⊢
  cases hc : ((Lower.stmt ls st).run s).2.current with
  | none =>
      rw [run_stmts_none hc] at hlater ⊢
      obtain ⟨hlater, hC⟩ := hC t ht hlater
      rw [Builder.spot?_none hc] at hC ⊢
      exact ⟨hlater, .last hC⟩
  | some c =>
      have hcur : ((Lower.stmt ls st).run s).2.current.isSome = true := by rw [hc]; rfl
      obtain ⟨hlater, hD⟩ := hrest dom' _ hstep ⟨hstep.inv, hcur, hbound hcur⟩ t ht hlater
      obtain ⟨hlater, hC⟩ := hC t ht hlater
      rw [Builder.spot?_eq hcur] at hC
      exact ⟨hlater, .cons hC hD⟩

mutual

/-- Construction makes the code of every well typed statement. -/
theorem writes_stmt {Γ : Typed.Context} (hΓ : Γ.Sound) {result : Ty} {st : Typed.Stmt}
    {vars vars' : List Var} (h : Typed.Stmt.Ok Γ result vars st vars') :
    Writes result vars (Lower.stmt (Layouts.build Γ.table) st) fun t p r =>
      StmtCode (Layouts.build Γ.table) t st p r := by
  cases h with
  | empty =>
      intro pend dom s hs _ t ht hlater
      rw [Lower.stmt] at hlater ⊢
      exact ⟨hlater, Builder.spot?_eq hs.current ▸ .empty⟩
  | expr ok _ =>
      intro pend dom s hs _
      rw [Lower.stmt]
      refine (CodesRun.of_codes (computes_expr hΓ ok _ _ _ hs).discard
        (codes_expr hΓ ok _ _ _ hs).discard).imp ?_
      rintro t p r _ ⟨_, q, rfl, i, hi⟩
      exact .expr hi
  | bind ok _ _ _ => exact writes_bind hΓ ok
  | assign left assignable right _ =>
      rw [Lower.stmt]
      exact writes_assign hΓ left assignable right
  | block body =>
      intro pend dom s hs hresult
      rw [Lower.stmt, Lower.block]
      exact (writes_stmts hΓ body _ _ _ hs hresult).imp fun t p r _ hb => .block hb
  | ifThen ok bool body =>
      intro pend dom s hs hresult
      rw [Lower.stmt]
      refine (CodesRun.bind (computes_expr hΓ ok _ _ _ hs) (codes_expr hΓ ok _ _ _ hs)
        fun c dom₁ s₁ hstep hcur hc => by
          rw [bool] at hc
          rw [Lower.block]
          exact writes_ifThen (executes_stmts hΓ body) (writes_stmts hΓ body) (hs.next hstep hcur)
            ((Step.hasResult hstep).trans hresult) hc).imp ?_
      rintro t p out _ ⟨c, q, hc, side, r, n, hfork, hbody, hle, hends, rfl⟩
      exact .ifThen hc hfork hbody hle hends
  | ifElse ok bool body alternative =>
      intro pend dom s hs hresult
      rw [Lower.stmt]
      refine (CodesRun.bind (computes_expr hΓ ok _ _ _ hs) (codes_expr hΓ ok _ _ _ hs)
        fun c dom₁ s₁ hstep hcur hc => by
          rw [bool] at hc
          rw [Lower.block]
          exact writes_ifElse (executes_stmts hΓ body) (executes_stmt hΓ alternative)
            (writes_stmts hΓ body) (writes_stmt hΓ alternative) (hs.next hstep hcur)
            ((Step.hasResult hstep).trans hresult) hc).imp ?_
      rintro t p out _ ⟨c, q, hc, side, r, r', k, hfork, hbody, hle, hother, hends⟩
      exact .ifElse hc hfork hbody hle hother hends
  | whileLoop ok bool body =>
      intro pend dom s hs hresult
      rw [Lower.stmt, Lower.block]
      refine (writes_loop hs (fun rest dom' s' hs' _ _ =>
        ⟨bool ▸ computes_expr hΓ ok _ _ _ hs', codes_expr hΓ ok _ _ _ hs'⟩)
        fun rest dom' s' hs' _ heq =>
          ⟨(executes_stmts hΓ body _ _ _ hs' (heq.trans hresult)).close hs',
            writes_stmts hΓ body _ _ _ hs' (heq.trans hresult)⟩).imp ?_
      rintro t p out _ ⟨header, c, n, side, q, r, hleads, hc, hfork, hbody, hle, hends, rfl⟩
      exact .whileLoop hleads hc hfork hbody hle fun e he =>
        ⟨⟨(hends e he).1, hleads.landing⟩, (hends e he).2⟩
  | forLoop lowOk _ highOk _ _ body =>
      exact writes_forLoop hΓ lowOk highOk (executes_stmts hΓ body) (writes_stmts hΓ body)
  | ret void =>
      intro pend dom s hs hresult
      rw [Lower.stmt]
      refine (codes_ret (i := none) hs).imp ?_
      rintro t p r _ ⟨rfl, hquits⟩
      exact .ret hquits
  | retValue ok value _ =>
      intro pend dom s hs hresult
      rw [Lower.stmt]
      refine (CodesRun.bind (computes_expr hΓ ok _ _ _ hs) (codes_expr hΓ ok _ _ _ hs)
        fun i dom₁ s₁ hstep hcur hi => codes_ret (i := some i) (hs.next hstep hcur)).imp ?_
      rintro t p r _ ⟨i, q, hi, rfl, hquits⟩
      exact .retValue hi hquits

/-- Construction makes the code of every well typed block. -/
theorem writes_stmts {Γ : Typed.Context} (hΓ : Γ.Sound) {result : Ty} {b : List Typed.Stmt}
    {vars vars' : List Var} (h : Typed.StmtsOk Γ result vars b vars') :
    Writes result vars (Lower.stmts (Layouts.build Γ.table) b) fun t p r =>
      StmtsCode (Layouts.build Γ.table) t b p r := by
  cases h with
  | nil =>
      intro pend dom s hs _ t ht hlater
      rw [Lower.stmts] at hlater ⊢
      exact ⟨hlater, Builder.spot?_eq hs.current ▸ .nil⟩
  | cons first rest_ok =>
      intro pend dom s hs hresult
      exact writes_cons hs (executes_stmt hΓ first _ _ _ hs hresult)
        (writes_stmt hΓ first _ _ _ hs hresult) fun dom' s' hstep hs' =>
          writes_stmts hΓ rest_ok _ _ _ hs' ((Step.hasResult hstep).trans hresult)

end

end Build

end ClassLang.Graph
