import ClassLang.Proofs.Graph.Expr
import ClassLang.Proofs.Graph.Returns

/-!
Well typed statements are run without a fault.
-/

namespace ClassLang.Graph

namespace Func

/-- Whether a function has a result is said by its head. -/
theorem hasResult_congr {f f' : Func} (h : f'.head = f.head) : f'.hasResult = f.hasResult := by
  have hsig : f'.sig = f.sig := congrArg (·.2.2.1) h
  rw [hasResult, hasResult, hsig]

end Func

namespace Build

open Builder (Inv Step Has Stage Value Mine)
open Func (Blank Target)

variable {α : Type} {pend : List Nat} {dom : Doms} {s : Builder} {vars vars' : List Var}
  {result : Ty}

/-- What the construction `m` of statements does from `s` on. If it goes on behind it the
variables `vars'` have slots. -/
def Flows (pend : List Nat) (dom : Doms) (s : Builder) (vars' : List Var) (m : Build Unit) :
    Prop :=
  ∃ dom', Step pend dom s dom' (m.run s).2 ∧
    ((m.run s).2.current.isSome = true → Bound vars' (m.run s).2)

/-- What can be run in a function with the result type `result` wherever the variables
`vars` have slots. -/
def Executes (result : Ty) (vars vars' : List Var) (m : Build Unit) : Prop :=
  ∀ pend dom s, Ready vars pend dom s → s.func.hasResult = !result.isVoid →
    Flows pend dom s vars' m

theorem Step.hasResult {dom' : Doms} {s' : Builder} (h : Step pend dom s dom' s') :
    s'.func.hasResult = s.func.hasResult := Func.hasResult_congr h.frame.head

namespace Flows

theorem bind {m : Build α} {f : α → Build Unit} {Q : α → Doms → Builder → Prop}
    (hm : Makes pend dom s m Q)
    (hf : ∀ a dom' s', Step pend dom s dom' s' → s'.current.isSome = true → Q a dom' s' →
      Flows pend dom' s' vars' (f a)) : Flows pend dom s vars' (m >>= f) := by
  obtain ⟨a, s', dom', hrun, hstep, hcur, hQ⟩ := hm.exists_run
  obtain ⟨dom'', hstep', hbound⟩ := hf a dom' s' hstep hcur hQ
  have hbind : (m >>= f).run s = (f a).run s' := by rw [run_bind, hrun]
  refine ⟨dom'', ?_⟩
  rw [hbind]
  exact ⟨hstep.trans hstep' hcur, hbound⟩

theorem of_makes {m : Build Unit} (h : Makes pend dom s m fun _ _ s' => Bound vars' s') :
    Flows pend dom s vars' m := by
  obtain ⟨_, s', dom', hrun, hstep, _, hbound⟩ := h.exists_run
  refine ⟨dom', ?_⟩
  rw [hrun]
  exact ⟨hstep, fun _ => hbound⟩

theorem of_same {m : Build Unit} (hs : Ready vars pend dom s)
    (h : Makes pend dom s m fun _ _ _ => True) : Flows pend dom s vars m :=
  .of_makes (h.imp fun _ _ _ hstep _ => hs.bound.mono hstep.slots)

theorem of_eq {m m' : Build Unit} (heq : m.run s = m'.run s)
    (h : Flows pend dom s vars' m') : Flows pend dom s vars' m := by
  unfold Flows
  rw [heq]
  exact h

/-- What has been declared goes out of sight. -/
theorem close {m : Build Unit} (hs : Ready vars pend dom s)
    (h : Flows pend dom s vars' m) : Flows pend dom s vars m := by
  obtain ⟨dom', hstep, _⟩ := h
  exact ⟨dom', hstep, fun _ => hs.bound.mono hstep.slots⟩

/-- The innermost variables go out of sight. -/
theorem narrow {m : Build Unit} {vars'' : List Var} (h : Flows pend dom s vars'' m)
    (hsub : vars' ⊆ vars'') : Flows pend dom s vars' m := by
  obtain ⟨dom', hstep, hbound⟩ := h
  exact ⟨dom', hstep, fun hcur v hv => hbound hcur v (hsub hv)⟩

/-- What follows a statement is skipped where the statement returns. -/
theorem andThen {m m' : Build Unit} {vars'' : List Var} (h : Flows pend dom s vars' m)
    (hnext : ∀ dom' s', Step pend dom s dom' s' → Ready vars' pend dom' s' →
      Flows pend dom' s' vars'' m')
    (hskip : ∀ s', s'.current = none → m'.run s' = ((), s')) :
    Flows pend dom s vars'' (do m; m') := by
  obtain ⟨dom', hstep, hbound⟩ := h
  obtain ⟨s', hs'⟩ : ∃ s', (m.run s).2 = s' := ⟨_, rfl⟩
  have hrun : (do m; m' : Build Unit).run s = m'.run s' := by rw [run_bind, hs']
  rw [hs'] at hstep hbound
  cases hc : s'.current with
  | none =>
      refine ⟨dom', ?_⟩
      rw [hrun, hskip s' hc]
      exact ⟨hstep, by simp [hc]⟩
  | some c =>
      have hcur : s'.current.isSome = true := by rw [hc]; rfl
      obtain ⟨dom'', hstep', hbound'⟩ := hnext dom' s' hstep ⟨hstep.inv, hcur, hbound hcur⟩
      refine ⟨dom'', ?_⟩
      rw [hrun]
      exact ⟨hstep.trans hstep' hcur, hbound'⟩

theorem of_run {m : Build Unit} {dom' : Doms} {s' : Builder} (hs : Ready vars pend dom s)
    (hrun : m.run s = ((), s')) (hstep : Step pend dom s dom' s') : Flows pend dom s vars m := by
  refine ⟨dom', ?_⟩
  rw [hrun]
  exact ⟨hstep, fun _ => hs.bound.mono hstep.slots⟩

end Flows

/-! Paths through new blocks -/

theorem grows_two (f : Func) : f.grows 2 = f.grown.grown := rfl

/-- What the path through block `b` to block `done` leaves alone. -/
structure Around (b done : Nat) (dom : Doms) (s : Builder) (dom' : Doms) (s' : Builder) :
    Prop where
  size : s.func.blocks.size ≤ s'.func.blocks.size
  doms : ∀ c < s.func.blocks.size, dom' c = dom c
  target : ∀ c, s.func.Target c → s'.func.Target c
  preds : ∀ c < s.func.blocks.size, c ≠ done → s'.func.preds c = s.func.preds c
  body : ∀ c < s.func.blocks.size, c ≠ b → s'.func.body c = s.func.body c
  into : s.func.preds done <+: s'.func.preds done

-- changes of a graph are only known by what they do
attribute [local irreducible] Func.inserted Func.grown Func.without Func.linked Func.ended
  Func.branched Func.grows

/-- A path through the new block `b` to the new block `done`. -/
theorem run_path {m : Build Unit} {dom' : Doms} {s' : Builder} (b done : Nat) (rest : List Nat)
    (hm : Ready vars rest dom' (s'.entered (some b)) →
      (s'.entered (some b)).func.hasResult = s.func.hasResult →
      Flows rest dom' (s'.entered (some b)) vars' m)
    (h : Stage dom s dom' (b :: rest) s') (hb : s.func.blocks.size ≤ b)
    (hreach : s'.func.Reach b) (hdone : s'.func.Target done) (hnew : s.func.blocks.size ≤ done)
    (hdom : dom' done ⊆ b :: dom' b) (hbound : Bound vars s') :
    ∃ dom'' s'', (jump done).run (m.run (s'.entered (some b))).2 = ((), s'') ∧ Stage dom s dom'' rest s'' ∧
      Around b done dom' s' dom'' s'' := by
  have hcur : (s'.entered (some b)).current = some b := rfl
  have henter := h.enter (some b)
  have hmine : ∀ c ∈ (s'.entered (some b)).current, s.Mine c := fun c hc => by
    obtain rfl : b = c := Option.some.inj (hcur.symm.trans hc)
    exact Or.inr hb
  have hinv : Builder.Inv dom' rest (s'.entered (some b)) := by
    refine henter.inv (.refl _) fun c hc => ?_
    obtain rfl : b = c := Option.some.inj (hcur.symm.trans hc)
    exact hreach
  obtain ⟨dom'', hstep, _⟩ := hm ⟨hinv, rfl, hbound⟩ (Func.hasResult_congr h.frame.head)
  obtain ⟨s₁, hs₁⟩ : ∃ s₁, (m.run (s'.entered (some b))).2 = s₁ := ⟨_, rfl⟩
  rw [hs₁] at hstep ⊢
  have hstage := henter.followed hmine hstep
  have hlt : ∀ c, s'.func.Target c → c < s'.func.blocks.size := fun c hc =>
    h.good.wired.known c hc.order
  have htarget : ∀ c, s'.func.Target c → s₁.func.Target c := fun c hc =>
    hc.frame hstep.frame (hlt c hc)
  have hbody : ∀ c < s'.func.blocks.size, c ≠ b → s₁.func.body c = s'.func.body c :=
    fun c hc hne => (hstep.frame.others c hc (by simpa using hne)).2.2.2
  cases hc : s₁.current with
  | none =>
      rw [hc] at hstage
      refine ⟨dom'', s₁, run_jump_none hc done, hstage, ⟨hstep.frame.size, hstep.frame.doms, htarget,
        fun c hc _ => hstep.frame.preds c hc, hbody, ?_⟩⟩
      rw [hstep.frame.preds done (hlt _ hdone)]
      exact List.prefix_refl _
  | some c =>
      rw [hc] at hstage
      have hcdom : dom'' done ⊆ c :: dom'' c := by
        rw [hstep.frame.doms done (hlt _ hdone)]
        exact fun x hx => hstep.deeper b rfl c hc (hdom hx)
      have hlink := hstage.link (a := c) (by simp) (henter.mine hmine hstep c hc)
        (hstep.inv.reach c hc) (htarget done hdone) hnew hcdom
      rw [Option.toList_some, List.singleton_append, List.erase_cons_head] at hlink
      have hdonelt : done < s₁.func.blocks.size := Nat.lt_of_lt_of_le (hlt _ hdone) hstep.frame.size
      refine ⟨dom'', _, run_jump hc done, hlink, ⟨?_, hstep.frame.doms, fun x hx => ?_,
        fun x hx hne => ?_, fun x hx hne => ?_, ?_⟩⟩
      · rw [Builder.func_withFunc, Func.size_linked]
        exact hstep.frame.size
      · exact (htarget x hx).congr (Func.order_linked ..) fun i => Func.instr?_linked ..
      · rw [Builder.func_withFunc, Func.preds_linked _ _ _ _ hdonelt, if_neg (Ne.symm hne)]
        exact hstep.frame.preds x hx
      · rw [Builder.func_withFunc, Func.body_linked]
        exact hbody x hx hne
      · rw [Builder.func_withFunc, Func.preds_linked _ _ _ _ hdonelt, if_pos rfl,
          hstep.frame.preds done (hlt _ hdone)]
        exact List.prefix_append _ _

/-- Where two paths meet construction goes on, unless neither gets there. -/
theorem run_rejoin {dom' : Doms} {s' : Builder} {done : Nat}
    (h : Stage dom s dom' (done :: pend) s') (hnew : s.func.blocks.size ≤ done)
    (hdone : s'.func.Target done) (hbody : s'.func.body done = [])
    (hdom : ∀ a ∈ s.current, a :: dom a ⊆ done :: dom' done) :
    ∃ s'', (Lower.rejoin done).run s' = ((), s'') ∧ Step pend dom s dom' s'' := by
  cases hpreds : s'.func.preds done with
  | nil =>
      have hremove := h.remove (b := done) (by simp) ⟨hdone, hpreds, hbody⟩ hnew
      rw [List.erase_cons_head] at hremove
      exact ⟨_, run_rejoin_of_isEmpty hpreds,
        (hremove.enter none).step (.refl _) (by simp) (by simp) (by simp)⟩
  | cons p rest =>
      have hreach : s'.func.Reach done := h.good.reach_of_pred (a := p) (by simp [hpreds])
      refine ⟨_, run_rejoin_of_cons hpreds, (h.enter _).step (.refl _) ?_ ?_ ?_⟩
      · intro c hc
        obtain rfl : done = c := Option.some.inj hc
        exact hreach
      · intro c hc
        obtain rfl : done = c := Option.some.inj hc
        exact Or.inr hnew
      · intro a ha c hc
        obtain rfl : done = c := Option.some.inj hc
        exact hdom a ha

/-- A statement with one branch: a new block for it, and another where the paths meet. -/
theorem run_ifThen {m : Build Unit} {cond n : Nat} (hm : Executes result vars vars' m)
    (hs : Ready vars pend dom s) (hresult : s.func.hasResult = !result.isVoid)
    (hcond : Value .bool cond dom s) (hn : s.func.blocks.size = n) :
    ∃ a dom₁ s₁ dom₂ s₂, s.current = some a ∧
      s₁ = s.withFunc ((s.func.grows 2).branched a cond n (n + 1)) ∧
      Stage dom s dom₁ (n :: (n + 1) :: pend) s₁ ∧ s₁.func.Reach n ∧ s₁.func.body n = [] ∧
      (jump (n + 1)).run (m.run (s₁.entered (some n))).2 = ((), s₂) ∧ s₂.func.body (n + 1) = [] ∧
      Step pend dom s dom₂ (s₂.entered (some (n + 1))) ∧
      (do
        let yes ← newBlock
        let done ← newBlock
        branch cond yes done
        enter (some yes)
        m
        jump done
        Lower.rejoin done : Build Unit).run s = ((), s₂.entered (some (n + 1))) := by
  obtain ⟨a, ha⟩ := Option.isSome_iff_exists.1 hs.current
  have hblocks : ∀ b, n ≤ b → b < n + 2 → b ∈ List.range' n 2 := fun b hb hlt =>
    List.mem_range'_1.2 ⟨hb, hlt⟩
  obtain ⟨dom₁, s₁, hs₁, hsize₁, hold, hnew, h₁, htarget⟩ := hs.inv.fork ha 2 n (n + 1)
    hcond (by rw [hn]; simp) (by rw [hn]; simp) (by omega)
  rw [hn] at hold hnew h₁ htarget hsize₁
  obtain ⟨hyes, hyesbody, hyesreach, _⟩ := htarget n (hblocks _ (by omega) (by omega))
  obtain ⟨hdone, hdonebody, hdonereach, _⟩ := htarget (n + 1) (hblocks _ (by omega) (by omega))
  obtain ⟨dom₂, s₂, hrun₂, h₂, haround⟩ := run_path n (n + 1) ((n + 1) :: pend)
    (fun hs' heq => hm _ _ _ hs' (heq.trans hresult)) h₁ (by omega)
    (hyesreach (Or.inl rfl)).1 hdone (by omega)
    (by rw [hnew _ (by omega), hnew _ (by omega)]; simp) (hs.bound.mono h₁.more)
  have hbody₂ : s₂.func.body (n + 1) = [] := by
    rw [haround.body _ (by omega) (by omega), hdonebody]
  obtain ⟨s₃, hrun₃, hstep⟩ := run_rejoin h₂ (by omega) (haround.target _ hdone) hbody₂
    (fun b hb => by
      obtain rfl : a = b := Option.some.inj (ha.symm.trans hb)
      rw [haround.doms _ (by omega), hnew _ (by omega)]
      simp)
  -- the branch leads to where the paths meet
  obtain ⟨x, rest, hpreds⟩ : ∃ x rest, s₂.func.preds (n + 1) = x :: rest :=
    List.exists_cons_of_ne_nil (List.ne_nil_of_mem
      (haround.into.subset (hdonereach (Or.inr rfl)).2))
  rw [run_rejoin_of_cons hpreds] at hrun₃
  rw [← (Prod.mk.inj hrun₃).2] at hstep
  refine ⟨a, dom₁, s₁, dom₂, s₂, ha, hs₁, h₁, (hyesreach (Or.inl rfl)).1, hyesbody, hrun₂, hbody₂,
    hstep, ?_⟩
  have hforked : (branch cond n (n + 1)).run (s.withFunc s.func.grown.grown) = ((), s₁) := by
    rw [run_branch (by rw [Builder.current_withFunc, ha]), hs₁, grows_two,
      Builder.withFunc_withFunc, Builder.func_withFunc]
  simp only [run_bind, run_newBlock, Builder.func_withFunc, Builder.withFunc_withFunc,
    Func.size_grown, hn, hforked, run_enter, hrun₂, run_rejoin_of_cons hpreds]

theorem flows_ifThen {m : Build Unit} {cond : Nat} (hm : Executes result vars vars' m)
    (hs : Ready vars pend dom s) (hresult : s.func.hasResult = !result.isVoid)
    (hcond : Value .bool cond dom s) :
    Flows pend dom s vars (do
      let yes ← newBlock
      let done ← newBlock
      branch cond yes done
      enter (some yes)
      m
      jump done
      Lower.rejoin done) := by
  obtain ⟨_, _, _, _, _, _, _, _, _, _, _, _, hstep, hrun⟩ := run_ifThen hm hs hresult hcond rfl
  exact .of_run hs hrun hstep

/-- A statement with two branches: a new block for each, and one where the paths meet. -/
theorem run_ifElse {m m' : Build Unit} {cond n : Nat} {vars₁ vars₂ : List Var}
    (hm : Executes result vars vars₁ m) (hm' : Executes result vars vars₂ m')
    (hs : Ready vars pend dom s) (hresult : s.func.hasResult = !result.isVoid)
    (hcond : Value .bool cond dom s) (hn : s.func.blocks.size = n) :
    ∃ a dom₁ s₁ dom₂ s₂ dom₃ s₃ s₄, s.current = some a ∧
      s₁ = s.withFunc ((s.func.grows 3).branched a cond n (n + 2)) ∧
      Stage dom s dom₁ (n :: (n + 1) :: (n + 2) :: pend) s₁ ∧ s₁.func.Reach n ∧
      (∀ b, n ≤ b → s₁.func.body b = []) ∧
      (jump (n + 1)).run (m.run (s₁.entered (some n))).2 = ((), s₂) ∧
      Stage dom s dom₂ ((n + 2) :: (n + 1) :: pend) s₂ ∧ s₂.func.Reach (n + 2) ∧
      s₂.func.body (n + 2) = [] ∧
      (jump (n + 1)).run (m'.run (s₂.entered (some (n + 2)))).2 = ((), s₃) ∧
      s₃.func.body (n + 1) = [] ∧ s₂.func.preds (n + 1) <+: s₃.func.preds (n + 1) ∧
      (Lower.rejoin (n + 1)).run s₃ = ((), s₄) ∧ Step pend dom s dom₃ s₄ ∧
      (do
        let yes ← newBlock
        let done ← newBlock
        let no ← newBlock
        branch cond yes no
        enter (some yes)
        m
        jump done
        enter (some no)
        m'
        jump done
        Lower.rejoin done : Build Unit).run s = ((), s₄) := by
  obtain ⟨a, ha⟩ := Option.isSome_iff_exists.1 hs.current
  have hblocks : ∀ b, n ≤ b → b < n + 3 → b ∈ List.range' n 3 := fun b hb hlt =>
    List.mem_range'_1.2 ⟨hb, hlt⟩
  obtain ⟨dom₁, s₁, hs₁, hsize₁, hold, hnew, h₁, htarget⟩ := hs.inv.fork ha 3 n (n + 2)
    hcond (by rw [hn]; simp) (by rw [hn]; simp) (by omega)
  rw [hn] at hold hnew h₁ htarget hsize₁
  obtain ⟨hyes, _, hyesreach, _⟩ := htarget n (hblocks _ (by omega) (by omega))
  obtain ⟨hno, hnobody, hnoreach, _⟩ := htarget (n + 2) (hblocks _ (by omega) (by omega))
  obtain ⟨hdone, hdonebody, _⟩ := htarget (n + 1) (hblocks _ (by omega) (by omega))
  obtain ⟨dom₂, s₂, hrun₂, h₂, haround⟩ := run_path n (n + 1)
    ((n + 1) :: (n + 2) :: pend) (fun hs' heq => hm _ _ _ hs' (heq.trans hresult)) h₁ (by omega)
    (hyesreach (Or.inl rfl)).1 hdone (by omega)
    (by rw [hnew _ (by omega), hnew _ (by omega)]; simp) (hs.bound.mono h₁.more)
  -- the other path
  have hreach₂ : s₂.func.Reach (n + 2) := by
    refine h₂.good.reach_of_pred (a := a) ?_
    rw [haround.preds _ (by omega) (by omega)]
    exact (hnoreach (Or.inr rfl)).2
  have hsize₂ := haround.size
  have hstage₂ := h₂.perm (.swap ..)
  obtain ⟨dom₃, s₃, hrun₃, h₃, haround'⟩ := run_path (n + 2) (n + 1)
    ((n + 1) :: pend) (fun hs' heq => hm' _ _ _ hs' (heq.trans hresult)) hstage₂
    (by omega) hreach₂ (haround.target _ hdone) (by omega) (by
      rw [haround.doms _ (by omega), haround.doms _ (by omega), hnew _ (by omega),
        hnew _ (by omega)]
      simp)
    (hs.bound.mono h₂.more)
  have hbody₃ : s₃.func.body (n + 1) = [] := by
    rw [haround'.body _ (by omega) (by omega), haround.body _ (by omega) (by omega), hdonebody]
  obtain ⟨s₄, hrun₄, hstep⟩ := run_rejoin h₃ (by omega)
    (haround'.target _ (haround.target _ hdone)) hbody₃
    (fun b hb => by
      obtain rfl : a = b := Option.some.inj (ha.symm.trans hb)
      rw [haround'.doms _ (by omega), haround.doms _ (by omega), hnew _ (by omega)]
      simp)
  refine ⟨a, dom₁, s₁, dom₂, s₂, dom₃, s₃, s₄, ha, hs₁, h₁, (hyesreach (Or.inl rfl)).1, fun b hb => ?_,
    hrun₂, hstage₂, hreach₂, ?_, hrun₃, hbody₃, haround'.into, hrun₄, hstep, ?_⟩
  · by_cases hlt : b < n + 3
    · exact (htarget b (hblocks b hb hlt)).2.1
    · rw [Func.body, Func.values_nil _ _ (by omega), List.filter_nil]
  · rw [haround.body _ (by omega) (by omega), hnobody]
  · have hforked : (branch cond n (n + 2)).run (s.withFunc s.func.grown.grown.grown) = ((), s₁) := by
      rw [run_branch (by rw [Builder.current_withFunc, ha]), hs₁, grows_three,
        Builder.withFunc_withFunc, Builder.func_withFunc]
    simp only [run_bind, run_newBlock, Builder.func_withFunc, Builder.withFunc_withFunc,
      Func.size_grown, hn, Nat.add_assoc, Nat.reduceAdd, hforked, run_enter, hrun₂, hrun₃, hrun₄]

theorem flows_ifElse {m m' : Build Unit} {cond : Nat} {vars₁ vars₂ : List Var}
    (hm : Executes result vars vars₁ m) (hm' : Executes result vars vars₂ m') (hs : Ready vars pend dom s)
    (hresult : s.func.hasResult = !result.isVoid) (hcond : Value .bool cond dom s) :
    Flows pend dom s vars (do
      let yes ← newBlock
      let done ← newBlock
      let no ← newBlock
      branch cond yes no
      enter (some yes)
      m
      jump done
      enter (some no)
      m'
      jump done
      Lower.rejoin done) := by
  obtain ⟨_, _, _, _, _, _, _, _, _, _, _, _, _, _, _, _, _, _, _, _, _, hstep, hrun⟩ :=
    run_ifElse hm hm' hs hresult hcond rfl
  exact .of_run hs hrun hstep

/-- The condition of a loop is computed from the block `b` on, and decides between two blank
blocks. Where the condition is there must be passed before them. -/
theorem run_test {test : Build Nat} {dom' : Doms} {s' : Builder} {b yes no : Nat}
    (h : Stage dom s dom' (b :: yes :: no :: pend) s') (hb : s.func.blocks.size ≤ b)
    (hreach : s'.func.Reach b) (hblank : ∀ c ∈ [yes, no], s'.func.Blank c)
    (hnew : ∀ c ∈ [yes, no], s.func.blocks.size ≤ c)
    (htest : Makes (yes :: no :: pend) dom' (s'.entered (some b)) test (Value .bool)) :
    ∃ c s₁ s'' dom'' e, test.run (s'.entered (some b)) = (c, s₁) ∧
      (branch c yes no).run s₁ = ((), s'') ∧ Stage dom s dom'' (yes :: no :: pend) s'' ∧
      (∀ x ∈ [yes, no], e ∈ s''.func.preds x ∧ b :: dom' b ⊆ dom'' x ∧ s''.func.body x = []) ∧
      (∀ x < s'.func.blocks.size, x ≠ yes → x ≠ no → dom'' x = dom' x) ∧
      (∀ x, s'.func.Target x → s''.func.Target x) ∧
      s'.func.blocks.size ≤ s''.func.blocks.size := by
  have henter := h.enter (some b)
  have hmine : ∀ c ∈ (s'.entered (some b)).current, s.Mine c := fun c hc => by
    obtain rfl : b = c := Option.some.inj hc
    exact Or.inr hb
  obtain ⟨c, s₁, dom₁, hrun, hstep, hcur, v, hv, hbool⟩ := htest.exists_run
  obtain ⟨e, he⟩ := Option.isSome_iff_exists.1 hcur
  have h₁ := henter.followed hmine hstep
  rw [he] at h₁
  have hopen : (b :: yes :: no :: pend).Nodup := h.good.closed.nodup
  have hlt : ∀ x, s'.func.Target x → x < s'.func.blocks.size := fun x hx =>
    h.good.wired.known x hx.order
  have hblank₁ : ∀ x ∈ [yes, no], s₁.func.Blank x := by
    intro x hx
    refine (hblank x hx).frame hstep.frame (hlt x (hblank x hx).toTarget) fun heq => ?_
    obtain rfl : x = b := Option.some.inj heq
    rcases List.mem_pair.1 hx with rfl | rfl <;> simp at hopen
  -- the condition must be passed before both blocks
  obtain ⟨hyes, hno, hne⟩ : e ≠ yes ∧ e ≠ no ∧ yes ≠ no := by
    have hnodup := h₁.good.closed.nodup
    simp only [Option.toList_some, List.singleton_append, List.nodup_cons, List.mem_cons,
      not_or] at hnodup
    exact ⟨hnodup.1.1, hnodup.1.2.1, hnodup.2.1.1⟩
  obtain ⟨dom₂, hother, hafter, h₂⟩ : ∃ dom₂ : Doms,
      (∀ x, x ≠ yes → x ≠ no → dom₂ x = dom₁ x) ∧ (∀ x ∈ [yes, no], dom₂ x = e :: dom₁ e) ∧
      Stage dom s dom₂ (e :: yes :: no :: pend) s₁ := by
    have hd := h₁.good.covered.entry e (h₁.good.closed.order e (by simp))
    refine ⟨_, fun x hx hx' => ?_, fun x hx => ?_,
      (h₁.redom (b := yes) (by simp) (hblank₁ _ (by simp)) (hnew _ (by simp)) hd).redom (b := no)
        (by simp) (hblank₁ _ (by simp)) (hnew _ (by simp)) hd⟩
    · rw [Function.update_of_ne hx', Function.update_of_ne hx]
    · rcases List.mem_pair.1 hx with rfl | rfl <;> simp [Function.update]
  have hsub : ∀ x ∈ [yes, no], dom₂ x ⊆ e :: dom₂ e := by
    intro x hx
    rw [hafter x hx, hother e hyes hno]
    exact fun _ hy => hy
  have hbranch := h₂.branch (a := e) (by simp) (henter.mine hmine hstep e he)
    (hstep.inv.reach e he) c yes no ((hv.avail he).congr (hother e hyes hno))
    (fun w hw => by
      rw [hv.instr] at hw
      exact Option.some.inj hw ▸ hbool)
    (hblank₁ _ (by simp)).toTarget (hblank₁ _ (by simp)).toTarget hne (hnew _ (by simp))
    (hnew _ (by simp)) (hsub _ (by simp)) (hsub _ (by simp))
  rw [List.erase_cons_head] at hbranch
  refine ⟨c, s₁, _, dom₂, e, hrun, run_branch he c yes no, hbranch, fun x hx => ⟨?_, ?_, ?_⟩,
    fun x hx hxyes hxno => ?_, fun x hx => ?_, ?_⟩
  · refine (hbranch.good.wired.edges e x).1 ?_
    rw [Builder.func_withFunc, Func.succs_branched _ _ _ _ _ _ (hstep.inv.lt_size he), if_pos rfl]
    rcases List.mem_pair.1 hx with rfl | rfl <;> simp
  · rw [hafter x hx]
    exact hstep.deeper b rfl e he
  · rw [Builder.func_withFunc, Func.branched, Func.body_linked, Func.body_linked, Func.body_ended,
      (hblank₁ x hx).body]
  · rw [hother x hxyes hxno, hstep.frame.doms x hx]
  · exact (hx.frame hstep.frame (hlt x hx)).congr (Func.order_branched ..) fun i =>
      Func.instr?_branched ..
  · rw [Builder.func_withFunc, Func.size_branched]
    exact hstep.frame.size

/-- A loop whose condition is computed by `test`, which may use what was there before: new blocks
for the condition and for the body, and another behind it. -/
theorem run_loop {n : Nat} (test : Build Nat) (m : Build Unit) (hs : Ready vars pend dom s)
    (htest : ∀ rest dom' s', Ready vars rest dom' s' → s.slots <:+ s'.slots →
      (∀ i v, Has dom s i v → Has dom' s' i v) → Makes rest dom' s' test (Value .bool))
    (hm : ∀ rest dom' s', Ready vars rest dom' s' → s.slots <:+ s'.slots →
      s'.func.hasResult = s.func.hasResult → Flows rest dom' s' vars m)
    (hn : s.func.blocks.size = n) :
    ∃ a dom₁ s₁ c s₂ dom₃ s₃ dom₄ s₄, s.current = some a ∧
      s₁ = s.withFunc ((s.func.grows 3).linked a n) ∧
      Stage dom s dom₁ (n :: (n + 1) :: (n + 2) :: pend) s₁ ∧ s₁.func.Reach n ∧
      (∀ i v, Has dom s i v → Has dom₁ (s₁.entered (some n)) i v) ∧
      test.run (s₁.entered (some n)) = (c, s₂) ∧ (branch c (n + 1) (n + 2)).run s₂ = ((), s₃) ∧
      Stage dom s dom₃ ((n + 1) :: (n + 2) :: pend) s₃ ∧ s₃.func.Reach (n + 1) ∧
      s₃.func.body (n + 1) = [] ∧ (jump n).run (m.run (s₃.entered (some (n + 1)))).2 = ((), s₄) ∧
      s₄.func.body (n + 2) = [] ∧ Step pend dom s dom₄ (s₄.entered (some (n + 2))) ∧
      (do
        let header ← newBlock
        let inside ← newBlock
        let done ← newBlock
        jump header
        enter (some header)
        let c ← test
        branch c inside done
        enter (some inside)
        m
        jump header
        enter (some done) : Build Unit).run s = ((), s₄.entered (some (n + 2))) := by
  obtain ⟨a, ha⟩ := Option.isSome_iff_exists.1 hs.current
  obtain ⟨dom₁, s₁, hs₁, hsize₁, _, hnew, h₁, hheader, hreach₁, hblank₁⟩ := hs.inv.leap ha 2
  rw [hn] at hs₁ hnew h₁ hsize₁ hheader hreach₁ hblank₁
  have hblank : ∀ b ∈ [n + 1, n + 2], s₁.func.Blank b := fun b hb =>
    hblank₁ b (by rcases List.mem_pair.1 hb with rfl | rfl <;> simp [List.mem_range'_1])
  -- the condition
  have hkeep : ∀ i v, Has dom s i v → Has dom₁ (s₁.entered (some n)) i v := by
    rintro i v ⟨c, hc, hv, hblock⟩
    obtain rfl : a = c := Option.some.inj (ha.symm.trans hc)
    refine ⟨n, rfl, h₁.frame.instrs i v hv, Or.inr ?_⟩
    rw [hnew n (Nat.le_refl n)]
    exact List.mem_cons.2 hblock
  obtain ⟨c, s₂, s₃, dom₃, e, hrun₂, hrun₃, h₃, hafter, hother, htarget, hsize₃⟩ :=
    run_test h₁ (by omega) hreach₁ hblank
      (by simp only [List.mem_cons, List.not_mem_nil, or_false, hn]; omega)
      (htest _ _ _ (Stage.ready h₁ hreach₁ hs.bound) h₁.more hkeep)
  have hreach₃ : s₃.func.Reach (n + 1) := h₃.good.reach_of_pred (hafter _ (by simp)).1
  -- the body leads back to the condition
  have hdeeper : ∀ x ∈ [n + 1, n + 2], a :: dom a ⊆ dom₃ x := fun x hx y hy => by
    refine (hafter x hx).2.1 (List.mem_cons_of_mem _ ?_)
    rwa [hnew n (Nat.le_refl n)]
  obtain ⟨dom₄, s₄, hrun₄, h₄, haround⟩ := run_path (n + 1) n ((n + 2) :: pend)
    (fun hs' heq => hm _ _ _ hs' h₃.more heq) h₃ (by omega) hreach₃ (htarget n hheader) (by omega)
    (by
      rw [hother n (by omega) (by omega) (by omega), hnew n (Nat.le_refl n)]
      exact fun x hx => List.mem_cons_of_mem _ (hdeeper _ (by simp) hx))
    (hs.bound.mono h₃.more)
  have hreach₄ : s₄.func.Reach (n + 2) := by
    refine h₄.good.reach_of_pred (a := e) ?_
    rw [haround.preds _ (by omega) (by omega)]
    exact (hafter _ (by simp)).1
  have hstep : Step pend dom s dom₄ (s₄.entered (some (n + 2))) := by
    refine (h₄.enter _).step (.refl _) (fun b hb => ?_) (fun b hb => ?_) fun b hb b' hb' => ?_
    · obtain rfl : n + 2 = b := Option.some.inj hb
      exact hreach₄
    · obtain rfl : n + 2 = b := Option.some.inj hb
      exact Or.inr (by omega)
    · obtain rfl : a = b := Option.some.inj (ha.symm.trans hb)
      obtain rfl : n + 2 = b' := Option.some.inj hb'
      rw [haround.doms _ (by omega)]
      exact fun x hx => List.mem_cons_of_mem _ (hdeeper _ (by simp) hx)
  refine ⟨a, dom₁, s₁, c, s₂, dom₃, s₃, dom₄, s₄, ha, hs₁, h₁, hreach₁, hkeep, hrun₂, hrun₃, h₃,
    hreach₃, (hafter _ (by simp)).2.2, hrun₄, ?_, hstep, ?_⟩
  · rw [haround.body _ (by omega) (by omega), (hafter _ (by simp)).2.2]
  · have hjumped : (jump n).run (s.withFunc s.func.grown.grown.grown) = ((), s₁) := by
      rw [run_jump (by rw [Builder.current_withFunc, ha]), hs₁, grows_three,
        Builder.withFunc_withFunc, Builder.func_withFunc]
    simp only [run_bind, run_newBlock, Builder.func_withFunc, Builder.withFunc_withFunc,
      Func.size_grown, hn, Nat.add_assoc, Nat.reduceAdd, hjumped, run_enter, hrun₂, hrun₃, hrun₄]

theorem flows_loop (test : Build Nat) (m : Build Unit) (hs : Ready vars pend dom s)
    (htest : ∀ rest dom' s', Ready vars rest dom' s' → s.slots <:+ s'.slots →
      (∀ i v, Has dom s i v → Has dom' s' i v) → Makes rest dom' s' test (Value .bool))
    (hm : ∀ rest dom' s', Ready vars rest dom' s' → s.slots <:+ s'.slots →
      s'.func.hasResult = s.func.hasResult → Flows rest dom' s' vars m) :
    Flows pend dom s vars (do
      let header ← newBlock
      let inside ← newBlock
      let done ← newBlock
      jump header
      enter (some header)
      let c ← test
      branch c inside done
      enter (some inside)
      m
      jump header
      enter (some done)) := by
  obtain ⟨_, _, _, _, _, _, _, _, _, _, _, _, _, _, _, _, _, _, _, _, _, hstep, hrun⟩ :=
    run_loop test m hs htest hm rfl
  exact .of_run hs hrun hstep

/-! Statements -/

/-- A value that is there is stored into a slot. -/
theorem makes_store {slot i : Nat} {pos p : Pos} (hs : Ready vars pend dom s)
    (hslot : (p, slot) ∈ s.slots) (hi : ∃ x, Has dom s i x) :
    Makes pend dom s (discard (emit .store none [slot, i] pos)) fun _ _ _ => True := by
  obtain ⟨x, hx, hop⟩ := hs.inv.has_slot hs.current hslot
  refine (Makes.emitWith (t := none) hs.inv hs.current (by simp) (by simp)
    (by simpa using ⟨⟨x, hx⟩, hi⟩) fun _ _ => ?_).discard.imp fun _ _ _ _ _ => trivial
  simp [Instr.fault?, Instr.operandFault?, Instr.targetFault?, Instr.countFault?, Instr.firstOp,
    hx.instr, hop, Op.isVoid, Bind.bind, Except.bind, Pure.pure, Except.pure]

/-- A variable gets a slot for a value that is there. -/
theorem makes_bindVar {v : Var} {i : Nat} {pos : Pos} (hs : Ready vars pend dom s)
    (hi : ∃ x, Has dom s i x) : Makes pend dom s (Lower.bindVar v i pos) fun _ _ s' =>
      Bound (v :: vars) s' := by
  have hslots : (s.slotted v).slots = (v.pos, s.func.instrs.size) :: s.slots := rfl
  have hcur : (s.slotted v).current.isSome = true := hs.current
  have hnew : Makes pend dom s (newSlot v) fun i _ s' => s'.slots = (v.pos, i) :: s.slots :=
    .of_run rfl (Step.slotted hs.inv v) hcur hslots
  refine hnew.bind fun slot dom₁ s₁ hstep hcur hslots => ?_
  obtain ⟨y, hy⟩ := hi
  exact (makes_store (hs.next hstep hcur) (hslots ▸ List.mem_cons_self) ⟨y, hstep.has hcur hy⟩).imp
    fun _ _ _ hstep _ => (hs.bound.cons hslots).mono hstep.slots

/-- A variable without parentheses around it is a name or a field. -/
theorem unparen_of_isVariable {x : Typed.Expr} (h : x.isVariable = true) :
    (∃ id v, x.unparen = .var id v) ∨ ∃ y sel f ty, x.unparen = .field y sel f ty := by
  induction x using Typed.Expr.unparen.induct with
  | case1 pos x ih => exact ih h
  | case2 x hx =>
      cases x with
      | var id v => exact Or.inl ⟨id, v, rfl⟩
      | field y sel f ty => exact Or.inr ⟨y, sel, f, ty, rfl⟩
      | paren pos y => exact absurd rfl (hx pos y)
      | _ => simp [Typed.Expr.isVariable] at h

theorem executes_assign {Γ : Typed.Context} {x y : Typed.Expr} (hΓ : Γ.Sound) (hx : x.Ok Γ vars)
    (hvariable : x.isVariable = true) (hy : y.Ok Γ vars) :
    Executes result vars vars (Lower.assign (Layouts.build Γ.table) x y) := by
  intro pend dom s hs _
  have hok := hx.unparen
  refine .of_same hs ?_
  unfold Lower.assign
  obtain ⟨id, v, hvar⟩ | ⟨z, sel, f, ty, hfield⟩ := unparen_of_isVariable hvariable
  · rw [hvar] at hok ⊢
    cases hok with
    | var found _ _ =>
        refine (computes_slotOf (List.mem_of_find?_eq_some found) _ _ _ hs).bind
          fun slot dom₁ s₁ hstep hcur ⟨p, hp⟩ => ?_
        have hs := hs.next hstep hcur
        refine (computes_expr hΓ hy _ _ _ hs).bind fun i dom₂ s₂ hstep hcur hi => ?_
        exact makes_store (hs.next hstep hcur) (hstep.slots.subset hp) hi.exists_has
  · rw [hfield] at hok ⊢
    cases hok with
    | field receiver cls found =>
        refine (computes_expr hΓ receiver _ _ _ hs).bind
          fun obj dom₁ s₁ hstep hcur hobj => ?_
        have hs := hs.next hstep hcur
        refine (computes_expr hΓ hy _ _ _ hs).bind fun i dom₂ s₂ hstep hcur hi => ?_
        have hs := hs.next hstep hcur
        have hobj := hobj.next hstep hcur
        refine (makes_fieldOffset (hasField_of_found hΓ.table cls found) hs).bind
          fun offset dom₃ s₃ hstep hcur _ => ?_
        exact (Makes.emitWith (t := none) hstep.inv hcur (by simp) (by simp)
          (by simpa using ⟨(hobj.next hstep hcur).exists_has, (hi.next hstep hcur).exists_has⟩)
          fun _ _ => rfl).discard.imp fun _ _ _ _ _ => trivial

theorem executes_bind {Γ : Typed.Context} {x : Typed.Expr} {pos : Pos} {v : Var}
    {term : Typed.TypeTerm} (hΓ : Γ.Sound) (hx : x.Ok Γ vars) :
    Executes result vars (v :: vars)
      (Lower.stmt (Layouts.build Γ.table) (.bind pos v term x)) := by
  intro pend dom s hs _
  rw [Lower.stmt]
  exact .bind (computes_expr hΓ hx _ _ _ hs) fun i dom₁ s₁ hstep hcur hi =>
    .of_makes (makes_bindVar (hs.next hstep hcur) hi.exists_has)

/-- A return ends the current block. -/
theorem flows_ret {i : Option Nat} (hs : Ready vars pend dom s)
    (hresult : s.func.hasResult = i.isSome) (hi : ∀ j ∈ i, ∃ v, Has dom s j v) :
    Flows pend dom s vars (do ret i; enter none) := by
  obtain ⟨a, ha⟩ := Option.isSome_iff_exists.1 hs.current
  have hstage := (Step.refl hs.inv).stage
  rw [ha] at hstage
  have hret := hstage.ret (a := a) (by simp) (Or.inl ha) (hs.inv.reach a ha) i
    (fun j hj => by
      obtain ⟨v, hv⟩ := hi j hj
      exact hv.avail ha) hresult
  rw [Option.toList_some, List.singleton_append, List.erase_cons_head] at hret
  have hstep : Step pend dom s dom ((s.withFunc (s.func.ended a .ret
      (i.toList.map some))).entered none) :=
    (hret.enter none).step (.refl _) (by simp) (by simp) (by simp)
  refine .of_run hs ?_ hstep
  rw [run_bind, run_ret ha, run_enter]

/-- A load of a slot is well formed. -/
theorem fault_load {x : Instr} {slot : Nat} {ty : Ty} {pos : Pos} {id block : Nat}
    (hx : Has dom s slot x) (hop : x.op = .alloca) : Instr.fault? s.func
      { id, op := .load, type := some ty, args := [slot].map some, block, number := 0, aux := none, pos } =
        .ok none := by
  simp [Instr.fault?, Instr.operandFault?, Instr.targetFault?, Instr.countFault?, Instr.firstOp,
    hx.instr, hop, Op.isVoid, Bind.bind, Except.bind, Pure.pure, Except.pure]

/-- One is added to a counting variable. -/
theorem makes_increment {slot : Nat} {p : Pos} (hs : Ready vars pend dom s)
    (hslot : (p, slot) ∈ s.slots) :
    Makes pend dom s (Lower.increment slot) fun _ _ _ => True := by
  unfold Lower.increment
  obtain ⟨x, hx, hop⟩ := hs.inv.has_slot hs.current hslot
  refine (Makes.emitWith hs.inv hs.current (by simp) (by simp) (by simpa using ⟨x, hx⟩)
    fun _ _ => fault_load hx hop).typed.bind fun i dom₁ s₁ hstep hcur hi => ?_
  have hs := hs.next hstep hcur
  have hslot := hstep.slots.subset hslot
  refine (Makes.emitWith hs.inv hs.current (by simp) (by simp) (by simp) fun _ _ => rfl).typed.bind
    fun one dom₂ s₂ hstep hcur hone => ?_
  have hs := hs.next hstep hcur
  have hslot := hstep.slots.subset hslot
  refine (Makes.emitWith hs.inv hs.current (by simp) (by simp)
    (by simpa using ⟨(hi.next hstep hcur).exists_has, hone.exists_has⟩) fun _ _ => rfl).typed.bind
    fun next dom₃ s₃ hstep hcur hnext => ?_
  exact makes_store (hs.next hstep hcur) (hstep.slots.subset hslot) hnext.exists_has

/-- A body of a loop is followed by an increment of the counting variable. -/
theorem flows_counted {m : Build Unit} {slot : Nat} {p : Pos} (hslot : (p, slot) ∈ s.slots)
    (hm : Flows pend dom s vars m) : Flows pend dom s vars (do
      m
      if (← get).current.isSome then
        Lower.increment slot) := by
  refine hm.andThen (fun dom' s' hstep hs' => .of_same hs' ?_) fun s' hc => ?_
  · refine .of_eq (run_ifOpen ..) ?_
    rw [if_pos hs'.current]
    exact makes_increment hs' (hstep.slots.subset hslot)
  · rw [run_ifOpen, hc]
    rfl

/-- A counting variable is compared with its last value. -/
theorem makes_compare {slot last : Nat} {p : Pos} (hs : Ready vars pend dom s)
    (hslot : (p, slot) ∈ s.slots) (hlast : ∃ w, Has dom s last w) : Makes pend dom s (do
      let i ← emit .load (some .int) [slot] Pos.none
      emit .leq64 (some .bool) [i, last] Pos.none) (Value .bool) := by
  obtain ⟨x, hx, hop⟩ := hs.inv.has_slot hs.current hslot
  obtain ⟨w, hw⟩ := hlast
  refine (Makes.emitWith hs.inv hs.current (by simp) (by simp) (by simpa using ⟨x, hx⟩)
    fun _ _ => fault_load hx hop).typed.bind fun i dom₁ s₁ hstep hcur hi => ?_
  exact (Makes.emitWith hstep.inv hcur (by simp) (by simp)
    (by simpa using ⟨hi.exists_has, w, hstep.has hcur hw⟩) fun _ _ => rfl).typed

theorem executes_forLoop {Γ : Typed.Context} {pos start : Pos} {v : Var} {low high : Typed.Expr}
    {body : Typed.Block} (hΓ : Γ.Sound) (hlow : low.Ok Γ vars) (hhigh : high.Ok Γ vars)
    (hbody : Executes result (v :: vars) vars' (Lower.block (Layouts.build Γ.table) body)) :
    Executes result vars vars
      (Lower.stmt (Layouts.build Γ.table) (.forLoop pos v start low high body)) := by
  intro pend dom s hs hresult
  rw [Lower.stmt]
  simp only [counting_eq]
  refine .bind (computes_expr hΓ hlow _ _ _ hs) fun first dom₁ s₁ hstep hcur hfirst => ?_
  have hs := hs.next hstep hcur
  have hresult := (Step.hasResult hstep).trans hresult
  refine .bind (computes_expr hΓ hhigh _ _ _ hs) fun last dom₂ s₂ hstep hcur hlast => ?_
  have hs := hs.next hstep hcur
  have hresult := (Step.hasResult hstep).trans hresult
  refine .bind (makes_bindVar hs (hfirst.next hstep hcur).exists_has)
    fun _ dom₃ s₃ hstep hcur hbound => ?_
  have hs : Ready (v :: vars) pend dom₃ s₃ := ⟨hstep.inv, hcur, hbound⟩
  have hlast := hlast.next hstep hcur
  have hresult := (Step.hasResult hstep).trans hresult
  refine .bind (computes_slotOf (List.mem_cons_self) _ _ _ hs)
    fun slot dom₄ s₄ hstep hcur ⟨p, hp⟩ => ?_
  have hs := hs.next hstep hcur
  obtain ⟨w, hw⟩ := (hlast.next hstep hcur).exists_has
  have hresult := (Step.hasResult hstep).trans hresult
  refine Flows.narrow (flows_loop
    (do
      let i ← emit .load (some .int) [slot] Pos.none
      emit .leq64 (some .bool) [i, last] Pos.none)
    (do
      Lower.block (Layouts.build Γ.table) body
      if (← get).current.isSome then
        Lower.increment slot)
    hs (fun rest dom' s' hs' hslots hkeep => ?_) fun rest dom' s' hs' hslots heq => ?_)
    (List.subset_cons_self v vars)
  · exact makes_compare hs' (hslots.subset hp) ⟨w, hkeep last w hw⟩
  · exact flows_counted (hslots.subset hp) ((hbody _ _ _ hs' (heq.trans hresult)).close hs')

theorem flows_cons {ls : Layouts} {st : Typed.Stmt} {rest : List Typed.Stmt} {vars'' : List Var}
    (hs : Ready vars pend dom s) (hfirst : Flows pend dom s vars' (Lower.stmt ls st))
    (hrest : ∀ dom' s', Step pend dom s dom' s' → Ready vars' pend dom' s' →
      Flows pend dom' s' vars'' (Lower.stmts ls rest)) :
    Flows pend dom s vars'' (Lower.stmts ls (st :: rest)) :=
  .of_eq (run_stmts_cons hs.current) (hfirst.andThen hrest fun _ hc => run_stmts_none hc)

mutual

/-- Every well typed statement is run without a fault. -/
theorem executes_stmt {Γ : Typed.Context} (hΓ : Γ.Sound) {result : Ty} {st : Typed.Stmt}
    {vars vars' : List Var} (h : Typed.Stmt.Ok Γ result vars st vars') :
    Executes result vars vars' (Lower.stmt (Layouts.build Γ.table) st) := by
  cases h with
  | empty =>
      intro pend dom s hs _
      rw [Lower.stmt]
      exact .of_same hs (.pure hs.inv hs.current trivial)
  | expr ok _ =>
      intro pend dom s hs _
      rw [Lower.stmt]
      exact .of_same hs ((computes_expr hΓ ok _ _ _ hs).discard.imp fun _ _ _ _ _ => trivial)
  | bind ok _ _ _ => exact executes_bind hΓ ok
  | assign left assignable right _ =>
      rw [Lower.stmt]
      exact executes_assign hΓ left assignable right
  | block body =>
      intro pend dom s hs hresult
      rw [Lower.stmt, Lower.block]
      exact (executes_stmts hΓ body _ _ _ hs hresult).close hs
  | ifThen ok bool body =>
      intro pend dom s hs hresult
      rw [Lower.stmt]
      refine .bind (computes_expr hΓ ok _ _ _ hs) fun c dom₁ s₁ hstep hcur hc => ?_
      rw [bool] at hc
      rw [Lower.block]
      exact flows_ifThen (executes_stmts hΓ body) (hs.next hstep hcur)
        ((Step.hasResult hstep).trans hresult) hc
  | ifElse ok bool body alternative =>
      intro pend dom s hs hresult
      rw [Lower.stmt]
      refine .bind (computes_expr hΓ ok _ _ _ hs) fun c dom₁ s₁ hstep hcur hc => ?_
      rw [bool] at hc
      rw [Lower.block]
      exact flows_ifElse (executes_stmts hΓ body) (executes_stmt hΓ alternative)
        (hs.next hstep hcur) ((Step.hasResult hstep).trans hresult) hc
  | whileLoop ok bool body =>
      intro pend dom s hs hresult
      rw [Lower.stmt, Lower.block]
      exact flows_loop _ _ hs (fun rest dom' s' hs' _ _ => bool ▸ computes_expr hΓ ok _ _ _ hs')
        fun rest dom' s' hs' _ heq =>
          (executes_stmts hΓ body _ _ _ hs' (heq.trans hresult)).close hs'
  | forLoop lowOk _ highOk _ _ body =>
      have hbody := executes_stmts hΓ body
      rw [← Lower.block] at hbody
      exact executes_forLoop hΓ lowOk highOk hbody
  | ret void =>
      intro pend dom s hs hresult
      rw [Lower.stmt]
      exact flows_ret hs (by simp [hresult, void]) (by simp)
  | retValue ok value _ =>
      intro pend dom s hs hresult
      rw [Lower.stmt]
      refine .bind (computes_expr hΓ ok _ _ _ hs) fun i dom₁ s₁ hstep hcur hi => ?_
      refine flows_ret (i := some i) (hs.next hstep hcur) ?_ ?_
      · rw [Step.hasResult hstep, hresult, value]
        rfl
      · intro j hj
        obtain rfl : i = j := Option.some.inj hj
        exact hi.exists_has

/-- Every well typed block is run without a fault. -/
theorem executes_stmts {Γ : Typed.Context} (hΓ : Γ.Sound) {result : Ty} {b : List Typed.Stmt}
    {vars vars' : List Var} (h : Typed.StmtsOk Γ result vars b vars') :
    Executes result vars vars' (Lower.stmts (Layouts.build Γ.table) b) := by
  cases h with
  | nil =>
      intro pend dom s hs _
      rw [Lower.stmts]
      exact .of_same hs (.pure hs.inv hs.current trivial)
  | cons first rest_ok =>
      intro pend dom s hs hresult
      exact flows_cons hs (executes_stmt hΓ first _ _ _ hs hresult) fun dom' s' hstep hs' =>
        executes_stmts hΓ rest_ok _ _ _ hs' ((Step.hasResult hstep).trans hresult)

end

end Build

end ClassLang.Graph
