import ClassLang.Proofs.Check.Answers
import ClassLang.Proofs.Check.Erasure
import ClassLang.Proofs.Check.Unit

/-!
The constants of a unit. A constant is folded when it is first needed, and one that is needed while
it is being folded depends on itself. So each constant that is folded inside another is one less to
look at, the bound on the depth is never reached, and without an error every constant has a value.
-/

namespace ClassLang

namespace Check

variable {w : Watch} {P C : Prop} {env : Env} {consts : ConstSource} {Δ : List TypeParam}
  {vars : List Var} {funcs : List (String × Bool × Signature)} {names : List String}

/-- A constant that has a value is declared with an expression that has one. -/
theorem constDecl_answers (hsource : SourceOk w consts C names)
    (funcs : List (String × Bool × Signature)) (Δ : List TypeParam) (vars : List Var)
    {d : ConstDecl} :
    w.Answers (constDecl env consts d) (EnvFull env funcs Δ vars names ∧ C) := by
  unfold constDecl
  refine ((varType_ensures (Δ := Δ)).imp (fun h => ⟨h.1.types, h.1.basic⟩) fun _ _ h => h).bind
    fun term => ?_
  dsimp only
  split
  next => exact .fail
  next =>
    refine ((operand_answers hsource d.value).imp And.left fun _ _ h => h).bind fun r => ?_
    split
    next x term _ =>
      split
      next => exact .fail
      next =>
        refine (assignable_answers.imp (fun h => ?_) fun _ _ h => h).bind fun ok => ?_
        · obtain ⟨⟨_, term', heq, hscoped, _⟩, _⟩ := h
          cases heq
          exact hscoped.isInvalid
        · split
          next => exact .pure fun _ => rfl
          next hok => exact .pure fun h => absurd h.2 hok
    next hnone =>
      refine .pure fun h => ?_
      obtain ⟨⟨_, term', rfl, _⟩, x, rfl, _⟩ := h
      exact (hnone _ _ rfl rfl).elim

/-! Constants that are looked at -/

/-- The constants of `decls` that have not been looked at. -/
def pending (decls : List ConstDecl) (list : List (String × Folding)) : List ConstDecl :=
  decls.filter fun d => (list.lookup d.name.text).isNone

/-- `k` was folded from the constant of `decls` that is called `name`. -/
structure FoldedFrom (Γ : Typed.Context) (decls : List ConstDecl) (name : String)
    (k : Typed.Const) : Prop where
  decl_mem : k.decl ∈ decls
  decl_name : k.decl.name.text = name
  erase : k.expr.erase = k.decl.value
  fits : k.value.Fits k.type.ty
  ok : k.expr.Ok Γ []

/-- The constants looked at so far: those that are done have values, fewer than `fuel` are left,
and those called `ready` are done. -/
structure Folds (Γ : Typed.Context) (decls : List ConstDecl) (fuel : Nat) (ready : List String)
    (list : List (String × Folding)) : Prop where
  folded : ∀ name r, (name, Folding.done r) ∈ list → ∃ k, r = some k ∧ FoldedFrom Γ decls name k
  few : (pending decls list).length < fuel
  ready : ∀ name ∈ ready, ∃ k, list.lookup name = some (.done (some k))

/-- What is watched while constants are folded. -/
def Watch.folding (Γ : Typed.Context) (decls : List ConstDecl) (fuel : Nat)
    (ready : List String) : Watch := { consts := Folds Γ decls fuel ready }

section

variable {Γ : Typed.Context} {decls : List ConstDecl} {fuel : Nat} {ready : List String}
  {list : List (String × Folding)}

theorem folding_refines : (Watch.folding Γ decls fuel ready).Refines := by
  intro list h name c hc
  obtain ⟨k, heq, hk⟩ := h.folded name _ hc
  cases heq
  exact hk.fits

theorem pending_push {name : String} {entry : Folding} :
    (pending decls ((name, entry) :: list)).length ≤ (pending decls list).length := by
  refine (List.monotone_filter_right decls fun d hd => ?_).length_le
  rw [List.lookup_cons] at hd
  split at hd
  · simp at hd
  · exact hd

/-- To look at a constant leaves one less. -/
theorem pending_push_lt (entry : Folding) {name : String} {d : ConstDecl}
    (hd : decls.find? (·.name.text = name) = some d) (hnew : list.lookup name = none) :
    (pending decls ((name, entry) :: list)).length < (pending decls list).length := by
  have hname : d.name.text = name := by simpa using List.find?_some hd
  have hpending : d ∈ pending decls list :=
    List.mem_filter.2 ⟨List.mem_of_find?_eq_some hd, by simp [hname, hnew]⟩
  have hgone : (pending decls ((name, entry) :: list)) =
      (pending decls list).filter fun d => !(d.name.text == name) := by
    simp only [pending, List.filter_filter]
    refine List.filter_congr fun e _ => ?_
    rw [List.lookup_cons]
    cases e.name.text == name <;> simp
  rw [hgone]
  exact List.length_filter_lt_length_iff_exists.2 ⟨d, hpending, by simp [hname]⟩

theorem lookup_push_of_ready (h : ∀ name ∈ ready, ∃ k, list.lookup name = some (.done (some k)))
    {name : String} {entry : Folding} (hname : name ∉ ready) : ∀ name' ∈ ready, ∃ k,
      List.lookup name' ((name, entry) :: list) = some (.done (some k)) := by
  intro name' hname'
  obtain ⟨k, hk⟩ := h name' hname'
  have hne : name' ≠ name := fun heq => hname (heq ▸ hname')
  exact ⟨k, by rw [List.lookup_cons, beq_eq_false_iff_ne.2 hne, hk]⟩

/-- A constant that is being folded is looked at. -/
theorem Folds.push_busy (h : Folds Γ decls (fuel + 1) ready list) {name : String} {d : ConstDecl}
    (hd : decls.find? (·.name.text = name) = some d) (hnew : list.lookup name = none) :
    Folds Γ decls fuel ready ((name, .busy) :: list) where
  folded name' r hr := by
    rcases List.mem_cons.1 hr with heq | hr
    · cases heq
    · exact h.folded name' r hr
  few := by
    have hlt := pending_push_lt .busy hd hnew
    have hfew := h.few
    omega
  ready := lookup_push_of_ready h.ready fun hmem => by
    obtain ⟨k, hk⟩ := h.ready name hmem
    rw [hnew] at hk
    cases hk

/-- A constant that has been folded is done. -/
theorem Folds.push_done (h : Folds Γ decls fuel ready list) {name : String} {k : Typed.Const}
    (hk : FoldedFrom Γ decls name k) (hname : name ∉ ready) :
    Folds Γ decls (fuel + 1) ready ((name, .done (some k)) :: list) where
  folded name' r hr := by
    rcases List.mem_cons.1 hr with heq | hr
    · cases heq
      exact ⟨k, rfl, hk⟩
    · exact h.folded name' r hr
  few := Nat.lt_succ_of_lt (Nat.lt_of_le_of_lt pending_push h.few)
  ready := lookup_push_of_ready h.ready hname

end

/-! Folding -/

/-- The watch of a unit where at most `fuel` constants are folded inside each other. -/
abbrev Env.folding (env : Env) (funcs : List (String × Bool × Signature)) (decls : List ConstDecl)
    (fuel : Nat) (ready : List String) : Watch :=
  .folding (env.context funcs []) decls fuel ready

/-- The names of constants. -/
def constNames (decls : List ConstDecl) : List String := decls.map (·.name.text)

theorem find?_constNames {decls : List ConstDecl} {name : String} (h : name ∈ constNames decls) :
    (decls.find? (·.name.text = name)).isSome = true := by
  obtain ⟨d, hd, rfl⟩ := List.mem_map.1 h
  exact List.find?_isSome.2 ⟨d, hd, by simp⟩

variable {decls : List ConstDecl} {fuel : Nat} {ready : List String} {name : String}
  {d : ConstDecl} {s : Session}

/-- The session in which a constant that is looked at for the first time is folded. -/
def begun (s : Session) (name : String) : Session := { s with consts := (name, .busy) :: s.consts }

/-- How a constant is found, where `rest` finds those that it needs in turn. -/
def constantWith (env : Env) (decls : List ConstDecl) (rest : ConstSource) : ConstSource :=
  fun name => do
    match (← get).consts.lookup name, decls.find? (·.name.text = name) with
    | some (.done result), _ => return result.map fun c => (c.type.ty, c.value)
    | some .busy, some d =>
      fail .typeMismatch d.name.pos s!"initialization cycle for constant {name}"
    | none, some d =>
      modify fun s => { s with consts := (name, .busy) :: s.consts }
      let result ← constDecl env rest d
      modify fun s => { s with consts := (name, .done result) :: s.consts }
      return result.map fun c => (c.type.ty, c.value)
    | _, none => return none

theorem constant_succ (env : Env) (decls : List ConstDecl) (fuel : Nat) :
    constant env decls (fuel + 1) = constantWith env decls (constant env decls fuel) := rfl

variable {rest : ConstSource}

/-- How a constant that is looked at for the first time is folded. -/
theorem run_constantWith (hd : decls.find? (·.name.text = name) = some d)
    (hnew : s.consts.lookup name = none) : (constantWith env decls rest name).run s =
      (((constDecl env rest d).run (begun s name)).1.map fun c => (c.type.ty, c.value),
        { ((constDecl env rest d).run (begun s name)).2 with
          consts := (name, .done ((constDecl env rest d).run (begun s name)).1) ::
            ((constDecl env rest d).run (begun s name)).2.consts }) := by
  have hget : (MonadState.get : Check Session).run s = (s, s) := rfl
  unfold constantWith
  rw [Watch.Ensures.run_bind, hget]
  dsimp only
  rw [hnew, hd]
  rfl

theorem run_constantWith_done {r : Option Typed.Const}
    (hdone : s.consts.lookup name = some (.done r)) :
    (constantWith env decls rest name).run s = (r.map fun c => (c.type.ty, c.value), s) := by
  have hget : (MonadState.get : Check Session).run s = (s, s) := rfl
  unfold constantWith
  rw [Watch.Ensures.run_bind, hget]
  dsimp only
  rw [hdone]
  rfl

theorem run_constantWith_busy (hd : decls.find? (·.name.text = name) = some d)
    (hbusy : s.consts.lookup name = some .busy) : (constantWith env decls rest name).run s =
      (fail .typeMismatch d.name.pos s!"initialization cycle for constant {name}").run s := by
  have hget : (MonadState.get : Check Session).run s = (s, s) := rfl
  unfold constantWith
  rw [Watch.Ensures.run_bind, hget]
  dsimp only
  rw [hbusy, hd]

/-- What is folded of a constant that is looked at for the first time. -/
theorem constDecl_folds (hsource : SourceOk (env.folding funcs decls fuel ready)
      (constant env decls fuel) (EnvFull env funcs [] [] names) names)
    (hd : decls.find? (·.name.text = name) = some d) :
    (env.folding funcs decls fuel ready).Ensures (constDecl env (constant env decls fuel) d)
      (EnvFull env funcs [] [] names) fun r =>
        ∃ k, r = some k ∧ FoldedFrom (env.context funcs []) decls name k := by
  refine ((constDecl_answers hsource funcs [] []).also hsource.refines
    (constDecl_ensures funcs [] [] hsource.values)).gives constDecl_gives |>.imp
      (fun h => ⟨⟨h.toEnvOk, h⟩, h, h⟩) fun _ r h => ?_
  obtain ⟨⟨hok, hsome⟩, hgives⟩ := h
  obtain ⟨k, rfl⟩ := Option.isSome_iff_exists.1 hsome
  obtain ⟨hdecl, herase⟩ := hgives k rfl
  refine ⟨k, rfl, ?_, ?_, by rw [herase, hdecl], (hok k rfl).1, (hok k rfl).2⟩
  · rw [hdecl]
    exact List.mem_of_find?_eq_some hd
  · rw [hdecl]
    simpa using List.find?_some hd

/-- What folding a constant does: without an error the constant is done. -/
theorem constant_folds (hsource : SourceOk (env.folding funcs decls fuel ready)
      (constant env decls fuel) (EnvFull env funcs [] [] names) names)
    (hd : decls.find? (·.name.text = name) = some d) (s : Session) :
    s.errors.Follows ((constant env decls (fuel + 1) name).run s).2.errors ∧
      (((constant env decls (fuel + 1) name).run s).2.Clean → s.Clean ∧
        (s.Valid (env.folding funcs decls (fuel + 1) ready) → EnvFull env funcs [] [] names →
          ((constant env decls (fuel + 1) name).run s).1.isSome = true ∧
          ((constant env decls (fuel + 1) name).run s).2.Valid
            (env.folding funcs decls (fuel + 1) (name :: ready)))) := by
  cases hlookup : s.consts.lookup name with
  | none =>
      rw [constant_succ, run_constantWith hd hlookup]
      obtain ⟨hadds, hrest⟩ := constDecl_folds hsource hd (begun s name)
      generalize (constDecl env (constant env decls fuel) d).run (begun s name) = r at hadds hrest ⊢
      obtain ⟨k, s'⟩ := r
      refine ⟨hadds, fun hclean => ?_⟩
      obtain ⟨hstart, hrest⟩ := hrest ⟨hclean, fun _ _ => trivial⟩
      refine ⟨hstart.1, fun hvalid henv => ?_⟩
      have hfresh : name ∉ ready := fun hmem => by
        obtain ⟨k, hk⟩ := hvalid.ready name hmem
        rw [hlookup] at hk
        cases hk
      obtain ⟨hvalid', k', heq, hk⟩ := hrest (hvalid.push_busy hd hlookup) henv
      obtain rfl : k = some k' := heq
      have hdone := Folds.push_done hvalid' hk hfresh
      exact ⟨rfl, hdone.folded, hdone.few,
        List.forall_mem_cons.2 ⟨⟨k', by simp⟩, hdone.ready⟩⟩
  | some entry =>
      cases entry with
      | busy =>
          rw [constant_succ, run_constantWith_busy hd hlookup]
          exact ⟨⟨[_], rfl⟩, fun hclean => absurd hclean (Collector.not_clean_add s.errors _)⟩
      | done r =>
          rw [constant_succ, run_constantWith_done hlookup]
          refine ⟨.refl _, fun hclean => ⟨hclean, fun hvalid _ => ?_⟩⟩
          obtain ⟨k, rfl, _⟩ := hvalid.folded name r (mem_of_lookup hlookup)
          exact ⟨rfl, hvalid.folded, hvalid.few,
            List.forall_mem_cons.2 ⟨⟨k, hlookup⟩, hvalid.ready⟩⟩

/-- While constants are folded, each one that is declared has a value. -/
theorem constant_source (env : Env) (funcs : List (String × Bool × Signature))
    (decls : List ConstDecl) (ready : List String) (fuel : Nat) :
    SourceOk (env.folding funcs decls fuel ready) (constant env decls fuel)
      (EnvFull env funcs [] [] (constNames decls)) (constNames decls) := by
  induction fuel with
  | zero =>
      refine ⟨folding_refines, fun name => ?_, fun name s => ?_⟩
      · exact (constant_ensures name).imp (fun h => h.toEnvOk) fun _ _ h => h
      · refine ⟨.refl _, fun hend => ⟨hend, fun hvalid _ => ?_⟩⟩
        exact absurd hvalid.few (Nat.not_lt_zero _)
  | succ fuel ih =>
      refine ⟨folding_refines, fun name => ?_, fun name => ?_⟩
      · exact (constant_ensures name).imp (fun h => h.toEnvOk) fun _ _ h => h
      cases hd : decls.find? (·.name.text = name) with
      | none =>
          have hundeclared : ¬ name ∈ constNames decls := fun hmem => by
            have hfound := find?_constNames hmem
            simp [hd] at hfound
          unfold constant
          rw [hd]
          refine Watch.Ensures.get.bind fun s => ?_
          split
          next => exact .pure fun h => absurd h.1.2 hundeclared
          next heq => cases heq
          next heq => cases heq
          next => exact .pure fun h => absurd h.1.2 hundeclared
      | some d =>
          intro s
          obtain ⟨hadds, hrest⟩ := constant_folds ih hd s
          refine ⟨hadds, fun hend => ?_⟩
          obtain ⟨hstart, hrest⟩ := hrest hend.1
          refine ⟨⟨hstart, fun _ _ => trivial⟩, fun hvalid hp => ?_⟩
          obtain ⟨hsome, hvalid'⟩ := hrest hvalid hp.1
          refine ⟨⟨hvalid'.folded, hvalid'.few, fun n hn => ?_⟩, hsome⟩
          exact hvalid'.ready n (List.mem_cons_of_mem _ hn)

/-- What holds once all constants have been folded. -/
abbrev Env.folded (env : Env) (funcs : List (String × Bool × Signature))
    (decls : List ConstDecl) : Watch :=
  env.folding funcs decls (decls.length + 1) (constNames decls)

/-- Without an error, all constants of a unit are folded. -/
theorem foldAll_folds (env : Env) (funcs : List (String × Bool × Signature)) (ready : List String)
    {decls list : List ConstDecl} (hlist : ∀ d ∈ list, d ∈ decls) (s : Session) :
    s.errors.Follows ((foldAll env decls list).run s).2.errors ∧
      (((foldAll env decls list).run s).2.Clean → s.Clean ∧
        (s.Valid (env.folding funcs decls (decls.length + 1) ready) →
          EnvFull env funcs [] [] (constNames decls) →
          ((foldAll env decls list).run s).2.Valid (env.folding funcs decls (decls.length + 1)
            ((constNames list).reverse ++ ready)))) := by
  induction list generalizing s ready with
  | nil => exact ⟨.refl _, fun hclean => ⟨hclean, fun hvalid _ => hvalid⟩⟩
  | cons d rest ih =>
      obtain ⟨hd, hrest⟩ := List.forall_mem_cons.1 hlist
      have hmem : d.name.text ∈ constNames decls := List.mem_map_of_mem hd
      obtain ⟨d', hd'⟩ := Option.isSome_iff_exists.1 (find?_constNames hmem)
      have hrun : (foldAll env decls (d :: rest)).run s = (foldAll env decls rest).run
          ((constant env decls (decls.length + 1) d.name.text).run s).2 := rfl
      rw [hrun]
      have hfirst := constant_folds (constant_source env funcs decls ready decls.length) hd' s
      generalize (constant env decls (decls.length + 1) d.name.text).run s = r at hfirst ⊢
      obtain ⟨hadds', hlast⟩ := ih (d.name.text :: ready) hrest r.2
      refine ⟨hfirst.1.trans hadds', fun hclean => ?_⟩
      obtain ⟨hmid, hlast⟩ := hlast hclean
      obtain ⟨hstart, hfirst⟩ := hfirst.2 hmid
      refine ⟨hstart, fun hvalid henv => ?_⟩
      have hend := hlast (hfirst hvalid henv).2 henv
      simpa [constNames] using hend

/-- Once all constants are folded, each one that is declared has a value. -/
theorem folded_source (env : Env) (funcs : List (String × Bool × Signature))
    (decls : List ConstDecl) (hw : ∀ list, w.consts list → (env.folded funcs decls).consts list) :
    SourceOk w foldedValue True (constNames decls) := by
  refine ⟨fun list h => folding_refines list (hw list h), foldedValue_ok, fun name => ?_⟩
  unfold foldedValue folded
  refine Watch.Ensures.bind (Q := fun r => r.isSome = true) ?_ fun r => .pure fun h => by
    simpa using h.2
  refine Watch.Ensures.get.bind fun s => ?_
  split
  next r hlookup =>
    refine .pure fun h => ?_
    obtain ⟨k, rfl, _⟩ := (hw _ h.2).folded name r (mem_of_lookup hlookup)
    rfl
  next hnone =>
    refine .pure fun h => ?_
    obtain ⟨k, hk⟩ := (hw _ h.2).ready name h.1.2
    exact (hnone _ hk).elim

/-- Once all constants are folded, each declaration has its constant, and what is watched of the
constants holds of it. -/
theorem folded_folds {decls : List ConstDecl} {K : String → Typed.Const → Prop} (name : String)
    (hw : ∀ list, w.consts list → (env.folded funcs decls).consts list ∧
      ∀ name k, (name, Folding.done (some k)) ∈ list → K name k) :
    w.Ensures (folded name) (name ∈ constNames decls) fun r =>
      ∃ k, r = some k ∧ FoldedFrom (env.context funcs []) decls name k ∧ K name k := by
  unfold folded
  refine Watch.Ensures.get.bind fun s => ?_
  split
  next r hlookup =>
    refine .pure fun h => ?_
    obtain ⟨hfolds, hK⟩ := hw _ h.2
    obtain ⟨k, rfl, hk⟩ := hfolds.folded name r (mem_of_lookup hlookup)
    exact ⟨k, rfl, hk, hK name k (mem_of_lookup hlookup)⟩
  next hnone =>
    refine .pure fun h => ?_
    obtain ⟨k, hk⟩ := (hw _ h.2).1.ready name h.1
    exact (hnone _ hk).elim

end Check

end ClassLang
