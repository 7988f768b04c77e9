import ClassLang.Proofs.Check.Erasure
import ClassLang.Proofs.Check.Stmt

/-!
What the checker promises about a whole unit: its table and its functions are well
typed.
-/

namespace ClassLang

namespace Check

variable {w : Watch} {P C : Prop} {env : Env} {consts : ConstSource} {Δ : List TypeParam}
  {vars : List Var} {funcs : List (String × Bool × Signature)} {s : Scope Symbol}

/-! Constants -/

theorem constDecl_ensures (funcs : List (String × Bool × Signature)) (Δ : List TypeParam)
    (vars : List Var) (hconsts : ConstsOk consts C) {d : ConstDecl} :
    Ensures (constDecl env consts d) (EnvOk env funcs Δ vars ∧ C) fun r =>
      ∀ c ∈ r, c.value.Fits c.type.ty ∧ c.expr.Ok (env.context funcs Δ) vars := by
  unfold constDecl
  refine ((varType_ensures (Δ := Δ)).imp (fun h => ⟨h.1.types, h.1.basic⟩) fun _ _ h => h).bind
    fun term => ?_
  dsimp only
  split
  next => exact .fail
  next hbasic =>
    refine ((operand_ensures hconsts d.value).imp And.left fun _ _ h => h).bind fun r => ?_
    split
    next x term =>
      split
      next => exact .fail
      next value hvalue =>
        refine assignable_ensures.bind fun ok => ?_
        split
        next hok =>
          refine .pure fun h c hc => ?_
          obtain ⟨⟨⟨⟨henv, _⟩, hterm⟩, hx⟩, hassign⟩ := h
          obtain rfl := Option.mem_some.1 hc
          obtain ⟨term', heq, hscoped, _⟩ := hterm
          cases heq
          have hfits := (hassign hok).fits ((hx x rfl).scoped henv.sound) hscoped
          have hvalue := (hx x rfl).value_fits hvalue
          obtain heq | ⟨name, _, heq, _⟩ := hfits
          · refine ⟨?_, hx x rfl⟩
            change value.Fits (tyOf (some term))
            rw [← heq]
            exact hvalue
          · rw [heq] at hbasic
            exact absurd rfl hbasic
        next => exact .pure fun _ c hc => by cases hc
    next => exact .pure fun _ c hc => by cases hc

/-- A change to the constants alone keeps a clean session clean. -/
theorem modifyConsts_ensures {K : Typed.Const → Prop} {entry : String × Folding}
    (h : P → ∀ c, entry.2 = .done (some c) → K c) :
    (Watch.each K).Ensures (modify fun s : Session => { s with consts := entry :: s.consts }) P
      fun _ => True := by
  intro s
  refine ⟨.refl _, fun hend => ⟨hend, fun hvalid hp => ⟨fun name c hc => ?_, trivial⟩⟩⟩
  rcases List.mem_cons.1 hc with heq | hc
  · exact h hp c (by rw [← heq])
  · exact hvalid name c hc

theorem constant_ensures {decls : List ConstDecl} {fuel : Nat} :
    ConstsOk (constant env decls fuel) (EnvOk env funcs Δ vars) := by
  induction fuel with
  | zero =>
      intro name
      exact .pure fun _ e he => by cases he
  | succ fuel ih =>
      intro name
      unfold constant
      refine Watch.Ensures.get.bind fun s => ?_
      split
      next result hlookup =>
        refine .pure fun h e he => ?_
        obtain ⟨c, rfl, rfl⟩ := Option.map_eq_some_iff.1 he
        exact h.2 name c (mem_of_lookup hlookup)
      next => exact .fail
      next d _ _ =>
        refine (modifyConsts_ensures (by simp)).bind fun _ => ?_
        refine ((constDecl_ensures funcs Δ vars ih).imp
          (fun h => ⟨h.1.1, h.1.1⟩) fun _ _ h => h).bind fun result => ?_
        refine (modifyConsts_ensures fun h c hc => ?_).bind fun _ => .pure fun h e he => ?_
        · cases hc
          exact (h.2 c rfl).1
        · obtain ⟨c, rfl, rfl⟩ := Option.map_eq_some_iff.1 he
          exact (h.1.2 c rfl).1
      next => exact .pure fun _ e he => by cases he

theorem foldAll_ensures (funcs : List (String × Bool × Signature)) (Δ : List TypeParam)
    (vars : List Var) {decls list : List ConstDecl} :
    Ensures (foldAll env decls list) (EnvOk env funcs Δ vars) fun _ => True := by
  induction list with
  | nil => exact .pure fun _ => trivial
  | cons d rest ih =>
      unfold foldAll
      refine Watch.Ensures.bind (.discard (Q := fun _ => True) ((constant_ensures d.name.text).imp id
        fun _ _ _ => trivial)) fun _ => ?_
      exact ih.imp And.left fun _ _ h => h

theorem folded_ensures {K : Typed.Const → Prop} {name : String} :
    (Watch.each K).Ensures (folded name) P fun r => ∀ c ∈ r, K c := by
  unfold folded
  refine Watch.Ensures.get.bind fun s => ?_
  split
  next result hlookup =>
    refine .pure fun h c hc => ?_
    cases hc
    exact h.2 name c (mem_of_lookup hlookup)
  next => exact .pure fun _ c hc => by cases hc

theorem foldedValue_ok : ConstsOk foldedValue True := by
  intro name
  unfold foldedValue
  refine folded_ensures.bind fun r => .pure fun h e he => ?_
  obtain ⟨c, rfl, rfl⟩ := Option.map_eq_some_iff.1 he
  exact h.2 c rfl

/-! Functions -/

theorem body_ensures {p : Place} {C : Prop} (hconsts : ConstsOk p.consts C)
    (funcs : List (String × Bool × Signature)) (Δ : List TypeParam) (vars : List Var)
    {name : String} {b : Block} :
    Ensures (body p s name b) (StandsIn p s funcs Δ vars C ∧ b.Shaped) fun r =>
      ∀ b' ∈ r.2, b'.StandsFor b ∧
        (∃ vars', Typed.StmtsOk (p.context funcs Δ) p.result vars b'.stmts vars') ∧
        (p.result.isVoid = false → b'.returns = true) := by
  unfold body
  obtain ⟨pos, list, close⟩ := b
  refine (((stmts_ensures hconsts vars list).gives (stmts_gives p s list)).imp
    (fun h => ⟨h.1, by simpa [Block.Shaped] using h.2⟩) fun _ _ h => h).bind ?_
  rintro ⟨s', ts⟩
  dsimp only
  split
  next => exact .report_bind (.pure False.elim)
  next hreturn =>
    refine .pure fun h b' hb' => ?_
    obtain ⟨_, ⟨vars', _, hok⟩, hstands⟩ := h
    obtain ⟨ts, hmem, rfl⟩ := Option.map_eq_some_iff.1 hb'
    have hstands : (Typed.Block.mk ts).StandsFor (.mk pos list close) := .mk (hstands ts hmem)
    refine ⟨hstands, ⟨vars', hok ts hmem⟩, fun hresult => ?_⟩
    rw [hstands.returns]
    simpa [hresult] using hreturn

namespace EnvOk

/-- Entering the scope of a class or a function. -/
theorem enter {Δ' : List TypeParam} (h : EnvOk env funcs Δ []) (hsub : ∀ p ∈ Δ, p ∈ Δ')
    (hentries : ∀ e ∈ s.entries, LocalEntry env.table.arity Δ' e)
    (hvars : ∀ v, varEntry v ∈ s.entries → vars.find? (·.name = v.name) = some v) :
    EnvOk (env.enter s) funcs Δ' vars := by
  have hback {name : String} {sym : Symbol} (htype : ∀ p pos, sym ≠ .typeParam p pos)
      (hvar : ∀ v, sym ≠ .var v) (hl : (env.enter s).lookup name = some sym) :
      env.lookup name = some sym := by
    rw [lookup_enter] at hl
    cases hfind : s.find? name with
    | none => simpa [hfind] using hl
    | some sym' =>
        obtain rfl : sym' = sym := by simpa [hfind] using hl
        obtain ⟨p, pos, heq, _⟩ | ⟨v, heq, _⟩ := hentries _ (find?_mem hfind)
        · exact absurd heq (htype p pos)
        · cases heq
          exact absurd rfl (hvar v)
  refine ⟨⟨h.sound.table, h.sound.funcs⟩, h.collected, typesIn_enter (typesIn_mono h.types hsub) hentries,
    basicIn_enter h.basic hentries, ?_, ?_, ?_⟩
  · exact fun name id host sig hid => h.func name id host sig (hback (by simp) (by simp) hid)
  · exact fun name id hid => h.cls name id (hback (by simp) (by simp) hid)
  · intro name v hv
    rw [lookup_enter] at hv
    cases hfind : s.find? name with
    | none =>
        have hout := h.var name v (by simpa [hfind] using hv)
        simp at hout
    | some sym =>
        obtain rfl : sym = .var v := by simpa [hfind] using hv
        have hmem := find?_mem hfind
        obtain ⟨p, pos, heq, _⟩ | ⟨w, heq, hknown⟩ := hentries _ hmem
        · cases heq
        · cases heq
          exact ⟨hvars v hmem, hknown⟩

end EnvOk

namespace HeaderOk

variable {ar : String → Option Nat} {own : Option Ty} {d : FuncDecl} {h : Typed.Header}

theorem localEntry (hok : HeaderOk ar Δ own d h s)
    (hself : ∀ t ∈ own, t.Scoped ar Δ ∧ t.isVoid = false) :
    ∀ e ∈ s.entries, LocalEntry ar (h.sig.tparams ++ Δ) e := by
  intro e he
  rw [hok.entries, hok.recv] at he
  rw [hok.tparams]
  rcases List.mem_append.1 he with he | he
  · exact localEntry_header hself he
  · obtain ⟨x, hx, rfl⟩ := List.mem_map.1 he
    have htypes := hok.param_types x hx
    rw [hok.tparams] at htypes
    exact .inr ⟨x.1, rfl, htypes⟩

/-- The variables of a header have different names. -/
theorem vars_nodup (hok : HeaderOk ar Δ own d h s) : (h.vars.map (·.name)).Nodup := by
  have hvars : h.vars.reverse.map varEntry <:+ s.entries := by
    rw [hok.entries, List.append_assoc]
    simp only [Typed.Header.vars, List.reverse_reverse, List.map_append, List.map_map]
    exact List.suffix_append _ _
  have hsub := (hvars.sublist.map Prod.fst).nodup hok.nodup
  rw [List.map_map, List.map_reverse, List.nodup_reverse] at hsub
  exact hsub

/-- The variables of a header are found by name. -/
theorem find_var (hok : HeaderOk ar Δ own d h s) {v : Var} (hv : varEntry v ∈ s.entries) :
    h.vars.find? (·.name = v.name) = some v := by
  have hnodup := hok.vars_nodup
  have hmem : v ∈ h.vars := by
    rw [hok.entries] at hv
    simp only [List.mem_append, List.mem_map, varEntry, paramEntry, Prod.mk.injEq,
      Symbol.var.injEq, reduceCtorEq, and_false, exists_false, false_or] at hv
    simp only [Typed.Header.vars, List.mem_reverse, List.mem_append, List.mem_map]
    rcases hv with ⟨w, hw, _, rfl⟩ | ⟨e, he, _, rfl⟩
    · exact .inl hw
    · exact .inr ⟨e, he, rfl⟩
  cases hfind : h.vars.find? (·.name = v.name) with
  | none => simpa using List.find?_eq_none.1 hfind v hmem
  | some w =>
      have hname : w.name = v.name := by simpa using List.find?_some hfind
      rw [List.inj_on_of_nodup_map hnodup (List.mem_of_find?_eq_some hfind) hmem hname]

theorem vars_types (hok : HeaderOk ar Δ own d h s)
    (hself : ∀ t ∈ own, t.Scoped ar Δ ∧ t.isVoid = false) :
    ∀ v ∈ h.vars, v.ty.Scoped ar (h.sig.tparams ++ Δ) ∧ v.ty.isVoid = false := by
  intro v hv
  have hmem : varEntry v ∈ s.entries := by
    rw [hok.entries]
    simp only [Typed.Header.vars, List.mem_reverse, List.mem_append, List.mem_map] at hv
    simp only [List.mem_append, List.mem_map]
    rcases hv with hv | ⟨e, he, rfl⟩
    · exact .inl (.inr ⟨v, hv, rfl⟩)
    · exact .inr ⟨e, he, rfl⟩
  obtain ⟨p, pos, heq, _⟩ | ⟨w, heq, hknown⟩ := hok.localEntry hself _ hmem
  · cases heq
  · obtain rfl : v = w := Symbol.var.inj (Prod.mk.inj heq).2
    exact hknown

/-- The variables of a header are declared where the source declares them. -/
theorem places_sublist (hok : HeaderOk ar Δ own d h s) :
    (h.recv.toList.map (·.pos) ++ h.params.map (·.1.pos)).Sublist
      (d.recv.toList.map (·.pos) ++ d.params.map (·.name.pos)) := by
  refine List.Sublist.append ?_ ?_
  · rw [hok.recv]
    cases own with
    | none => simp [receiverOf]
    | some ty => cases d.recv <;> simp [receiverOf]
  · have hplaces := congrArg (List.map fun x : String × Pos × VarKind => x.2.1) hok.places
    simp only [List.map_map, Function.comp_def] at hplaces
    rw [hplaces]

/-- The parameters of a header have the names that the source gives them. -/
theorem param_names (hok : HeaderOk ar Δ own d h s) :
    h.params.map (·.1.name) = d.params.map (·.name.text) := by
  have hplaces := congrArg (List.map fun x : String × Pos × VarKind => x.1) hok.places
  simpa only [List.map_map, Function.comp_def] using hplaces

end HeaderOk

/-- The checked function for a function whose header has been checked. -/
structure FuncFaithful (Γ : Typed.Context) (p : Prepared) (g : Typed.Func) : Prop where
  decl : g.decl = p.decl
  ref : g.ref = p.ref
  sym : g.sym = p.sym
  header : g.header = p.header
  stands : g.BodyStands p.decl
  binders : g.binders.Sublist p.decl.binders
  names : g.header.params.map (·.1.name) = g.decl.params.map (·.name.text)
  distinct : (g.header.vars.map (·.name)).Nodup
  ok : g.Ok Γ

theorem funcBody_ensures (funcs : List (String × Bool × Signature)) (Δ : List TypeParam)
    (own : Option Ty) {p : Prepared} :
    Ensures (funcBody env p) (EnvOk env funcs Δ [] ∧
      HeaderOk env.table.arity Δ own p.decl p.header p.scope ∧
      (∀ t ∈ own, t.Scoped env.table.arity Δ ∧ t.isVoid = false) ∧
      ∀ b ∈ p.decl.body, b.Shaped) fun r =>
      ∀ g ∈ r.2, FuncFaithful (env.context funcs (p.header.sig.tparams ++ Δ)) p g := by
  unfold funcBody
  split
  next hnone =>
    refine .pure fun h g hg => ?_
    obtain ⟨henv, hok, hself, _⟩ := h
    obtain rfl := Option.mem_some.1 hg
    refine ⟨rfl, rfl, rfl, rfl, by rw [Typed.Func.BodyStands, hnone]; exact .none, ?_, hok.param_names, hok.vars_nodup, hok.params,
      hok.vars_types hself, hok.result, by simp, by simp⟩
    simpa [Typed.Func.binders, FuncDecl.binders, hnone] using hok.places_sublist
  next b hb =>
    dsimp only
    refine ((body_ensures (p := ⟨env, foldedValue, p.header.sig.result⟩) foldedValue_ok funcs
      (p.header.sig.tparams ++ Δ) p.header.vars).imp ?_ fun _ _ h => h).bind ?_
    · rintro ⟨henv, hok, hself, hshape⟩
      refine ⟨⟨⟨henv.enter (fun p hp => List.mem_append_right _ hp) (hok.localEntry hself)
        fun v hv => hok.find_var hv, trivial⟩, hok.result⟩, hshape b hb⟩
    · rintro ⟨s, b'⟩
      refine .pure fun h g hg => ?_
      obtain ⟨⟨henv, hok, hself, _⟩, hr⟩ := h
      obtain ⟨b', hmem, rfl⟩ := Option.map_eq_some_iff.1 hg
      obtain ⟨hstands, hbody, hreturns⟩ := hr b' hmem
      refine ⟨rfl, rfl, rfl, rfl, by rw [Typed.Func.BodyStands, hb]; exact .some hstands, ?_,
        hok.param_names, hok.vars_nodup, hok.params, hok.vars_types hself, hok.result, ?_, ?_⟩
      · simpa [Typed.Func.binders, FuncDecl.binders, hb, hstands.binders] using
          hok.places_sublist.append (List.Sublist.refl _)
      · intro b'' hb''
        obtain rfl := Option.mem_some.1 hb''
        exact hbody
      · intro b'' hb''
        obtain rfl := Option.mem_some.1 hb''
        exact hreturns

theorem funcBodies_ensures (funcs : List (String × Bool × Signature)) (Δ : List TypeParam)
    (own : Option Ty) {list : List Prepared} :
    Ensures (funcBodies env s list) (EnvOk env funcs Δ [] ∧
      (∀ p ∈ list, HeaderOk env.table.arity Δ own p.decl p.header p.scope) ∧
      (∀ t ∈ own, t.Scoped env.table.arity Δ ∧ t.isVoid = false) ∧
      ∀ p ∈ list, ∀ b ∈ p.decl.body, b.Shaped) fun r =>
      ∀ gs ∈ r.2, List.Forall₂ (fun p g =>
        FuncFaithful (env.context funcs (p.header.sig.tparams ++ Δ)) p g) list gs := by
  induction list generalizing s with
  | nil =>
      refine .pure fun _ gs hgs => ?_
      obtain rfl := Option.mem_some.1 hgs
      exact .nil
  | cons p rest ih =>
      unfold funcBodies
      refine ((funcBody_ensures funcs Δ own).imp (fun h => ?_)
        fun _ _ h => h).bind fun (inner, g) => ?_
      · exact ⟨h.1, h.2.1 p (by simp), h.2.2.1, h.2.2.2 p (by simp)⟩
      refine (ih.imp (fun h => ?_) fun _ _ h => h).bind fun (s', gs) => ?_
      · obtain ⟨⟨henv, hok, hself, hshape⟩, _⟩ := h
        exact ⟨henv, fun p hp => hok p (by simp [hp]), hself, fun p hp => hshape p (by simp [hp])⟩
      dsimp only
      split
      next g gs =>
        refine .pure fun h gs' hgs' => ?_
        obtain rfl := Option.mem_some.1 hgs'
        exact .cons (h.1.2 g rfl) (h.2 gs rfl)
      next => exact .pure fun _ gs hgs => by cases hgs

/-! Declarations -/

/-- A checked function stands for its declaration. -/
structure Located (g : Typed.Func) : Prop where
  stands : g.BodyStands g.decl
  binders : g.binders.Sublist g.decl.binders
  names : g.header.params.map (·.1.name) = g.decl.params.map (·.name.text)
  distinct : (g.header.vars.map (·.name)).Nodup

theorem FuncFaithful.located {Γ : Typed.Context} {p : Prepared} {g : Typed.Func}
    (h : FuncFaithful Γ p g) : Located g :=
  ⟨by rw [h.decl]; exact h.stands, by rw [h.decl]; exact h.binders, h.names, h.distinct⟩

/-- The checked function for the method `m` of a class with receivers of type `own`. -/
structure MethodFaithful (Γ : Typed.Context) (own : Ty) (m : Method) (g : Typed.Func) : Prop where
  ref : g.ref = m.ref
  sig : g.header.sig = m.sig
  recv : g.header.recv = receiverOf (some own) g.decl.recv
  ok : g.Ok Γ
  located : Located g

/-- A checked declaration stands for its declaration. -/
def DeclFaithful (t : Table) (funcs : List (String × Bool × Signature)) :
    Decl → Typed.Decl → Prop
  | .cls d, .cls k => ∃ c ∈ t.classes, c.decl = d ∧ k.methods.map (·.decl) = d.methods ∧
    List.Forall₂ (MethodFaithful ⟨t, funcs, c.tparams⟩ (selfType c)) c.methods k.methods
  | .func d, .func g => g.decl = d ∧ g.ref = .func d.name.text ∧ g.header.recv = none ∧
    (d.host = true → g.header.sig.tparams = []) ∧
    funcs.lookup d.name.text = some (d.host, g.header.sig) ∧
    g.Ok ⟨t, funcs, g.header.sig.tparams⟩ ∧ Located g
  | .bound _, .bound _ => True
  | .const _, .const _ => True
  | _, _ => False

namespace CollectedOk

variable {f : File} {c : Collected}

/-- The functions of a collected unit by name. -/
def signatures (c : Collected) : List (String × Bool × Signature) :=
  c.funcs.map fun p => (p.decl.name.text, p.decl.host, p.header.sig)

/-- The members that were collected for a class of the unit. -/
theorem members_of (h : CollectedOk f c) {d : ClassDecl} (hd : .cls d ∈ f.decls) {m : Members}
    (hm : c.classes.lookup d.name.text = some m) :
    ∃ id info, info ∈ c.table.classes ∧ info.decl = d ∧
      ClassOk c.table.arity c.table id info m := by
  obtain ⟨ms, hclasses, hlen, hall⟩ := h.members
  rw [hclasses] at hm
  obtain ⟨id, hid, hget⟩ := List.mem_iff_getElem.1 (mem_of_lookup hm)
  have hid' : id < c.table.classes.length := by simpa [hlen] using hid
  obtain ⟨info, m', hm', hok⟩ := hall id hid'
  simp only [List.getElem_zip, List.getElem_map, Prod.mk.injEq] at hget
  have hinfo : c.table.classes[id] = info := by
    have := hok.class?
    rw [Table.class?, List.getElem?_eq_getElem hid'] at this
    exact Option.some.inj this
  obtain rfl : m' = m := by
    rw [List.getElem?_eq_getElem (by omega), hget.2] at hm'
    exact (Option.some.inj hm').symm
  have hdecl : info.decl ∈ f.decls.filterMap Decl.cls? := by
    rw [← h.linkedTo.classes]
    exact List.mem_map_of_mem (hinfo ▸ List.getElem_mem hid')
  refine ⟨id, info, hinfo ▸ List.getElem_mem hid', ?_, hok⟩
  obtain ⟨d', hd', heq'⟩ := List.mem_filterMap.1 hdecl
  cases d' with
  | cls d' =>
      obtain rfl : d' = info.decl := by simpa [Decl.cls?] using heq'
      have hname : info.decl.name.text = d.name.text := by rw [← hget.1, hinfo]; rfl
      have hsame := List.inj_on_of_nodup_map h.linkedTo.nodup hd' hd hname
      cases hsame
      rfl
  | _ => simp [Decl.cls?] at heq'

theorem find_func (h : CollectedOk f c) {d : FuncDecl} (hd : .func d ∈ f.decls) {p : Prepared}
    (hp : c.funcs.find? (·.decl.name.text = d.name.text) = some p) :
    p ∈ c.funcs ∧ p.decl = d := by
  have hmem := List.mem_of_find?_eq_some hp
  have hname : p.decl.name.text = d.name.text := by simpa using List.find?_some hp
  refine ⟨hmem, ?_⟩
  have hdecl : p.decl ∈ f.funcs := by
    rw [← h.funcs.decls]
    exact List.mem_map_of_mem hmem
  obtain ⟨d', hd', heq⟩ := List.mem_filterMap.1 hdecl
  cases d' with
  | func d' =>
      obtain rfl : d' = p.decl := by simpa using heq
      have hsame := List.inj_on_of_nodup_map h.linkedTo.nodup hd' hd hname
      cases hsame
      rfl
  | _ => simp at heq

theorem func_mem (h : CollectedOk f c) {p : Prepared} (hp : p ∈ c.funcs) :
    .func p.decl ∈ f.decls := by
  have hdecl : p.decl ∈ f.funcs := by
    rw [← h.funcs.decls]
    exact List.mem_map_of_mem hp
  obtain ⟨d', hd', heq⟩ := List.mem_filterMap.1 hdecl
  cases d' with
  | func d' =>
      obtain rfl : d' = p.decl := by simpa using heq
      exact hd'
  | _ => simp at heq

/-- A declaration of the unit is known by its name. -/
theorem decl_eq (h : CollectedOk f c) {d d' : Decl} (hd : d ∈ f.decls) (hd' : d' ∈ f.decls)
    (hname : d.name.text = d'.name.text) : d = d' :=
  List.inj_on_of_nodup_map h.linkedTo.nodup hd hd' hname

theorem funcs_nodup (h : CollectedOk f c) : (c.funcs.map (·.decl.name.text)).Nodup := by
  have hfuncs : c.funcs.map (·.decl.name.text) = f.funcs.map (·.name.text) := by
    rw [← h.funcs.decls, List.map_map]
    rfl
  rw [hfuncs]
  refine (Decl.names_sublist (fun d x hd => ?_) f.decls).nodup h.linkedTo.nodup
  cases d <;> simp at hd
  simp [Decl.name, hd]

theorem lookup_signatures (h : CollectedOk f c) {p : Prepared} (hp : p ∈ c.funcs) :
    (signatures c).lookup p.decl.name.text = some (p.decl.host, p.header.sig) :=
  lookup_map_of_nodup (fun p : Prepared => p.decl.name.text) h.funcs_nodup hp

theorem wellTyped (h : CollectedOk f c) : c.table.WellTyped := by
  obtain ⟨ms, hclasses, hlen, hall⟩ := h.members
  have hok {id : Nat} {info : ClassInfo} (hinfo : c.table.class? id = some info) :
      ∃ m, ClassOk c.table.arity c.table id info m := by
    obtain ⟨info', m, _, hok⟩ := hall id (Table.class?_eq_some_lt hinfo)
    obtain rfl : info' = info := by simpa [hinfo] using hok.class?.symm
    exact ⟨m, hok⟩
  have hmem {info : ClassInfo} (hinfo : info ∈ c.table.classes) :
      ∃ m, ClassOk c.table.arity c.table info.id info m :=
    hok (h.linkedTo.linked.class?_id hinfo)
  refine ⟨h.linkedTo.linked, ?_, ?_, ?_, ?_, ?_, ?_, ?_, h.bounds⟩
  · intro i info p hinfo hp m hm inherited hinherited
    obtain ⟨ms, hok⟩ := hok hinfo
    rw [hok.methods] at hm
    obtain ⟨x, hx, rfl⟩ := List.mem_map.1 hm
    exact hok.method_decls.overrides x hx p inherited hp hinherited
  · intro info hinfo fd hfd
    obtain ⟨ms, hok⟩ := hmem hinfo
    rw [hok.fields] at hfd
    obtain ⟨x, hx, rfl⟩ := List.mem_map.1 hfd
    obtain ⟨_, _, htypes⟩ := hok.field_decls.types x hx
    exact htypes
  · intro info hinfo
    obtain ⟨ms, hok⟩ := hmem hinfo
    rw [hok.fields]
    simpa using hok.field_decls.nodup
  · intro info hinfo p hp fd hfd
    obtain ⟨ms, hok⟩ := hmem hinfo
    rw [hok.fields] at hfd
    obtain ⟨x, hx, rfl⟩ := List.mem_map.1 hfd
    exact hok.field_decls.fresh x hx p hp
  · intro info hinfo m hm
    obtain ⟨ms, hok⟩ := hmem hinfo
    rw [hok.methods] at hm
    obtain ⟨x, hx, rfl⟩ := List.mem_map.1 hm
    obtain ⟨_, _, hnil, hheader⟩ := hok.method_decls.prepared x hx
    have htparams := hheader.tparams_nil hnil
    have hscoped := hheader.scoped
    rw [htparams] at hscoped
    exact ⟨hscoped, htparams⟩
  · intro info hinfo
    obtain ⟨ms, hok⟩ := hmem hinfo
    rw [hok.methods]
    exact hok.method_decls.nodup
  · intro info hinfo m hm
    obtain ⟨ms, hok⟩ := hmem hinfo
    rw [hok.methods] at hm
    obtain ⟨x, hx, rfl⟩ := List.mem_map.1 hm
    rfl

/-- The environment at the top of a collected unit. -/
def topEnv (c : Collected) : Env :=
  { table := c.table
    funcs := c.funcs.map fun p => (p.decl.name.text, p.header.sig)
    scopes := [c.table.unit, predeclared] }

theorem lookup_top (h : CollectedOk f c) {name : String} {sym : Symbol}
    (hl : (topEnv c).lookup name = some sym) :
    (∃ d ∈ f.decls, d.name.text = name ∧ d.symbol = sym) ∨ (name, sym) ∈ predeclared.entries :=
  UnitOf.lookup h.linkedTo.entries hl

theorem sound (h : CollectedOk f c) :
    ((topEnv c).context (signatures c) []).Sound where
  table := h.wellTyped
  funcs name host sig hsig := by
    obtain ⟨p, hp, heq⟩ := List.mem_map.1 (mem_of_lookup hsig)
    cases heq
    obtain ⟨_, _, _, hheader⟩ := h.funcs.prepared p hp
    have hscoped := hheader.scoped
    rwa [List.append_nil] at hscoped

theorem envOk (h : CollectedOk f c) : EnvOk (topEnv c) (signatures c) [] [] where
  sound := h.sound
  collected := rfl
  types := UnitOf.typesIn h.linkedTo.entries rfl
  basic := UnitOf.basicIn h.linkedTo.entries rfl
  func name id host sig hid hsig := by
    obtain ⟨p, hp, heq⟩ := List.mem_map.1 (mem_of_lookup hsig)
    cases heq
    obtain ⟨d, hd, hname, hsym⟩ | hpre := h.lookup_top hid
    · have hsame := h.decl_eq hd (h.func_mem hp) hname
      subst hsame
      cases hsym
      exact ⟨rfl, h.lookup_signatures hp⟩
    · simp [predeclared] at hpre
  cls name id hid := by
    obtain ⟨d, hd, rfl, hsym⟩ | hpre := h.lookup_top hid
    · cases d <;> simp only [Decl.symbol, reduceCtorEq, Symbol.cls.injEq] at hsym
      subst hsym
      rfl
    · simp [predeclared] at hpre
  var name v hv := by
    obtain ⟨d, hd, rfl, hsym⟩ | hpre := h.lookup_top hv
    · cases d <;> simp [Decl.symbol] at hsym
    · simp [predeclared] at hpre

end CollectedOk

/-- The checked methods of a class stand for its methods. -/
theorem forall₂_methodFaithful {t : Table} {c : ClassInfo} {list : List Prepared}
    {gs : List Typed.Func} (hlist : ∀ p ∈ list, p.ref = (p.method c.name).ref ∧
      p.decl.tparams = [] ∧
      HeaderOk t.arity c.tparams (some (selfType c)) p.decl p.header p.scope)
    (h : List.Forall₂ (fun p g => FuncFaithful ⟨t, funcs, p.header.sig.tparams ++ c.tparams⟩ p g)
      list gs) :
    List.Forall₂ (MethodFaithful ⟨t, funcs, c.tparams⟩ (selfType c))
      (list.map (·.method c.name)) gs ∧ gs.map (·.decl) = list.map (·.decl) := by
  induction h with
  | nil => exact ⟨.nil, rfl⟩
  | @cons p g list gs hg _ ih =>
      obtain ⟨hrest, hdecls⟩ := ih fun p hp => hlist p (by simp [hp])
      obtain ⟨href, hnil, hheader⟩ := hlist p (by simp)
      have hok := hg.ok
      rw [hheader.tparams_nil hnil, List.nil_append] at hok
      refine ⟨.cons ⟨by rw [hg.ref, href], by rw [hg.header]; rfl, ?_, hok, hg.located⟩ hrest,
        by simp [hdecls, hg.decl]⟩
      rw [hg.header, hheader.recv, hg.decl]

theorem classDecl_ensures {f : File} {c : Collected} {d : ClassDecl} {m : Members}
    (info : ClassInfo) (id : Nat) :
    Ensures (classDecl (CollectedOk.topEnv c) d m) (CollectedOk f c ∧
      info ∈ c.table.classes ∧ info.decl = d ∧
      ClassOk c.table.arity c.table id info m ∧ ∀ x ∈ d.methods, ∀ b ∈ x.body, b.Shaped) fun r =>
      ∀ k ∈ r.2, DeclFaithful c.table (CollectedOk.signatures c) (.cls d) (.cls k) := by
  unfold classDecl
  refine ((funcBodies_ensures (CollectedOk.signatures c) info.tparams
    (some (selfType info))).imp ?_ fun _ _ h => h).bind fun (s, gs) => .pure fun h k hk => ?_
  · rintro ⟨hc, hinfo, rfl, hok, hshape⟩
    have hself : ∀ t ∈ some (selfType info), t.Scoped c.table.arity info.tparams ∧
        t.isVoid = false := by
      intro t ht
      obtain rfl := Option.mem_some.1 ht
      refine ⟨selfType_scoped ?_, selfType_isVoid info⟩
      simp [Table.arity, hc.linkedTo.linked.classNamed?_name hinfo]
    refine ⟨hc.envOk.enter (by simp) (fun e he => ?_) (fun v hv => ?_),
      fun p hp => (hok.method_decls.prepared p hp).2.2.2, hself, fun p hp => hshape _ ?_⟩
    · rw [hok.opened.entries] at he
      obtain ⟨x, hx, rfl⟩ := List.mem_map.1 he
      exact .inl ⟨x.param, _, rfl, by rw [hok.tparams]; exact List.mem_map_of_mem hx⟩
    · rw [hok.opened.entries] at hv
      obtain ⟨x, hx, heq⟩ := List.mem_map.1 hv
      cases (Prod.mk.inj heq).2
    · rw [← hok.method_decls.decls]
      exact List.mem_map_of_mem hp
  · obtain ⟨⟨hc, hinfo, rfl, hok, _⟩, hgs⟩ := h
    obtain ⟨gs, hmem, rfl⟩ := Option.map_eq_some_iff.1 hk
    obtain ⟨hfaithful, hdecls⟩ := forall₂_methodFaithful (c := info) (fun p hp =>
      ⟨(hok.method_decls.prepared p hp).1, (hok.method_decls.prepared p hp).2.2⟩) (hgs gs hmem)
    refine ⟨info, hinfo, rfl, by rw [hdecls, hok.method_decls.decls], ?_⟩
    rw [hok.methods]
    exact hfaithful

theorem declaration_ensures {f : File} {c : Collected} {scopes : Scopes} {d : Decl} :
    Ensures (declaration (CollectedOk.topEnv c) c scopes d)
      (CollectedOk f c ∧ d ∈ f.decls ∧ ∀ x ∈ d.functions, ∀ b ∈ x.body, b.Shaped) fun r =>
      ∀ t ∈ r.2, DeclFaithful c.table (CollectedOk.signatures c) d t := by
  cases d with
  | cls d =>
      rw [declaration]
      split
      next => exact .pure fun _ t ht => by cases ht
      next m hm =>
        refine Watch.Ensures.bind (Q := fun r => ∀ k ∈ r.2,
          DeclFaithful c.table (CollectedOk.signatures c) (.cls d) (.cls k)) ?_
          fun (s, k) => .pure fun h t ht => ?_
        · intro s
          have hbase := classDecl_ensures (f := f) (c := c) (d := d) (m := m)
            { id := 0, decl := d, tparams := [] } 0 s
          refine ⟨hbase.1, fun hclean => ⟨(hbase.2 hclean).1, fun hvalid h => ?_⟩⟩
          obtain ⟨hc, hd, hshape⟩ := h
          obtain ⟨id, info, hinfo, hdecl, hok⟩ := hc.members_of hd hm
          exact ((classDecl_ensures (f := f) info id s).2 hclean).2 hvalid ⟨hc, hinfo, hdecl, hok, hshape⟩
        · obtain ⟨k, hk, rfl⟩ := Option.map_eq_some_iff.1 ht
          exact h.2 k hk
  | bound d =>
      rw [declaration]
      refine .pure fun _ t ht => ?_
      obtain rfl := Option.mem_some.1 ht
      trivial
  | func d =>
      rw [declaration]
      split
      next => exact .pure fun _ t ht => by cases ht
      next p hp =>
        refine ((funcBody_ensures (CollectedOk.signatures c) [] none).imp
          ?_ fun _ _ h => h).bind fun (s, g) => .pure fun h t ht => ?_
        · rintro ⟨hc, hd, hshape⟩
          obtain ⟨hmem, rfl⟩ := hc.find_func hd hp
          obtain ⟨_, _, _, hheader⟩ := hc.funcs.prepared p hmem
          exact ⟨hc.envOk, hheader, by simp, hshape p.decl (by simp [Decl.functions])⟩
        · obtain ⟨⟨hc, hd, _⟩, hg⟩ := h
          obtain ⟨hmem, rfl⟩ := hc.find_func hd hp
          obtain ⟨g, hmem', rfl⟩ := Option.map_eq_some_iff.1 ht
          have hg := hg g hmem'
          obtain ⟨href, _, hhost, hheader⟩ := hc.funcs.prepared p hmem
          have hok := hg.ok
          rw [List.append_nil] at hok
          refine ⟨hg.decl, by rw [hg.ref, href], ?_, fun h => ?_, ?_, ?_, hg.located⟩
          · rw [hg.header, hheader.recv]
            rfl
          · rw [hg.header, hheader.tparams_nil (hhost h)]
          · rw [hg.header]
            exact hc.lookup_signatures hmem
          · rw [hg.header]
            exact hok
  | const d =>
      rw [declaration]
      refine Watch.Ensures.bind folded_ensures fun r => .pure fun _ t ht => ?_
      obtain ⟨k, _, rfl⟩ := Option.map_eq_some_iff.1 ht
      trivial

theorem declarations_ensures {f : File} {c : Collected} {scopes : Scopes} {list : List Decl} :
    Ensures (declarations (CollectedOk.topEnv c) c scopes list)
      (CollectedOk f c ∧ (∀ d ∈ list, d ∈ f.decls) ∧
        ∀ d ∈ list, ∀ x ∈ d.functions, ∀ b ∈ x.body, b.Shaped) fun r =>
      ∀ ts ∈ r.2, List.Forall₂ (DeclFaithful c.table (CollectedOk.signatures c)) list ts := by
  induction list generalizing scopes with
  | nil =>
      refine .pure fun _ ts hts => ?_
      obtain rfl := Option.mem_some.1 hts
      exact .nil
  | cons d rest ih =>
      unfold declarations
      refine Watch.Ensures.full.bind fun full => ?_
      split
      next => exact .pure fun _ ts hts => by cases hts
      next =>
        refine ((declaration_ensures (f := f)).imp (fun h => ?_) fun _ _ h => h).bind
          fun (scopes, t) => ?_
        · exact ⟨h.1.1, h.1.2.1 d (by simp), h.1.2.2 d (by simp)⟩
        refine (ih.imp (fun h => ?_) fun _ _ h => h).bind fun (scopes, ts) => ?_
        · obtain ⟨⟨⟨hc, hmem, hshape⟩, _⟩, _⟩ := h
          exact ⟨hc, fun d hd => hmem d (by simp [hd]), fun d hd => hshape d (by simp [hd])⟩
        dsimp only
        split
        next t ts =>
          refine .pure fun h ts' hts' => ?_
          obtain rfl := Option.mem_some.1 hts'
          exact .cons (h.1.2 t rfl) (h.2 ts rfl)
        next => exact .pure fun _ ts hts => by cases hts

theorem finish_ensures {f : File} {c : Collected} :
    Ensures (finish f c) (CollectedOk f c ∧ ∀ x ∈ f.functions, ∀ b ∈ x.body, b.Shaped) fun r =>
      ∀ t ∈ r, t.table = c.table ∧
        List.Forall₂ (DeclFaithful c.table (CollectedOk.signatures c)) f.decls t.decls := by
  unfold finish
  refine ((foldAll_ensures (CollectedOk.signatures c) [] []).imp
    (fun h => h.1.envOk) fun _ _ h => h).bind fun _ => ?_
  refine ((declarations_ensures (f := f) (c := c)).imp (fun h => ?_) fun _ _ h => h).bind
    fun (scopes, ts) => ?_
  · refine ⟨h.1.1, fun d hd => hd, fun d hd x hx => h.1.2 x ?_⟩
    exact List.mem_flatMap.2 ⟨d, hd, hx⟩
  dsimp only
  split
  next => exact .pure fun _ t ht => by cases ht
  next ts =>
    refine .pure fun h t ht => ?_
    obtain rfl := Option.mem_some.1 ht
    exact ⟨rfl, h.2 ts rfl⟩

/-- A unit was linked to `table`, collected as `c` between the sessions `s` and `s'`, and
finished as `u`, all without an error. -/
structure Passed (f : File) (u : Typed.File) (table : Table) (c : Collected) (s s' : Session) :
    Prop where
  linked : LinkedTo table f.decls ∧ Bare table f.decls
  collected : (collect f table).run s = (some c, s')
  finished : ((finish f c).run s').1 = some u
  clean : ((finish f c).run s').2.Clean
  unfolded : s.consts = []

namespace Passed

variable {f : File} {u : Typed.File} {table : Table} {c : Collected} {s s' : Session}

/-- Without a demand on what is put off, a clean end is all that is asked for. -/
theorem upheld_iff {consts : List (String × Folding) → Prop} {s : Session} :
    s.Upheld { consts } ↔ s.Clean := by
  simp [Session.Upheld]

theorem middle (h : Passed f u table c s s') :
    s'.Clean ∧ s'.consts = [] ∧ CollectedOk f c := by
  have hclean := ((finish_ensures (f := f) (c := c) s').2 (upheld_iff.2 h.clean)).1.1
  have hcollect := (collect_ensures (w := { consts := (· = []) }) (t := table) (f := f) s).2
  rw [h.collected] at hcollect
  obtain ⟨hvalid, c', heq, hok⟩ :=
    (hcollect (upheld_iff.2 hclean)).2 h.unfolded h.linked
  cases heq
  exact ⟨hclean, hvalid, hok⟩

end Passed

theorem unit_passed {f : File} {s : Session} {u : Typed.File} (hstart : s.consts = [])
    (hu : ((unit f).run s).1 = some u) (hclean : ((unit f).run s).2.Clean) :
    ∃ table c s₁ s₂, Passed f u table c s₁ s₂ := by
  unfold unit at hu hclean
  rw [Watch.Ensures.run_bind] at hu hclean
  have hlink := fun w => link_ensures (w := w) (P := True) f.decls s
  generalize (link f.decls).run s = r at hu hclean hlink
  obtain ⟨table, s₁⟩ := r
  cases table with
  | none => cases hu
  | some table =>
      dsimp only at hu hclean hlink
      rw [Watch.Ensures.run_bind] at hu hclean
      have hcollect := collect_ensures (w := .values) (t := table) (f := f) s₁
      rcases hrun : (collect f table).run s₁ with ⟨c, s₂⟩
      rw [hrun] at hu hclean hcollect
      cases c with
      | none => cases hu
      | some c =>
          dsimp only at hu hclean hcollect
          obtain ⟨hend, _⟩ := (finish_ensures (f := f) (c := c) s₂).2 (Passed.upheld_iff.2 hclean)
          have hmiddle : s₁.Clean := (hcollect.2 hend).1.1
          obtain ⟨hvalid, table', heq, hlinked⟩ := ((hlink { consts := (· = []) }).2
            (Passed.upheld_iff.2 hmiddle)).2 hstart trivial
          cases heq
          exact ⟨table, c, s₁, s₂, hlinked, hrun, hu, hclean, hvalid⟩

theorem unit_follows (f : File) (s : Session) :
    s.errors.Follows ((unit f).run s).2.errors := by
  unfold unit
  rw [Watch.Ensures.run_bind]
  have hlink := (link_ensures (w := .values) (P := True) f.decls s).1
  generalize (link f.decls).run s = r at hlink ⊢
  obtain ⟨table, s₁⟩ := r
  cases table with
  | none => exact hlink
  | some table =>
      dsimp only
      rw [Watch.Ensures.run_bind]
      have hcollect := (collect_ensures (w := .values) (t := table) (f := f) s₁).1
      generalize (collect f table).run s₁ = r at hcollect ⊢
      obtain ⟨c, s₂⟩ := r
      cases c with
      | none => exact hlink.trans hcollect
      | some c => exact hlink.trans (hcollect.trans (finish_ensures (f := f) (c := c) s₂).1)

theorem finish_table {f : File} {c : Collected} {s : Session} {t : Typed.File}
    (h : ((finish f c).run s).1 = some t) : t.table = c.table := by
  unfold finish at h
  rw [Watch.Ensures.run_bind, Watch.Ensures.run_bind] at h
  split at h
  split at h
  · cases h
  · cases h
    rfl

end Check

namespace File

variable {f : File} {limit : Option Nat} {t : Typed.File}

/-- A unit that passes did so without an error. -/
theorem check_passed (h : f.check limit = .ok t) (hlimit : limit ≠ some 0) :
    ∃ table c s s', Check.Passed f t table c s s' := by
  unfold check at h
  split at h
  split at h
  next hfound hrun =>
    have hkept : ((Check.unit f).run { errors := { limit } }).2.errors.kept = [] := by
      rw [hrun]
      simpa [Collector.found] using hfound
    refine Check.unit_passed (s := { errors := { limit } }) rfl ?_ ?_
    · rw [hrun, Except.ok.inj h]
    · rw [Check.Session.Clean, (Check.unit_follows f _).eq_of_kept hlimit hkept]
      exact ⟨rfl, rfl⟩
  next => cases h

/-- A unit that passes was collected, and finished as the checked declarations say. -/
theorem check_finish (h : f.check limit = .ok t) (hlimit : limit ≠ some 0) :
    ∃ c, Check.CollectedOk f c ∧ t.table = c.table ∧
      ((∀ x ∈ f.functions, ∀ b ∈ x.body, b.Shaped) →
        List.Forall₂ (Check.DeclFaithful c.table (Check.CollectedOk.signatures c))
          f.decls t.decls) := by
  obtain ⟨table, c, s, s', hpassed⟩ := check_passed h hlimit
  obtain ⟨_, hunfolded, hc⟩ := hpassed.middle
  refine ⟨c, hc, Check.finish_table hpassed.finished, fun hshape => ?_⟩
  have hfinish := (Check.finish_ensures s').2 (Check.Passed.upheld_iff.2 hpassed.clean)
  have hvalid : s'.Valid .values := fun name k hk => by simp [hunfolded] at hk
  exact ((hfinish.2 hvalid ⟨hc, hshape⟩).2 t hpassed.finished).2

/-- The table of a unit that passes is well typed. -/
theorem check_wellTyped (h : f.check limit = .ok t) (hlimit : limit ≠ some 0) :
    t.table.WellTyped := by
  obtain ⟨c, hc, htable, _⟩ := check_finish h hlimit
  rw [htable]
  exact hc.wellTyped

/-- A unit passes if a run of the checker yields a value of the checked unit. -/
theorem exists_checked {α : Type} {value : Typed.File → α} {a : α}
    (h : (f.check limit).toOption.map value = some a) :
    ∃ u, f.check limit = .ok u ∧ value u = a := by
  generalize f.check limit = checked at h ⊢
  cases checked with
  | error _ => cases h
  | ok u => exact ⟨u, rfl, Option.some.inj h⟩

end File

end ClassLang
