import ClassLang.Proofs.Check.Collection
import ClassLang.Proofs.Check.Folding
import ClassLang.Proofs.Check.Result

/-!
A unit that is checked without an error is checked completely: there is a checked tree, it has the
sites of the unit, and everything is known about each of them.
-/

namespace ClassLang

namespace Check

variable {w : Watch} {P C : Prop} {env : Env} {consts : ConstSource} {Δ : List TypeParam}
  {vars : List Var} {funcs : List (String × Bool × Signature)} {names : List String}
  {s : Scope Symbol}

/-! Functions -/

namespace HeaderOk

variable {ar : String → Option Nat} {own : Option Ty} {d : FuncDecl} {h : Typed.Header}

theorem locals (hok : HeaderOk ar Δ own d h s) : Locals s := by
  intro e he
  rw [hok.entries] at he
  simp only [List.mem_append, List.mem_map] at he
  rcases he with (⟨t, _, rfl⟩ | ⟨v, _, rfl⟩) | ⟨x, _, rfl⟩
  · exact .inl ⟨_, _, rfl⟩
  · exact .inr ⟨_, rfl⟩
  · exact .inr ⟨_, rfl⟩

theorem mirrors_params (hok : HeaderOk ar Δ own d h s) :
    Mirrors (h.params.map fun e => .binder e.1) d.paramSites := by
  have hplaces := congrArg (List.map fun x : String × Pos × VarKind =>
    Site.binder ⟨x.2.1, x.1⟩) hok.places
  simpa [Mirrors, FuncDecl.paramSites, Typed.Site.erase, Function.comp_def] using hplaces

theorem mirrors_recv (hok : HeaderOk ar Δ own d h s)
    (hrecv : d.recv.isSome = true → own.isSome = true) :
    Mirrors (h.recv.toList.map .binder) (d.recv.toList.map .binder) := by
  rw [hok.recv]
  cases hd : d.recv with
  | none => cases own <;> rfl
  | some id =>
      obtain ⟨ty, rfl⟩ := Option.isSome_iff_exists.1 (hrecv (by rw [hd]; rfl))
      rfl

end HeaderOk

/-- A checked tree has the sites it was made from, and each expression among them is well typed. -/
structure Annotates (Γ : Typed.Context) (ns : List Typed.Site) (ms : List Site) : Prop where
  mirrors : Mirrors ns ms
  ok : ∀ n ∈ ns, n.Ok Γ

/-- Lists whose members are annotated are annotated as a whole. -/
theorem Annotates.flatMap {α β : Type} {Γ : Typed.Context} {g : α → List Typed.Site}
    {f : β → List Site} {l : List α} {l' : List β}
    (h : List.Forall₂ (fun b a => Annotates Γ (g a) (f b)) l' l) :
    Annotates Γ (l.flatMap g) (l'.flatMap f) := by
  refine ⟨Mirrors.flatMap (h.imp fun _ _ h => h.mirrors), fun n hn => ?_⟩
  obtain ⟨a, ha, hn⟩ := List.mem_flatMap.1 hn
  obtain ⟨_, _, hab⟩ := forall₂_partner h.flip ha
  exact hab.ok n hn

theorem body_answers {p : Place} (hsource : SourceOk w p.consts C names) (vars : List Var)
    {name : String} {b : Block} :
    w.Ensures (body p s name b) (StandsFull p s funcs Δ vars C names ∧ b.Shaped) fun r =>
      r.2.isSome = true := by
  unfold body
  obtain ⟨_, list, _⟩ := b
  obtain ⟨env, consts, result⟩ := p
  refine ((stmts_answers hsource vars list).imp (fun h => ⟨h.1, by simpa [Block.Shaped] using h.2⟩)
    fun _ _ h => h).bind ?_
  rintro ⟨s', ts⟩
  dsimp only
  split
  next => exact .report_bind (.pure False.elim)
  next => exact .pure fun h => by simpa using h.2.1

/-- Where the body of a function stands. -/
theorem EnvFull.stands {own : Option Ty} {p : Prepared} (henv : EnvFull env funcs Δ [] names)
    (hok : HeaderOk env.table.arity Δ own p.decl p.header p.scope)
    (hself : ∀ t ∈ own, t.Scoped env.table.arity Δ ∧ t.isVoid = false) :
    StandsFull ⟨env, foldedValue, p.header.sig.result⟩ p.scope funcs (p.header.sig.tparams ++ Δ)
      p.header.vars True names := by
  have hin := henv.toEnvOk.enter (fun p hp => List.mem_append_right _ hp) (hok.localEntry hself)
    fun v hv => hok.find_var hv
  exact ⟨⟨⟨hin, trivial⟩, hok.result⟩, henv.toKnown, hok.locals⟩

theorem funcBody_answers (hsource : SourceOk w foldedValue True names)
    (funcs : List (String × Bool × Signature)) (Δ : List TypeParam) (own : Option Ty)
    {p : Prepared} :
    w.Ensures (funcBody env p) (EnvFull env funcs Δ [] names ∧
      HeaderOk env.table.arity Δ own p.decl p.header p.scope ∧
      (∀ t ∈ own, t.Scoped env.table.arity Δ ∧ t.isVoid = false) ∧
      ∀ b ∈ p.decl.body, b.Shaped) fun r => r.2.isSome = true := by
  unfold funcBody
  split
  next => exact .pure fun _ => rfl
  next b hb =>
    dsimp only
    refine ((body_answers hsource p.header.vars).imp
      (fun h => ⟨h.1.stands h.2.1 h.2.2.1, h.2.2.2 b hb⟩) fun _ _ h => h).bind ?_
    rintro ⟨s, b'⟩
    exact .pure fun h => by simpa using h.2

/-- A function that is checked without an error is annotated. -/
theorem funcBody_annotates (hsource : SourceOk w foldedValue True names)
    (funcs : List (String × Bool × Signature)) (Δ : List TypeParam) (own : Option Ty)
    {p : Prepared} :
    w.Ensures (funcBody env p) (EnvFull env funcs Δ [] names ∧
      HeaderOk env.table.arity Δ own p.decl p.header p.scope ∧
      (∀ t ∈ own, t.Scoped env.table.arity Δ ∧ t.isVoid = false) ∧
      (∀ b ∈ p.decl.body, b.Shaped) ∧ (p.decl.recv.isSome = true → own.isSome = true)) fun r =>
      ∃ g, r.2 = some g ∧ Annotates (env.context funcs []) g.sites p.decl.sites := by
  refine ((funcBody_answers hsource funcs Δ own).also hsource.refines
    (funcBody_ensures funcs Δ own)).imp ?_ fun h r hr => ?_
  · exact fun h => ⟨⟨h.1.toEnvOk, h.2.1, h.2.2.1, h.2.2.2.1⟩, h.1, h.2.1, h.2.2.1, h.2.2.2.1⟩
  · obtain ⟨_, hok, _, _, hrecv⟩ := h
    obtain ⟨hfaithful, hsome⟩ := hr
    obtain ⟨g, hg⟩ := Option.isSome_iff_exists.1 hsome
    have hfaithful := hfaithful g hg
    have hmirrors := ((hok.mirrors_recv hrecv).append hok.mirrors_params).append
      hfaithful.stands.mirrors
    rw [← hfaithful.header] at hmirrors
    exact ⟨g, hg, hmirrors, hfaithful.ok.sites_ok⟩

theorem funcBodies_annotates (hsource : SourceOk w foldedValue True names)
    (funcs : List (String × Bool × Signature)) (Δ : List TypeParam) (own : Option Ty)
    (list : List Prepared) :
    w.Ensures (funcBodies env s list) (EnvFull env funcs Δ [] names ∧
      (∀ t ∈ own, t.Scoped env.table.arity Δ ∧ t.isVoid = false) ∧
      ∀ p ∈ list, HeaderOk env.table.arity Δ own p.decl p.header p.scope ∧
        (∀ b ∈ p.decl.body, b.Shaped) ∧ (p.decl.recv.isSome = true → own.isSome = true)) fun r =>
      ∃ gs, r.2 = some gs ∧
        List.Forall₂ (fun p g => Annotates (env.context funcs []) g.sites p.decl.sites) list gs := by
  induction list generalizing s with
  | nil => exact .pure fun _ => ⟨[], rfl, .nil⟩
  | cons p rest ih =>
      unfold funcBodies
      refine ((funcBody_annotates hsource funcs Δ own).imp (fun h => ?_) fun _ _ h => h).bind ?_
      · obtain ⟨hok, hshape, hrecv⟩ := h.2.2 p List.mem_cons_self
        exact ⟨h.1, hok, h.2.1, hshape, hrecv⟩
      rintro ⟨inner, g⟩
      refine (ih.imp (fun h => ?_) fun _ _ h => h).bind ?_
      · exact ⟨h.1.1, h.1.2.1, fun p hp => h.1.2.2 p (List.mem_cons_of_mem _ hp)⟩
      rintro ⟨s', gs⟩
      dsimp only
      split
      next g gs =>
        refine .pure fun h => ?_
        obtain ⟨⟨_, g', heq, hg⟩, gs', heq', hgs⟩ := h
        cases heq
        cases heq'
        exact ⟨g :: gs, rfl, .cons hg hgs⟩
      next hnone =>
        refine .pure fun h => ?_
        obtain ⟨⟨_, g, rfl, _⟩, gs, rfl, _⟩ := h
        exact (hnone _ _ rfl rfl).elim

/-! The names of a unit -/

theorem lookup_zip_isSome {α : Type} {a : String} : ∀ {l : List String} {l' : List α},
    a ∈ l → l.length = l'.length → ((l.zip l').lookup a).isSome = true
  | b :: l, x :: l', ha, hlen => by
      rw [List.zip_cons_cons, List.lookup_cons]
      split
      · rfl
      next hne =>
        refine lookup_zip_isSome ?_ (by simpa using hlen)
        simpa [beq_eq_false_iff_ne.1 hne] using ha

namespace CollectedOk

variable {f : File} {c : Collected}

/-- Every class of a unit is in its table. -/
theorem class_mem (h : CollectedOk f c) {d : ClassDecl} (hd : .cls d ∈ f.decls) :
    ∃ info ∈ c.table.classes, info.decl = d := by
  have hmem : d ∈ c.table.classes.map (·.decl) := by
    rw [h.linkedTo.classes]
    exact List.mem_filterMap.2 ⟨_, hd, rfl⟩
  exact List.mem_map.1 hmem

/-- The members of every class of a unit were collected. -/
theorem class_lookup (h : CollectedOk f c) {d : ClassDecl} (hd : .cls d ∈ f.decls) :
    (c.classes.lookup d.name.text).isSome = true := by
  obtain ⟨info, hinfo, rfl⟩ := h.class_mem hd
  obtain ⟨ms, hclasses, hlen, _⟩ := h.members
  rw [hclasses]
  exact lookup_zip_isSome (List.mem_map.2 ⟨info, hinfo, rfl⟩) (by simp [hlen])

theorem func_lookup (h : CollectedOk f c) {d : FuncDecl} (hd : .func d ∈ f.decls) :
    ∃ p ∈ c.funcs, p.decl = d := by
  have hmem : d ∈ c.funcs.map (·.decl) := by
    rw [h.funcs.decls]
    exact List.mem_filterMap.2 ⟨_, hd, rfl⟩
  exact List.mem_map.1 hmem

/-- What the names of a unit stand for is there. -/
theorem known (h : CollectedOk f c) : Known (topEnv c) (constNames f.consts) where
  func_known name id host hid := by
    obtain ⟨d, hd, hname, hsym⟩ | hpre := h.lookup_top hid
    · cases d <;> simp only [Decl.symbol, reduceCtorEq, Symbol.func.injEq] at hsym
      obtain ⟨p, hp, rfl⟩ := h.func_lookup hd
      have hsig := h.lookup_signatures hp
      have hlookup : (c.funcs.map fun p => (p.decl.name.text, p.header.sig)).lookup
          p.decl.name.text = some p.header.sig :=
        lookup_map_of_nodup (fun p : Prepared => p.decl.name.text) h.funcs_nodup hp
      rw [← hname]
      exact Option.isSome_iff_exists.2 ⟨_, hlookup⟩
    · simp [predeclared] at hpre
  cls_known name id hid := by
    obtain ⟨d, hd, hname, hsym⟩ | hpre := h.lookup_top hid
    · cases d <;> simp only [Decl.symbol, reduceCtorEq, Symbol.cls.injEq] at hsym
      obtain ⟨info, hinfo, rfl⟩ := h.class_mem hd
      rw [← hsym]
      exact Option.isSome_iff_exists.2 ⟨_, h.linkedTo.linked.classNamed?_name hinfo⟩
    · simp [predeclared] at hpre
  const_known name id hid := by
    obtain ⟨d, hd, hname, hsym⟩ | hpre := h.lookup_top hid
    · cases d <;> simp only [Decl.symbol, reduceCtorEq, Symbol.const.injEq] at hsym
      rw [← hsym]
      exact List.mem_map.2 ⟨_, List.mem_filterMap.2 ⟨_, hd, rfl⟩, rfl⟩
    · simp [predeclared] at hpre

theorem envFull (h : CollectedOk f c) :
    EnvFull (topEnv c) (signatures c) [] [] (constNames f.consts) := ⟨h.envOk, h.known⟩

/-- The watch of a collected unit once its constants are folded. -/
abbrev watch (f : File) (c : Collected) : Watch := (topEnv c).folded (signatures c) f.consts

theorem source (f : File) (c : Collected) :
    SourceOk (watch f c) foldedValue True (constNames f.consts) :=
  folded_source _ _ _ fun _ h => h

/-- What was collected for the methods of a bound. -/
theorem bound_lookup (h : CollectedOk f c) {d : BoundDecl} (hd : .bound d ∈ f.decls) :
    ∃ list, c.bounds.lookup d.name.text = some list ∧
      BoundMethodsOk c.table.arity d.methods list := by
  have hnodup : ((f.decls.filterMap Decl.bound?).map (·.name.text)).Nodup :=
    (Decl.names_sublist (fun d x hx => by cases d <;> simp_all [Decl.bound?, Decl.name])
      f.decls).nodup h.linkedTo.nodup
  have hmem : d ∈ f.decls.filterMap Decl.bound? := List.mem_filterMap.2 ⟨_, hd, rfl⟩
  have hall := h.bound_methods
  generalize f.decls.filterMap Decl.bound? = ds at hnodup hmem hall
  generalize c.bounds = es at hall ⊢
  induction hall with
  | nil => cases hmem
  | @cons d' e ds es hfirst _ ih =>
      obtain ⟨hfresh, hnodup⟩ := List.nodup_cons.1 hnodup
      rcases List.mem_cons.1 hmem with rfl | hmem
      · exact ⟨e.2, by rw [List.lookup_cons, hfirst.name, beq_self_eq_true], hfirst.methods⟩
      · obtain ⟨list, hlookup, hok⟩ := ih hnodup hmem
        have hne : d.name.text ≠ e.1 := by
          rw [hfirst.name]
          exact fun heq => hfresh (List.mem_map.2 ⟨d, hmem, heq⟩)
        exact ⟨list, by rw [List.lookup_cons, beq_eq_false_iff_ne.2 hne, hlookup], hok⟩

end CollectedOk

/-! Declarations -/

variable {f : File} {c : Collected}

/-- What the members of a class are checked in. -/
theorem EnvFull.enter_class (hc : CollectedOk f c) {m : Members} {id : Nat} {info : ClassInfo}
    (hok : ClassOk c.table.arity c.table id info m) :
    EnvFull ((CollectedOk.topEnv c).enter m.scope) (CollectedOk.signatures c) info.tparams []
      (constNames f.consts) := by
  have hentries : ∀ e ∈ m.scope.entries, ∃ x ∈ m.tparams, e = paramEntry x := fun e he => by
    rw [hok.opened.entries] at he
    obtain ⟨x, hx, rfl⟩ := List.mem_map.1 he
    exact ⟨x, hx, rfl⟩
  refine ⟨hc.envOk.enter (by simp) (fun e he => ?_) (fun v hv => ?_), hc.known.enter fun e he => ?_⟩
  · obtain ⟨x, hx, rfl⟩ := hentries e he
    exact .inl ⟨x.param, _, rfl, by rw [hok.tparams]; exact List.mem_map_of_mem hx⟩
  · obtain ⟨x, hx, heq⟩ := hentries _ hv
    cases (Prod.mk.inj heq).2
  · obtain ⟨x, hx, rfl⟩ := hentries e he
    exact .inl ⟨_, _, rfl⟩

/-- The type of the receivers of a class is known in the class. -/
theorem selfType_known (hc : CollectedOk f c) {info : ClassInfo} (hinfo : info ∈ c.table.classes) :
    ∀ t ∈ some (selfType info), t.Scoped c.table.arity info.tparams ∧ t.isVoid = false := by
  intro t ht
  obtain rfl := Option.mem_some.1 ht
  refine ⟨selfType_scoped ?_, selfType_isVoid info⟩
  simp [Table.arity, hc.linkedTo.linked.classNamed?_name hinfo]

/-- `w` watches that the unit has its constants, and that `K` holds of each of them. -/
def Watches (w : Watch) (f : File) (c : Collected) (K : String → Typed.Const → Prop) : Prop :=
  ∀ list, w.consts list → (CollectedOk.watch f c).consts list ∧
    ∀ name k, (name, Folding.done (some k)) ∈ list → K name k

theorem watches_self (f : File) (c : Collected) :
    Watches (CollectedOk.watch f c) f c fun _ _ => True :=
  fun _ h => ⟨h, fun _ _ _ => trivial⟩

theorem Watches.source {K : String → Typed.Const → Prop} (hw : Watches w f c K) :
    SourceOk w foldedValue True (constNames f.consts) :=
  folded_source _ _ _ fun list h => (hw list h).1

/-- A checked declaration is annotated, and if it declares a constant, it declares one that was
folded and that has the property `K`. -/
structure DeclAnnotated (f : File) (c : Collected) (K : String → Typed.Const → Prop) (d : Decl)
    (k : Typed.Decl) : Prop where
  annotates : Annotates ((CollectedOk.topEnv c).context (CollectedOk.signatures c) []) k.sites d.sites
  const : ∀ x, k = .const x → d = .const x.decl ∧ K x.decl.name.text x ∧
    FoldedFrom ((CollectedOk.topEnv c).context (CollectedOk.signatures c) []) f.consts
      x.decl.name.text x
  kind : ∀ x, d = .const x → ∃ y, k = .const y

variable {K : String → Typed.Const → Prop}

/-- A declaration that is no constant has only its places to answer for. -/
theorem DeclAnnotated.plain {d : Decl} {k : Typed.Decl}
    (h : Annotates ((CollectedOk.topEnv c).context (CollectedOk.signatures c) []) k.sites d.sites)
    (hk : ∀ x, k ≠ .const x) (hd : ∀ x, d ≠ .const x) : DeclAnnotated f c K d k :=
  ⟨h, fun x heq => absurd heq (hk x), fun x heq => absurd heq (hd x)⟩

theorem classDecl_annotates (hc : CollectedOk f c) (hw : Watches w f c K) {d : ClassDecl} {m : Members} {id : Nat}
    {info : ClassInfo} (hinfo : info ∈ c.table.classes) (hdecl : info.decl = d)
    (hok : ClassOk c.table.arity c.table id info m) (hshape : (Decl.cls d).Shaped) :
    w.Ensures (classDecl (CollectedOk.topEnv c) d m) True fun r =>
      ∃ k, r.2 = some k ∧ Annotates ((CollectedOk.topEnv c).context (CollectedOk.signatures c) [])
        (Typed.Decl.cls k).sites (Decl.cls d).sites := by
  unfold classDecl
  refine ((funcBodies_annotates hw.source (CollectedOk.signatures c) info.tparams
    (some (selfType info)) _).imp (fun _ => ?_) fun _ _ h => h).bind fun (s, gs) => .pure fun h => ?_
  · refine ⟨.enter_class hc hok, selfType_known hc hinfo, fun p hp => ?_⟩
    have hmem : p.decl ∈ d.methods := by
      rw [← hdecl, ← hok.method_decls.decls]
      exact List.mem_map_of_mem hp
    exact ⟨(hok.method_decls.prepared p hp).2.2.2, (hshape _ hmem).1.body, fun _ => rfl⟩
  · obtain ⟨_, gs, rfl, hgs⟩ := h
    refine ⟨_, rfl, ?_⟩
    have hmethods := Annotates.flatMap (f := FuncDecl.sites)
      (List.forall₂_map_left_iff.2 hgs : List.Forall₂ _ (m.methods.map (·.decl)) gs)
    rwa [hok.method_decls.decls, hdecl] at hmethods

/-- A declaration that is checked without an error is annotated. -/
theorem declaration_annotates (hc : CollectedOk f c) (hw : Watches w f c K) {scopes : Scopes}
    {d : Decl} (hd : d ∈ f.decls) (hshape : d.Shaped) :
    w.Ensures (declaration (CollectedOk.topEnv c) c scopes d) True fun r =>
      ∃ k, r.2 = some k ∧ DeclAnnotated f c K d k := by
  cases d with
  | cls d =>
      rw [declaration]
      obtain ⟨m, hm⟩ := Option.isSome_iff_exists.1 (hc.class_lookup hd)
      obtain ⟨id, info, hinfo, hdecl, hok⟩ := hc.members_of hd hm
      rw [hm]
      refine (classDecl_annotates hc hw hinfo hdecl hok hshape).bind ?_
      rintro ⟨s, k⟩
      refine .pure fun h => ?_
      obtain ⟨_, k, rfl, hk⟩ := h
      exact ⟨_, rfl, .plain hk (by simp) (by simp)⟩
  | bound d =>
      rw [declaration]
      refine .pure fun _ => ⟨_, rfl, .plain ?_ (by simp) (by simp)⟩
      obtain ⟨list, hlookup, hlist⟩ := hc.bound_lookup hd
      rw [hlookup]
      have hparams : List.Forall₂ (fun (m : FuncDecl) (g : Typed.Func) =>
          Annotates ((CollectedOk.topEnv c).context (CollectedOk.signatures c) []) g.paramSites
            m.paramSites) (list.map (·.decl))
          (list.map fun p => ⟨p.decl, p.ref, p.sym, p.header, none⟩) := by
        refine List.forall₂_map_left_iff.2 (List.forall₂_map_right_iff.2 (List.forall₂_same.2 ?_))
        exact fun p hp => ⟨(hlist.prepared p hp).mirrors_params,
          List.forall_mem_map.2 fun e _ => Typed.Site.ok_binder e.1⟩
      rw [hlist.decls] at hparams
      exact .flatMap hparams
  | func d =>
      rw [declaration]
      split
      next hnone =>
        obtain ⟨p, hp, rfl⟩ := hc.func_lookup hd
        exact absurd (List.find?_eq_none.1 hnone p hp) (by simp)
      next p hp =>
        obtain ⟨hmem, rfl⟩ := hc.find_func hd hp
        refine ((funcBody_annotates hw.source (CollectedOk.signatures c) [] none).imp
          (fun _ => ⟨hc.envFull, (hc.funcs.prepared p hmem).2.2.2, by simp, hshape.1.body, ?_⟩)
          fun _ _ h => h).bind ?_
        · simp [hshape.2]
        · rintro ⟨s, g⟩
          refine .pure fun h => ?_
          obtain ⟨_, g, rfl, hg⟩ := h
          exact ⟨_, rfl, .plain hg (by simp) (by simp)⟩
  | const d =>
      rw [declaration]
      have hmem : d ∈ f.consts := List.mem_filterMap.2 ⟨_, hd, rfl⟩
      refine ((folded_folds d.name.text hw).imp (fun _ => List.mem_map_of_mem hmem)
        fun _ _ h => h).bind fun r => .pure fun h => ?_
      obtain ⟨_, k, rfl, hk, hK⟩ := h
      obtain ⟨d', hd', heq⟩ := List.mem_filterMap.1 hk.decl_mem
      obtain rfl : d' = .const k.decl := by cases d' <;> simp_all
      have hsame := hc.decl_eq hd' hd hk.decl_name
      obtain rfl : k.decl = d := by cases hsame; rfl
      refine ⟨_, rfl, ⟨.expr hk.erase, hk.ok.sites_ok⟩, fun x hx => ?_, fun _ _ => ⟨k, rfl⟩⟩
      cases hx
      exact ⟨rfl, hK, hk⟩

theorem declarations_annotates (hc : CollectedOk f c) (hw : Watches w f c K) (scopes : Scopes)
    {list : List Decl} (hlist : ∀ d ∈ list, d ∈ f.decls ∧ d.Shaped) :
    w.Ensures (declarations (CollectedOk.topEnv c) c scopes list) True fun r =>
      ∃ ks, r.2 = some ks ∧ List.Forall₂ (DeclAnnotated f c K) list ks := by
  induction list generalizing scopes with
  | nil => exact .pure fun _ => ⟨[], rfl, .nil⟩
  | cons d rest ih =>
      obtain ⟨⟨hd, hshape⟩, hrest⟩ := List.forall_mem_cons.1 hlist
      unfold declarations
      refine Watch.Ensures.full.bind fun full => ?_
      split
      next hfull => exact .pure fun h => absurd hfull (by simp [h.2])
      next =>
        refine ((declaration_annotates hc hw hd hshape).imp (fun _ => trivial)
          fun _ _ h => h).bind ?_
        rintro ⟨scopes, k⟩
        refine ((ih scopes hrest).imp (fun _ => trivial) fun _ _ h => h).bind ?_
        rintro ⟨scopes, ks⟩
        dsimp only
        split
        next k ks =>
          refine .pure fun h => ?_
          obtain ⟨⟨_, k', heq, hk⟩, ks', heq', hks⟩ := h
          cases heq
          cases heq'
          exact ⟨k :: ks, rfl, .cons hk hks⟩
        next hnone =>
          refine .pure fun h => ?_
          obtain ⟨⟨_, k, rfl, _⟩, ks, rfl, _⟩ := h
          exact (hnone _ _ rfl rfl).elim

/-! Units -/

/-- The session in which the declarations of a unit are checked. -/
def afterConsts (f : File) (c : Collected) (s : Session) : Session :=
  ((foldAll (CollectedOk.topEnv c) f.consts f.consts).run s).2

/-- Before a constant is looked at, all are left to be folded. -/
theorem valid_of_unfolded {decls : List ConstDecl} {s : Session} (hs : s.consts = []) :
    s.Valid (env.folding funcs decls (decls.length + 1) []) := by
  refine ⟨fun name r hr => ?_, Nat.lt_succ_of_le (List.length_filter_le _ _), by simp⟩
  rw [hs] at hr
  cases hr

/-- Without an error all constants of a collected unit are folded. -/
theorem afterConsts_valid (hc : CollectedOk f c) {s : Session} (hs : s.consts = []) :
    s.errors.Follows (afterConsts f c s).errors ∧ ((afterConsts f c s).Clean → s.Clean ∧
      (afterConsts f c s).Valid (CollectedOk.watch f c)) := by
  obtain ⟨hadds, hrest⟩ := foldAll_folds (CollectedOk.topEnv c) (CollectedOk.signatures c) []
    (fun d (hd : d ∈ f.consts) => hd) s
  refine ⟨hadds, fun hclean => ?_⟩
  obtain ⟨hstart, hrest⟩ := hrest hclean
  have hend := hrest (valid_of_unfolded hs) hc.envFull
  refine ⟨hstart, hend.folded, hend.few, fun name hname => hend.ready name ?_⟩
  simpa using hname

/-- A unit that ends without an error is annotated. What `K` says of the constants when all have been
folded holds of those that it declares. -/
theorem finish_annotates (hc : CollectedOk f c) (hshape : ∀ d ∈ f.decls, d.Shaped) {s : Session}
    (hs : s.consts = []) (hclean : ((finish f c).run s).2.Clean)
    (hK : ∀ name k, (name, Folding.done (some k)) ∈ (afterConsts f c s).consts → K name k) :
    ∃ u, ((finish f c).run s).1 = some u ∧ List.Forall₂ (DeclAnnotated f c K) f.decls u.decls := by
  have hvalid (h : (afterConsts f c s).Clean) : (afterConsts f c s).Valid
      { consts := fun list => (CollectedOk.watch f c).consts list ∧
        ∀ name k, (name, Folding.done (some k)) ∈ list → K name k } :=
    ⟨((afterConsts_valid hc hs).2 h).2, hK⟩
  unfold finish at hclean ⊢
  refine Watch.Ensures.run_bind_clean (R := fun r => ∃ u : Typed.File, r = some u ∧
    List.Forall₂ (DeclAnnotated f c K) f.decls u.decls) ?_ hvalid hclean
  refine (declarations_annotates hc (fun _ h => h) _ fun d hd => ⟨hd, hshape d hd⟩).bind
    fun (scopes, ks) => ?_
  dsimp only
  split
  next => exact .pure fun h => by simp at h
  next ks =>
    refine .pure fun h => ?_
    obtain ⟨_, ks', heq, hks⟩ := h
    cases heq
    exact ⟨_, rfl, hks⟩

/-- A unit that ends without an error has a checked tree. -/
theorem unit_answers (hshape : ∀ d ∈ f.decls, d.Shaped) {s : Session} (hs : s.consts = [])
    (hclean : ((unit f).run s).2.Clean) : ((unit f).run s).1.isSome = true := by
  rw [unit_eq, Watch.Ensures.run_bind] at hclean ⊢
  have hcollect := (collection_ensures (w := { consts := (· = []) }) (P := True) f s).2
  generalize (collection f).run s = r at hclean hcollect ⊢
  obtain ⟨found, s'⟩ := r
  have hmiddle : s'.Clean := by
    cases found with
    | none => exact hclean
    | some c =>
        exact ((finish_ensures (f := f) (c := c) s').2 (Passed.upheld_iff.2 hclean)).1.1
  obtain ⟨hunfolded, c, heq, hc⟩ := (hcollect (Passed.upheld_iff.2 hmiddle)).2 hs trivial
  cases heq
  obtain ⟨u, hu, _⟩ := finish_annotates (K := fun _ _ => True) hc hshape hunfolded hclean
    fun _ _ _ => trivial
  exact Option.isSome_iff_exists.2 ⟨u, hu⟩

end Check

namespace File

variable {f : File} {limit : Option Nat} {u : Typed.File}

/-- A unit is never turned down without an error. -/
theorem check_ne_silent (hshape : ∀ d ∈ f.decls, d.Shaped) (hlimit : limit ≠ some 0) :
    f.check limit ≠ .error [] := by
  intro h
  unfold check at h
  split at h
  next r s hrun =>
    split at h
    next => cases h
    next hresult =>
      have hkept : ((Check.unit f).run { errors := { limit } }).2.errors.kept = [] := by
        rw [hrun]
        simpa [Collector.found] using Except.error.inj h
      have hclean : ((Check.unit f).run { errors := { limit } }).2.Clean := by
        rw [Check.Session.Clean, (Check.unit_follows f _).eq_of_kept hlimit hkept]
        exact ⟨rfl, rfl⟩
      have hsome := Check.unit_answers hshape (s := { errors := { limit } }) rfl hclean
      rw [hrun] at hsome
      obtain ⟨u, rfl⟩ := Option.isSome_iff_exists.1 hsome
      exact hresult u rfl (Except.error.inj h)

/-- The sites of a unit that passes are those of its tree, and they are well typed. -/
theorem check_typed (hshape : ∀ d ∈ f.decls, d.Shaped) (h : f.check limit = .ok u)
    (hlimit : limit ≠ some 0) :
    ∃ Γ : Typed.Context, Γ.table = u.table ∧
      (∀ Δ, ({ Γ with tparams := Δ } : Typed.Context).Sound) ∧
      Check.Annotates Γ u.sites f.sites := by
  obtain ⟨table, c, s, s', hpassed⟩ := check_passed h hlimit
  obtain ⟨_, hunfolded, hc⟩ := hpassed.middle
  obtain ⟨u', hu, hdecls⟩ := Check.finish_annotates (K := fun _ _ => True) hc hshape hunfolded
    hpassed.clean fun _ _ _ => trivial
  obtain rfl : u' = u := Option.some.inj (hu.symm.trans hpassed.finished)
  exact ⟨_, (Check.finish_table hpassed.finished).symm,
    fun Δ => ⟨hc.sound.table, hc.sound.funcs⟩, Check.Annotates.flatMap (hdecls.imp fun _ _ h => h.annotates)⟩

/-- A unit that passes is annotated. -/
theorem check_annotates (hshape : ∀ d ∈ f.decls, d.Shaped) (h : f.check limit = .ok u)
    (hlimit : limit ≠ some 0) :
    u.sites.map (·.erase) = f.sites ∧ ∀ n ∈ u.sites, n.Annotated u.facts := by
  obtain ⟨Γ, -, hΓ, hannotates⟩ := check_typed hshape h hlimit
  exact ⟨hannotates.mirrors, fun n hn =>
    (u.sites_recorded n hn).annotated hΓ (hannotates.ok n hn)⟩

end File

end ClassLang
