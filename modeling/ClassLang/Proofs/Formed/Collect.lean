import ClassLang.Proofs.Check.Unit
import ClassLang.Proofs.Formed.Type

/-!
Collecting a unit gives its members and functions well-formed types. The bounds of
type arguments are put off while the table grows; all types are therefore judged by
the table `T` of the end, in which the bounds that were put off are satisfied.
-/

namespace ClassLang

namespace Table

variable {t u : Table} {name : String}

theorem tparams_of_heads (h : u.heads = t.heads) :
    (u.classNamed? name).map (·.tparams) = (t.classNamed? name).map (·.tparams) := by
  have hfind : ∀ v : Table, (v.classNamed? name).map (·.tparams) =
      (v.heads.find? (·.1 = name)).map (·.2) := by
    intro v
    simp [heads, classNamed?, List.find?_map, Function.comp_def]
  rw [hfind, hfind, h]

theorem heads_modifyClass {id : Nat} {f : ClassInfo → ClassInfo}
    (hf : ∀ c, (f c).name = c.name ∧ (f c).tparams = c.tparams) :
    (t.modifyClass id f).heads = t.heads := by
  refine List.ext_getElem? fun j => ?_
  simp only [heads, modifyClass, List.getElem?_map, List.getElem?_modify]
  cases t.classes[j]? with
  | none => simp
  | some c => by_cases hj : id = j <;> simp [hj, hf c]

end Table

namespace Check

open ClassLang.Typed (FactsFormed)

variable {w : Watch} {T t : Table} {P : Prop} {env : Env} {s : Scope Symbol}

/-! Types -/

/-- An entry that stands for no type of the language, or for a variable with a
well-formed type. -/
def EntryFormed (T : Table) (e : String × Symbol) : Prop :=
  (∀ t, e.2 ≠ .basic t) ∧ ∀ v, e.2 = .var v → v.ty.Formed T

/-- The names of an environment lead to well-formed types of the table `T`, and the
arguments that it accepts are admitted there. -/
structure Env.Formed (env : Env) (T : Table) (w : Watch) : Prop where
  heads : env.table.heads = T.heads
  duties : env.collecting = true → ∀ d, w.duty d → T.Meets d
  checked : env.collecting = false → ∀ d, env.table.Meets d → T.Meets d
  basic : env.BasicIn
  vars : ∀ name v, env.lookup name = some (.var v) → v.ty.Formed T

theorem Accepts.admitted {p : TypeParam} {arg : Ty} (h : Accepts w env p arg)
    (henv : env.Formed T w) : T.Admits p arg := by
  refine ⟨h.1, fun info hinfo => ?_⟩
  obtain ⟨b, hb, hinfo⟩ := Option.bind_eq_some_iff.1 hinfo
  obtain ⟨pos, hmeets⟩ := h.2 b hb
  have hT : T.Meets ⟨pos, arg, b⟩ := by
    cases hcollect : env.collecting with
    | true =>
        rw [hcollect] at hmeets
        exact henv.duties hcollect _ hmeets
    | false =>
        rw [hcollect] at hmeets
        exact henv.checked hcollect _ hmeets
  exact hT info hinfo

theorem Env.Formed.enter (h : env.Formed T w) (hs : ∀ e ∈ s.entries, EntryFormed T e) :
    (env.enter s).Formed T w where
  heads := h.heads
  duties := h.duties
  checked := h.checked
  basic := by
    intro name t ht
    rw [lookup_enter] at ht
    cases hfind : s.find? name with
    | none => exact h.basic name t (by simpa [hfind] using ht)
    | some sym => exact absurd (by simpa [hfind] using ht) ((hs _ (find?_mem hfind)).1 t)
  vars := by
    intro name v hv
    rw [lookup_enter] at hv
    cases hfind : s.find? name with
    | none => exact h.vars name v (by simpa [hfind] using hv)
    | some sym => exact (hs _ (find?_mem hfind)).2 v (by simpa [hfind] using hv)

theorem basic_formed (h : env.BasicIn) {name : String} {ty : Ty}
    (hl : env.lookup name = some (.basic ty)) : ty.Formed T := by
  have hscoped := h name ty hl fun _ => none
  cases ty <;> simp_all [Ty.Scoped, Ty.Formed]

mutual

theorem type_formed : (e : TypeExpr) →
    w.Ensures (type env e) (env.Formed T w) fun r => ∀ term ∈ r, FactsFormed T term.facts
  | .name id => by
    unfold type
    split
    next => exact .fail
    next ty hty =>
      refine .pure fun h term hterm => ?_
      obtain rfl := Option.mem_some.1 hterm
      simpa [Typed.TypeTerm.facts] using basic_formed h.basic hty
    next p pos _ =>
      refine .pure fun _ term hterm => ?_
      obtain rfl := Option.mem_some.1 hterm
      simp [Typed.TypeTerm.facts, Ty.Formed]
    next c _ =>
      split
      next info _ =>
        split
        next => exact .fail
        next =>
          refine .pure fun _ term hterm => ?_
          obtain rfl := Option.mem_some.1 hterm
          simp [Typed.TypeTerm.facts, Ty.Formed]
      next => exact .fail
    next => exact .fail
    next => exact .fail
  | .apply base args => by
    unfold type
    split
    next c _ =>
      split
      next info hinfo =>
        split
        next =>
          refine (types_formed args).bind fun r => ?_
          split
          next => exact .pure fun _ term hterm => by cases hterm
          next terms =>
            dsimp only
            split
            next => exact .fail
            next hlen =>
              refine typeArgs_ensures.bind fun ok => ?_
              split
              next =>
                refine .pure fun h term hterm => ?_
                obtain ⟨⟨henv, hterms⟩, _, haccepts⟩ := h
                obtain rfl := Option.mem_some.1 hterm
                have hterms := hterms terms rfl
                obtain ⟨d, hd, htparams⟩ : ∃ d, T.classNamed? c.text = some d ∧
                    d.tparams = info.tparams := by
                  have hsame : (env.table.classNamed? c.text).map (·.tparams) =
                      (T.classNamed? c.text).map (·.tparams) :=
                    Table.tparams_of_heads henv.heads
                  rw [hinfo] at hsame
                  exact Option.map_eq_some_iff.1 hsame.symm
                have hinst : (Ty.inst c.text (terms.map (·.ty))).Formed T := by
                  simp only [Ty.Formed]
                  refine ⟨⟨d, hd, by simpa [htparams] using hlen, fun e he => ?_⟩,
                    Ty.allFormed_iff.2 fun ty hty => ?_⟩
                  · rw [htparams] at he
                    exact (haccepts e he).admitted henv
                  · obtain ⟨term, hterm, rfl⟩ := List.mem_map.1 hty
                    exact (hterms.2 term hterm)
                simpa [Typed.TypeTerm.facts] using ⟨hinst, hterms.1⟩
              next => exact .pure fun _ term hterm => by cases hterm
        next => exact .fail
      next => exact .fail
    next => exact .fail
    next => exact .fail
    next => exact .fail

theorem types_formed : (es : List TypeExpr) →
    w.Ensures (types env es) (env.Formed T w) fun r => ∀ terms ∈ r,
      FactsFormed T (Typed.TypeTerm.factsOf terms) ∧ ∀ term ∈ terms, term.ty.Formed T
  | [] => by
    unfold types
    refine .pure fun _ terms hterms => ?_
    obtain rfl := Option.mem_some.1 hterms
    simp [Typed.TypeTerm.factsOf]
  | e :: rest => by
    unfold types
    refine (type_formed e).bind fun r => ?_
    split
    next => exact .pure fun _ terms hterms => by cases hterms
    next term =>
      refine ((types_formed rest).imp And.left fun _ _ h => h).bind fun r' => ?_
      split
      next => exact .pure fun _ terms hterms => by cases hterms
      next terms =>
        refine .pure fun h list hlist => ?_
        obtain rfl := Option.mem_some.1 hlist
        have hterm := h.1.2 term rfl
        obtain ⟨hfacts, htys⟩ := h.2 terms rfl
        exact ⟨by simpa [Typed.TypeTerm.factsOf] using ⟨hterm, hfacts⟩,
          List.forall_mem_cons.2 ⟨Typed.TypeTerm.ty_formed hterm, htys⟩⟩

end

theorem varType_formed {e : TypeExpr} :
    w.Ensures (varType env e) (env.Formed T w) fun r => ∀ term ∈ r, FactsFormed T term.facts := by
  unfold varType
  refine (type_formed e).bind fun r => ?_
  split
  next => exact .pure fun _ term hterm => by cases hterm
  next term =>
    split
    next => exact .fail
    next => exact .pure fun h => h.2

theorem tyOf_formed {r : Option Typed.TypeTerm} (h : ∀ term ∈ r, FactsFormed T term.facts) :
    (tyOf r).Formed T := by
  cases r with
  | none => simp [tyOf, Ty.Formed]
  | some term => exact Typed.TypeTerm.ty_formed (h term rfl)

/-! Headers -/

theorem entryFormed_push {v : Var} (hs : ∀ e ∈ s.entries, EntryFormed T e)
    (hv : v.ty.Formed T) (name : String) :
    ∀ e ∈ (s.push name (.var v)).entries, EntryFormed T e := by
  intro e he
  rcases List.mem_append.1 he with he | he
  · exact hs e he
  · obtain rfl := List.mem_singleton.1 he
    exact ⟨by simp, fun v' hv' => Symbol.var.inj hv' ▸ hv⟩

theorem params_formed {ds : List FieldDecl} :
    w.Ensures (params env s ds) (env.Formed T w ∧ ∀ e ∈ s.entries, EntryFormed T e) fun r =>
      (∀ e ∈ r.1.entries, EntryFormed T e) ∧ ∀ e ∈ r.2, e.1.ty.Formed T ∧
        ∀ term ∈ e.2, FactsFormed T term.facts := by
  induction ds generalizing s with
  | nil => exact .pure fun h => ⟨h.2, by simp⟩
  | cons d rest ih =>
      unfold params
      refine (varType_formed.imp (fun h => h.1.enter h.2) fun _ _ h => h).bind fun term => ?_
      refine declare_ensures.bind fun s' => (ih.imp ?_ fun _ _ h => h).bind fun r => .pure ?_
      · rintro ⟨⟨⟨henv, hs⟩, hterm⟩, rfl, _⟩
        exact ⟨henv, entryFormed_push hs (tyOf_formed hterm) _⟩
      · rintro ⟨⟨⟨_, hterm⟩, _⟩, hentries, hlist⟩
        exact ⟨hentries, List.forall_mem_cons.2 ⟨⟨tyOf_formed hterm, hterm⟩, hlist⟩⟩

/-- The types that a header is made of are well-formed. -/
structure HeaderFormed (T : Table) (h : Typed.Header) : Prop where
  params : ∀ e ∈ h.params, FactsFormed T e.2.facts
  result : ∀ term ∈ h.result, FactsFormed T term.facts
  sig : h.sig.Formed T

theorem header_formed {d : FuncDecl} {cls : Option ClassInfo} :
    w.Ensures (header env d cls) (env.Formed T w ∧ ∀ c ∈ cls, (selfType c).Formed T) fun r =>
      HeaderFormed T r.1 ∧ ∀ e ∈ r.2.entries, EntryFormed T e := by
  unfold header
  dsimp only
  refine (typeParams_ensures.imp (fun _ => by simp [Scope.names]) fun _ _ h => h).bind
    fun r₁ => ?_
  refine (receiver_ensures.imp (fun h => h.2.2.1) fun _ _ h => h).bind fun r₂ => ?_
  refine ((params_formed (T := T)).imp ?_ fun _ _ h => h).bind fun r₃ => ?_
  · rintro ⟨⟨⟨henv, hself⟩, hent₁, _⟩, hrecv, hent₂, _⟩
    refine ⟨henv, fun e he => ?_⟩
    rw [hent₂, hent₁, hrecv] at he
    simp only [List.nil_append, List.mem_append, List.mem_map] at he
    rcases he with ⟨x, _, rfl⟩ | ⟨v, hv, rfl⟩
    · exact ⟨by simp [paramEntry], by simp [paramEntry]⟩
    · refine ⟨by simp [varEntry], fun v' hv' => ?_⟩
      obtain rfl : v = v' := Symbol.var.inj hv'
      cases cls with
      | none => simp [receiverOf] at hv
      | some c =>
          cases hname : d.recv with
          | none => simp [receiverOf, hname] at hv
          | some id =>
              obtain rfl : v = ⟨id.text, id.pos, .recv, selfType c⟩ := by
                simpa [receiverOf, hname] using hv
              exact hself c rfl
  have built {result : Option (Option Typed.TypeTerm)} {ty : Ty}
      (hparams : ∀ e ∈ r₃.2, e.1.ty.Formed T ∧ ∀ term ∈ e.2, FactsFormed T term.facts)
      (hresult : ∀ r ∈ result, ∀ term ∈ r, FactsFormed T term.facts) (hty : ty.Formed T) :
      HeaderFormed T
        { tparams := r₁.2, recv := r₂.2
          params := r₃.2.filterMap fun e => e.2.map (e.1, ·), result := result.bind id
          sig := ⟨r₁.2.map (·.param), r₃.2.map fun e => ⟨e.1.name, e.1.pos, e.1.ty⟩, ty⟩ } := by
    refine ⟨fun e he => ?_, fun term hterm => ?_, Signature.formed_iff.2 ⟨fun u hu => ?_, hty⟩⟩
    · obtain ⟨x, hx, heq⟩ := List.mem_filterMap.1 he
      obtain ⟨term, hterm, rfl⟩ := Option.map_eq_some_iff.1 heq
      exact (hparams x hx).2 term hterm
    · obtain ⟨r, hr, hterm⟩ := Option.bind_eq_some_iff.1 hterm
      exact hresult r hr term hterm
    · simp only [Signature.paramTypes, List.map_map, List.mem_map] at hu
      obtain ⟨x, hx, rfl⟩ := hu
      exact (hparams x hx).1
  split
  next e _ =>
    refine Watch.Ensures.bind (Q := fun r => ∃ term, r = some term ∧
      ∀ x ∈ term, FactsFormed T x.facts) (.map ((type_formed e).imp
        (fun h => h.1.1.1.1.enter h.2.1) fun _ r hr => ⟨r, rfl, hr⟩)) fun result => .pure ?_
    rintro ⟨⟨_, hentries, hparams⟩, r, rfl, hr⟩
    exact ⟨built hparams (by simpa using hr) (tyOf_formed hr), hentries⟩
  next =>
    refine Watch.Ensures.bind (Q := fun r => r = none) (.pure fun _ => rfl) fun result =>
      .pure ?_
    rintro ⟨⟨_, hentries, hparams⟩, rfl⟩
    exact ⟨built hparams (by simp) (by simp [Ty.Formed]), hentries⟩

/-- What is known of a function whose header has been collected. -/
def PreparedFormed (T : Table) (p : Prepared) : Prop :=
  HeaderFormed T p.header ∧ ∀ e ∈ p.scope.entries, EntryFormed T e

/-! Members -/

/-- The table `t`, on its way to the table `T` of the end: it has the same classes, and
what is put off for it is satisfied there. -/
structure Leads (w : Watch) (T : Table) (decls : List Decl) (t : Table) : Prop where
  unit : UnitOf t decls
  heads : t.heads = T.heads
  selves : ∀ c ∈ t.classes, (selfType c).Formed T
  duties : ∀ d, w.duty d → T.Meets d

namespace Leads

variable {decls : List Decl} {u : Table}

theorem formed (h : Leads w T decls t) : (unitEnv t).Formed T w where
  heads := h.heads
  duties _ := h.duties
  checked hcollect := by cases hcollect
  basic := h.unit.basicIn rfl
  vars name v hv := by
    rcases h.unit.lookup hv with ⟨d, _, _, hsym⟩ | hpre
    · cases d <;> simp [Decl.symbol] at hsym
    · simp [predeclared] at hpre

/-- Adding members to a class. -/
theorem modifyClass (h : Leads w T decls t) {id : Nat} {f : ClassInfo → ClassInfo}
    (hf : ∀ c, (f c).name = c.name ∧ (f c).tparams = c.tparams) :
    Leads w T decls (t.modifyClass id f) where
  unit := h.unit
  heads := (Table.heads_modifyClass hf).trans h.heads
  selves c hc := by
    obtain ⟨j, hj⟩ := List.mem_iff_getElem?.1 hc
    simp only [Table.modifyClass, List.getElem?_modify] at hj
    obtain ⟨d, hd, rfl⟩ := Option.map_eq_some_iff.1 hj
    have hself := h.selves d (List.mem_of_getElem? hd)
    split
    · simpa [selfType, ClassInfo.isGeneric, hf d] using hself
    · exact hself
  duties := h.duties

/-- Adding methods to bounds. -/
theorem modifyBound (h : Leads w T decls t) (b : String) (f : BoundInfo → BoundInfo) :
    Leads w T decls (t.modifyBound b f) :=
  ⟨h.unit, h.heads, h.selves, h.duties⟩

end Leads

variable {decls : List Decl}

theorem boundMethods_formed {b : String} {ds : List FuncDecl} :
    w.Ensures (boundMethods b t ds)
      (Leads w T decls t ∧ ∀ b ∈ t.bounds, ∀ m ∈ b.methods, m.sig.Formed T) fun r =>
      Leads w T decls r.1 ∧ (∀ b ∈ r.1.bounds, ∀ m ∈ b.methods, m.sig.Formed T) ∧
        ∀ p ∈ r.2, PreparedFormed T p := by
  induction ds generalizing t with
  | nil => exact .pure fun h => ⟨h.1, h.2, by simp⟩
  | cons d rest ih =>
      unfold boundMethods
      dsimp only
      split
      next => exact .report_bind (ih.vacuous not_false)
      next =>
        split
        next => exact .report_bind (ih.vacuous not_false)
        next =>
          refine ((header_formed (T := T)).imp (fun h => ⟨h.1.formed, by simp⟩)
            fun _ _ h => h).bind fun r => ?_
          refine (ih.imp ?_ fun _ _ h => h).bind fun r' => .pure ?_
          · rintro ⟨⟨hleads, hbounds⟩, hheader⟩
            refine ⟨hleads.modifyBound _ _, fun info hinfo m hm => ?_⟩
            obtain ⟨old, hold, rfl⟩ := List.mem_map.1 hinfo
            split at hm
            · rcases List.mem_append.1 hm with hm | hm
              · exact hbounds old hold m hm
              · obtain rfl := List.mem_singleton.1 hm
                exact hheader.1.sig
            · exact hbounds old hold m hm
          · rintro ⟨⟨_, hheader⟩, hleads, hbounds, hrest⟩
            exact ⟨hleads, hbounds, List.forall_mem_cons.2 ⟨hheader, hrest⟩⟩

theorem allBounds_formed (T : Table) (decls : List Decl) {bs : List BoundInfo} :
    w.Ensures (allBounds t bs)
      (Leads w T decls t ∧ ∀ b ∈ t.bounds, ∀ m ∈ b.methods, m.sig.Formed T) fun r =>
      Leads w T decls r.1 ∧ (∀ b ∈ r.1.bounds, ∀ m ∈ b.methods, m.sig.Formed T) ∧
        ∀ e ∈ r.2, ∀ p ∈ e.2, PreparedFormed T p := by
  induction bs generalizing t with
  | nil => exact .pure fun h => ⟨h.1, h.2, by simp⟩
  | cons b rest ih =>
      unfold allBounds
      refine boundMethods_formed.bind fun r => (ih.imp ?_ fun _ _ h => h).bind fun r' => .pure ?_
      · exact fun h => ⟨h.2.1, h.2.2.1⟩
      · rintro ⟨⟨_, _, _, hlist⟩, hleads, hbounds, hrest⟩
        exact ⟨hleads, hbounds, List.forall_mem_cons.2 ⟨hlist, hrest⟩⟩

/-- What is known of a class whose members are being collected. -/
structure MembersFormed (T : Table) (m : Members) : Prop where
  scope : ∀ e ∈ m.scope.entries, EntryFormed T e
  fields : ∀ e ∈ m.fields, e.1.ty.Formed T ∧ ∀ term ∈ e.2, FactsFormed T term.facts
  methods : ∀ p ∈ m.methods, PreparedFormed T p

theorem classFields_formed {id : Nat} {ds : List FieldDecl} :
    w.Ensures (classFields id s t ds)
      (Leads w T decls t ∧ ∀ e ∈ s.entries, EntryFormed T e) fun r =>
      Leads w T decls r.1 ∧ ∀ e ∈ r.2, e.1.ty.Formed T ∧
        ∀ term ∈ e.2, FactsFormed T term.facts := by
  induction ds generalizing t with
  | nil => exact .pure fun h => ⟨h.1, by simp⟩
  | cons d rest ih =>
      unfold classFields
      refine ((varType_formed (T := T)).imp (fun h => h.1.formed.enter h.2) fun _ _ h => h).bind
        fun term => ?_
      split
      next => exact ih.imp And.left fun _ _ h => h
      next c _ =>
        split
        next => exact .report_bind (ih.vacuous not_false)
        next =>
          refine (ih.imp ?_ fun _ _ h => h).bind fun r => .pure ?_
          · exact fun h => ⟨h.1.1.modifyClass fun _ => ⟨rfl, rfl⟩, h.1.2⟩
          · rintro ⟨⟨_, hterm⟩, hleads, hrest⟩
            exact ⟨hleads, List.forall_mem_cons.2 ⟨⟨tyOf_formed hterm, hterm⟩, hrest⟩⟩

theorem classMethods_formed {id : Nat} {ds : List FuncDecl} :
    w.Ensures (classMethods id s t ds)
      (Leads w T decls t ∧ ∀ e ∈ s.entries, EntryFormed T e) fun r =>
      Leads w T decls r.1 ∧ ∀ p ∈ r.2, PreparedFormed T p := by
  induction ds generalizing t with
  | nil => exact .pure fun h => ⟨h.1, by simp⟩
  | cons d rest ih =>
      unfold classMethods
      split
      next => exact .pure fun h => ⟨h.1, by simp⟩
      next c hc =>
        split
        next => exact .report_bind (ih.vacuous not_false)
        next =>
          refine ((header_formed (T := T)).imp ?_ fun _ _ h => h).bind fun r => ?_
          · rintro ⟨hleads, hs⟩
            refine ⟨hleads.formed.enter hs, ?_⟩
            rintro _ ⟨⟩
            exact hleads.selves c (List.mem_of_getElem? hc)
          refine overrides_ensures.bind fun _ => (ih.imp ?_ fun _ _ h => h).bind
            fun r' => .pure ?_
          · exact fun h => ⟨h.1.1.1.modifyClass fun _ => ⟨rfl, rfl⟩, h.1.1.2⟩
          · rintro ⟨⟨⟨_, hheader⟩, _⟩, hleads, hrest⟩
            exact ⟨hleads, List.forall_mem_cons.2 ⟨hheader, hrest⟩⟩

theorem classMembers_formed {id : Nat} {m : Members} :
    w.Ensures (classMembers t id m) (Leads w T decls t ∧ MembersFormed T m) fun r =>
      Leads w T decls r.1 ∧ MembersFormed T r.2 := by
  unfold classMembers
  split
  next => exact .pure fun h => h
  next c _ =>
    refine (classFields_formed.imp (fun h => ⟨h.1, h.2.scope⟩) fun _ _ h => h).bind fun r₁ => ?_
    refine (classMethods_formed.imp (fun h => ⟨h.2.1, h.1.2.scope⟩) fun _ _ h => h).bind
      fun r₂ => .pure ?_
    rintro ⟨⟨⟨_, hm⟩, _, hfields⟩, hleads, hmethods⟩
    exact ⟨hleads, hm.scope, hfields, hmethods⟩

theorem allMembers_formed (T : Table) (decls : List Decl) {ms : List Members} {ids : List Nat} :
    w.Ensures (allMembers t ms ids) (Leads w T decls t ∧ ∀ m ∈ ms, MembersFormed T m) fun r =>
      Leads w T decls r.1 ∧ ∀ m ∈ r.2, MembersFormed T m := by
  induction ids generalizing t ms with
  | nil => exact .pure fun h => h
  | cons id rest ih =>
      unfold allMembers
      split
      next => exact ih
      next m hm =>
        refine (classMembers_formed.imp (fun h => ⟨h.1, h.2 m (List.mem_of_getElem? hm)⟩)
          fun _ _ h => h).bind fun r => ?_
        refine ih.imp (fun h => ⟨h.2.1, fun m' hm' => ?_⟩) fun _ _ h => h
        rcases List.mem_or_eq_of_mem_set hm' with hmem | rfl
        · exact h.1.2 m' hmem
        · exact h.2.2

theorem signatures_formed (T : Table) (decls : List Decl) {ds : List FuncDecl} :
    w.Ensures (signatures t ds) (Leads w T decls t) fun list =>
      ∀ p ∈ list, PreparedFormed T p := by
  induction ds with
  | nil => exact .pure fun _ => by simp
  | cons d rest ih =>
      unfold signatures
      refine .report_if (((header_formed (T := T)).imp (fun h => ⟨h.1.formed, by simp⟩)
        fun _ _ h => h).bind fun r => ?_)
      refine (ih.imp (fun h => h.1.1) fun _ _ h => h).bind fun list => .pure fun h => ?_
      exact List.forall_mem_cons.2 ⟨h.1.2, h.2⟩

/-! Whole units -/

/-- Bounds have different names, and so have the methods of each. -/
structure BoundsNamed (t : Table) : Prop where
  bounds : (t.bounds.map (·.name)).Nodup
  methods : ∀ b ∈ t.bounds, (b.methods.map (·.name)).Nodup

theorem BoundsNamed.add {b : String} {m : Method} (h : BoundsNamed t)
    (hm : ((t.boundNamed? b).bind (·.method? m.name)).isSome = false) :
    BoundsNamed (t.modifyBound b fun info => { info with methods := info.methods ++ [m] }) where
  bounds := by
    have hnames := congrArg (List.map fun d : BoundDecl => d.name.text)
      (OnlyBounds.modifyBound t b fun info => info.methods ++ [m]).decls
    simp only [List.map_map] at hnames
    exact hnames ▸ h.bounds
  methods info hinfo := by
    obtain ⟨old, hold, rfl⟩ := List.mem_map.1 hinfo
    have hnodup := h.methods old hold
    split
    next hname =>
      have hfound : t.boundNamed? b = some old := by
        cases hfind : t.boundNamed? b with
        | none => exact absurd hname (by simpa using List.find?_eq_none.1 hfind old hold)
        | some own =>
            have hown : own.name = b := by simpa using List.find?_some hfind
            rw [List.inj_on_of_nodup_map h.bounds (List.mem_of_find?_eq_some hfind) hold
              (hown.trans hname.symm)]
      simp only [hfound, Option.bind_some, BoundInfo.method?, List.find?_isSome,
        Bool.eq_false_iff, ne_eq, not_exists, not_and, decide_eq_true_eq] at hm
      rw [List.map_append]
      exact nodup_snoc hnodup fun hmem =>
        let ⟨m', hm', heq⟩ := List.mem_map.1 hmem
        hm m' hm' heq
    next => exact hnodup

theorem boundMethods_named {b : String} {ds : List FuncDecl} :
    w.Ensures (boundMethods b t ds) (UnitOf t decls ∧ BoundsNamed t) fun r =>
      UnitOf r.1 decls ∧ BoundsNamed r.1 := by
  induction ds generalizing t with
  | nil => exact .pure fun h => h
  | cons d rest ih =>
      unfold boundMethods
      dsimp only
      split
      next => exact .report_bind (ih.vacuous not_false)
      next hnew =>
        split
        next => exact .report_bind (ih.vacuous not_false)
        next =>
          refine ((header_ensures (Δ := [])).imp
            (fun h => ⟨h.1.typesIn rfl, h.1.basicIn rfl, by simp⟩) fun _ _ h => h).bind fun r => ?_
          refine (ih.imp (fun h => ⟨h.1.1, h.1.2.add ?_⟩) fun _ _ h => h).bind
            fun r' => .pure And.right
          simpa using hnew

theorem allBounds_named (decls : List Decl) {bs : List BoundInfo} :
    w.Ensures (allBounds t bs) (UnitOf t decls ∧ BoundsNamed t) fun r =>
      UnitOf r.1 decls ∧ BoundsNamed r.1 := by
  induction bs generalizing t with
  | nil => exact .pure fun h => h
  | cons b rest ih =>
      unfold allBounds
      refine boundMethods_named.bind fun r => (ih.imp And.right fun _ _ h => h).bind
        fun r' => .pure And.right

theorem Bare.boundsNamed (hbare : Bare t decls) (hlink : LinkedTo t decls) :
    BoundsNamed t where
  bounds := by
    rw [hbare.bounds, List.map_map]
    refine (Decl.names_sublist (g := Decl.bound?) (fun d x hd => ?_) decls).nodup hlink.nodup
    cases d <;> simp [Decl.bound?] at hd
    simp [Decl.name, hd, BoundInfo.name]
  methods b hb := by
    rw [hbare.bounds] at hb
    obtain ⟨d, _, rfl⟩ := List.mem_map.1 hb
    exact List.nodup_nil

/-- What was collected has well-formed types. -/
structure CollectedFormed (T : Table) (c : Collected) : Prop where
  bounds : ∀ b ∈ T.bounds, ∀ m ∈ b.methods, m.sig.Formed T
  members : ∀ e ∈ c.classes, MembersFormed T e.2
  prepared : ∀ e ∈ c.bounds, ∀ p ∈ e.2, PreparedFormed T p
  funcs : ∀ p ∈ c.funcs, PreparedFormed T p

theorem Members.Opened.formed {m : Members} {d : ClassDecl} (h : m.Opened d)
    (hfields : m.fields = []) (hmethods : m.methods = []) : MembersFormed T m where
  scope e he := by
    rw [h.entries] at he
    obtain ⟨x, _, rfl⟩ := List.mem_map.1 he
    exact ⟨by simp [paramEntry], by simp [paramEntry]⟩
  fields := by simp [hfields]
  methods := by simp [hmethods]

theorem collect_formed {f : File} (hduty : ∀ d, w.duty d → T.Meets d) :
    w.Ensures (collect f t) (LinkedTo t f.decls ∧ Bare t f.decls) fun r =>
      ∀ c, r = some c → c.table = T → CollectedFormed T c := by
  unfold collect
  refine (allClassParams_ensures.imp ?_ fun _ _ h => h).bind fun r₁ => ?_
  · rintro ⟨hlink, hbare⟩
    refine ⟨by rw [hlink.linked.ids]; exact List.nodup_range, fun c hc => ?_⟩
    have hclass := hlink.linked.class?_id hc
    exact ⟨hclass, (hbare.classes hclass).2.2⟩
  refine Watch.Ensures.imp (P := ParamsOk r₁.1 f.decls r₁.2 ∧ BoundsNamed r₁.1 ∧
    (∀ b ∈ r₁.1.bounds, b.methods = []) ∧ ∀ m ∈ r₁.2, MembersFormed T m) ?_ ?_ fun _ _ h => h
  swap
  · rintro ⟨⟨hlink, hbare⟩, honly, hlen, hzip⟩
    have hbounds : r₁.1.bounds = t.bounds := by rw [honly.eq]
    refine ⟨paramsOk_of_allClassParams hlink hbare honly hlen hzip, ?_, ?_, fun m hm => ?_⟩
    · have hnamed := hbare.boundsNamed hlink
      exact ⟨by rw [hbounds]; exact hnamed.bounds, by rw [hbounds]; exact hnamed.methods⟩
    · intro b hb
      rw [hbounds, hbare.bounds] at hb
      obtain ⟨d, _, rfl⟩ := List.mem_map.1 hb
      rfl
    · obtain ⟨i, hi, rfl⟩ := List.mem_iff_getElem.1 hm
      have hmem : (t.classes[i], r₁.2[i]) ∈ t.classes.zip r₁.2 :=
        List.mem_iff_getElem.2 ⟨i, by simp; omega, by simp⟩
      obtain ⟨_, hopened, hfields, hmethods⟩ := hzip _ hmem
      exact hopened.formed hfields hmethods
  refine ((((allBounds_ensures f.decls).imp ?_ fun _ _ h => h).and
    ((allBounds_named f.decls).imp ?_ fun _ _ h => h)).under (H := Leads w T f.decls r₁.1)
      ((allBounds_formed T f.decls).imp ?_ fun _ _ h => h)).bind fun r₂ => ?_
  · rintro ⟨hparams, _, hempty, _⟩
    exact ⟨hparams.linkedTo.entries, fun b hb m hm => by simp [hempty b hb] at hm⟩
  · exact fun h => ⟨h.1.linkedTo.entries, h.2.1⟩
  · rintro ⟨⟨_, _, hempty, _⟩, hleads⟩
    exact ⟨hleads, fun b hb m hm => by simp [hempty b hb] at hm⟩
  refine (((allMembers_ensures r₂.1.arity f.decls).imp ?_ fun _ _ h => h).under
    (H := Leads w T f.decls r₁.1) ((allMembers_formed T f.decls).imp ?_ fun _ _ h => h)).bind
      fun r₃ => ?_
  · rintro ⟨⟨hparams, _⟩, ⟨⟨honly, _⟩, _⟩, _⟩
    exact (hparams.onlyBounds honly).pending
  · rintro ⟨⟨⟨_, _, _, hmembers⟩, _, hbounds⟩, hleads⟩
    exact ⟨(hbounds hleads).1, hmembers⟩
  refine (((signatures_ensures f.decls).imp ?_ fun _ _ h => h).under
    (H := Leads w T f.decls r₁.1) ((signatures_formed T f.decls).imp ?_ fun _ _ h => h)).bind
      fun funcs => ?_
  · rintro ⟨⟨⟨hparams, _⟩, ⟨⟨honly, _⟩, _⟩, _⟩, ⟨honly', _⟩, _⟩
    rw [UnitOf, honly'.eq]
    exact (hparams.onlyBounds honly).linkedTo.entries
  · exact fun h => (h.1.2.2 h.2).1
  refine Watch.Ensures.get.bind fun s => settle_ensures.bind fun _ =>
    Watch.Ensures.failed.bind fun b => ?_
  split
  next hb => exact .pure fun h => by simp [hb] at h
  next =>
    refine .pure fun h c heq hT => ?_
    obtain ⟨⟨⟨⟨⟨⟨⟨hparams, _⟩, ⟨⟨honly, _⟩, _, hnamed⟩, hbounds⟩, ⟨honly', _, hheads, _⟩,
      hmembers⟩, _, hfuncs⟩, _⟩, _⟩, _⟩ := h
    obtain rfl := Option.some.inj heq
    have heads : r₁.1.heads = T.heads := by
      have hclasses : r₂.1.classes = r₁.1.classes := by rw [honly.eq]
      rw [← hT]
      exact (hheads.trans (congrArg (List.map fun c : ClassInfo => (c.name, c.tparams))
        hclasses)).symm
    have hsame : T.bounds = r₂.1.bounds := by
      rw [← hT]
      show r₃.1.bounds = r₂.1.bounds
      rw [honly'.eq]
    have hleads : Leads w T f.decls r₁.1 := by
      refine ⟨hparams.linkedTo.entries, heads, fun c hc => ?_, hduty⟩
      refine Table.selfType_formed (fun b hb => hnamed.methods b (hsame ▸ hb)) ?_
      rw [← Table.tparams_of_heads heads, hparams.linkedTo.linked.classNamed?_name hc]
      rfl
    obtain ⟨_, hbounds, hprepared⟩ := hbounds hleads
    refine ⟨fun b hb => hbounds b (hsame ▸ hb), fun e he => ?_, hprepared, hfuncs hleads⟩
    exact (hmembers hleads).2 e.2 (List.of_mem_zip he).2

theorem duties_satisfies (pos : Pos) (ty : Ty) (b : String) (s : Session) :
    ((satisfies t pos ty b).run s).2.duties = s.duties := by
  unfold satisfies
  split
  next => rfl
  next =>
    split
    next => rfl
    next => split <;> rfl

theorem duties_settle (duties : List Duty) (s : Session) :
    ((settle t duties).run s).2.duties = s.duties := by
  induction duties generalizing s with
  | nil => rfl
  | cons d rest ih =>
      unfold settle
      rw [Watch.Ensures.run_bind]
      exact (ih _).trans (duties_satisfies d.pos d.ty d.bound s)

/-- What was put off while a unit was collected is satisfied when all is done. -/
theorem collect_duties {f : File} {c : Collected} {s s' : Session}
    (h : (collect f t).run s = (some c, s')) (hclean : s'.Clean) :
    ∀ d ∈ s'.duties, c.table.Meets d := by
  unfold collect at h
  rw [Watch.Ensures.run_bind] at h
  generalize (allClassParams t t.classes).run s = r₁ at h
  obtain ⟨⟨t₁, ms₁⟩, s₁⟩ := r₁
  dsimp only at h
  rw [Watch.Ensures.run_bind] at h
  generalize (allBounds t₁ t₁.bounds).run s₁ = r₂ at h
  obtain ⟨⟨t₂, bounds⟩, s₂⟩ := r₂
  dsimp only at h
  rw [Watch.Ensures.run_bind] at h
  generalize (allMembers t₂ ms₁ t₂.order).run s₂ = r₃ at h
  obtain ⟨⟨t₃, ms₃⟩, s₃⟩ := r₃
  dsimp only at h
  rw [Watch.Ensures.run_bind] at h
  generalize (signatures t₃ f.funcs).run s₃ = r₄ at h
  obtain ⟨funcs, s₄⟩ := r₄
  dsimp only at h
  rw [Watch.Ensures.run_bind, Watch.Ensures.run_bind, Watch.Ensures.run_bind] at h
  have hduties := duties_settle (t := t₃) s₄.duties s₄
  have hsettle : Watch.Ensures { consts := fun _ => True } (settle t₃ s₄.duties) True
      fun _ => ∀ d ∈ s₄.duties, t₃.Meets d := settle_ensures
  change ((if (failed.run ((settle t₃ s₄.duties).run s₄).2).1 then _ else _ : Check _).run
    ((settle t₃ s₄.duties).run s₄).2) = _ at h
  split at h
  next => cases h
  next =>
    obtain ⟨heq, rfl⟩ := Prod.mk.inj h
    obtain rfl := Option.some.inj heq
    intro d hd
    have hmet := (((hsettle s₄).2 (Passed.upheld_iff.2 hclean)).2 trivial trivial).2
    exact hmet d (hduties ▸ hd)

end Check

end ClassLang
