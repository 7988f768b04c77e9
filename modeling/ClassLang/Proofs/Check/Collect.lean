import ClassLang.Proofs.Check.Types
import ClassLang.Proofs.Table.Link

/-!
Collecting the members of a unit without errors. Only the class or bound at hand
changes, classes come after their ancestors, and so what was compared with an
inherited member stays true of the finished table.
-/

namespace ClassLang

namespace Signature

/-- A signature made of types that are known where the type parameters `Δ` are. -/
def Scoped (ar : String → Option Nat) (Δ : List TypeParam) (s : Signature) : Prop :=
  (∀ t ∈ s.paramTypes, t.Scoped ar Δ ∧ t.isVoid = false) ∧ s.result.Scoped ar Δ

end Signature

namespace Table

/-- The names of the classes with their type parameters. -/
def heads (t : Table) : List (String × List TypeParam) :=
  t.classes.map fun c => (c.name, c.tparams)

end Table

namespace Check

variable {w : Watch} {t u : Table} {decls : List Decl} {ar : String → Option Nat}
  {Δ : List TypeParam} {P : Prop}

theorem HeaderOk.scoped {own : Option Ty} {d : FuncDecl} {h : Typed.Header} {s : Scope Symbol}
    (hok : HeaderOk ar Δ own d h s) : h.sig.Scoped ar (h.sig.tparams ++ Δ) := by
  refine ⟨fun t ht => ?_, hok.result⟩
  rw [Signature.paramTypes, hok.params, List.map_map] at ht
  obtain ⟨e, he, rfl⟩ := List.mem_map.1 ht
  exact hok.param_types e he

theorem HeaderOk.tparams_nil {own : Option Ty} {d : FuncDecl} {h : Typed.Header}
    {s : Scope Symbol} (hok : HeaderOk ar Δ own d h s) (hd : d.tparams = []) :
    h.sig.tparams = [] := by
  rw [hok.tparams]
  have hdecls := hok.tparam_decls
  rw [hd, List.map_eq_nil_iff] at hdecls
  simp [hdecls]

/-! The names of a unit -/

/-- The unit scope of `t` has the names of `decls`. -/
def UnitOf (t : Table) (decls : List Decl) : Prop :=
  t.unit.entries = decls.map fun d => (d.name.text, d.symbol)

theorem UnitOf.lookup (h : UnitOf t decls) {name : String} {sym : Symbol}
    (hl : Scope.lookup [t.unit, predeclared] name = some sym) :
    (∃ d ∈ decls, d.name.text = name ∧ d.symbol = sym) ∨ (name, sym) ∈ predeclared.entries := by
  simp only [Scope.lookup, List.findSome?_cons] at hl
  cases hfind : t.unit.find? name with
  | some sym' =>
      have hmem := find?_mem hfind
      rw [h] at hmem
      obtain ⟨d, hd, heq⟩ := List.mem_map.1 hmem
      cases heq
      exact .inl ⟨d, hd, rfl, by simpa [hfind] using hl⟩
  | none =>
      cases hpre : predeclared.find? name with
      | none => simp [hfind, hpre] at hl
      | some sym' =>
          obtain rfl : sym' = sym := by simpa [hfind, hpre] using hl
          exact .inr (find?_mem hpre)

theorem UnitOf.typesIn {env : Env} (h : UnitOf t decls)
    (hscopes : env.scopes = [t.unit, predeclared]) : env.TypesIn Δ := by
  intro name p pos hl
  rw [Env.lookup, hscopes] at hl
  rcases h.lookup hl with ⟨d, _, _, hsym⟩ | hpre
  · cases d <;> simp [Decl.symbol] at hsym
  · simp [predeclared] at hpre

theorem UnitOf.basicIn {env : Env} (h : UnitOf t decls)
    (hscopes : env.scopes = [t.unit, predeclared]) : env.BasicIn := by
  intro name ty hl
  rw [Env.lookup, hscopes] at hl
  rcases h.lookup hl with ⟨d, _, _, hsym⟩ | hpre
  · cases d <;> simp [Decl.symbol] at hsym
  · simp only [predeclared, List.mem_cons, Prod.mk.injEq, Symbol.basic.injEq, reduceCtorEq,
      and_false, List.not_mem_nil, or_false] at hpre
    intro ar
    rcases hpre with ⟨_, rfl⟩ | ⟨_, rfl⟩ | ⟨_, rfl⟩ | ⟨_, rfl⟩ | ⟨_, rfl⟩ <;> simp [Ty.Scoped]

/-! Type parameters of classes -/

/-- The type parameters of a class have been declared in the scope of `m`, and
nothing else. -/
structure Members.Opened (m : Members) (d : ClassDecl) : Prop where
  entries : m.scope.entries = m.tparams.map paramEntry
  nodup : m.scope.names.Nodup
  decls : m.tparams.map (·.decl) = d.tparams
  indexed : Indexed (m.tparams.map (·.param))

/-- The class that results when the type parameters `m` have been declared. -/
def Members.classOf (m : Members) (c : ClassInfo) : ClassInfo :=
  { c with tparams := m.tparams.map (·.param) }

theorem class?_modifyClass_self {id : Nat} {c : ClassInfo} {f : ClassInfo → ClassInfo}
    (hc : t.class? id = some c) : (t.modifyClass id f).class? id = some (f c) := by
  simp only [Table.class?] at hc
  simp [Table.modifyClass, Table.class?, hc]

theorem class?_modifyClass_ne {id j : Nat} {f : ClassInfo → ClassInfo} (hj : id ≠ j) :
    (t.modifyClass id f).class? j = t.class? j := by
  simp [Table.modifyClass, Table.class?, hj]

/-- `u` is `t` with other contents of the classes `ids`. -/
structure OnlyClasses (ids : List Nat) (t u : Table) : Prop where
  eq : u = { t with classes := u.classes }
  class? : ∀ j, j ∉ ids → u.class? j = t.class? j

theorem OnlyClasses.refl (ids : List Nat) (t : Table) : OnlyClasses ids t t := ⟨rfl, fun _ _ => rfl⟩

theorem OnlyClasses.trans {ids ids' : List Nat} {v : Table} (h : OnlyClasses ids t u)
    (h' : OnlyClasses ids' u v) (hsub : ∀ j ∈ ids, j ∈ ids') : OnlyClasses ids' t v where
  eq := by rw [h'.eq, h.eq]
  class? j hj := by rw [h'.class? j hj, h.class? j fun hmem => hj (hsub j hmem)]

theorem OnlyClasses.modifyClass (t : Table) (id : Nat) (f : ClassInfo → ClassInfo) :
    OnlyClasses [id] t (t.modifyClass id f) :=
  ⟨rfl, fun j hj => class?_modifyClass_ne fun h => hj (by simp [h])⟩

theorem classParams_ensures {c : ClassInfo} :
    w.Ensures (classParams t c)
      (t.class? c.id = some c ∧ c.tparams = Table.freshParams c.name c.decl.tparams) fun r =>
      OnlyClasses [c.id] t r.1 ∧ r.1.class? c.id = some (r.2.classOf c) ∧
        r.2.Opened c.decl ∧ r.2.fields = [] ∧ r.2.methods = [] := by
  unfold classParams
  refine (typeParams_ensures.imp (fun _ => by simp [Scope.names]) fun _ _ h => h).bind
    fun r => .pure ?_
  rintro ⟨⟨hc, hfresh⟩, hentries, hnodup, hdecls, hindices⟩
  rw [hfresh] at hdecls hindices
  rw [map_decl_fresh] at hdecls
  exact ⟨.modifyClass .., class?_modifyClass_self hc,
    ⟨by simpa using hentries, hnodup, hdecls, indexed_of_fresh hindices⟩, rfl, rfl⟩

theorem allClassParams_ensures {cs : List ClassInfo} :
    w.Ensures (allClassParams t cs)
      ((cs.map (·.id)).Nodup ∧ ∀ c ∈ cs, t.class? c.id = some c ∧
        c.tparams = Table.freshParams c.name c.decl.tparams) fun r =>
      OnlyClasses (cs.map (·.id)) t r.1 ∧ r.2.length = cs.length ∧
        ∀ e ∈ cs.zip r.2, r.1.class? e.1.id = some (e.2.classOf e.1) ∧
          e.2.Opened e.1.decl ∧ e.2.fields = [] ∧ e.2.methods = [] := by
  induction cs generalizing t with
  | nil => exact .pure fun _ => ⟨.refl _ _, rfl, by simp⟩
  | cons c rest ih =>
      unfold allClassParams
      refine (classParams_ensures.imp (fun h => h.2 c (by simp)) fun _ _ h => h).bind fun r₁ => ?_
      refine (ih.imp ?_ fun _ _ h => h).bind fun r₂ => .pure ?_
      · rintro ⟨⟨hnodup, hclass⟩, honly, _⟩
        simp only [List.map_cons, List.nodup_cons] at hnodup
        refine ⟨hnodup.2, fun d hd => ⟨?_, (hclass d (by simp [hd])).2⟩⟩
        have hne : d.id ∉ [c.id] := fun h =>
          hnodup.1 (List.mem_singleton.1 h ▸ List.mem_map_of_mem hd)
        rw [honly.class? d.id hne]
        exact (hclass d (by simp [hd])).1
      · rintro ⟨⟨⟨hnodup, _⟩, honly, hown, hopen⟩, honly', hlen, hzip⟩
        simp only [List.map_cons, List.nodup_cons] at hnodup
        refine ⟨?_, by simp [hlen], ?_⟩
        · refine ⟨by rw [honly'.eq, honly.eq], fun j hj => ?_⟩
          simp only [List.map_cons, List.mem_cons, not_or] at hj
          rw [honly'.class? j hj.2, honly.class? j (by simp [hj.1])]
        · rw [List.zip_cons_cons]
          refine List.forall_mem_cons.2 ⟨⟨?_, hopen⟩, hzip⟩
          rw [honly'.class? c.id hnodup.1, hown]

/-! Methods of bounds -/

/-- The methods of bounds have no type parameters, own or from around them. -/
def BoundsClosed (t : Table) : Prop :=
  ∀ b ∈ t.bounds, ∀ m ∈ b.methods, m.sig.Scoped t.arity [] ∧ m.sig.tparams = []

/-- `u` is `t` with other methods of its bounds. -/
structure OnlyBounds (t u : Table) : Prop where
  eq : u = { t with bounds := u.bounds }
  decls : u.bounds.map (·.decl) = t.bounds.map (·.decl)

theorem OnlyBounds.trans {v : Table} (h : OnlyBounds t u) (h' : OnlyBounds u v) :
    OnlyBounds t v := ⟨by rw [h'.eq, h.eq], h'.decls.trans h.decls⟩

theorem OnlyBounds.arity (h : OnlyBounds t u) : u.arity = t.arity := by
  rw [h.eq]
  rfl

theorem OnlyBounds.unitOf (h : OnlyBounds t u) (ht : UnitOf t decls) : UnitOf u decls := by
  rw [UnitOf, h.eq]
  exact ht

theorem BoundsClosed.add {b : String} {m : Method} (h : BoundsClosed t)
    (hm : m.sig.Scoped t.arity [] ∧ m.sig.tparams = []) :
    BoundsClosed (t.modifyBound b fun info => { info with methods := info.methods ++ [m] }) := by
  intro info hinfo x hx
  obtain ⟨old, hold, rfl⟩ := List.mem_map.1 hinfo
  split at hx
  · rcases List.mem_append.1 hx with hx | hx
    · exact h old hold x hx
    · rwa [List.mem_singleton.1 hx]
  · exact h old hold x hx

theorem OnlyBounds.modifyBound (t : Table) (b : String) (ms : BoundInfo → List Method) :
    OnlyBounds t (t.modifyBound b fun info => { info with methods := ms info }) := by
  refine ⟨rfl, ?_⟩
  simp only [Table.modifyBound, List.map_map]
  refine List.map_congr_left fun info _ => ?_
  simp only [Function.comp]
  split <;> rfl

/-- The methods of a bound whose headers have been checked. -/
structure BoundMethodsOk (ar : String → Option Nat) (ds : List FuncDecl) (list : List Prepared) :
    Prop where
  decls : list.map (·.decl) = ds
  prepared : ∀ p ∈ list, HeaderOk ar [] none p.decl p.header p.scope

theorem boundMethods_ensures (decls : List Decl) {b : String} {ds : List FuncDecl} :
    w.Ensures (boundMethods b t ds) (UnitOf t decls ∧ BoundsClosed t) fun r =>
      OnlyBounds t r.1 ∧ BoundsClosed r.1 ∧ BoundMethodsOk t.arity ds r.2 := by
  induction ds generalizing t with
  | nil => exact .pure fun h => ⟨⟨rfl, rfl⟩, h.2, rfl, by simp⟩
  | cons d rest ih =>
      unfold boundMethods
      dsimp only
      split
      next => exact .report_bind (ih.imp False.elim fun h => h.elim)
      next =>
        split
        next => exact .report_bind (ih.imp False.elim fun h => h.elim)
        next htparams =>
          have htparams : d.tparams = [] := by simpa using htparams
          refine ((header_ensures (Δ := [])).imp ?_ fun _ _ h => h).bind fun r => ?_
          · rintro ⟨hunit, _⟩
            exact ⟨hunit.typesIn rfl, hunit.basicIn rfl, by simp⟩
          refine (ih.imp ?_ fun _ _ h => h).bind fun r' => .pure ?_
          · rintro ⟨⟨hunit, hclosed⟩, hheader⟩
            have hnil := hheader.tparams_nil htparams
            have hscoped := hheader.scoped
            rw [hnil] at hscoped
            exact ⟨hunit, hclosed.add ⟨hscoped, hnil⟩⟩
          · rintro ⟨⟨_, hheader⟩, honly, hclosed, hok⟩
            exact ⟨(OnlyBounds.modifyBound t b _).trans honly, hclosed, by simp [hok.decls],
              List.forall_mem_cons.2 ⟨hheader, hok.prepared⟩⟩

/-- The methods of a bound, with its name. -/
structure BoundOk (ar : String → Option Nat) (d : BoundDecl) (e : String × List Prepared) : Prop where
  name : e.1 = d.name.text
  methods : BoundMethodsOk ar d.methods e.2

theorem allBounds_ensures (decls : List Decl) {bs : List BoundInfo} :
    w.Ensures (allBounds t bs) (UnitOf t decls ∧ BoundsClosed t) fun r =>
      OnlyBounds t r.1 ∧ BoundsClosed r.1 ∧
        List.Forall₂ (BoundOk t.arity) (bs.map (·.decl)) r.2 := by
  induction bs generalizing t with
  | nil => exact .pure fun h => ⟨⟨rfl, rfl⟩, h.2, .nil⟩
  | cons b rest ih =>
      unfold allBounds
      refine (boundMethods_ensures decls).bind fun r => ?_
      refine (ih.imp ?_ fun _ _ h => h).bind fun r' => .pure ?_
      · rintro ⟨⟨hunit, _⟩, honly, hclosed, _⟩
        exact ⟨honly.unitOf hunit, hclosed⟩
      · rintro ⟨⟨_, honly, _, hmethods⟩, honly', hclosed, hall⟩
        rw [honly.arity] at hall
        exact ⟨honly.trans honly', hclosed, .cons ⟨rfl, hmethods⟩ hall⟩

/-- Changing one class but for its name and type parameters keeps those of all. -/
theorem OnlyClasses.heads {id : Nat} {c c' : ClassInfo} (honly : OnlyClasses [id] t u)
    (hc : t.class? id = some c) (hc' : u.class? id = some c') (hname : c'.name = c.name)
    (htparams : c'.tparams = c.tparams) : u.heads = t.heads := by
  refine List.ext_getElem? fun j => ?_
  simp only [Table.heads, List.getElem?_map]
  by_cases hj : j = id
  · subst hj
    simp only [Table.class?] at hc hc'
    simp [hc, hc', hname, htparams]
  · have := honly.class? j (by simpa using hj)
    simp only [Table.class?] at this
    rw [this]

/-- Changing one class within its frame keeps the hierarchy. -/
theorem OnlyClasses.sameFrame {id : Nat} {c c' : ClassInfo} (honly : OnlyClasses [id] t u)
    (hc : t.class? id = some c) (hc' : u.class? id = some c') (hframe : c'.frame = c.frame) :
    Table.SameFrame t u := by
  refine ⟨List.ext_getElem? fun j => ?_, by rw [honly.eq], by rw [honly.eq]⟩
  simp only [List.getElem?_map]
  by_cases hj : j = id
  · subst hj
    simp only [Table.class?] at hc hc'
    simp [hc, hc', hframe]
  · have := honly.class? j (by simpa using hj)
    simp only [Table.class?] at this
    rw [this]

/-! Members of classes -/

/-- The method that a prepared function of the class `owner` becomes. -/
def Prepared.method (p : Prepared) (owner : String) : Method :=
  ⟨p.decl.name.text, p.decl.name.pos, owner, p.header.sig⟩

/-- What a class knows while its members are collected: its contents, the scope of
its type parameters, and that it is not among its ancestors. -/
structure InClass (ar : String → Option Nat) (t : Table) (decls : List Decl) (id : Nat)
    (c : ClassInfo) (scope : Scope Symbol) : Prop where
  unit : UnitOf t decls
  class? : t.class? id = some c
  arity : t.arity = ar
  own_arity : ar c.name = some c.tparams.length
  scope : ∀ e ∈ scope.entries, LocalEntry ar c.tparams e
  acyclic : ∀ p, c.parent = some p → id ∉ t.chain p

namespace InClass

variable {id : Nat} {c d : ClassInfo} {scope : Scope Symbol}

theorem typesIn (h : InClass ar t decls id c scope) :
    ((unitEnv t).enter scope).TypesIn c.tparams ∧ ((unitEnv t).enter scope).BasicIn :=
  ⟨typesIn_enter (h.unit.typesIn rfl) h.scope, basicIn_enter (h.unit.basicIn rfl) h.scope⟩

/-- Adding members keeps what is known. -/
theorem modify (h : InClass ar t decls id c scope) (honly : OnlyClasses [id] t u)
    (hd : u.class? id = some d) (hframe : d.frame = c.frame) (htparams : d.tparams = c.tparams) :
    InClass ar u decls id d scope := by
  refine ⟨?_, hd, ?_, ?_, by rw [htparams]; exact h.scope, fun p hp => ?_⟩
  · rw [UnitOf, honly.eq]
    exact h.unit
  · rw [(honly.sameFrame h.class? hd hframe).arity, h.arity]
  · rw [ClassInfo.name_of_frame hframe, htparams]
    exact h.own_arity
  · rw [honly.eq]
    exact h.acyclic p (by rw [← (ClassInfo.frame_eq hframe).2.2.1, hp])

theorem congr_parent (h : InClass ar t decls id c scope) (honly : OnlyClasses [id] t u) {p : Nat}
    (hp : c.parent = some p) : u.chain p = t.chain p ∧
      ∀ j ∈ t.chain p, u.class? j = t.class? j := by
  refine ⟨by rw [honly.eq]; rfl, fun j hj => honly.class? j fun hmem => ?_⟩
  exact h.acyclic p hp (List.mem_singleton.1 hmem ▸ hj)

end InClass

theorem field?_eq_none_iff {c : ClassInfo} {name : String} :
    c.field? name = none ↔ name ∉ c.fields.map (·.name) := by
  simp [ClassInfo.field?, List.find?_eq_none]

theorem method?_eq_none_iff {c : ClassInfo} {name : String} :
    c.method? name = none ↔ name ∉ c.methods.map (·.name) := by
  simp [ClassInfo.method?, List.find?_eq_none]

theorem fieldConflict?_eq_none {c : ClassInfo} {name : String}
    (h : fieldConflict? t c name = none) : name ∉ c.fields.map (·.name) ∧
      ∀ p, c.parent = some p → t.lookupField p name = none := by
  unfold fieldConflict? at h
  split at h
  · cases h
  · rename_i hown
    refine ⟨field?_eq_none_iff.1 (by simpa using hown), fun p hp => ?_⟩
    simp only [hp] at h
    cases hf : t.lookupField p name with
    | none => rfl
    | some f => simp [hf] at h

theorem nodup_snoc {l : List String} {x : String} (h : l.Nodup) (hx : x ∉ l) :
    (l ++ [x]).Nodup :=
  List.nodup_append.2 ⟨h, by simp, by
    rintro a ha b hb rfl
    exact hx (List.mem_singleton.1 hb ▸ ha)⟩

/-- The fields that `list` adds to the class `c`. -/
structure FieldsOk (ar : String → Option Nat) (t : Table) (c : ClassInfo) (ds : List FieldDecl)
    (list : List (Field × Option Typed.TypeTerm)) : Prop where
  names : list.map (·.1.name) = ds.map (·.name.text)
  nodup : ((c.fields ++ list.map (·.1)).map (·.name)).Nodup
  types : ∀ e ∈ list, ∃ term, e.2 = some term ∧ e.1.ty.Scoped ar c.tparams ∧ e.1.ty.isVoid = false
  fresh : ∀ e ∈ list, ∀ p, c.parent = some p → t.lookupField p e.1.name = none

theorem classFields_ensures (ar : String → Option Nat) (decls : List Decl) {id : Nat}
    {scope : Scope Symbol} (c : ClassInfo) {ds : List FieldDecl} :
    w.Ensures (classFields id scope t ds)
      (InClass ar t decls id c scope ∧ (c.fields.map (·.name)).Nodup) fun r =>
      OnlyClasses [id] t r.1 ∧
        r.1.class? id = some { c with fields := c.fields ++ r.2.map (·.1) } ∧
        FieldsOk ar t c ds r.2 := by
  induction ds generalizing t c with
  | nil =>
      refine .pure fun h => ⟨.refl _ _, by simpa using h.1.class?, rfl, by simpa using h.2, ?_, ?_⟩
      <;> simp
  | cons d rest ih =>
      unfold classFields
      refine ((varType_ensures (Δ := c.tparams)).imp (fun h => h.1.typesIn) fun _ _ h => h).bind
        fun term => ?_
      split
      next hnone =>
        exact (ih (c := c)).vacuous fun h => by simp [h.1.1.class?] at hnone
      next c' hc' =>
        apply Watch.Ensures.of_eq (x := c') (y := c)
        · intro h
          simpa [hc'] using h.1.1.class?
        split
        next => exact .report_bind ((ih (c := c')).vacuous not_false)
        next hconflict =>
          obtain ⟨hnew, hfresh⟩ := fieldConflict?_eq_none hconflict
          let f : Field := ⟨d.name.text, d.name.pos, tyOf term, c'.name, c'.fields.length⟩
          have honly : OnlyClasses [id] t (t.pushField id f.name f.pos f.ty) := .modifyClass ..
          have hown : (t.pushField id f.name f.pos f.ty).class? id =
              some { c' with fields := c'.fields ++ [f] } := class?_modifyClass_self hc'
          refine ((ih (c := { c' with fields := c'.fields ++ [f] })).imp ?_ fun _ _ h => h).bind
            fun r => .pure ?_
          · rintro ⟨⟨hin, hnodup⟩, _⟩
            exact ⟨hin.modify honly hown rfl rfl, by simpa using nodup_snoc hnodup hnew⟩
          · rintro ⟨⟨⟨hin, _⟩, term', rfl, hscoped, hvoid⟩, honly', hclass, hok⟩
            refine ⟨honly.trans honly' fun _ h => h, by simpa using hclass, ?_, ?_, ?_, ?_⟩
            · simp [hok.names]
            · simpa using hok.nodup
            · rw [← hin.arity]
              exact List.forall_mem_cons.2 ⟨⟨term', rfl, hscoped, hvoid⟩, hin.arity ▸ hok.types⟩
            · refine List.forall_mem_cons.2 ⟨hfresh, fun e he p hp => ?_⟩
              obtain ⟨hchain, hagree⟩ := hin.congr_parent honly hp
              rw [← Table.lookupField_congr hchain hagree]
              exact hok.fresh e he p hp

theorem methodConflict?_eq_none {c : ClassInfo} {d : FuncDecl}
    (h : methodConflict? t c d = none) :
    d.name.text ∉ c.methods.map (·.name) ∧ d.tparams = [] := by
  simp only [methodConflict?] at h
  split at h
  · cases h
  · rename_i hown
    split at h
    · cases h
    · split at h
      · cases h
      · rename_i htparams
        exact ⟨method?_eq_none_iff.1 (by simpa using hown), by simpa using htparams⟩

theorem overrides_ensures {c : ClassInfo} {m : Method} :
    w.Ensures (overrides t c m) P fun _ => ∀ p inherited, c.parent = some p →
      t.lookupMethod p m.name = some inherited → inherited.sig.identical m.sig = true := by
  unfold overrides
  split
  next hnone =>
    refine .pure fun _ p inherited hp hl => ?_
    simp [hp, hl] at hnone
  next inherited hsome =>
    split
    next => exact .report
    next hid =>
      refine .pure fun _ p inherited' hp hl => ?_
      obtain rfl : inherited' = inherited := by simpa [hp, hl] using hsome
      simpa using hid

/-- The methods that `list` adds to the class `c`. -/
structure MethodsOk (ar : String → Option Nat) (t : Table) (c : ClassInfo) (ds : List FuncDecl)
    (list : List Prepared) : Prop where
  decls : list.map (·.decl) = ds
  nodup : ((c.methods ++ list.map (·.method c.name)).map (·.name)).Nodup
  prepared : ∀ p ∈ list, p.ref = (p.method c.name).ref ∧ p.sym = .method (p.method c.name) ∧
    p.decl.tparams = [] ∧ HeaderOk ar c.tparams (some (selfType c)) p.decl p.header p.scope
  overrides : ∀ p ∈ list, ∀ parent inherited, c.parent = some parent →
    t.lookupMethod parent p.decl.name.text = some inherited →
      inherited.sig.identical p.header.sig = true

theorem classMethods_ensures (ar : String → Option Nat) (decls : List Decl) {id : Nat}
    {scope : Scope Symbol} (c : ClassInfo) {ds : List FuncDecl} :
    w.Ensures (classMethods id scope t ds)
      (InClass ar t decls id c scope ∧ (c.methods.map (·.name)).Nodup) fun r =>
      OnlyClasses [id] t r.1 ∧
        r.1.class? id = some { c with methods := c.methods ++ r.2.map (·.method c.name) } ∧
        MethodsOk ar t c ds r.2 := by
  induction ds generalizing t c with
  | nil =>
      refine .pure fun h => ⟨.refl _ _, by simpa using h.1.class?, rfl, by simpa using h.2, ?_, ?_⟩
      <;> simp
  | cons d rest ih =>
      unfold classMethods
      split
      next hnone => exact .pure fun h => by simp [h.1.class?] at hnone
      next c' hc' =>
        apply Watch.Ensures.of_eq (x := c') (y := c)
        · intro h
          simpa [hc'] using h.1.class?
        split
        next => exact .report_bind ((ih (c := c')).vacuous not_false)
        next hconflict =>
          obtain ⟨hnew, htparams⟩ := methodConflict?_eq_none hconflict
          refine ((header_ensures (Δ := c'.tparams)).imp ?_ fun _ _ h => h).bind fun r => ?_
          · rintro ⟨hin, _⟩
            refine ⟨hin.typesIn.1, hin.typesIn.2, ?_⟩
            rintro _ ⟨⟩
            exact ⟨fun _ hp => hp, by rw [← hin.own_arity, ← hin.arity]; rfl⟩
          let m : Method := ⟨d.name.text, d.name.pos, c'.name, r.1.sig⟩
          have honly : OnlyClasses [id] t (t.pushMethod id m.name m.pos m.sig) := .modifyClass ..
          have hown : (t.pushMethod id m.name m.pos m.sig).class? id =
              some { c' with methods := c'.methods ++ [m] } := class?_modifyClass_self hc'
          refine overrides_ensures.bind fun _ => ?_
          refine ((ih (c := { c' with methods := c'.methods ++ [m] })).imp ?_ fun _ _ h => h).bind
            fun r' => .pure ?_
          · rintro ⟨⟨⟨hin, hnodup⟩, _⟩, _⟩
            exact ⟨hin.modify honly hown rfl rfl, by simpa using nodup_snoc hnodup hnew⟩
          · rintro ⟨⟨⟨⟨hin, _⟩, hheader⟩, hoverride⟩, honly', hclass, hok⟩
            have hagree {p : Nat} (hp : c'.parent = some p) (name : String) :
                (t.pushMethod id m.name m.pos m.sig).lookupMethod p name =
                  t.lookupMethod p name :=
              Table.lookupMethod_congr (hin.congr_parent honly hp).1 (hin.congr_parent honly hp).2
            have hnodup := hok.nodup
            simp only [List.append_assoc] at hclass hnodup
            refine ⟨honly.trans honly' fun _ h => h, hclass, ?_, hnodup, ?_, ?_⟩
            · simp [hok.decls]
            · refine List.forall_mem_cons.2 ⟨⟨rfl, rfl, htparams, ?_⟩, hok.prepared⟩
              rw [← hin.arity]
              exact hheader
            · refine List.forall_mem_cons.2 ⟨fun p inherited hp hl => ?_, ?_⟩
              · exact hoverride p inherited hp ((hagree hp _).trans hl)
              · intro p' hp' p inherited hp hl
                exact hok.overrides p' hp' p inherited hp ((hagree hp _).trans hl)

/-! Whole classes -/

/-- A class whose members are those of `m`. -/
structure ClassOk (ar : String → Option Nat) (t : Table) (id : Nat) (c : ClassInfo) (m : Members) : Prop where
  class? : t.class? id = some c
  opened : m.Opened c.decl
  tparams : c.tparams = m.tparams.map (·.param)
  fields : c.fields = m.fields.map (·.1)
  methods : c.methods = m.methods.map (·.method c.name)
  field_decls : FieldsOk ar t { c with fields := [], methods := [] } c.decl.fields m.fields
  method_decls : MethodsOk ar t { c with methods := [] } c.decl.methods m.methods

/-- A table that agrees on the class and its ancestors will do. -/
theorem ClassOk.congr {id : Nat} {c : ClassInfo} {m : Members} (h : ClassOk ar t id c m)
    (hclass : u.class? id = t.class? id)
    (hparent : ∀ p, c.parent = some p → u.chain p = t.chain p ∧
      ∀ j ∈ t.chain p, u.class? j = t.class? j) : ClassOk ar u id c m where
  class? := hclass.trans h.class?
  opened := h.opened
  tparams := h.tparams
  fields := h.fields
  methods := h.methods
  field_decls :=
    { h.field_decls with
      fresh := fun e he p hp => by
        rw [Table.lookupField_congr (hparent p hp).1 (hparent p hp).2]
        exact h.field_decls.fresh e he p hp }
  method_decls :=
    { h.method_decls with
      overrides := fun x hx p inherited hp hl => by
        rw [Table.lookupMethod_congr (hparent p hp).1 (hparent p hp).2] at hl
        exact h.method_decls.overrides x hx p inherited hp hl }

/-- A class whose type parameters are those of `m`, and that has no members yet. -/
structure ClassOpen (ar : String → Option Nat) (t : Table) (decls : List Decl) (id : Nat)
    (c : ClassInfo) (m : Members) : Prop where
  unit : UnitOf t decls
  arity : t.arity = ar
  own_arity : ar c.name = some c.tparams.length
  class? : t.class? id = some c
  acyclic : ∀ p, c.parent = some p → id ∉ t.chain p
  opened : m.Opened c.decl
  tparams : c.tparams = m.tparams.map (·.param)
  fields : c.fields = []
  methods : c.methods = []

theorem ClassOpen.inClass {id : Nat} {c : ClassInfo} {m : Members}
    (h : ClassOpen ar t decls id c m) : InClass ar t decls id c m.scope := by
  refine ⟨h.unit, h.class?, h.arity, h.own_arity, fun e he => ?_, h.acyclic⟩
  rw [h.opened.entries] at he
  obtain ⟨x, hx, rfl⟩ := List.mem_map.1 he
  exact .inl ⟨x.param, _, rfl, by rw [h.tparams]; exact List.mem_map_of_mem hx⟩

theorem classMembers_ensures (ar : String → Option Nat) (decls : List Decl)
    {id : Nat} {m : Members} :
    w.Ensures (classMembers t id m) (∃ c, ClassOpen ar t decls id c m) fun r =>
      OnlyClasses [id] t r.1 ∧ Table.SameFrame t r.1 ∧ r.1.heads = t.heads ∧
        ∃ c, ClassOk ar r.1 id c r.2 := by
  unfold classMembers
  split
  next hnone =>
    refine .pure ?_
    rintro ⟨c, h⟩
    simp [h.class?] at hnone
  next c' hc' =>
    refine Watch.Ensures.imp (P := ClassOpen ar t decls id c' m) ?_ ?_ fun _ _ h => h
    swap
    · rintro ⟨c, h⟩
      obtain rfl : c' = c := by simpa [hc'] using h.class?
      exact h
    refine ((classFields_ensures ar decls c').imp
      (fun h => ⟨h.inClass, by simp [h.fields]⟩) fun _ _ h => h).bind fun r₁ => ?_
    refine ((classMethods_ensures ar decls
      { c' with fields := c'.fields ++ r₁.2.map (·.1) }).imp ?_ fun _ _ h => h).bind
      fun r₂ => .pure ?_
    · rintro ⟨hopen, honly, hclass, _⟩
      exact ⟨hopen.inClass.modify honly hclass rfl rfl, by simp [hopen.methods]⟩
    · rintro ⟨⟨hopen, honly₁, hclass₁, hfields⟩, honly₂, hclass₂, hmethods⟩
      have hin₁ := hopen.inClass.modify honly₁ hclass₁ rfl rfl
      obtain ⟨_, _, _, parent, fields, methods, _⟩ := c'
      obtain rfl : fields = [] := hopen.fields
      obtain rfl : methods = [] := hopen.methods
      have hagree : ∀ p, parent = some p → r₂.1.chain p = r₁.1.chain p ∧
          ∀ j ∈ r₁.1.chain p, r₂.1.class? j = r₁.1.class? j := fun p hp =>
        hin₁.congr_parent honly₂ hp
      have honly := honly₁.trans honly₂ fun _ h => h
      refine ⟨honly, honly.sameFrame hc' hclass₂ rfl, honly.heads hc' hclass₂ rfl rfl, _, hclass₂,
        ⟨hopen.opened.entries, hopen.opened.nodup, hopen.opened.decls, hopen.opened.indexed⟩, hopen.tparams,
        rfl, rfl, ?_, ?_⟩
      · refine { hfields with fresh := fun e he p hp => ?_ }
        have hfirst := hopen.inClass.congr_parent honly₁ hp
        rw [Table.lookupField_congr (hagree p hp).1 (hagree p hp).2,
          Table.lookupField_congr hfirst.1 hfirst.2]
        exact hfields.fresh e he p hp
      · refine { hmethods with overrides := fun x hx p inherited hp hl => ?_ }
        rw [Table.lookupMethod_congr (hagree p hp).1 (hagree p hp).2] at hl
        exact hmethods.overrides x hx p inherited hp hl

/-- What holds between the members of two classes when `ids` are left to collect:
they have no members yet, and none of them is an ancestor of one before it. -/
structure Pending (ar : String → Option Nat) (t : Table) (decls : List Decl)
    (ms : List Members) (ids : List Nat) : Prop where
  linked : t.Linked
  unit : UnitOf t decls
  nodup : ids.Nodup
  ancestors : ids.Pairwise fun a b => b ∉ t.chain a
  open_ : ∀ id ∈ ids, ∃ c m, ms[id]? = some m ∧ ClassOpen ar t decls id c m

theorem allMembers_ensures (ar : String → Option Nat) (decls : List Decl)
    {ms : List Members} {ids : List Nat} :
    w.Ensures (allMembers t ms ids) (Pending ar t decls ms ids) fun r =>
      OnlyClasses ids t r.1 ∧ Table.SameFrame t r.1 ∧ r.1.heads = t.heads ∧
        r.2.length = ms.length ∧ (∀ j, j ∉ ids → r.2[j]? = ms[j]?) ∧
        ∀ id ∈ ids, ∃ c m, r.2[id]? = some m ∧ ClassOk ar r.1 id c m := by
  induction ids generalizing t ms with
  | nil => exact .pure fun _ => ⟨.refl _ _, .refl _, rfl, rfl, fun _ _ => rfl, by simp⟩
  | cons id rest ih =>
      unfold allMembers
      split
      next hnone =>
        refine ih.vacuous fun h => ?_
        obtain ⟨_, _, hm, _⟩ := h.open_ id (by simp)
        simp [hnone] at hm
      next m hm =>
        refine ((classMembers_ensures ar decls).imp (fun h => ?_) fun _ _ h => h).bind
          fun r => ?_
        · obtain ⟨c, m', hm', hopen⟩ := h.open_ id (by simp)
          obtain rfl : m = m' := by simpa [hm] using hm'
          exact ⟨c, hopen⟩
        refine ih.imp ?_ ?_
        · rintro ⟨h, honly, hframe, _⟩
          obtain ⟨hid, hnodup⟩ := List.nodup_cons.1 h.nodup
          refine ⟨hframe.linked h.linked, by rw [UnitOf, honly.eq]; exact h.unit, hnodup, ?_, ?_⟩
          · simpa [hframe.chain] using (List.pairwise_cons.1 h.ancestors).2
          · intro j hj
            obtain ⟨c, m', hm', hopen⟩ := h.open_ j (by simp [hj])
            have hne : j ≠ id := fun heq => hid (heq ▸ hj)
            refine ⟨c, m', by rw [List.getElem?_set_ne hne.symm, hm'], ?_⟩
            exact
              { hopen with
                unit := by rw [UnitOf, honly.eq]; exact h.unit
                arity := hframe.arity.trans hopen.arity
                class? := by rw [honly.class? j (by simpa using hne), hopen.class?]
                acyclic := fun p hp => by rw [hframe.chain]; exact hopen.acyclic p hp }
        · rintro ⟨h, honly, hframe, hheads, c, hok⟩ r'
            ⟨honly', hframe', hheads', hlen, hothers, hrest⟩
          obtain ⟨hid, hnodup⟩ := List.nodup_cons.1 h.nodup
          refine ⟨?_, hframe.trans hframe', hheads'.trans hheads, by simpa using hlen,
            fun j hj => ?_, ?_⟩
          · refine ⟨by rw [honly'.eq, honly.eq], fun j hj => ?_⟩
            simp only [List.mem_cons, not_or] at hj
            rw [honly'.class? j hj.2, honly.class? j (by simpa using hj.1)]
          · simp only [List.mem_cons, not_or] at hj
            rw [hothers j hj.2, List.getElem?_set_ne (Ne.symm hj.1)]
          · refine List.forall_mem_cons.2 ⟨⟨c, r.2, ?_, ?_⟩, hrest⟩
            · have hlt : id < ms.length := (List.getElem?_eq_some_iff.1 hm).1
              rw [hothers id hid, List.getElem?_set_self hlt]
            · refine hok.congr (honly'.class? id hid) fun p hp => ⟨hframe'.chain p, fun j hj => ?_⟩
              refine honly'.class? j fun hmem => ?_
              have hancestor := (List.pairwise_cons.1 h.ancestors).1 j hmem
              have hchain := (hframe.linked h.linked).chain_of_parent (i := id) (p := p)
                (by simp [hok.class?, hp])
              rw [← hframe.chain, hchain] at hancestor
              exact hancestor (List.mem_cons_of_mem _ hj)

/-! Whole units -/

/-- The functions of a unit whose headers have been checked. -/
structure FuncsOk (ar : String → Option Nat) (ds : List FuncDecl) (list : List Prepared) : Prop where
  decls : list.map (·.decl) = ds
  prepared : ∀ p ∈ list, p.ref = .func p.decl.name.text ∧ p.sym = .func p.decl.name p.decl.host ∧
    (p.decl.host = true → p.decl.tparams = []) ∧ HeaderOk ar [] none p.decl p.header p.scope

theorem signatures_ensures (decls : List Decl) {ds : List FuncDecl} :
    w.Ensures (signatures t ds) (UnitOf t decls) fun list => FuncsOk t.arity ds list := by
  induction ds with
  | nil => exact .pure fun _ => ⟨rfl, by simp⟩
  | cons d rest ih =>
      unfold signatures
      refine .report_if (((header_ensures (Δ := [])).imp ?_ fun _ _ h => h).bind fun r => ?_)
      · rintro ⟨hunit, _⟩
        exact ⟨hunit.typesIn rfl, hunit.basicIn rfl, by simp⟩
      refine (ih.imp (fun h => h.1.1) fun _ _ h => h).bind fun list => .pure ?_
      rintro ⟨⟨⟨_, hhost⟩, hheader⟩, hok⟩
      refine ⟨by simp [hok.decls], List.forall_mem_cons.2 ⟨⟨rfl, rfl, ?_, hheader⟩, hok.prepared⟩⟩
      simpa using hhost

theorem settle_ensures {duties : List Duty} :
    w.Ensures (settle t duties) P fun _ => ∀ d ∈ duties, t.Meets d := by
  induction duties generalizing P with
  | nil => exact .pure fun _ => by simp
  | cons d rest ih =>
      unfold settle
      refine (Watch.Ensures.discard (Q := fun _ => t.Meets d)
        (satisfies_ensures.imp (fun h => h) fun _ _ h => h.2)).bind fun _ => ?_
      exact ih.imp (fun h => h) fun h _ hrest => List.forall_mem_cons.2 ⟨h.2, hrest⟩

/-- A unit whose members and signatures have been collected. -/
structure CollectedOk (f : File) (c : Collected) : Prop where
  linkedTo : LinkedTo c.table f.decls
  isSealed : c.table.isSealed = true
  bounds : BoundsClosed c.table
  bound_decls : c.table.bounds.map (·.decl) = f.decls.filterMap Decl.bound?
  bound_methods : List.Forall₂ (BoundOk c.table.arity) (f.decls.filterMap Decl.bound?) c.bounds
  members : ∃ ms, c.classes = (c.table.classes.map (·.name)).zip ms ∧
    ms.length = c.table.classes.length ∧
      ∀ id < c.table.classes.length, ∃ info m, ms[id]? = some m ∧
        ClassOk c.table.arity c.table id info m
  funcs : FuncsOk c.table.arity f.funcs c.funcs

/-- All classes have their type parameters, and no members. -/
structure ParamsOk (t : Table) (decls : List Decl) (ms : List Members) : Prop where
  linkedTo : LinkedTo t decls
  length : ms.length = t.classes.length
  open_ : ∀ id < t.classes.length, ∃ c m, ms[id]? = some m ∧
    ClassOpen t.arity t decls id c m

theorem Members.Opened.frame_classOf {m : Members} {c : ClassInfo} (h : m.Opened c.decl)
    (hc : c.tparams = Table.freshParams c.name c.decl.tparams) :
    (m.classOf c).frame = c.frame := by
  have hlen : m.tparams.length = c.tparams.length := by
    have hdecls := congrArg List.length h.decls
    rw [hc]
    simpa [Table.freshParams] using hdecls
  simp [Members.classOf, ClassInfo.frame, hlen]

theorem paramsOk_of_allClassParams {ms : List Members} (hlink : LinkedTo t decls)
    (hbare : Bare t decls) (honly : OnlyClasses (t.classes.map (·.id)) t u)
    (hlen : ms.length = t.classes.length)
    (hzip : ∀ e ∈ t.classes.zip ms, u.class? e.1.id = some (e.2.classOf e.1) ∧
      e.2.Opened e.1.decl ∧ e.2.fields = [] ∧ e.2.methods = []) : ParamsOk u decls ms := by
  have hone : ∀ {i c}, t.class? i = some c → ∃ m, ms[i]? = some m ∧
      u.class? i = some (m.classOf c) ∧ m.Opened c.decl := by
    intro i c hc
    have hi : i < ms.length := by rw [hlen]; exact Table.class?_eq_some_lt hc
    have hmem : (c, ms[i]) ∈ t.classes.zip ms := by
      refine List.mem_iff_getElem?.2 ⟨i, ?_⟩
      simp only [Table.class?] at hc
      simp [List.getElem?_zip_eq_some, hc, hi]
    obtain ⟨hclass, hopened, _⟩ := hzip _ hmem
    simp only [hlink.linked.id_eq hc] at hclass
    exact ⟨ms[i], by simp [hi], hclass, hopened⟩
  have hframe : Table.SameFrame t u := by
    refine ⟨List.ext_getElem? fun i => ?_, by rw [honly.eq], by rw [honly.eq]⟩
    simp only [List.getElem?_map]
    cases hc : t.class? i with
    | none =>
        have hnot : i ∉ t.classes.map (·.id) := by
          rw [hlink.linked.ids, List.mem_range]
          exact fun hlt => by simp [Table.class?, hlt] at hc
        have := honly.class? i hnot
        simp only [Table.class?] at this hc
        rw [this, hc]
    | some c =>
        obtain ⟨m, _, hclass, hopened⟩ := hone hc
        have := hopened.frame_classOf (hbare.classes hc).2.2
        simp only [Table.class?] at hc hclass
        simp [hc, hclass, this]
  have hunit : u.unit = t.unit := by rw [honly.eq]
  refine ⟨hlink.sameFrame hframe hunit, by rw [hlen, hframe.length], fun id hid => ?_⟩
  obtain ⟨c, hc⟩ := Table.class?_isSome (t := t) (i := id) (by rwa [← hframe.length])
  obtain ⟨m, hm, hclass, hopened⟩ := hone hc
  have hown : u.arity (m.classOf c).name = some (m.classOf c).tparams.length := by
    have hmem : m.classOf c ∈ u.classes := List.mem_of_getElem? hclass
    simp [Table.arity, (hframe.linked hlink.linked).classNamed?_name hmem]
  refine ⟨m.classOf c, m, hm, ?_, rfl, hown, hclass, fun p hp hmem => ?_,
    ⟨hopened.entries, hopened.nodup, hopened.decls, hopened.indexed⟩, rfl, (hbare.classes hc).1,
    (hbare.classes hc).2.1⟩
  · rw [UnitOf, hunit]
    exact hlink.entries
  · have hlinked := hframe.linked hlink.linked
    have hchain := hlinked.chain_of_parent (i := id) (p := p) (by rw [hclass]; exact hp)
    have hnodup := (hlinked.ancestry hid).nodup
    rw [hchain] at hnodup
    exact (List.nodup_cons.1 hnodup).1 hmem

theorem ParamsOk.onlyBounds {ms : List Members} (h : ParamsOk t decls ms)
    (honly : OnlyBounds t u) : ParamsOk u decls ms := by
  have hclasses : u.classes = t.classes := by rw [honly.eq]
  have hframe : Table.SameFrame t u := ⟨by rw [hclasses], by rw [honly.eq], by rw [honly.eq]⟩
  refine ⟨h.linkedTo.sameFrame hframe (by rw [honly.eq]), by rw [hclasses, h.length],
    fun id hid => ?_⟩
  obtain ⟨c, m, hm, hopen⟩ := h.open_ id (by rwa [← hclasses])
  exact ⟨c, m, hm,
    { hopen with
      unit := honly.unitOf hopen.unit
      arity := rfl
      own_arity := by rw [hframe.arity]; exact hopen.own_arity
      class? := by rw [Table.class?, hclasses]; exact hopen.class?
      acyclic := fun p hp => by rw [hframe.chain]; exact hopen.acyclic p hp }⟩

theorem ParamsOk.pending {ms : List Members} (h : ParamsOk t decls ms) :
    Pending t.arity t decls ms t.order where
  linked := h.linkedTo.linked
  unit := h.linkedTo.entries
  nodup := h.linkedTo.linked.order_perm.nodup_iff.2 List.nodup_range
  ancestors := h.linkedTo.linked.order_ancestors
  open_ id hid := h.open_ id
    (List.mem_range.1 (h.linkedTo.linked.order_perm.mem_iff.1 hid))

theorem collect_ensures {f : File} :
    w.Ensures (collect f t) (LinkedTo t f.decls ∧ Bare t f.decls) fun r =>
      ∃ c, r = some c ∧ CollectedOk f c := by
  unfold collect
  refine (allClassParams_ensures.imp ?_ fun _ _ h => h).bind fun r₁ => ?_
  · rintro ⟨hlink, hbare⟩
    refine ⟨by rw [hlink.linked.ids]; exact List.nodup_range, fun c hc => ?_⟩
    have hclass := hlink.linked.class?_id hc
    exact ⟨hclass, (hbare.classes hclass).2.2⟩
  refine Watch.Ensures.imp (P := ParamsOk r₁.1 f.decls r₁.2 ∧ BoundsClosed r₁.1 ∧
    r₁.1.bounds.map (·.decl) = f.decls.filterMap Decl.bound?) ?_ ?_ fun _ _ h => h
  swap
  · rintro ⟨⟨hlink, hbare⟩, honly, hlen, hzip⟩
    have hbounds : r₁.1.bounds = t.bounds := by rw [honly.eq]
    refine ⟨paramsOk_of_allClassParams hlink hbare honly hlen hzip, ?_, ?_⟩
    · intro b hb m hm
      rw [hbounds, hbare.bounds] at hb
      obtain ⟨d, _, rfl⟩ := List.mem_map.1 hb
      simp at hm
    · simp [hbounds, hbare.bounds, Function.comp_def]
  refine ((allBounds_ensures f.decls).imp ?_ fun _ _ h => h).bind fun r₂ => ?_
  · rintro ⟨hparams, hclosed, _⟩
    exact ⟨hparams.linkedTo.entries, hclosed⟩
  refine ((allMembers_ensures r₂.1.arity f.decls).imp ?_ fun _ _ h => h).bind fun r₃ => ?_
  · rintro ⟨⟨hparams, _⟩, honly, _⟩
    exact (hparams.onlyBounds honly).pending
  refine ((signatures_ensures f.decls).imp ?_ fun _ _ h => h).bind fun funcs => ?_
  · rintro ⟨⟨⟨hparams, _⟩, honly, _⟩, honly', _⟩
    rw [UnitOf, honly'.eq]
    exact (hparams.onlyBounds honly).linkedTo.entries
  refine Watch.Ensures.get.bind fun s => settle_ensures.bind fun _ => Watch.Ensures.failed.bind fun b => ?_
  split
  next hb => exact .pure fun h => by simp [hb] at h
  next =>
    refine .pure fun h => ⟨_, rfl, ?_⟩
    obtain ⟨⟨⟨⟨⟨⟨⟨hparams, _, hdecls⟩, honly, hclosed, hmethods⟩, honly', hframe, _, hlen, _, hmembers⟩,
      hfuncs⟩, _⟩, _⟩, _⟩ := h
    have hbounds : r₃.1.bounds = r₂.1.bounds := by rw [honly'.eq]
    have hparams' := hparams.onlyBounds honly
    refine ⟨?_, rfl, ?_, ?_, ?_, ⟨r₃.2, rfl, ?_, fun id hid => ?_⟩, hfuncs⟩
    · exact (hparams'.linkedTo.sameFrame hframe (by rw [honly'.eq])).sameFrame
        ⟨rfl, rfl, rfl⟩ rfl
    · intro b hb m hm
      have hscoped := hclosed b (by rw [← hbounds]; exact hb) m hm
      rw [← hframe.arity] at hscoped
      exact hscoped
    · show r₃.1.bounds.map (·.decl) = _
      rw [hbounds, honly.decls, hdecls]
    · rw [hdecls, ← honly.arity, ← hframe.arity] at hmethods
      exact hmethods
    · show r₃.2.length = r₃.1.classes.length
      rw [hlen, hparams'.length, hframe.length]
    · have hid' : id < r₂.1.classes.length := by rw [← hframe.length]; exact hid
      obtain ⟨info, m, hm, hok⟩ := hmembers id
        (hparams'.linkedTo.linked.order_perm.mem_iff.2 (List.mem_range.2 hid'))
      rw [← hframe.arity] at hok
      exact ⟨info, m, hm, hok.congr rfl fun _ _ => ⟨rfl, fun _ _ => rfl⟩⟩

end Check

end ClassLang
