import ClassLang.Check.Types
import ClassLang.Check.Unit
import ClassLang.Proofs.Check.Session
import ClassLang.Proofs.Table.Link
import ClassLang.Proofs.Type

/-!
What the checker promises about types and headers. A type that is accepted has
only type parameters of the scopes around it, and a header that is accepted
declares each of its names once and has a signature made of such types.
-/

namespace ClassLang

namespace Table

/-- A type argument is a class, and has the methods of the bound of its
parameter. -/
def Admits (t : Table) (p : TypeParam) (arg : Ty) : Prop :=
  arg.isReference = true ∧
    ∀ b, p.bound.bind t.boundNamed? = some b → t.missingMethod? arg b = none

/-- A type argument satisfies the bound that it was put off for. -/
def Meets (t : Table) (d : Check.Duty) : Prop :=
  ∀ b, t.boundNamed? d.bound = some b → t.missingMethod? d.ty b = none

end Table

namespace Check

variable {w : Watch} {P : Prop} {env : Env} {ar : String → Option Nat} {Δ : List TypeParam}

namespace Env

/-- Every type parameter that a name stands for is one of `Δ`. -/
def TypesIn (env : Env) (Δ : List TypeParam) : Prop :=
  ∀ name p pos, env.lookup name = some (.typeParam p pos) → p ∈ Δ

/-- The basic types that names stand for are types of values, or `void`. -/
def BasicIn (env : Env) : Prop :=
  ∀ name t, env.lookup name = some (.basic t) → ∀ ar, t.Scoped ar []

end Env

/-! Bounds -/

theorem satisfies_ensures {table : Table} {pos : Pos} {ty : Ty} {bound : String} :
    w.Ensures (satisfies table pos ty bound) P fun ok => ok = true ∧
      table.Meets ⟨pos, ty, bound⟩ := by
  unfold satisfies
  split
  next hnone => exact .pure fun _ => ⟨rfl, by simp [Table.Meets, hnone]⟩
  next b hb =>
    split
    next hmissing =>
      refine .pure fun _ => ⟨rfl, fun b' hb' => ?_⟩
      rw [hb] at hb'
      cases hb'
      exact hmissing
    next m _ =>
      split
      next => exact .report_bind (.pure False.elim)
      next => exact .report_bind (.pure False.elim)

/-- What a type argument that passes promises. While members are collected, its bound
is one of those that were put off. -/
def Accepts (w : Watch) (env : Env) (p : TypeParam) (arg : Ty) : Prop :=
  arg.isReference = true ∧ ∀ b, p.bound = some b → ∃ pos,
    if env.collecting then w.duty ⟨pos, arg, b⟩ else env.table.Meets ⟨pos, arg, b⟩

/-- Outside of collecting, an argument that passes is admitted. -/
theorem Accepts.admits {p : TypeParam} {arg : Ty} (h : Accepts w env p arg)
    (hcollect : env.collecting = false) : env.table.Admits p arg := by
  refine ⟨h.1, fun info hinfo => ?_⟩
  obtain ⟨b, hb, hinfo⟩ := Option.bind_eq_some_iff.1 hinfo
  obtain ⟨_, hmeets⟩ := h.2 b hb
  rw [hcollect] at hmeets
  exact hmeets info hinfo

theorem typeArg_ensures {pos : Pos} {p : TypeParam} {arg : Ty} :
    w.Ensures (typeArg env pos p arg) P fun ok => ok = true ∧ Accepts w env p arg := by
  unfold typeArg
  split
  next => exact .report_bind (.pure False.elim)
  next href =>
    have href : arg.isReference = true := by simpa using href
    split
    next hbound => exact .pure fun _ => ⟨rfl, href, by simp [hbound]⟩
    next b hb =>
      split
      next hcollect =>
        intro s
        refine ⟨.refl _, fun ⟨hclean, hduties⟩ => ?_⟩
        have hall : ∀ d ∈ s.duties ++ [⟨pos, arg, b⟩], w.duty d := hduties
        refine ⟨⟨hclean, fun d hd => hall d (by simp [hd])⟩, fun hvalid _ =>
          ⟨hvalid, rfl, href, fun b' hb' => ⟨pos, ?_⟩⟩⟩
        obtain rfl : b = b' := Option.some.inj (hb.symm.trans hb')
        rw [if_pos hcollect]
        exact hall _ (by simp)
      next hcollect =>
        refine (satisfies_ensures (P := P)).imp id fun _ ok hok => ?_
        refine ⟨hok.1, href, fun b' hb' => ⟨pos, ?_⟩⟩
        obtain rfl : b = b' := Option.some.inj (hb.symm.trans hb')
        rw [if_neg hcollect]
        exact hok.2

theorem typeArgs_ensures {pos : Pos} {list : List (TypeParam × Ty)} :
    w.Ensures (typeArgs env pos list) P fun ok => ok = true ∧
      ∀ e ∈ list, Accepts w env e.1 e.2 := by
  induction list generalizing P with
  | nil => exact .pure fun _ => ⟨rfl, by simp⟩
  | cons e rest ih =>
      obtain ⟨p, arg⟩ := e
      unfold typeArgs
      refine typeArg_ensures.bind fun ok => ih.bind fun others => .pure fun h => ?_
      obtain ⟨⟨_, hok, haccepts⟩, hothers, hrest⟩ := h
      exact ⟨by simp [hok, hothers], List.forall_mem_cons.2 ⟨haccepts, hrest⟩⟩

/-! Types -/

mutual

theorem type_ensures : (t : TypeExpr) →
    w.Ensures (type env t) (env.TypesIn Δ ∧ env.BasicIn) fun r =>
      ∃ term, r = some term ∧ term.ty.Scoped env.table.arity Δ
  | .name id => by
    unfold type
    split
    next => exact .fail
    next t ht =>
      exact .pure fun h => ⟨_, rfl, (h.2 _ _ ht _).mono (by simp)⟩
    next p pos hp => exact .pure fun h => ⟨_, rfl, by simpa [Typed.TypeTerm.ty, Ty.Scoped] using h.1 _ _ _ hp⟩
    next c hc =>
      split
      next info hinfo =>
        split
        next => exact .fail
        next hplain =>
          refine .pure fun _ => ⟨_, rfl, ?_⟩
          have hnil : info.tparams = [] := by simpa [ClassInfo.isGeneric] using hplain
          simp [Typed.TypeTerm.ty, Ty.Scoped, Table.arity, hinfo, hnil]
      next => exact .fail
    next => exact .fail
    next => exact .fail
  | .apply base args => by
    unfold type
    split
    next c hc =>
      split
      next info hinfo =>
        split
        next hgeneric =>
          refine (types_ensures args).bind fun r => ?_
          split
          next => exact .pure fun h => by simp at h
          next terms =>
            dsimp only
            split
            next => exact .fail
            next hlen =>
              refine typeArgs_ensures.bind fun ok => ?_
              split
              next =>
                refine .pure fun h => ⟨_, rfl, ?_⟩
                obtain ⟨⟨_, terms', heq, hscoped⟩, _⟩ := h
                cases heq
                have hlen : terms.length = info.tparams.length := by simpa using hlen
                have hpos : info.tparams ≠ [] := by simpa [ClassInfo.isGeneric] using hgeneric
                have hpos' : 0 < info.tparams.length := List.length_pos_iff.2 hpos
                simpa [Typed.TypeTerm.ty, Ty.Scoped, Ty.scopedAll_iff, Table.arity, hinfo, hlen,
                  hpos'] using hscoped
              next hok => exact .pure fun h => absurd h.2.1 (by simpa using hok)
        next => exact .fail
      next => exact .fail
    next => exact .fail
    next => exact .fail
    next => exact .fail

theorem types_ensures : (ts : List TypeExpr) →
    w.Ensures (types env ts) (env.TypesIn Δ ∧ env.BasicIn) fun r =>
      ∃ terms, r = some terms ∧ ∀ term ∈ terms, term.ty.Scoped env.table.arity Δ
  | [] => by
    unfold types
    exact .pure fun _ => ⟨[], rfl, by simp⟩
  | t :: rest => by
    unfold types
    refine (type_ensures t).bind fun r => ?_
    split
    next => exact .pure fun h => by simp at h
    next term =>
      refine ((types_ensures rest).imp And.left fun _ _ => id).bind fun r' => ?_
      split
      next => exact .pure fun h => by simp at h
      next terms =>
        refine .pure fun h => ⟨_, rfl, ?_⟩
        obtain ⟨⟨_, term', heq, hterm⟩, terms', heq', hterms⟩ := h
        cases heq
        cases heq'
        simpa using ⟨hterm, hterms⟩

end

theorem varType_ensures {t : TypeExpr} :
    w.Ensures (varType env t) (env.TypesIn Δ ∧ env.BasicIn) fun r =>
      ∃ term, r = some term ∧ term.ty.Scoped env.table.arity Δ ∧ term.ty.isVoid = false := by
  unfold varType
  refine (type_ensures t).bind fun r => ?_
  split
  next => exact .pure fun h => by simp at h
  next term =>
    split
    next => exact .fail
    next hvoid =>
      refine .pure fun h => ⟨_, rfl, ?_, by simpa using hvoid⟩
      obtain ⟨_, term', heq, hterm⟩ := h
      cases heq
      exact hterm

/-! Declarations in a scope -/

/-- A variable as an entry of a scope. -/
def varEntry (v : Var) : String × Symbol := (v.name, .var v)

/-- A type parameter as an entry of a scope. -/
def paramEntry (t : Typed.TypeParamTerm) : String × Symbol :=
  (t.decl.name.text, .typeParam t.param t.decl.name.pos)

/-- An entry that a function declares: one of the type parameters `Δ`, or a
variable whose type is made of them. -/
def LocalEntry (ar : String → Option Nat) (Δ : List TypeParam) (e : String × Symbol) : Prop :=
  (∃ p pos, e.2 = .typeParam p pos ∧ p ∈ Δ) ∨
    ∃ v, e = varEntry v ∧ v.ty.Scoped ar Δ ∧ v.ty.isVoid = false

theorem mem_of_lookup {α β : Type} [BEq α] [LawfulBEq α] {l : List (α × β)} {a : α} {b : β}
    (h : l.lookup a = some b) : (a, b) ∈ l := by
  obtain ⟨l₁, l₂, heq, _⟩ := List.lookup_eq_some_iff.1 h
  simp [heq]

theorem find?_mem {s : Scope Symbol} {name : String} {sym : Symbol}
    (h : s.find? name = some sym) : (name, sym) ∈ s.entries := mem_of_lookup h

theorem find?_eq_none_iff {s : Scope Symbol} {name : String} :
    s.find? name = none ↔ name ∉ s.names := by
  unfold Scope.find? Scope.names
  rw [List.lookup_eq_none_iff]
  constructor
  · intro h hmem
    obtain ⟨e, he, rfl⟩ := List.mem_map.1 hmem
    simpa using h e he
  · intro h e he
    have : e.1 ≠ name := fun heq => h (heq ▸ List.mem_map_of_mem he)
    simpa using this.symm

theorem nodup_push {s : Scope Symbol} {name : String} {sym : Symbol} (h : s.names.Nodup)
    (hnew : name ∉ s.names) : (s.push name sym).names.Nodup := by
  have hnames : (s.push name sym).names = s.names ++ [name] := by simp [Scope.names, Scope.push]
  rw [hnames]
  exact List.nodup_append.2 ⟨h, by simp, by
    rintro a ha b hb rfl
    exact hnew (List.mem_singleton.1 hb ▸ ha)⟩

theorem lookup_enter {s : Scope Symbol} {name : String} :
    (env.enter s).lookup name = (s.find? name).or (env.lookup name) := by
  simp only [Env.lookup, Env.enter, Scope.lookup, List.findSome?_cons]
  cases s.find? name <;> rfl

theorem typesIn_enter {s : Scope Symbol} (henv : env.TypesIn Δ)
    (hs : ∀ e ∈ s.entries, LocalEntry ar Δ e) : (env.enter s).TypesIn Δ := by
  intro name p pos h
  rw [lookup_enter] at h
  cases hfind : s.find? name with
  | none => exact henv name p pos (by simpa [hfind] using h)
  | some sym =>
      have hsym : sym = .typeParam p pos := by simpa [hfind] using h
      obtain ⟨q, pos', heq, hq⟩ | ⟨v, heq, _⟩ := hs _ (find?_mem hfind)
      · rw [hsym] at heq
        cases heq
        exact hq
      · rw [hsym] at heq
        cases heq

theorem basicIn_enter {s : Scope Symbol} (henv : env.BasicIn)
    (hs : ∀ e ∈ s.entries, LocalEntry ar Δ e) : (env.enter s).BasicIn := by
  intro name t h
  rw [lookup_enter] at h
  cases hfind : s.find? name with
  | none => exact henv name t (by simpa [hfind] using h)
  | some sym =>
      have hsym : sym = .basic t := by simpa [hfind] using h
      obtain ⟨q, pos', heq, _⟩ | ⟨v, heq, _⟩ := hs _ (find?_mem hfind)
      · rw [hsym] at heq
        cases heq
      · rw [hsym] at heq
        cases heq

theorem declare_ensures {s : Scope Symbol} {id : Ident} {sym : Symbol} :
    w.Ensures (declare s id sym) P fun s' => s' = s.push id.text sym ∧ id.text ∉ s.names := by
  unfold declare Scope.insert
  cases hfind : s.find? id.text with
  | none => exact .pure fun _ => ⟨rfl, find?_eq_none_iff.1 hfind⟩
  | some old => exact .report_bind (.pure False.elim)

theorem boundOf_ensures {table : Table} {bound : Option Ident} :
    w.Ensures (boundOf table bound) P fun _ => True := by
  unfold boundOf
  split
  next => exact .pure fun _ => trivial
  next id =>
    split
    next => exact .pure fun _ => trivial
    next => exact .fail
    next => exact .fail

/-- The type parameters of one declaration are numbered in their order. -/
def Indexed (ps : List TypeParam) : Prop :=
  ∀ (i : Nat) (p : TypeParam), ps[i]? = some p → p.index = i

theorem indexed_of_fresh {owner : String} {ds : List TypeParamDecl} {ps : List TypeParam}
    (h : ps.map (·.index) =
      (ds.zip (Table.freshParams owner ds)).map fun e => e.2.index) : Indexed ps := by
  intro i p hp
  have hindex := congrArg (·[i]?) h
  simp only [List.getElem?_map, hp, Option.map_some] at hindex
  obtain ⟨e, he, heq⟩ := Option.map_eq_some_iff.1 hindex.symm
  obtain ⟨_, hfresh⟩ := List.getElem?_zip_eq_some.1 he
  rw [Table.freshParams, List.getElem?_mapIdx] at hfresh
  obtain ⟨d, _, hd⟩ := Option.map_eq_some_iff.1 hfresh
  rw [← heq, ← hd]

theorem typeParams_ensures {table : Table} {s : Scope Symbol}
    {list : List (TypeParamDecl × TypeParam)} :
    w.Ensures (typeParams table s list) (s.names.Nodup) fun r =>
      r.1.entries = s.entries ++ r.2.map paramEntry ∧ r.1.names.Nodup ∧
        r.2.map (·.decl) = list.map (·.1) ∧
        (r.2.map (·.param)).map (·.index) = list.map fun e => e.2.index := by
  induction list generalizing s with
  | nil => exact .pure fun h => ⟨by simp, h, rfl, rfl⟩
  | cons e rest ih =>
      obtain ⟨d, p⟩ := e
      unfold typeParams redeclared
      dsimp only
      refine .report_if (boundOf_ensures.bind fun b => ?_)
      refine (ih.imp ?_ fun _ _ h => h).bind fun r => .pure ?_
      · rintro ⟨⟨hnodup, hfree⟩, _⟩
        have hnew : d.name.text ∉ s.names := find?_eq_none_iff.1 (by simpa using hfree)
        rw [find?_eq_none_iff.2 hnew]
        exact nodup_push hnodup hnew
      · rintro ⟨⟨⟨_, hfree⟩, _⟩, hentries, hnodup, hdecls, hindices⟩
        rw [if_neg hfree] at hentries
        refine ⟨by simpa [Scope.push, paramEntry] using hentries, hnodup, by simp [hdecls], ?_⟩
        rw [List.map_cons, List.map_cons, hindices]
        rfl

theorem params_ensures {s : Scope Symbol} {ds : List FieldDecl} :
    w.Ensures (params env s ds)
      (env.TypesIn Δ ∧ env.BasicIn ∧ (∀ e ∈ s.entries, LocalEntry env.table.arity Δ e) ∧ s.names.Nodup) fun r =>
      r.1.entries = s.entries ++ r.2.map (fun e => varEntry e.1) ∧ r.1.names.Nodup ∧
        (∀ e ∈ r.2, ∃ term, e.2 = some term ∧ e.1.ty.Scoped env.table.arity Δ ∧ e.1.ty.isVoid = false) ∧
        r.2.map (fun e => (e.1.name, e.1.pos, e.1.kind)) =
          ds.map fun d => (d.name.text, d.name.pos, VarKind.param) := by
  induction ds generalizing s with
  | nil => exact .pure fun h => ⟨by simp, h.2.2.2, by simp, rfl⟩
  | cons d rest ih =>
      unfold params
      have htype : w.Ensures (varType (env.enter s) d.type)
          (env.TypesIn Δ ∧ env.BasicIn ∧ (∀ e ∈ s.entries, LocalEntry env.table.arity Δ e) ∧ s.names.Nodup) _ :=
        varType_ensures.imp (fun h => ⟨typesIn_enter h.1 h.2.2.1, basicIn_enter h.2.1 h.2.2.1⟩)
          fun _ _ h => h
      refine htype.bind fun term => declare_ensures.bind fun s' => ?_
      refine (ih.imp ?_ fun _ _ h => h).bind fun r => .pure ?_
      · rintro ⟨⟨⟨htypes, hbasic, hlocal, hnodup⟩, term', rfl, hscoped, hvoid⟩, rfl, hnew⟩
        refine ⟨htypes, hbasic, ?_, ?_⟩
        · simp only [Scope.push, List.mem_append, List.mem_singleton]
          rintro e (he | rfl)
          · exact hlocal e he
          · exact .inr ⟨⟨d.name.text, d.name.pos, .param, term'.ty⟩, rfl, hscoped, hvoid⟩
        · exact nodup_push hnodup hnew
      · rintro ⟨⟨⟨_, term', rfl, hscoped, hvoid⟩, rfl, _⟩, hentries, hnodup, hlist, hplaces⟩
        refine ⟨by simpa [Scope.push, varEntry] using hentries, hnodup, ?_, by simp [hplaces]⟩
        exact List.forall_mem_cons.2 ⟨⟨term', rfl, hscoped, hvoid⟩, hlist⟩

/-! Headers -/

/-- The receiver that a declaration names, if it stands in a class. -/
def receiverOf (own : Option Ty) (name : Option Ident) : Option Var :=
  match own, name with
  | some ty, some id => some ⟨id.text, id.pos, .recv, ty⟩
  | _, _ => none

/-- What is known of the header of `d` where the type parameters `Δ` are known. The
receiver has the type `own`, and `s` is the scope of the parameters. -/
structure HeaderOk (ar : String → Option Nat) (Δ : List TypeParam) (own : Option Ty) (d : FuncDecl)
    (h : Typed.Header) (s : Scope Symbol) : Prop where
  tparams : h.sig.tparams = h.tparams.map (·.param)
  tparam_decls : h.tparams.map (·.decl) = d.tparams
  indexed : Indexed h.sig.tparams
  recv : h.recv = receiverOf own d.recv
  params : h.sig.params = h.params.map fun e => ⟨e.1.name, e.1.pos, e.1.ty⟩
  places : h.params.map (fun e => (e.1.name, e.1.pos, e.1.kind)) =
    d.params.map fun p => (p.name.text, p.name.pos, VarKind.param)
  param_types : ∀ e ∈ h.params, e.1.ty.Scoped ar (h.sig.tparams ++ Δ) ∧ e.1.ty.isVoid = false
  result : h.sig.result.Scoped ar (h.sig.tparams ++ Δ)
  entries : s.entries = h.tparams.map paramEntry ++ h.recv.toList.map varEntry ++
    h.params.map fun e => varEntry e.1
  nodup : s.names.Nodup

theorem selfType_scoped {c : ClassInfo} (h : ar c.name = some c.tparams.length) :
    (selfType c).Scoped ar c.tparams := by
  unfold selfType
  split
  next hgeneric =>
    have hne : c.tparams ≠ [] := by simpa [ClassInfo.isGeneric] using hgeneric
    simp [Ty.Scoped, Ty.scopedAll_iff, h, List.length_pos_iff.2 hne]
  next hplain =>
    have hnil : c.tparams = [] := by simpa [ClassInfo.isGeneric] using hplain
    simp [Ty.Scoped, h, hnil]

theorem receiver_ensures {s : Scope Symbol} {cls : Option ClassInfo} {name : Option Ident} :
    w.Ensures (receiver s cls name) (s.names.Nodup) fun r =>
      r.2 = receiverOf (cls.map selfType) name ∧ r.1.entries = s.entries ++ r.2.toList.map varEntry ∧
        r.1.names.Nodup := by
  unfold receiver
  split
  next c id =>
    refine declare_ensures.bind fun s' => .pure ?_
    rintro ⟨hnodup, rfl, hnew⟩
    exact ⟨rfl, rfl, nodup_push hnodup hnew⟩
  next hnone =>
    refine .pure fun hnodup => ⟨?_, by simp, hnodup⟩
    cases cls with
    | none => rfl
    | some c =>
        cases name with
        | none => rfl
        | some id => exact absurd rfl (hnone c id rfl)

theorem typesIn_mono {Δ' : List TypeParam} (h : env.TypesIn Δ) (hsub : ∀ p ∈ Δ, p ∈ Δ') :
    env.TypesIn Δ' := fun name p pos hlookup => hsub p (h name p pos hlookup)

theorem selfType_isVoid (c : ClassInfo) : (selfType c).isVoid = false := by
  unfold selfType
  split <;> rfl

/-- The entries of a header before its parameters are declared. -/
theorem localEntry_header {own : Option Ty} {name : Option Ident}
    {tparams : List Typed.TypeParamTerm} (hself : ∀ t ∈ own, t.Scoped ar Δ ∧ t.isVoid = false)
    {e : String × Symbol}
    (he : e ∈ tparams.map paramEntry ++ (receiverOf own name).toList.map varEntry) :
    LocalEntry ar (tparams.map (·.param) ++ Δ) e := by
  rcases List.mem_append.1 he with he | he
  · obtain ⟨t, ht, rfl⟩ := List.mem_map.1 he
    exact .inl ⟨t.param, _, rfl, by simp [List.mem_map_of_mem ht]⟩
  · obtain ⟨v, hv, rfl⟩ := List.mem_map.1 he
    refine .inr ⟨v, rfl, ?_⟩
    cases own with
    | none => simp [receiverOf] at hv
    | some ty =>
        cases name with
        | none => simp [receiverOf] at hv
        | some id =>
            obtain rfl : v = ⟨id.text, id.pos, .recv, ty⟩ := by simpa [receiverOf] using hv
            obtain ⟨hscoped, hvoid⟩ := hself ty rfl
            exact ⟨hscoped.mono fun p hp => List.mem_append_right _ hp, hvoid⟩

/-- Parameters whose types were all found are kept in the header. -/
theorem map_known_params {β : Type} {list : List (Var × Option Typed.TypeTerm)}
    (h : ∀ e ∈ list, ∃ term, e.2 = some term) (g : Var → β) :
    (list.filterMap fun e => e.2.map (e.1, ·)).map (fun e => g e.1) =
      list.map fun e => g e.1 := by
  induction list with
  | nil => rfl
  | cons e rest ih =>
      obtain ⟨term, hterm⟩ := h e (by simp)
      have ih := ih fun e he => h e (by simp [he])
      simp [hterm, ih]

theorem map_decl_fresh (owner : String) (ds : List TypeParamDecl) :
    (ds.zip (Table.freshParams owner ds)).map (·.1) = ds := by
  rw [List.map_fst_zip]
  simp [Table.freshParams]

/-- What is known once the parameters of `d` have been declared in `s`. -/
structure Opened (ar : String → Option Nat) (Δ : List TypeParam) (own : Option Ty) (d : FuncDecl)
    (tparams : List Typed.TypeParamTerm) (recv : Option Var)
    (params : List (Var × Option Typed.TypeTerm)) (s : Scope Symbol) : Prop where
  decls : tparams.map (·.decl) = d.tparams
  indexed : Indexed (tparams.map (·.param))
  recv_eq : recv = receiverOf own d.recv
  places : params.map (fun e => (e.1.name, e.1.pos, e.1.kind)) =
    d.params.map fun p => (p.name.text, p.name.pos, VarKind.param)
  known : ∀ e ∈ params, ∃ term, e.2 = some term ∧
    e.1.ty.Scoped ar (tparams.map (·.param) ++ Δ) ∧ e.1.ty.isVoid = false
  entries : s.entries = tparams.map paramEntry ++ recv.toList.map varEntry ++
    params.map fun e => varEntry e.1
  nodup : s.names.Nodup

namespace Opened

variable {own : Option Ty} {d : FuncDecl} {tparams : List Typed.TypeParamTerm}
  {recv : Option Var} {params : List (Var × Option Typed.TypeTerm)} {s : Scope Symbol}

theorem localEntry (h : Opened ar Δ own d tparams recv params s)
    (hself : ∀ t ∈ own, t.Scoped ar Δ ∧ t.isVoid = false) :
    ∀ e ∈ s.entries, LocalEntry ar (tparams.map (·.param) ++ Δ) e := by
  intro e he
  rw [h.entries, h.recv_eq] at he
  rcases List.mem_append.1 he with he | he
  · exact localEntry_header hself he
  · obtain ⟨x, hx, rfl⟩ := List.mem_map.1 he
    obtain ⟨_, _, hok⟩ := h.known x hx
    exact .inr ⟨x.1, rfl, hok⟩

theorem headerOk (h : Opened ar Δ own d tparams recv params s) {ty : Ty}
    (hty : ty.Scoped ar (tparams.map (·.param) ++ Δ)) (result : Option Typed.TypeTerm) :
    HeaderOk ar Δ own d
      { tparams, recv, params := params.filterMap fun e => e.2.map (e.1, ·), result,
        sig := ⟨tparams.map (·.param), params.map fun e => ⟨e.1.name, e.1.pos, e.1.ty⟩, ty⟩ }
      s := by
  have hall : ∀ e ∈ params, ∃ term, e.2 = some term := fun e he =>
    let ⟨term, hterm, _⟩ := h.known e he
    ⟨term, hterm⟩
  refine ⟨rfl, h.decls, h.indexed, h.recv_eq,
    (map_known_params hall fun v => (⟨v.name, v.pos, v.ty⟩ : Param)).symm,
    (map_known_params hall fun v => (v.name, v.pos, v.kind)).trans h.places, ?_, hty, ?_, h.nodup⟩
  · intro e he
    obtain ⟨e', he', heq⟩ := List.mem_filterMap.1 he
    obtain ⟨term, hterm, hok⟩ := h.known e' he'
    obtain rfl : (e'.1, term) = e := by simpa [hterm] using heq
    exact hok
  · rw [h.entries, map_known_params hall varEntry]

end Opened

/-- The type of the receiver in the class `c` is known. -/
def SelfKnown (t : Table) (Δ : List TypeParam) (c : ClassInfo) : Prop :=
  (∀ p ∈ c.tparams, p ∈ Δ) ∧ t.arity c.name = some c.tparams.length

theorem header_ensures {d : FuncDecl} {cls : Option ClassInfo} :
    w.Ensures (header env d cls)
      (env.TypesIn Δ ∧ env.BasicIn ∧ ∀ c ∈ cls, SelfKnown env.table Δ c) fun r =>
      HeaderOk env.table.arity Δ (cls.map selfType) d r.1 r.2 := by
  have hself (h : ∀ c ∈ cls, SelfKnown env.table Δ c) :
      ∀ t ∈ cls.map selfType, t.Scoped env.table.arity Δ ∧ t.isVoid = false := by
    intro t ht
    obtain ⟨c, hc, rfl⟩ := Option.map_eq_some_iff.1 ht
    exact ⟨(selfType_scoped (h c hc).2).mono (h c hc).1, selfType_isVoid c⟩
  unfold header
  dsimp only
  refine (typeParams_ensures.imp (fun _ => by simp [Scope.names]) fun _ _ h => h).bind
    fun r₁ => ?_
  refine (receiver_ensures.imp (fun h => h.2.2.1) fun _ _ h => h).bind fun r₂ => ?_
  have hmono (h : env.TypesIn Δ) : env.TypesIn (r₁.2.map (·.param) ++ Δ) :=
    typesIn_mono h fun p hp => List.mem_append_right _ hp
  refine ((params_ensures (Δ := r₁.2.map (·.param) ++ Δ)).imp ?_ fun _ _ h => h).bind
    fun r₃ => ?_
  · rintro ⟨⟨h, hent₁, _, _⟩, hrecv, hent₂, hnodup⟩
    refine ⟨hmono h.1, h.2.1, fun e he => ?_, hnodup⟩
    rw [hent₂, hent₁, hrecv] at he
    exact localEntry_header (hself h.2.2) (by simpa using he)
  refine Watch.Ensures.imp (P := (env.TypesIn Δ ∧ env.BasicIn ∧ ∀ c ∈ cls, SelfKnown env.table Δ c) ∧
    Opened env.table.arity Δ (cls.map selfType) d r₁.2 r₂.2 r₃.2 r₃.1) ?_ ?_ fun _ _ h => h
  · split
    next t _ =>
      refine Watch.Ensures.bind (Q := fun r => ∃ term, r = some (some term) ∧
        term.ty.Scoped env.table.arity (r₁.2.map (·.param) ++ Δ)) (.map ((type_ensures (Δ := r₁.2.map (·.param) ++ Δ) t).imp ?_ ?_))
        fun result => .pure ?_
      · rintro ⟨⟨htypes, hbasic, hcls⟩, hopen⟩
        exact ⟨typesIn_enter (hmono htypes) (hopen.localEntry (hself hcls)),
          basicIn_enter hbasic (hopen.localEntry (hself hcls))⟩
      · rintro _ r ⟨term, rfl, hterm⟩
        exact ⟨term, rfl, hterm⟩
      · rintro ⟨⟨_, hopen⟩, term, rfl, hterm⟩
        exact hopen.headerOk hterm _
    next =>
      refine Watch.Ensures.bind (Q := fun r => r = none) (.pure fun _ => rfl) fun result => .pure ?_
      rintro ⟨⟨_, hopen⟩, rfl⟩
      exact hopen.headerOk (by simp [Ty.Scoped]) _
  · rintro ⟨⟨⟨h, hent₁, _, hdecls, hindices⟩, hrecv, hent₂, _⟩, hent₃, hnodup, hknown, hplaces⟩
    refine ⟨h, by rw [hdecls, map_decl_fresh], indexed_of_fresh hindices, hrecv, hplaces, hknown,
      ?_, hnodup⟩
    rw [hent₃, hent₂, hent₁]
    simp

end Check

end ClassLang

/-!
Registering and linking a unit without errors: the table knows every declaration
under its name, each name once, and its classes are linked.
-/

namespace ClassLang

namespace Decl

/-- What the name of a declaration stands for. -/
def symbol : Decl → Symbol
  | .cls d => .cls d.name
  | .bound d => .bound d.name
  | .func d => .func d.name d.host
  | .const d => .const d.name

/-- The class that a declaration introduces. -/
def cls? : Decl → Option ClassDecl
  | .cls d => some d
  | _ => none

/-- The bound that a declaration introduces. -/
def bound? : Decl → Option BoundDecl
  | .bound d => some d
  | _ => none

/-- The names of declarations of one kind are among the names of all. -/
theorem names_sublist {β : Type} {g : Decl → Option β} {nameOf : β → String}
    (hg : ∀ d x, g d = some x → nameOf x = d.name.text) (decls : List Decl) :
    ((decls.filterMap g).map nameOf).Sublist (decls.map (·.name.text)) := by
  induction decls with
  | nil => simp
  | cons d rest ih =>
      cases hd : g d with
      | none =>
          rw [List.filterMap_cons_none hd]
          exact ih.cons _
      | some x =>
          rw [List.filterMap_cons_some hd, List.map_cons, List.map_cons, hg d x hd]
          exact ih.cons_cons _

end Decl

namespace Check

/-- The table `t` has the declarations `decls` and nothing else. -/
structure Registers (t : Table) (decls : List Decl) : Prop where
  entries : t.unit.entries = decls.map fun d => (d.name.text, d.symbol)
  nodup : (decls.map (·.name.text)).Nodup
  fresh : ∀ d ∈ decls, predeclared.find? d.name.text = none
  classes : t.classes.map (·.decl) = decls.filterMap Decl.cls?
  class_new : ∀ {i c}, t.class? i = some c → c.id = i ∧ c.parent = none ∧ c.fields = [] ∧
    c.methods = [] ∧ c.tparams = Table.freshParams c.name c.decl.tparams
  bounds : t.bounds = (decls.filterMap Decl.bound?).map fun d => { decl := d }

namespace Registers

variable {t u : Table} {decls : List Decl}

theorem nil : Registers {} [] :=
  ⟨rfl, List.nodup_nil, by simp, rfl, by simp [Table.class?], rfl⟩

theorem names (h : Registers t decls) : t.unit.names = decls.map (·.name.text) := by
  simp [Scope.names, h.entries]

/-- The names of the classes are names of the unit. -/
theorem registered (h : Registers t decls) : t.Registered where
  id_eq hc := (h.class_new hc).1
  names := by
    have hnames : t.classes.map (·.name) = (decls.filterMap Decl.cls?).map (·.name.text) := by
      rw [← h.classes, List.map_map]
      rfl
    rw [hnames]
    refine (Decl.names_sublist (fun d c hd => ?_) decls).nodup h.nodup
    cases d <;> simp [Decl.cls?] at hd
    simp [Decl.name, hd]
  parent c hc := by
    obtain ⟨i, hi, rfl⟩ := List.mem_iff_getElem.1 hc
    exact (h.class_new (List.getElem?_eq_getElem hi)).2.1

theorem declare (h : Registers t decls) {id : Ident} {sym : Symbol}
    (hd : t.declare id sym = .ok u) :
    u = { t with unit := t.unit.push id.text sym } ∧ id.text ∉ decls.map (·.name.text) ∧
      predeclared.find? id.text = none := by
  unfold Table.declare Scope.insert at hd
  split at hd
  · cases hd
  · rename_i hpre
    cases hfind : t.unit.find? id.text with
    | some old => simp [hfind] at hd
    | none =>
        simp only [hfind, Except.ok.injEq] at hd
        refine ⟨hd.symm, ?_, by simpa using hpre⟩
        rw [← h.names]
        exact find?_eq_none_iff.1 hfind

/-- One more declaration, given what it adds to the classes and bounds. -/
theorem snoc (h : Registers t decls) {d : Decl} (hname : d.name.text ∉ decls.map (·.name.text))
    (hpre : predeclared.find? d.name.text = none)
    (hentries : u.unit.entries = t.unit.entries ++ [(d.name.text, d.symbol)])
    (hclasses : u.classes = t.classes ++ d.cls?.toList.map fun c =>
      { id := t.classes.length, decl := c,
        tparams := Table.freshParams c.name.text c.tparams })
    (hbounds : u.bounds = t.bounds ++ d.bound?.toList.map fun b => { decl := b }) :
    Registers u (decls ++ [d]) where
  entries := by simp [hentries, h.entries]
  nodup := by
    rw [List.map_append]
    exact List.nodup_append.2 ⟨h.nodup, by simp, by
      rintro a ha b hb rfl
      obtain rfl : a = d.name.text := by simpa using hb
      exact hname ha⟩
  fresh := by
    intro x hx
    rcases List.mem_append.1 hx with hx | hx
    · exact h.fresh x hx
    · rwa [List.mem_singleton.1 hx]
  classes := by
    rw [hclasses, List.map_append, h.classes, List.filterMap_append]
    cases hd : d.cls? <;> simp [hd]
  class_new := by
    intro i c hc
    simp only [Table.class?, hclasses] at hc
    by_cases hi : i < t.classes.length
    · rw [List.getElem?_append_left hi] at hc
      exact h.class_new hc
    · rw [List.getElem?_append_right (by omega)] at hc
      cases hd : d.cls? with
      | none => simp [hd] at hc
      | some x =>
          rw [hd] at hc
          obtain ⟨hlt, heq⟩ := List.getElem?_eq_some_iff.1 hc
          have hzero : i - t.classes.length = 0 := by simpa using hlt
          simp only [hzero] at heq
          simp at heq
          subst heq
          exact ⟨by simp; omega, rfl, rfl, rfl, rfl⟩
  bounds := by
    rw [hbounds, h.bounds, List.filterMap_append]
    cases hd : d.bound? <;> simp [hd]

theorem register (h : Registers t decls) {d : Decl} (hd : t.register d = .ok u) :
    Registers u (decls ++ [d]) := by
  cases d with
  | cls d =>
      simp only [Table.register, Table.registerClass] at hd
      cases hdecl : t.declare d.name (.cls d.name) with
      | error e => simp [hdecl, bind, Except.bind] at hd
      | ok t' =>
          simp [hdecl, bind, Except.bind, pure, Except.pure] at hd
          obtain ⟨rfl, hname, hpre⟩ := h.declare hdecl
          subst hd
          exact h.snoc (d := .cls d) hname hpre rfl rfl (by simp [Decl.bound?])
  | bound d =>
      simp only [Table.register, Table.registerBound] at hd
      cases hdecl : t.declare d.name (.bound d.name) with
      | error e => simp [hdecl, bind, Except.bind] at hd
      | ok t' =>
          simp [hdecl, bind, Except.bind, pure, Except.pure] at hd
          obtain ⟨rfl, hname, hpre⟩ := h.declare hdecl
          subst hd
          exact h.snoc (d := .bound d) hname hpre rfl (by simp [Decl.cls?]) rfl
  | func d =>
      obtain ⟨rfl, hname, hpre⟩ := h.declare (by simpa [Table.register] using hd)
      exact h.snoc (d := .func d) hname hpre rfl (by simp [Decl.cls?]) (by simp [Decl.bound?])
  | const d =>
      obtain ⟨rfl, hname, hpre⟩ := h.declare (by simpa [Table.register] using hd)
      exact h.snoc (d := .const d) hname hpre rfl (by simp [Decl.cls?]) (by simp [Decl.bound?])

end Registers

theorem register_ensures {w : Watch} {t : Table} (before : List Decl) {decls : List Decl} :
    w.Ensures (register t decls) (Registers t before) fun t' => Registers t' (before ++ decls) := by
  induction decls generalizing t before with
  | nil => exact .pure fun h => by simpa using h
  | cons d rest ih =>
      unfold register
      split
      next u hu =>
        refine (ih (before ++ [d])).imp (fun h => h.register hu) fun _ t' h => ?_
        simpa using h
      next e _ =>
        refine Watch.Ensures.reportAll.bind fun _ => ?_
        exact (ih before).imp (fun h => by simp at h) fun h => by simp at h

/-- A linked table whose names are those of `decls`. -/
structure LinkedTo (t : Table) (decls : List Decl) : Prop where
  linked : t.Linked
  entries : t.unit.entries = decls.map fun d => (d.name.text, d.symbol)
  nodup : (decls.map (·.name.text)).Nodup
  fresh : ∀ d ∈ decls, predeclared.find? d.name.text = none
  classes : t.classes.map (·.decl) = decls.filterMap Decl.cls?

theorem LinkedTo.sameFrame {t u : Table} {decls : List Decl} (h : LinkedTo t decls)
    (hframe : Table.SameFrame t u) (hunit : u.unit = t.unit) : LinkedTo u decls where
  linked := hframe.linked h.linked
  entries := by rw [hunit, h.entries]
  nodup := h.nodup
  fresh := h.fresh
  classes := by
    have := congrArg (List.map fun x : Nat × ClassDecl × Option Nat × Nat => x.2.1)
      hframe.classes
    rw [← h.classes]
    simpa [ClassInfo.frame, Function.comp_def] using this

/-- No class or bound has a member yet. -/
structure Bare (t : Table) (decls : List Decl) : Prop where
  classes : ∀ {i c}, t.class? i = some c → c.fields = [] ∧ c.methods = [] ∧
    c.tparams = Table.freshParams c.name c.decl.tparams
  bounds : t.bounds = (decls.filterMap Decl.bound?).map fun d => { decl := d }

theorem Registers.linkedTo {t u : Table} {decls : List Decl} (h : Registers t decls)
    (hlink : t.linkAll = (u, [])) : LinkedTo u decls ∧ Bare u decls := by
  obtain ⟨hlinked, hunit, hbounds, hlen, hclass⟩ := Table.linkAll_linked h.registered hlink
  refine ⟨⟨hlinked, by rw [hunit, h.entries], h.nodup, h.fresh, ?_⟩, fun {i c} hc => ?_,
    by rw [hbounds, h.bounds]⟩
  · rw [← h.classes]
    refine List.ext_getElem? fun i => ?_
    simp only [List.getElem?_map]
    cases hc : u.class? i with
    | none =>
        have hge : u.classes.length ≤ i := List.getElem?_eq_none_iff.1 hc
        have hnone : t.classes[i]? = none := List.getElem?_eq_none_iff.2 (by omega)
        simp [Table.class?] at hc
        simp [hnone]
        omega
    | some c =>
        obtain ⟨d, hd, hdecl, _⟩ := hclass i c hc
        simp only [Table.class?] at hc hd
        simp [hc, hd, hdecl]
  · obtain ⟨d, hd, hdecl, htparams, hfields, hmethods⟩ := hclass i c hc
    obtain ⟨_, _, hf, hm, htp⟩ := h.class_new hd
    refine ⟨by rw [hfields, hf], by rw [hmethods, hm], ?_⟩
    rw [htparams, htp, ClassInfo.name, ClassInfo.name, hdecl]

theorem link_ensures {w : Watch} {P : Prop} (decls : List Decl) :
    w.Ensures (link decls) P fun r => ∃ t, r = some t ∧ LinkedTo t decls ∧ Bare t decls := by
  unfold link
  refine ((register_ensures []).imp (fun _ => Registers.nil) fun _ _ h => h).bind fun t => ?_
  refine Watch.Ensures.failed.bind fun b => ?_
  split
  next hb => exact .pure fun h => by simp [hb] at h
  next =>
    rcases hlink : t.linkAll with ⟨u, errors⟩
    refine Watch.Ensures.reportAll.bind fun _ => .pure ?_
    rintro ⟨⟨⟨_, hreg⟩, _⟩, rfl⟩
    exact ⟨u, rfl, Registers.linkedTo (by simpa using hreg) hlink⟩

end Check

end ClassLang
