import ClassLang.Proofs.Check.Annotation
import ClassLang.Proofs.Check.Initializer
import ClassLang.Proofs.Code.Expr
import ClassLang.Proofs.Machine.Building

/-!
Initializers from the check to the object. What is accepted gives each field of the class one value,
and the object that is built has them at the places of the fields, whatever the order in which they
are written.
-/

namespace ClassLang

namespace Typed.Expr

theorem mem_eraseElems {key : Ident} {x : Expr} {elems : List (Ident × Expr)}
    (h : (key, x) ∈ elems) : (key, x.erase) ∈ eraseElems elems := by
  induction elems with
  | nil => cases h
  | cons e rest ih =>
      obtain ⟨key', x'⟩ := e
      rcases List.mem_cons.1 h with heq | h
      · obtain ⟨rfl, rfl⟩ := Prod.mk.inj heq
        exact List.mem_cons_self
      · exact List.mem_cons_of_mem _ (ih h)

/-- An initializer that gives each field a value is recorded with the fields in their order, each with
the expression that is written for it. -/
theorem init_recorded (cls : Ident) (sym : Symbol) (ty : Ty) {fields : List Field}
    (elems : List (Ident × Expr))
    (hkeys : (elems.map (·.1.text)).Perm (fields.map (·.name))) :
    ∃ values, Fact.init cls.text ty values ∈ (Expr.init cls sym ty fields elems).facts ∧
      values.map (·.1) = fields ∧
      ∀ v ∈ values, ∃ e ∈ eraseElems elems, e.1.text = v.1.name ∧ v.2 = e.2.text := by
  let recorded (f : Field) := (elems.find? (·.1.text = f.name)).map fun e => (f, e.2.erase.text)
  have hsome : ∀ f ∈ fields, (recorded f).map (·.1) = some f := by
    intro f hf
    have hkey := hkeys.mem_iff.2 (List.mem_map_of_mem hf)
    obtain ⟨e, he, hname⟩ := List.mem_map.1 hkey
    obtain ⟨e', he'⟩ := Option.isSome_iff_exists.1
      (List.find?_isSome.2 ⟨e, he, by simpa using hname⟩ :
        (elems.find? (·.1.text = f.name)).isSome = true)
    simp [recorded, he']
  refine ⟨fields.filterMap recorded, ?_, ?_, fun v hv => ?_⟩
  · rw [facts]
    exact List.mem_append_left _ (.tail _ (.head _))
  · rw [List.map_filterMap, List.filterMap_congr hsome]
    exact List.filterMap_some
  · obtain ⟨f, -, hf⟩ := List.mem_filterMap.1 hv
    obtain ⟨⟨key, x⟩, he, rfl⟩ := Option.map_eq_some_iff.1 hf
    have hname : key.text = f.name := by simpa using List.find?_some he
    exact ⟨(key, x.erase), mem_eraseElems (List.mem_of_find?_eq_some he), hname, rfl⟩

/-- The elements of an initializer may be written in any order. -/
theorem Ok.init_perm {Γ : Context} {vars : List Var} {cls : Ident} {sym : Symbol} {ty : Ty}
    {fields : List Field} {elems elems' : List (Ident × Expr)}
    (h : (Expr.init cls sym ty fields elems).Ok Γ vars) (hperm : elems'.Perm elems) :
    (Expr.init cls sym ty fields elems').Ok Γ vars := by
  cases h with
  | init found inst keys operands fit =>
      exact .init found inst ((hperm.map _).trans keys)
        (fun e he => operands e (hperm.mem_iff.1 he)) fun e he => fit e (hperm.mem_iff.1 he)

end Typed.Expr

namespace Machine

theorem sized_of_isLayout {t : Table} {slots : List String} {k : ClassInfo} {l : ClassLayout}
    (ht : t.WellTyped) (hk : k ∈ t.classes) (hl : Layouts.IsLayout t slots k l)
    (hword : l.size < 2 ^ 63) : Sized l where
  numbered i s hs := by
    rw [hl.getElem?_fields] at hs
    obtain ⟨f, -, rfl⟩ := Option.map_eq_some_iff.1 hs
    rfl
  named s hs := hl.field?_eq
    (ht.flatFields_nodup (Table.class?_eq_some_lt (ht.linked.class?_id hk))) hs
  word := hword

/-- What the elements of a well typed initializer build, if their values have no side effects. -/
theorem init_builds {Γ : Typed.Context} (hΓ : Γ.Sound) {vars : List Var} {cls : Ident} {sym : Symbol}
    {ty : Ty} {fields : List Field} {elems : List (Ident × Typed.Expr)}
    (h : (Typed.Expr.init cls sym ty fields elems).Ok Γ vars) :
    ∃ l, (Layouts.build Γ.table).named? cls.text = some l ∧ l.fields.map (·.field) = fields ∧
      (l.size < 2 ^ 63 → ∀ (c : Scene) (val : String → Value),
        (∀ e ∈ elems, c.Yields (Layouts.build Γ.table) e.2 (val e.1.text)) →
        ∃ o : Object, o.layout = l ∧ o.dispatch = some l ∧ o.fields.size = fields.length ∧
          (∀ e ∈ elems, ∃ place, l.field? e.1.text = some place ∧
            fieldAt o (Int64.ofInt place.offset) = .ok (place.index, val e.1.text)) ∧
          ∀ elems' : List (Ident × Typed.Expr), elems'.Perm elems →
            Graph.Build.CodesExpr (Layouts.build Γ.table) vars (.init cls sym ty fields elems') ∧
              c.Builds (Layouts.build Γ.table) (.init cls sym ty fields elems') o) := by
  have hok := h
  cases h with
  | @init _ _ k targs _ found inst keys operands fit =>
      have hmem : k ∈ Γ.table.classes := List.mem_of_find?_eq_some found
      have hname : k.name = cls.text := by simpa using List.find?_some found
      obtain ⟨l, hnamed, hl⟩ := Layouts.named?_build hΓ.table.linked hmem
      rw [hname] at hnamed
      have hnames : l.fields.map (·.field.name) = (Γ.table.flatFields k.id).map (·.name) := by
        rw [← hl.map_field, List.map_map]
        rfl
      refine ⟨l, hnamed, hl.map_field, fun hword c val hyields => ?_⟩
      have hsized := sized_of_isLayout hΓ.table hmem hl hword
      refine ⟨.built l val, rfl, rfl, by simp [Object.built, ← hl.map_field], fun e he => ?_,
        fun elems' hperm => ⟨Graph.Build.codes_expr hΓ (hok.init_perm hperm), ?_⟩⟩
      · have hkey := keys.mem_iff.1 (List.mem_map_of_mem he)
        rw [← hnames] at hkey
        obtain ⟨s, hs, hs'⟩ := List.mem_map.1 hkey
        have hplace : l.field? e.1.text = some s := hs' ▸ hsized.named s hs
        exact ⟨s, hplace, Object.fieldAt_built hsized val hplace⟩
      · refine builds_init hsized hnamed ?_ fun e he => hyields e (hperm.mem_iff.1 he)
        rw [hnames]
        exact (hperm.map _).trans keys

end Machine

/-- What is reported of an initializer, when it is accepted, and what it builds. The code may be
anywhere in a unit whose declarations are without an error. Each element with a key that is no field
of the class, or that repeats an earlier one, is an error, and the fields that are never given are one
error together. An initializer is accepted only if its keys are the fields of the class in some order
and each value can be assigned to its field; then each field is recorded with the expression that is
written for it. In a unit that passes, an initializer whose values have no side effects builds one
object in whatever order its elements are written, with each value at the offset of its field. -/
theorem initializers_exact (name : String) (bytes : List UInt8) {limit : Option Nat}
    (hparse : (parseFile name bytes).reports = []) (hlimit : limit ≠ some 0) :
    (∀ c, (parseFile name bytes).file.collected? limit = some c → ∀ env, Check.Inside c env →
      ∀ (consts : Check.ConstSource) (s : Check.Session) (cls id : Ident) (k : ClassInfo)
        (elems : List (Ident × Expr)),
      env.lookup cls.text = some (.cls id) → c.table.classNamed? id.text = some k →
      ∃ xs s', Check.ChecksElements env consts k.name (c.table.flatFields k.id) [] elems s xs s' ∧
        Check.ChecksInitializer c.table cls id k elems xs s'
          ((Check.expr env consts (.init cls elems)).run s) ∧
        ∀ e, ((Check.expr env consts (.init cls elems)).run s).1 = some e →
          ∃ values, .init cls.text e.ty values ∈ e.facts ∧
            values.map (·.1) = c.table.flatFields k.id ∧
            ∀ v ∈ values, ∃ el ∈ elems, el.1.text = v.1.name ∧ v.2 = el.2.text) ∧
    ∀ u, (parseFile name bytes).file.check limit = .ok u →
      ∀ (cls : Ident) (sym : Symbol) (ty : Ty) (fields : List Field)
        (elems : List (Ident × Typed.Expr)),
      Typed.Site.value (.init cls sym ty fields elems) ∈ u.sites →
      let ls := Layouts.build u.table
      ∃ l vars, ls.named? cls.text = some l ∧ l.fields.map (·.field) = fields ∧
        (l.size < 2 ^ 63 → ∀ (c : Machine.Scene) (val : String → Machine.Value),
          (∀ e ∈ elems, c.Yields ls e.2 (val e.1.text)) →
          ∃ o : Machine.Object, o.layout = l ∧ o.dispatch = some l ∧
            o.fields.size = fields.length ∧
            (∀ e ∈ elems, ∃ place, l.field? e.1.text = some place ∧
              Machine.fieldAt o (Int64.ofInt place.offset) = .ok (place.index, val e.1.text)) ∧
            ∀ elems' : List (Ident × Typed.Expr), elems'.Perm elems →
              Graph.Build.CodesExpr ls vars (.init cls sym ty fields elems') ∧
                c.Builds ls (.init cls sym ty fields elems') o) := by
  constructor
  · intro c hcollected env henv consts s cls id k elems hcls hk
    have hc := File.collected?_ok hcollected hlimit
    have hk' : env.table.classNamed? id.text = some k := by rw [henv.table, hk]
    obtain ⟨filling, xs, s', helems, hchecks, htook⟩ := Check.run_elements env consts k.name (env.table.flatFields k.id) elems
      (Check.Filling.took_nil (env.table.flatFields k.id)) s
    rw [List.nil_append, henv.table] at htook
    have hrun : (Check.expr env consts (.init cls elems)).run s =
        (Check.initialized env cls (.cls id) k filling (((elems.map (·.1)).zip xs).flatMap
          fun e => e.2.toList.map fun x => (e.1, x.expr))).run s' := by
      unfold Check.expr
      simp only [hcls, hk']
      rw [Check.Watch.Ensures.run_bind, helems]
    rw [henv.table] at hchecks
    have hends := Check.initialized_checks cls id hc henv hk htook hchecks.length s'
    rw [← hrun] at hends
    refine ⟨xs, s', hchecks, hends, fun e he => ?_⟩
    have herase := Check.expr_gives (.init cls elems) s e he
    obtain ⟨ys, targs, hxs, -, hgives, rfl⟩ := hends.sound e he
    have hwritten : Typed.Expr.eraseElems (((elems.map (·.1)).zip ys).map fun e => (e.1, e.2.expr)) =
        elems := (Expr.init.inj herase).2
    obtain ⟨values, hfact, hfields, hvalues⟩ := Typed.Expr.init_recorded cls (.cls id)
      (if k.isGeneric then .inst k.name targs else .cls k.name)
      (((elems.map (·.1)).zip ys).map fun e => (e.1, e.2.expr))
      (by rw [List.map_map]; exact hgives.keys)
    rw [hwritten] at hvalues
    exact ⟨values, hfact, hfields, hvalues⟩
  · intro u hcheck cls sym ty fields elems hsite ls
    obtain ⟨_, _, hshape⟩ := parseFile_clean hparse
    obtain ⟨Γ, htable, hsound, hannotates⟩ := File.check_typed hshape hcheck hlimit
    obtain ⟨Δ, vars, hok⟩ := hannotates.ok _ hsite _ rfl
    obtain ⟨l, hbuilds⟩ := Machine.init_builds (hsound Δ) hok
    rw [show ({ Γ with tparams := Δ } : Typed.Context).table = u.table from htable] at hbuilds
    exact ⟨l, vars, hbuilds⟩

/-- A text with an initializer that gives the fields of a class in another order. -/
def swappedText : List UInt8 :=
  "class P{x:int,b:bool} fun make():P{return P:init(b:true,x:1);}".toUTF8.toList

/-- The class of an initializer, and its keys with the values that are known beforehand. -/
def Typed.Site.init? : Typed.Site → Option (String × List (String × Option Constant))
  | .value (.init cls _ _ _ elems) =>
    some (cls.text, elems.map fun e => (e.1.text, e.2.value?))
  | _ => none

set_option synthInstance.maxSize 1000 in
theorem swappedText_built : ∃ u l o, (parseFile "t" swappedText).file.check none = .ok u ∧
    (Layouts.build u.table).named? "P" = some l ∧ o.layout = l ∧ o.dispatch = some l ∧
    Machine.fieldAt o 16 = .ok (0, .int 1) ∧ Machine.fieldAt o 24 = .ok (1, .bool true) ∧
    ∃ cls sym ty fields elems, Typed.Site.value (.init cls sym ty fields elems) ∈ u.sites ∧
      elems.map (·.1.text) = ["b", "x"] ∧ ∀ elems' : List (Ident × Typed.Expr), elems'.Perm elems →
        Machine.Scene.Builds ⟨{ program := default }, fun _ => none, []⟩ (Layouts.build u.table)
          (.init cls sym ty fields elems') o := by
  have hchecked : (fun r : Parsed => (r.reports, (r.file.check none).toOption.map fun u =>
      (u.sites.filterMap (·.init?), ((Layouts.build u.table).named? "P").map fun l =>
        (l.size, (l.field? "x").map fun s => (s.index, s.offset),
          (l.field? "b").map fun s => (s.index, s.offset)))))
      (parseFile "t" swappedText) =
      ([], some ([("P", [("b", some (.bool true)), ("x", some (.int 1))])],
        some (32, some (0, 16), some (1, 24)))) := by
    rw [swappedText, parseFile_ofList]
    decide +kernel
  obtain ⟨hparse, u, hcheck, hvalues⟩ := Parsed.exists_checked hchecked
  obtain ⟨hinits, hlayout⟩ := Prod.mk.inj hvalues
  obtain ⟨site, hsite, hinit⟩ := List.mem_filterMap.1 (hinits ▸ List.mem_singleton_self _)
  obtain ⟨cls, sym, ty, fields, elems, rfl, hcls, helems⟩ : ∃ cls sym ty fields elems,
      site = .value (.init cls sym ty fields elems) ∧ cls.text = "P" ∧
        elems.map (fun e => (e.1.text, e.2.value?)) =
          [("b", some (.bool true)), ("x", some (.int 1))] := by
    unfold Typed.Site.init? at hinit
    split at hinit
    next cls sym ty fields elems =>
      obtain ⟨hcls, helems⟩ := Prod.mk.inj (Option.some.inj hinit)
      exact ⟨cls, sym, ty, fields, elems, rfl, hcls, helems⟩
    next => cases hinit
  obtain ⟨l, hl, hplaces⟩ := Option.map_eq_some_iff.1 hlayout
  simp only [Prod.mk.injEq, Option.map_eq_some_iff] at hplaces
  obtain ⟨hsize, ⟨x, hx, hxindex, hxoffset⟩, b, hb, hbindex, hboffset⟩ := hplaces
  obtain ⟨e, e', rfl⟩ : ∃ e e', elems = [e, e'] :=
    List.length_eq_two.1 (by simpa using congrArg List.length helems)
  simp only [List.map_cons, List.map_nil, List.cons.injEq, Prod.mk.injEq, and_true] at helems
  obtain ⟨⟨hkey, hvalue⟩, hkey', hvalue'⟩ := helems
  obtain ⟨l', vars, hl', -, hbuilds⟩ := (initializers_exact "t" swappedText hparse (by simp)).2 u
    hcheck cls sym ty fields [e, e'] hsite
  obtain rfl : l = l' := by
    rw [hcls, hl] at hl'
    exact Option.some.inj hl'
  obtain ⟨o, hlayout, hdispatch, -, hfields, hbuilds⟩ := hbuilds (by rw [hsize]; decide)
    ⟨{ program := default }, fun _ => none, []⟩
    (fun name => if name = "x" then .int 1 else .bool true) (by
      simp only [List.forall_mem_cons, List.not_mem_nil, false_implies, implies_true, and_true]
      rw [hkey, hkey']
      exact ⟨Machine.Scene.Yields.known hvalue, Machine.Scene.Yields.known hvalue'⟩)
  simp only [List.forall_mem_cons, List.not_mem_nil, false_implies, implies_true, and_true, hkey,
    hkey', hb, hx, Option.some.injEq, exists_eq_left'] at hfields
  rw [hxindex, hxoffset, hbindex, hboffset] at hfields
  exact ⟨u, l, o, hcheck, hl, hlayout, hdispatch, hfields.2, hfields.1, cls, sym, ty, fields, _,
    hsite, by simp [hkey, hkey'], fun elems' hperm => (hbuilds elems' hperm).2⟩

end ClassLang
