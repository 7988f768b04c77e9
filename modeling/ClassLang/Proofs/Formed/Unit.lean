import Mathlib
import ClassLang.Proofs.Check.Result
import ClassLang.Proofs.Formed.Stmt
import ClassLang.Proofs.Tree.Encoded
import ClassLang.Tree.Parse

/-!
Every type that the checker records for a unit that passes is well-formed: in a field, in
a signature, or as the type of an expression, a call or an initializer. So is what comes
of filling in admitted arguments.
-/

namespace ClassLang

namespace Typed

variable {T : Table}

theorem TypeParamTerm.facts_formed (t : TypeParamTerm) : FactsFormed T t.facts := by
  unfold TypeParamTerm.facts
  split <;> simp

theorem Func.facts_formed {g : Func} (hheader : Check.HeaderFormed T g.header)
    (hbody : ∀ b ∈ g.body, FactsFormed T b.facts) : FactsFormed T g.facts := by
  have hrecv : FactsFormed T
      (g.header.recv.toList.map fun v => Fact.define ⟨v.pos, v.name⟩ (.var v)) := by
    cases g.header.recv <;> simp
  simp only [Func.facts, factsFormed_append, factsFormed_flatMap, factsFormed_cons,
    factsFormed_nil, Fact.types_define]
  refine ⟨⟨⟨⟨⟨hrecv, by simp⟩, fun t _ => t.facts_formed⟩, fun e he => ⟨by simp, ?_⟩⟩,
    fun term hterm => ?_⟩, fun b hb => ?_⟩
  · exact hheader.params e he
  · exact hheader.result term (Option.mem_toList.1 hterm)
  · exact hbody b (Option.mem_toList.1 hb)

end Typed

namespace Check

open ClassLang.Typed (FactsFormed)

variable {T : Table} {C : Prop} {env : Env} {consts : ConstSource} {s : Scope Symbol}

/-! Constants -/

/-- Every constant folded so far has well-formed types. -/
def Watch.types (T : Table) : Watch :=
  .each fun c => FactsFormed T c.type.facts ∧ FactsFormed T c.expr.facts

theorem constDecl_formed {w : Watch} (hconsts : ConstsFormed w T consts C) {d : ConstDecl} :
    w.Ensures (constDecl env consts d) (InUnit env T w ∧ C) fun r => ∀ c ∈ r,
      FactsFormed T c.type.facts ∧ FactsFormed T c.expr.facts := by
  unfold constDecl
  refine ((varType_formed (T := T)).imp (fun h => h.1.formed) fun _ _ h => h).bind fun term => ?_
  dsimp only
  split
  next => exact .fail
  next =>
    refine ((operand_formed hconsts d.value).imp And.left fun _ _ h => h).bind fun r => ?_
    split
    next =>
      split
      next => exact .fail
      next =>
        refine assignable_ensures.bind fun ok => ?_
        split
        next =>
          refine .pure fun h c hc => ?_
          obtain rfl := Option.mem_some.1 hc
          exact ⟨h.1.1.2 _ rfl, h.1.2 _ rfl⟩
        next => exact .pure fun _ c hc => by cases hc
    next => exact .pure fun _ c hc => by cases hc

theorem constant_formed {decls : List ConstDecl} {fuel : Nat} :
    ConstsFormed (.types T) T (constant env decls fuel) (InUnit env T (.types T)) := by
  have formed {result : Option Typed.Const}
      (h : ∀ c ∈ result, FactsFormed T c.type.facts ∧ FactsFormed T c.expr.facts) :
      ∀ e ∈ result.map fun c => (c.type.ty, c.value), e.1.Formed T := by
    intro e he
    obtain ⟨c, hc, rfl⟩ := Option.map_eq_some_iff.1 he
    exact Typed.TypeTerm.ty_formed (h c hc).1
  induction fuel with
  | zero => exact fun name => .pure fun _ e he => by cases he
  | succ fuel ih =>
      intro name
      unfold constant
      refine Watch.Ensures.get.bind fun s => ?_
      split
      next result hlookup =>
        refine .pure fun h => formed fun c hc => ?_
        obtain rfl := Option.mem_def.1 hc
        exact h.2 name c (mem_of_lookup hlookup)
      next => exact .fail
      next d _ _ =>
        refine (modifyConsts_ensures (by simp)).bind fun _ => ?_
        refine ((constDecl_formed ih).imp (fun h => ⟨h.1.1, h.1.1⟩) fun _ _ h => h).bind
          fun result => ?_
        refine (modifyConsts_ensures fun h c hc => ?_).bind fun _ =>
          .pure fun h => formed fun c hc => h.1.2 c hc
        cases hc
        exact h.2 c rfl
      next => exact .pure fun _ e he => by cases he

theorem foldAll_formed {decls list : List ConstDecl} :
    (Watch.types T).Ensures (foldAll env decls list) (InUnit env T (.types T))
      fun _ => True := by
  induction list with
  | nil => exact .pure fun _ => trivial
  | cons d rest ih =>
      unfold foldAll
      refine Watch.Ensures.bind (.discard (Q := fun _ => True)
        ((constant_formed d.name.text).imp id fun _ _ _ => trivial)) fun _ => ?_
      exact ih.imp And.left fun _ _ h => h

theorem foldedValue_formed : ConstsFormed (.types T) T foldedValue True := by
  intro name
  unfold foldedValue
  refine folded_ensures.bind fun r => .pure fun h e he => ?_
  obtain ⟨c, rfl, rfl⟩ := Option.map_eq_some_iff.1 he
  exact Typed.TypeTerm.ty_formed (h.2 c rfl).1

/-! Functions -/

/-- Entering a scope of variables with well-formed types. -/
theorem InUnit.enter {w : Watch} (h : InUnit env T w) (hs : ∀ e ∈ s.entries, EntryFormed T e) :
    InUnit (env.enter s) T w where
  formed := h.formed.enter hs
  table := h.table
  typed := h.typed
  members := h.members
  funcs := h.funcs

/-- A checked function all of whose facts are about well-formed types. -/
structure FuncFormed (T : Table) (g : Typed.Func) : Prop where
  facts : FactsFormed T g.facts
  sig : g.header.sig.Formed T

theorem funcBody_formed {p : Prepared} :
    (Watch.types T).Ensures (funcBody env p) (InUnit env T (.types T) ∧ PreparedFormed T p)
      fun r => ∀ g ∈ r.2, FuncFormed T g := by
  unfold funcBody
  split
  next =>
    refine .pure fun h g hg => ?_
    obtain rfl := Option.mem_some.1 hg
    exact ⟨Typed.Func.facts_formed h.2.1 (by simp), h.2.1.sig⟩
  next b _ =>
    dsimp only
    unfold body
    refine Watch.Ensures.bind (Q := fun r => ∀ b ∈ r.2, FactsFormed T b.facts) ?_ ?_
    · refine ((stmts_formed foldedValue_formed b.stmts).imp
        (fun h => ⟨h.1.enter h.2.2, trivial⟩) fun _ _ h => h).bind ?_
      rintro ⟨s, ts⟩
      dsimp only
      split
      next => exact .report_bind (.pure False.elim)
      next =>
        refine .pure fun h b hb => ?_
        obtain ⟨ts, hts, rfl⟩ := Option.map_eq_some_iff.1 hb
        simpa [Typed.Block.facts] using h.2.2 ts hts
    · rintro ⟨s, b'⟩
      refine .pure fun h g hg => ?_
      obtain ⟨b', hb', rfl⟩ := Option.map_eq_some_iff.1 hg
      refine ⟨Typed.Func.facts_formed h.1.2.1 fun b hb => ?_, h.1.2.1.sig⟩
      obtain rfl := Option.mem_some.1 hb
      exact h.2 b' hb'

theorem funcBodies_formed {list : List Prepared} :
    (Watch.types T).Ensures (funcBodies env s list)
      (InUnit env T (.types T) ∧ ∀ p ∈ list, PreparedFormed T p) fun r =>
      ∀ gs ∈ r.2, ∀ g ∈ gs, FuncFormed T g := by
  induction list generalizing s with
  | nil =>
      refine .pure fun _ gs hgs => ?_
      obtain rfl := Option.mem_some.1 hgs
      simp
  | cons p rest ih =>
      unfold funcBodies
      refine (funcBody_formed.imp (fun h => ⟨h.1, h.2 p (by simp)⟩) fun _ _ h => h).bind ?_
      rintro ⟨inner, g⟩
      refine (ih.imp (fun h => ⟨h.1.1, fun p hp => h.1.2 p (by simp [hp])⟩) fun _ _ h => h).bind ?_
      rintro ⟨s', gs⟩
      dsimp only
      split
      next g gs =>
        refine .pure fun h gs' hgs' => ?_
        obtain rfl := Option.mem_some.1 hgs'
        exact List.forall_mem_cons.2 ⟨h.1.2 g rfl, h.2 gs rfl⟩
      next => exact .pure fun _ gs hgs => by cases hgs

/-! Declarations -/

/-- A checked declaration all of whose facts, and signatures, are about well-formed types. -/
def DeclFormed (T : Table) (d : Typed.Decl) : Prop :=
  FactsFormed T d.facts ∧ ∀ g, d = .func g → g.header.sig.Formed T

theorem classDecl_formed {d : ClassDecl} {m : Members} :
    (Watch.types T).Ensures (classDecl env d m) (InUnit env T (.types T) ∧ MembersFormed T m)
      fun r => ∀ k ∈ r.2, DeclFormed T (.cls k) := by
  unfold classDecl
  refine (funcBodies_formed.imp (fun h => ⟨h.1.enter h.2.scope, h.2.methods⟩)
    fun _ _ h => h).bind fun (s, gs) => .pure fun h k hk => ?_
  obtain ⟨gs, hgs, rfl⟩ := Option.map_eq_some_iff.1 hk
  obtain ⟨⟨_, hm⟩, hmethods⟩ := h
  refine ⟨?_, by simp⟩
  simp only [Typed.Decl.facts, Typed.factsFormed_append, Typed.factsFormed_flatMap,
    Typed.factsFormed_cons, Typed.factsFormed_nil, Typed.Fact.types_define]
  refine ⟨⟨⟨by simp, fun t _ => t.facts_formed⟩, fun e he => ⟨by simp, ?_⟩⟩,
    fun g hg => (hmethods gs hgs g hg).facts⟩
  obtain ⟨x, hx, heq⟩ := List.mem_filterMap.1 he
  obtain ⟨term, hterm, rfl⟩ := Option.map_eq_some_iff.1 heq
  exact (hm.fields x hx).2 term hterm

theorem declaration_formed {c : Collected} {scopes : Scopes} {d : Decl} :
    (Watch.types T).Ensures (declaration env c scopes d)
      (InUnit env T (.types T) ∧ CollectedFormed T c) fun r => ∀ t ∈ r.2, DeclFormed T t := by
  cases d with
  | cls d =>
      rw [declaration]
      split
      next => exact .pure fun _ t ht => by cases ht
      next m hm =>
        refine (classDecl_formed.imp (fun h => ⟨h.1, h.2.members _ (mem_of_lookup hm)⟩)
          fun _ _ h => h).bind ?_
        rintro ⟨s, k⟩
        refine .pure fun h t ht => ?_
        obtain ⟨k, hk, rfl⟩ := Option.map_eq_some_iff.1 ht
        exact h.2 k hk
  | bound d =>
      rw [declaration]
      refine .pure fun h t ht => ?_
      obtain rfl := Option.mem_some.1 ht
      refine ⟨?_, by simp⟩
      simp only [Typed.Decl.facts, Typed.factsFormed_cons, Typed.factsFormed_flatMap,
        Typed.Fact.types_define]
      refine ⟨by simp, fun g hg => ?_⟩
      obtain ⟨p, hp, rfl⟩ := List.mem_map.1 hg
      cases hfound : c.bounds.lookup d.name.text with
      | none => simp [hfound] at hp
      | some list =>
          have hmem : p ∈ list := by simpa [hfound] using hp
          have hprepared := h.2.prepared _ (mem_of_lookup hfound) p hmem
          exact Typed.Func.facts_formed hprepared.1 (by simp)
  | func d =>
      rw [declaration]
      split
      next => exact .pure fun _ t ht => by cases ht
      next p hp =>
        refine (funcBody_formed.imp (fun h => ⟨h.1, h.2.funcs p (List.mem_of_find?_eq_some hp)⟩)
          fun _ _ h => h).bind ?_
        rintro ⟨s, g⟩
        refine .pure fun h t ht => ?_
        obtain ⟨g, hg, rfl⟩ := Option.map_eq_some_iff.1 ht
        have hformed := h.2 g hg
        exact ⟨hformed.facts, fun g' heq => Typed.Decl.func.inj heq ▸ hformed.sig⟩
  | const d =>
      rw [declaration]
      refine Watch.Ensures.bind folded_ensures fun r => .pure fun h t ht => ?_
      obtain ⟨k, hk, rfl⟩ := Option.map_eq_some_iff.1 ht
      have hparts : FactsFormed T k.type.facts ∧ FactsFormed T k.expr.facts := h.2 k hk
      exact ⟨by simpa [Typed.Decl.facts] using hparts, by simp⟩

theorem declarations_formed {c : Collected} {scopes : Scopes} {list : List Decl} :
    (Watch.types T).Ensures (declarations env c scopes list)
      (InUnit env T (.types T) ∧ CollectedFormed T c) fun r =>
      ∀ ts ∈ r.2, ∀ t ∈ ts, DeclFormed T t := by
  induction list generalizing scopes with
  | nil =>
      refine .pure fun _ ts hts => ?_
      obtain rfl := Option.mem_some.1 hts
      simp
  | cons d rest ih =>
      unfold declarations
      refine Watch.Ensures.full.bind fun full => ?_
      split
      next => exact .pure fun _ ts hts => by cases hts
      next =>
        refine (declaration_formed.imp And.left fun _ _ h => h).bind ?_
        rintro ⟨scopes, t⟩
        refine (ih.imp (fun h => h.1.1) fun _ _ h => h).bind ?_
        rintro ⟨scopes, ts⟩
        dsimp only
        split
        next t ts =>
          refine .pure fun h ts' hts' => ?_
          obtain rfl := Option.mem_some.1 hts'
          exact List.forall_mem_cons.2 ⟨h.1.2 t rfl, h.2 ts rfl⟩
        next => exact .pure fun _ ts hts => by cases hts

/-! Whole units -/

variable {f : File} {c : Collected}

namespace CollectedOk

/-- The members of a collected unit have well-formed types. -/
theorem table_formed (h : CollectedOk f c) (hformed : CollectedFormed c.table c) :
    c.table.Formed := by
  obtain ⟨ms, hclasses, hlen, hall⟩ := h.members
  have hmem {info : ClassInfo} (hinfo : info ∈ c.table.classes) :
      ∃ m, MembersFormed c.table m ∧ info.fields = m.fields.map (·.1) ∧
        info.methods = m.methods.map (·.method info.name) := by
    have hid := h.linkedTo.linked.class?_id hinfo
    obtain ⟨info', m, hm, hok⟩ := hall info.id (Table.class?_eq_some_lt hid)
    obtain rfl : info = info' := Option.some.inj (hid.symm.trans hok.class?)
    refine ⟨m, ?_, hok.fields, hok.methods⟩
    have hi := Table.class?_eq_some_lt hid
    have hzip : (info.name, m) ∈ c.classes := by
      rw [hclasses]
      refine List.mem_iff_getElem?.2 ⟨info.id, ?_⟩
      have hget : c.table.classes[info.id]? = some info := hid
      simp [List.getElem?_zip_eq_some, hget, hm]
    exact hformed.members _ hzip
  refine ⟨fun info hinfo fd hfd => ?_, fun info hinfo m hm => ?_, hformed.bounds⟩
  · obtain ⟨ms, hms, hfields, _⟩ := hmem hinfo
    rw [hfields] at hfd
    obtain ⟨e, he, rfl⟩ := List.mem_map.1 hfd
    exact (hms.fields e he).1
  · obtain ⟨ms, hms, _, hmethods⟩ := hmem hinfo
    rw [hmethods] at hm
    obtain ⟨p, hp, rfl⟩ := List.mem_map.1 hm
    exact (hms.methods p hp).1.sig

theorem inUnit (h : CollectedOk f c) (hformed : CollectedFormed c.table c) {w : Watch} :
    InUnit (topEnv c) c.table w where
  formed :=
    { heads := rfl
      duties := fun hcollect => by cases hcollect
      checked := fun _ _ hd => hd
      basic := UnitOf.basicIn h.linkedTo.entries rfl
      vars := fun name v hv => by
        obtain ⟨d, _, _, hsym⟩ | hpre := h.lookup_top hv
        · cases d <;> simp [Decl.symbol] at hsym
        · simp [predeclared] at hpre }
  table := rfl
  typed := h.wellTyped
  members := h.table_formed hformed
  funcs name sig hsig := by
    obtain ⟨p, hp, heq⟩ := List.mem_map.1 (mem_of_lookup hsig)
    cases heq
    exact (hformed.funcs p hp).1.sig

end CollectedOk

theorem finish_formed :
    (Watch.types c.table).Ensures (finish f c) (CollectedOk f c ∧ CollectedFormed c.table c)
      fun r => ∀ t ∈ r, ∀ d ∈ t.decls, DeclFormed c.table d := by
  unfold finish
  refine ((foldAll_formed (T := c.table)).imp (fun h => h.1.inUnit h.2) fun _ _ h => h).bind
    fun _ => ?_
  refine ((declarations_formed (T := c.table)).imp (fun h => ⟨h.1.1.inUnit h.1.2, h.1.2⟩)
    fun _ _ h => h).bind fun (scopes, ts) => ?_
  dsimp only
  split
  next => exact .pure fun _ t ht => by cases ht
  next ts =>
    refine .pure fun h t ht => ?_
    obtain rfl := Option.mem_some.1 ht
    exact h.2 ts rfl

end Check

/-- The types that are recorded for a unit that passes are well-formed, and so are the types
of its members. -/
theorem File.check_formed {f : File} {limit : Option Nat} {typed : Typed.File}
    (h : f.check limit = .ok typed) (hlimit : limit ≠ some 0) :
    typed.table.Formed ∧ ∀ d ∈ typed.decls, Check.DeclFormed typed.table d := by
  obtain ⟨table, c, s, s', hpassed⟩ := File.check_passed h hlimit
  obtain ⟨hclean, hunfolded, hc⟩ := hpassed.middle
  have hvalid : s'.Valid (.types c.table) := fun name k hk => by simp [hunfolded] at hk
  have htable : typed.table = c.table := Check.finish_table hpassed.finished
  have hcollected : Check.CollectedFormed c.table c := by
    have hcollect := (Check.collect_formed (w := { duty := c.table.Meets, consts := fun _ => True })
      (T := c.table) (t := table) (f := f) (fun _ hd => hd) s).2
    rw [hpassed.collected] at hcollect
    have hupheld := Check.collect_duties hpassed.collected hclean
    exact ((hcollect ⟨hclean, hupheld⟩).2 trivial hpassed.linked).2 c rfl rfl
  have hdecls := (((Check.finish_formed (f := f) (c := c) s').2
    (Check.Passed.upheld_iff.2 hpassed.clean)).2 hvalid ⟨hc, hcollected⟩).2 typed hpassed.finished
  rw [htable]
  exact ⟨hc.table_formed hcollected, hdecls⟩

/-- The facts about a unit that passes are about well-formed types. -/
theorem File.check_factsFormed {f : File} {limit : Option Nat} {typed : Typed.File}
    (h : f.check limit = .ok typed) (hlimit : limit ≠ some 0) :
    Typed.FactsFormed typed.table typed.facts :=
  Typed.factsFormed_flatMap.2 fun d hd => ((check_formed h hlimit).2 d hd).1

/-- Filling in admitted arguments keeps types well-formed, and what they satisfy. Hence
every type that is recorded for a unit that passes is well-formed: in the facts about its
expressions and calls, in its fields, and in its signatures. -/
theorem recorded_types_formed {f : File} {limit : Option Nat} {typed : Typed.File}
    (h : f.check limit = .ok typed) (hlimit : limit ≠ some 0) :
    let t := typed.table
    (∀ (ty : Ty) (ps : List TypeParam) (as : List Ty), ty.Formed t → as.length = ps.length →
      (∀ e ∈ ps.zip as, e.2.Formed t ∧ t.Admits e.1 e.2) →
      (ty.subst ps as).Formed t ∧ ∀ b ∈ t.bounds, t.missingMethod? ty b = none →
        t.missingMethod? (ty.subst ps as) b = none) ∧
    Typed.FactsFormed t typed.facts ∧ t.Formed ∧
    ∀ g ∈ typed.funcs, g.header.sig.Formed t := by
  intro t
  have htyped : t.WellTyped := File.check_wellTyped h hlimit
  obtain ⟨htable, hdecls⟩ := File.check_formed h hlimit
  refine ⟨fun ty ps as hty hlen has => ⟨hty.subst htyped hlen has, fun b hb hsat => ?_⟩,
    File.check_factsFormed h hlimit, htable, fun g hg => ?_⟩
  · exact htyped.satisfies_subst hb hty hlen (fun e he => (has e he).2) hsat
  · obtain ⟨d, hd, heq⟩ := List.mem_filterMap.1 hg
    cases d with
    | func d =>
        obtain rfl := Option.some.inj heq
        exact (hdecls _ hd).2 _ rfl
    | _ => cases heq

/-- A text with an instance of a class whose type parameter has a bound. -/
def genericText : List UInt8 :=
  "bound N{fun m(self);} class A{fun m(self){}} class B<T:N>{} class C{y:B<A>}".toUTF8.toList

theorem genericText_formed : ∃ typed, (parseFile "t" genericText).file.check none = .ok typed ∧
    (∃ c ∈ typed.table.classes, ∃ f ∈ c.fields, f.ty = .inst "B" [.cls "A"]) ∧
    (Ty.inst "B" [.cls "A"]).Formed typed.table := by
  have hrun : (fun r : Parsed => (r.reports, (r.file.check none).toOption.map fun typed =>
      typed.table.classes.getLast?.bind fun c => c.fields.head?.map (·.ty)))
        (parseFile "t" genericText) = ([], some (some (.inst "B" [.cls "A"]))) := by
    rw [genericText, parseFile_ofList]
    decide +kernel
  obtain ⟨-, typed, hcheck, hfield⟩ := Parsed.exists_checked hrun
  simp only [Option.bind_eq_some_iff, Option.map_eq_some_iff] at hfield
  obtain ⟨c, hc, f, hf, hty⟩ := hfield
  have hc : c ∈ typed.table.classes := List.mem_of_getLast? hc
  have hf : f ∈ c.fields := List.mem_of_head? hf
  have hfields := (recorded_types_formed hcheck (by simp)).2.2.1.fields
  exact ⟨typed, hcheck, ⟨c, hc, f, hf, hty⟩, hty ▸ hfields c hc f hf⟩

end ClassLang
