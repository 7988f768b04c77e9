import ClassLang.Proofs.Typing
import ClassLang.Typed.Facts

/-!
Well-formed types: a generic class stands with one argument for each of its
parameters, and each argument satisfies the bound of its parameter. Filling in type
parameters keeps types well-formed and bounds satisfied. The case that carries the
proof is that of a parameter, which satisfies a bound only through its own.
-/

namespace ClassLang

namespace Ty

variable {ar : String → Option Nat} {ps qs : List TypeParam} {as bs : List Ty}

mutual

/-- What `identical` overlooks does not occur in a type whose plain form is made of
known parts. -/
theorem plain_eq_of_scoped : (s : Ty) → s.plain.Scoped ar ps → s.plain = s
  | .inst name args, h => by
    simp only [plain, Scoped] at h
    simp [plain, plainAll_eq_of_scoped args h.2.2]
  | .func .., h => by simp [plain, Scoped] at h
  | .int, _ | .float, _ | .bool, _ | .str, _ | .void, _ | .cls _, _ | .param _, _
  | .invalid, _ | .missing, _ => rfl

theorem plainAll_eq_of_scoped : (ss : List Ty) → ScopedAll ar ps (plainAll ss) →
    plainAll ss = ss
  | [], _ => rfl
  | s :: rest, h => by
    simp only [plainAll, ScopedAll] at h
    simp [plainAll, plain_eq_of_scoped s h.1, plainAll_eq_of_scoped rest h.2]

end

/-- In lists of the same length every element has a partner. -/
theorem exists_mem_zip {a : Ty} (hlen : as.length = ps.length) (ha : a ∈ as) :
    ∃ p, (p, a) ∈ ps.zip as := by
  obtain ⟨i, hi, rfl⟩ := List.mem_iff_getElem.1 ha
  exact ⟨ps[i], List.mem_iff_getElem.2 ⟨i, by simp; omega, by simp⟩⟩

theorem substParam_cases (ps : List TypeParam) (as : List Ty) (p : TypeParam) :
    substParam ps as p = .param p ∨ (p, substParam ps as p) ∈ ps.zip as := by
  unfold substParam
  split
  next q t hfind =>
    obtain rfl : q = p := by simpa using List.find?_some hfind
    exact .inr (List.mem_of_find?_eq_some hfind)
  next => exact .inl rfl

theorem isReference_subst {ty : Ty} (hty : ty.isReference = true)
    (has : ∀ a ∈ as, a.isReference = true) : (ty.subst ps as).isReference = true := by
  cases ty with
  | cls | inst => rfl
  | param p =>
      rcases substParam_cases ps as p with heq | hmem
      · simpa [subst, heq] using hty
      · exact has _ (List.of_mem_zip hmem).2
  | _ => simp [isReference] at hty

theorem isMissing_subst {ty : Ty} (hty : ty.isMissing = false)
    (has : ∀ a ∈ as, a.isMissing = false) : (ty.subst ps as).isMissing = false := by
  cases ty with
  | param p =>
      rcases substParam_cases ps as p with heq | hmem
      · simpa [subst, heq] using hty
      · exact has _ (List.of_mem_zip hmem).2
  | missing => simp [isMissing] at hty
  | _ => rfl

theorem isMissing_of_isReference {ty : Ty} (h : ty.isReference = true) :
    ty.isMissing = false := by
  cases ty <;> simp_all [isReference, isMissing]

end Ty

namespace Signature

variable {ar : String → Option Nat} {ps qs : List TypeParam} {as bs : List Ty}
  {s w : Signature}

theorem result_subst_of_given (hresult : s.result.isMissing = false)
    (has : ∀ a ∈ as, a.isMissing = false) :
    (s.subst ps as).result = s.result.subst ps as := by
  cases ps with
  | nil => simp [Ty.subst_nil as]
  | cons p rest => simp [subst, Ty.isMissing_subst hresult has]

/-- A signature that agrees with a closed one does so whatever else is filled into its
arguments. -/
theorem identical_subst (hs : s.Scoped ar ps) (hw : w.Scoped ar [])
    (hlen : as.length = ps.length) (has : ∀ a ∈ as, a.isMissing = false)
    (hbs : ∀ b ∈ bs, b.isMissing = false) (h : (s.subst ps as).identical w = true) :
    (s.subst ps (Ty.substAll qs bs as)).identical w = true := by
  have has' : ∀ a ∈ Ty.substAll qs bs as, a.isMissing = false := by
    intro a ha
    rw [Ty.substAll_eq_map] at ha
    obtain ⟨x, hx, rfl⟩ := List.mem_map.1 ha
    exact Ty.isMissing_subst (has x hx) hbs
  have hgiven := hs.2.isMissing
  obtain ⟨hparams, hresult⟩ := identical_iff.1 h
  rw [paramTypes_subst, ← Ty.substAll_eq_map] at hparams
  rw [result_subst_of_given hgiven has] at hresult
  have hwparams : Ty.ScopedAll ar [] w.paramTypes :=
    Ty.scopedAll_iff.2 fun t ht => (hw.1 t ht).1
  have hsparams : Ty.ScopedAll ar ps s.paramTypes :=
    Ty.scopedAll_iff.2 fun t ht => (hs.1 t ht).1
  rw [hwparams.plainAll_eq] at hparams
  rw [hw.2.plain_eq] at hresult
  -- the closed signature has no parameter, so what was filled in before is all of it
  have hparams' : Ty.substAll ps as s.paramTypes = w.paramTypes := by
    rw [← Ty.plainAll_eq_of_scoped (Ty.substAll ps as s.paramTypes) (hparams ▸ hwparams), hparams]
  have hresult' : s.result.subst ps as = w.result := by
    rw [← Ty.plain_eq_of_scoped (s.result.subst ps as) (hresult ▸ hw.2), hresult]
  rw [identical_iff, paramTypes_subst, ← Ty.substAll_eq_map, result_subst_of_given hgiven has',
    ← hsparams.substAll_substAll hlen, ← hs.2.subst_subst hlen, hparams', hresult',
    hwparams.substAll_closed, hw.2.subst_closed]
  exact ⟨rfl, rfl⟩

end Signature

namespace Ty

mutual

/-- Whether every generic class in a type has an argument for each of its parameters,
and each argument is one that the parameter admits. -/
def Formed (t : Table) : Ty → Prop
  | .inst name args => (∃ c, t.classNamed? name = some c ∧ args.length = c.tparams.length ∧
      ∀ e ∈ c.tparams.zip args, t.Admits e.1 e.2) ∧ AllFormed t args
  | .func _ params result => ParamsFormed t params ∧ result.Formed t
  | _ => True

/-- Whether all types of a list are well-formed. -/
def AllFormed (t : Table) : List Ty → Prop
  | [] => True
  | ty :: rest => ty.Formed t ∧ AllFormed t rest

/-- Whether all parameters of a function have well-formed types. -/
def ParamsFormed (t : Table) : List (String × Ty) → Prop
  | [] => True
  | (_, ty) :: rest => ty.Formed t ∧ ParamsFormed t rest

end

variable {t : Table} {ps : List TypeParam} {as : List Ty}

theorem allFormed_iff {tys : List Ty} : AllFormed t tys ↔ ∀ ty ∈ tys, ty.Formed t := by
  induction tys with
  | nil => simp [AllFormed]
  | cons ty rest ih => simp [AllFormed, ih]

theorem formed_of_isBasic {ty : Ty} (h : ty.isBasic = true) : ty.Formed t := by
  cases ty <;> simp_all [isBasic, isNumeric, isInt, isFloat, isBool, isStr, Formed]

end Ty

namespace Table

variable {t : Table} {ps : List TypeParam} {as : List Ty} {b : BoundInfo}

theorem missingMethod?_eq_none_iff {ty : Ty} : t.missingMethod? ty b = none ↔
    ∀ want ∈ b.methods, ∃ sig, t.methodSignature? ty want.name = some sig ∧
      sig.identical want.sig = true := by
  unfold missingMethod?
  rw [List.find?_eq_none]
  refine forall₂_congr fun want _ => ?_
  cases t.methodSignature? ty want.name <;> simp

/-- An argument is a reference to an object. -/
theorem Admits.isMissing {p : TypeParam} {arg : Ty} (h : t.Admits p arg) :
    arg.isMissing = false := Ty.isMissing_of_isReference h.1

/-- What satisfies the bound of a parameter satisfies all that the parameter does. -/
theorem Admits.satisfies {p : TypeParam} {arg : Ty} (h : t.Admits p arg)
    (hp : t.missingMethod? (.param p) b = none) : t.missingMethod? arg b = none := by
  rw [missingMethod?_eq_none_iff] at hp ⊢
  intro want hwant
  obtain ⟨sig, hsig, hid⟩ := hp want hwant
  obtain ⟨name, hname, own, hown, m, hm, rfl⟩ : ∃ name, p.bound = some name ∧
      ∃ own, t.boundNamed? name = some own ∧ ∃ m, own.method? want.name = some m ∧ m.sig = sig := by
    simpa [methodSignature?, Option.bind_eq_some_iff] using hsig
  have hsat := missingMethod?_eq_none_iff.1 (h.2 own (by simp [hname, hown]))
  obtain ⟨sig', hsig', hid'⟩ := hsat m (List.mem_of_find?_eq_some hm)
  have hwantName : m.name = want.name := by simpa using List.find?_some hm
  rw [hwantName] at hsig'
  exact ⟨sig', hsig', Signature.identical_trans hid' hid⟩

/-- An instance satisfies a bound with other arguments too, as the bound does not speak
of them. -/
theorem WellTyped.satisfies_inst (h : t.WellTyped) (hb : b ∈ t.bounds) {name : String}
    {args : List Ty} (hlen : ∀ c, t.classNamed? name = some c → args.length = c.tparams.length)
    (hargs : ∀ a ∈ args, a.isMissing = false) (has : ∀ a ∈ as, a.isMissing = false)
    (hsat : t.missingMethod? (.inst name args) b = none) :
    t.missingMethod? ((Ty.inst name args).subst ps as) b = none := by
  rw [missingMethod?_eq_none_iff] at hsat ⊢
  intro want hwant
  obtain ⟨sig, hsig, hid⟩ := hsat want hwant
  obtain ⟨c, hc, m, hm, rfl⟩ : ∃ c, t.classNamed? name = some c ∧ ∃ m,
      t.lookupMethod c.id want.name = some m ∧ m.sig.subst c.tparams args = sig := by
    simpa [methodSignature?, Option.bind_eq_some_iff] using hsig
  have hclass := h.linked.class?_id (List.mem_of_find?_eq_some hc)
  obtain ⟨_, hscoped, _⟩ := h.lookupMethod_scoped hclass hm
  refine ⟨m.sig.subst c.tparams (Ty.substAll ps as args), by
    simp [methodSignature?, Ty.subst, hc, hm], ?_⟩
  exact Signature.identical_subst hscoped (h.bounds b hb want hwant).1 (hlen c hc) hargs has hid

/-- A type satisfies the same bounds after type parameters have been filled in. -/
theorem WellTyped.satisfies_subst (h : t.WellTyped) (hb : b ∈ t.bounds) {ty : Ty}
    (hty : ty.Formed t) (hlen : as.length = ps.length) (has : ∀ e ∈ ps.zip as, t.Admits e.1 e.2)
    (hsat : t.missingMethod? ty b = none) : t.missingMethod? (ty.subst ps as) b = none := by
  cases ty with
  | param p =>
      rcases Ty.substParam_cases ps as p with heq | hmem
      · simpa [Ty.subst, heq] using hsat
      · exact (has _ hmem).satisfies hsat
  | inst name args =>
      obtain ⟨⟨c, hc, hcount, hadmits⟩, _⟩ := by simpa only [Ty.Formed] using hty
      refine h.satisfies_inst hb (fun c' hc' => ?_) ?_ ?_ hsat
      · obtain rfl : c = c' := Option.some.inj (hc.symm.trans hc')
        exact hcount
      · intro a ha
        obtain ⟨p, hp⟩ := Ty.exists_mem_zip hcount ha
        exact (hadmits _ hp).isMissing
      · intro a ha
        obtain ⟨p, hp⟩ := Ty.exists_mem_zip hlen ha
        exact (has _ hp).isMissing
  | _ => exact hsat

end Table

namespace Ty

variable {t : Table} {ps : List TypeParam} {as : List Ty}

mutual

/-- A type stays well-formed when admitted arguments are filled in. -/
theorem Formed.subst (h : t.WellTyped) (hlen : as.length = ps.length)
    (has : ∀ e ∈ ps.zip as, e.2.Formed t ∧ t.Admits e.1 e.2) :
    (ty : Ty) → ty.Formed t → (ty.subst ps as).Formed t
  | .param p, _ => by
    rcases substParam_cases ps as p with heq | hmem
    · simp [Ty.subst, heq, Formed]
    · exact (has _ hmem).1
  | .inst name args, hty => by
    obtain ⟨⟨c, hc, hcount, hadmits⟩, hargs⟩ := by simpa only [Formed] using hty
    have hparts := AllFormed.substAll h hlen has args hargs
    simp only [Ty.subst, Formed]
    refine ⟨⟨c, hc, by simpa using hcount, fun e he => ?_⟩, hparts⟩
    rw [substAll_eq_map, List.zip_map_right] at he
    obtain ⟨⟨p, a⟩, hmem, rfl⟩ := List.mem_map.1 he
    obtain ⟨href, hbound⟩ := hadmits _ hmem
    refine ⟨isReference_subst href fun x hx => ?_, fun b hb => ?_⟩
    · obtain ⟨q, hq⟩ := exists_mem_zip hlen hx
      exact (has _ hq).2.1
    · obtain ⟨bound, _, hfound⟩ := Option.bind_eq_some_iff.1 hb
      exact h.satisfies_subst (List.mem_of_find?_eq_some hfound)
        (allFormed_iff.1 hargs a (List.of_mem_zip hmem).2) hlen (fun e he => (has e he).2)
        (hbound b hb)
  | .func .., hty => hty
  | .int, _ | .float, _ | .bool, _ | .str, _ | .void, _ | .cls _, _ | .invalid, _
  | .missing, _ => by simp [Ty.subst, Formed]

theorem AllFormed.substAll (h : t.WellTyped) (hlen : as.length = ps.length)
    (has : ∀ e ∈ ps.zip as, e.2.Formed t ∧ t.Admits e.1 e.2) :
    (tys : List Ty) → AllFormed t tys → AllFormed t (Ty.substAll ps as tys)
  | [], _ => by simp [Ty.substAll, AllFormed]
  | ty :: rest, htys => by
    simp only [AllFormed] at htys
    simpa [Ty.substAll, AllFormed] using
      ⟨Formed.subst h hlen has ty htys.1, AllFormed.substAll h hlen has rest htys.2⟩

end

end Ty

namespace Ty

variable {t : Table} {c : ClassInfo}

/-- The arguments of a well-formed instance, beside the parameters of its class. -/
theorem Formed.args {name : String} {args : List Ty} (h : (Ty.inst name args).Formed t)
    (hc : t.classNamed? name = some c) : args.length = c.tparams.length ∧
      ∀ e ∈ c.tparams.zip args, e.2.Formed t ∧ t.Admits e.1 e.2 := by
  obtain ⟨⟨d, hd, hlen, hadmits⟩, hargs⟩ := by simpa only [Formed] using h
  obtain rfl : d = c := Option.some.inj (hd.symm.trans hc)
  exact ⟨hlen, fun e he => ⟨allFormed_iff.1 hargs e.2 (List.of_mem_zip he).2, hadmits e he⟩⟩

end Ty

/-! Signatures and members -/

namespace Signature

variable {t : Table} {s : Signature} {ps : List TypeParam} {as : List Ty}

/-- The types that a signature is made of. -/
def types (s : Signature) : List Ty := s.paramTypes ++ [s.result]

/-- Whether a signature is made of well-formed types. -/
def Formed (t : Table) (s : Signature) : Prop := ∀ ty ∈ s.types, ty.Formed t

theorem formed_iff : s.Formed t ↔ (∀ ty ∈ s.paramTypes, ty.Formed t) ∧ s.result.Formed t := by
  simp [Formed, types, or_imp, forall_and]

theorem Formed.subst (h : t.WellTyped) (hlen : as.length = ps.length)
    (has : ∀ e ∈ ps.zip as, e.2.Formed t ∧ t.Admits e.1 e.2) (hs : s.Formed t) :
    (s.subst ps as).Formed t := by
  obtain ⟨hparams, hresult⟩ := formed_iff.1 hs
  refine formed_iff.2 ⟨fun ty hty => ?_, ?_⟩
  · rw [paramTypes_subst] at hty
    obtain ⟨u, hu, rfl⟩ := List.mem_map.1 hty
    exact (hparams u hu).subst h hlen has
  · unfold Signature.subst
    dsimp only
    split
    next => exact hresult
    next =>
      split
      next => simp [Ty.Formed]
      next => exact hresult.subst h hlen has

end Signature

namespace Table

variable {t : Table} {c : ClassInfo} {ty : Ty}

/-- All members of a table have well-formed types. -/
structure Formed (t : Table) : Prop where
  fields : ∀ c ∈ t.classes, ∀ f ∈ c.fields, f.ty.Formed t
  methods : ∀ c ∈ t.classes, ∀ m ∈ c.methods, m.sig.Formed t
  bounds : ∀ b ∈ t.bounds, ∀ m ∈ b.methods, m.sig.Formed t

theorem mem_of_mem_chainClasses {i : Nat} (h : c ∈ t.chainClasses i) : c ∈ t.classes := by
  obtain ⟨j, _, hj⟩ := List.mem_filterMap.1 h
  exact List.mem_of_getElem? hj

theorem Formed.lookupMethod (h : t.Formed) {i : Nat} {name : String} {m : Method}
    (hm : t.lookupMethod i name = some m) : m.sig.Formed t := by
  obtain ⟨c, hc, hown⟩ := List.exists_of_findSome?_eq_some hm
  exact h.methods c (mem_of_mem_chainClasses hc) m (method?_mem hown).1

theorem Formed.flatFields (h : t.Formed) {i : Nat} {f : Field} (hf : f ∈ t.flatFields i) :
    f.ty.Formed t := by
  obtain ⟨c, hc, hown⟩ := List.mem_flatMap.1 hf
  exact h.fields c (mem_of_mem_chainClasses (List.mem_reverse.1 hc)) f hown

/-- A type parameter is an argument for itself. -/
theorem admits_param (hnodup : ∀ b ∈ t.bounds, (b.methods.map (·.name)).Nodup) (p : TypeParam) :
    t.Admits p (.param p) := by
  refine ⟨rfl, fun b hb => missingMethod?_eq_none_iff.2 fun want hwant => ?_⟩
  obtain ⟨name, hname, hfound⟩ := Option.bind_eq_some_iff.1 hb
  have hmem := List.mem_of_find?_eq_some hfound
  obtain ⟨own, hown⟩ : ∃ own, b.method? want.name = some own :=
    Option.isSome_iff_exists.1 (List.find?_isSome.2 ⟨want, hwant, by simp⟩)
  have hsame : own.name = want.name := by simpa using List.find?_some hown
  obtain rfl := List.inj_on_of_nodup_map (hnodup b hmem) (List.mem_of_find?_eq_some hown) hwant hsame
  exact ⟨own.sig, by simp [methodSignature?, hname, hfound, hown], Signature.identical_refl _⟩

theorem selfType_formed (hnodup : ∀ b ∈ t.bounds, (b.methods.map (·.name)).Nodup)
    (hc : (t.classNamed? c.name).map (·.tparams) = some c.tparams) :
    (Check.selfType c).Formed t := by
  unfold Check.selfType
  split
  next =>
    obtain ⟨d, hd, htparams⟩ := Option.map_eq_some_iff.1 hc
    simp only [Ty.Formed]
    refine ⟨⟨d, hd, by simp [htparams], fun e he => ?_⟩, Ty.allFormed_iff.2 fun a ha => ?_⟩
    · obtain ⟨i, hi, rfl⟩ := List.mem_iff_getElem.1 he
      simpa [htparams] using admits_param hnodup _
    · obtain ⟨p, _, rfl⟩ := List.mem_map.1 ha
      simp [Ty.Formed]
  next => simp [Ty.Formed]

end Table

/-! Facts -/

namespace Typed

variable {t : Table}

/-- The types that a fact records. -/
def Fact.types : Fact → List Ty
  | .expr _ _ ty _ _ => [ty]
  | .name .. => []
  | .call _ _ _ recv targs sig => recv.toList ++ targs ++ sig.types
  | .init _ ty _ => [ty]

@[simp] theorem Fact.types_expr {pos : Pos} {text : String} {ty : Ty} {mode : Mode}
    {value : Option Constant} : (Fact.expr pos text ty mode value).types = [ty] := rfl

@[simp] theorem Fact.types_call {text callee : String} {kind : CallKind} {recv : Option Ty}
    {targs : List Ty} {sig : Signature} : (Fact.call text kind callee recv targs sig).types =
      recv.toList ++ targs ++ sig.types := rfl

@[simp] theorem Fact.types_init {cls : String} {ty : Ty} {values : List (Field × String)} :
    (Fact.init cls ty values).types = [ty] := rfl

@[simp] theorem Fact.types_use {id : Ident} {sym : Symbol} : (Fact.use id sym).types = [] := rfl

@[simp] theorem Fact.types_define {id : Ident} {sym : Symbol} :
    (Fact.define id sym).types = [] := rfl

/-- Whether several facts record well-formed types only. -/
def FactsFormed (t : Table) (facts : List Fact) : Prop :=
  ∀ x ∈ facts, ∀ ty ∈ x.types, ty.Formed t

@[simp] theorem factsFormed_nil : FactsFormed t [] := by simp [FactsFormed]

@[simp] theorem factsFormed_cons {x : Fact} {facts : List Fact} :
    FactsFormed t (x :: facts) ↔ (∀ ty ∈ x.types, ty.Formed t) ∧ FactsFormed t facts := by
  simp [FactsFormed]

@[simp] theorem factsFormed_append {xs ys : List Fact} :
    FactsFormed t (xs ++ ys) ↔ FactsFormed t xs ∧ FactsFormed t ys := by
  simp [FactsFormed, or_imp, forall_and]

theorem factsFormed_flatMap {α : Type} {xs : List α} {g : α → List Fact} :
    FactsFormed t (xs.flatMap g) ↔ ∀ x ∈ xs, FactsFormed t (g x) := by
  simp only [FactsFormed, List.mem_flatMap]
  exact ⟨fun h x hx fact hfact => h fact ⟨x, hx, hfact⟩,
    fun h fact ⟨x, hx, hfact⟩ => h x hx fact hfact⟩

theorem TypeTerm.ty_formed {term : TypeTerm} (h : FactsFormed t term.facts) :
    term.ty.Formed t := by
  cases term <;> simp_all [TypeTerm.facts, TypeTerm.ty]

theorem Expr.ty_formed {e : Expr} (h : FactsFormed t e.facts) : e.ty.Formed t := by
  cases e <;> simp_all [Expr.facts, Expr.typing, Expr.ty]

end Typed

end ClassLang
