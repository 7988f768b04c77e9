import ClassLang.Proofs.Check.Unit
import ClassLang.Proofs.Formed.Type

/-!
Type arguments that are found from operands are right, and the only ones. What unification
overlooks, namely a parameter and an argument of different shapes, is found when the operands
are assigned.
-/

namespace ClassLang

namespace Ty

/-! Parameters that a type mentions -/

mutual

/-- The type parameters that a type mentions. -/
def mentioned : Ty → List TypeParam
  | .param p => [p]
  | .inst _ args => mentionedAll args
  | _ => []

/-- The type parameters that the types of a list mention. -/
def mentionedAll : List Ty → List TypeParam
  | [] => []
  | t :: rest => t.mentioned ++ mentionedAll rest

end

variable {ps : List TypeParam} {as bs : List Ty} {s t u : Ty}

theorem substParam_notMem {p : TypeParam} (h : p ∉ ps) : substParam ps as p = .param p := by
  rcases substParam_cases ps as p with heq | hmem
  · exact heq
  · exact absurd (List.of_mem_zip hmem).1 h

mutual

/-- A type that mentions none of the parameters stays as it is. -/
theorem subst_of_notMem : (t : Ty) → (∀ p ∈ t.mentioned, p ∉ ps) → t.subst ps as = t
  | .param p, h => by
    rw [subst]
    exact substParam_notMem (h p (List.mem_singleton_self p))
  | .inst name args, h => by
    rw [subst, substAll_of_notMem args h]
  | .invalid, _ | .int, _ | .float, _ | .bool, _ | .str, _ | .void, _ | .cls _, _
  | .func .., _ | .missing, _ => rfl

theorem substAll_of_notMem : (ts : List Ty) → (∀ p ∈ mentionedAll ts, p ∉ ps) →
    substAll ps as ts = ts
  | [], _ => rfl
  | t :: rest, h => by
    rw [substAll, subst_of_notMem t fun p hp => h p (List.mem_append_left _ hp),
      substAll_of_notMem rest fun p hp => h p (List.mem_append_right _ hp)]

end

theorem isReference_plain (t : Ty) : t.plain.isReference = t.isReference := by
  cases t <;> rfl

theorem isReference_of_identical (h : s.identical t = true) : s.isReference = t.isReference := by
  rw [← isReference_plain s, (identical_iff s t).1 h, isReference_plain]

/-! Identical arguments -/

theorem substParam_plain (ps : List TypeParam) (as : List Ty) (p : TypeParam) :
    (substParam ps as p).plain = substParam ps (plainAll as) p := by
  have hplain : plainAll as = as.map plain := by
    induction as with
    | nil => rfl
    | cons a rest ih => rw [plainAll, List.map_cons, ih]
  unfold substParam
  rw [hplain, List.zip_map_right, List.find?_map]
  simp only [Function.comp_def, Prod.map_fst, id]
  cases (ps.zip as).find? fun e => e.1 = p <;> rfl

mutual

theorem plain_subst (ps : List TypeParam) (as : List Ty) : (t : Ty) →
    (t.subst ps as).plain = t.plain.subst ps (plainAll as)
  | .param p => substParam_plain ps as p
  | .inst name args => by
    rw [subst, plain, plain, subst, plainAll_substAll]
  | .invalid | .int | .float | .bool | .str | .void | .cls _ | .func .. | .missing => rfl

theorem plainAll_substAll (ps : List TypeParam) (as : List Ty) : (ts : List Ty) →
    plainAll (substAll ps as ts) = substAll ps (plainAll as) (plainAll ts)
  | [] => rfl
  | t :: rest => by
    rw [substAll, plainAll, plainAll, substAll, plain_subst, plainAll_substAll]

end

/-- Identical arguments give identical types. -/
theorem subst_identical (ps : List TypeParam) (h : identicalAll as bs = true) (t : Ty) :
    (t.subst ps as).identical (t.subst ps bs) = true := by
  rw [identical_iff, plain_subst, plain_subst, (identicalAll_iff as bs).1 h]

theorem identicalAll_of_getElem? (hlen : as.length = bs.length)
    (h : ∀ (i : Nat) (a : Ty), as[i]? = some a → ∃ b, bs[i]? = some b ∧ a.identical b = true) :
    identicalAll as bs = true := by
  induction as generalizing bs with
  | nil =>
      obtain rfl := List.length_eq_zero_iff.1 hlen.symm
      rfl
  | cons a as ih =>
      cases bs with
      | nil => cases hlen
      | cons b bs =>
          obtain ⟨_, hb, hsame⟩ := h 0 a rfl
          obtain rfl := Option.some.inj hb
          rw [identicalAll, hsame, ih (Nat.succ.inj hlen) fun i => h (i + 1)]
          rfl

theorem isMissing_plain (t : Ty) : t.plain.isMissing = t.isMissing := by
  cases t <;> rfl

end Ty

namespace Signature

theorem subst_identical {as bs : List Ty} (ps : List TypeParam)
    (h : Ty.identicalAll as bs = true) (s : Signature) :
    (s.subst ps as).identical (s.subst ps bs) = true := by
  cases ps with
  | nil => rw [subst_nil, subst_nil, identical_refl]
  | cons p rest =>
      have hplain := (Ty.identicalAll_iff as bs).1 h
      rw [identical_iff, paramTypes_subst, paramTypes_subst, ← Ty.substAll_eq_map,
        ← Ty.substAll_eq_map, Ty.plainAll_substAll, Ty.plainAll_substAll, hplain]
      refine ⟨rfl, ?_⟩
      have hresult := (Ty.identical_iff _ _).1 (Ty.subst_identical (p :: rest) h s.result)
      have hmissing : (s.result.subst (p :: rest) as).isMissing =
          (s.result.subst (p :: rest) bs).isMissing := by
        rw [← Ty.isMissing_plain, hresult, Ty.isMissing_plain]
      simp only [subst, List.isEmpty_cons, Bool.false_eq_true, if_false, hmissing]
      split
      · rfl
      · exact hresult

/-- Which of two identical signatures is compared does not matter. -/
theorem identical_congr {s t : Signature} (h : s.identical t = true) (u : Signature) :
    s.identical u = t.identical u := by
  have hiff := identical_iff.1 h
  rw [Bool.eq_iff_iff, identical_iff, identical_iff, hiff.1, hiff.2]

end Signature

namespace Table

/-- Identical types lack the same method of a bound. -/
theorem missingMethod?_identical (t : Table) {a b : Ty} (h : a.identical b = true)
    (info : BoundInfo) : t.missingMethod? a info = t.missingMethod? b info := by
  cases a <;> cases b <;> simp only [Ty.identical, Bool.false_eq_true, Bool.and_eq_true,
    decide_eq_true_eq] at h
  case cls.cls => rw [h]
  case param.param => rw [h]
  case inst.inst c as d bs =>
    obtain ⟨rfl, hargs⟩ := h
    unfold missingMethod?
    congr 1
    funext want
    simp only [methodSignature?]
    cases hc : t.classNamed? c with
    | none => rfl
    | some k =>
        cases hm : t.lookupMethod k.id want.name with
        | none => simp [hm]
        | some m =>
            simp only [hm, Option.bind_eq_bind, Option.bind_some, Option.pure_def]
            rw [Signature.identical_congr (Signature.subst_identical k.tparams hargs m.sig)]
  all_goals rfl

/-- Identical types are admitted alike. -/
theorem Admits.of_identical {t : Table} {p : TypeParam} {a b : Ty} (h : t.Admits p a)
    (heq : b.identical a = true) : t.Admits p b :=
  ⟨(Ty.isReference_of_identical heq).trans h.1, fun info hinfo =>
    (t.missingMethod?_identical heq info).trans (h.2 info hinfo)⟩

end Table

namespace Check

variable {env : Env} {t : Table} {ps : List TypeParam} {found found' : List (Option Ty)}

/-! What unification finds -/

/-- What was found stays. -/
structure Grows (found found' : List (Option Ty)) : Prop where
  length : found'.length = found.length
  keeps : ∀ (i : Nat) (t : Ty), found[i]? = some (some t) → found'[i]? = some (some t)

namespace Grows

variable {found'' : List (Option Ty)}

theorem refl (found : List (Option Ty)) : Grows found found := ⟨rfl, fun _ _ h => h⟩

theorem trans (h : Grows found found') (h' : Grows found' found'') : Grows found found'' :=
  ⟨h'.length.trans h.length, fun i t ht => h'.keeps i t (h.keeps i t ht)⟩

theorem set {i : Nat} (h : found.getD i none = none) (t : Ty) :
    Grows found (found.set i (some t)) := by
  refine ⟨List.length_set, fun j u hu => ?_⟩
  rw [List.getElem?_set]
  split
  next heq =>
    subst heq
    rw [List.getD_eq_getElem?_getD, hu] at h
    cases h
  next => exact hu

end Grows

theorem unify_param {p : TypeParam} (arg : Ty) (hp : ps[p.index]? = some p) :
    unify ps found (.param p) arg = match found.getD p.index none with
      | none => .ok (found.set p.index (some arg))
      | some old => if old.identical arg then .ok found else .error (p, old) := by
  rw [unify]
  exact if_pos hp

mutual

theorem unify_grows : (t arg : Ty) → {found found' : List (Option Ty)} →
    unify ps found t arg = .ok found' → Grows found found'
  | .param p, arg, found, found', h => by
    simp only [unify] at h
    split at h
    · split at h
      next hnone =>
        cases h
        exact .set hnone arg
      next =>
        split at h
        · cases h
          exact .refl _
        · cases h
    · cases h
      exact .refl _
  | .inst c as, arg, found, found', h => by
    cases arg with
    | inst d bs =>
        simp only [unify] at h
        split at h
        · exact unifyAll_grows as bs h
        · cases h
          exact .refl _
    | _ =>
        simp only [unify] at h
        cases h
        exact .refl _
  | .int, _, _, _, h | .float, _, _, _, h | .bool, _, _, _, h | .str, _, _, _, h
  | .void, _, _, _, h | .cls _, _, _, _, h | .invalid, _, _, _, h | .missing, _, _, _, h
  | .func .., _, _, _, h => by
    simp only [unify] at h
    cases h
    exact .refl _

theorem unifyAll_grows : (as bs : List Ty) → {found found' : List (Option Ty)} →
    unifyAll ps found as bs = .ok found' → Grows found found'
  | [], _, _, _, h | _ :: _, [], _, _, h => by
    simp only [unifyAll] at h
    cases h
    exact .refl _
  | a :: as, b :: bs, found, found', h => by
    simp only [unifyAll] at h
    cases hu : unify ps found a b with
    | error e => simp [hu, bind, Except.bind] at h
    | ok mid =>
        simp only [hu, bind, Except.bind] at h
        exact (unify_grows a b hu).trans (unifyAll_grows as bs h)

end

/-- A parameter that is a type parameter itself has the type argument for its operand. -/
theorem unifyOperands_found {types : List Ty} {xs : List Operand}
    (hlen : found.length = ps.length) (h : unifyOperands ps found types xs = .ok found') :
    Grows found found' ∧ ∀ e ∈ types.zip xs, ∀ p, e.1 = .param p → ps[p.index]? = some p →
      ∃ t, found'[p.index]? = some (some t) ∧ t.identical e.2.ty = true := by
  induction types generalizing xs found with
  | nil =>
      simp only [unifyOperands] at h
      cases h
      exact ⟨.refl _, by simp⟩
  | cons t rest ih =>
      cases xs with
      | nil =>
          simp only [unifyOperands] at h
          cases h
          exact ⟨.refl _, by simp⟩
      | cons x xs =>
          simp only [unifyOperands] at h
          split at h
          next mid hu =>
            have hgrows := unify_grows t x.ty hu
            obtain ⟨hrest, hfound⟩ := ih (hgrows.length.trans hlen) h
            refine ⟨hgrows.trans hrest, List.forall_mem_cons.2 ⟨fun p hp hindex => ?_, hfound⟩⟩
            obtain rfl : t = .param p := hp
            rw [unify_param _ hindex] at hu
            split at hu
            · cases hu
              have hlt : p.index < found.length := by
                rw [hlen]
                exact (List.getElem?_eq_some_iff.1 hindex).1
              exact ⟨x.ty, hrest.keeps _ _ (by rw [List.getElem?_set_self hlt]),
                Ty.identical_refl _⟩
            next old hold =>
              split at hu
              next hidentical =>
                cases hu
                refine ⟨old, hrest.keeps _ _ ?_, hidentical⟩
                rw [List.getD_eq_getElem?_getD] at hold
                cases hget : found[p.index]? with
                | none => simp [hget] at hold
                | some y => simpa [hget] using hold
              · cases hu
          next => cases h

/-! What unification cannot miss -/

/-- What was found agrees with the type arguments `args`. -/
def AgreesWith (args : List Ty) (found : List (Option Ty)) : Prop :=
  ∀ (i : Nat) (t : Ty), found[i]? = some (some t) → ∃ a, args[i]? = some a ∧ t.identical a = true

/-- All of the parameters have an argument. -/
def Finds (ps mentioned : List TypeParam) (found : List (Option Ty)) : Prop :=
  ∀ p ∈ mentioned, ps[p.index]? = some p → ∃ t, found[p.index]? = some (some t)

theorem Finds.grow {mentioned : List TypeParam} (h : Finds ps mentioned found)
    (hgrows : Grows found found') : Finds ps mentioned found' := by
  intro p hp hindex
  obtain ⟨t, ht⟩ := h p hp hindex
  exact ⟨t, hgrows.keeps _ _ ht⟩

theorem substParam_indexed {args : List Ty} (hps : Indexed ps) (hlen : args.length = ps.length)
    {p : TypeParam} (hp : ps[p.index]? = some p) :
    args[p.index]? = some (Ty.substParam ps args p) := by
  obtain ⟨t, _, heq, hmem⟩ := Ty.substParam_mem (List.mem_of_getElem? hp) hlen
  obtain ⟨i, hi⟩ := List.mem_iff_getElem?.1 hmem
  obtain ⟨hi, hi'⟩ := List.getElem?_zip_eq_some.1 hi
  rw [hps i p hi, hi', heq]

section

variable {args : List Ty}

/-- A type parameter finds its argument. -/
theorem unify_param_finds (hps : Indexed ps) (hargs : args.length = ps.length) {p : TypeParam}
    {arg : Ty} (hindex : ps[p.index]? = some p) (hlen : found.length = ps.length)
    (h : AgreesWith args found) (harg : arg.identical (Ty.substParam ps args p) = true) :
    ∃ found', unify ps found (.param p) arg = .ok found' ∧ AgreesWith args found' ∧
      Finds ps [p] found' := by
  have hp := substParam_indexed hps hargs hindex
  have hlt : p.index < found.length := by
    rw [hlen]
    exact (List.getElem?_eq_some_iff.1 hindex).1
  have hfinds : ∀ {found' : List (Option Ty)} {t : Ty}, found'[p.index]? = some (some t) →
      Finds ps [p] found' := by
    intro found' t ht q hq _
    obtain rfl := List.mem_singleton.1 hq
    exact ⟨t, ht⟩
  rw [unify_param arg hindex]
  cases hold : found.getD p.index none with
  | none =>
      have hnew : (found.set p.index (some arg))[p.index]? = some (some arg) :=
        List.getElem?_set_self hlt
      refine ⟨_, rfl, fun i t ht => ?_, hfinds hnew⟩
      rw [List.getElem?_set] at ht
      split at ht
      next heq =>
        subst heq
        cases ht
        exact ⟨_, hp, harg⟩
      next => exact h i t ht
  | some old =>
      have hget : found[p.index]? = some (some old) := by
        rw [List.getD_eq_getElem?_getD] at hold
        cases hget : found[p.index]? with
        | none => simp [hget] at hold
        | some y => simpa [hget] using hold
      obtain ⟨a, ha, hsame⟩ := h _ _ hget
      obtain rfl := Option.some.inj (hp.symm.trans ha)
      exact ⟨found, if_pos (Ty.identical_trans hsame (Ty.identical_symm harg)), h, hfinds hget⟩

mutual

/-- Unification finds the type arguments that an operand agrees with. -/
theorem unify_finds (hps : Indexed ps) (hargs : args.length = ps.length) : (t arg : Ty) →
    {found : List (Option Ty)} → found.length = ps.length → AgreesWith args found →
      arg.identical (t.subst ps args) = true →
      ∃ found', unify ps found t arg = .ok found' ∧ AgreesWith args found' ∧
        Finds ps t.mentioned found'
  | .param p, arg, found, hlen, h, harg => by
    by_cases hindex : ps[p.index]? = some p
    · exact unify_param_finds hps hargs hindex hlen h harg
    · refine ⟨found, by rw [unify, if_neg hindex], h, fun q hq hq' => ?_⟩
      obtain rfl := List.mem_singleton.1 hq
      exact absurd hq' hindex
  | .inst c as, arg, found, hlen, h, harg => by
    cases arg with
    | inst d bs =>
        simp only [Ty.subst, Ty.identical, Bool.and_eq_true, decide_eq_true_eq] at harg
        obtain ⟨rfl, hbs⟩ := harg
        simp only [unify, if_true]
        exact unifyAll_finds hps hargs as bs hlen h hbs
    | _ => simp [Ty.subst, Ty.identical] at harg
  | .int, _, found, _, h, _ | .float, _, found, _, h, _ | .bool, _, found, _, h, _
  | .str, _, found, _, h, _ | .void, _, found, _, h, _ | .cls _, _, found, _, h, _
  | .invalid, _, found, _, h, _ | .missing, _, found, _, h, _ | .func .., _, found, _, h, _ =>
    ⟨found, by simp only [unify], h, fun _ hq => absurd hq List.not_mem_nil⟩

theorem unifyAll_finds (hps : Indexed ps) (hargs : args.length = ps.length) :
    (as bs : List Ty) → {found : List (Option Ty)} → found.length = ps.length →
      AgreesWith args found → Ty.identicalAll bs (Ty.substAll ps args as) = true →
        ∃ found', unifyAll ps found as bs = .ok found' ∧ AgreesWith args found' ∧
          Finds ps (Ty.mentionedAll as) found'
  | [], _, found, _, h, _ =>
    ⟨found, by simp only [unifyAll], h, fun _ hq => absurd hq List.not_mem_nil⟩
  | a :: as, bs, found, hlen, h, hbs => by
    cases bs with
    | nil => simp [Ty.substAll, Ty.identicalAll] at hbs
    | cons b bs =>
        simp only [Ty.substAll, Ty.identicalAll, Bool.and_eq_true] at hbs
        obtain ⟨mid, hmid, hagrees, hfinds⟩ :=
          unify_finds hps hargs a b hlen h hbs.1
        have hlen' := (unify_grows a b hmid).length.trans hlen
        obtain ⟨found', hfound', hagrees', hfinds'⟩ :=
          unifyAll_finds hps hargs as bs hlen' hagrees hbs.2
        refine ⟨found', ?_, hagrees', fun p hp hindex => ?_⟩
        · simp only [unifyAll, hmid, bind, Except.bind]
          exact hfound'
        · rcases List.mem_append.1 hp with hp | hp
          · exact hfinds.grow (unifyAll_grows as bs hfound') p hp hindex
          · exact hfinds' p hp hindex

end

end

mutual

/-- A type that mentions none of the parameters takes part in no unification. -/
theorem unify_of_notMem : (t arg : Ty) → (∀ p ∈ t.mentioned, p ∉ ps) →
    unify ps found t arg = .ok found
  | .param p, arg, h => by
    have hindex : ps[p.index]? ≠ some p :=
      fun hindex => h p (List.mem_singleton_self p) (List.mem_of_getElem? hindex)
    rw [unify, if_neg hindex]
  | .inst c as, arg, h => by
    cases arg with
    | inst d bs =>
        simp only [unify]
        split
        · exact unifyAll_of_notMem as bs h
        · rfl
    | _ => simp only [unify]
  | .int, _, _ | .float, _, _ | .bool, _, _ | .str, _, _ | .void, _, _ | .cls _, _, _
  | .invalid, _, _ | .missing, _, _ | .func .., _, _ => by simp only [unify]

theorem unifyAll_of_notMem : (as bs : List Ty) → (∀ p ∈ Ty.mentionedAll as, p ∉ ps) →
    unifyAll ps found as bs = .ok found
  | [], _, _ | _ :: _, [], _ => by simp only [unifyAll]
  | a :: as, b :: bs, h => by
    have ha := unify_of_notMem a b fun p hp => h p (List.mem_append_left _ hp)
    have has := unifyAll_of_notMem as bs fun p hp => h p (List.mem_append_right _ hp)
    simp only [unifyAll, ha, bind, Except.bind, has]

end

/-! Type arguments that make the operands fit -/

/-- An operand of type `arg` fits a parameter of type `param` if the type parameters `ps` stand
for `targs`: where one of them is mentioned the types are the same, and elsewhere the operand
can be assigned. -/
structure Matches (t : Table) (ps : List TypeParam) (targs : List Ty) (param arg : Ty) :
    Prop where
  same : (∃ p ∈ ps, p ∈ param.mentioned) → arg.identical (param.subst ps targs) = true
  assignable : (∀ p ∈ ps, p ∉ param.mentioned) → Assignable t arg param

/-- The type arguments `targs` are admitted, and make operands of types `args` fit parameters
of types `params`. -/
structure Instantiates (t : Table) (ps : List TypeParam) (targs params args : List Ty) :
    Prop where
  length : targs.length = ps.length
  admits : ∀ e ∈ ps.zip targs, t.Admits e.1 e.2
  fits : ∀ e ∈ params.zip args, Matches t ps targs e.1 e.2

section

variable {targs : List Ty} {types : List Ty} {xs : List Operand}

/-- Unification of all operands finds the type arguments that they fit. -/
theorem unifyOperands_finds (hps : Indexed ps) (htargs : targs.length = ps.length)
    (hlen : found.length = ps.length) (hagrees : AgreesWith targs found)
    (hxs : xs.length = types.length)
    (h : ∀ e ∈ types.zip (xs.map (·.ty)), Matches t ps targs e.1 e.2) :
    ∃ found', unifyOperands ps found types xs = .ok found' ∧ AgreesWith targs found' ∧
      ∀ param ∈ types, Finds ps param.mentioned found' := by
  induction types generalizing xs found with
  | nil => exact ⟨found, rfl, hagrees, by simp⟩
  | cons param rest ih =>
      cases xs with
      | nil => cases hxs
      | cons x xs =>
          obtain ⟨hfirst, hrest⟩ := List.forall_mem_cons.1 h
          obtain ⟨mid, hmid, hagrees', hfinds⟩ : ∃ mid, unify ps found param x.ty = .ok mid ∧
              AgreesWith targs mid ∧ Finds ps param.mentioned mid := by
            by_cases hmention : ∃ p ∈ ps, p ∈ param.mentioned
            · exact unify_finds hps htargs param x.ty hlen hagrees (hfirst.same hmention)
            · have hnone : ∀ p ∈ param.mentioned, p ∉ ps :=
                fun p hp hmem => hmention ⟨p, hmem, hp⟩
              exact ⟨found, unify_of_notMem param x.ty hnone, hagrees,
                fun p hp hindex => absurd (List.mem_of_getElem? hindex) (hnone p hp)⟩
          have hlen' := (unify_grows param x.ty hmid).length.trans hlen
          obtain ⟨found', hfound', hagrees'', hall⟩ := ih hlen' hagrees' (Nat.succ.inj hxs) hrest
          refine ⟨found', by simp only [unifyOperands, hmid, hfound'], hagrees'',
            List.forall_mem_cons.2 ⟨hfinds.grow ?_, hall⟩⟩
          exact (unifyOperands_found hlen' hfound').1

end

/-! Runs of the checker -/

theorem satisfies_gives {pos : Pos} {ty : Ty} {b : String} :
    Gives (satisfies t pos ty b) fun ok => ok = true →
      ∀ info, t.boundNamed? b = some info → t.missingMethod? ty info = none := by
  unfold satisfies
  split
  next hnone => exact .pure fun _ info hinfo => by cases hnone.symm.trans hinfo
  next info hinfo =>
    split
    next hmissing =>
      refine .pure fun _ info' hinfo' => ?_
      obtain rfl := Option.some.inj (hinfo.symm.trans hinfo')
      exact hmissing
    next =>
      split
      · exact (Gives.trivial _).bind fun _ _ => .pure (by simp)
      · exact (Gives.trivial _).bind fun _ _ => .pure (by simp)

/-- Type arguments that pass are admitted. -/
theorem typeArgs_gives (henv : env.collecting = false) {pos : Pos}
    {list : List (TypeParam × Ty)} : Gives (typeArgs env pos list) fun ok => ok = true →
      ∀ e ∈ list, env.table.Admits e.1 e.2 := by
  induction list with
  | nil => exact .pure fun _ => by simp
  | cons e rest ih =>
      obtain ⟨p, arg⟩ := e
      have hone : Gives (typeArg env pos p arg) fun ok => ok = true →
          env.table.Admits p arg := by
        unfold typeArg
        split
        next => exact (Gives.trivial _).bind fun _ _ => .pure (by simp)
        next href =>
          have href : arg.isReference = true := by simpa using href
          split
          next hbound => exact .pure fun _ => ⟨href, by simp [hbound]⟩
          next b hb =>
            rw [henv]
            refine satisfies_gives.imp fun ok hok htrue => ⟨href, fun info hinfo => ?_⟩
            rw [hb] at hinfo
            exact hok htrue info hinfo
      unfold typeArgs
      refine hone.bind fun ok hok => ih.bind fun others hothers => .pure fun hboth => ?_
      obtain ⟨rfl, rfl⟩ : ok = true ∧ others = true := by simpa using hboth
      exact List.forall_mem_cons.2 ⟨hok rfl, hothers rfl⟩

/-- Type arguments that are admitted pass without an error. -/
theorem run_typeArgs (henv : env.collecting = false) {pos : Pos} {list : List (TypeParam × Ty)}
    (h : ∀ e ∈ list, env.table.Admits e.1 e.2) (s : Session) :
    (typeArgs env pos list).run s = (true, s) := by
  induction list with
  | nil => rfl
  | cons e rest ih =>
      obtain ⟨p, arg⟩ := e
      obtain ⟨⟨href, hbound⟩, hrest⟩ := List.forall_mem_cons.1 h
      have hone : (typeArg env pos p arg).run s = (true, s) := by
        unfold typeArg
        rw [if_neg (by simp [href])]
        cases hb : p.bound with
        | none => rfl
        | some b =>
            dsimp only
            rw [henv, if_neg Bool.false_ne_true]
            unfold satisfies
            cases hinfo : env.table.boundNamed? b with
            | none => rfl
            | some info =>
                have hmissing := hbound info (by rw [hb]; exact hinfo)
                dsimp only
                rw [hmissing]
                rfl
      have hall : (typeArgs env pos ((p, arg) :: rest)).run s =
          ((((typeArg env pos p arg).run s).1 &&
            ((typeArgs env pos rest).run ((typeArg env pos p arg).run s).2).1,
            ((typeArgs env pos rest).run ((typeArg env pos p arg).run s).2).2)) := rfl
      rw [hall, hone, ih hrest]
      rfl

/-- An operand that can be assigned passes without an error. -/
theorem run_assignable {x : Operand} {target : Ty} {purpose : String}
    (h : Assignable t x.ty target) (htarget : target.isInvalid = false) (s : Session) :
    (assignable t x target purpose).run s = (true, s) := by
  have hvalue : (hasValue x).run s = (true, s) := by
    unfold hasValue
    rw [if_neg (by simp [h.1])]
    rfl
  unfold assignable
  rw [Watch.Ensures.run_bind, hvalue]
  dsimp only
  rw [if_neg (by simp), if_neg (by simp [htarget])]
  split
  · rfl
  · rcases h.2 with hsame | ⟨name, c, rfl, hclass, hancestor⟩
    · contradiction
    · rw [hclass]
      dsimp only
      rw [if_pos hancestor]
      rfl

theorem run_assignableAll {list : List (Operand × Ty × String)}
    (h : ∀ e ∈ list, Assignable t e.1.ty e.2.1 ∧ e.2.1.isInvalid = false) (s : Session) :
    (assignableAll t list).run s = (true, s) := by
  induction list with
  | nil => rfl
  | cons e rest ih =>
      obtain ⟨x, target, purpose⟩ := e
      obtain ⟨⟨hfirst, hvalid⟩, hrest⟩ := List.forall_mem_cons.1 h
      unfold assignableAll
      rw [Watch.Ensures.run_bind, run_assignable hfirst hvalid]
      dsimp only
      rw [Watch.Ensures.run_bind, ih hrest]
      rfl

/-- Operands that pass can be assigned. -/
theorem assignableAll_gives {list : List (Operand × Ty × String)} :
    Gives (assignableAll t list) fun ok => ok = true →
      ∀ e ∈ list, Assignable t e.1.ty e.2.1 := by
  induction list with
  | nil => exact .pure fun _ => by simp
  | cons e rest ih =>
      obtain ⟨x, target, purpose⟩ := e
      have hone : Gives (assignable t x target purpose) fun ok => ok = true →
          Assignable t x.ty target := by
        unfold assignable
        refine hasValue_gives.bind fun ok hok => ?_
        split
        next => exact .pure (by simp)
        next htrue =>
          have hvoid := hok (by simpa using htrue)
          split
          next => exact .pure (by simp)
          next =>
            split
            next hsame => exact .pure fun _ => ⟨hvoid, .inl hsame⟩
            next =>
              dsimp only
              split
              next hclass _ _ =>
                split
                next hancestor => exact .pure fun _ => ⟨hvoid, .inr ⟨_, _, rfl, hclass, hancestor⟩⟩
                next => exact (Gives.trivial _).bind fun _ _ => .pure (by simp)
              next => exact (Gives.trivial _).bind fun _ _ => .pure (by simp)
      unfold assignableAll
      refine hone.bind fun ok hok => ih.bind fun others hothers => .pure fun hboth => ?_
      obtain ⟨rfl, rfl⟩ : ok = true ∧ others = true := by simpa using hboth
      exact List.forall_mem_cons.2 ⟨hok rfl, hothers rfl⟩

/-! What inference gives -/

section

variable {targs : List Ty} {types : List Ty} {xs : List Operand}

/-- Type arguments that were found are admitted, and they are those of the operands for
parameters that are type parameters themselves. -/
theorem infer_gives (henv : env.collecting = false) (pos : Pos) (what : String)
    (ps : List TypeParam) (types : List Ty) (xs : List Operand) :
    Gives (infer env pos what ps types xs) fun r => ∀ targs, r = some targs →
      targs.length = ps.length ∧ (∀ e ∈ ps.zip targs, env.table.Admits e.1 e.2) ∧
        ∀ e ∈ types.zip xs, ∀ p, e.1 = .param p → ps[p.index]? = some p →
          ∃ a, targs[p.index]? = some a ∧ a.identical e.2.ty = true := by
  unfold infer
  split
  next => exact (Gives.trivial _).bind fun _ _ => .pure (by simp)
  next found hfound =>
    obtain ⟨hgrows, hparams⟩ := unifyOperands_found (by simp) hfound
    have hlen : found.length = ps.length := by rw [hgrows.length, List.length_map]
    split
    next => exact (Gives.trivial _).bind fun _ _ => .pure (by simp)
    next hnone =>
      dsimp only
      refine (typeArgs_gives henv).bind fun ok hok => ?_
      split
      next htrue =>
        refine .pure fun targs htargs => ?_
        obtain rfl := Option.some.inj htargs
        have hall := eq_map_some (found_isSome hlen hnone)
        refine ⟨length_filterMap_id hlen hnone, hok htrue, fun e he p hp hindex => ?_⟩
        obtain ⟨a, ha, hsame⟩ := hparams e he p hp hindex
        rw [hall, List.getElem?_map] at ha
        obtain ⟨b, hb, heq⟩ := Option.map_eq_some_iff.1 ha
        obtain rfl := Option.some.inj heq
        exact ⟨b, hb, hsame⟩
      next => exact .pure (by simp)

/-- If type arguments fit the operands, they are found up to identity, and no error is
reported. -/
theorem run_infer (henv : env.collecting = false) (pos : Pos) (what : String) (hps : Indexed ps)
    (hxs : xs.length = types.length)
    (h : Instantiates env.table ps targs types (xs.map (·.ty)))
    (hmentioned : ∀ p ∈ ps, ∃ param ∈ types, p ∈ param.mentioned) (s : Session) :
    ∃ targs', Ty.identicalAll targs' targs = true ∧
      (infer env pos what ps types xs).run s = (some targs', s) := by
  have hstart : AgreesWith targs (ps.map fun _ => none) := by
    intro i t ht
    rw [List.getElem?_map] at ht
    obtain ⟨_, _, heq⟩ := Option.map_eq_some_iff.1 ht
    cases heq
  obtain ⟨found, hfound, hagrees, hfinds⟩ := unifyOperands_finds hps h.length (by simp) hstart
    hxs h.fits
  have hlen : found.length = ps.length := by
    rw [(unifyOperands_found (by simp) hfound).1.length, List.length_map]
  -- each parameter is mentioned, so none lacks an argument
  have hsome : ∀ x ∈ found, x.isSome = true := by
    intro x hx
    obtain ⟨i, hi, rfl⟩ := List.mem_iff_getElem.1 hx
    have hp : ps[i]? = some ps[i] := List.getElem?_eq_getElem (by omega)
    obtain ⟨param, hparam, hmention⟩ := hmentioned _ (List.mem_of_getElem? hp)
    have hindex : ps[i].index = i := hps i _ hp
    obtain ⟨t, ht⟩ := hfinds param hparam _ hmention (by rw [hindex]; exact hp)
    rw [hindex, List.getElem?_eq_getElem hi] at ht
    rw [Option.some.inj ht]
    rfl
  have hnone : (ps.zip found).find? (·.2.isNone) = none := by
    refine List.find?_eq_none.2 fun e he => ?_
    have hmem := hsome _ (List.of_mem_zip he).2
    simp [Option.isNone_iff_eq_none, Option.isSome_iff_ne_none.1 hmem]
  have hlength := length_filterMap_id hlen hnone
  have hsame : ∀ (i : Nat) (a : Ty), (found.filterMap id)[i]? = some a →
      ∃ b, targs[i]? = some b ∧ a.identical b = true := by
    intro i a ha
    refine hagrees i a ?_
    rw [eq_map_some hsome, List.getElem?_map, ha]
    rfl
  refine ⟨found.filterMap id, Ty.identicalAll_of_getElem? (hlength.trans h.length.symm) hsame, ?_⟩
  have hadmits : ∀ e ∈ ps.zip (found.filterMap id), env.table.Admits e.1 e.2 := by
    intro e he
    obtain ⟨i, hi⟩ := List.mem_iff_getElem?.1 he
    obtain ⟨hp, ha⟩ := List.getElem?_zip_eq_some.1 hi
    obtain ⟨b, hb, hidentical⟩ := hsame i _ ha
    exact (h.admits (e.1, b) (List.mem_of_getElem? (List.getElem?_zip_eq_some.2 ⟨hp, hb⟩))).of_identical
      hidentical
  unfold infer
  rw [hfound]
  dsimp only
  rw [hnone]
  dsimp only
  rw [Watch.Ensures.run_bind, run_typeArgs henv hadmits]
  rfl

/-- An operand that can be assigned once the type arguments are filled in fits its parameter, if
one for a type parameter has the type argument as its type. -/
theorem matches_of_assignable (hps : Indexed ps) (htargs : targs.length = ps.length)
    {param arg : Ty} (h : Assignable t arg (param.subst ps targs))
    (hfound : ∀ p, param = .param p → ps[p.index]? = some p →
      ∃ a, targs[p.index]? = some a ∧ a.identical arg = true) : Matches t ps targs param arg := by
  refine ⟨fun hmention => ?_, fun hnone => ?_⟩
  · obtain ⟨p, hp, hmem⟩ := hmention
    cases param with
    | param q =>
        obtain rfl := List.mem_singleton.1 hmem
        have hindex : ps[p.index]? = some p := by
          obtain ⟨i, hi⟩ := List.mem_iff_getElem?.1 hp
          rwa [hps i p hi]
        obtain ⟨a, ha, hsame⟩ := hfound p rfl hindex
        obtain rfl := Option.some.inj (ha.symm.trans (substParam_indexed hps htargs hindex))
        exact Ty.identical_symm hsame
    | inst c as =>
        rcases h.2 with hsame | ⟨_, _, hcls, _⟩
        · exact hsame
        · cases hcls
    | _ => exact absurd hmem List.not_mem_nil
  · rwa [Ty.subst_of_notMem param fun p hp hmem => hnone p hmem hp] at h

theorem isInvalid_of_isReference {ty : Ty} (h : ty.isReference = true) : ty.isInvalid = false := by
  cases ty <;> simp_all [Ty.isReference, Ty.isInvalid]

/-- An operand that fits its parameter can be assigned once type arguments are filled in that
are identical. -/
theorem assignable_of_matches {targs' : List Ty}
    (hsame : Ty.identicalAll targs' targs = true)
    (hadmits : ∀ a ∈ targs', a.isReference = true) (hlen : targs'.length = ps.length)
    {param arg : Ty} (hvoid : arg.isVoid = false) (hvalid : param.isInvalid = false)
    (h : Matches t ps targs param arg) :
    Assignable t arg (param.subst ps targs') ∧ (param.subst ps targs').isInvalid = false := by
  by_cases hmention : ∃ p ∈ ps, p ∈ param.mentioned
  · refine ⟨⟨hvoid, .inl (Ty.identical_trans (h.same hmention)
      (Ty.identical_symm (Ty.subst_identical ps hsame param)))⟩, ?_⟩
    obtain ⟨p, hp, hmem⟩ := hmention
    cases param with
    | param q =>
        obtain rfl := List.mem_singleton.1 hmem
        obtain ⟨a, ha, heq, _⟩ := Ty.substParam_mem hp hlen
        rw [Ty.subst, heq]
        exact isInvalid_of_isReference (hadmits a ha)
    | inst c as => rfl
    | _ => exact absurd hmem List.not_mem_nil
  · have hnone : ∀ p ∈ ps, p ∉ param.mentioned := fun p hp hmem => hmention ⟨p, hp, hmem⟩
    rw [Ty.subst_of_notMem param fun p hp hmem => hnone p hmem hp]
    exact ⟨h.assignable hnone, hvalid⟩

/-- How a check ends that has to find type arguments for `ps`, where the operands are of types
`args`, and the session is `s` once they have been checked. With the type arguments `targs` it
gives `result targs`. -/
structure Infers (t : Table) (ps : List TypeParam) (params args : List Ty)
    (result : List Ty → Typed.Expr) (s : Session) (out : Option Typed.Expr × Session) :
    Prop where
  /-- What is accepted has type arguments that fit. -/
  sound : ∀ e, out.1 = some e → ∃ targs, e = result targs ∧ Instantiates t ps targs params args
  /-- If there are type arguments that fit, they are found, and no error is reported. -/
  complete : ∀ targs, Instantiates t ps targs params args →
    (∀ p ∈ ps, ∃ param ∈ params, p ∈ param.mentioned) →
      ∃ targs', Ty.identicalAll targs' targs = true ∧ out = (some (result targs'), s)

/-- What finds type arguments, and then assigns the operands. -/
theorem infers_of_run (henv : env.collecting = false) (pos : Pos) (what : String)
    (hps : Indexed ps)
    (hxs : xs.length = types.length) (hvalue : ∀ x ∈ xs, x.ty.isVoid = false)
    (hvalid : ∀ param ∈ types, param.isInvalid = false)
    (list : List Ty → List (Operand × Ty × String)) (hlist : ∀ targs,
      (list targs).map (fun e => (e.1, e.2.1)) = xs.zip (types.map (Ty.subst ps targs)))
    {m : Check (Option Typed.Expr)} {result : List Ty → Typed.Expr}
    (hm : m = infer env pos what ps types xs >>= fun solved =>
      match solved with
      | none => return none
      | some targs => do
        if ← assignableAll env.table (list targs) then return some (result targs)
        else return none) (s : Session) :
    Infers env.table ps types (xs.map (·.ty)) result s (m.run s) := by
  -- the operands are assigned to the types of their parameters
  have hpair : ∀ (targs : List Ty) (e : Ty × Ty), e ∈ types.zip (xs.map (·.ty)) →
      ∃ x l, (e.1, x) ∈ types.zip xs ∧ x.ty = e.2 ∧ l ∈ list targs ∧ l.1 = x ∧
        l.2.1 = e.1.subst ps targs := by
    intro targs e he
    obtain ⟨i, hi⟩ := List.mem_iff_getElem?.1 he
    obtain ⟨hparam, harg⟩ := List.getElem?_zip_eq_some.1 hi
    rw [List.getElem?_map] at harg
    obtain ⟨x, hx, hty⟩ := Option.map_eq_some_iff.1 harg
    have hmem : (x, e.1.subst ps targs) ∈ (list targs).map fun e => (e.1, e.2.1) := by
      rw [hlist]
      refine List.mem_of_getElem? (i := i) (List.getElem?_zip_eq_some.2 ⟨hx, ?_⟩)
      rw [List.getElem?_map, hparam]
      rfl
    obtain ⟨l, hl, heq⟩ := List.mem_map.1 hmem
    obtain ⟨hfirst, hsecond⟩ := Prod.mk.inj heq
    exact ⟨x, l, List.mem_of_getElem? (List.getElem?_zip_eq_some.2 ⟨hparam, hx⟩), hty, hl, hfirst,
      hsecond⟩
  have hgives : Gives m fun r => ∀ e, r = some e →
      ∃ targs, e = result targs ∧ Instantiates env.table ps targs types (xs.map (·.ty)) := by
    rw [hm]
    refine (infer_gives henv pos what ps types xs).bind fun solved hsolved => ?_
    split
    next => exact .pure (by simp)
    next targs =>
      obtain ⟨hlen, hadmits, hfound⟩ := hsolved targs rfl
      refine assignableAll_gives.bind fun ok hok => ?_
      split
      next htrue =>
        refine .pure fun e he => ⟨targs, (Option.some.inj he).symm, hlen, hadmits, fun e he => ?_⟩
        obtain ⟨x, l, hmem, hty, hl, hfirst, hsecond⟩ := hpair targs e he
        have hassign := hok htrue l hl
        rw [hfirst, hsecond, hty] at hassign
        refine matches_of_assignable hps hlen hassign fun p hp hindex => ?_
        rw [← hty]
        exact hfound _ hmem p hp hindex
      next => exact .pure (by simp)
  refine ⟨hgives s, fun targs hfits hmentioned => ?_⟩
  obtain ⟨targs', hsame, hrun⟩ :=
    run_infer henv pos what hps hxs hfits hmentioned s
  refine ⟨targs', hsame, ?_⟩
  obtain ⟨hlen, hadmits, _⟩ := infer_gives henv pos what ps types xs s targs' (by rw [hrun])
  have hreference : ∀ a ∈ targs', a.isReference = true := by
    intro a ha
    obtain ⟨p, hp⟩ := Ty.exists_mem_zip hlen ha
    exact (hadmits _ hp).1
  have hassign : ∀ l ∈ list targs', Assignable env.table l.1.ty l.2.1 ∧ l.2.1.isInvalid = false := by
    intro l hl
    have hmem := List.mem_map_of_mem (f := fun e : Operand × Ty × String => (e.1, e.2.1)) hl
    rw [hlist] at hmem
    obtain ⟨i, hi⟩ := List.mem_iff_getElem?.1 hmem
    obtain ⟨hx, htarget⟩ := List.getElem?_zip_eq_some.1 hi
    rw [List.getElem?_map] at htarget
    obtain ⟨param, hparam, heq⟩ := Option.map_eq_some_iff.1 htarget
    have harg : (xs.map (·.ty))[i]? = some l.1.ty := by
      rw [List.getElem?_map, hx]
      rfl
    have hmatches := hfits.fits (param, l.1.ty)
      (List.mem_of_getElem? (List.getElem?_zip_eq_some.2 ⟨hparam, harg⟩))
    have hmem := assignable_of_matches hsame hreference hlen
      (hvalue _ (List.mem_of_getElem? hx)) (hvalid _ (List.mem_of_getElem? hparam)) hmatches
    have htype : l.2.1 = param.subst ps targs' := heq.symm
    rw [htype]
    exact hmem
  rw [hm, Watch.Ensures.run_bind, hrun]
  dsimp only
  rw [Watch.Ensures.run_bind, run_assignableAll hassign]
  rfl

end

end Check

end ClassLang
