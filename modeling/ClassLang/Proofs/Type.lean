import ClassLang.Type

/-!
The laws of types: `identical` is an equivalence, namely equality once the names
of parameters are forgotten, and on the types that a checked unit gives to its
values it is equality itself. Substitution composes, and leaves types without
parameters alone.
-/

namespace ClassLang

namespace Ty

/-! Identity -/

mutual

/-- A type without what `identical` overlooks: the type parameters of functions
and the names of their parameters. -/
def plain : Ty → Ty
  | .inst name args => .inst name (plainAll args)
  | .func _ params result => .func [] (plainParams params) result.plain
  | t => t

/-- The plain forms of a list of types. -/
def plainAll : List Ty → List Ty
  | [] => []
  | t :: rest => t.plain :: plainAll rest

/-- The plain forms of the parameters of a function. -/
def plainParams : List (String × Ty) → List (String × Ty)
  | [] => []
  | (_, t) :: rest => ("", t.plain) :: plainParams rest

end

mutual

theorem identical_iff : (a b : Ty) → (a.identical b = true ↔ a.plain = b.plain)
  | .invalid, b => by cases b <;> simp [identical, plain]
  | .int, b => by cases b <;> simp [identical, plain]
  | .float, b => by cases b <;> simp [identical, plain]
  | .bool, b => by cases b <;> simp [identical, plain]
  | .str, b => by cases b <;> simp [identical, plain]
  | .void, b => by cases b <;> simp [identical, plain]
  | .missing, b => by cases b <;> simp [identical, plain]
  | .cls _, b => by cases b <;> simp [identical, plain]
  | .param _, b => by cases b <;> simp [identical, plain]
  | .inst _ as, b => by
    cases b <;> simp [identical, plain]
    intro _
    exact identicalAll_iff as _
  | .func _ ps r, b => by
    cases b <;> simp [identical, plain]
    rw [identicalParams_iff ps, identical_iff r]

theorem identicalAll_iff : (as bs : List Ty) →
    (identicalAll as bs = true ↔ plainAll as = plainAll bs)
  | [], bs => by cases bs <;> simp [identicalAll, plainAll]
  | a :: as, [] => by simp [identicalAll, plainAll]
  | a :: as, b :: bs => by
    simp [identicalAll, plainAll, identical_iff a b, identicalAll_iff as bs]

theorem identicalParams_iff : (as bs : List (String × Ty)) →
    (identicalParams as bs = true ↔ plainParams as = plainParams bs)
  | [], bs => by cases bs <;> simp [identicalParams, plainParams]
  | (_, a) :: as, [] => by simp [identicalParams, plainParams]
  | (_, a) :: as, (_, b) :: bs => by
    simp [identicalParams, plainParams, identical_iff a b, identicalParams_iff as bs]

end

/-! Equality -/

mutual

/-- Whether two types are equal, also in what `identical` overlooks. -/
def same : Ty → Ty → Bool
  | .invalid, .invalid | .int, .int | .float, .float | .bool, .bool | .str, .str
  | .void, .void | .missing, .missing => true
  | .cls a, .cls b => a = b
  | .inst a as, .inst b bs => a = b && sameAll as bs
  | .param p, .param q => p = q
  | .func ps xs r, .func qs ys t => ps = qs && sameParams xs ys && r.same t
  | _, _ => false

/-- Whether two lists of types are equal. -/
def sameAll : List Ty → List Ty → Bool
  | [], [] => true
  | a :: as, b :: bs => a.same b && sameAll as bs
  | _, _ => false

/-- Whether the parameters of two functions are equal. -/
def sameParams : List (String × Ty) → List (String × Ty) → Bool
  | [], [] => true
  | (x, a) :: as, (y, b) :: bs => x = y && a.same b && sameParams as bs
  | _, _ => false

end

mutual

theorem same_iff : (a b : Ty) → (a.same b = true ↔ a = b)
  | .invalid, b => by cases b <;> simp [same]
  | .int, b => by cases b <;> simp [same]
  | .float, b => by cases b <;> simp [same]
  | .bool, b => by cases b <;> simp [same]
  | .str, b => by cases b <;> simp [same]
  | .void, b => by cases b <;> simp [same]
  | .missing, b => by cases b <;> simp [same]
  | .cls _, b => by cases b <;> simp [same]
  | .param _, b => by cases b <;> simp [same]
  | .inst _ as, b => by
    cases b <;> simp [same]
    intro _
    exact sameAll_iff as _
  | .func _ ps r, b => by
    cases b <;> simp [same, and_assoc, sameParams_iff ps, same_iff r]

theorem sameAll_iff : (as bs : List Ty) → (sameAll as bs = true ↔ as = bs)
  | [], bs => by cases bs <;> simp [sameAll]
  | a :: as, [] => by simp [sameAll]
  | a :: as, b :: bs => by simp [sameAll, same_iff a b, sameAll_iff as bs]

theorem sameParams_iff : (as bs : List (String × Ty)) → (sameParams as bs = true ↔ as = bs)
  | [], bs => by cases bs <;> simp [sameParams]
  | (_, a) :: as, [] => by simp [sameParams]
  | (_, a) :: as, (_, b) :: bs => by
    simp [sameParams, same_iff a b, sameParams_iff as bs]

end

instance : DecidableEq Ty := fun a b => decidable_of_iff _ (same_iff a b)

deriving instance DecidableEq for Param, Signature

/-! Types in the scope of type parameters -/

mutual

/-- The types a value can have where the type parameters `ps` are known, and
`void`: all their parts were found, none is a function, every type parameter is
one of `ps`, and every class has as many arguments as `ar` says. -/
def Scoped (ar : String → Option Nat) (ps : List TypeParam) : Ty → Prop
  | .invalid | .missing | .func .. => False
  | .param p => p ∈ ps
  | .cls name => ar name = some 0
  | .inst name args => ar name = some args.length ∧ 0 < args.length ∧ ScopedAll ar ps args
  | _ => True

/-- Whether all types of a list are in scope. -/
def ScopedAll (ar : String → Option Nat) (ps : List TypeParam) : List Ty → Prop
  | [] => True
  | t :: rest => t.Scoped ar ps ∧ ScopedAll ar ps rest

end

variable {ar : String → Option Nat} {ps qs : List TypeParam} {as bs : List Ty} {s t : Ty}

theorem scopedAll_iff {ts : List Ty} : ScopedAll ar ps ts ↔ ∀ t ∈ ts, t.Scoped ar ps := by
  induction ts with
  | nil => simp [ScopedAll]
  | cons t rest ih => simp [ScopedAll, ih]

theorem Scoped.isInvalid (h : t.Scoped ar ps) : t.isInvalid = false := by
  cases t <;> first | rfl | exact h.elim

theorem Scoped.isMissing (h : t.Scoped ar ps) : t.isMissing = false := by
  cases t <;> first | rfl | exact h.elim

mutual

theorem Scoped.plain_eq : {t : Ty} → t.Scoped ar ps → t.plain = t
  | .int, _ | .float, _ | .bool, _ | .str, _ | .void, _ | .cls _, _ | .param _, _ => rfl
  | .inst name args, h => by
    simp only [Scoped] at h
    simp [plain, ScopedAll.plainAll_eq h.2.2]

theorem ScopedAll.plainAll_eq : {ts : List Ty} → ScopedAll ar ps ts → plainAll ts = ts
  | [], _ => rfl
  | t :: rest, h => by
    simp only [ScopedAll] at h
    simp [plainAll, Scoped.plain_eq h.1, ScopedAll.plainAll_eq h.2]

end

/-- On types in scope `identical` is equality, whatever the scopes. -/
theorem Scoped.eq_of_identical (hs : s.Scoped ar ps) (ht : t.Scoped ar qs)
    (h : s.identical t = true) : s = t := by
  have hplain := (identical_iff s t).1 h
  rwa [hs.plain_eq, ht.plain_eq] at hplain

theorem identical_refl (t : Ty) : t.identical t = true := (identical_iff t t).2 rfl

theorem identical_symm {s t : Ty} (h : s.identical t = true) : t.identical s = true := by
  rw [identical_iff] at h ⊢
  exact h.symm

theorem identical_trans {s t u : Ty} (h : s.identical t = true) (h' : t.identical u = true) :
    s.identical u = true := by
  rw [identical_iff] at h h' ⊢
  exact h.trans h'

mutual

theorem Scoped.mono (hsub : ∀ p ∈ ps, p ∈ qs) : {t : Ty} → t.Scoped ar ps → t.Scoped ar qs
  | .int, _ | .float, _ | .bool, _ | .str, _ | .void, _ => by simp [Scoped]
  | .cls _, h => by simpa [Scoped] using h
  | .param p, h => by
    simp only [Scoped] at h ⊢
    exact hsub p h
  | .inst name args, h => by
    simp only [Scoped] at h ⊢
    exact ⟨h.1, h.2.1, ScopedAll.mono hsub h.2.2⟩

theorem ScopedAll.mono (hsub : ∀ p ∈ ps, p ∈ qs) : {ts : List Ty} → ScopedAll ar ps ts →
    ScopedAll ar qs ts
  | [], _ => by simp [ScopedAll]
  | t :: rest, h => by
    simp only [ScopedAll] at h ⊢
    exact ⟨Scoped.mono hsub h.1, ScopedAll.mono hsub h.2⟩

end

/-! Substitution -/

theorem substAll_eq_map (ts : List Ty) : substAll ps as ts = ts.map (subst ps as) := by
  induction ts with
  | nil => rfl
  | cons t rest ih => simp [substAll, ih]

@[simp] theorem length_substAll (ts : List Ty) : (substAll ps as ts).length = ts.length := by
  simp [substAll_eq_map]

/-- A parameter that is substituted stands for one of the arguments. -/
theorem substParam_mem {p : TypeParam} (hp : p ∈ ps) (hlen : as.length = ps.length) :
    ∃ t ∈ as, substParam ps as p = t ∧ (p, t) ∈ ps.zip as := by
  unfold substParam
  cases hfind : (ps.zip as).find? (·.1 = p) with
  | none =>
      obtain ⟨i, hi, rfl⟩ := List.mem_iff_getElem.1 hp
      have hi' : i < as.length := by omega
      have hzip : (ps[i], as[i]) ∈ ps.zip as :=
        List.mem_iff_getElem.2 ⟨i, by simp; omega, by simp⟩
      simpa using List.find?_eq_none.1 hfind _ hzip
  | some entry =>
      obtain ⟨q, t⟩ := entry
      have hq : q = p := by simpa using List.find?_some hfind
      subst hq
      have hmem := List.mem_of_find?_eq_some hfind
      exact ⟨t, (List.of_mem_zip hmem).2, rfl, hmem⟩

mutual

theorem subst_no_args (ps : List TypeParam) : (t : Ty) → t.subst ps [] = t
  | .inst name args => by simp [subst, substAll_no_args ps args]
  | .param _ => by simp [subst, substParam]
  | .invalid | .int | .float | .bool | .str | .void | .cls _ | .func .. | .missing => rfl

theorem substAll_no_args (ps : List TypeParam) : (ts : List Ty) → substAll ps [] ts = ts
  | [] => rfl
  | t :: rest => by simp [substAll, subst_no_args ps t, substAll_no_args ps rest]

end

mutual

/-- Without parameters to replace, nothing is replaced. -/
theorem subst_nil (as : List Ty) : (t : Ty) → t.subst [] as = t
  | .inst name args => by simp [subst, substAll_nil as args]
  | .param _ => by simp [subst, substParam]
  | .invalid | .int | .float | .bool | .str | .void | .cls _ | .func .. | .missing => rfl

theorem substAll_nil (as : List Ty) : (ts : List Ty) → substAll [] as ts = ts
  | [] => rfl
  | t :: rest => by simp [substAll, subst_nil as t, substAll_nil as rest]

end

mutual

/-- A type without parameters stays as it is. -/
theorem Scoped.subst_closed : {t : Ty} → t.Scoped ar [] → t.subst ps as = t
  | .int, _ | .float, _ | .bool, _ | .str, _ | .void, _ | .cls _, _ => rfl
  | .inst name args, h => by
    simp only [Scoped] at h
    simp [subst, ScopedAll.substAll_closed h.2.2]

theorem ScopedAll.substAll_closed : {ts : List Ty} → ScopedAll ar [] ts → substAll ps as ts = ts
  | [], _ => rfl
  | t :: rest, h => by
    simp only [ScopedAll] at h
    simp [substAll, Scoped.subst_closed h.1, ScopedAll.substAll_closed h.2]

end

mutual

/-- The arguments decide the scope of a type after substitution. -/
theorem Scoped.subst (hlen : as.length = ps.length) (has : ScopedAll ar qs as) :
    {t : Ty} → t.Scoped ar ps → (t.subst ps as).Scoped ar qs
  | .int, _ | .float, _ | .bool, _ | .str, _ | .void, _ => by simp [Ty.subst, Scoped]
  | .cls _, h => by simpa [Ty.subst, Scoped] using h
  | .param p, h => by
    simp only [Scoped] at h
    obtain ⟨t, ht, heq, _⟩ := substParam_mem h hlen
    simpa [Ty.subst, heq] using scopedAll_iff.1 has t ht
  | .inst name args, h => by
    simp only [Scoped] at h
    simpa [Ty.subst, Scoped] using ⟨h.1, h.2.1, ScopedAll.substAll hlen has h.2.2⟩

theorem ScopedAll.substAll (hlen : as.length = ps.length) (has : ScopedAll ar qs as) :
    {ts : List Ty} → ScopedAll ar ps ts → ScopedAll ar qs (substAll ps as ts)
  | [], _ => by simp [Ty.substAll, ScopedAll]
  | t :: rest, h => by
    simp only [ScopedAll] at h
    exact ⟨Scoped.subst hlen has h.1, ScopedAll.substAll hlen has h.2⟩

end

/-- Substituting in the arguments is substituting afterwards, for a parameter. -/
theorem substParam_subst {p : TypeParam} (hp : p ∈ ps) (hlen : as.length = ps.length) :
    (substParam ps as p).subst qs bs = substParam ps (substAll qs bs as) p := by
  obtain ⟨t, _, heq, _⟩ := substParam_mem hp hlen
  have hzip : ps.zip (substAll qs bs as) = (ps.zip as).map fun e => (e.1, e.2.subst qs bs) := by
    rw [substAll_eq_map, ← List.map_id ps, List.zip_map, List.map_id]
    rfl
  unfold substParam
  rw [hzip, List.find?_map]
  cases hfind : (ps.zip as).find? (·.1 = p) with
  | none =>
      obtain ⟨_, _, _, hmem⟩ := substParam_mem hp hlen
      simpa using List.find?_eq_none.1 hfind _ hmem
  | some entry =>
      simp only [Function.comp_def, hfind]
      rfl

mutual

/-- Two substitutions one after the other are a single one. -/
theorem Scoped.subst_subst (hlen : as.length = ps.length) :
    {t : Ty} → t.Scoped ar ps → (t.subst ps as).subst qs bs = t.subst ps (substAll qs bs as)
  | .int, _ | .float, _ | .bool, _ | .str, _ | .void, _ | .cls _, _ => rfl
  | .param p, h => by
    simp only [Scoped] at h
    simpa [Ty.subst] using substParam_subst h hlen
  | .inst name args, h => by
    simp only [Scoped] at h
    simp [Ty.subst, ScopedAll.substAll_substAll hlen h.2.2]

theorem ScopedAll.substAll_substAll (hlen : as.length = ps.length) :
    {ts : List Ty} → ScopedAll ar ps ts →
      Ty.substAll qs bs (Ty.substAll ps as ts) = Ty.substAll ps (Ty.substAll qs bs as) ts
  | [], _ => rfl
  | t :: rest, h => by
    simp only [ScopedAll] at h
    simp [Ty.substAll, Scoped.subst_subst hlen h.1, ScopedAll.substAll_substAll hlen h.2]

end

end Ty

namespace Signature

/-! Signatures -/

variable {s t u : Signature}

theorem identical_iff : s.identical t = true ↔
    Ty.plainAll s.paramTypes = Ty.plainAll t.paramTypes ∧ s.result.plain = t.result.plain := by
  simp [identical, Ty.identicalAll_iff, Ty.identical_iff]

theorem identical_refl (s : Signature) : s.identical s = true := by
  simp [identical_iff]

theorem identical_symm (h : s.identical t = true) : t.identical s = true := by
  rw [identical_iff] at h ⊢
  exact ⟨h.1.symm, h.2.symm⟩

theorem identical_trans (h : s.identical t = true) (h' : t.identical u = true) :
    s.identical u = true := by
  rw [identical_iff] at h h' ⊢
  exact ⟨h.1.trans h'.1, h.2.trans h'.2⟩

@[simp] theorem subst_nil (args : List Ty) (s : Signature) : s.subst [] args = s := by
  simp [subst]

theorem paramTypes_subst (ps : List TypeParam) (as : List Ty) (s : Signature) :
    (s.subst ps as).paramTypes = s.paramTypes.map (Ty.subst ps as) := by
  cases ps with
  | nil =>
      have hid : Ty.subst [] as = id := funext (Ty.subst_nil as)
      simp [hid]
  | cons p rest => simp [subst, paramTypes, Function.comp_def]

theorem result_subst {ar : String → Option Nat} {ps qs : List TypeParam} {as : List Ty}
    (h : (s.result.subst ps as).Scoped ar qs) : (s.subst ps as).result = s.result.subst ps as := by
  cases ps with
  | nil => simp [Ty.subst_nil as]
  | cons p rest =>
      simp only [subst, List.isEmpty_cons, Bool.false_eq_true, if_false]
      split
      next hmissing =>
        cases hr : s.result.subst (p :: rest) as <;> simp [hr, Ty.isMissing] at hmissing
        simp [hr, Ty.Scoped] at h
      next => rfl

end Signature

end ClassLang
