import ClassLang.Proofs.Check.Inference

/-!
The algebra of types: `identical` is an equivalence that substitution respects,
substitution changes nothing where it has nothing to do, and two substitutions one after
the other are a single one, also where their parameters are the same or the arguments
mention them.
-/

namespace ClassLang

/-- Each of the type parameters `ps` that has an argument in `as` has itself. -/
def TypeParam.MapThemselves (ps : List TypeParam) (as : List Ty) : Prop :=
  ∀ p a, (p, a) ∈ ps.zip as → a.identical (.param p) = true

namespace Ty

variable {ps qs : List TypeParam} {as bs : List Ty} {s t : Ty}

theorem eq_param_of_identical {p : TypeParam} (h : t.identical (.param p) = true) :
    t = .param p := by
  have hplain := (identical_iff t (.param p)).1 h
  cases t <;> simp_all [plain]

mutual

/-- Parameters that are given themselves stay. -/
theorem subst_themselves (h : TypeParam.MapThemselves ps as) : (t : Ty) → t.subst ps as = t
  | .param p => by
    rw [subst]
    rcases substParam_cases ps as p with heq | hmem
    · exact heq
    · exact eq_param_of_identical (h p _ hmem)
  | .inst name args => by
    rw [subst, substAll_themselves h args]
  | .invalid | .int | .float | .bool | .str | .void | .cls _ | .func .. | .missing => rfl

theorem substAll_themselves (h : TypeParam.MapThemselves ps as) :
    (ts : List Ty) → substAll ps as ts = ts
  | [] => rfl
  | t :: rest => by
    rw [substAll, subst_themselves h t, substAll_themselves h rest]

end

mutual

/-- Two substitutions one after the other are a single one, where the first leaves no
parameter of the type. -/
theorem subst_subst (hlen : as.length = ps.length) : (t : Ty) → (∀ p ∈ t.mentioned, p ∈ ps) →
    (t.subst ps as).subst qs bs = t.subst ps (substAll qs bs as)
  | .param p, h => by
    rw [subst, subst]
    exact substParam_subst (h p (List.mem_singleton_self p)) hlen
  | .inst name args, h => by
    rw [subst, subst, subst, substAll_substAll hlen args h]
  | .invalid, _ | .int, _ | .float, _ | .bool, _ | .str, _ | .void, _ | .cls _, _
  | .func .., _ | .missing, _ => rfl

theorem substAll_substAll (hlen : as.length = ps.length) : (ts : List Ty) →
    (∀ p ∈ mentionedAll ts, p ∈ ps) →
      substAll qs bs (substAll ps as ts) = substAll ps (substAll qs bs as) ts
  | [], _ => rfl
  | t :: rest, h => by
    rw [substAll, substAll, substAll,
      subst_subst hlen t fun p hp => h p (List.mem_append_left _ hp),
      substAll_substAll hlen rest fun p hp => h p (List.mem_append_right _ hp)]

end

/-- Substitution respects identity, of the arguments and of the type. -/
theorem identical_subst_of_identical (has : identicalAll as bs = true)
    (h : s.identical t = true) : (s.subst ps as).identical (t.subst ps bs) = true := by
  rw [identical_iff, plain_subst, plain_subst, (identicalAll_iff as bs).1 has,
    (identical_iff s t).1 h]

/-- The result of a function for which `t` was given: `void` if nothing was. -/
def orVoid (t : Ty) : Ty := if t.isMissing then .void else t

theorem orVoid_of_given (h : t.isMissing = false) : t.orVoid = t := by
  simp [orVoid, h]

theorem plain_orVoid (t : Ty) : t.orVoid.plain = t.plain.orVoid := by
  cases t <;> rfl

theorem orVoid_subst_orVoid (t : Ty) : (t.orVoid.subst qs bs).orVoid = (t.subst qs bs).orVoid := by
  cases t <;> rfl

end Ty

namespace Signature

variable {ps qs : List TypeParam} {as bs : List Ty} {s t : Signature}

/-- The type parameters that a signature mentions. -/
def mentioned (s : Signature) : List TypeParam := Ty.mentionedAll s.paramTypes ++ s.result.mentioned

theorem result_subst_orVoid (h : s.result.isMissing = false) :
    (s.subst ps as).result = (s.result.subst ps as).orVoid := by
  cases ps with
  | nil => rw [subst_nil, Ty.subst_nil, Ty.orVoid_of_given h]
  | cons p rest => rfl

theorem paramTypes_substAll (ps : List TypeParam) (as : List Ty) (s : Signature) :
    (s.subst ps as).paramTypes = Ty.substAll ps as s.paramTypes := by
  rw [paramTypes_subst, Ty.substAll_eq_map]

/-- The parts decide whether a signature is left alone. -/
theorem identical_subst_self (hresult : s.result.isMissing = false)
    (hparams : Ty.substAll ps as s.paramTypes = s.paramTypes)
    (hsame : s.result.subst ps as = s.result) : (s.subst ps as).identical s = true := by
  rw [identical_iff, paramTypes_substAll, hparams, result_subst_orVoid hresult, hsame,
    Ty.orVoid_of_given hresult]
  exact ⟨rfl, rfl⟩

theorem identical_subst_of_notMem (hresult : s.result.isMissing = false)
    (h : ∀ p ∈ s.mentioned, p ∉ ps) : (s.subst ps as).identical s = true :=
  identical_subst_self hresult
    (Ty.substAll_of_notMem _ fun p hp => h p (List.mem_append_left _ hp))
    (Ty.subst_of_notMem _ fun p hp => h p (List.mem_append_right _ hp))

theorem identical_subst_themselves (hresult : s.result.isMissing = false)
    (h : TypeParam.MapThemselves ps as) : (s.subst ps as).identical s = true :=
  identical_subst_self hresult (Ty.substAll_themselves h _) (Ty.subst_themselves h _)

theorem identical_subst_of_identical (has : Ty.identicalAll as bs = true)
    (h : s.identical t = true) : (s.subst ps as).identical (t.subst ps bs) = true := by
  obtain ⟨hparams, hresult⟩ := identical_iff.1 h
  have hargs := (Ty.identicalAll_iff as bs).1 has
  rw [identical_iff, paramTypes_substAll, paramTypes_substAll, Ty.plainAll_substAll,
    Ty.plainAll_substAll, hargs, hparams]
  refine ⟨rfl, ?_⟩
  cases ps with
  | nil => rwa [subst_nil, subst_nil]
  | cons p rest =>
      show (s.result.subst _ as).orVoid.plain = (t.result.subst _ bs).orVoid.plain
      rw [Ty.plain_orVoid, Ty.plain_orVoid, Ty.plain_subst, Ty.plain_subst, hargs, hresult]

theorem identical_subst_subst (hresult : s.result.isMissing = false)
    (hlen : as.length = ps.length) (h : ∀ p ∈ s.mentioned, p ∈ ps) :
    ((s.subst ps as).subst qs bs).identical (s.subst ps (Ty.substAll qs bs as)) = true := by
  have hparams : Ty.substAll qs bs (Ty.substAll ps as s.paramTypes) =
      Ty.substAll ps (Ty.substAll qs bs as) s.paramTypes :=
    Ty.substAll_substAll hlen s.paramTypes fun p hp => h p (List.mem_append_left _ hp)
  have hres : (s.result.subst ps as).subst qs bs = s.result.subst ps (Ty.substAll qs bs as) :=
    Ty.subst_subst hlen s.result fun p hp => h p (List.mem_append_right _ hp)
  -- after the first substitution the result is there, whatever the arguments are
  have hgiven : (s.subst ps as).result.isMissing = false := by
    rw [result_subst_orVoid hresult]
    cases s.result.subst ps as <;> rfl
  rw [identical_iff, paramTypes_substAll, paramTypes_substAll, paramTypes_substAll, hparams,
    result_subst_orVoid hgiven, result_subst_orVoid hresult, result_subst_orVoid hresult,
    Ty.orVoid_subst_orVoid, hres]
  exact ⟨rfl, rfl⟩

end Signature

/-- Types and signatures under identity and substitution. Identity is an equivalence.
Substitution respects it, changes nothing that mentions none of its parameters and nothing
where each parameter is mapped to itself, and composes. A signature has a result, which is
`void` for a function that gives nothing back. -/
theorem substitution_laws :
    (Equivalence fun s t : Ty => s.identical t = true) ∧
      (Equivalence fun s t : Signature => s.identical t = true) ∧
      (∀ ps as bs, Ty.identicalAll as bs = true →
        (∀ s t : Ty, s.identical t = true → (s.subst ps as).identical (t.subst ps bs) = true) ∧
        ∀ s t : Signature, s.identical t = true →
          (s.subst ps as).identical (t.subst ps bs) = true) ∧
      (∀ ps as,
        (∀ t : Ty, (∀ p ∈ t.mentioned, p ∉ ps) ∨ TypeParam.MapThemselves ps as →
          t.subst ps as = t) ∧
        ∀ s : Signature, s.result.isMissing = false →
          (∀ p ∈ s.mentioned, p ∉ ps) ∨ TypeParam.MapThemselves ps as →
          (s.subst ps as).identical s = true) ∧
      ∀ ps qs as bs, as.length = ps.length →
        (∀ t : Ty, (∀ p ∈ t.mentioned, p ∈ ps) → ((t.subst ps as).subst qs bs).identical
          (t.subst ps (as.map (Ty.subst qs bs))) = true) ∧
        ∀ s : Signature, s.result.isMissing = false → (∀ p ∈ s.mentioned, p ∈ ps) →
          ((s.subst ps as).subst qs bs).identical
            (s.subst ps (as.map (Ty.subst qs bs))) = true := by
  refine ⟨⟨Ty.identical_refl, Ty.identical_symm, Ty.identical_trans⟩,
    ⟨Signature.identical_refl, Signature.identical_symm, Signature.identical_trans⟩,
    fun ps as bs has => ⟨fun s t => Ty.identical_subst_of_identical has,
      fun s t => Signature.identical_subst_of_identical has⟩,
    fun ps as => ⟨?_, ?_⟩, fun ps qs as bs hlen => ?_⟩
  · rintro t (hnone | hself)
    · exact Ty.subst_of_notMem t hnone
    · exact Ty.subst_themselves hself t
  · rintro s hresult (hnone | hself)
    · exact Signature.identical_subst_of_notMem hresult hnone
    · exact Signature.identical_subst_themselves hresult hself
  · rw [← Ty.substAll_eq_map]
    refine ⟨fun t ht => ?_, fun s hresult hs => ?_⟩
    · rw [Ty.subst_subst hlen t ht]
      exact Ty.identical_refl _
    · exact Signature.identical_subst_subst hresult hlen hs

/-- Two parameters that are swapped, one of them inside an instance, before one of them is
replaced. -/
theorem swapped_substituted :
    let k : TypeParam := ⟨"Pair", 0, "K", none⟩
    let v : TypeParam := ⟨"Pair", 1, "V", none⟩
    let pair : Ty := .inst "Pair" [.param k, .inst "Box" [.param v]]
    let swapped : List Ty := [.param v, .inst "Box" [.param k]]
    (∀ p ∈ pair.mentioned, p ∈ [k, v]) ∧
      ((pair.subst [k, v] swapped).subst [k] [.cls "A"]).identical
        (pair.subst [k, v] (swapped.map (Ty.subst [k] [.cls "A"]))) = true ∧
      (pair.subst [k, v] swapped).subst [k] [.cls "A"] =
        .inst "Pair" [.param v, .inst "Box" [.inst "Box" [.cls "A"]]] := by
  intro k v pair swapped
  have hmentioned : ∀ p ∈ pair.mentioned, p ∈ [k, v] := by
    simp [pair, Ty.mentioned, Ty.mentionedAll]
  obtain ⟨-, -, -, -, hcompose⟩ := substitution_laws
  exact ⟨hmentioned, (hcompose [k, v] [k] swapped [.cls "A"] rfl).1 pair hmentioned, rfl⟩

end ClassLang
