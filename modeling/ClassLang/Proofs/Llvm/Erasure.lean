import ClassLang.Llvm.Emit
import ClassLang.Proofs.Formed.Type
import ClassLang.Proofs.Layout.Dispatch

/-!
What the types of LLVM forget. Every type that a value can have becomes one of a few
types, and all references become pointers to bytes. So filling in type parameters,
using a value as one of an ancestor, and overriding a method change nothing there.
-/

namespace ClassLang

namespace Llvm.Ty

mutual

theorem eq_of_same : (a b : Ty) → a.same b = true → a = b
  | .void, b, h | .double, b, h => by
    cases b <;> simp_all [same]
  | .int _, b, h => by
    cases b <;> simp_all [same]
  | .ptr a, b, h => by
    cases b <;> simp only [same, Bool.false_eq_true] at h
    rw [eq_of_same a _ h]
  | .array _ a, b, h => by
    cases b <;> simp only [same, Bool.and_eq_true, decide_eq_true_eq, Bool.false_eq_true] at h
    rw [h.1, eq_of_same a _ h.2]
  | .func a as, b, h => by
    cases b <;> simp only [same, Bool.and_eq_true, Bool.false_eq_true] at h
    rw [eq_of_same a _ h.1, eq_of_sameAll as _ h.2]

theorem eq_of_sameAll : (as bs : List Ty) → sameAll as bs = true → as = bs
  | [], bs, h => by
    cases bs <;> simp_all [sameAll]
  | a :: as, bs, h => by
    cases bs <;> simp only [sameAll, Bool.and_eq_true, Bool.false_eq_true] at h
    rw [eq_of_same a _ h.1, eq_of_sameAll as _ h.2]

end

mutual

@[simp] theorem same_self : (a : Ty) → a.same a = true
  | .void | .double | .int _ => by simp [same]
  | .ptr a => by simp [same, same_self a]
  | .array _ a => by simp [same, same_self a]
  | .func a as => by simp [same, same_self a, sameAll_self as]

@[simp] theorem sameAll_self : (as : List Ty) → sameAll as as = true
  | [] => rfl
  | a :: as => by simp [sameAll, same_self a, sameAll_self as]

end

variable {ar : String → Option Nat} {ps : List TypeParam} {as : List ClassLang.Ty}
  {s t : ClassLang.Ty}

theorem exists_ofTy? (h : t.Scoped ar ps) : ∃ type, ofTy? t = some type := by
  cases t with
  | invalid | missing | func => simp [ClassLang.Ty.Scoped] at h
  | _ => exact ⟨_, rfl⟩

theorem ofTy?_of_isReference (h : t.isReference = true) : ofTy? t = some .bytes := by
  cases t <;> simp_all [ClassLang.Ty.isReference, ofTy?]

theorem ofTy?_of_className? {name : String} (h : t.className? = some name) :
    ofTy? t = some .bytes := by
  cases t <;> simp_all [ClassLang.Ty.className?, ofTy?]

/-- Type parameters stand for references, and so do they when they are filled in. -/
theorem ofTy?_subst (has : ∀ a ∈ as, a.isReference = true) :
    ofTy? (t.subst ps as) = ofTy? t := by
  cases t with
  | param p => exact ofTy?_of_isReference (ClassLang.Ty.isReference_subst rfl has)
  | _ => rfl

theorem ofTy?_plain : ofTy? t.plain = ofTy? t := by
  cases t <;> rfl

/-- A value that is used as one of an ancestor stays what it is. -/
theorem ofTy?_of_fits {table : Table} (h : table.Fits s t) : ofTy? s = ofTy? t := by
  obtain rfl | ⟨name, c, rfl, hc, _⟩ := h
  · rfl
  · exact ofTy?_of_className? hc

end Llvm.Ty

/-! Signatures -/

/-- The types that the parameters and the result of a signature become. -/
structure Signature.Erases (s : Signature) (params : List Llvm.Ty) (result : Llvm.Ty) :
    Prop where
  params : s.paramTypes.map Llvm.Ty.ofTy? = params.map some
  result : Llvm.Ty.ofTy? s.result = some result

namespace Signature

variable {ar : String → Option Nat} {ps qs : List TypeParam} {as : List Ty} {s t : Signature}
  {params params' : List Llvm.Ty} {result result' : Llvm.Ty}

theorem exists_erases (h : s.Scoped ar ps) : ∃ params result, s.Erases params result := by
  obtain ⟨result, hresult⟩ := Llvm.Ty.exists_ofTy? h.2
  have hparams : ∀ ts : List Ty, (∀ t ∈ ts, t.Scoped ar ps) →
      ∃ params : List Llvm.Ty, ts.map Llvm.Ty.ofTy? = params.map some := by
    intro ts hts
    induction ts with
    | nil => exact ⟨[], rfl⟩
    | cons t rest ih =>
        obtain ⟨type, htype⟩ := Llvm.Ty.exists_ofTy? (hts t (by simp))
        obtain ⟨types, htypes⟩ := ih fun u hu => hts u (by simp [hu])
        exact ⟨type :: types, by rw [List.map_cons, htype, htypes, List.map_cons]⟩
  obtain ⟨params, hparams⟩ := hparams s.paramTypes fun t ht => (h.1 t ht).1
  exact ⟨params, result, hparams, hresult⟩

namespace Erases

theorem unique (h : s.Erases params result) (h' : s.Erases params' result') :
    params = params' ∧ result = result' := by
  constructor
  · exact (List.map_inj_right fun _ _ => Option.some.inj).1 (h.params.symm.trans h'.params)
  · exact Option.some.inj (h.result.symm.trans h'.result)

theorem subst (h : s.Erases params result) (ps : List TypeParam) (hscoped : s.Scoped ar qs)
    (has : ∀ a ∈ as, a.isReference = true) : (s.subst ps as).Erases params result where
  params := by
    rw [paramTypes_subst, List.map_map, ← h.params]
    exact List.map_congr_left fun t _ => Llvm.Ty.ofTy?_subst has
  result := by
    have hgiven : ∀ a ∈ as, a.isMissing = false := fun a ha =>
      Ty.isMissing_of_isReference (has a ha)
    rw [result_subst_of_given hscoped.2.isMissing hgiven, Llvm.Ty.ofTy?_subst has, h.result]

theorem identical (h : s.Erases params result) (hid : s.identical t = true) :
    t.Erases params result := by
  obtain ⟨hparams, hresult⟩ := identical_iff.1 hid
  constructor
  · rw [← h.params]
    have hall : ∀ as bs : List Ty, Ty.plainAll as = Ty.plainAll bs →
        bs.map Llvm.Ty.ofTy? = as.map Llvm.Ty.ofTy? := by
      intro as bs
      induction as generalizing bs with
      | nil => cases bs <;> simp [Ty.plainAll]
      | cons a as ih =>
          cases bs with
          | nil => simp [Ty.plainAll]
          | cons b bs =>
              intro heq
              obtain ⟨ha, hrest⟩ := List.cons.inj heq
              rw [List.map_cons, List.map_cons, ih bs hrest, ← Llvm.Ty.ofTy?_plain (t := b), ← ha,
                Llvm.Ty.ofTy?_plain]
    exact hall _ _ hparams
  · rw [← h.result, ← Llvm.Ty.ofTy?_plain (t := t.result), ← hresult, Llvm.Ty.ofTy?_plain]

theorem length (h : s.Erases params result) : params.length = s.params.length := by
  have hlen := congrArg List.length h.params
  simpa [paramTypes] using hlen.symm

end Erases

end Signature

namespace Llvm

variable {s : Signature} {params : List Ty} {result : Ty}

theorem valueType_ok {t : ClassLang.Ty} {type : Ty} (h : Ty.ofTy? t = some type) :
    valueType t = .ok type := by
  unfold valueType
  rw [h]

/-- The type of the methods with a given signature. -/
theorem methodType_ok (h : s.Erases params result) :
    methodType s = .ok (.func result (.bytes :: params)) := by
  have hparams : ∀ (ps : List ClassLang.Param) (types : List Ty),
      ps.map (Ty.ofTy? ·.ty) = types.map some →
      ps.mapM (fun p => valueType p.ty) = .ok types := by
    intro ps
    induction ps with
    | nil =>
        intro types h
        obtain rfl : types = [] := by simpa using h.symm
        rfl
    | cons p rest ih =>
        intro types h
        cases types with
        | nil => simp at h
        | cons type types =>
            obtain ⟨hp, hrest⟩ := List.cons.inj h
            rw [List.mapM_cons, valueType_ok hp, ih types hrest]
            rfl
  unfold methodType
  rw [hparams s.params params (by simpa [Signature.paramTypes, Function.comp_def] using h.params),
    valueType_ok h.result]
  rfl

/-- The declaration of a function has the types of its signature. -/
theorem declare_ok (h : s.Erases params result) (name : String) (method : Bool) :
    ∃ head, declare name (some s) method = .ok head ∧ head.name = name ∧ head.result = result ∧
      head.blocks = [] ∧
      head.params.map (·.type) = (if method then [.bytes] else []) ++ params := by
  have hparams : ∀ (ps : List ClassLang.Param) (types : List Ty),
      ps.map (Ty.ofTy? ·.ty) = types.map some →
      ∃ declared : List Param,
        ps.mapM (fun p => do return (⟨p.name, ← valueType p.ty⟩ : Param)) =
          (.ok declared : Except EmitError (List Param)) ∧
        declared.map (·.type) = types := by
    intro ps
    induction ps with
    | nil =>
        intro types h
        obtain rfl : types = [] := by simpa using h.symm
        exact ⟨[], rfl, rfl⟩
    | cons p rest ih =>
        intro types h
        cases types with
        | nil => simp at h
        | cons type types =>
            obtain ⟨hp, hrest⟩ := List.cons.inj h
            obtain ⟨declared, hdeclared, htypes⟩ := ih types hrest
            refine ⟨⟨p.name, type⟩ :: declared, ?_, by rw [List.map_cons, htypes]⟩
            rw [List.mapM_cons, valueType_ok hp, hdeclared]
            rfl
  obtain ⟨declared, hdeclared, htypes⟩ :=
    hparams s.params params (by simpa [Signature.paramTypes, Function.comp_def] using h.params)
  refine ⟨{ name, params := (if method then [⟨"self", .bytes⟩] else []) ++ declared, result },
    ?_, rfl, rfl, rfl, ?_⟩
  · unfold declare
    dsimp only
    rw [valueType_ok h.result, hdeclared]
    rfl
  · rw [List.map_append, htypes]
    cases method <;> rfl

end Llvm

end ClassLang
