import ClassLang.Proofs.Check.Inference
import ClassLang.Proofs.Check.Result
import ClassLang.Proofs.Layout.Dispatch
import ClassLang.Proofs.Meaning.Follows

/-!
The method that a call finds. It is the one that the class of the object has, and whatever class
or bound the receiver was typed with, it takes arguments of the types that were checked and has a
result of the type that is expected.
-/

namespace ClassLang

namespace Table

variable {t : Table} {c d e : ClassInfo} {own ty : Ty} {name : String} {found : Method}

/-- A reference type without parameters is that of a class. -/
theorem exists_classOf? (hty : ty.Scoped t.arity []) (href : ty.isReference = true) :
    ∃ c, t.classOf? ty = some c := by
  cases ty with
  | cls n | inst n args =>
      cases hfound : t.classNamed? n with
      | none => simp [Ty.Scoped, arity, hfound] at hty
      | some c => exact ⟨c, by simp [classOf?, Ty.className?, hfound]⟩
  | param p => simp [Ty.Scoped] at hty
  | _ => simp [Ty.isReference] at href

/-- Only classes and their instances have a class. -/
theorem isSome_className? (hc : t.classOf? ty = some c) : ty.className?.isSome = true := by
  cases ty <;> simp_all [classOf?, Ty.className?]

theorem classOf?_name (hc : t.classOf? ty = some c) : ty.className? = some c.name := by
  obtain ⟨n, hn, hfound⟩ := Option.bind_eq_some_iff.1 hc
  have hname : c.name = n := by simpa using List.find?_some hfound
  rw [hn, hname]

/-- What a type without arguments is that has a class without parameters. -/
theorem eq_cls (hty : ty.Scoped t.arity []) (hc : t.classOf? ty = some c) (hnil : c.tparams = []) :
    ty = .cls c.name := by
  have hargs := (classOf?_args hty hc).1
  rw [hnil] at hargs
  have hname := classOf?_name hc
  cases ty with
  | cls n => simpa [Ty.className?] using hname
  | inst n args =>
      simp only [Ty.Scoped] at hty
      simp only [Ty.args, List.length_nil] at hargs
      omega
  | _ => simp [Ty.className?] at hname

/-- The parameters of a class stand for the arguments of its own type. -/
theorem substAll_params {ps : List TypeParam} {as : List Ty} (hps : Check.Indexed ps)
    (hlen : as.length = ps.length) : Ty.substAll ps as (ps.map .param) = as := by
  rw [Ty.substAll_eq_map]
  refine List.ext_getElem? fun i => ?_
  rw [List.map_map, List.getElem?_map]
  cases hp : ps[i]? with
  | none => rw [Option.map_none, List.getElem?_eq_none (hlen ▸ List.getElem?_eq_none_iff.1 hp)]
  | some p =>
      have hindex := hps i p hp
      rw [Option.map_some, Function.comp_apply, Ty.subst,
        ← Check.substParam_indexed hps hlen (hindex ▸ hp), hindex]

/-- The type of an object is the own type of its class, with arguments. -/
theorem Owns.eq_selfType (h : t.Owns c own) (hindexed : Check.Indexed c.tparams) :
    (Check.selfType c).subst c.tparams own.args = own := by
  have hname := classOf?_name h.cls
  have hlen := h.ground.length
  unfold Check.selfType
  cases hgeneric : c.isGeneric with
  | false =>
      have hnil : c.tparams = [] := by simpa [ClassInfo.isGeneric] using hgeneric
      rw [eq_cls h.closed h.cls hnil]
      rfl
  | true =>
      have hne : c.tparams ≠ [] := by simpa [ClassInfo.isGeneric] using hgeneric
      rw [if_pos rfl, Ty.subst, substAll_params hindexed hlen]
      cases own with
      | inst n args =>
          obtain rfl : n = c.name := by simpa [Ty.className?] using hname
          rfl
      | cls n => exact absurd (List.length_eq_zero_iff.1 hlen.symm) hne
      | _ => simp [Ty.className?] at hname

/-- A class has its methods from a class that it descends from, as an object of which its own
objects can be used. -/
theorem Owns.declaring (h : t.Owns e own) (ht : t.WellTyped) (hindexed : Check.Indexed e.tparams)
    (hm : t.lookupMethod e.id name = some found) :
    ∃ d ∈ t.classes, found ∈ d.methods ∧ ∃ as, t.Ground d.tparams as ∧
      t.Fits own ((Check.selfType d).subst d.tparams as) ∧
      ((Check.selfType d).subst d.tparams as).className?.isSome = true ∧
      ∀ ty : Ty, ty.Scoped t.arity d.tparams →
        ty.subst d.tparams as = ty.subst e.tparams own.args := by
  obtain ⟨d, hd, hown⟩ := List.exists_of_findSome?_eq_some hm
  obtain ⟨hmem, _⟩ := method?_mem hown
  obtain ⟨j, hj, hclass⟩ := List.mem_filterMap.1 hd
  obtain rfl : d.id = j := ht.linked.id_eq hclass
  have hi := class?_eq_some_lt (ht.linked.class?_id (classOf?_mem h.cls))
  refine ⟨d, List.mem_of_getElem? hclass, hmem, ?_⟩
  by_cases hsame : d.id = e.id
  · obtain rfl : d = e := by
      rw [hsame, ht.linked.class?_id (classOf?_mem h.cls)] at hclass
      exact (Option.some.inj hclass).symm
    refine ⟨own.args, h.ground, ?_⟩
    rw [h.eq_selfType hindexed]
    exact ⟨.refl t own, isSome_className? h.cls, fun _ _ => rfl⟩
  · -- a proper ancestor has no type parameters
    have hplain : d.isGeneric = false := by
      cases hgeneric : d.isGeneric with
      | false => rfl
      | true => exact absurd (ht.linked.eq_of_generic hi hj hclass hgeneric).symm hsame
    have hnil : d.tparams = [] := by simpa [ClassInfo.isGeneric] using hplain
    have hself : (Check.selfType d).subst d.tparams [] = .cls d.name := by
      simp [Check.selfType, hplain, Ty.subst]
    refine ⟨[], by rw [hnil]; exact .nil t, ?_, by rw [hself]; rfl, fun ty hty => ?_⟩
    · rw [hself]
      have hfound := ht.linked.classNamed?_name (List.mem_of_getElem? hclass)
      exact .inr ⟨d.name, e.name, rfl, classOf?_name h.cls, isAncestorName_iff.2
        ⟨d, e, hfound, ht.linked.classNamed?_name (classOf?_mem h.cls), isAncestor_iff.2 hj⟩⟩
    · rw [hnil] at hty
      rw [hty.subst_closed, hty.subst_closed]

/-! Signatures -/

/-- Called on an object of type `own`, whose class is `e`, the method takes arguments of the types
`params` and has a result of the type `result`. -/
structure Takes (own : Ty) (e : ClassInfo) (found : Method) (params : List Ty) (result : Ty) :
    Prop where
  params : found.sig.paramTypes.map (Ty.subst e.tparams own.args) = params
  result : found.sig.result.subst e.tparams own.args = result

/-- Known signatures that are identical say the same. -/
theorem eq_of_identical {ps qs : List TypeParam} {s s' : Signature}
    (hs : ∀ ty ∈ s.paramTypes, ty.Scoped t.arity ps) (hs' : s.result.Scoped t.arity ps)
    (h : s'.Scoped t.arity qs) (hid : s.identical s' = true) :
    s.paramTypes = s'.paramTypes ∧ s.result = s'.result := by
  obtain ⟨hparams, hresult⟩ := Signature.identical_iff.1 hid
  rw [(Ty.scopedAll_iff.2 hs).plainAll_eq,
    (Ty.scopedAll_iff.2 fun ty hty => (h.1 ty hty).1).plainAll_eq] at hparams
  exact ⟨hparams, hs'.eq_of_identical h.2 ((Ty.identical_iff _ _).2 hresult)⟩

/-- Types without parameters are the same in any instance. -/
theorem map_subst_closed {ps : List TypeParam} {as : List Ty} {tys : List Ty}
    (h : ∀ ty ∈ tys, ty.Scoped t.arity []) : tys.map (Ty.subst ps as) = tys := by
  rw [← Ty.substAll_eq_map]
  exact (Ty.scopedAll_iff.2 h).substAll_closed

/-- A method whose signature is identical to one without parameters. -/
theorem takes_of_identical {ps : List TypeParam} {sig : Signature}
    (hfound : found.sig.Scoped t.arity ps) (hsig : sig.Scoped t.arity [])
    (hid : found.sig.identical sig = true) : Takes own e found sig.paramTypes sig.result := by
  obtain ⟨hparams, hresult⟩ :=
    eq_of_identical (fun ty hty => (hfound.1 ty hty).1) hfound.2 hsig hid
  refine ⟨?_, ?_⟩
  · rw [hparams]
    exact map_subst_closed fun ty hty => (hsig.1 ty hty).1
  · rw [hresult]
    exact hsig.2.subst_closed

/-- A method that is called through a class is found in the class of the object. -/
theorem Fits.method {c : ClassInfo} {m : Method} (ht : t.WellTyped) (hown : t.Owns e own)
    (hty : ty.Scoped t.arity []) (hfits : t.Fits own ty) (hc : t.classOf? ty = some c)
    (hm : t.lookupMethod c.id name = some m) : ∃ found, t.lookupMethod e.id name = some found ∧
      Takes own e found (m.sig.paramTypes.map (Ty.subst c.tparams ty.args))
        (m.sig.result.subst c.tparams ty.args) := by
  obtain ⟨hdesc, rfl | hcls⟩ := hfits.classes ht.linked hown.cls hc
  · obtain rfl : e = c := Option.some.inj (hown.cls.symm.trans hc)
    exact ⟨m, hm, rfl, rfl⟩
  · have hnil : c.tparams = [] := by
      have hargs := (classOf?_args hty hc).1
      rw [hcls] at hargs
      exact List.length_eq_zero_iff.1 hargs.symm
    have hclass := ht.linked.class?_id (classOf?_mem hc)
    have hclass' := ht.linked.class?_id (classOf?_mem hown.cls)
    obtain ⟨found, hfound, hid⟩ := lookupMethod_of_isAncestor ht.linked ht.overrides
      (class?_eq_some_lt hclass') hdesc hm
    obtain ⟨-, hscoped, -⟩ := ht.lookupMethod_scoped hclass hm
    obtain ⟨-, hscoped', -⟩ := ht.lookupMethod_scoped hclass' hfound
    rw [hnil] at hscoped ⊢
    refine ⟨found, hfound, ?_⟩
    rw [map_subst_closed fun ty hty => (hscoped.1 ty hty).1, hscoped.2.subst_closed]
    exact takes_of_identical hscoped' hscoped (Signature.identical_symm hid)

/-- A method that is called through a bound is found in the class of the object. -/
theorem Fits.boundMethod {b : BoundInfo} {m : Method} (ht : t.WellTyped) (hown : t.Owns e own)
    (hty : ty.Scoped t.arity []) (hfits : t.Fits own ty) (href : ty.isReference = true)
    (hb : b ∈ t.bounds) (hsat : t.missingMethod? ty b = none) (hm : m ∈ b.methods) :
    ∃ found, t.lookupMethod e.id m.name = some found ∧
      Takes own e found m.sig.paramTypes m.sig.result := by
  obtain ⟨c, hc⟩ := exists_classOf? hty href
  obtain ⟨hdesc, hsame⟩ := hfits.classes ht.linked hown.cls hc
  have hclass' := ht.linked.class?_id (classOf?_mem hown.cls)
  obtain ⟨found, hfound, hid⟩ := ht.descendant_satisfies hc hsat (classOf?_mem hown.cls) hdesc hm
  obtain ⟨-, hscoped', -⟩ := ht.lookupMethod_scoped hclass' hfound
  have hbound := (ht.bounds b hb m hm).1
  refine ⟨found, hfound, ?_⟩
  rcases hsame with rfl | hcls
  · obtain rfl : e = c := Option.some.inj (hown.cls.symm.trans hc)
    obtain ⟨hlen, hclosed⟩ := And.intro hown.ground.length hown.ground.closed
    have hseen := hscoped'.result_subst hlen hclosed
    obtain ⟨hparams, hresult⟩ := eq_of_identical (hscoped'.params_subst hlen hclosed)
      (hseen ▸ hscoped'.2.subst hlen hclosed) hbound hid
    exact ⟨Signature.paramTypes_subst .. ▸ hparams, hseen ▸ hresult⟩
  · rw [hcls] at hid
    have hplain := subst_no_args_identical hscoped' c.tparams
    exact takes_of_identical hscoped' hbound
      (Signature.identical_trans (Signature.identical_symm hplain) hid)

end Table

namespace Machine

variable {u : Typed.File} {σ : Marks} {e : ClassInfo} {found : Method} {ref : Nat} {m : Mark}
  {name : String} {params : List Ty} {result : Ty} {xs : List Value}

/-- Values that fit types have them. -/
theorem Values.Have.fits {t : Table} (ht : t.Linked) {ps : List TypeParam} {as : List Ty}
    {args : List Typed.Expr} {tys : List Ty}
    (h : Values.Have t σ xs (args.map fun x => x.ty.subst ps as)) (hlen : args.length = tys.length)
    (hfit : ∀ e ∈ args.zip tys, t.Fits e.1.ty e.2) :
    Values.Have t σ xs (tys.map (Ty.subst ps as)) := by
  induction args generalizing xs tys with
  | nil =>
      obtain rfl := List.length_eq_zero_iff.1 hlen.symm
      exact h
  | cons x rest ih =>
      cases tys with
      | nil => simp at hlen
      | cons ty tys =>
          cases h with
          | cons hx hrest =>
              exact .cons (hx.fits ht ((hfit (x, ty) List.mem_cons_self).subst ps as))
                (ih hrest (Nat.succ.inj hlen) fun e he => hfit e (List.mem_cons_of_mem _ he))

/-- A function is found by its name. -/
theorem funcNamed?_eq (hu : u.Ok) {g : Typed.Func} (hg : g ∈ u.funcs) :
    u.funcNamed? g.decl.name.text = some g := by
  obtain ⟨g', hg'⟩ := Option.isSome_iff_exists.1
    (List.find?_isSome.2 ⟨g, hg, by simp⟩ :
      (u.funcs.find? (·.decl.name.text = g.decl.name.text)).isSome = true)
  have hname : g'.decl.name.text = g.decl.name.text := by simpa using List.find?_some hg'
  rw [Typed.File.funcNamed?, hg',
    List.inj_on_of_nodup_map hu.names (List.mem_of_find?_eq_some hg') hg hname]

/-- The variables of a function that is no method are its parameters. -/
theorem declared_types {Γ : Typed.Context} {g : Typed.Func} (hg : g.Ok Γ)
    (hrecv : g.header.recv = none) (ps : List TypeParam) (as : List Ty) :
    g.header.declared.map (fun v => v.ty.subst ps as) =
      g.header.sig.paramTypes.map (Ty.subst ps as) := by
  rw [Typed.Header.declared, hrecv, Signature.paramTypes, hg.params]
  simp

/-- A function that is called by its name takes the call. -/
theorem accepts_func (hu : u.Ok) {ps : List TypeParam} {as targs : List Ty} {sig : Signature}
    {host : Bool} (hsig : u.signatures.lookup name = some (host, sig))
    (hinst : (u.context ps).Instance sig.tparams targs) (hground : u.table.Ground ps as)
    (hxs : Values.Have u.table σ xs
      ((sig.subst sig.tparams targs).paramTypes.map (Ty.subst ps as))) :
    ∃ g, u.funcNamed? name = some g ∧
      (if g.decl.host then Graph.Callee.host name else .func g.ref) =
        (if host then .host name else .func (.func name)) ∧
      Accepts u σ (if host then .host name else .func (.func name)) xs
        ((sig.subst sig.tparams targs).result.subst ps as) := by
  obtain ⟨g, hg, heq⟩ := List.mem_map.1 (Check.mem_of_lookup hsig)
  obtain ⟨rfl, rfl, rfl⟩ : g.decl.name.text = name ∧ g.decl.host = host ∧ g.header.sig = sig := by
    simpa using heq
  obtain ⟨href, hrecv, hplain, hok⟩ := hu.funcs g hg
  have hfound := funcNamed?_eq hu hg
  refine ⟨g, hfound, by rw [href], ?_⟩
  have hscoped : g.header.sig.Scoped u.table.arity g.header.sig.tparams := hu.sound.funcs _ _ _ hsig
  have hground' := hinst.ground hu.sound.table hground
  have hresult : (g.header.sig.subst g.header.sig.tparams targs).result.subst ps as =
      g.header.sig.result.subst g.header.sig.tparams (Ty.substAll ps as targs) := by
    rw [hscoped.result_subst hinst.length hinst.known, hscoped.2.subst_subst hinst.length]
  have hparams : (g.header.sig.subst g.header.sig.tparams targs).paramTypes.map (Ty.subst ps as) =
      g.header.declared.map fun v => v.ty.subst g.header.sig.tparams (Ty.substAll ps as targs) := by
    rw [declared_types hok hrecv, Signature.paramTypes_subst, List.map_map]
    exact List.map_congr_left fun ty hty => (hscoped.1 ty hty).1.subst_subst hinst.length
  rw [hparams] at hxs
  rw [hresult]
  cases hhost : g.decl.host with
  | true =>
      have hnil := hplain hhost
      rw [hnil] at hxs ⊢
      simp only [Ty.subst_nil] at hxs ⊢
      exact .host (List.mem_filter.2 ⟨hg, by simpa using hhost⟩) hxs
  | false =>
      rw [if_neg (by simp), ← href]
      exact .func (.func hg (Typed.File.mem_bodies.2 (.inl ⟨Typed.File.mem_funcs.1 hg, hhost⟩)))
        hground' hxs

/-- The method that is found takes the call. -/
theorem accepts_method (hu : u.Ok) (hindexed : ∀ c ∈ u.table.classes, Check.Indexed c.tparams)
    (hm : σ ref = some m) (hwhole : m.whole = true) (howns : u.table.Owns e m.type)
    (hfound : u.table.lookupMethod e.id name = some found)
    (htakes : Table.Takes m.type e found params result)
    (hxs : Values.Have u.table σ xs params) :
    Accepts u σ (.func found.ref) (.obj ref :: xs) result := by
  obtain ⟨d, hd, hmem, as, hground, hfits, hcls, hsubst⟩ := howns.declaring hu.sound.table
    (hindexed e (Table.classOf?_mem howns.cls)) hfound
  obtain ⟨g, hg, himpl⟩ := hu.methods d hd found hmem
  obtain ⟨v, hrecv, hty⟩ := himpl.recv
  have hbinds : u.Binds g d.tparams := .method hd hmem hg himpl
  obtain ⟨hscoped, -⟩ := hu.sound.table.method_types d hd found hmem
  have hparams : found.sig.paramTypes = g.header.params.map (·.1.ty) := by
    rw [← himpl.sig, Signature.paramTypes, himpl.ok.params, List.map_map]
    rfl
  have hargs : Values.Have u.table σ (.obj ref :: xs)
      (g.header.declared.map fun v => v.ty.subst d.tparams as) := by
    rw [Typed.Header.declared, hrecv, Option.toList_some, List.singleton_append, List.map_cons, hty]
    refine .cons (.obj hm hwhole howns hfits hcls) ?_
    have hsame : found.sig.paramTypes.map (Ty.subst d.tparams as) = params := by
      rw [← htakes.params]
      exact List.map_congr_left fun ty hty => hsubst ty (hscoped.1 ty hty).1
    rw [← hsame, hparams, List.map_map] at hxs
    rwa [List.map_map]
  have haccepts := Accepts.func hbinds hground hargs
  rw [himpl.ref, himpl.sig, hsubst _ hscoped.2, htakes.result] at haccepts
  exact haccepts

end Machine

end ClassLang
