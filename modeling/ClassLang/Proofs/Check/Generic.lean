import Mathlib
import ClassLang.Proofs.Tree.Encoded
import ClassLang.Tree.Parse
import ClassLang.Proofs.Check.Collection
import ClassLang.Proofs.Check.Inference

/-!
Calls of generic functions and initializers of generic classes, wherever they stand in a unit
whose declarations were collected without an error.
-/

namespace ClassLang

namespace Check

variable {f : File} {c : Collected} {env : Env} {consts : ConstSource}

/-- The environment of code in a collected unit, whatever scopes are around it. -/
structure Inside (c : Collected) (env : Env) : Prop where
  table : env.table = c.table
  funcs : env.funcs = c.funcs.map fun p => (p.decl.name.text, p.header.sig)
  collected : env.collecting = false

namespace Inside

theorem topEnv (c : Collected) : Inside c (CollectedOk.topEnv c) := ⟨rfl, rfl, rfl⟩

theorem enter (h : Inside c env) (s : Scope Symbol) : Inside c (env.enter s) :=
  ⟨h.table, h.funcs, h.collected⟩

end Inside

/-- The type parameters of a function know their places, and its parameters have types. -/
theorem CollectedOk.lookup_func (h : CollectedOk f c) (henv : Inside c env) {name : String}
    {sig : Signature} (hsig : env.funcs.lookup name = some sig) :
    Indexed sig.tparams ∧ ∀ ty ∈ sig.paramTypes, ty.isInvalid = false := by
  rw [henv.funcs] at hsig
  obtain ⟨p, hp, heq⟩ := List.mem_map.1 (mem_of_lookup hsig)
  cases heq
  obtain ⟨_, _, _, hheader⟩ := h.funcs.prepared p hp
  exact ⟨hheader.indexed, fun ty hty => (hheader.scoped.1 ty hty).1.isInvalid⟩

/-- The type parameters of a class know their places, and its fields have types. -/
theorem CollectedOk.classNamed? (h : CollectedOk f c) {name : String} {k : ClassInfo}
    (hk : c.table.classNamed? name = some k) :
    Indexed k.tparams ∧ ∀ fd ∈ c.table.flatFields k.id, fd.ty.isInvalid = false := by
  have hmem := List.mem_of_find?_eq_some hk
  have hid := h.linkedTo.linked.class?_id hmem
  refine ⟨?_, fun fd hfd => ?_⟩
  · obtain ⟨_, _, _, hall⟩ := h.members
    obtain ⟨info, m, _, hok⟩ := hall k.id (Table.class?_eq_some_lt hid)
    obtain rfl : k = info := Option.some.inj (hid.symm.trans hok.class?)
    rw [hok.tparams]
    exact hok.opened.indexed
  · have hfield := h.wellTyped.lookupField_scoped hid
      (h.wellTyped.lookupField_eq (Table.class?_eq_some_lt hid) hfd)
    exact hfield.2.1.isInvalid

/-! Operands -/

/-- Operands that pass have values. -/
theorem operands_valued (env : Env) (consts : ConstSource) (args : List Expr) :
    Gives (operands env consts args) fun r =>
    ∀ xs, r = some xs → ∀ x ∈ xs, x.ty.isVoid = false := by
  induction args with
  | nil =>
      unfold operands
      refine .pure fun xs hxs => ?_
      obtain rfl := Option.some.inj hxs
      simp
  | cons e rest ih =>
      unfold operands
      refine (Gives.trivial _).bind fun x _ => ?_
      dsimp only
      split
      next x =>
        refine hasValue_gives.bind fun ok hok => ih.bind fun r hr => ?_
        split
        next x' xs heq =>
          obtain rfl := Option.some.inj heq
          refine .pure fun ys hys => ?_
          split at hys
          next htrue =>
            obtain rfl := Option.some.inj hys
            exact List.forall_mem_cons.2 ⟨hok htrue, hr xs rfl⟩
          next => cases hys
        next => exact .pure (by simp)
      next =>
        refine (Gives.trivial _).bind fun ok _ => ih.bind fun r hr => ?_
        split
        next heq => cases heq
        next => exact .pure (by simp)

/-- The values that a filling has taken so far, if all is well. -/
def Filling.Valued (filling : Filling) : Prop :=
  filling.ok = true → ∀ e ∈ filling.given, e.2.ty.isVoid = false

theorem Filling.valued_empty : Filling.Valued {} := by simp [Valued]

theorem fillField_valued {cls : String} {fields : List Field} {filling : Filling} {key : Ident}
    {value : Option Operand} (h : filling.Valued) :
    Gives (fillField cls fields filling key value) Filling.Valued := by
  unfold fillField
  dsimp only
  split
  next => exact (Gives.trivial _).bind fun _ _ => .pure fun hok => by cases hok
  next =>
    split
    next => exact (Gives.trivial _).bind fun _ _ => .pure fun hok => by cases hok
    next =>
      split
      next => exact .pure fun hok => by cases hok
      next x =>
        refine hasValue_gives.bind fun ok hx => .pure fun hok => ?_
        obtain ⟨hfilling, rfl⟩ : filling.ok = true ∧ ok = true := by simpa using hok
        intro e he
        rcases List.mem_append.1 he with he | he
        · exact h hfilling e he
        · obtain rfl := List.mem_singleton.1 he
          exact hx rfl

/-- The elements of an initializer that pass have values. -/
theorem elements_valued (env : Env) (consts : ConstSource) (cls : String) (fields : List Field)
    (elems : List (Ident × Expr)) {filling : Filling} (h : filling.Valued) :
    Gives (elements env consts cls fields filling elems) fun r => r.1.Valued := by
  induction elems generalizing filling with
  | nil =>
      unfold elements
      exact .pure h
  | cons e rest ih =>
      obtain ⟨key, value⟩ := e
      unfold elements
      exact (Gives.trivial _).bind fun _ _ => (fillField_valued h).bind fun _ hfill =>
        (ih hfill).bind fun _ hr => .pure hr

/-! Calls and initializers -/

/-- A call of a generic function with as many operands as parameters. -/
theorem funcCall_infers (hc : CollectedOk f c) (henv : Inside c env) {fn : Ident} {sym : Symbol}
    {sig : Signature} (hsig : env.funcs.lookup fn.text = some sig) (hgeneric : sig.tparams ≠ [])
    {xs : List Operand} (hlen : xs.length = sig.params.length)
    (hvalue : ∀ x ∈ xs, x.ty.isVoid = false) (s : Session) :
    Infers c.table sig.tparams sig.paramTypes (xs.map (·.ty))
      (fun targs => .call fn sym targs (sig.subst sig.tparams targs) (xs.map (·.expr))) s
      ((funcCall env fn sym sig (some xs)).run s) := by
  obtain ⟨hindexed, hvalid⟩ := hc.lookup_func henv hsig
  have harguments : ∀ targs, arguments env fn.pos fn.text (sig.subst sig.tparams targs) xs =
      assignableAll env.table ((xs.zip (sig.subst sig.tparams targs).paramTypes).map
        fun p => (p.1, p.2, "argument to " ++ fn.text)) := by
    intro targs
    unfold arguments
    rw [if_neg (by simp [Signature.length_subst, hlen])]
  rw [← henv.table]
  refine infers_of_run henv.collected fn.pos fn.text hindexed (by simp [Signature.paramTypes, hlen])
    hvalue hvalid (fun targs => (xs.zip (sig.subst sig.tparams targs).paramTypes).map
      fun p => (p.1, p.2, "argument to " ++ fn.text)) ?_ ?_ s
  · intro targs
    simp [Signature.paramTypes_subst, Function.comp_def]
  · unfold funcCall
    have hparams : sig.tparams.isEmpty = false := by simpa using hgeneric
    rw [hparams]
    refine congrArg (infer env fn.pos fn.text sig.tparams sig.paramTypes xs >>= ·)
      (funext fun solved => ?_)
    cases solved with
    | none => rfl
    | some targs => exact congrArg (· >>= _) (harguments targs)

/-- An initializer of a generic class whose elements are well, with a value for each field. -/
theorem initialized_infers (hc : CollectedOk f c) (henv : Inside c env) {cls : Ident} {sym : Symbol}
    {name : String} {k : ClassInfo} (hk : c.table.classNamed? name = some k)
    (hgeneric : k.isGeneric = true) {filling : Filling} {elems : List (Ident × Typed.Expr)}
    (hok : filling.ok = true) (hvalue : filling.Valued) {xs : List Operand}
    (hxs : (c.table.flatFields k.id).map (fun fd => filling.given.lookup fd.name) = xs.map some)
    (s : Session) :
    Infers c.table k.tparams ((c.table.flatFields k.id).map (·.ty)) (xs.map (·.ty))
      (fun targs => .init cls sym (.inst k.name targs) (c.table.flatFields k.id) elems) s
      ((initialized env cls sym k filling elems).run s) := by
  obtain ⟨hindexed, hvalid⟩ := hc.classNamed? hk
  have hgiven : ∀ fd ∈ c.table.flatFields k.id, ∃ x ∈ xs, filling.given.lookup fd.name = some x := by
    intro fd hfd
    have hmem := List.mem_map_of_mem (f := fun fd => filling.given.lookup fd.name) hfd
    rw [hxs] at hmem
    obtain ⟨x, hx, heq⟩ := List.mem_map.1 hmem
    exact ⟨x, hx, heq.symm⟩
  have hcomplete : (c.table.flatFields k.id).filter
      (fun fd => !filling.given.any (·.1 = fd.name)) = [] := by
    refine List.filter_eq_nil_iff.2 fun fd hfd => ?_
    obtain ⟨x, _, hx⟩ := hgiven fd hfd
    have hany : filling.given.any (·.1 = fd.name) = true :=
      List.any_eq_true.2 ⟨_, mem_of_lookup hx, by simp⟩
    simp [hany]
  have hoperands : (c.table.flatFields k.id).filterMap
      (fun fd => filling.given.lookup fd.name) = xs := by
    calc (c.table.flatFields k.id).filterMap (fun fd => filling.given.lookup fd.name)
        = ((c.table.flatFields k.id).map fun fd => filling.given.lookup fd.name).filterMap id := by
          rw [List.filterMap_map]
          rfl
      _ = xs := by
          rw [hxs, List.filterMap_map]
          exact List.filterMap_some
  have hlen : xs.length = (c.table.flatFields k.id).length := by
    simpa using (congrArg List.length hxs).symm
  rw [← henv.table] at hcomplete hoperands ⊢
  refine infers_of_run henv.collected cls.pos k.name hindexed (by simp [henv.table, hlen])
    (fun x hx => ?_) ?_ (fun targs => ((env.table.flatFields k.id).zip xs).map fun p =>
      (p.2, p.1.ty.subst k.tparams targs, s!"field {p.1.name} of {k.name}")) (fun targs => ?_) ?_ s
  · obtain ⟨fd, _, hfd⟩ := List.mem_filterMap.1 (hoperands ▸ hx)
    exact hvalue hok _ (mem_of_lookup hfd)
  · intro param hparam
    obtain ⟨fd, hfd, rfl⟩ := List.mem_map.1 hparam
    rw [henv.table] at hfd
    exact hvalid fd hfd
  · rw [List.map_map, List.map_map, List.zip_map_right, ← List.zip_swap, List.map_map]
    rfl
  · unfold initialized
    simp only [hcomplete, hoperands, hok, hgeneric]
    rfl

/-- Type arguments are found if and only if there are some that fit, and then they are those. The
code may be anywhere in a unit whose declarations are without an error. The operands of a call
of a generic function, as many as it has parameters, have been checked, or the elements of an
initializer of a generic class, with a value for each of its fields. -/
theorem type_arguments_sound_complete {f : File} {limit : Option Nat} {c : Collected}
    (hcollected : f.collected? limit = some c) (hlimit : limit ≠ some 0) {env : Env}
    (henv : Inside c env) (consts : ConstSource) (s s' : Session) :
    (∀ (fn id : Ident) (host : Bool) (sig : Signature) (args : List Expr) (xs : List Operand),
      env.lookup fn.text = some (.func id host) →
      env.funcs.lookup fn.text = some sig → sig.tparams ≠ [] →
      (operands env consts args).run s = (some xs, s') → xs.length = sig.params.length →
      Infers c.table sig.tparams sig.paramTypes (xs.map (·.ty))
        (fun targs =>
          .call fn (.func id host) targs (sig.subst sig.tparams targs) (xs.map (·.expr))) s'
        ((expr env consts (.call (.name fn) args)).run s)) ∧
    (∀ (cls id : Ident) (k : ClassInfo) (elems : List (Ident × Expr)) (filling : Filling)
      (values : List (Ident × Typed.Expr)) (xs : List Operand), env.lookup cls.text = some (.cls id) →
      c.table.classNamed? id.text = some k → k.isGeneric = true →
      (elements env consts k.name (c.table.flatFields k.id) {} elems).run s =
        ((filling, values), s') → filling.ok = true →
      (c.table.flatFields k.id).map (fun fd => filling.given.lookup fd.name) = xs.map some →
      Infers c.table k.tparams ((c.table.flatFields k.id).map (·.ty)) (xs.map (·.ty))
        (fun targs => .init cls (.cls id) (.inst k.name targs) (c.table.flatFields k.id) values) s'
        ((expr env consts (.init cls elems)).run s)) := by
  have hc := File.collected?_ok hcollected hlimit
  constructor
  · intro fn id host sig args xs hfn hsig hgeneric hargs hlen
    have hvalue := operands_valued env consts args s xs (by rw [hargs])
    have hrun : (expr env consts (.call (.name fn) args)).run s =
        (funcCall env fn (.func id host) sig (some xs)).run s' := by
      unfold expr
      simp only [hfn]
      rw [Watch.Ensures.run_bind, hargs]
      simp only [hsig]
    rw [hrun]
    exact funcCall_infers hc henv hsig hgeneric hlen hvalue s'
  · intro cls id k elems filling values xs hcls hk hgeneric helems hok hxs
    have hvalue := elements_valued env consts k.name (c.table.flatFields k.id) elems
      Filling.valued_empty s
    rw [helems] at hvalue
    have hrun : (expr env consts (.init cls elems)).run s =
        (initialized env cls (.cls id) k filling values).run s' := by
      rw [← henv.table] at helems hk
      unfold expr
      simp only [hcls, hk]
      rw [Watch.Ensures.run_bind, helems]
    rw [hrun]
    exact initialized_infers hc henv hk hgeneric hok hvalue hxs s'

/-- A text with a generic function and a generic class. -/
def pairText : List UInt8 :=
  "class Cat{} class Box<T>{item:T} fun same<T>(x:T,y:T):T{return x;}".toUTF8.toList

/-- An identifier in a place behind that text. -/
def behindText (text : String) : Ident := ⟨⟨"t.kya", 2, 1⟩, text⟩

/-- An object of class `Cat`. -/
def catExpr : Expr := .init (behindText "Cat") []

/-- A parameter without a bound stands for any class. -/
theorem instantiates_param {t : Table} {p : TypeParam} (hp : p.bound = none) (name : String)
    {params args : List Ty} (hparams : ∀ param ∈ params, param = .param p)
    (hargs : ∀ arg ∈ args, arg = .cls name) : Instantiates t [p] [.cls name] params args := by
  refine ⟨rfl, fun e he => ?_, fun e he => ?_⟩
  · obtain rfl := List.mem_singleton.1 he
    exact ⟨rfl, by simp [hp]⟩
  · obtain ⟨hparam, harg⟩ := List.of_mem_zip he
    rw [hparams _ hparam, hargs _ harg]
    refine ⟨fun _ => ?_, fun hnone => ?_⟩
    · simp [Ty.subst, Ty.substParam, Ty.identical]
    · exact absurd (List.mem_singleton_self p) (hnone p (List.mem_singleton_self p))

set_option synthInstance.maxSize 100000 in
theorem pairText_inferred : ∃ c, (parseFile "t.kya" pairText).file.collected? none = some c ∧
    (∃ sym sig xs targs s', (expr (CollectedOk.topEnv c) foldedValue
        (.call (.name (behindText "same")) [catExpr, catExpr])).run
          { errors := { limit := none } } =
      (some (.call (behindText "same") sym targs sig xs), s') ∧
      Ty.identicalAll targs [.cls "Cat"] = true) ∧
    (∃ sym fields values targs s', (expr (CollectedOk.topEnv c) foldedValue
        (.init (behindText "Box") [(behindText "item", catExpr)])).run
          { errors := { limit := none } } =
      (some (.init (behindText "Box") sym (.inst "Box" targs) fields values), s') ∧
      Ty.identicalAll targs [.cls "Cat"] = true) := by
  let s : Session := { errors := { limit := none } }
  let p (owner : String) : TypeParam := ⟨owner, 0, "T", none⟩
  have hrun : ((parseFile "t.kya" pairText).file.collected? none).map (fun c =>
      ((CollectedOk.topEnv c).lookup "same", (CollectedOk.topEnv c).lookup "Box",
        (CollectedOk.topEnv c).funcs.lookup "same",
        ((operands (CollectedOk.topEnv c) foldedValue [catExpr, catExpr]).run s).1.map
          (·.map (·.ty)),
        (c.table.classNamed? "Box").map fun k => (k.name, k.tparams,
          (c.table.flatFields k.id).map (·.ty),
          ((elements (CollectedOk.topEnv c) foldedValue k.name (c.table.flatFields k.id) {}
            [(behindText "item", catExpr)]).run s).1.1.ok,
          (c.table.flatFields k.id).map fun fd => (((elements (CollectedOk.topEnv c) foldedValue
            k.name (c.table.flatFields k.id) {} [(behindText "item", catExpr)]).run s).1.1.given.lookup
              fd.name).map (·.ty)))) =
      some (some (.func ⟨⟨"t.kya", 1, 38⟩, "same"⟩ false), some (.cls ⟨⟨"t.kya", 1, 19⟩, "Box"⟩),
        some ⟨[p "same"], [⟨"x", ⟨"t.kya", 1, 46⟩, .param (p "same")⟩,
          ⟨"y", ⟨"t.kya", 1, 50⟩, .param (p "same")⟩], .param (p "same")⟩,
        some [.cls "Cat", .cls "Cat"],
        some ("Box", [p "Box"], [.param (p "Box")], true, [some (.cls "Cat")])) := by
    rw [pairText, parseFile_ofList]
    dsimp only [s, p]
    decide +kernel
  obtain ⟨c, hc, hparts⟩ := Option.map_eq_some_iff.1 hrun
  simp only [Prod.mk.injEq, Option.map_eq_some_iff] at hparts
  obtain ⟨hsame, hbox, hsig, ⟨xs, hxs, htypes⟩, k, hk, hname, hps, hfields, hok, hgiven⟩ := hparts
  have hinfers := fun s' =>
    type_arguments_sound_complete hc (by simp) (Inside.topEnv c) foldedValue s s'
  refine ⟨c, hc, ?_, ?_⟩
  · have hlen : xs.length = 2 := by simpa using congrArg List.length htypes
    have hcall := (hinfers _).1 (behindText "same") _ _ _ _ xs hsame hsig (by simp)
      (Prod.ext hxs rfl) hlen
    obtain ⟨targs, hidentical, hrun⟩ := hcall.complete [.cls "Cat"]
      (instantiates_param rfl "Cat" (by simp [Signature.paramTypes]) (by simp [htypes]))
      (by simp [Signature.paramTypes, Ty.mentioned])
    exact ⟨_, _, _, targs, _, hrun, hidentical⟩
  · generalize helems : (elements (CollectedOk.topEnv c) foldedValue k.name
      (c.table.flatFields k.id) {} [(behindText "item", catExpr)]).run s = r at hok hgiven
    obtain ⟨⟨filling, values⟩, s'⟩ := r
    obtain ⟨fd, hflat, htype⟩ := List.map_eq_singleton_iff.1 hfields
    simp only [hflat, List.map_cons, List.map_nil, List.cons.injEq, and_true,
      Option.map_eq_some_iff] at hgiven
    obtain ⟨x, hx, hxtype⟩ := hgiven
    have hinit := (hinfers _).2 (behindText "Box") _ k [(behindText "item", catExpr)] _ _ [x] hbox
      hk (by simp [ClassInfo.isGeneric, hps]) helems hok (by simp [hflat, hx])
    rw [hflat, hps, hname] at hinit
    obtain ⟨targs, hidentical, hrun⟩ := hinit.complete [.cls "Cat"]
      (instantiates_param rfl "Cat" (by simp [htype]) (by simp [hxtype]))
      (by simp [htype, Ty.mentioned])
    exact ⟨_, _, _, targs, _, hrun, hidentical⟩

end Check

end ClassLang
