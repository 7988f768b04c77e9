import ClassLang.Proofs.Llvm.Declared
import ClassLang.Proofs.Tree.Encoded

/-!
Modules are well typed. References become pointers to bytes, so that whichever method a
dispatch table holds for a call has the type that the call takes it as.
-/

namespace ClassLang.Llvm

open Graph (Program)

/-! Functions in their module -/

theorem Body.Typed.mono {v v' : Visible} {result : Ty} {body : Body} (h : Body.Typed v result body)
    (hmono : ∀ x : Operand, x.Typed v → x.Typed v') : Body.Typed v' result body where
  instrs := h.instrs
  operands k i l hl x hx := hmono x (h.operands k i l hl x hx)
  incoming k i l hl pair hpair := hmono pair.1 (h.incoming k i l hl pair hpair)
  ends k t ht := ⟨(h.ends k t ht).1, fun x hx => hmono x ((h.ends k t ht).2 x hx)⟩

section

variable {u : Typed.File} {d : Declared} {literals : List String} {m : Module}
  {funcs : List Func} {f : Graph.Func} {func : Func} {w : Writer}

/-- What calls refer to is in the module under the same address. -/
theorem Builds.exists_address (h : Builds u d literals m funcs) {head : Func}
    (hhead : head ∈ d.all) : ∃ g ∈ m.funcs, g.address = head.address := by
  rw [h.code]
  simp only [Declared.all, List.mem_append, List.mem_map] at hhead
  rcases hhead with hhead | ⟨entry, hentry, rfl⟩
  · exact ⟨head, List.mem_append_left _ (by simpa [or_assoc] using hhead), rfl⟩
  · obtain ⟨f, hf, _, hdeclared⟩ := Check.forall₂_partner h.lists.funcs.flip hentry
    obtain ⟨g, hg, w, ⟨head', _, _, _, _, hdeclared', _, _, rfl, _⟩, _⟩ :=
      Check.forall₂_partner h.emitted hf
    obtain rfl := Except.ok.inj (hdeclared.symm.trans hdeclared')
    exact ⟨_, List.mem_append_right _ hg, rfl⟩

/-- What operands refer to while a function is written is in the module. -/
theorem Builds.typed_operand (h : Builds u d literals m funcs) {head : Func} {method : Bool}
    (hliterals : w.literals <+: literals) {x : Operand}
    (hx : x.Typed (visible (.ofGraph d f head) ⟨u.table, d, head, method⟩ w)) :
    x.Typed ⟨m.funcs, m.globals, head.params, w.body⟩ := by
  have hglobals : (visible (.ofGraph d f head) ⟨u.table, d, head, method⟩ w).globals ⊆
      m.globals := by
    rw [h.constants]
    intro g hg
    rcases List.mem_append.1 hg with hg | hg
    · exact List.mem_append_left _ hg
    · obtain ⟨more, rfl⟩ := hliterals
      refine List.mem_append_right _ ?_
      rw [textGlobals, List.mapIdx_append]
      exact List.mem_append_left _ hg
  exact hx.mono (fun _ hhead => h.exists_address hhead) hglobals rfl fun k i l hl =>
    ⟨l, hl, rfl, rfl⟩

theorem Builds.typed_func (h : Builds u d literals m funcs)
    (hemitted : Emitted u d literals f func w) :
    Body.Typed ⟨m.funcs, m.globals, func.params, func.blocks⟩ func.result func.blocks := by
  obtain ⟨⟨head, _, dom, s, _, _, hsound, _, rfl, hdone, hfilled⟩, hliterals⟩ := hemitted
  exact (typed hsound hdone hfilled).mono fun x => h.typed_operand hliterals

/-- A function that is defined elsewhere has no instructions. -/
theorem Body.Typed.empty (v : Visible) (result : Ty) : Body.Typed v result [] := by
  constructor <;> intros <;> simp_all [Body.line?, Body.terminator?]

theorem Builds.typed_funcs (h : Builds u d literals m funcs) :
    ∀ g ∈ m.funcs, Body.Typed ⟨m.funcs, m.globals, g.params, g.blocks⟩ g.result g.blocks := by
  intro g hg
  have hcode := hg
  rw [h.code] at hcode
  rcases List.mem_append.1 hcode with hbare | hfunc
  · rw [h.blocks_of_declared g hbare]
    exact .empty _ _
  · obtain ⟨f, _, w, hemitted⟩ := Check.forall₂_partner h.emitted.flip hfunc
    exact h.typed_func hemitted

end

/-- The function that a call names is in the module, with the types of the call. -/
theorem Operand.Typed.callee {v : Visible} {name : String} {type result : Ty} {params : List Ty}
    (h : (Operand.global name type).Typed v) (htype : type = .func result params) :
    ∃ f ∈ v.funcs, f.name = name ∧ f.type = type := by
  generalize hx : Operand.global name type = x at h
  cases h with
  | func hfunc =>
      obtain ⟨rfl, rfl⟩ := Operand.global.inj hx
      exact ⟨_, hfunc, rfl, rfl⟩
  | @global g _ =>
      obtain ⟨_, rfl⟩ := Operand.global.inj hx
      cases hcontents : g.contents <;> rw [hcontents] at htype <;> cases htype
  | _ => cases hx

/-! Calls of methods -/

/-- Instruction `i` of the graph `f` has been written as a call of what is at place `slot` of
the dispatch table of a receiver of the type `ty`. What is found there is taken as a function of
the type `type`, which is that of the signature that the call goes by. -/
structure CallsMethod (f : Graph.Func) (w : Writer) (i : Nat) (v : Graph.Instr)
    (ty : ClassLang.Ty) (slot : Int) (type : Ty) : Prop where
  receiver : ∃ j r, v.args[1]? = some (some j) ∧ f.instr? j = some r ∧ r.type = some ty
  signature : ∃ j r sig, v.args[0]? = some (some j) ∧ f.instr? j = some r ∧
    r.number.toInt = slot ∧ r.type.bind Signature.ofTy? = some sig ∧ methodType sig = .ok type
  written : ∃ j n k l impl n' k' l' args, v.args[0]? = some (some j) ∧
    w.results[j]? = some (some (.result n (.ptr type))) ∧
    w.body.line? k l = some ⟨n, .bitcast impl (.ptr type)⟩ ∧
    w.results[i]? = some (some (.result n' (Instr.callResult (.ptr type)))) ∧
    w.body.line? k' l' = some ⟨n', .call (.result n (.ptr type)) args⟩

/-- Whichever class a receiver of the type `ty` is of, the method that its dispatch table holds
at place `slot` is a function of the type `type`. -/
def HoldsMethods (t : Table) (m : Module) (ty : ClassLang.Ty) (slot : Int) (type : Ty) : Prop :=
  ∀ c, t.Reaches c ty → ∀ l, (Layouts.build t).named? c.name = some l →
    ∀ method, l.method? slot = some method → ∃ g ∈ m.funcs, g.name = method.ref.text ∧
      g.type = type ∧ ∃ entries, (⟨dispatchSymbol l.name, .pointers entries⟩ : Global) ∈ m.globals ∧
        entries[slot.toNat]? = some (.cast g.address .bytes)

section

variable {c : Context} {e : Env} {dom : Graph.Doms} {s s' : Writer}

/-- Filling in phis leaves all other instructions alone. -/
theorem Filled.line_same (h : Done c e dom c.order [] s) (hs : Filled c s.phis s s')
    {k i : Nat} {l : Line} (hl : s.body.line? k i = some l) (hphi : l.instr.isPhi = false) :
    s'.body.line? k i = some l := by
  obtain ⟨l', hl'⟩ := hs.kept k i l hl
  obtain ⟨l₀, hl₀, hnumber, _, ⟨rfl, _⟩ | ⟨v, _, hnoted, _⟩⟩ := hs.lines k i l' hl'
  · rwa [Option.some.inj (hl.symm.trans hl₀)]
  · obtain rfl := Option.some.inj (hl.symm.trans hl₀)
    obtain ⟨_, type, _, _, _, hline⟩ := h.inv.phis _ v hnoted
    obtain ⟨rfl, rfl⟩ := h.inv.numbers _ _ _ _ _ _ hl hline hnumber
    obtain rfl := Option.some.inj (hl.symm.trans hline)
    cases hphi

/-- The result of an instruction is kept when all blocks have been written. -/
theorem Done.result (hc : Sound c e dom) (h : Done c e dom c.order [] s) {i : Nat}
    {v : Graph.Instr} (hv : c.graph.instr? i = some v) (hvoid : v.op.isVoid = false) :
    ∃ x type, s.results[i]? = some (some x) ∧ resultType? v = some type ∧ x.type = type ∧
      Form s v x := by
  have hhome := hc.mem_order.2 (hc.good.coded.home i v hv)
  have hdone : i ∈ c.order.flatMap c.graph.values :=
    List.mem_flatMap.2 ⟨v.block, hhome, mem_values_of_block hc hv⟩
  obtain ⟨x, hx⟩ := h.stored.there i hdone v hv hvoid
  obtain ⟨w, type, hw, hresult, hmade, hform⟩ := h.inv.results i x hx
  obtain rfl := Option.some.inj (hv.symm.trans hw)
  exact ⟨x, type, hx, hresult, hmade.type, hform⟩

/-- The operands that a call through a dispatch table has. -/
theorem GraphTyped.callIndirect {f : Graph.Func} (h : GraphTyped e f) {i : Nat} {v : Graph.Instr}
    (hv : f.instr? i = some v) (hop : v.op = .callIndirect) : ∃ type j entry sig j' recv ty,
      v.args[0]? = some (some j) ∧ f.instr? j = some entry ∧ entry.op = .dispatchEntry ∧
      entry.type.bind Signature.ofTy? = some sig ∧ methodType sig = .ok type ∧
      v.args[1]? = some (some j') ∧ f.instr? j' = some recv ∧ recv.type = some ty ∧
      Dispatches e.table ty entry.number.toInt type := by
  obtain ⟨params, result, hargs, hfinds⟩ : ∃ params result,
      List.Forall₂ (Carries f) v.args (.ptr (.func result params) :: params) ∧
        FindsMethod e.table f v.args (.func result params) := by
    cases h.instrs i v hv with
    | callIndirect _ args _ finds => exact ⟨_, _, args, finds⟩
    | operation op => simp [hop, operation?] at op
    | equality op => simp [hop] at op
    | _ => simp_all
  obtain ⟨j, j', rest, entry, recv, ty, hlist, hentry, hop', hrecv, hty, hdispatch⟩ :=
    hfinds.exists_operands
  obtain ⟨sig, type, hsig, htype⟩ : ∃ sig type,
      entry.type.bind Signature.ofTy? = some sig ∧ methodType sig = .ok type := by
    cases h.instrs j entry hentry with
    | dispatchEntry _ signature erased => exact ⟨_, _, signature, erased⟩
    | operation op => simp [hop', operation?] at op
    | equality op => simp [hop'] at op
    | _ => simp_all
  -- the entry is taken as what the call goes by
  obtain rfl : type = .func result params := by
    rw [hlist] at hargs
    cases hargs with
    | cons hcarried _ =>
        obtain ⟨_, _, hj, hentry', _, hresult⟩ := hcarried
        obtain rfl := Option.some.inj hj
        obtain rfl := Option.some.inj (hentry.symm.trans hentry')
        simpa [resultType?, hop', hsig, htype, Except.toOption] using hresult
  exact ⟨_, j, entry, sig, j', recv, ty, by rw [hlist]; rfl, hentry, hop', hsig, htype,
    by rw [hlist]; rfl, hrecv, hty, hdispatch⟩

/-- A call through a dispatch table is written as such a call. -/
theorem exists_callsMethod (hc : Sound c e dom) (h : Done c e dom c.order [] s)
    (hs : Filled c s.phis s s') {i : Nat} {v : Graph.Instr} (hv : c.graph.instr? i = some v)
    (hop : v.op = .callIndirect) : ∃ ty slot type,
      CallsMethod c.graph s' i v ty slot type ∧ Dispatches e.table ty slot type := by
  obtain ⟨type, j, entry, sig, j', recv, ty, hj, hentry, hop', hsig, htype, hj', hrecv, hty,
    hdispatch⟩ := hc.typed.callIndirect hv hop
  obtain ⟨x, _, hx, hresult, hxtype, hform⟩ := h.result hc hentry (by rw [hop']; rfl)
  obtain ⟨y, _, hy, _, _, hform'⟩ := h.result hc hv (by rw [hop]; rfl)
  simp only [Form, hop'] at hform
  simp only [Form, hop] at hform'
  obtain ⟨k, l, n, impl, type', rfl, hline⟩ := hform
  obtain ⟨k', l', n', j'', callee, args, rfl, hline', hj'', hcallee⟩ := hform'
  obtain rfl := Option.some.inj (Option.some.inj (hj.symm.trans hj''))
  obtain rfl := Option.some.inj (Option.some.inj (hx.symm.trans hcallee))
  obtain rfl : type' = type := by
    simp only [resultType?, hop', hsig, htype, Except.toOption, Option.bind_some,
      Option.map_some, Option.some.injEq] at hresult
    rw [← hresult] at hxtype
    simpa [Operand.type] using hxtype
  refine ⟨ty, entry.number.toInt, type', ⟨⟨j', recv, hj', hrecv, hty⟩,
    ⟨j, entry, sig, hj, hentry, rfl, hsig, htype⟩,
    ⟨j, n, k, l, impl, n', k', l', args, hj, ?_, hs.line_same h hline rfl, ?_,
      hs.line_same h hline' rfl⟩⟩, hdispatch⟩
  · rw [hs.same.1]
    exact hx
  · rw [hs.same.1]
    exact hy

end

/-! Dispatch tables -/

section

variable {u : Typed.File} {d : Declared} {literals : List String} {m : Module}
  {funcs : List Func} {method : Method} {l : ClassLayout} {slot : Int} {ty : ClassLang.Ty}
  {type : Ty}

/-- A method is a function of the module under its name. -/
theorem Builds.exists_method (h : Builds u d literals m funcs) (hu : Ripe u) {c : ClassInfo}
    (hc : c ∈ u.table.classes) (hm : method ∈ c.methods) : ∃ g ∈ m.funcs,
      g.name = method.ref.text ∧ methodType method.sig = .ok g.type ∧
      ∃ head, d.find? (some (.func method.ref)) = some head ∧ head.address = g.address := by
  obtain ⟨g, hg, himplements⟩ := hu.ok.methods c hc method hm
  obtain ⟨body, hbody⟩ := Option.isSome_iff_exists.1 (hu.ok.bodied g hg)
  obtain ⟨head, params, result, herases, hlookup, hdeclare, hparams, hresult⟩ :=
    exists_head hu.ok h.lists hg hbody
  obtain ⟨hname, _, _, hmethod⟩ := Graph.Func.ofTyped_head hu.ok hg hbody
  obtain ⟨v, hv, _⟩ := himplements.recv
  rw [himplements.sig] at herases
  rw [himplements.ref] at hlookup hname
  have hfind : d.find? (some (.func method.ref)) = some head := hlookup
  obtain ⟨func, hfunc, haddress⟩ := h.exists_address (Declared.mem_all hfind)
  obtain ⟨hsame, htypes⟩ := Operand.global.inj haddress
  refine ⟨func, hfunc, ?_, ?_, head, hfind, haddress.symm⟩
  · obtain ⟨_, _, rfl⟩ := declare_inv hdeclare
    rw [hsame]
    dsimp only
    rw [symbol, hmethod, hv]
    exact hname
  · rw [htypes, methodType_ok herases, Func.type, hparams, hresult, hv]
    rfl

/-- What a call through a dispatch table may find are functions of the type that it takes
them as. -/
theorem Builds.holdsMethods (h : Builds u d literals m funcs) (hu : Ripe u)
    (hdispatch : Dispatches u.table ty slot type) : HoldsMethods u.table m ty slot type := by
  intro c hreach l hl method hmethod
  have hknown : c ∈ u.table.classes := by
    cases hreach with
    | cls _ known => exact known
    | param _ _ _ known => exact known
  have hlinked : u.table.Linked := hu.ok.sound.table.linked
  obtain ⟨l', hl', hlayout⟩ := Layouts.named?_build hlinked hknown
  obtain rfl := Option.some.inj (hl.symm.trans hl')
  have hheld := hdispatch c hreach l hl method hmethod
  unfold ClassLayout.method? at hmethod
  split at hmethod
  · cases hmethod
  obtain ⟨entry, hentry, himpl⟩ := Option.bind_eq_some_iff.1 hmethod
  -- what is in the table is a method of some class, which is a function of the unit
  obtain ⟨k, hk, hmem⟩ : ∃ k ∈ u.table.classes, method ∈ k.methods := by
    have hlookup := Layouts.dispatchTable_impl u.table (Layouts.build u.table).slots c slot.toNat
    rw [← hlayout.dispatch, hentry, Option.bind_some, himpl] at hlookup
    obtain ⟨name, _, hfound⟩ := Option.bind_eq_some_iff.1 hlookup.symm
    exact mem_methods_of_lookup hfound
  obtain ⟨g, hg, hname, htype, head, hhead, haddress⟩ := h.exists_method hu hk hmem
  refine ⟨g, hg, hname, ?_, l.dispatch.map (dispatchEntry d), ?_, ?_⟩
  · exact Except.ok.inj (htype.symm.trans hheld)
  · rw [h.constants]
    refine List.mem_append_left _ (List.mem_flatMap.2 ⟨l, List.mem_of_find?_eq_some hl, ?_⟩)
    exact List.mem_cons_of_mem _ (List.mem_singleton.2 rfl)
  · rw [List.getElem?_map, hentry, Option.map_some, dispatchEntry, himpl, Option.bind_some, hhead,
      ← haddress]

/-- Each method takes its receiver first. -/
theorem Emitted.receiver {f : Graph.Func} {func : Func} {w : Writer}
    (h : Emitted u d literals f func w) (hmethod : f.isMethod = true) :
    func.params.head? = some ⟨"self", .bytes⟩ := by
  obtain ⟨⟨head, _, _, _, _, hdeclare, _, _, rfl, _⟩, _⟩ := h
  obtain ⟨_, _, rfl⟩ := declare_inv hdeclare
  rw [hmethod]
  rfl

end

/-- A call of a function of the module passes operands of the types of its parameters, and has
the type of its result. -/
theorem Body.Typed.call {m : Module} {g : Func} {name : String} {type : Ty} {args : List Operand}
    {k i n : Nat} (h : Body.Typed ⟨m.funcs, m.globals, g.params, g.blocks⟩ g.result g.blocks)
    (hl : Body.line? g.blocks k i = some ⟨n, .call (.global name type) args⟩) :
    ∃ callee ∈ m.funcs, callee.name = name ∧ callee.type = type ∧
      args.map (·.type) = callee.params.map (·.type) ∧
      (Instr.call (.global name type) args).type = callee.result := by
  cases h.instrs k i _ hl with
  | @call _ _ result params hcallee hargs =>
      obtain rfl : type = .func result params := Ty.ptr.inj hcallee
      obtain ⟨callee, hmem, hname, htype⟩ :=
        (h.operands k i _ hl _ List.mem_cons_self).callee rfl
      obtain ⟨hresult, hparams⟩ := Ty.func.inj htype
      exact ⟨callee, hmem, hname, htype, hargs.trans hparams.symm, hresult.symm⟩

/-- Whatever was accepted becomes a module that is well typed, also where a call goes through a
dispatch table: it takes what it finds there as a function of the type that all the methods
have that its receiver may have at that place. -/
theorem emitted_modules_wellTyped {name : String} {bytes : List UInt8} {limit : Option Nat}
    {typed : Typed.File} (hparse : (parseFile name bytes).reports = [])
    (hcheck : (parseFile name bytes).file.check limit = .ok typed) (hlimit : limit ≠ some 0)
    (hlength : bytes.length < 2 ^ 63) (source : String) :
    let p := Program.ofTyped typed (Layouts.build typed.table)
    ∃ m d funcs, emit p source = .ok m ∧ Declared.ofProgram p = .ok d ∧
      m.funcs = supportFuncs ++ [compareTexts] ++ d.hosts ++ funcs ∧
      (∀ g ∈ m.funcs,
        Body.Typed ⟨m.funcs, m.globals, g.params, g.blocks⟩ g.result g.blocks ∧
        ∀ k i n name type args,
          Body.line? g.blocks k i = some ⟨n, .call (.global name type) args⟩ →
            ∃ callee ∈ m.funcs, callee.name = name ∧ callee.type = type ∧
              args.map (·.type) = callee.params.map (·.type) ∧
              (Instr.call (.global name type) args).type = callee.result) ∧
      List.Forall₂ (fun f g => ∃ head before w, d.funcs.lookup f.ref = some head ∧
        (Write.body (.ofGraph d f head)).run (.start f before) = .ok (g.blocks, w) ∧
        g.blocks = w.body ∧
        (f.isMethod = true → g.params.head? = some ⟨"self", .bytes⟩) ∧
        ∀ i v, f.instr? i = some v → v.op = .callIndirect → ∃ ty slot type,
          CallsMethod f w i v ty slot type ∧ HoldsMethods typed.table m ty slot type)
        p.funcs funcs := by
  intro p
  have hripe := checked_ripe hparse hcheck hlimit hlength
  obtain ⟨m, d, literals, funcs, hemit, hbuilds⟩ := exists_module hripe source
  refine ⟨m, d, funcs, hemit, hbuilds.declared, hbuilds.code, fun g hg => ?_,
    hbuilds.emitted.imp ?_⟩
  · have hbody := hbuilds.typed_funcs g hg
    exact ⟨hbody, fun k i n name type args hl => hbody.call hl⟩
  · rintro f g ⟨w, hemitted⟩
    have hreceiver := hemitted.receiver
    obtain ⟨⟨head, before, dom, s, hlookup, _, hsound, hrun, hfunc, hdone, hfilled⟩, _⟩ := hemitted
    refine ⟨head, before, w, hlookup, hrun, by rw [hfunc], hreceiver, fun i v hv hop => ?_⟩
    obtain ⟨ty, slot, type, hcalls, hdispatch⟩ :=
      exists_callsMethod hsound hdone hfilled hv hop
    exact ⟨ty, slot, type, hcalls, hbuilds.holdsMethods hripe hdispatch⟩

/-- A text where a method is overridden and called. -/
def overrideText : List UInt8 :=
  "class A{fun m(self){}}class B:A{fun m(self){}}fun f(a:A){a.m();}".toUTF8.toList

theorem overrideText_wellTyped : ∃ typed m,
    (parseFile "t" overrideText).reports = [] ∧
    (parseFile "t" overrideText).file.check none = .ok typed ∧ overrideText.length < 2 ^ 63 ∧
    emit (Program.ofTyped typed (Layouts.build typed.table)) "t" = .ok m ∧
    (∀ g ∈ m.funcs, Body.Typed ⟨m.funcs, m.globals, g.params, g.blocks⟩ g.result g.blocks) ∧
    ∃ f ∈ (Program.ofTyped typed (Layouts.build typed.table)).funcs, ∃ i v, f.instr? i = some v ∧
      v.op = .callIndirect ∧ ∃ w ty slot type, CallsMethod f w i v ty slot type ∧
        HoldsMethods typed.table m ty slot type := by
  have hrun : (fun r : Parsed => (r.reports, (r.file.check none).toOption.map fun typed =>
      (Program.ofTyped typed (Layouts.build typed.table)).funcs.any fun f =>
        f.instrs.any fun v => v.op = .callIndirect)) (parseFile "t" overrideText) =
      ([], some true) := by
    rw [overrideText, parseFile_ofList]
    decide +kernel
  have hlength : overrideText.length < 2 ^ 63 := by decide +kernel
  obtain ⟨hparse, typed, hcheck, hcalls⟩ := Parsed.exists_checked hrun
  obtain ⟨m, d, funcs, hemit, _, _, htyped, hall⟩ :=
    emitted_modules_wellTyped hparse hcheck (by simp) hlength "t"
  obtain ⟨f, hf, hany⟩ := List.any_eq_true.1 hcalls
  obtain ⟨i, hi, hop⟩ := Array.any_eq_true.1 hany
  obtain ⟨g, _, head, before, w, _, _, _, _, hindirect⟩ := Check.forall₂_partner hall hf
  have hop := of_decide_eq_true hop
  have hv : f.instr? i = some f.instrs[i] := Array.getElem?_eq_getElem hi
  obtain ⟨ty, slot, type, hcall⟩ := hindirect i _ hv hop
  exact ⟨typed, m, hparse, hcheck, hlength, hemit, fun g hg => (htyped g hg).1, f, hf, i, _, hv,
    hop, w, ty, slot, type, hcall⟩

end ClassLang.Llvm
