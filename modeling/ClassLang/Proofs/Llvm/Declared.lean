import ClassLang.Proofs.Formed.Unit
import ClassLang.Proofs.Graph.Unit
import ClassLang.Proofs.Llvm.Stmt
import ClassLang.Proofs.Llvm.Written

/-!
The declarations of a module. Every function and every host function of a unit that was
accepted is declared with the types of its signature, so that calls find what they name.
-/

namespace ClassLang.Llvm

open Graph (Program)

theorem mapM_ok {α β ε : Type} {f : α → Except ε β} {l : List α} (h : ∀ x ∈ l, ∃ y, f x = .ok y) :
    ∃ ys, l.mapM f = .ok ys ∧ List.Forall₂ (fun x y => f x = .ok y) l ys := by
  induction l with
  | nil => exact ⟨[], rfl, .nil⟩
  | cons x l ih =>
      obtain ⟨y, hy⟩ := h x List.mem_cons_self
      obtain ⟨ys, hys, hall⟩ := ih fun z hz => h z (List.mem_cons_of_mem _ hz)
      refine ⟨y :: ys, ?_, .cons hy hall⟩
      rw [List.mapM_cons, hy, hys]
      rfl

variable {u : Typed.File} {g : Typed.Func} {body : Typed.Block}

/-! Signatures and graphs of a unit -/

/-- The signature of a function becomes types of LLVM. -/
theorem Typed.Func.Ok.erases {Γ : Typed.Context} (h : g.Ok Γ) :
    ∃ params result, g.header.sig.Erases params result := by
  have hscoped : g.header.sig.Scoped Γ.table.arity Γ.tparams := by
    refine ⟨fun t ht => ?_, h.result⟩
    rw [Signature.paramTypes, h.params, List.map_map] at ht
    obtain ⟨e, he, rfl⟩ := List.mem_map.1 ht
    refine h.types e.1 ?_
    simp only [Typed.Header.vars, List.mem_reverse, List.mem_append]
    exact Or.inr (List.mem_map_of_mem he)
  exact Signature.exists_erases hscoped

/-- The facts about the body of a function are among those about the unit. -/
theorem body_facts {T : Table} (hfacts : Typed.FactsFormed T u.facts) (hg : g ∈ u.bodies)
    (hbody : g.body = some body) : Typed.FactsFormed T body.facts := by
  have hown : Typed.FactsFormed T g.facts := by
    obtain ⟨hg, _⟩ | ⟨k, hk, hg⟩ := Typed.File.mem_bodies.1 hg
    · exact Typed.factsFormed_flatMap.1 hfacts _ hg
    · have hcls := Typed.factsFormed_flatMap.1 hfacts _ hk
      simp only [Typed.Decl.facts, Typed.factsFormed_append, Typed.factsFormed_flatMap] at hcls
      exact hcls.2 g hg
  simp only [Typed.Func.facts, Typed.factsFormed_append] at hown
  have hlast := hown.2
  rw [hbody] at hlast
  simpa using hlast

/-! Declarations -/

/-- A declaration has the name that it is for. -/
theorem declare_inv {name : String} {sig : Option Signature} {method : Bool} {head : Func}
    (h : declare name sig method = .ok head) : ∃ params result, head =
      { name, params := (if method then [⟨"self", .bytes⟩] else []) ++ params, result } := by
  unfold declare at h
  cases sig with
  | none => cases h
  | some s =>
      dsimp only [Bind.bind, Except.bind] at h
      split at h
      · cases h
      · split at h
        · cases h
        · exact ⟨_, _, (Except.ok.inj h).symm⟩

/-- What is declared of a program: its host functions and its functions in their order. -/
structure Declared.Lists (d : Declared) (p : Program) : Prop where
  hosts : List.Forall₂ (fun (h : Graph.HostDecl) (head : Func) =>
    declare h.name (some h.sig) false = .ok head) p.hosts d.hosts
  funcs : List.Forall₂ (fun (f : Graph.Func) (entry : Option FuncRef × Func) =>
    entry.1 = f.ref ∧ declare (symbol f) f.sig f.isMethod = .ok entry.2) p.funcs d.funcs

theorem lookup_listed {fs : List Graph.Func} {entries : List (Option FuncRef × Func)}
    {P : Graph.Func → Func → Prop}
    (h : List.Forall₂ (fun f entry => entry.1 = f.ref ∧ P f entry.2) fs entries)
    (hrefs : (fs.map (·.ref)).Nodup) {f : Graph.Func} (hf : f ∈ fs) :
    ∃ head, entries.lookup f.ref = some head ∧ P f head := by
  induction h with
  | nil => cases hf
  | @cons f' entry fs entries hentry _ ih =>
      obtain ⟨hnew, hrefs⟩ := List.nodup_cons.1 hrefs
      rw [List.lookup_cons]
      rcases List.mem_cons.1 hf with rfl | hf
      · rw [hentry.1, beq_self_eq_true]
        exact ⟨entry.2, rfl, hentry.2⟩
      · have hne : f.ref ≠ entry.1 := by
          rw [hentry.1]
          intro heq
          apply hnew
          change f'.ref ∈ fs.map (·.ref)
          rw [← heq]
          exact List.mem_map_of_mem hf
        rw [beq_eq_false_iff_ne.2 hne]
        exact ih hrefs hf

section

variable {d : Declared}

/-- Everything in an accepted unit can be declared. -/
theorem exists_declared (hu : u.Ok) :
    ∃ d, Declared.ofProgram (Program.ofTyped u (Layouts.build u.table)) = .ok d ∧
      d.Lists (Program.ofTyped u (Layouts.build u.table)) := by
  let p := Program.ofTyped u (Layouts.build u.table)
  have hhosts : ∀ h ∈ p.hosts, ∃ head, declare h.name (some h.sig) false = .ok head := by
    intro h hh
    obtain ⟨g, hg, rfl⟩ := List.mem_map.1 hh
    obtain ⟨params, result, herases⟩ :=
      Typed.Func.Ok.erases (hu.funcs g (List.mem_filter.1 hg).1).2.2.2
    obtain ⟨head, hhead, _⟩ := declare_ok herases g.decl.name.text false
    exact ⟨head, hhead⟩
  have hfuncs : ∀ f ∈ p.funcs, ∃ entry : Option FuncRef × Func,
      (return (f.ref, ← declare (symbol f) f.sig f.isMethod) :
        Except EmitError (Option FuncRef × Func)) = .ok entry := by
    intro f hf
    obtain ⟨g, hg, heq⟩ := List.mem_filterMap.1 hf
    obtain ⟨body, hbody, rfl⟩ := Option.map_eq_some_iff.1 heq
    obtain ⟨Δ, hok, _⟩ := Graph.Func.exists_context hu hg
    obtain ⟨params, result, herases⟩ := Typed.Func.Ok.erases hok
    obtain ⟨_, _, hsig, _⟩ := Graph.Func.ofTyped_head hu hg hbody
    obtain ⟨head, hhead, _⟩ := declare_ok herases
      (symbol (Graph.Func.ofTyped (Layouts.build u.table) g body))
      (Graph.Func.ofTyped (Layouts.build u.table) g body).isMethod
    exact ⟨_, by rw [hsig, hhead]; rfl⟩
  obtain ⟨hosts, hrun, hall⟩ := mapM_ok hhosts
  obtain ⟨funcs, hrun', hall'⟩ := mapM_ok hfuncs
  refine ⟨⟨hosts, funcs⟩, ?_, hall, hall'.imp fun f entry hentry => ?_⟩
  · change (do
      let hosts ← p.hosts.mapM fun h => declare h.name (some h.sig) false
      let funcs ← p.funcs.mapM fun f => return (f.ref, ← declare (symbol f) f.sig f.isMethod)
      return (⟨hosts, funcs⟩ : Declared) : Except EmitError Declared) = _
    rw [hrun, hrun']
    rfl
  · cases hhead : declare (symbol f) f.sig f.isMethod with
    | error e =>
        rw [hhead] at hentry
        cases hentry
    | ok head =>
        rw [hhead] at hentry
        obtain rfl := Except.ok.inj hentry
        exact ⟨rfl, rfl⟩

/-- A function of a unit is declared under its name, with the types of its signature. -/
theorem exists_head (hu : u.Ok) (hd : d.Lists (Program.ofTyped u (Layouts.build u.table)))
    (hg : g ∈ u.bodies) (hbody : g.body = some body) :
    ∃ head params result, g.header.sig.Erases params result ∧
      d.funcs.lookup (some g.ref) = some head ∧
      declare (symbol (Graph.Func.ofTyped (Layouts.build u.table) g body)) (some g.header.sig)
        g.header.recv.isSome = .ok head ∧
      head.params.map (·.type) =
        (if g.header.recv.isSome then [.bytes] else []) ++ params ∧ head.result = result := by
  obtain ⟨hname, href, hsig, hmethod⟩ := Graph.Func.ofTyped_head hu hg hbody
  obtain ⟨head, hlookup, hhead⟩ := lookup_listed
    (P := fun f head => declare (symbol f) f.sig f.isMethod = .ok head) hd.funcs (Program.refs_nodup hu)
    (Program.mem_funcs hg hbody)
  obtain ⟨Δ, hok, _⟩ := Graph.Func.exists_context hu hg
  obtain ⟨params, result, herases⟩ := Typed.Func.Ok.erases hok
  rw [href] at hlookup
  rw [hsig, hmethod] at hhead
  obtain ⟨head', hhead', _, hresult, _, hparams⟩ := declare_ok herases
    (symbol (Graph.Func.ofTyped (Layouts.build u.table) g body)) g.header.recv.isSome
  obtain rfl := Except.ok.inj (hhead.symm.trans hhead')
  exact ⟨head, params, result, herases, hlookup, hhead, hparams, hresult⟩

/-- A host function is declared under its name, with the types of its signature. -/
theorem exists_host (hu : u.Ok) (hd : d.Lists (Program.ofTyped u (Layouts.build u.table)))
    (hg : g ∈ u.funcs) (hhost : g.decl.host = true) :
    ∃ head params result, g.header.sig.Erases params result ∧
      d.hosts.find? (·.name = g.decl.name.text) = some head ∧
      head.params.map (·.type) = params ∧ head.result = result := by
  have hlist : ∀ head ∈ d.hosts, ∃ g' ∈ u.funcs, head.name = g'.decl.name.text ∧
      declare g'.decl.name.text (some g'.header.sig) false = .ok head := by
    intro head hhead
    obtain ⟨h, hh, hdeclared⟩ := Check.forall₂_partner hd.hosts.flip hhead
    obtain ⟨g', hg', rfl⟩ := List.mem_map.1 hh
    have hg' := (List.mem_filter.1 hg').1
    obtain ⟨_, _, herases⟩ := Typed.Func.Ok.erases (hu.funcs g' hg').2.2.2
    obtain ⟨head', hdeclared', hname, _⟩ := declare_ok herases g'.decl.name.text false
    obtain rfl := Except.ok.inj (hdeclared.symm.trans hdeclared')
    exact ⟨g', hg', hname, hdeclared⟩
  obtain ⟨params, result, herases⟩ := Typed.Func.Ok.erases (hu.funcs g hg).2.2.2
  obtain ⟨head, hdeclared, hname, hresult, _, hparams⟩ :=
    declare_ok herases g.decl.name.text false
  -- the first declaration of the name is that of the function, since names are unique
  have hmem : g ∈ u.hosts := List.mem_filter.2 ⟨hg, hhost⟩
  obtain ⟨first, hfirst, hdeclared'⟩ := Check.forall₂_partner hd.hosts (List.mem_map_of_mem hmem)
  obtain rfl := Except.ok.inj (hdeclared.symm.trans hdeclared')
  have hsome : (d.hosts.find? (·.name = g.decl.name.text)).isSome = true :=
    List.find?_isSome.2 ⟨head, hfirst, by simpa using hname⟩
  obtain ⟨found, hfound⟩ := Option.isSome_iff_exists.1 hsome
  obtain ⟨g', hg', hname', hdeclared''⟩ := hlist found (List.mem_of_find?_eq_some hfound)
  have hsame : found.name = g.decl.name.text := by simpa using List.find?_some hfound
  obtain rfl : g' = g := List.inj_on_of_nodup_map hu.names hg' hg (hname'.symm.trans hsame)
  obtain rfl := Except.ok.inj (hdeclared.symm.trans hdeclared'')
  exact ⟨head, params, result, herases, hfound, hparams, hresult⟩

/-- The declarations cover what the bodies of a unit call. -/
theorem covers (hu : u.Ok) (hd : d.Lists (Program.ofTyped u (Layouts.build u.table)))
    (hnames : ∃ names : List String, names.length ≤ 2 ^ 63 ∧
      ∀ c ∈ u.table.classes, ∀ m ∈ c.methods, m.name ∈ names)
    (head : Func) (method : Bool) (Δ : List TypeParam) :
    (Env.mk u.table d head method).Covers (u.context Δ) where
  table := rfl
  names := hnames
  funcs name host sig hlookup := by
    obtain ⟨g, hg, heq⟩ := List.mem_map.1 (Check.mem_of_lookup hlookup)
    obtain ⟨rfl, hrest⟩ := Prod.mk.inj heq
    obtain ⟨rfl, rfl⟩ := Prod.mk.inj hrest
    cases hhost : g.decl.host with
    | true => exact exists_host hu hd hg hhost
    | false =>
        obtain ⟨href, hrecv, _⟩ := hu.funcs g hg
        have hbodies : g ∈ u.bodies :=
          Typed.File.mem_bodies.2 (Or.inl ⟨Typed.File.mem_funcs.1 hg, hhost⟩)
        obtain ⟨body, hbody⟩ := Option.isSome_iff_exists.1 (hu.bodied g hbodies)
        obtain ⟨head, params, result, herases, hlookup, _, hparams, hresult⟩ :=
          exists_head hu hd hbodies hbody
        rw [href] at hlookup
        rw [hrecv] at hparams
        exact ⟨head, params, result, herases, hlookup, hparams, hresult⟩
  methods c hc m hm := by
    obtain ⟨g, hg, himplements⟩ := hu.methods c hc m hm
    obtain ⟨body, hbody⟩ := Option.isSome_iff_exists.1 (hu.bodied g hg)
    obtain ⟨head, params, result, herases, hlookup, _, hparams, hresult⟩ :=
      exists_head hu hd hg hbody
    obtain ⟨v, hv, _⟩ := himplements.recv
    rw [himplements.sig] at herases
    rw [himplements.ref] at hlookup
    rw [hv] at hparams
    exact ⟨head, params, result, herases, hlookup, hparams, hresult⟩

end

/-! Functions of a unit -/

/-- What a function of a graph is written with. -/
def Context.ofGraph (d : Declared) (f : Graph.Func) (head : Func) : Context :=
  { declared := d, graph := f, head, order := f.reversePostOrder }

/-- What is known of a unit when its module is written: it is well typed, its types are
well-formed, and its functions and methods are not too many to be counted. -/
structure Ripe (u : Typed.File) : Prop where
  ok : u.Ok
  facts : Typed.FactsFormed u.table u.facts
  binders : ∀ g ∈ u.bodies, g.binders.length ≤ 2 ^ 63
  names : ∃ names : List String, names.length ≤ 2 ^ 63 ∧
    ∀ c ∈ u.table.classes, ∀ m ∈ c.methods, m.name ∈ names

/-- A text that was accepted can be written as a module. -/
theorem checked_ripe {name : String} {bytes : List UInt8} {limit : Option Nat}
    (hparse : (parseFile name bytes).reports = [])
    (hcheck : (parseFile name bytes).file.check limit = .ok u) (hlimit : limit ≠ some 0)
    (hlength : bytes.length < 2 ^ 63) : Ripe u where
  ok := checked_ok hparse hcheck hlimit
  facts := File.check_factsFormed hcheck hlimit
  binders g hg := Nat.le_trans (checked_binders_le hparse hcheck hlimit g hg) (Nat.le_of_lt hlength)
  names := by
    obtain ⟨names, hnames, hall⟩ := checked_method_names hparse hcheck hlimit
    exact ⟨names, Nat.le_trans hnames (Nat.le_of_lt hlength), hall⟩

theorem Ty.ofTy?_selfType (c : ClassInfo) : Ty.ofTy? (Check.selfType c) = some .bytes := by
  unfold Check.selfType
  split <;> rfl

/-- The graph of a function can be written for its declaration. -/
theorem exists_sound (hu : Ripe u) {d : Declared}
    (hd : d.Lists (Program.ofTyped u (Layouts.build u.table))) (hg : g ∈ u.bodies)
    (hbody : g.body = some body) :
    ∃ head dom, d.funcs.lookup (some g.ref) = some head ∧
      declare (symbol (Graph.Func.ofTyped (Layouts.build u.table) g body)) (some g.header.sig)
        g.header.recv.isSome = .ok head ∧
      Sound (.ofGraph d (Graph.Func.ofTyped (Layouts.build u.table) g body) head)
        ⟨u.table, d, head, g.header.recv.isSome⟩ dom := by
  obtain ⟨dom, hgood, _⟩ := Graph.Func.lowered_good hu.ok hg hbody
  obtain ⟨Δ, hok, _⟩ := Graph.Func.exists_context hu.ok hg
  obtain ⟨_, _, hsig, hmethod⟩ := Graph.Func.ofTyped_head hu.ok hg hbody
  obtain ⟨head, params, result, herases, hlookup, hhead, hparams, hresult⟩ :=
    exists_head hu.ok hd hg hbody
  have hdeclares : Graph.Build.Declares ⟨u.table, d, head, g.header.recv.isSome⟩ g := by
    refine ⟨rfl, fun v hv => ?_, params, hresult ▸ herases, hparams⟩
    rcases hu.ok.bodies g hg with hfunc | ⟨c, _, m, _, himplements⟩
    · rw [(hu.ok.funcs g hfunc).2.1] at hv
      cases hv
    · obtain ⟨w, hw, hty⟩ := himplements.recv
      obtain rfl := Option.some.inj (hw.symm.trans hv)
      rw [hty]
      exact Ty.ofTy?_selfType c
  have hlimit : g.header.params.length ≤ 2 ^ 63 := by
    have hbinders := hu.binders g hg
    simp only [Typed.Func.binders, List.length_append, List.length_map] at hbinders
    omega
  have htyped := Graph.Func.ofTyped_typed (covers hu.ok hd hu.names head _ Δ)
    ⟨hu.ok.sound.table, hu.ok.sound.funcs⟩ hok hbody (body_facts hu.facts hg hbody)
    (hu.ok.binders g hg) hlimit hdeclares
  refine ⟨head, dom, hlookup, hhead, rfl, rfl, hmethod, hgood, htyped, rfl, fun hnone => ?_⟩
  have hvoid : g.header.sig.result.isVoid = true := by
    simpa [Context.ofGraph, Graph.Func.hasResult, hsig] using hnone
  have hresult' := herases.result
  cases hty : g.header.sig.result <;> rw [hty] at hvoid hresult' <;> cases hvoid
  obtain rfl := Option.some.inj hresult'
  exact hresult

end ClassLang.Llvm

/-!
Modules of units that were accepted. Every graph becomes a function of the module, and what
operands refer to is in the module.
-/

namespace ClassLang.Llvm

open Graph (Program)

variable {u : Typed.File} {d : Declared} {f : Graph.Func} {func : Func} {m : Module}
  {literals : List String} {w : Writer}

/-- What writing the function `func` for the graph `f` leaves, where the texts of the whole
module are `literals`. -/
structure Emitted (u : Typed.File) (d : Declared) (literals : List String) (f : Graph.Func)
    (func : Func) (w : Writer) : Prop where
  exists_run : ∃ head before dom s, d.funcs.lookup f.ref = some head ∧
    declare (symbol f) f.sig f.isMethod = .ok head ∧
    Sound (.ofGraph d f head) ⟨u.table, d, head, f.isMethod⟩ dom ∧
    (Write.body (.ofGraph d f head)).run (.start f before) = .ok (func.blocks, w) ∧
    func = { head with blocks := w.body } ∧
    Done (.ofGraph d f head) ⟨u.table, d, head, f.isMethod⟩ dom f.reversePostOrder [] s ∧
    Filled (.ofGraph d f head) s.phis s w
  texts : w.literals <+: literals

theorem Emitted.mono {more : List String} (h : Emitted u d literals f func w)
    (hmore : literals <+: more) : Emitted u d more f func w :=
  ⟨h.exists_run, h.texts.trans hmore⟩

theorem emitFunc_eq {head : Func} {entry : Nat} (hlookup : d.funcs.lookup f.ref = some head)
    (hentry : f.entry = some entry) : emitFunc d f literals =
      (Write.body (.ofGraph d f head)).run (.start f literals) >>= fun p =>
        .ok ({ head with blocks := p.1 }, p.2.literals) := by
  unfold emitFunc
  rw [hlookup, hentry]
  rfl

/-- Each graph can be written. -/
theorem emitFunc_ok (hu : Ripe u) (hd : d.Lists (Program.ofTyped u (Layouts.build u.table)))
    {g : Typed.Func} {body : Typed.Block} (hg : g ∈ u.bodies) (hbody : g.body = some body)
    (literals : List String) :
    ∃ func w, emitFunc d (Graph.Func.ofTyped (Layouts.build u.table) g body) literals =
        .ok (func, w.literals) ∧ literals <+: w.literals ∧
      Emitted u d w.literals (Graph.Func.ofTyped (Layouts.build u.table) g body) func w := by
  obtain ⟨_, href, hsig, hmethod⟩ := Graph.Func.ofTyped_head hu.ok hg hbody
  obtain ⟨head, dom, hlookup, hdeclare, hsound⟩ := exists_sound hu hd hg hbody
  obtain ⟨s, w, hrun, hdone, hfilled, hliterals⟩ := body_written hsound literals
  rw [← href] at hlookup
  rw [← hsig, ← hmethod] at hdeclare
  rw [← hmethod] at hsound hdone
  refine ⟨{ head with blocks := w.body }, w, ?_, hliterals, ⟨head, literals, dom, s, hlookup,
    hdeclare, hsound, hrun, rfl, hdone, hfilled⟩, List.prefix_refl _⟩
  have hentry : (Graph.Func.ofTyped (Layouts.build u.table) g body).entry = some 0 :=
    hsound.good.wired.entry
  rw [emitFunc_eq hlookup hentry]
  have hrun' : (Write.body (.ofGraph d (Graph.Func.ofTyped (Layouts.build u.table) g body)
      head)).run (.start (Graph.Func.ofTyped (Layouts.build u.table) g body) literals) =
        .ok (w.body, w) := hrun
  rw [hrun']
  rfl

/-- All graphs can be written. -/
theorem emitFuncs_ok (hu : Ripe u) (hd : d.Lists (Program.ofTyped u (Layouts.build u.table)))
    {fs : List Graph.Func} (hfs : ∀ f ∈ fs, ∃ g ∈ u.bodies, ∃ body, g.body = some body ∧
      f = Graph.Func.ofTyped (Layouts.build u.table) g body) (literals : List String) :
    ∃ funcs literals', emitFuncs d fs literals = .ok (funcs, literals') ∧
      literals <+: literals' ∧
      List.Forall₂ (fun f func => ∃ w, Emitted u d literals' f func w) fs funcs := by
  induction fs generalizing literals with
  | nil => exact ⟨[], literals, rfl, List.prefix_refl _, .nil⟩
  | cons f fs ih =>
      obtain ⟨g, hg, body, hbody, rfl⟩ := hfs f List.mem_cons_self
      obtain ⟨func, w, hrun, hprefix, hemitted⟩ := emitFunc_ok hu hd hg hbody literals
      obtain ⟨funcs, literals', hrun', hprefix', hall⟩ :=
        ih (fun f hf => hfs f (List.mem_cons_of_mem _ hf)) w.literals
      refine ⟨func :: funcs, literals', ?_, hprefix.trans hprefix',
        .cons ⟨w, hemitted.mono hprefix'⟩ hall⟩
      rw [emitFuncs, hrun]
      change (emitFuncs d fs w.literals >>= fun p => .ok (func :: p.1, p.2)) = _
      rw [hrun']
      rfl

/-- The module of a unit: the functions of its graphs stand behind the declarations of what is
defined elsewhere, and the constants of its classes before those for texts. -/
structure Builds (u : Typed.File) (d : Declared) (literals : List String) (m : Module)
    (funcs : List Func) : Prop where
  declared : Declared.ofProgram (Program.ofTyped u (Layouts.build u.table)) = .ok d
  lists : d.Lists (Program.ofTyped u (Layouts.build u.table))
  code : m.funcs = supportFuncs ++ [compareTexts] ++ d.hosts ++ funcs
  constants : m.globals = (Layouts.build u.table).classes.flatMap (classGlobals d) ++
    textGlobals literals
  emitted : List.Forall₂ (fun f func => ∃ w, Emitted u d literals f func w)
    (Program.ofTyped u (Layouts.build u.table)).funcs funcs

/-- What is defined elsewhere has no blocks. -/
theorem Builds.blocks_of_declared (h : Builds u d literals m funcs) :
    ∀ g ∈ supportFuncs ++ [compareTexts] ++ d.hosts, g.blocks = [] := by
  intro g hg
  rcases List.mem_append.1 hg with hg | hg
  · simp only [supportFuncs, List.cons_append, List.nil_append, List.mem_cons,
      List.not_mem_nil, or_false] at hg
    rcases hg with rfl | rfl | rfl <;> rfl
  · obtain ⟨_, _, hdeclared⟩ := Check.forall₂_partner h.lists.hosts.flip hg
    obtain ⟨_, _, rfl⟩ := declare_inv hdeclared
    rfl

/-- Every unit that was accepted has a module. -/
theorem exists_module (hu : Ripe u) (source : String) : ∃ m d literals funcs,
    emit (Program.ofTyped u (Layouts.build u.table)) source = .ok m ∧
      Builds u d literals m funcs := by
  obtain ⟨d, hdeclared, hlists⟩ := exists_declared hu.ok
  have hfs : ∀ f ∈ (Program.ofTyped u (Layouts.build u.table)).funcs, ∃ g ∈ u.bodies, ∃ body,
      g.body = some body ∧ f = Graph.Func.ofTyped (Layouts.build u.table) g body := by
    intro f hf
    obtain ⟨g, hg, heq⟩ := List.mem_filterMap.1 hf
    obtain ⟨body, hbody, rfl⟩ := Option.map_eq_some_iff.1 heq
    exact ⟨g, hg, body, hbody, rfl⟩
  obtain ⟨funcs, literals, hrun, _, hall⟩ := emitFuncs_ok hu hlists hfs []
  have hemit : emit (Program.ofTyped u (Layouts.build u.table)) source = .ok
      { source, layout := targetLayout, triple := targetTriple
        globals := (Layouts.build u.table).classes.flatMap (classGlobals d) ++ textGlobals literals
        funcs := supportFuncs ++ [compareTexts] ++ d.hosts ++ funcs } := by
    unfold emit
    rw [hdeclared]
    dsimp only [Bind.bind, Except.bind]
    rw [hrun]
    rfl
  exact ⟨_, d, literals, funcs, hemit, hdeclared, hlists, rfl, rfl, hall⟩

end ClassLang.Llvm
