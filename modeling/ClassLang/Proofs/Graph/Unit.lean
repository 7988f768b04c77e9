import ClassLang.Compile
import ClassLang.Proofs.Check.Result
import ClassLang.Proofs.Graph.Function
import ClassLang.Proofs.Layout.Dispatch
import ClassLang.Proofs.Tree.Encoded

/-!
Accepted units become well-formed graphs. Whatever passes the checker is laid out and
lowered without a fault, so examining the graphs makes no difference to a compilation.
-/

namespace ClassLang

namespace Layouts

variable {t : Table} {b : BoundInfo}

/-- A class that satisfies a bound has the methods of the bound at their slots. -/
theorem methodFault?_build (h : t.WellTyped) {c : ClassInfo} (hc : c ∈ t.classes)
    {l : ClassLayout} (hl : IsLayout t (build t).slots c l)
    (hsat : t.missingMethod? (.cls c.name) b = none) {m : Method} (hm : m ∈ b.methods) :
    (build t).methodFault? b l m = none := by
  have hi := Table.class?_eq_some_lt (h.linked.class?_id hc)
  have hself : t.isAncestor c.id c.id = true :=
    Table.isAncestor_iff.2 (h.linked.mem_chain_self hi)
  have hclass : t.classOf? (.cls c.name) = some c := h.linked.classNamed?_name hc
  obtain ⟨e, he, _⟩ := h.descendant_satisfies hclass hsat hc hself hm
  have hentry := method?_slot? h.linked hc hl m.name
  rw [he] at hentry
  obtain ⟨s, hslot, hmethod⟩ := Option.bind_eq_some_iff.1 hentry
  have hwanted : (build t).table.lookupMethod l.id m.name = some e := by
    rw [hl.id]
    exact he
  simp [methodFault?, hslot, hmethod, hwanted]

/-- Every bound can be called through by every class that satisfies it. -/
theorem faults_build (h : t.WellTyped) : (build t).faults = [] := by
  refine List.flatMap_eq_nil_iff.2 fun b _ => List.flatMap_eq_nil_iff.2 fun l hl => ?_
  obtain ⟨c, hc, hlayout⟩ := (build_classes h.linked).2 l hl
  have hclass : (build t).table.class? l.id = some c := by
    rw [hlayout.id]
    exact h.linked.class?_id hc
  simp only [hclass]
  split
  next => rfl
  next hskip =>
    have hsat : t.missingMethod? (.cls c.name) b = none := by
      simp only [Bool.or_eq_true, not_or] at hskip
      exact Option.not_isSome_iff_eq_none.1 hskip.2
    exact List.filterMap_eq_nil_iff.2 fun m hm => methodFault?_build h hc hlayout hsat hm

end Layouts

namespace Graph

variable {u : Typed.File}

namespace Func

/-- What lowering promises of the graph of a function: it starts at its first block, all its
blocks and instructions are there and have numbers of their own, each block can be reached,
and no rule is broken. -/
structure Clean (f : Func) : Prop where
  entry : f.entry = some 0
  blocks : ∀ b ∈ f.order, (f.block? b).isSome = true
  instrs : ∀ b ∈ f.order, ∀ i ∈ f.values b, (f.instr? i).isSome = true
  reach : ∀ b ∈ f.order, f.Reach b
  block_ids : ((f.order.filterMap f.block?).map (·.id)).Nodup
  instr_ids : (((f.order.flatMap f.values).filterMap f.instr?).map (·.id)).Nodup
  violations : f.violations = .ok []

variable {f : Func} {dom : Doms}

/-- The things that numbers stand for have these numbers. -/
theorem map_filterMap_eq {α : Type} {get : Nat → Option α} {number : α → Nat} {l : List Nat}
    (h : ∀ i ∈ l, ∃ x, get i = some x ∧ number x = i) : (l.filterMap get).map number = l := by
  induction l with
  | nil => rfl
  | cons i rest ih =>
      obtain ⟨x, hx, hnumber⟩ := h i List.mem_cons_self
      rw [List.filterMap_cons_some hx, List.map_cons, hnumber,
        ih fun j hj => h j (List.mem_cons_of_mem _ hj)]

/-- An instruction is in one block only. -/
theorem Coded.nodup_flatMap (h : f.Coded dom) {bs : List Nat} (hbs : bs.Nodup) :
    (bs.flatMap f.values).Nodup := by
  refine List.nodup_flatMap.2 ⟨fun b _ => h.nodup b, hbs.imp fun {a b} hne i ha hb => hne ?_⟩
  obtain ⟨v, hv, rfl⟩ := (h.placed a i).1 ha
  obtain ⟨w, hw, rfl⟩ := (h.placed b i).1 hb
  rw [Option.some.inj (hv.symm.trans hw)]

/-- A graph that obeys the rules of construction and has no open block is clean. -/
theorem Good.clean (h : f.Good dom []) : f.Clean := by
  have hblock : ∀ b ∈ f.order, ∃ x, f.block? b = some x ∧ x.id = b := fun b hb =>
    have hx := Array.getElem?_eq_getElem (h.wired.known b hb)
    ⟨_, hx, (h.wired.ids b _ hx).1⟩
  have hinstr : ∀ i ∈ f.order.flatMap f.values, ∃ v, f.instr? i = some v ∧ v.id = i := by
    intro i hi
    obtain ⟨b, _, hb⟩ := List.mem_flatMap.1 hi
    obtain ⟨v, hv, _⟩ := (h.coded.placed b i).1 hb
    exact ⟨v, hv, h.coded.ids i v hv⟩
  refine
    { entry := h.wired.entry
      blocks := fun b hb => ?_
      instrs := fun b hb i hi => ?_
      reach := fun b hb => h.closed.reach b hb (by simp)
      block_ids := ?_
      instr_ids := ?_
      violations := h.violations }
  · obtain ⟨x, hx, _⟩ := hblock b hb
    rw [hx, Option.isSome_some]
  · obtain ⟨v, hv, _⟩ := hinstr i (List.mem_flatMap.2 ⟨b, hb, hi⟩)
    rw [hv, Option.isSome_some]
  · rw [map_filterMap_eq hblock]
    exact h.wired.nodup
  · rw [map_filterMap_eq hinstr]
    exact h.coded.nodup_flatMap h.wired.nodup

/-- A body of a well typed unit is well typed. -/
theorem exists_context (hu : u.Ok) {g : Typed.Func} (hg : g ∈ u.bodies) :
    ∃ Δ, g.Ok (u.context Δ) ∧ (g.header.recv = none → g.decl.recv = none) := by
  rcases hu.bodies g hg with hfunc | ⟨c, _, m, _, himplements⟩
  · exact ⟨_, (hu.funcs g hfunc).2.2.2, fun _ => hu.free g hfunc⟩
  · refine ⟨_, himplements.ok, fun hnone => ?_⟩
    obtain ⟨v, hv, _⟩ := himplements.recv
    rw [hv] at hnone
    cases hnone

/-- The graph of a function of a well typed unit obeys the rules of construction, and nothing
stops its construction. -/
theorem lowered_good (hu : u.Ok) {g : Typed.Func} (hg : g ∈ u.bodies) {body : Typed.Block}
    (hbody : g.body = some body) : ∃ dom, (ofTyped (Layouts.build u.table) g body).Good dom [] ∧
      (lowered (Layouts.build u.table) g body).faults = [] ∧
      (ofTyped (Layouts.build u.table) g body).head = (Builder.start g.ref.text g.ref
        g.header.sig (g.header.recv.map (·.ty))).func.head := by
  have hsound : ∀ Δ, (u.context Δ).Sound := fun _ => ⟨hu.sound.table, hu.sound.funcs⟩
  obtain ⟨Δ, hok, hfree⟩ := exists_context hu hg
  exact (Build.run_funcBody_good (hsound Δ) hok hbody hfree g.ref.text g.ref
    (g.header.recv.map (·.ty))).2.2

/-- The graph of a function tells which function it is of. -/
theorem ofTyped_head (hu : u.Ok) {g : Typed.Func} (hg : g ∈ u.bodies) {body : Typed.Block}
    (hbody : g.body = some body) : (ofTyped (Layouts.build u.table) g body).name = g.ref.text ∧
    (ofTyped (Layouts.build u.table) g body).ref = some g.ref ∧
    (ofTyped (Layouts.build u.table) g body).sig = some g.header.sig ∧
    (ofTyped (Layouts.build u.table) g body).isMethod = g.header.recv.isSome := by
  obtain ⟨_, _, _, hhead⟩ := lowered_good hu hg hbody
  refine ⟨congrArg (·.1) hhead, congrArg (·.2.1) hhead, congrArg (·.2.2.1) hhead, ?_⟩
  have hrecv : (ofTyped (Layouts.build u.table) g body).recv = g.header.recv.map (·.ty) :=
    congrArg (·.2.2.2.1) hhead
  rw [isMethod, hrecv, Option.isSome_map]

end Func

namespace Program

theorem mem_funcs {g : Typed.Func} {body : Typed.Block} (hg : g ∈ u.bodies)
    (hbody : g.body = some body) : Func.ofTyped (Layouts.build u.table) g body ∈
      (ofTyped u (Layouts.build u.table)).funcs :=
  List.mem_filterMap.2 ⟨g, hg, by rw [hbody]; rfl⟩

/-- The graphs of a unit are those of its functions, each of which has a body. -/
theorem funcs_map {α : Type} (hu : u.Ok) {p : Func → α} {q : Typed.Func → α}
    (h : ∀ g ∈ u.bodies, ∀ body, g.body = some body →
      p (Func.ofTyped (Layouts.build u.table) g body) = q g) :
    (ofTyped u (Layouts.build u.table)).funcs.map p = u.bodies.map q := by
  have hall : ∀ gs : List Typed.Func, (∀ g ∈ gs, g ∈ u.bodies) →
      (gs.filterMap fun g => g.body.map (Func.ofTyped (Layouts.build u.table) g)).map p =
        gs.map q := by
    intro gs hgs
    induction gs with
    | nil => rfl
    | cons g gs ih =>
        have hg := hgs g List.mem_cons_self
        obtain ⟨body, hbody⟩ := Option.isSome_iff_exists.1 (hu.bodied g hg)
        rw [List.filterMap_cons_some (by rw [hbody]; rfl), List.map_cons, List.map_cons,
          h g hg body hbody, ih fun x hx => hgs x (List.mem_cons_of_mem _ hx)]
  exact hall u.bodies fun _ hg => hg

/-- No two graphs of a unit are of the same function. -/
theorem refs_nodup (hu : u.Ok) :
    ((ofTyped u (Layouts.build u.table)).funcs.map (·.ref)).Nodup := by
  rw [funcs_map hu fun g hg body hbody => (Func.ofTyped_head hu hg hbody).2.1,
    ← Function.comp_def, ← List.map_map]
  exact hu.refs.map (Option.some_injective _)

/-- A program finds the graph of each of its functions. -/
theorem func?_ref (hu : u.Ok) {g : Typed.Func} {body : Typed.Block} (hg : g ∈ u.bodies)
    (hbody : g.body = some body) : (ofTyped u (Layouts.build u.table)).func? g.ref =
      some (Func.ofTyped (Layouts.build u.table) g body) := by
  have href := (Func.ofTyped_head hu hg hbody).2.1
  obtain ⟨f, hf⟩ := Option.isSome_iff_exists.1
    (List.find?_isSome.2 ⟨_, mem_funcs hg hbody, by simpa using href⟩ :
      ((ofTyped u (Layouts.build u.table)).funcs.find? (·.ref = some g.ref)).isSome = true)
  have hsame : f.ref = some g.ref := by simpa using List.find?_some hf
  rw [func?, hf, List.inj_on_of_nodup_map (refs_nodup hu) (List.mem_of_find?_eq_some hf)
    (mem_funcs hg hbody) (hsame.trans href.symm)]

/-- The graphs of a well typed unit are clean. -/
theorem funcs_clean (hu : u.Ok) :
    ∀ f ∈ (ofTyped u (Layouts.build u.table)).funcs, f.Clean := by
  intro f hf
  obtain ⟨g, hg, heq⟩ := List.mem_filterMap.1 hf
  obtain ⟨body, hbody, rfl⟩ := Option.map_eq_some_iff.1 heq
  obtain ⟨dom, hgood, _⟩ := Func.lowered_good hu hg hbody
  exact hgood.clean

/-- Nothing stops the construction of the graphs of a well typed unit. -/
theorem faults_nil (hu : u.Ok) : faults u (Layouts.build u.table) = [] := by
  refine List.flatMap_eq_nil_iff.2 fun g hg => ?_
  obtain ⟨body, hbody⟩ := Option.isSome_iff_exists.1 (hu.bodied g hg)
  rw [hbody]
  obtain ⟨dom, _, hfaults, _⟩ := Func.lowered_good hu hg hbody
  exact hfaults

theorem violations_nil {p : Program} (h : ∀ f ∈ p.funcs, f.Clean) : p.violations = .ok [] := by
  have hall : ∀ l : List Func, (∀ f ∈ l, f.Clean) →
      ∃ lists : List (List String), (l.mapM fun f => do
        return (← f.violations).map (·.message f) : Except MissingOperand _) = .ok lists ∧
          lists.flatten = [] := by
    intro l hl
    induction l with
    | nil => exact ⟨[], rfl, rfl⟩
    | cons f rest ih =>
        obtain ⟨lists, hrest, hnil⟩ := ih fun g hg => hl g (List.mem_cons_of_mem _ hg)
        refine ⟨[] :: lists, ?_, hnil⟩
        rw [List.mapM_cons, hrest, (hl f List.mem_cons_self).violations]
        rfl
  obtain ⟨lists, hlists, hnil⟩ := hall p.funcs h
  unfold violations
  rw [hlists, ← hnil]
  rfl

end Program

end Graph

open ClassLang.Graph (Program)

/-- The table of a unit that passes is sealed. -/
theorem File.check_sealed {f : File} {limit : Option Nat} {t : Typed.File}
    (h : f.check limit = .ok t) (hlimit : limit ≠ some 0) : t.table.isSealed = true := by
  obtain ⟨c, hc, htable, _⟩ := check_finish h hlimit
  rw [htable]
  exact hc.isSealed

section

variable {o : CompileOptions} {a : Artifacts} {typed : Typed.File} {ls : Layouts}

theorem lowerPhase_clean (hfaults : Program.faults typed ls = [])
    (hviolations : (Program.ofTyped typed ls).violations = .ok []) :
    lowerPhase o a typed ls = ({ a with program := some (Program.ofTyped typed ls) }, none) := by
  unfold lowerPhase
  dsimp only
  rw [hfaults, hviolations]
  cases o.verify <;> rfl

theorem layoutPhase_clean (hsealed : typed.table.isSealed = true)
    (hbounds : (Layouts.build typed.table).faults = []) (hlast : o.last ≠ some .layout) :
    layoutPhase o a typed = lowerPhase o { a with layouts := some (Layouts.build typed.table) }
      typed (Layouts.build typed.table) := by
  unfold layoutPhase
  simp [hsealed, hbounds, hlast]

end

/-- A text that parses and passes the checker lowers cleanly. Nothing breaks off the layout
of its classes or the construction of its graphs, every bound can be called through, and
every graph is well-formed with all its blocks in reach. So a compilation that is not
cancelled succeeds with the same graphs whether it examines them or not. -/
theorem accepted_units_lower_cleanly {name : String} {bytes : List UInt8} {limit : Option Nat}
    {typed : Typed.File} (hparse : (parseFile name bytes).reports = [])
    (hcheck : (parseFile name bytes).file.check limit = .ok typed) (hlimit : limit ≠ some 0) :
    let ls := Layouts.build typed.table
    let p := Program.ofTyped typed ls
    typed.table.isSealed = true ∧ ls.faults = [] ∧ Program.faults typed ls = [] ∧
    p.violations = .ok [] ∧ (∀ f ∈ p.funcs, f.Clean) ∧
    ∀ o : CompileOptions, o.errorLimit = limit → o.cancelled = false →
      o.last = none ∨ o.last = some .graph →
      compile o name bytes =
        ({ file := (parseFile name bytes).file, checkStarted := true, typed := some typed,
           layouts := some ls, program := some p }, none) := by
  intro ls p
  have hok := checked_ok hparse hcheck hlimit
  have hsealed := File.check_sealed hcheck hlimit
  have hbounds : ls.faults = [] := Layouts.faults_build hok.sound.table
  have hfaults : Program.faults typed ls = [] := Program.faults_nil hok
  have hclean : ∀ f ∈ p.funcs, f.Clean := Program.funcs_clean hok
  have hviolations := Program.violations_nil hclean
  refine ⟨hsealed, hbounds, hfaults, hviolations, hclean, fun o ho hcancelled hlast => ?_⟩
  have hlater : ∀ phase, phase ≠ .graph → o.last ≠ some phase := by
    intro phase hphase
    rcases hlast with hlast | hlast <;> simp [hlast, hphase.symm]
  unfold compile checkPhase
  simp only [hparse, List.isEmpty_nil, Bool.not_true, Bool.false_eq_true, if_false,
    if_neg (hlater .parse (by simp)), hcancelled, ho, hcheck, if_neg (hlater .check (by simp)),
    layoutPhase_clean hsealed hbounds (hlater .layout (by simp))]
  exact lowerPhase_clean hfaults hviolations

/-- A text with a loop whose condition takes several blocks. -/
def loopText : List UInt8 := "fun f(a:bool){while a&&a{}}".toUTF8.toList

theorem loopText_lowered : ∃ typed : Typed.File,
    (parseFile "t" loopText).reports = [] ∧
    (parseFile "t" loopText).file.check none = .ok typed ∧
    (Program.ofTyped typed (Layouts.build typed.table)).funcs.map (·.order) =
      [[0, 1, 2, 3, 4, 5, 6]] ∧
    (∀ f ∈ (Program.ofTyped typed (Layouts.build typed.table)).funcs, f.Clean) ∧
    ∀ verify, (compile { verify } "t" loopText).1.program =
        some (Program.ofTyped typed (Layouts.build typed.table)) ∧
      (compile { verify } "t" loopText).2.isNone = true := by
  have hrun : (fun r : Parsed => (r.reports, (r.file.check none).toOption.map fun typed =>
      (Program.ofTyped typed (Layouts.build typed.table)).funcs.map (·.order)))
        (parseFile "t" loopText) = ([], some [[0, 1, 2, 3, 4, 5, 6]]) := by
    rw [loopText, parseFile_ofList]
    decide +kernel
  obtain ⟨hparse, typed, hcheck, horders⟩ := Parsed.exists_checked hrun
  obtain ⟨_, _, _, _, hclean, hcompile⟩ :=
    accepted_units_lower_cleanly hparse hcheck (by simp)
  refine ⟨typed, hparse, hcheck, horders, hclean, fun verify => ?_⟩
  rw [hcompile { verify } rfl rfl (Or.inl rfl)]
  exact ⟨rfl, rfl⟩

end ClassLang

/-!
The ends of functions. The checker reads off the form of a body whether it returns on every path,
and construction stops in just those bodies. So a return is added at the end of a function just
where none is missing, and a function with a result always returns one.
-/

namespace ClassLang

namespace Typed.File

variable {f : ClassLang.File} {u : File} {limit : Option Nat}

/-- The functions with bodies of a checked unit are those of the unit, in the same order. -/
theorem bodies_decl (hshaped : ∀ d ∈ f.decls, d.Shaped) (h : f.check limit = .ok u)
    (hlimit : limit ≠ some 0) : u.bodies.map (·.decl) = f.functions.filter (!·.host) := by
  obtain ⟨c, _, _, hdecls⟩ := File.check_finish h hlimit
  replace hdecls := hdecls fun d hd => (File.func_shaped hshaped hd).body
  unfold bodies ClassLang.File.functions
  generalize f.decls = ds, u.decls = ks at hdecls hshaped
  induction hdecls with
  | nil => rfl
  | @cons d k ds ks hfirst _ ih =>
      obtain ⟨hd, hds⟩ := List.forall_mem_cons.1 hshaped
      rw [List.flatMap_cons, List.flatMap_cons, List.map_append, List.filter_append, ih hds]
      refine congrArg (· ++ _) ?_
      cases d <;> cases k <;> try exact hfirst.elim
      case cls.cls d k =>
        obtain ⟨_, _, _, hmethods, _⟩ := hfirst
        dsimp only [Decl.functions]
        rw [hmethods, List.filter_eq_self.2 fun m hm => by simp [(hd m hm).2.2]]
      case func.func d g =>
        obtain ⟨rfl, _⟩ := hfirst
        cases hhost : g.decl.host <;> simp [Decl.functions, hhost]
      all_goals rfl

end Typed.File

namespace Graph

namespace Func

/-- Every path from the entry that comes to an end ends in a return with a value, and so does every
block that returns. -/
structure ReturnsValue (f : Func) : Prop where
  blocks : ∀ b ∈ f.order, f.kindOf b = .ret → ∃ c, f.controlsOf b = [some c]
  paths : ∀ b, f.Reach b → f.succs b = [] → f.kindOf b = .ret ∧ ∃ c, f.controlsOf b = [some c]

variable {f : Func} {dom : Doms} {b : Nat}

/-- No path leaves the blocks of a graph. -/
theorem Wired.mem_of_reach (h : f.Wired) (hb : f.Reach b) : b ∈ f.order := by
  induction hb with
  | entry => exact h.mem_zero
  | step _ edge _ => exact (h.inside _ _ edge).2

theorem Good.returnsValue (h : f.Good dom []) (hresult : f.hasResult = true) :
    f.ReturnsValue := by
  have hends : ∀ b ∈ f.order, f.Ends b := fun b hb => h.closed.ends b hb (by simp)
  have hvalue : ∀ result : Option Nat, f.hasResult = result.isSome →
      ∃ c, result.toList.map some = [some c] := by
    intro result hshape
    rw [hresult] at hshape
    obtain ⟨c, rfl⟩ := Option.isSome_iff_exists.1 hshape.symm
    exact ⟨c, rfl⟩
  refine ⟨fun b hb hkind => ?_, fun b hb hsuccs => ?_⟩
  · cases hends b hb with
    | plain kind => simp [kind] at hkind
    | branch kind => simp [kind] at hkind
    | ret result _ _ controls shape => exact controls ▸ hvalue result shape
  · cases hends b (h.wired.mem_of_reach hb) with
    | plain _ succs => simp [hsuccs] at succs
    | branch _ succs => simp [hsuccs] at succs
    | ret result kind _ controls shape => exact ⟨kind, controls ▸ hvalue result shape⟩

/-- Checked statements are lowered to no open block if and only if the statements that they stand for
return on every path. -/
theorem mustReturnAny_iff {ls : Layouts} {ts : List Typed.Stmt} {xs : List Stmt}
    (h : Typed.StandFor ts xs) {s : Builder} (hs : s.current.isSome = true) :
    Stmt.mustReturnAny xs = true ↔ ((Lower.stmts ls ts).run s).2.current = none := by
  have hcurrent : ((Lower.stmts ls ts).run s).2.current.isSome = !Typed.returnsAny ts :=
    (Build.leaves_stmts 0 ts s (Nat.zero_le _)).2 hs
  rw [← h.returns, ← Option.not_isSome_iff_eq_none, hcurrent]
  cases Typed.returnsAny ts <;> simp

/-- The state at the end of the body of a function, before a block that is still open returns. -/
def lowering (ls : Layouts) (g : Typed.Func) (body : Typed.Block) : Builder :=
  ((Build.argumentsAndBody ls g body).run
    (Builder.start g.ref.text g.ref g.header.sig (g.header.recv.map (·.ty)))).2

variable {u : Typed.File} {g : Typed.Func} {body : Typed.Block}

/-- A return is added at the end of a well typed function just if its body does not return on every
path. -/
theorem lowered_eq (hu : u.Ok) (hg : g ∈ u.bodies) (hbody : g.body = some body) :
    let ls := Layouts.build u.table
    (lowering ls g body).current.isSome = !body.returns ∧
      lowered ls g body = if body.returns then lowering ls g body
        else ((Build.ret none).run (lowering ls g body)).2 := by
  intro ls
  have hsound : ∀ Δ, (u.context Δ).Sound := fun _ => ⟨hu.sound.table, hu.sound.funcs⟩
  obtain ⟨Δ, hok, hfree⟩ := exists_context hu hg
  obtain ⟨hcurrent, heq, _⟩ := Build.run_funcBody_good (hsound Δ) hok hbody hfree g.ref.text g.ref
    (g.header.recv.map (·.ty))
  exact ⟨hcurrent, heq⟩

theorem ofTyped_returnsValue (hu : u.Ok) (hg : g ∈ u.bodies) (hbody : g.body = some body)
    (hresult : g.header.sig.result.isVoid = false) :
    (ofTyped (Layouts.build u.table) g body).ReturnsValue := by
  obtain ⟨dom, hgood, _, hhead⟩ := lowered_good hu hg hbody
  refine hgood.returnsValue ?_
  rw [hasResult_congr hhead]
  change (!g.header.sig.result.isVoid) = true
  rw [hresult]
  rfl

end Func

end Graph

open Graph (Builder Lower.stmts Func.lowered Func.lowering Func.ofTyped)

/-- The check for missing returns and construction agree. The functions of an accepted unit that are
lowered are those with a body. For each list of statements in such a body the check finds that it
returns on every path if and only if construction, wherever it starts with an open block, ends
without one. So a return is added at the end of a function just where the check does not find one,
and in a function with a result every return has a value, and every path that ends ends in one. -/
theorem missing_returns_exact {name : String} {bytes : List UInt8} {limit : Option Nat}
    {typed : Typed.File} (hparse : (parseFile name bytes).reports = [])
    (hcheck : (parseFile name bytes).file.check limit = .ok typed) (hlimit : limit ≠ some 0) :
    let ls := Layouts.build typed.table
    typed.bodies.map (·.decl) = (parseFile name bytes).file.functions.filter (!·.host) ∧
    ∀ g ∈ typed.bodies, ∃ source body, g.decl.body = some source ∧ g.body = some body ∧
      List.Forall₂ (fun ts xs => Typed.StandFor ts xs ∧ ∀ s : Builder, s.current.isSome = true →
        (Stmt.mustReturnAny xs = true ↔ ((Lower.stmts ls ts).run s).2.current = none))
        body.lists source.lists ∧
      (source.mustReturn = true → (Func.lowering ls g body).current = none ∧
        Func.lowered ls g body = Func.lowering ls g body) ∧
      (source.mustReturn = false → (Func.lowering ls g body).current.isSome = true ∧
        Func.lowered ls g body = ((Graph.Build.ret none).run (Func.lowering ls g body)).2) ∧
      (g.header.sig.result.isVoid = false → (Func.ofTyped ls g body).ReturnsValue) := by
  intro ls
  have hshaped := (parseFile_clean hparse).2.2
  have hok := checked_ok hparse hcheck hlimit
  refine ⟨Typed.File.bodies_decl hshaped hcheck hlimit, fun g hg => ?_⟩
  obtain ⟨body, hbody⟩ := Option.isSome_iff_exists.1 (hok.bodied g hg)
  obtain ⟨source, hsource, hstands⟩ : ∃ source, g.decl.body = some source ∧
      body.StandsFor source := by
    have hrel := (File.check_bodies hshaped hcheck hlimit g hg).2.2.stands
    rw [Typed.Func.BodyStands, hbody] at hrel
    generalize g.decl.body = b at hrel
    cases hrel with
    | some h => exact ⟨_, rfl, h⟩
  obtain ⟨hcurrent, heq⟩ := Graph.Func.lowered_eq hok hg hbody
  rw [hstands.returns] at hcurrent heq
  refine ⟨source, body, hsource, hbody, hstands.lists.imp fun ts xs h =>
    ⟨h, fun s hs => Graph.Func.mustReturnAny_iff h hs⟩, fun hreturns => ?_, fun hreturns => ?_,
    Graph.Func.ofTyped_returnsValue hok hg hbody⟩
  · rw [hreturns] at hcurrent heq
    exact ⟨by simpa using hcurrent, heq⟩
  · rw [hreturns] at hcurrent heq
    exact ⟨by simpa using hcurrent, by simpa using heq⟩

/-- A text with a function that returns behind a path that does not. -/
def branchText : List UInt8 := "fun f(a:bool):int{if a{return 1;}else{while a{}}return 2;}".toUTF8.toList

theorem branchText_returns : ∃ typed : Typed.File,
    (parseFile "t" branchText).reports = [] ∧
    (parseFile "t" branchText).file.check none = .ok typed ∧
    typed.bodies.map (fun g => (g.decl.body.map fun b => b.lists.map Stmt.mustReturnAny,
      g.decl.body.map (·.mustReturn), g.header.sig.result.isVoid)) =
      [(some [true, true, false, false], some true, false)] ∧
    ∀ g ∈ typed.bodies, ∃ body, g.body = some body ∧
      (Func.lowering (Layouts.build typed.table) g body).current = none ∧
      (Func.ofTyped (Layouts.build typed.table) g body).ReturnsValue := by
  have hrun : (fun r : Parsed => (r.reports, (r.file.check none).toOption.map fun typed =>
      typed.bodies.map fun g => (g.decl.body.map fun b => b.lists.map Stmt.mustReturnAny,
        g.decl.body.map (·.mustReturn), g.header.sig.result.isVoid)))
        (parseFile "t" branchText) =
      ([], some [(some [true, true, false, false], some true, false)]) := by
    rw [branchText, parseFile_ofList]
    decide +kernel
  obtain ⟨hparse, typed, hcheck, hbodies⟩ := Parsed.exists_checked hrun
  obtain ⟨_, hall⟩ := missing_returns_exact hparse hcheck (by simp)
  refine ⟨typed, hparse, hcheck, hbodies, fun g hg => ?_⟩
  obtain ⟨source, body, hsource, hbody, _, hreturns, _, hvalue⟩ := hall g hg
  have hmem := List.mem_singleton.1 (hbodies ▸ List.mem_map.2 ⟨g, hg, rfl⟩)
  simp only [hsource, Option.map_some, Prod.mk.injEq, Option.some.injEq] at hmem
  exact ⟨body, hbody, (hreturns hmem.2.1).1, hvalue hmem.2.2⟩

end ClassLang
