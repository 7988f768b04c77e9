import ClassLang.Proofs.Check.Generic
import ClassLang.Proofs.Check.Result
import ClassLang.Proofs.Meaning.Safety

/-!
Programs that pass the checker are safe to run. A call with arguments of the declared types fails
only in the ways in which a well typed program can fail, and its value has the declared type. The
descriptors of the layouts tell which fields of the objects of a run are references.
-/

namespace ClassLang

/-! Accepted units -/

/-- The numbers in the graphs of an accepted text are machine words, if its objects are not too
large. -/
theorem checked_sized {name : String} {bytes : List UInt8} {limit : Option Nat} {u : Typed.File}
    (hparse : (parseFile name bytes).reports = [])
    (hcheck : (parseFile name bytes).file.check limit = .ok u) (hlimit : limit ≠ some 0)
    (hlength : bytes.length < 2 ^ 63)
    (hobjects : ∀ l ∈ (Layouts.build u.table).classes, l.size < 2 ^ 63) : u.Sized := by
  refine ⟨hobjects, ?_, fun g hg => ?_, ?_⟩
  · obtain ⟨names, hnames, hall⟩ := checked_method_names hparse hcheck hlimit
    exact ⟨names, Nat.lt_of_le_of_lt hnames hlength, hall⟩
  · exact Nat.lt_of_le_of_lt (checked_binders_le hparse hcheck hlimit g hg) hlength
  · obtain ⟨c, hc, htable, _⟩ := File.check_finish hcheck hlimit
    rw [htable]
    exact fun k hk => (hc.classNamed? (hc.linkedTo.linked.classNamed?_name hk)).1

namespace Machine

variable {K : Terms} {σ : Marks} {t : Table} {ps : List TypeParam} {as : List Ty} {ty : Ty}
  {x : Value} {o : Object} {c : ClassInfo} {m : Mark}

/-- The host functions that every machine starts with keep to the types, if they are declared with
the types that they have. -/
theorem standard_ok (hprintln : ∀ g ∈ K.unit.hosts, g.decl.name.text = "println" →
      g.header.declared.map (·.ty) = [.str] ∧ g.header.sig.result = .void)
    (hprintInt : ∀ g ∈ K.unit.hosts, g.decl.name.text = "print_int" →
      g.header.declared.map (·.ty) = [.int] ∧ g.header.sig.result = .void) :
    HostsOk K σ Host.standard := by
  intro g hg host hlookup σ' xs _ hxs
  simp only [Host.standard, List.lookup_cons] at hlookup
  split at hlookup
  next hname =>
    obtain rfl := Option.some.inj hlookup
    obtain ⟨htypes, hresult⟩ := hprintln g hg (by simpa using hname)
    rw [htypes] at hxs
    obtain ⟨x, _, hx, hnil, rfl⟩ := List.forall₂_cons_right_iff.1 hxs
    obtain rfl := List.forall₂_nil_right_iff.1 hnil
    obtain ⟨text, rfl⟩ := hx.exists_str
    rw [hresult]
    exact .print (.value .nil)
  next =>
    split at hlookup
    next hname =>
      obtain rfl := Option.some.inj hlookup
      obtain ⟨htypes, hresult⟩ := hprintInt g hg (by simpa using hname)
      rw [htypes] at hxs
      obtain ⟨x, _, hx, hnil, rfl⟩ := List.forall₂_cons_right_iff.1 hxs
      obtain rfl := List.forall₂_nil_right_iff.1 hnil
      obtain ⟨n, rfl⟩ := hx.exists_int
      rw [hresult]
      exact .print (.value .nil)
    next => cases hlookup

/-! Values -/

/-- Only what is void is nil. -/
theorem Value.Has.eq_nil_iff (h : x.Has t σ ty) : x = .nil ↔ ty = .void := by
  cases h with
  | obj _ _ _ _ cls =>
      refine ⟨nofun, ?_⟩
      rintro rfl
      cases cls
  | _ => simp

/-- Type parameters stand for references, so only references become others. -/
theorem Ground.isReference_or (hg : t.Ground ps as) (ty : Ty) :
    ty.isReference = true ∧ (ty.subst ps as).isReference = true ∨
      ty.isReference = false ∧ ty.subst ps as = ty := by
  cases href : ty.isReference with
  | true => exact .inl ⟨rfl, Ty.isReference_subst href hg.isReference⟩
  | false =>
      refine .inr ⟨rfl, ?_⟩
      cases ty <;> simp_all [Ty.isReference, Ty.subst]

/-- Only what is void is nil, whatever type parameters stand for. -/
theorem Value.Has.eq_nil_iff_subst (h : x.Has t σ (ty.subst ps as)) (hg : t.Ground ps as) :
    x = .nil ↔ ty = .void := by
  rw [h.eq_nil_iff]
  rcases Ground.isReference_or hg ty with ⟨href, href'⟩ | ⟨-, heq⟩
  · constructor
    all_goals
      intro hvoid
      simp [hvoid, Ty.isReference] at href href'
  · rw [heq]

/-- The values of reference types are objects. -/
theorem Value.Has.obj_iff (h : x.Has t σ ty) :
    (∃ ref, x = .obj ref) ↔ ty.isReference = true := by
  cases h with
  | obj _ _ _ _ cls =>
      refine ⟨fun _ => ?_, fun _ => ⟨_, rfl⟩⟩
      cases ty <;> simp_all [Ty.className?, Ty.isReference]
  | _ => simp [Ty.isReference]

/-- A value that is neither an object nor nothing. -/
def Value.IsScalar (x : Value) : Prop :=
  (∃ n, x = .int n) ∨ (∃ q, x = .float q) ∨ (∃ b, x = .bool b) ∨ ∃ s, x = .str s

theorem Value.Has.isScalar_iff (h : x.Has t σ ty) (hx : x ≠ .nil) :
    x.IsScalar ↔ ty.isReference = false := by
  cases h with
  | nil => exact absurd rfl hx
  | obj _ _ _ _ cls => cases ty <;> simp_all [Value.IsScalar, Ty.className?, Ty.isReference]
  | _ => simp [Value.IsScalar, Ty.isReference]

/-! Objects -/

/-- An object that is what its layout says: it has as many fields as the descriptor has letters,
its size is that of two words of header and one word for each field, its dispatch table is that of
its layout, and the letters tell which fields are references. -/
structure Object.Exact (o : Object) : Prop where
  length : o.fields.size = o.layout.descriptor.length
  size : o.layout.size = 16 + 8 * o.fields.size
  dispatch : o.dispatch = some o.layout
  fields : ∀ (i : Nat) (x : Value) (mark : Char), o.fields[i]? = some x →
    o.layout.descriptor.toList[i]? = some mark →
    (mark = 'p' ↔ ∃ ref, x = .obj ref) ∧ (mark = 'i' ↔ x.IsScalar)

/-- Objects that are whole are what their layouts say. -/
theorem Object.Suits.exact (ht : t.WellTyped) (h : o.Suits t σ c m) (hm : m.whole = true) :
    o.Exact := by
  have hmem := Table.classOf?_mem h.owns.cls
  have hid := ht.linked.class?_id hmem
  obtain ⟨l, hl, his⟩ := Layouts.named?_build ht.linked hmem
  obtain rfl : l = o.layout := Option.some.inj (hl.symm.trans h.layout)
  have hlength : o.layout.fields.length = o.fields.size := by
    rw [h.size, his.fields, List.length_mapIdx]
  refine ⟨?_, ?_, h.dispatch hm, fun i x mark hx hmark => ?_⟩
  · rw [ClassLayout.descriptor, String.length_ofList, List.length_map, hlength]
  · simp only [ClassLayout.size, objectSize, fieldOffset, headerSize, wordSize, hlength]
    omega
  · rw [ClassLayout.descriptor, String.toList_ofList, List.getElem?_map, his.getElem?_fields,
      Option.map_map] at hmark
    obtain ⟨fd, hfd, rfl⟩ := Option.map_eq_some_iff.1 hmark
    have hfield := List.mem_of_getElem? hfd
    obtain ⟨y, hy, hty⟩ := h.given i fd hfd (h.full hm fd hfield)
    obtain rfl : x = y := Option.some.inj (hx.symm.trans hy)
    obtain ⟨-, -, hvoid⟩ := ht.lookupField_scoped hid
      (ht.lookupField_eq (Table.class?_eq_some_lt hid) hfield)
    have hnil : x ≠ .nil := by
      rw [Ne, hty.eq_nil_iff_subst h.owns.ground]
      rintro heq
      rw [heq] at hvoid
      cases hvoid
    rw [Function.comp_apply, hty.obj_iff, hty.isScalar_iff hnil, Ty.mark]
    rcases Ground.isReference_or h.owns.ground fd.ty with ⟨href, href'⟩ | ⟨href, heq⟩
    · simp [href, href']
    · simp [heq, href]

/-! Runs -/

/-- A state that a call passes through comes after some steps. -/
theorem Reached.exists_after {m : ClassLang.Machine} {budget : Budget} {fn : Graph.Func}
    {args : List Value} {s : State} (h : Reached m budget fn args s) (pending₀ : List Nat) :
    ∃ n pending, (State.started { machine := m, budget } fn args none).after n pending₀ =
      some (s, pending) := by
  induction h with
  | start push =>
      rw [State.push] at push
      split at push
      · cases push
      · cases push
        exact ⟨0, pending₀, rfl⟩
  | step _ step ih =>
      obtain ⟨n, pending, hafter⟩ := ih
      exact ⟨n + 1, _, State.after_succ hafter step⟩

/-- The objects of a heap that may not be whole. -/
theorem HeapOk.unfinished {heap : Array Object} (h : HeapOk t σ heap) :
    σ.Unfinished (List.range heap.size) :=
  fun ref m hm _ => List.mem_range.2 (h.known ref m hm)

end Machine

/-- Accepted programs are safe to run. Where a machine holds such a program, a heap whose objects
have the types that are known of them, and host functions that keep to the types, a call of a
function with arguments of the types that it declares never fails but by a division by zero, for
the depth of calls, for a missing or failing host function, or because it is stopped; and what it
returns has the declared type, and is nil just if that is void. Nothing else comes up on the way,
not even where a host function goes on after it. -/
theorem accepted_programs_are_safe {name : String} {bytes : List UInt8} {limit : Option Nat}
    {typed : Typed.File} (hparse : (parseFile name bytes).reports = [])
    (hcheck : (parseFile name bytes).file.check limit = .ok typed) (hlimit : limit ≠ some 0)
    (hlength : bytes.length < 2 ^ 63)
    (hobjects : ∀ l ∈ (Layouts.build typed.table).classes, l.size < 2 ^ 63)
    {K : Machine.Terms} (hunit : K.unit = typed) (hstable : K.Stable) {σ : Machine.Marks}
    {m : Machine} {g : Typed.Func} {b : Typed.Block} {ps : List TypeParam} {as : List Ty}
    {args : List Machine.Value} (hentry : Machine.Entry K σ m g b ps as args)
    (budget : Machine.Budget) :
    let fn := Graph.Func.ofTyped (Layouts.build typed.table) g b
    (∀ s, Machine.Reached m budget fn args s → ∀ e, s.Raises e → Machine.Failure.Allowed e) ∧
    ∀ fuel run, m.call fuel budget fn args = some run →
      ∃ σ', σ.Le σ' ∧ Machine.MachineOk K σ' run.machine ∧
        match run.result with
        | .ok x => x.Has typed.table σ' (g.header.sig.result.subst ps as) ∧
            (x = .nil ↔ g.header.sig.result = .void)
        | .error e => Machine.Failure.Allowed e := by
  subst hunit
  have hu := checked_ok hparse hcheck hlimit
  have hsized := checked_sized hparse hcheck hlimit hlength hobjects
  have hpending := hentry.machine.heap.unfinished
  refine ⟨fun s hs e he => ?_, fun fuel run hrun => ?_⟩
  · obtain ⟨n, pending, hafter⟩ := hs.exists_after (List.range m.heap.size)
    obtain ⟨σ', _, hok⟩ :=
      (hentry.starts hu hsized hpending budget (n + 1)).after hu hsized hstable hafter
    exact hok.raises hu hsized hstable he
  · obtain ⟨⟨depth, r⟩, hcall, rfl⟩ := Option.map_eq_some_iff.1 hrun
    rw [Machine.callWithin, Machine.State.push] at hcall
    split at hcall
    next s result hstep =>
      split at hstep
      · cases hstep
        cases hcall
        exact ⟨σ, .refl σ, hentry.machine, .tooDeep⟩
      · cases hstep
    next s hstep =>
      split at hstep
      · cases hstep
      · cases hstep
        obtain ⟨⟨s', result⟩, hsteps, heq⟩ := Option.map_eq_some_iff.1 hcall
        cases heq
        obtain ⟨σ', pending', hle, hs, hok, herror⟩ :=
          (hentry.starts hu hsized hpending budget fuel).run hu hsized hstable hsteps
        refine ⟨σ', hle, hs.machine, ?_⟩
        cases result with
        | ok x => exact ⟨hok x rfl, (hok x rfl).eq_nil_iff_subst hentry.ground⟩
        | error e => exact herror e rfl

/-- The objects of a state are what their layouts say, but for those that are under way. -/
def Machine.State.Exact (s : Machine.State) (pending : List Nat) : Prop :=
  ∀ ref o, s.machine.heap[ref]? = some o → ref ∉ pending → o.Exact

theorem Machine.State.Holds.exact {K : Machine.Terms} {σ : Machine.Marks} {pending : List Nat}
    {s : Machine.State} (hu : K.unit.Ok) (h : s.Holds K σ pending) : s.Exact pending := by
  intro ref o ho hpending
  obtain ⟨c, m, hm, hsuits⟩ := h.machine.heap.objects ref o ho
  refine hsuits.exact hu.sound.table ?_
  by_contra hpart
  exact hpending (h.unfinished ref m hm (by simpa using hpart))

/-- Descriptors are exact. All along a run of an accepted program the objects that initializers
have completed have as many fields as the descriptors of their classes have letters, a size to
match, and a dispatch table; and the letters tell which fields hold references, also where these
have the type of a parameter or of an instance of a generic class. What is under way at the start
is given by `pending`. -/
theorem descriptors_are_exact {name : String} {bytes : List UInt8} {limit : Option Nat}
    {typed : Typed.File} (hparse : (parseFile name bytes).reports = [])
    (hcheck : (parseFile name bytes).file.check limit = .ok typed) (hlimit : limit ≠ some 0)
    (hlength : bytes.length < 2 ^ 63)
    (hobjects : ∀ l ∈ (Layouts.build typed.table).classes, l.size < 2 ^ 63)
    {K : Machine.Terms} (hunit : K.unit = typed) (hstable : K.Stable) {σ : Machine.Marks}
    {m : Machine} {g : Typed.Func} {b : Typed.Block} {ps : List TypeParam} {as : List Ty}
    {args : List Machine.Value} (hentry : Machine.Entry K σ m g b ps as args)
    {pending : List Nat} (hpending : σ.Unfinished pending) (budget : Machine.Budget) {n : Nat}
    {s : Machine.State} {pending' : List Nat}
    (hafter : (Machine.State.started { machine := m, budget }
      (Graph.Func.ofTyped (Layouts.build typed.table) g b) args none).after n pending =
      some (s, pending')) :
    s.Exact pending' ∧ ∀ last r, s.advance = .done last r → last.Exact (s.unfinished pending') := by
  subst hunit
  have hu := checked_ok hparse hcheck hlimit
  have hsized := checked_sized hparse hcheck hlimit hlength hobjects
  obtain ⟨σ', _, hok⟩ :=
    (hentry.starts hu hsized hpending budget (n + 1)).after hu hsized hstable hafter
  refine ⟨hok.holds.exact hu, fun last r hdone => ?_⟩
  have hstep := hok.advance hu hsized hstable
  rw [hdone] at hstep
  cases hstep with
  | value _ state _ => exact state.exact hu
  | error _ state _ _ => exact state.exact hu

/-! A run -/

/-- A text with a generic class, whose objects hold a reference and an integer. -/
def boxText : List UInt8 :=
  ("class A{}class B<T>{a:T,n:int}extern fun print_int(n:int);" ++
    "fun f(n:int):int{print_int(n);return 10/B:init(a:A:init(),n:n).n;}").toUTF8.toList

/-- The machine that the text runs on. -/
def boxMachine (u : Typed.File) : Machine :=
  { program := Graph.Program.ofTyped u (Layouts.build u.table) }

/-- How the call of a function of the text with the argument 5 ends, and which objects there are
after its last step but one. -/
def boxRun (u : Typed.File) (g : Typed.Func) (b : Typed.Block) :=
  let fn := Graph.Func.ofTyped (Layouts.build u.table) g b
  (((boxMachine u).call 40 none fn [.int 5]).map fun run => (run.out, run.result.toOption),
    ((Machine.State.started { machine := boxMachine u, budget := none } fn [.int 5] none).after 14
      []).map fun e => (e.2, e.1.machine.heap.toList.map fun (o : Machine.Object) =>
        (o.layout.descriptor, o.fields.toList)))

set_option synthInstance.maxSize 1000000 in
theorem boxText_entry : ∃ typed g b, (parseFile "t" boxText).reports = [] ∧
    (parseFile "t" boxText).file.check none = .ok typed ∧ boxText.length < 2 ^ 63 ∧
    (∀ l ∈ (Layouts.build typed.table).classes, l.size < 2 ^ 63) ∧
    (∀ K : Machine.Terms, K.unit = typed → K.memory (fun _ => none) [] →
      Machine.Entry K (fun _ => none) (boxMachine typed) g b [] [] [.int 5]) ∧
    g.header.sig.result = .int ∧ boxRun typed g b =
      (some ("5\n", some (.int 2)), some ([], [("pi", [.obj 1, .int 5]), ("", [])])) := by
  have hrun : (fun r : Parsed => (r.reports, (r.file.check none).toOption.map fun u =>
      ((Layouts.build u.table).classes.map (·.size), u.funcs.map fun g =>
        (g.decl.name.text, g.decl.host, g.header.sig.tparams, g.header.declared.map (·.ty),
          g.header.sig.result, g.body.map (boxRun u g))))) (parseFile "t" boxText) =
      ([], some ([16, 32],
        [("print_int", true, [], [.int], .void, none),
         ("f", false, [], [.int], .int, some (some ("5\n", some (.int 2)),
            some ([], [("pi", [.obj 1, .int 5]), ("", [])])))])) := by
    rw [boxText, ← String.ofList_append, parseFile_ofList]
    decide +kernel
  obtain ⟨hparse, typed, hcheck, hparts⟩ := Parsed.exists_checked hrun
  obtain ⟨hsizes, hfuncs⟩ := Prod.mk.inj hparts
  obtain ⟨g₁, gs, heq, hg₁, hrest⟩ := List.map_eq_cons_iff.1 hfuncs
  obtain ⟨g₂, gs, rfl, hg₂, hnil⟩ := List.map_eq_cons_iff.1 hrest
  obtain rfl := List.map_eq_nil_iff.1 hnil
  simp only [Prod.mk.injEq] at hg₁ hg₂
  obtain ⟨hname, hhost, -, htypes, hvoid, -⟩ := hg₁
  obtain ⟨-, hown, hparams, hdeclared, hint, hbody⟩ := hg₂
  obtain ⟨b, hb, hbox⟩ := Option.map_eq_some_iff.1 hbody
  have hmem : g₂ ∈ typed.funcs := by simp [heq]
  have hlength : boxText.length < 2 ^ 63 := by decide +kernel
  refine ⟨typed, g₂, b, hparse, hcheck, hlength, fun l hl => ?_,
    fun K hK hmemory => ?_, hint, hbox⟩
  · have hsize := List.mem_map_of_mem (f := ClassLayout.size) hl
    rw [hsizes] at hsize
    rcases List.mem_cons.1 hsize with h | h
    · rw [h]
      decide
    · rw [List.mem_singleton.1 h]
      decide
  · subst hK
    have hhosts : ∀ g ∈ K.unit.hosts, g = g₁ := by
      intro g hg
      obtain ⟨hg, hghost⟩ := List.mem_filter.1 hg
      rw [heq] at hg
      rcases List.mem_cons.1 hg with rfl | hg
      · rfl
      · rw [List.mem_singleton.1 hg, hown] at hghost
        cases hghost
    refine ⟨⟨⟨by simp [boxMachine], by simp⟩, rfl, Machine.standard_ok ?_ ?_, hmemory⟩, ?_,
      .nil _, hb, ?_⟩
    · intro g hg hgname
      rw [hhosts g hg, hname] at hgname
      simp at hgname
    · intro g hg _
      rw [hhosts g hg]
      exact ⟨htypes, hvoid⟩
    · have hbodied : g₂ ∈ K.unit.bodies :=
        Typed.File.mem_bodies.2 (.inl ⟨Typed.File.mem_funcs.1 hmem, hown⟩)
      exact hparams ▸ .func hmem hbodied
    · rw [← Function.comp_def (Ty.subst [] []), ← List.map_map, hdeclared]
      exact .cons (.int 5) .nil

/-- What a call of the function with the argument 5 does. -/
theorem boxText_safe : ∃ (typed : Typed.File) (g : Typed.Func) (b : Typed.Block),
    (parseFile "t" boxText).file.check none = .ok typed ∧
    let fn := Graph.Func.ofTyped (Layouts.build typed.table) g b
    (∃ run, (boxMachine typed).call 40 none fn [.int 5] = some run ∧ run.out = "5\n" ∧
      run.result.toOption = some (.int 2)) ∧
    (∀ s, Machine.Reached (boxMachine typed) none fn [.int 5] s → ∀ e, s.Raises e → e.Allowed) ∧
    ∀ fuel run, (boxMachine typed).call fuel none fn [.int 5] = some run →
      ∃ σ', Machine.HeapOk typed.table σ' run.machine.heap ∧
        match run.result with
        | .ok x => x.Has typed.table σ' .int
        | .error e => e.Allowed := by
  obtain ⟨typed, g, b, hparse, hcheck, hlength, hsizes, hentry, hint, hrun⟩ := boxText_entry
  obtain ⟨hraises, hresult⟩ := accepted_programs_are_safe hparse hcheck (by simp) hlength
    hsizes (K := ⟨typed, fun _ _ => True, fun _ => True⟩) rfl (fun _ _ _ _ _ => trivial)
    (hentry _ rfl trivial) none
  refine ⟨typed, g, b, hcheck, ?_, hraises, fun fuel run hcall => ?_⟩
  · obtain ⟨run, hcall, hends⟩ := Option.map_eq_some_iff.1 (Prod.mk.inj hrun).1
    exact ⟨run, hcall, Prod.mk.inj hends⟩
  · obtain ⟨σ', -, hmachine, hends⟩ := hresult fuel run hcall
    refine ⟨σ', hmachine.heap, ?_⟩
    cases hr : run.result with
    | ok x =>
        rw [hr, hint] at hends
        exact hends.1
    | error e =>
        rw [hr] at hends
        exact hends

/-- When the box is whole its two fields are what the descriptor says. -/
theorem boxText_exact : ∃ (typed : Typed.File) (g : Typed.Func) (b : Typed.Block)
    (s : Machine.State), (parseFile "t" boxText).file.check none = .ok typed ∧
    (Machine.State.started { machine := boxMachine typed, budget := none }
      (Graph.Func.ofTyped (Layouts.build typed.table) g b) [.int 5] none).after 14 [] =
        some (s, []) ∧
    s.machine.heap.toList.map (fun o => (o.layout.descriptor, o.fields.toList)) =
      [("pi", [.obj 1, .int 5]), ("", [])] ∧ ∀ o ∈ s.machine.heap, o.Exact := by
  obtain ⟨typed, g, b, hparse, hcheck, hlength, hsizes, hentry, -, hrun⟩ := boxText_entry
  obtain ⟨⟨s, pending⟩, hafter, hends⟩ := Option.map_eq_some_iff.1 (Prod.mk.inj hrun).2
  obtain ⟨rfl, hheap⟩ := Prod.mk.inj hends
  have hpending : Machine.Marks.Unfinished (fun _ => none) [] := by simp [Machine.Marks.Unfinished]
  obtain ⟨hexact, -⟩ := descriptors_are_exact hparse hcheck (by simp) hlength hsizes
    (K := ⟨typed, fun _ _ => True, fun _ => True⟩) rfl (fun _ _ _ _ _ => trivial)
    (hentry _ rfl trivial) hpending none hafter
  refine ⟨typed, g, b, s, hcheck, hafter, hheap, fun o ho => ?_⟩
  obtain ⟨ref, href⟩ := Array.getElem?_of_mem ho
  exact hexact ref o href List.not_mem_nil

end ClassLang
