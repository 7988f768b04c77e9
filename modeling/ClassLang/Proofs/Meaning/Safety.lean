import ClassLang.Proofs.Graph.Unit
import ClassLang.Proofs.Machine.Alike
import ClassLang.Proofs.Meaning.Follows
import ClassLang.Proofs.Meaning.Function

/-!
Host functions that keep to the types. What such a function returns has the type that is declared;
objects that it makes or changes are whole and have fields of their types; and it calls functions
of the program with arguments of theirs. It may rely on what it is given: arguments and results of
calls have their types too, and so have the values that host functions have kept.
-/

namespace ClassLang.Machine

/-- On what host functions may rely: the unit that they are declared in, what holds of the values
that they keep, and which budgets their calls may have. -/
structure Terms where
  unit : Typed.File
  memory : Marks → List Value → Prop
  budget : Budget → Prop

/-- What holds of kept values does not depend on less being known. -/
def Terms.Stable (K : Terms) : Prop := ∀ ⦃σ σ' l⦄, σ.Le σ' → K.memory σ l → K.memory σ' l

variable {K : Terms} {σ σ' : Marks} {T : Ty} {failed : Bool}

/-- The reply of a host function with the result type `T` keeps to the types. `failed` says whether
the call that it made last has failed. -/
inductive Honest (K : Terms) : Ty → Bool → Marks → Reply → Prop
  | value {T : Ty} {failed : Bool} {σ : Marks} {x : Value} (typed : x.Has K.unit.table σ T) :
      Honest K T failed σ (.value x)
  | fail {T : Ty} {failed : Bool} {σ : Marks} {text : String} : Honest K T failed σ (.fail text)
  | pass {T : Ty} {σ : Marks} : Honest K T true σ .pass
  | print {T : Ty} {failed : Bool} {σ : Marks} {text : String} {next : Reply}
      (others : Honest K T failed σ next) : Honest K T failed σ (.print text next)
  | look {T : Ty} {failed : Bool} {σ : Marks} {ref : Nat} {m : Mark} {next : Object → Reply}
      (known : σ ref = some m) (whole : m.whole = true)
      (others : ∀ o c, o.Suits K.unit.table σ c m → Honest K T failed σ (next o)) :
      Honest K T failed σ (.look ref next)
  | change {T : Ty} {failed : Bool} {σ : Marks} {ref : Nat} {m : Mark} {o : Object} {c : ClassInfo}
      {next : Reply} (known : σ ref = some m) (whole : m.whole = true)
      (suits : o.Suits K.unit.table σ c m) (others : Honest K T failed σ next) :
      Honest K T failed σ (.change ref o next)
  | create {T : Ty} {failed : Bool} {σ : Marks} {m : Mark} {o : Object} {c : ClassInfo}
      {next : Nat → Reply} (whole : m.whole = true)
      (suits : ∀ ref, σ ref = none → o.Suits K.unit.table (σ.set ref m) c m)
      (others : ∀ ref, σ ref = none → Honest K T failed (σ.set ref m) (next ref)) :
      Honest K T failed σ (.create o next)
  | kept {T : Ty} {failed : Bool} {σ : Marks} {next : List Value → Reply}
      (others : ∀ l, K.memory σ l → Honest K T failed σ (next l)) : Honest K T failed σ (.kept next)
  | keep {T : Ty} {failed : Bool} {σ : Marks} {l : List Value} {next : Reply}
      (stored : K.memory σ l) (others : Honest K T failed σ next) :
      Honest K T failed σ (.keep l next)
  | bind {T : Ty} {failed : Bool} {σ : Marks} {name : String} {respond : List Value → Reply}
      {next : Reply}
      (host : ∀ g ∈ K.unit.hosts, g.decl.name.text = name → ∀ σ' xs, σ.Le σ' →
        Values.Have K.unit.table σ' xs (g.header.declared.map (·.ty)) →
        Honest K g.header.sig.result false σ' (respond xs))
      (others : Honest K T failed σ next) : Honest K T failed σ (.bind name respond next)
  | call {T : Ty} {failed : Bool} {σ : Marks} {g : Typed.Func} {ps : List TypeParam} {as : List Ty}
      {b : Typed.Block} {xs : List Value} {own : Option Budget}
      {next : Except Failure Value → Reply} (binds : K.unit.Binds g ps)
      (ground : K.unit.table.Ground ps as) (body : g.body = some b)
      (args : Values.Have K.unit.table σ xs (g.header.declared.map fun v => v.ty.subst ps as))
      (budgets : ∀ n ∈ own, K.budget n)
      (ok : ∀ σ' x, σ.Le σ' → x.Has K.unit.table σ' (g.header.sig.result.subst ps as) →
        Honest K T false σ' (next (.ok x)))
      (error : ∀ σ' e, σ.Le σ' → Failure.Allowed e → Honest K T true σ' (next (.error e))) :
      Honest K T failed σ
        (.call (Graph.Func.ofTyped (Layouts.build K.unit.table) g b) xs own next)

/-- The host functions that a machine has for those of the unit keep to the types. -/
def HostsOk (K : Terms) (σ : Marks) (hosts : List (String × Host)) : Prop :=
  ∀ g ∈ K.unit.hosts, ∀ h, hosts.lookup g.decl.name.text = some h → ∀ σ' xs, σ.Le σ' →
    Values.Have K.unit.table σ' xs (g.header.declared.map (·.ty)) →
    Honest K g.header.sig.result false σ' (h.respond xs)

theorem HostsOk.mono {hosts : List (String × Host)} (h : HostsOk K σ hosts) (hle : σ.Le σ') :
    HostsOk K σ' hosts :=
  fun g hg host hhost σ'' xs hσ => h g hg host hhost σ'' xs (hle.trans hσ)

/-- A machine between two runs, or in the middle of one, where `σ` is known of the heap. -/
structure MachineOk (K : Terms) (σ : Marks) (m : ClassLang.Machine) : Prop where
  heap : HeapOk K.unit.table σ m.heap
  program : m.program = Graph.Program.ofTyped K.unit (Layouts.build K.unit.table)
  hosts : HostsOk K σ m.hosts
  memory : K.memory σ m.memory

end ClassLang.Machine

/-!
What one step of a run keeps. The top frame follows a course, and each frame below waits for a value
of a type that it can go on with; where a host function stands between two frames, it goes on with
that value or with the failure. A run that starts so can only fail in the ways that are allowed.
-/

namespace ClassLang.Machine

open Direct (Course)
open ClassLang.Graph (Callee Instr)

/-! Unfinished objects -/

/-- Which objects have been made by code and not yet been made whole by it, behind the next step. -/
def State.unfinished (s : State) (pending : List Nat) : List Nat :=
  match s.stack with
  | [] => pending
  | f :: _ =>
    match f.todo with
    | some (v :: _) =>
      match f.fn.instr? v with
      | some w =>
        if w.op = .alloc then s.machine.heap.size :: pending
        else if w.op = .setDispatch then
          match f.object s.machine.heap w with
          | .ok (ref, _) => pending.filter (· ≠ ref)
          | .error _ => pending
        else pending
      | none => pending
    | _ => pending

/-- Only objects that are under way are not whole. -/
def Marks.Unfinished (σ : Marks) (pending : List Nat) : Prop :=
  ∀ ref m, σ ref = some m → m.whole = false → ref ∈ pending

/-! Waiting frames -/

/-- What waits for a value of the type `T`: the end of the run, whose result has the type `R`, a
frame below, or a host function that waits for the frame above. -/
inductive Awaits (K : Terms) (R : Ty) (k : Nat) (σ : Marks) :
    Option Waiting → List Frame → Ty → Prop
  | last : Awaits K R k σ none [] R
  | frame {f : Frame} {rest : List Frame} {v : Nat} {w : Instr} {todo : List Nat} {T own : Ty}
      (here : f.At v w todo)
      (next : ∀ σ' x, σ.Le σ' → x.Has K.unit.table σ' T →
        ∃ c, Follows K.unit own k σ' c (f.given v x todo))
      (below : Awaits K R k σ f.outer rest own) : Awaits K R k σ none (f :: rest) T
  | host {w : Waiting} {rest : List Frame} {T own : Ty}
      (ok : ∀ σ' x, σ.Le σ' → x.Has K.unit.table σ' T → Honest K own false σ' (w.next (.ok x)))
      (error : ∀ σ' e, σ.Le σ' → Failure.Allowed e → Honest K own true σ' (w.next (.error e)))
      (below : Awaits K R k σ none rest own) : Awaits K R k σ (some w) rest T

variable {K : Terms} {R T : Ty} {j k : Nat} {σ σ' : Marks} {outer : Option Waiting}
  {rest : List Frame} {s s' : State} {f : Frame} {pending : List Nat} {e : Failure} {x : Value}

theorem Awaits.mono (h : Awaits K R k σ outer rest T) (hle : j ≤ k) (hσ : σ.Le σ') :
    Awaits K R j σ' outer rest T := by
  induction h with
  | last => exact .last
  | frame here next _ ih =>
      refine .frame here (fun σ'' x hσ' hx => ?_) ih
      obtain ⟨c, hc⟩ := next σ'' x (hσ.trans hσ') hx
      exact ⟨c, hc.mono hle⟩
  | host ok error _ ih =>
      exact .host (fun σ'' x hσ' => ok σ'' x (hσ.trans hσ'))
        (fun σ'' e hσ' => error σ'' e (hσ.trans hσ')) ih

/-- The frames of a stack wait for what is above them. -/
def Below (K : Terms) (R : Ty) (k : Nat) (σ : Marks) : List Frame → Prop
  | [] => True
  | f :: rest => ∃ T, Awaits K R k σ f.outer rest T

theorem Awaits.frames (h : Awaits K R k σ none rest T) : Below K R k σ rest := by
  cases h with
  | last => trivial
  | frame _ _ below => exact ⟨_, below⟩

/-! States -/

/-- The machine of a state keeps to the types, and the objects that are not whole are under way. -/
structure State.Holds (K : Terms) (σ : Marks) (pending : List Nat) (s : State) : Prop where
  machine : MachineOk K σ s.machine
  unfinished : σ.Unfinished pending

/-- A state of a run whose result has the type `R`. -/
structure State.Ok (K : Terms) (R : Ty) (k : Nat) (σ : Marks) (pending : List Nat) (s : State) :
    Prop where
  holds : s.Holds K σ pending
  top : ∃ f rest own c, s.stack = f :: rest ∧ Follows K.unit own k σ c f ∧
    Awaits K R k σ f.outer rest own

/-- What a step comes to, if at least `σ` was known before it. -/
inductive Step.Ok (K : Terms) (R : Ty) (k : Nat) (σ : Marks) (pending : List Nat) : Step → Prop
  | next {σ' : Marks} {s : State} (le : σ.Le σ') (state : s.Ok K R k σ' pending) :
      Step.Ok K R k σ pending (.next s)
  | value {σ' : Marks} {s : State} {x : Value} (le : σ.Le σ') (state : s.Holds K σ' pending)
      (typed : x.Has K.unit.table σ' R) : Step.Ok K R k σ pending (.done s (.ok x))
  | error {σ' : Marks} {s : State} {e : Failure} (le : σ.Le σ') (state : s.Holds K σ' pending)
      (allowed : e.Allowed) (below : Below K R k σ' s.stack) :
      Step.Ok K R k σ pending (.done s (.error e))

theorem Step.Ok.from_ {p : Step} (h : Step.Ok K R k σ' pending p) (hσ : σ.Le σ') :
    Step.Ok K R k σ pending p := by
  cases h with
  | next le state => exact .next (hσ.trans le) state
  | value le state typed => exact .value (hσ.trans le) state typed
  | error le state allowed below => exact .error (hσ.trans le) state allowed below

/-! Host functions -/

/-- An object is replaced by one that is as well known. -/
theorem HeapOk.replace {t : Table} {heap : Array Object} {ref : Nat} {m : Mark} {c : ClassInfo}
    {o : Object} (h : HeapOk t σ heap) (hm : σ ref = some m) (ho : o.Suits t σ c m) :
    HeapOk t σ (heap.setIfInBounds ref o) := by
  refine ⟨fun r p hp => ?_, fun r k hk => by simpa using h.known r k hk⟩
  rw [Array.getElem?_setIfInBounds] at hp
  split at hp
  next heq =>
    subst heq
    obtain ⟨-, rfl⟩ : ref < heap.size ∧ o = p := by simpa using hp
    exact ⟨c, m, hm, ho⟩
  next => exact h.objects r p hp

theorem Marks.Unfinished.set {ref : Nat} {m : Mark} (h : σ.Unfinished pending)
    (hm : m.whole = true) : (σ.set ref m).Unfinished pending := by
  intro r m' hr hpart
  by_cases heq : r = ref
  · subst heq
    obtain rfl : m = m' := Option.some.inj ((Marks.set_self σ r m).symm.trans hr)
    exact absurd (hm.symm.trans hpart) (by simp)
  · exact h r m' ((Marks.set_of_ne σ m heq).symm.trans hr) hpart

/-- Another host function gets a name. -/
theorem HostsOk.bind {m : ClassLang.Machine} {name : String} {respond : List Value → Reply}
    (h : HostsOk K σ m.hosts)
    (hhost : ∀ g ∈ K.unit.hosts, g.decl.name.text = name → ∀ σ' xs, σ.Le σ' →
      Values.Have K.unit.table σ' xs (g.header.declared.map (·.ty)) →
      Honest K g.header.sig.result false σ' (respond xs)) :
    HostsOk K σ (m.bind name ⟨respond⟩).hosts := by
  intro g hg host hlookup
  rw [lookup_bind] at hlookup
  split at hlookup
  next hname =>
    obtain rfl := Option.some.inj hlookup
    exact hhost g hg hname
  next => exact h g hg host hlookup

theorem deliver_ok (hs : s.Holds K σ pending) (hwait : Awaits K R k σ none s.stack T)
    (hx : x.Has K.unit.table σ T) : Step.Ok K R k σ pending (s.deliver x) := by
  generalize hstack : s.stack = stack at hwait
  generalize hnone : (none : Option Waiting) = outer at hwait
  cases hwait with
  | last =>
      rw [State.deliver, hstack]
      exact .value (.refl σ) hs hx
  | @frame f rest v w todo _ own here next below =>
      rw [State.deliver_eq hstack here.todo]
      obtain ⟨c, hc⟩ := next σ x (.refl σ) hx
      exact .next (.refl σ) ⟨⟨hs.machine, hs.unfinished⟩, _, _, _, c, rfl, hc, below⟩
  | host => cases hnone

theorem fail_ok (hs : s.Holds K σ pending) (hbelow : Below K R k σ s.stack) (he : e.Allowed) :
    Step.Ok K R k σ pending (s.fail e) :=
  .error (.refl σ) hs he hbelow

/-- A host function goes on until it ends or calls a function. -/
theorem answer_ok (hu : K.unit.Ok) (hsized : K.unit.Sized) (hK : K.Stable) {failed : Bool}
    {reply : Reply} (h : Honest K T failed σ reply) (hs : s.Holds K σ pending)
    (hwait : Awaits K R k σ none s.stack T) {last : Option Failure}
    (hlast : failed = true → ∃ e, last = some e ∧ e.Allowed) :
    Step.Ok K R k σ pending (s.answer last reply) := by
  induction h generalizing s last with
  | value typed => exact deliver_ok hs hwait typed
  | fail => exact fail_ok hs hwait.frames .host
  | pass =>
      obtain ⟨e, rfl, he⟩ := hlast rfl
      exact fail_ok hs hwait.frames he
  | @print _ _ _ text _ _ ih =>
      exact ih (s := { s with out := s.out ++ text }) ⟨hs.machine, hs.unfinished⟩ hwait hlast
  | look known whole _ ih =>
      obtain ⟨o, c, ho, hsuits⟩ := hs.machine.heap.exists_object known
      rw [State.answer, ho]
      exact ih o c hsuits hs hwait hlast
  | @change _ _ _ ref _ o _ _ known _ suits _ ih =>
      exact ih (s := s.modifyHeap (·.setIfInBounds ref o))
        ⟨{ hs.machine with heap := hs.machine.heap.replace known suits }, hs.unfinished⟩ hwait hlast
  | @create _ _ σ m o _ _ whole suits _ ih =>
      have hfresh := hs.machine.heap.fresh
      have hle := Marks.le_set_of_none m hfresh
      refine (ih _ hfresh (s := s.modifyHeap (·.push o)) ⟨?_, hs.unfinished.set whole⟩
        (hwait.mono (Nat.le_refl k) hle) hlast).from_ hle
      exact ⟨hs.machine.heap.push (suits _ hfresh), hs.machine.program, hs.machine.hosts.mono hle,
        hK hle hs.machine.memory⟩
  | kept _ ih =>
      rw [State.answer]
      exact ih _ hs.machine.memory hs hwait hlast
  | @keep _ _ _ l _ stored _ ih =>
      exact ih (s := { s with machine := { s.machine with memory := l } })
        ⟨{ hs.machine with memory := stored }, hs.unfinished⟩ hwait hlast
  | @bind _ _ _ name respond _ host _ _ ih =>
      exact ih (s := { s with machine := s.machine.bind name ⟨respond⟩ })
        ⟨{ hs.machine with hosts := hs.machine.hosts.bind host }, hs.unfinished⟩ hwait hlast
  | @call own failed σ g ps as b xs budget next binds ground body args _ ok error ihok iherror =>
      rw [State.answer]
      split
      next =>
        exact iherror σ _ (.refl σ) .tooDeep hs hwait fun _ => ⟨_, rfl, .tooDeep⟩
      next =>
        exact .next (.refl σ) ⟨⟨hs.machine, hs.unfinished⟩, _, _, _, _, rfl,
          follows_func hu hsized binds ground body args k _, .host ok error hwait⟩

/-! Steps -/

/-- An object of the class `c` that has just been made. -/
theorem Object.Suits.new {t : Table} {ref : Nat} {c : ClassInfo} {l : ClassLayout} {own : Ty}
    (ht : t.Linked) (howns : t.Owns c own) (hl : (Layouts.build t).named? c.name = some l) :
    Object.Suits t (σ.set ref ⟨own, [], false⟩) c ⟨own, [], false⟩
      { layout := l, fields := Array.replicate l.fields.length .nil } := by
  obtain ⟨l', hl', his⟩ := Layouts.named?_build ht (Table.classOf?_mem howns.cls)
  obtain rfl := Option.some.inj (hl.symm.trans hl')
  exact ⟨howns, hl, by simp [his.fields], fun _ _ _ hmem => absurd hmem List.not_mem_nil, nofun,
    nofun⟩

/-- A field of an object that is whole has a value. -/
theorem HeapOk.exists_field {t : Table} {heap : Array Object} {ref i : Nat} {m : Mark}
    {c : ClassInfo} {fd : Field} (h : HeapOk t σ heap) (hm : σ ref = some m) (hw : m.whole = true)
    (hc : t.classOf? m.type = some c) (hplace : (t.flatFields c.id)[i]? = some fd) :
    ∃ o y, heap[ref]? = some o ∧ o.fields[i]? = some y ∧
      y.Has t σ (fd.ty.subst c.tparams m.type.args) := by
  obtain ⟨o, d, ho, hsuits⟩ := h.exists_object hm
  obtain rfl := hsuits.cls_unique hc
  obtain ⟨y, hy, hty⟩ := hsuits.given i fd hplace
    (hsuits.full hw fd (List.mem_of_getElem? hplace))
  exact ⟨o, y, ho, hy, hty⟩

theorem Marks.Unfinished.create {ref : Nat} {m : Mark} (h : σ.Unfinished pending) :
    (σ.set ref m).Unfinished (ref :: pending) := by
  intro r k hr hpart
  by_cases heq : r = ref
  · exact heq ▸ List.mem_cons_self
  · exact List.mem_cons_of_mem _ (h r k ((Marks.set_of_ne σ m heq).symm.trans hr) hpart)

theorem Marks.Unfinished.finish {ref : Nat} {m : Mark} (h : σ.Unfinished pending) :
    (σ.set ref m.finish).Unfinished (pending.filter (· ≠ ref)) := by
  intro r k hr hpart
  by_cases heq : r = ref
  · subst heq
    obtain rfl : m.finish = k := Option.some.inj ((Marks.set_self σ r _).symm.trans hr)
    cases hpart
  · exact List.mem_filter.2
      ⟨h r k ((Marks.set_of_ne σ _ heq).symm.trans hr) hpart, by simpa using heq⟩

theorem Marks.Unfinished.give {ref : Nat} {m : Mark} {name : String} (h : σ.Unfinished pending)
    (hm : σ ref = some m) : (σ.set ref (m.give name)).Unfinished pending := by
  intro r k hr hpart
  by_cases heq : r = ref
  · subst heq
    obtain rfl : m.give name = k := Option.some.inj ((Marks.set_self σ r _).symm.trans hr)
    exact h r m hm hpart
  · exact h r k ((Marks.set_of_ne σ _ heq).symm.trans hr) hpart

theorem State.unfinished_quiet (hstack : s.stack = f :: rest) (h : f.Quiet) :
    s.unfinished pending = pending := by
  unfold State.unfinished
  rw [hstack]
  dsimp only
  split
  next v todo htodo =>
    split
    next w hw =>
      obtain ⟨halloc, hdispatch⟩ := h v w todo ⟨htodo, hw⟩
      rw [if_neg halloc, if_neg hdispatch]
    next => rfl
  next => rfl

section

variable {v : Nat} {w : Instr} {todo : List Nat}

theorem State.unfinished_alloc (hstack : s.stack = f :: rest) (hat : f.At v w todo)
    (halloc : w.op = .alloc) : s.unfinished pending = s.machine.heap.size :: pending := by
  simp only [State.unfinished, hstack, hat.todo, hat.instr, halloc, if_true]

theorem State.unfinished_setDispatch {ref : Nat} {o : Object} (hstack : s.stack = f :: rest)
    (hat : f.At v w todo) (hdispatch : w.op = .setDispatch)
    (hobject : f.object s.machine.heap w = .ok (ref, o)) :
    s.unfinished pending = pending.filter (· ≠ ref) := by
  simp only [State.unfinished, hstack, hat.todo, hat.instr, hdispatch, hobject, if_true,
    reduceCtorEq, if_false]

end

/-- A call of a function or of a host function starts as it should. -/
theorem call_ok (hu : K.unit.Ok) (hsized : K.unit.Sized) (hK : K.Stable) {target : Callee}
    {args : List Value} (h : Accepts K.unit σ target args T) (hs : s.Holds K σ pending)
    (hwait : Awaits K R k σ none s.stack T) : Step.Ok K R k σ pending (s.call target args) := by
  cases h with
  | @func g ps as _ binds ground args =>
      obtain ⟨b, hbody⟩ := Option.isSome_iff_exists.1 (hu.bodied g binds.mem)
      have hfind : s.machine.program.func? g.ref =
          some (Graph.Func.ofTyped (Layouts.build K.unit.table) g b) := by
        rw [hs.machine.program, Graph.Program.func?_ref hu binds.mem hbody]
      simp only [State.call, hfind, State.push]
      split
      next => exact fail_ok hs hwait.frames .tooDeep
      next =>
        exact .next (.refl σ) ⟨⟨hs.machine, hs.unfinished⟩, _, _, _, _, rfl,
          follows_func hu hsized binds ground hbody args k none, hwait⟩
  | @host g _ mem args =>
      rw [State.call, State.callHost]
      cases hlookup : s.machine.hosts.lookup g.decl.name.text with
      | none => exact fail_ok hs hwait.frames .noHost
      | some host =>
          exact answer_ok hu hsized hK (hs.machine.hosts g mem host hlookup σ _ (.refl σ) args) hs
            hwait (by simp)

/-- The top frame gets the value that it waits for and goes on. -/
theorem deliver_top {own : Ty} {c : Course Value} {v : Nat} {w : Instr} {todo : List Nat}
    (hstack : s.stack = f :: rest) (hat : f.At v w todo) (hσ : σ.Le σ') (hs : s.Holds K σ' pending)
    (hc : Follows K.unit own k σ' c (f.given v x todo)) (hwait : Awaits K R k σ' f.outer rest own) :
    Step.Ok K R k σ pending (s.deliver x) := by
  rw [State.deliver_eq hstack hat.todo]
  exact .next hσ ⟨⟨hs.machine, hs.unfinished⟩, _, _, _, c, rfl, hc, hwait⟩

/-- A frame has returned. -/
theorem return_ok (hu : K.unit.Ok) (hsized : K.unit.Sized) (hK : K.Stable)
    (hs : s.Holds K σ pending) (hwait : Awaits K R k σ outer rest T)
    (hx : x.Has K.unit.table σ T) : Step.Ok K R k σ pending (s.returnTo rest outer x) := by
  cases outer with
  | none => exact deliver_ok (s := s.left rest none) ⟨hs.machine, hs.unfinished⟩ hwait hx
  | some w =>
      cases hwait with
      | host ok _ below =>
          exact answer_ok hu hsized hK (s := s.left rest w.budget) (ok σ x (.refl σ) hx)
            ⟨hs.machine, hs.unfinished⟩ below (by simp)

/-- The top frame takes one step along its course. -/
theorem follows_step (hu : K.unit.Ok) (hsized : K.unit.Sized) (hK : K.Stable) {own : Ty} {n : Nat}
    {c : Course Value} (h : Follows K.unit own n σ c f) (hn : n = k + 1)
    (hstack : s.stack = f :: rest) (hs : s.Holds K σ pending)
    (hwait : Awaits K R k σ f.outer rest own) :
    Step.Ok K R k σ (s.unfinished pending) s.step := by
  induction h with
  | pass I quiet step next _ =>
      obtain ⟨f', hnext, houter, hI⟩ := step s rest hstack hs.machine.heap
      rw [hnext, State.unfinished_quiet hstack quiet]
      exact .next (.refl _) ⟨⟨hs.machine, hs.unfinished⟩, f', rest, own, _, rfl,
        (next f' hI).mono (by omega), houter ▸ hwait⟩
  | @enter k' σ c f I todo step next _ =>
      have hquiet : f.Quiet := fun v w rest hat => absurd (todo.symm.trans hat.todo) (by simp)
      rw [State.unfinished_quiet hstack hquiet]
      by_cases hbudget : s.budget = some 0
      · have hstep : s.step = s.fail .cancelled := by
          unfold State.step
          rw [hstack]
          dsimp only
          rw [todo]
          dsimp only
          rw [State.enterBlock, if_pos hbudget]
        rw [hstep]
        refine fail_ok hs ?_ .cancelled
        rw [hstack]
        exact ⟨_, hwait⟩
      · obtain ⟨f', hnext, houter, hI⟩ := step s rest hstack hs.machine.heap hbudget
        rw [hnext]
        exact .next (.refl _) ⟨⟨hs.machine, hs.unfinished⟩, f', rest, own, _, rfl,
          (next f' hI).mono (by omega), houter ▸ hwait⟩
  | ret quiet typed step =>
      rw [step s rest hstack hs.machine.heap, State.unfinished_quiet hstack quiet]
      exact return_ok hu hsized hK hs hwait typed
  | fail quiet allowed step =>
      rw [step s rest hstack hs.machine.heap, State.unfinished_quiet hstack quiet]
      refine fail_ok hs ?_ allowed
      rw [hstack]
      exact ⟨_, hwait⟩
  | lost => cases hn
  | @create k' σ cls next f v w todo l c ty here alloc owns name layout step others _ =>
      have hfresh := hs.machine.heap.fresh
      have hle := Marks.le_set_of_none ⟨ty, [], false⟩ hfresh
      rw [step s rest hstack hs.machine.heap, State.unfinished_alloc hstack here alloc]
      refine deliver_top hstack here hle ⟨?_, hs.unfinished.create⟩
        ((others _ hfresh).mono (by omega)) (hwait.mono (Nat.le_refl k) hle)
      exact ⟨hs.machine.heap.push (.new hu.sound.table.linked owns (name ▸ layout)),
        hs.machine.program, hs.machine.hosts.mono hle, hK hle hs.machine.memory⟩
  | finish here dispatch known cls layout full object step next _ =>
      have hle := Marks.le_set known (Mark.le_finish _)
      obtain ⟨o, hobject⟩ := object s rest hstack hs.machine.heap
      rw [step s rest hstack hs.machine.heap,
        State.unfinished_setDispatch hstack here dispatch hobject]
      refine deliver_top hstack here hle ⟨?_, hs.unfinished.finish⟩
        (next.mono (by omega)) (hwait.mono (Nat.le_refl k) hle)
      exact ⟨hs.machine.heap.setDispatch known cls layout full, hs.machine.program,
        hs.machine.hosts.mono hle, hK hle hs.machine.memory⟩
  | get here quiet known cls place named whole step others _ =>
      obtain ⟨o, y, ho, hy, hty⟩ := hs.machine.heap.exists_field known whole cls place
      rw [step s rest hstack hs.machine.heap o y ho hy, State.unfinished_quiet hstack quiet]
      exact deliver_top hstack here (.refl _) hs ((others y hty).mono (by omega)) hwait
  | @set k' i σ name y next f v w todo c ref m fd here quiet known cls place named typed step
      others _ =>
      have hle := Marks.le_set known (m.le_give name)
      rw [step s rest hstack hs.machine.heap, State.unfinished_quiet hstack quiet]
      refine deliver_top hstack here hle ⟨?_, hs.unfinished.give known⟩
        (others.mono (by omega)) (hwait.mono (Nat.le_refl k) hle)
      exact ⟨named ▸ hs.machine.heap.setField hu.sound.table known cls place typed,
        hs.machine.program, hs.machine.hosts.mono hle, hK hle hs.machine.memory⟩
  | call here quiet accepts step others _ =>
      rw [step s rest hstack hs.machine.heap, State.unfinished_quiet hstack quiet]
      refine call_ok hu hsized hK accepts hs ?_
      rw [hstack]
      exact .frame here (fun σ' x hσ hx => ⟨_, (others σ' x hσ hx).mono (by omega)⟩) hwait
  | invoke known cls method _ ih => exact ih hn hstack hs hwait

/-! Failures -/

/-- The failures that come up while `e` takes the frames off a stack. -/
inductive State.Unwinds : List Frame → Failure → State → Failure → Prop
  | here {stack : List Frame} {e : Failure} {s : State} : Unwinds stack e s e
  | frame {f : Frame} {rest : List Frame} {e e' : Failure} {s : State} (outer : f.outer = none)
      (more : Unwinds rest e (s.left rest none) e') : Unwinds (f :: rest) e s e'
  | host {f : Frame} {rest : List Frame} {w : Waiting} {e e' e'' : Failure} {s s' : State}
      (outer : f.outer = some w)
      (answer : (s.left rest w.budget).answer (some e) (w.next (.error e)) = .done s' (.error e'))
      (more : Unwinds rest e' s' e'') : Unwinds (f :: rest) e s e''

/-- The failures that come up in a step. -/
def State.Raises (s : State) (e : Failure) : Prop :=
  ∃ s' e', s.step = .done s' (.error e') ∧ s'.Unwinds s'.stack e' e

/-- A host function goes on with the failure of its call. -/
theorem resume_ok (hu : K.unit.Ok) (hsized : K.unit.Sized) (hK : K.Stable)
    (hs : s.Holds K σ pending) {w : Waiting} (hwait : Awaits K R k σ (some w) rest T)
    (he : e.Allowed) : Step.Ok K R k σ pending
      ((s.left rest w.budget).answer (some e) (w.next (.error e))) := by
  cases hwait with
  | host _ error below =>
      exact answer_ok hu hsized hK (s := s.left rest w.budget) (error σ e (.refl σ) he)
        ⟨hs.machine, hs.unfinished⟩ below fun _ => ⟨e, rfl, he⟩

theorem unwinds_allowed (hu : K.unit.Ok) (hsized : K.unit.Sized) (hK : K.Stable)
    {stack : List Frame} {e' : Failure} (h : State.Unwinds stack e s e')
    (hbelow : Below K R k σ stack) (hs : s.Holds K σ pending) (he : e.Allowed) : e'.Allowed := by
  induction h generalizing σ with
  | here => exact he
  | frame outer _ ih =>
      obtain ⟨T, hwait⟩ := hbelow
      rw [outer] at hwait
      exact ih hwait.frames ⟨hs.machine, hs.unfinished⟩ he
  | host outer answer _ ih =>
      obtain ⟨T, hwait⟩ := hbelow
      rw [outer] at hwait
      have hstep := resume_ok hu hsized hK hs hwait he
      rw [answer] at hstep
      cases hstep with
      | error le state allowed below =>
          rw [(State.quits_of_answer answer).alters.stack] at below
          exact ih below state allowed

theorem unwind_ok (hu : K.unit.Ok) (hsized : K.unit.Sized) (hK : K.Stable) {stack : List Frame}
    (hstack : s.stack = stack) (hbelow : Below K R k σ stack) (hs : s.Holds K σ pending)
    (he : e.Allowed) : Step.Ok K R k σ pending (State.unwind stack e s) := by
  induction stack generalizing σ s e with
  | nil => exact .error (.refl σ) hs he (hstack ▸ trivial)
  | cons f rest ih =>
      obtain ⟨T, hwait⟩ := hbelow
      rw [State.unwind]
      cases houter : f.outer with
      | none =>
          rw [houter] at hwait
          exact ih (s := s.left rest none) rfl hwait.frames ⟨hs.machine, hs.unfinished⟩ he
      | some w =>
          rw [houter] at hwait
          have hstep := resume_ok hu hsized hK hs hwait he
          dsimp only
          generalize hp : (s.left rest w.budget).answer (some e) (w.next (.error e)) = p at hstep ⊢
          cases hstep with
          | next le state => exact .next le state
          | value le state typed => exact .value le state typed
          | @error σ' s' e' le state allowed below =>
              have hrest : s'.stack = rest := (State.quits_of_answer hp).alters.stack
              exact (ih hrest (hrest ▸ below) state allowed).from_ le

/-! Runs -/

theorem State.Ok.step (hu : K.unit.Ok) (hsized : K.unit.Sized) (hK : K.Stable)
    (h : s.Ok K R (k + 1) σ pending) : Step.Ok K R k σ (s.unfinished pending) s.step := by
  obtain ⟨f, rest, own, c, hstack, hf, hwait⟩ := h.top
  exact follows_step hu hsized hK hf rfl hstack h.holds (hwait.mono (Nat.le_succ k) (.refl σ))

/-- Whatever comes up in a step is allowed. -/
theorem State.Ok.raises (hu : K.unit.Ok) (hsized : K.unit.Sized) (hK : K.Stable)
    (h : s.Ok K R (k + 1) σ pending) (he : s.Raises e) : e.Allowed := by
  obtain ⟨s', e', hfail, hunwinds⟩ := he
  have hstep := h.step hu hsized hK
  rw [hfail] at hstep
  cases hstep with
  | error le state allowed below =>
      exact unwinds_allowed hu hsized hK hunwinds below state allowed

theorem State.Ok.advance (hu : K.unit.Ok) (hsized : K.unit.Sized) (hK : K.Stable)
    (h : s.Ok K R (k + 1) σ pending) : Step.Ok K R k σ (s.unfinished pending) s.advance := by
  have hstep := h.step hu hsized hK
  rw [State.advance]
  generalize s.step = p at hstep
  cases hstep with
  | next le state => exact .next le state
  | value le state typed => exact .value le state typed
  | error le state allowed below =>
      exact (unwind_ok hu hsized hK rfl below state allowed).from_ le

/-- The state after `n` steps of a run that goes on so long, and the objects that are under way
then. -/
def State.after : Nat → State → List Nat → Option (State × List Nat)
  | 0, s, pending => some (s, pending)
  | n + 1, s, pending =>
    match s.advance with
    | .next s' => s'.after n (s.unfinished pending)
    | .done .. => none

/-- One more step. -/
theorem State.after_succ {n : Nat} {s₀ : State} {pending₀ : List Nat}
    (h : s₀.after n pending₀ = some (s, pending)) (hadvance : s.advance = .next s') :
    s₀.after (n + 1) pending₀ = some (s', s.unfinished pending) := by
  induction n generalizing s₀ pending₀ with
  | zero =>
      obtain ⟨rfl, rfl⟩ := Prod.mk.inj (Option.some.inj h)
      simp only [State.after, hadvance]
  | succ n ih =>
      rw [State.after] at h ⊢
      cases hfirst : s₀.advance with
      | next s₁ =>
          rw [hfirst] at h
          exact ih h
      | done _ _ =>
          rw [hfirst] at h
          cases h

/-- What holds at the start of a run holds all along. -/
theorem State.Ok.after (hu : K.unit.Ok) (hsized : K.unit.Sized) (hK : K.Stable) {n : Nat}
    {pending' : List Nat} (h : s.Ok K R (n + k) σ pending)
    (hrun : s.after n pending = some (s', pending')) :
    ∃ σ', σ.Le σ' ∧ s'.Ok K R k σ' pending' := by
  induction n generalizing s σ pending with
  | zero =>
      obtain ⟨rfl, rfl⟩ := Prod.mk.inj (Option.some.inj hrun)
      exact ⟨σ, .refl σ, by simpa using h⟩
  | succ n ih =>
      rw [Nat.add_right_comm] at h
      have hstep := h.advance hu hsized hK
      rw [State.after] at hrun
      generalize s.advance = p at hstep hrun
      cases hstep with
      | next le state =>
          obtain ⟨σ', hle, hok⟩ := ih state hrun
          exact ⟨σ', le.trans hle, hok⟩
      | value | error => cases hrun

/-- What holds at the start of a run holds at its end. -/
theorem State.Ok.run (hu : K.unit.Ok) (hsized : K.unit.Sized) (hK : K.Stable) {n : Nat}
    {r : Except Failure Value} (h : s.Ok K R n σ pending) (hrun : s.run n = some (s', r)) :
    ∃ σ' pending', σ.Le σ' ∧ s'.Holds K σ' pending' ∧
      (∀ x, r = .ok x → x.Has K.unit.table σ' R) ∧ ∀ e, r = .error e → e.Allowed := by
  induction n generalizing s σ pending with
  | zero => cases hrun
  | succ n ih =>
      have hstep := h.advance hu hsized hK
      rw [State.run] at hrun
      generalize s.advance = p at hstep hrun
      cases hstep with
      | next le state =>
          obtain ⟨σ', pending', hle, hs, hok, herror⟩ := ih state hrun
          exact ⟨σ', pending', le.trans hle, hs, hok, herror⟩
      | value le state typed =>
          obtain ⟨rfl, rfl⟩ := Prod.mk.inj (Option.some.inj hrun)
          exact ⟨_, _, le, state, by rintro _ ⟨⟩; exact typed, by rintro _ ⟨⟩⟩
      | error le state allowed _ =>
          obtain ⟨rfl, rfl⟩ := Prod.mk.inj (Option.some.inj hrun)
          exact ⟨_, _, le, state, by rintro _ ⟨⟩, by rintro _ ⟨⟩; exact allowed⟩

/-- A machine is asked to call the function `g` with the body `b`. The type parameters `ps` that
are known in it stand for the types `as`, and the arguments, the receiver of a method first, have
the types that it declares. -/
structure Entry (K : Terms) (σ : Marks) (m : ClassLang.Machine) (g : Typed.Func) (b : Typed.Block)
    (ps : List TypeParam) (as : List Ty) (args : List Value) : Prop where
  machine : MachineOk K σ m
  binds : K.unit.Binds g ps
  ground : K.unit.table.Ground ps as
  body : g.body = some b
  args : Values.Have K.unit.table σ args (g.header.declared.map fun v => v.ty.subst ps as)

/-- A call starts as it should. -/
theorem Entry.starts (hu : K.unit.Ok) (hsized : K.unit.Sized) {m : ClassLang.Machine}
    {g : Typed.Func} {b : Typed.Block} {ps : List TypeParam} {as : List Ty} {args : List Value}
    (h : Entry K σ m g b ps as args) (hpending : σ.Unfinished pending) (budget : Budget) (k : Nat) :
    (State.started { machine := m, budget }
      (Graph.Func.ofTyped (Layouts.build K.unit.table) g b) args none).Ok K
      (g.header.sig.result.subst ps as) k σ pending :=
  ⟨⟨h.machine, hpending⟩, _, _, _, _, rfl,
    follows_func hu hsized h.binds h.ground h.body h.args k none, .last⟩

end ClassLang.Machine
