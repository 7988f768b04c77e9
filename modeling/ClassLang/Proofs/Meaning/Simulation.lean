import ClassLang.Proofs.Meaning.Safety

/-!
How the objects that are known by name are those of a machine. They have the same numbers and the
same classes, and fields that have been given values have the same ones. Whatever a step does to
an object of the one it does to that of the other.
-/

namespace ClassLang.Direct

open Machine (Marks Mark Object Value)

variable {u : Typed.File} {t : Table} {σ : Marks} {k k' : Mark} {o o' : Object} {th th' : Thing}
  {w : World} {m : Machine} {c : ClassInfo} {ref i : Nat} {name : String} {x : Value}

/-- The thing `th` has the class of the object `o`, and the fields that are known to have
values. -/
structure Thing.Mirrors (k : Mark) (o : Object) (th : Thing) : Prop where
  cls : th.cls = o.layout.name
  fields : ∀ (i : Nat) (s : FieldSlot), o.layout.fields[i]? = some s → s.field.name ∈ k.given →
    th.field? s.field.name = o.fields[i]?

/-- The world `w` has the objects of the machine `m`, its host functions and what these have
kept. -/
structure World.Mirrors (σ : Marks) (m : Machine) (w : World) : Prop where
  size : w.things.size = m.heap.size
  things : ∀ (ref : Nat) (o : Object) (k : Mark), m.heap[ref]? = some o → σ ref = some k →
    ∃ th, w.things[ref]? = some th ∧ th.Mirrors k o
  hosts : w.hosts = m.hosts
  memory : w.memory = m.memory

/-! Fields -/

theorem isLayout (ht : t.Linked) (h : o.Suits t σ c k) :
    Layouts.IsLayout t (Layouts.build t).slots c o.layout := by
  obtain ⟨l, hl, his⟩ := Layouts.named?_build ht (Table.classOf?_mem h.owns.cls)
  obtain rfl : l = o.layout := Option.some.inj (hl.symm.trans h.layout)
  exact his

/-- The names of the fields of an object differ. -/
theorem nodup_names (ht : t.WellTyped) (h : o.Suits t σ c k) :
    (o.layout.fields.map (·.field.name)).Nodup := by
  have hid := ht.linked.class?_id (Table.classOf?_mem h.owns.cls)
  have hnodup := ht.flatFields_nodup (Table.class?_eq_some_lt hid)
  rwa [← (isLayout ht.linked h).map_field, List.map_map] at hnodup

/-- What is found under the name at a place. -/
theorem lookup_zip {names : List String} {xs : List Value} (hnodup : names.Nodup)
    (hname : names[i]? = some name) : (names.zip xs).lookup name = xs[i]? := by
  induction names generalizing xs i with
  | nil => simp at hname
  | cons n names ih =>
      obtain ⟨hn, hnodup⟩ := List.nodup_cons.1 hnodup
      cases xs with
      | nil => simp
      | cons x xs =>
          cases i with
          | zero =>
              obtain rfl : n = name := by simpa using hname
              simp
          | succ i =>
              have hname' : names[i]? = some name := by simpa using hname
              have hne : (name == n) = false := by
                have hmem := List.mem_of_getElem? hname'
                simp only [beq_eq_false_iff_ne]
                rintro rfl
                exact hn hmem
              rw [List.zip_cons_cons, List.lookup_cons, hne]
              simpa using ih hnodup hname'

/-- What a host function leaves behind is the object itself. -/
theorem Thing.ofObject_mirrors (ht : t.WellTyped) (h : o.Suits t σ c k) :
    (Thing.ofObject o).Mirrors k o := by
  refine ⟨rfl, fun i s hs _ => ?_⟩
  have hname : (o.layout.fields.map (·.field.name))[i]? = some s.field.name := by
    rw [List.getElem?_map, hs]
    rfl
  rw [Thing.field?, Thing.ofObject, lookup_zip (nodup_names ht h) hname, Array.getElem?_toList]

theorem mapM_some {α β : Type} {f : α → Option β} {l : List α} {ys : List β}
    (hlen : l.length = ys.length) (h : ∀ (i : Nat) (a : α), l[i]? = some a → f a = ys[i]?) :
    l.mapM f = some ys := by
  induction l generalizing ys with
  | nil =>
      obtain rfl := List.length_eq_zero_iff.1 hlen.symm
      rfl
  | cons a l ih =>
      cases ys with
      | nil => cases hlen
      | cons y ys =>
          rw [List.mapM_cons, show f a = some y from h 0 a rfl,
            ih (by simpa using hlen) fun i b hb => h (i + 1) b (by simpa using hb)]
          rfl

/-- Host functions see an object that is whole as it is. -/
theorem Thing.Mirrors.object?_eq (hsuits : o.Suits u.table σ c k)
    (ht : u.table.WellTyped) (hwhole : k.whole = true) (h : th.Mirrors k o) :
    th.object? u = some o := by
  have his := isLayout ht.linked hsuits
  have hfields : (o.layout.fields.mapM fun s => th.field? s.field.name) = some o.fields.toList := by
    refine mapM_some (by simp [his.fields, hsuits.size])
      fun i s hs => ?_
    have hslot := hs
    rw [his.getElem?_fields i] at hslot
    obtain ⟨fd, hfd, rfl⟩ := Option.map_eq_some_iff.1 hslot
    rw [h.fields i _ hs (hsuits.full hwhole fd (List.mem_of_getElem? hfd)), Array.getElem?_toList]
  rw [Thing.object?, h.cls, his.name, hsuits.layout]
  simp only [Option.bind_eq_bind, Option.bind_some, hfields, Array.toArray_toList]
  rw [← hsuits.dispatch hwhole]
  rfl

/-- A field gets a value. -/
theorem Thing.Mirrors.give (ht : t.WellTyped) (hsuits : o.Suits t σ c k) {fd : Field}
    (hfd : (t.flatFields c.id)[i]? = some fd) (h : th.Mirrors k o) (x : Value) :
    (th.give fd.name x).Mirrors (k.give fd.name)
      { o with fields := o.fields.setIfInBounds i x } := by
  have hplaces := (isLayout ht.linked hsuits).getElem?_fields
  have hlt : i < o.fields.size := hsuits.size ▸ (List.getElem?_eq_some_iff.1 hfd).1
  refine ⟨h.cls, fun j s hs hgiven => ?_⟩
  dsimp only at hs ⊢
  rw [Array.getElem?_setIfInBounds, Thing.field?, Thing.give, List.lookup_cons]
  by_cases hij : i = j
  · subst hij
    rw [hplaces i, hfd] at hs
    obtain rfl := Option.some.inj hs
    simp [hlt]
  · rw [if_neg hij]
    have hne : s.field.name ≠ fd.name := by
      intro heq
      have hi : i < (o.layout.fields.map (·.field.name)).length := by
        have hlt := (List.getElem?_eq_some_iff.1 (hplaces i ▸ (by rw [hfd]; rfl) :
          o.layout.fields[i]? = some ⟨fd, i⟩)).1
        simpa using hlt
      refine hij ((List.getElem?_inj hi (nodup_names ht hsuits)).1 ?_)
      rw [List.getElem?_map, List.getElem?_map, hs, hplaces i, hfd]
      exact congrArg some heq.symm
    rw [show (s.field.name == fd.name) = false by simpa using hne]
    exact h.fields j s hs ((List.mem_cons.1 hgiven).resolve_left hne)

/-! Worlds -/

namespace World.Mirrors

/-- Something has been done to one object, or it is new. -/
theorem change (h : w.Mirrors σ m) {things : Array Thing} {heap : Array Object}
    (hsize : things.size = heap.size)
    (hhere : ∀ o, heap[ref]? = some o → ∃ th, things[ref]? = some th ∧ th.Mirrors k o)
    (hthings : ∀ r, r ≠ ref → things[r]? = w.things[r]?)
    (hheap : ∀ r, r ≠ ref → heap[r]? = m.heap[r]?) :
    ({ w with things } : World).Mirrors (σ.set ref k) { m with heap } := by
  refine ⟨hsize, fun r o l ho hl => ?_, h.hosts, h.memory⟩
  by_cases hr : r = ref
  · subst hr
    obtain rfl : k = l := Option.some.inj ((Marks.set_self σ r k).symm.trans hl)
    exact hhere o ho
  · obtain ⟨th, hth, hmirrors⟩ :=
      h.things r o l ((hheap r hr).symm.trans ho) ((Marks.set_of_ne σ k hr).symm.trans hl)
    exact ⟨th, (hthings r hr).trans hth, hmirrors⟩

/-- A new object. -/
theorem push (h : w.Mirrors σ m) (ho : th.Mirrors k o) :
    ({ w with things := w.things.push th } : World).Mirrors (σ.set m.heap.size k)
      { m with heap := m.heap.push o } := by
  refine h.change (by simp [h.size]) (fun p hp => ⟨th, ?_, ?_⟩) (fun r hr => ?_) fun r hr => ?_
  · rw [← h.size, Array.getElem?_push_size]
  · rw [Array.getElem?_push_size] at hp
    exact Option.some.inj hp ▸ ho
  · rw [Array.getElem?_push, if_neg (h.size ▸ hr)]
  · rw [Array.getElem?_push, if_neg hr]

/-- An object is changed, and so is what is known of it. -/
theorem modify (h : w.Mirrors σ m) (hk : σ ref = some k) {f : Object → Object} {g : Thing → Thing}
    (hfg : ∀ o th, m.heap[ref]? = some o → th.Mirrors k o → (g th).Mirrors k' (f o)) :
    ({ w with things := w.things.modify ref g } : World).Mirrors (σ.set ref k')
      { m with heap := m.heap.modify ref f } := by
  refine h.change (by simp [h.size]) (fun p hp => ?_) (fun r hr => ?_) fun r hr => ?_
  · rw [Array.getElem?_modify, if_pos rfl] at hp
    obtain ⟨o, ho, rfl⟩ := Option.map_eq_some_iff.1 hp
    obtain ⟨th, hth, hmirrors⟩ := h.things ref o k ho hk
    exact ⟨g th, by rw [Array.getElem?_modify, if_pos rfl, hth]; rfl, hfg o th ho hmirrors⟩
  · rw [Array.getElem?_modify, if_neg (Ne.symm hr)]
  · rw [Array.getElem?_modify, if_neg (Ne.symm hr)]

/-- An object is made whole, which is not seen by name. -/
theorem finish (h : w.Mirrors σ m) (hk : σ ref = some k) (l : ClassLayout) :
    w.Mirrors (σ.set ref k.finish)
      { m with heap := m.heap.modify ref fun o => { o with dispatch := some l } } := by
  have hsize : w.things.size =
      (m.heap.modify ref fun o => { o with dispatch := some l }).size := by simp [h.size]
  refine h.change hsize (fun p hp => ?_) (fun _ _ => rfl) fun r hr => ?_
  · rw [Array.getElem?_modify, if_pos rfl] at hp
    obtain ⟨o, ho, rfl⟩ := Option.map_eq_some_iff.1 hp
    obtain ⟨th, hth, hmirrors⟩ := h.things ref o k ho hk
    exact ⟨th, hth, hmirrors.cls, hmirrors.fields⟩
  · rw [Array.getElem?_modify, if_neg (Ne.symm hr)]

/-- An object is replaced by another. -/
theorem replace (h : w.Mirrors σ m) (hk : σ ref = some k) (ho : th.Mirrors k o) :
    ({ w with things := w.things.setIfInBounds ref th } : World).Mirrors σ
      { m with heap := m.heap.setIfInBounds ref o } := by
  have hσ : σ.set ref k = σ := Function.update_eq_self_iff.2 hk.symm
  have hmirrors : ({ w with things := w.things.setIfInBounds ref th } : World).Mirrors
      (σ.set ref k) { m with heap := m.heap.setIfInBounds ref o } := by
    refine h.change (by simp [h.size]) (fun p hp => ⟨th, ?_, ?_⟩) (fun r hr => ?_) fun r hr => ?_
    · rw [Array.getElem?_setIfInBounds, if_pos rfl] at hp ⊢
      rw [h.size]
      split at hp
      · rw [if_pos ‹_›]
      · cases hp
    · rw [Array.getElem?_setIfInBounds, if_pos rfl] at hp
      split at hp
      · exact Option.some.inj hp ▸ ho
      · cases hp
    · rw [Array.getElem?_setIfInBounds, if_neg (Ne.symm hr)]
    · rw [Array.getElem?_setIfInBounds, if_neg (Ne.symm hr)]
  exact hσ ▸ hmirrors

end World.Mirrors

end ClassLang.Direct

/-!
The machine does what is said by name. Where a course of a body comes to an end, the machine that
runs the graph of the body comes to its end too, with the same value or the same failure and with
the same objects; where it has used up its rounds, the machine has made at least as many steps.
-/

namespace ClassLang.Machine

open Direct (Course Outcome Thing World)
open ClassLang.Graph (Callee)

/-! Steps -/

namespace Step

/-- What a step comes to when its failure has taken frames off the stack. -/
def settled : Step → Step
  | .done s (.error e) => State.unwind s.stack e s
  | p => p

/-- The machine comes from one step to another. -/
inductive Leads : Step → Step → Prop
  | refl (p : Step) : Leads p p
  | next {s : State} {q : Step} (more : Leads s.advance q) : Leads (.next s) q

/-- The machine goes on for `n` steps. -/
def Lasts : Nat → Step → Prop
  | 0, _ => True
  | n + 1, p => ∃ s, p = .next s ∧ Lasts n s.advance

variable {p q r : Step} {m n : Nat}

theorem Leads.trans (h : p.Leads q) (h' : q.Leads r) : p.Leads r := by
  induction h with
  | refl => exact h'
  | next _ ih => exact .next (ih h')

theorem Lasts.pred (h : p.Lasts (n + 1)) : p.Lasts n := by
  induction n generalizing p with
  | zero => trivial
  | succ n ih =>
      obtain ⟨s, rfl, h⟩ := h
      exact ⟨s, rfl, ih h⟩

theorem Lasts.mono (h : p.Lasts n) (hle : m ≤ n) : p.Lasts m := by
  induction hle with
  | refl => exact h
  | step _ ih => exact ih h.pred

theorem Leads.lasts (h : p.Leads q) (hq : q.Lasts n) : p.Lasts n := by
  induction h with
  | refl => exact hq
  | next _ ih => exact Lasts.pred ⟨_, rfl, ih hq⟩

end Step

/-- Where a state is: the frames that wait, the calls under way and how many there may be. -/
structure Level where
  stack : List Frame
  depth : Int
  maxDepth : Nat

namespace State

variable {s : State} {f : Frame} {rest : List Frame} {e : Failure} {x : Value}

theorem advance_eq (s : State) : s.advance = s.step.settled := by
  rw [State.advance]
  generalize s.step = p
  rcases p with _ | ⟨_, _ | _⟩ <;> rfl

def level (s : State) : Level := ⟨s.stack, s.depth, s.machine.maxDepth⟩

/-- What follows when a call has ended, whose frame has been taken off the stack. -/
def resume (s : State) (outer : Option Waiting) (r : Except Failure Value) : Step :=
  match outer, r with
  | none, .ok x => (s.deliver x).settled
  | none, .error e => State.unwind s.stack e s
  | some w, .ok x =>
    ({ s with budget := w.budget.getD s.budget }.answer none (w.next (.ok x))).settled
  | some w, .error e =>
    ({ s with budget := w.budget.getD s.budget }.answer (some e) (w.next (.error e))).settled

/-- What follows when a function is called. -/
def enter (s : State) (fn : Graph.Func) (args : List Value) (outer : Option Waiting) : Step :=
  if s.machine.maxDepth ≤ s.depth then s.resume outer (.error (s.tooDeep fn))
  else .next (s.started fn args outer)

theorem settled_returnTo (s : State) (rest : List Frame) (outer : Option Waiting) (x : Value) :
    (s.returnTo rest outer x).settled = (s.left rest none).resume outer (.ok x) := by
  cases outer <;> rfl

/-- A failure takes the top frame off the stack. -/
theorem unwind_eq (hstack : s.stack = f :: rest) (e : Failure) :
    State.unwind s.stack e s = (s.left rest none).resume f.outer (.error e) := by
  rw [hstack, State.unwind]
  cases houter : f.outer with
  | none => rfl
  | some w =>
      dsimp only
      change _ = ((s.left rest w.budget).answer (some e) (w.next (.error e))).settled
      generalize hp : (s.left rest w.budget).answer (some e) (w.next (.error e)) = p
      cases p with
      | next _ => rfl
      | done s' r =>
          cases r with
          | ok _ => rfl
          | error e' =>
              have hrest : s'.stack = rest := (State.quits_of_answer hp).alters.stack
              rw [Step.settled, hrest]

theorem settled_push (s : State) (fn : Graph.Func) (args : List Value) :
    (s.push fn args none).settled = s.enter fn args none := by
  unfold push enter
  split <;> rfl

/-- The state of the machine is that of the run by name. -/
structure Beside (K : Terms) (σ : Marks) (w : World) (s : State) : Prop where
  machine : MachineOk K σ s.machine
  mirrors : w.Mirrors σ s.machine
  out : w.out = s.out
  budget : s.budget = none

end State

variable {K : Terms} {R T : Ty} {m n : Nat} {σ σ' : Marks} {L : Level} {outer : Option Waiting}
  {rest : List Frame} {s s' : State} {f : Frame} {e : Failure} {x : Value} {w : World}
  {p q : Step} {o : Outcome} {r : Except Failure Value}
  {callFunc : World → FuncRef → List Value → Outcome} {depth : Int} {limit : Nat}

/-! Outcomes -/

/-- A value of the type `T`, or a failure that is allowed. -/
inductive Result.Ok (K : Terms) (σ : Marks) (T : Ty) : Except Failure Value → Prop
  | value {x : Value} (typed : x.Has K.unit.table σ T) : Result.Ok K σ T (.ok x)
  | failure {e : Failure} (allowed : e.Allowed) : Result.Ok K σ T (.error e)

/-- From the step `p` on the machine comes to the outcome of a call, and goes on with it where the
call was made. Without an outcome it makes `n` steps. -/
inductive Meets (K : Terms) (T : Ty) (n : Nat) (σ : Marks) (L : Level) (outer : Option Waiting)
    (p : Step) : Outcome → Prop
  | ends {σ' : Marks} {s : State} {w : World} {r : Except Failure Value} (le : σ.Le σ')
      (beside : s.Beside K σ' w) (level : s.level = L) (result : Result.Ok K σ' T r)
      (leads : p.Leads (s.resume outer r)) : Meets K T n σ L outer p (some (w, r))
  | lasts (lasts : p.Lasts n) : Meets K T n σ L outer p none

namespace Meets

theorem ended (hs : s.Beside K σ w) (hr : Result.Ok K σ T r) :
    Meets K T n σ s.level outer (s.resume outer r) (some (w, r)) :=
  .ends (.refl σ) hs rfl hr (.refl _)

theorem of_leads (h : Meets K T n σ' L outer q o) (hσ : σ.Le σ') (hleads : p.Leads q) :
    Meets K T n σ L outer p o := by
  cases h with
  | ends le beside level result leads =>
      exact .ends (hσ.trans le) beside level result (hleads.trans leads)
  | lasts h => exact .lasts (hleads.lasts h)

theorem next (h : Meets K T (n - 1) σ L outer s.advance o) :
    Meets K T n σ L outer (.next s) o := by
  cases h with
  | ends le beside level result leads => exact .ends le beside level result (.next leads)
  | lasts h =>
      cases n with
      | zero => exact .lasts trivial
      | succ n => exact .lasts ⟨s, rfl, h⟩

/-- The heap changes, and the top frame goes on with a value. -/
theorem deliver {k v : Nat} {w : Graph.Instr} {todo : List Nat} {g : Array Object → Array Object}
    (hstack : s.stack = f :: rest) (hat : f.At v w todo)
    (hstep : s.step = (s.modifyHeap g).deliver x) (hσ : σ.Le σ')
    (h : Meets K T (k - 1) σ'
      (((s.modifyHeap g).withTop (f.given v x todo) rest).left rest none).level
      (f.given v x todo).outer ((s.modifyHeap g).withTop (f.given v x todo) rest).advance o) :
    Meets K T k σ (s.left rest none).level f.outer s.advance o := by
  rw [State.advance_eq, hstep, State.deliver_eq (s := s.modifyHeap g) hstack hat.todo]
  exact h.next.of_leads hσ (.refl _)

end Meets

/-- Calls of functions come to what `callFunc` says, where `depth` calls are under way. -/
def Serves (K : Terms) (n : Nat) (depth : Int) (limit : Nat)
    (callFunc : World → FuncRef → List Value → Outcome) : Prop :=
  ∀ {σ : Marks} {w : World} {s : State} {g : Typed.Func} {ps : List TypeParam} {as : List Ty}
    {b : Typed.Block} {args : List Value} (outer : Option Waiting), s.Beside K σ w →
    s.depth = depth → s.machine.maxDepth = limit → K.unit.Binds g ps →
    K.unit.table.Ground ps as → g.body = some b →
    Values.Have K.unit.table σ args (g.header.declared.map fun v => v.ty.subst ps as) →
    Meets K (g.header.sig.result.subst ps as) n σ s.level outer
      (s.enter (Graph.Func.ofTyped (Layouts.build K.unit.table) g b) args outer)
      (callFunc w g.ref args)

/-! Host functions -/

/-- The host function goes on with the outcome of its call. -/
theorem resume_call (hs : s.Beside K σ w) {w' : World} (hs' : s'.Beside K σ' w')
    {own : Option Budget} {next : Except Failure Value → Reply} :
    s'.resume (some ⟨own.map fun _ => s.budget, next⟩) r =
      (s'.answer (match r with | .ok _ => none | .error e => some e) (next r)).settled := by
  have hbudget : ((own.map fun _ => s.budget).getD s'.budget) = s'.budget := by
    cases own with
    | none => rfl
    | some _ => exact hs.budget.trans hs'.budget.symm
  cases r <;> rw [State.resume, hbudget]

/-- A host function calls a function. -/
theorem settled_answer_call (hbudget : ∀ b, K.budget b → b = none) (hs : s.Beside K σ w)
    {own : Option Budget} (hown : ∀ b ∈ own, K.budget b) (last : Option Failure)
    (fn : Graph.Func) (args : List Value) (next : Except Failure Value → Reply) :
    (s.answer last (.call fn args own next)).settled =
      s.enter fn args (some ⟨own.map fun _ => s.budget, next⟩) := by
  rw [State.answer, State.enter]
  split
  next => rw [resume_call hs hs]
  next =>
    have hsame : own.getD s.budget = s.budget := by
      cases own with
      | none => rfl
      | some b => exact (hbudget b (hown b rfl)).trans hs.budget.symm
    rw [hsame]
    rfl

/-- A host function does the same in both worlds. -/
theorem serve_meets (hu : K.unit.Ok) (hK : K.Stable) (hbudget : ∀ b, K.budget b → b = none)
    (hcall : Serves K n depth limit callFunc) {failed : Bool} {reply : Reply}
    (h : Honest K T failed σ reply) (hs : s.Beside K σ w) (hdepth : s.depth = depth)
    (hlimit : s.machine.maxDepth = limit) {last : Option Failure}
    (hlast : failed = true → ∃ e, last = some e ∧ e.Allowed) :
    Meets K T n σ s.level none (s.answer last reply).settled
      (World.serve K.unit callFunc last reply w) := by
  induction h generalizing s w last with
  | value typed => exact .ended hs (.value typed)
  | fail => exact .ended hs (.failure .host)
  | pass =>
      obtain ⟨e, rfl, he⟩ := hlast rfl
      exact .ended hs (.failure he)
  | @print _ _ _ text _ _ ih =>
      refine ih (s := { s with out := s.out ++ text }) (w := { w with out := w.out ++ text })
        ⟨hs.machine, ?_, ?_, hs.budget⟩ hdepth hlimit hlast
      · exact ⟨hs.mirrors.size, hs.mirrors.things, hs.mirrors.hosts, hs.mirrors.memory⟩
      · exact congrArg (· ++ text) hs.out
  | look known whole _ ih =>
      obtain ⟨o, c, ho, hsuits⟩ := hs.machine.heap.exists_object known
      obtain ⟨th, hth, hmirrors⟩ := hs.mirrors.things _ o _ ho known
      rw [State.answer, ho, World.serve, hth, Option.bind_some,
        hmirrors.object?_eq hsuits hu.sound.table whole]
      exact ih o c hsuits hs hdepth hlimit hlast
  | @change _ _ _ ref _ o _ _ known _ suits _ ih =>
      refine ih (s := s.modifyHeap (·.setIfInBounds ref o))
        (w := { w with things := w.things.setIfInBounds ref (.ofObject o) })
        ⟨?_, ?_, hs.out, hs.budget⟩ hdepth hlimit hlast
      · exact { hs.machine with heap := hs.machine.heap.replace known suits }
      · exact hs.mirrors.replace known (Thing.ofObject_mirrors hu.sound.table suits)
  | @create _ _ σ m o c next whole suits _ ih =>
      have hfresh := hs.machine.heap.fresh
      have hle := Marks.le_set_of_none m hfresh
      rw [State.answer, World.serve, hs.mirrors.size]
      refine (ih _ hfresh (s := s.modifyHeap (·.push o))
        (w := { w with things := w.things.push (.ofObject o) }) ⟨?_, ?_, hs.out, hs.budget⟩ hdepth
        hlimit hlast).of_leads hle (.refl _)
      · exact ⟨hs.machine.heap.push (suits _ hfresh), hs.machine.program, hs.machine.hosts.mono hle,
          hK hle hs.machine.memory⟩
      · exact hs.mirrors.push (Thing.ofObject_mirrors hu.sound.table (suits _ hfresh))
  | kept _ ih =>
      rw [State.answer, World.serve, hs.mirrors.memory]
      exact ih _ hs.machine.memory hs hdepth hlimit hlast
  | @keep _ _ _ l _ stored _ ih =>
      refine ih (s := { s with machine := { s.machine with memory := l } })
        (w := { w with memory := l }) ⟨?_, ?_, hs.out, hs.budget⟩ hdepth hlimit hlast
      · exact { hs.machine with memory := stored }
      · exact ⟨hs.mirrors.size, hs.mirrors.things, hs.mirrors.hosts, rfl⟩
  | @bind _ _ _ name respond _ host _ _ ih =>
      refine ih (s := { s with machine := s.machine.bind name ⟨respond⟩ })
        (w := { w with hosts := (name, ⟨respond⟩) :: w.hosts.filter (·.1 ≠ name) })
        ⟨?_, ?_, hs.out, hs.budget⟩ hdepth hlimit hlast
      · exact { hs.machine with hosts := hs.machine.hosts.bind host }
      · refine ⟨hs.mirrors.size, hs.mirrors.things, ?_, hs.mirrors.memory⟩
        rw [Machine.bind, ← hs.mirrors.hosts]
  | @call T failed σ g ps as b xs own next binds ground body args budgets _ _ ihok iherror =>
      have href := (Graph.Func.ofTyped_head hu binds.mem body).2.1
      have henter := settled_answer_call hbudget hs budgets last
        (Graph.Func.ofTyped (Layouts.build K.unit.table) g b) xs next
      have hmeets := hcall (some ⟨own.map fun _ => s.budget, next⟩) hs hdepth hlimit binds ground
        body args
      rw [henter, World.serve, href]
      dsimp only
      generalize callFunc w g.ref xs = o at hmeets
      cases hmeets with
      | lasts h => exact .lasts h
      | @ends σ' s' w' r le beside level result leads =>
          rw [resume_call hs beside] at leads
          have hdepth' : s'.depth = depth := (congrArg Level.depth level).trans hdepth
          have hlimit' : s'.machine.maxDepth = limit :=
            (congrArg Level.maxDepth level).trans hlimit
          cases result with
          | @value x typed =>
              have hlast : (false = true) → ∃ e, (none : Option Failure) = some e ∧ e.Allowed :=
                fun h => absurd h Bool.false_ne_true
              exact level ▸ (ihok σ' x le typed beside hdepth' hlimit' hlast).of_leads le leads
          | @failure e allowed =>
              exact level ▸ (iherror σ' e le allowed beside hdepth' hlimit'
                fun _ => ⟨e, rfl, allowed⟩).of_leads le leads

/-! Frames -/

/-- A call comes to what is said by name. -/
theorem call_meets (hu : K.unit.Ok) (hK : K.Stable) (hbudget : ∀ b, K.budget b → b = none)
    (hcall : Serves K n depth limit callFunc) {target : Callee} {args : List Value}
    (h : Accepts K.unit σ target args T) (hs : s.Beside K σ w) (hdepth : s.depth = depth)
    (hlimit : s.machine.maxDepth = limit) :
    Meets K T n σ s.level none (s.call target args).settled
      (World.call K.unit callFunc w target args) := by
  cases h with
  | @func g ps as _ binds ground args =>
      obtain ⟨b, hbody⟩ := Option.isSome_iff_exists.1 (hu.bodied g binds.mem)
      have hfind : s.machine.program.func? g.ref =
          some (Graph.Func.ofTyped (Layouts.build K.unit.table) g b) := by
        rw [hs.machine.program, Graph.Program.func?_ref hu binds.mem hbody]
      simp only [State.call, hfind]
      rw [State.settled_push, World.call]
      exact hcall none hs hdepth hlimit binds ground hbody args
  | @host g _ mem args =>
      rw [State.call, State.callHost, World.call, hs.mirrors.hosts]
      cases hlookup : s.machine.hosts.lookup g.decl.name.text with
      | none => exact .ended hs (.failure .noHost)
      | some host =>
          exact serve_meets hu hK hbudget hcall
            (hs.machine.hosts g mem host hlookup σ _ (.refl σ) args) hs hdepth hlimit (by simp)

/-- A frame that follows a course comes to what the course comes to. -/
theorem follows_meets (hu : K.unit.Ok) (hK : K.Stable) (hbudget : ∀ b, K.budget b → b = none)
    (hcall : Serves K n depth limit callFunc) {own : Ty} {k : Nat} {c : Course Value}
    (h : Follows K.unit own k σ c f) (hle : k ≤ n) (hstack : s.stack = f :: rest)
    (hs : s.Beside K σ w) (hdepth : s.depth = depth) (hlimit : s.machine.maxDepth = limit) :
    Meets K own k σ (s.left rest none).level f.outer s.advance
      (c.run K.unit (World.call K.unit callFunc) w) := by
  induction h generalizing s w with
  | pass I quiet step next ih =>
      obtain ⟨f', hnext, houter, hI⟩ := step s rest hstack hs.machine.heap
      have hmeets := ih f' hI (by omega) (s := s.withTop f' rest) rfl
        ⟨hs.machine, hs.mirrors, hs.out, hs.budget⟩ hdepth hlimit
      rw [State.advance_eq, hnext, ← houter]
      exact hmeets.next
  | enter I todo step next ih =>
      obtain ⟨f', hnext, houter, hI⟩ := step s rest hstack hs.machine.heap (by simp [hs.budget])
      have hmeets := ih f' hI (by omega) (s := s.charged.withTop f' rest) rfl
        ⟨hs.machine, hs.mirrors, hs.out, by simp [State.charged, State.withTop, hs.budget]⟩ hdepth
        hlimit
      rw [State.advance_eq, hnext, ← houter]
      exact hmeets.next
  | ret quiet typed step =>
      rw [State.advance_eq, step s rest hstack hs.machine.heap, State.settled_returnTo]
      exact .ended (s := s.left rest none) ⟨hs.machine, hs.mirrors, hs.out, hs.budget⟩
        (.value typed)
  | fail quiet allowed step =>
      rw [State.advance_eq, step s rest hstack hs.machine.heap, State.fail, Step.settled,
        State.unwind_eq hstack]
      exact .ended (s := s.left rest none) ⟨hs.machine, hs.mirrors, hs.out, hs.budget⟩
        (.failure allowed)
  | lost => exact .lasts trivial
  | @create k σ cls next f v w' todo l c ty here alloc owns name layout step others ih =>
      have hfresh := hs.machine.heap.fresh
      have hle' := Marks.le_set_of_none ⟨ty, [], false⟩ hfresh
      have hname : l.name = cls := by simpa using List.find?_some layout
      rw [Course.run, hs.mirrors.size]
      refine .deliver hstack here (step s rest hstack hs.machine.heap) hle'
        (ih _ hfresh (by omega) rfl ⟨?_, ?_, hs.out, hs.budget⟩ hdepth hlimit)
      · exact ⟨hs.machine.heap.push (.new hu.sound.table.linked owns (name ▸ layout)),
          hs.machine.program, hs.machine.hosts.mono hle', hK hle' hs.machine.memory⟩
      · exact hs.mirrors.push ⟨hname.symm, by simp⟩
  | @finish k σ course f v w' todo l c ref m here dispatch known cls layout full object step next
      ih =>
      have hle' := Marks.le_set known m.le_finish
      refine .deliver hstack here (step s rest hstack hs.machine.heap) hle'
        (ih (by omega) rfl ⟨?_, hs.mirrors.finish known l, hs.out, hs.budget⟩ hdepth hlimit)
      exact ⟨hs.machine.heap.setDispatch known cls layout full, hs.machine.program,
        hs.machine.hosts.mono hle', hK hle' hs.machine.memory⟩
  | @get k i σ name next f v w' todo c ref m fd here quiet known cls place named whole step others
      ih =>
      obtain ⟨o, y, ho, hy, hty⟩ := hs.machine.heap.exists_field known whole cls place
      obtain ⟨d, hsuits⟩ := hs.machine.heap.suits known ho
      obtain rfl := hsuits.cls_unique cls
      obtain ⟨th, hth, hmirrors⟩ := hs.mirrors.things ref o m ho known
      have hslot : o.layout.fields[i]? =
          ((K.unit.table.flatFields c.id)[i]?).map fun fd => ⟨fd, i⟩ :=
        (Direct.isLayout hu.sound.table.linked hsuits).getElem?_fields i
      rw [place] at hslot
      have hfield : (w.thing? (.obj ref)).bind (·.field? name) = some y := by
        rw [World.thing?, hth, ← named, Option.bind_some, hmirrors.fields i _ hslot
          (hsuits.full whole fd (List.mem_of_getElem? place)), hy]
      rw [State.advance_eq, step s rest hstack hs.machine.heap o y ho hy,
        State.deliver_eq hstack here.todo, Course.run, hfield]
      exact Meets.next (ih y hty (s := s.withTop _ rest) (by omega) rfl
        ⟨hs.machine, hs.mirrors, hs.out, hs.budget⟩ hdepth hlimit)
  | @set k i σ name y next f v w' todo c ref m fd here quiet known cls place named typed step
      others ih =>
      subst named
      have hle' := Marks.le_set known (m.le_give fd.name)
      rw [Course.run]
      refine .deliver hstack here (step s rest hstack hs.machine.heap) hle'
        (ih (by omega) rfl ⟨?_, ?_, hs.out, hs.budget⟩ hdepth hlimit)
      · exact ⟨hs.machine.heap.setField hu.sound.table known cls place typed, hs.machine.program,
          hs.machine.hosts.mono hle', hK hle' hs.machine.memory⟩
      · refine hs.mirrors.modify known fun o th ho hmirrors => ?_
        obtain ⟨d, hsuits⟩ := hs.machine.heap.suits known ho
        obtain rfl := hsuits.cls_unique cls
        exact hmirrors.give hu.sound.table hsuits place y
  | @call k σ target args T next f v w' todo here quiet accepts step others ih =>
      rw [State.advance_eq, step s rest hstack hs.machine.heap, Course.run]
      have hmeets := call_meets hu hK hbudget hcall accepts hs hdepth hlimit
      generalize World.call K.unit callFunc w target args = o at hmeets
      cases hmeets with
      | lasts h => exact .lasts (h.mono hle)
      | @ends σ₁ s₁ w₁ r le beside level result leads =>
          have hstack₁ : s₁.stack = f :: rest := (congrArg Level.stack level).trans hstack
          have hdepth₁ : s₁.depth = s.depth := congrArg Level.depth level
          have hlimit₁ : s₁.machine.maxDepth = s.machine.maxDepth := congrArg Level.maxDepth level
          have hleft : (s₁.left rest none).level = (s.left rest none).level := by
            simp only [State.level, State.left, hdepth₁, hlimit₁]
          cases result with
          | @value y typed =>
              rw [State.resume, State.deliver_eq hstack₁ here.todo] at leads
              refine hleft ▸ (Meets.next (ih σ₁ y le typed (s := s₁.withTop _ rest) (by omega) rfl
                ?_ ?_ ?_)).of_leads le leads
              · exact ⟨beside.machine, beside.mirrors, beside.out, beside.budget⟩
              · exact hdepth₁.trans hdepth
              · exact hlimit₁.trans hlimit
          | failure allowed =>
              rw [State.resume, State.unwind_eq hstack₁] at leads
              exact .ends (s := s₁.left rest none) le
                ⟨beside.machine, beside.mirrors, beside.out, beside.budget⟩ hleft
                (.failure allowed) leads
  | @invoke k σ name args next f c ref m found known cls method resolved ih =>
      obtain ⟨o, d, ho, hsuits⟩ := hs.machine.heap.exists_object known
      obtain rfl := hsuits.cls_unique cls
      obtain ⟨th, hth, hmirrors⟩ := hs.mirrors.things ref o m ho known
      have hfound : (w.thing? (.obj ref)).bind (fun o => K.unit.methodOf? o.cls name) =
          some found := by
        have hcls : th.cls = c.name :=
          hmirrors.cls.trans (Direct.isLayout hu.sound.table.linked hsuits).name
        have hnamed : K.unit.table.classNamed? c.name = some c :=
          hu.sound.table.linked.classNamed?_name (Table.classOf?_mem cls)
        rw [World.thing?, hth, Option.bind_some, hcls, Typed.File.methodOf?, hnamed]
        exact method
      have hmeets := ih hle hstack hs hdepth hlimit
      rw [Course.run] at hmeets
      rw [Course.run, hfound]
      exact hmeets

/-! Functions -/

/-- A function is found under its reference. -/
theorem body?_eq {u : Typed.File} (hu : u.Ok) {g : Typed.Func} (hg : g ∈ u.bodies) :
    u.body? g.ref = some g := by
  obtain ⟨g', hg'⟩ := Option.isSome_iff_exists.1
    (List.find?_isSome.2 ⟨g, hg, by simp⟩ : (u.bodies.find? (·.ref = g.ref)).isSome = true)
  have href : g'.ref = g.ref := by simpa using List.find?_some hg'
  have hsame := List.inj_on_of_nodup_map hu.refs (List.mem_of_find?_eq_some hg') hg href
  rw [Typed.File.body?, hg', hsame]

/-- Functions come to what is said by name, for any number of rounds. -/
theorem serves_call (hu : K.unit.Ok) (hsized : K.unit.Sized) (hK : K.Stable)
    (hbudget : ∀ b, K.budget b → b = none) (n depth limit : Nat) :
    Serves K n depth limit (Direct.call K.unit limit n depth) := by
  induction n generalizing depth with
  | zero =>
      intro σ w s g ps as b args outer _ _ _ _ _ _ _
      exact Meets.lasts (n := 0) trivial
  | succ n ih =>
      intro σ w s g ps as b args outer hs hdepth hlimit hbinds hground hbody hargs
      have hfind := body?_eq hu hbinds.mem
      have hname := (Graph.Func.ofTyped_head hu hbinds.mem hbody).1
      rw [State.enter, Direct.call, hfind]
      simp only [hbody, hdepth, hlimit, Nat.cast_le]
      split
      next =>
        rw [State.tooDeep, hname, hlimit]
        exact .ended hs (.failure .tooDeep)
      next =>
        refine Meets.next ?_
        have hlevel : ((s.started (Graph.Func.ofTyped (Layouts.build K.unit.table) g b) args
            outer).left s.stack none).level = s.level := by
          simp [State.level, State.left, State.started]
        have hmeets := follows_meets hu hK hbudget (ih (depth + 1))
          (follows_func hu hsized hbinds hground hbody hargs n outer) (Nat.le_refl n)
          (s := s.started (Graph.Func.ofTyped (Layouts.build K.unit.table) g b) args outer) rfl
          ⟨hs.machine, hs.mirrors, hs.out, hs.budget⟩
          (by simp [State.started, hdepth]) hlimit
        rw [hlevel] at hmeets
        exact hmeets

end ClassLang.Machine
