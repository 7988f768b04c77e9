import ClassLang.Proofs.Machine.Alike
import ClassLang.Proofs.Machine.Depth

/-!
Sessions with one machine. While it does what it is asked to, the number of calls under way
stays between nothing and its limit, and afterwards it is what it was before. So nothing is
left of what was asked earlier but the objects, the host functions and what they keep.
-/

namespace ClassLang.Machine

/-! Host functions that know no objects -/

theorem wrongCount_alike (K : Keeping) {ρ : Pairing} (name : String) {x x' y y' : Value}
    {xs ys : List Value} (h : Values.Alike ρ xs ys) :
    Reply.Alike K ρ (Host.wrongCount name (x :: x' :: xs).length)
      (Host.wrongCount name (y :: y' :: ys).length) := by
  simp only [List.length_cons, h.length_eq]
  exact .fail _

theorem println_alike (K : Keeping) (ρ : Pairing) : Host.println.Alike K ρ Host.println := by
  intro ρ' args args' _ hargs
  cases hargs with
  | nil => exact .fail _
  | @cons x _ _ _ hx hrest =>
      cases hrest with
      | nil =>
          cases hx with
          | obj _ => exact .fail _
          | plain _ =>
              cases x with
              | str s => exact .print (.value (.plain (by simp)))
              | _ => exact .fail _
      | cons _ hrest =>
          cases hx with
          | obj _ => exact wrongCount_alike K "println" hrest
          | plain _ => cases x <;> exact wrongCount_alike K "println" hrest

theorem printInt_alike (K : Keeping) (ρ : Pairing) : Host.printInt.Alike K ρ Host.printInt := by
  intro ρ' args args' _ hargs
  cases hargs with
  | nil => exact .fail _
  | @cons x _ _ _ hx hrest =>
      cases hrest with
      | nil =>
          cases hx with
          | obj _ => exact .fail _
          | plain _ =>
              cases x with
              | int n => exact .print (.value (.plain (by simp)))
              | _ => exact .fail _
      | cons _ hrest =>
          cases hx with
          | obj _ => exact wrongCount_alike K "print_int" hrest
          | plain _ => cases x <;> exact wrongCount_alike K "print_int" hrest

/-- The host functions that every machine starts with know no objects. -/
theorem standard_alike (K : Keeping) (ρ : Pairing) (name : String) :
    Option.Rel (Host.Alike K ρ) (Host.standard.lookup name) (Host.standard.lookup name) := by
  unfold Host.standard
  rw [List.lookup_cons, List.lookup_cons]
  split
  · exact .some (println_alike K ρ)
  · split
    · exact .some (printInt_alike K ρ)
    · exact .none

/-- A host function that only calls a function knows no objects. -/
theorem calling_alike (K : Keeping) (ρ : Pairing) (fn : Graph.Func) (budget : Budget) :
    (Host.calling fn budget).Alike K ρ (Host.calling fn budget) := by
  intro ρ' args args' _ hargs
  refine .call hargs fun ρ'' x x' _ hx => ?_
  cases hx with
  | ok h => exact .value h
  | error e => exact .pass

/-! Sessions -/

/-- The call that a machine is asked to make: the function, its arguments and the budget. -/
def Order.call? (p : Graph.Program) : Order → Option (Graph.Func × List Value × Budget)
  | .run budget => p.main?.map (·, [], budget)
  | .call fn args budget => some (fn, args, budget)
  | .bind .. => none

/-- The states in which frames are taken off the stack because of a failure. -/
inductive Falls : State → Failure → State → Prop
  | start {s : State} {e : Failure} : Falls s e s
  | past {s t : State} {f : Frame} {rest : List Frame} {e : Failure} (stack : s.stack = f :: rest)
      (outer : f.outer = none) (falls : Falls (s.left rest none) e t) : Falls s e t
  | again {s t u : State} {f : Frame} {rest : List Frame} {w : Waiting} {e e' : Failure}
      (stack : s.stack = f :: rest) (outer : f.outer = some w)
      (answer : (s.left rest w.budget).answer (some e) (w.next (.error e)) = .done u (.error e'))
      (falls : Falls u e' t) : Falls s e t

namespace Session

/-- The states between the steps of what a session is asked to do. -/
inductive Passes (c : Session) (order : Order) : State → Prop
  | start {fn : Graph.Func} {args : List Value} {budget : Budget} {s : State}
      (asks : order.call? c.machine.program = some (fn, args, budget))
      (push : State.push { machine := c.machine, budget, depth := c.depth } fn args none = .next s) :
      Passes c order s
  | next {s t : State} (before : Passes c order s) (advance : s.advance = .next t) :
      Passes c order t

/-- The states in which a session is while it does what it is asked to: between two steps, or
after a failure. -/
inductive During (c : Session) (order : Order) : State → Prop
  | between {s : State} (passes : c.Passes order s) : During c order s
  | failed {s t u : State} {e : Failure} (passes : c.Passes order s)
      (step : s.step = .done t (.error e)) (falls : Falls t e u) : During c order u

/-- What a session has come to when it has done all that it was asked to. -/
inductive Leads (c : Session) : List Order → Session → Prop
  | start : Leads c [] c
  | next {d d' : Session} {orders : List Order} {order : Order} {fuel : Nat} {out : String}
      {r : Except Failure Value} (before : Leads c orders d)
      (obey : d.obey fuel order = some (d', out, r)) : Leads c (orders ++ [order]) d'

/-- Orders for the same call, with arguments that are alike. -/
inductive SameCall (ρ : Pairing) : Order → Order → Prop
  | run (budget : Budget) : SameCall ρ (.run budget) (.run budget)
  | call {xs ys : List Value} (fn : Graph.Func) (budget : Budget) (args : Values.Alike ρ xs ys) :
      SameCall ρ (.call fn xs budget) (.call fn ys budget)

/-- What two sessions have come to after the same call: as many calls under way, the same output,
and machines and results that are alike. -/
structure AnsweredAlike (K : Keeping) (ρ : Pairing)
    (x y : Session × String × Except Failure Value) : Prop where
  depth : x.1.depth = y.1.depth
  out : x.2.1 = y.2.1
  more : ∃ ρ', ρ ≤ ρ' ∧ Machine.Alike K ρ' x.1.machine y.1.machine ∧
    Result.Alike (Value.Alike ρ') x.2.2 y.2.2

variable {c d : Session} {order : Order} {s : State}

theorem counted_push {fn : Graph.Func} {args : List Value} {budget : Budget}
    (hhigh : c.depth ≤ c.machine.maxDepth)
    (hpush : State.push { machine := c.machine, budget, depth := c.depth } fn args none = .next s) :
    s.Counted c.depth ∧ s.machine = c.machine := by
  rw [State.push_eq] at hpush
  split at hpush
  next => cases hpush
  next hroom =>
    cases hpush
    have hstart : State.Counted c.depth { machine := c.machine, budget, depth := c.depth } :=
      ⟨by simp [State.base], hhigh⟩
    exact ⟨hstart.started (Int.not_le.1 hroom) _ _ _, rfl⟩

theorem Passes.counted (h : c.Passes order s) (hhigh : c.depth ≤ c.machine.maxDepth) :
    s.Counted c.depth ∧ s.machine.maxDepth = c.machine.maxDepth := by
  induction h with
  | start _ push =>
      obtain ⟨hcounted, hmachine⟩ := counted_push hhigh push
      exact ⟨hcounted, by rw [hmachine]⟩
  | next _ advance ih =>
      exact ⟨ih.1.advance advance, (State.before_of_advance advance).maxDepth.trans ih.2⟩

theorem counted_falls {n : Int} {limit : Nat} {s t : State} {e : Failure} (hfalls : Falls s e t)
    (h : s.Counted n ∧ s.machine.maxDepth = limit) :
    t.Counted n ∧ t.machine.maxDepth = limit := by
  induction hfalls with
  | start => exact h
  | past stack _ _ ih => exact ih ⟨h.1.left stack none, h.2⟩
  | again stack _ answer _ ih =>
      have halters := (State.quits_of_answer answer).alters
      exact ih ⟨(h.1.left stack _).alters halters, halters.maxDepth.trans h.2⟩

theorem During.counted (h : c.During order s) (hhigh : c.depth ≤ c.machine.maxDepth) :
    s.Counted c.depth ∧ s.machine.maxDepth = c.machine.maxDepth := by
  cases h with
  | between passes => exact passes.counted hhigh
  | failed passes step falls =>
      obtain ⟨hcounted, hlimit⟩ := passes.counted hhigh
      have hstop := Stop.of_step step
      exact counted_falls falls ⟨hcounted.stop hstop, hstop.before.maxDepth.trans hlimit⟩

/-- A call leaves the program, the limit and the number of calls under way as they were. -/
theorem callWithin_counted {fn : Graph.Func} {args : List Value} {budget : Budget} {fuel : Nat}
    {depth : Int} {r : Run} (hhigh : c.depth ≤ c.machine.maxDepth)
    (h : c.machine.callWithin c.depth fuel budget fn args = some (depth, r)) :
    depth = c.depth ∧ r.machine.program = c.machine.program ∧
      r.machine.maxDepth = c.machine.maxDepth := by
  unfold Machine.callWithin at h
  dsimp only at h
  cases hpush : State.push { machine := c.machine, budget, depth := c.depth } fn args none with
  | done s x =>
      rw [hpush] at h
      rw [State.push_eq] at hpush
      split at hpush
      next =>
        cases hpush
        cases h
        exact ⟨rfl, rfl, rfl⟩
      next => cases hpush
  | next s =>
      rw [hpush] at h
      obtain ⟨⟨last, x⟩, hrun, hlast⟩ := Option.map_eq_some_iff.1 h
      cases hlast
      obtain ⟨hcounted, hmachine⟩ := counted_push hhigh hpush
      have hbefore := State.before_of_run hrun
      exact ⟨hcounted.run hrun, by rw [hbefore.program, hmachine], by rw [hbefore.maxDepth, hmachine]⟩

/-- What a session is asked to do leaves the program, the limit and the number of calls under
way as they were. -/
theorem obey_counted {fuel : Nat} {out : String} {r : Except Failure Value}
    (hhigh : c.depth ≤ c.machine.maxDepth) (h : c.obey fuel order = some (d, out, r)) :
    d.depth = c.depth ∧ d.machine.program = c.machine.program ∧
      d.machine.maxDepth = c.machine.maxDepth := by
  have hcall : ∀ {budget fn args}, c.call fuel budget fn args = some (d, out, r) →
      d.depth = c.depth ∧ d.machine.program = c.machine.program ∧
        d.machine.maxDepth = c.machine.maxDepth := by
    intro budget fn args h
    obtain ⟨⟨depth, x⟩, hwithin, hd⟩ := Option.map_eq_some_iff.1 h
    cases hd
    exact callWithin_counted hhigh hwithin
  cases order with
  | run budget =>
      unfold obey at h
      cases hmain : c.machine.program.main? with
      | none =>
          rw [hmain] at h
          cases h
          exact ⟨rfl, rfl, rfl⟩
      | some f =>
          rw [hmain] at h
          exact hcall h
  | call fn args budget => exact hcall h
  | bind name cells host =>
      cases h
      exact ⟨rfl, rfl, rfl⟩

theorem Leads.counted {orders : List Order} (h : c.Leads orders d)
    (hhigh : c.depth ≤ c.machine.maxDepth) :
    d.depth = c.depth ∧ d.machine.program = c.machine.program ∧
      d.machine.maxDepth = c.machine.maxDepth := by
  induction h with
  | start => exact ⟨rfl, rfl, rfl⟩
  | @next e e' _ _ _ _ _ _ obey ih =>
      obtain ⟨hdepth, hprogram, hlimit⟩ := ih
      obtain ⟨hdepth', hprogram', hlimit'⟩ := obey_counted (by rwa [hdepth, hlimit]) obey
      exact ⟨hdepth'.trans hdepth, hprogram'.trans hprogram, hlimit'.trans hlimit⟩

/-- Sessions with machines that are alike answer a call alike. -/
theorem obey_alike {K : Keeping} {ρ : Pairing} {order' : Order}
    (hmachine : Machine.Alike K ρ c.machine d.machine) (hdepth : c.depth = d.depth)
    (horder : SameCall ρ order order') (fuel : Nat) :
    Option.Rel (AnsweredAlike K ρ) (c.obey fuel order) (d.obey fuel order') := by
  have hcall : ∀ {xs ys : List Value} (fn : Graph.Func) (budget : Budget), Values.Alike ρ xs ys →
      Option.Rel (AnsweredAlike K ρ) (c.call fuel budget fn xs) (d.call fuel budget fn ys) := by
    intro xs ys fn budget hargs
    have hwithin := hmachine.callWithin hargs c.depth fuel budget fn
    unfold Session.call
    rw [← hdepth]
    generalize c.machine.callWithin c.depth fuel budget fn xs = x at hwithin
    generalize d.machine.callWithin c.depth fuel budget fn ys = y at hwithin
    cases hwithin with
    | none => exact .none
    | some h =>
        obtain ⟨hdepth, ρ', hle, hrun⟩ := h
        exact .some ⟨hdepth, hrun.out, ρ', hle, hrun.machine, hrun.result⟩
  cases horder with
  | call fn budget args => exact hcall fn budget args
  | run budget =>
      unfold obey
      dsimp only
      rw [← hmachine.program]
      cases c.machine.program.main? with
      | none => exact .some ⟨hdepth, rfl, ρ, le_rfl, hmachine, .error _⟩
      | some f => exact hcall f budget .nil

end Session

/-- A session leaves no trace but in the objects, in the host functions and in what these keep.
Whatever a session has been asked to do, and however the calls have ended, as many calls are under
way as at its start; while it does what it is asked to next, there are never fewer than none and
never more than the limit allows. So a call ends as it does in any other session with the same
program, limit and number of calls under way in which the arguments reach objects that are alike and
the host functions are alike in what they do and keep, whatever was asked there before. -/
theorem sessions_leave_no_trace {c c' : Session} {orders : List Order} (hlow : 0 ≤ c.depth)
    (hhigh : c.depth ≤ c.machine.maxDepth) (h : c.Leads orders c') :
    c'.depth = c.depth ∧ c'.machine.maxDepth = c.machine.maxDepth ∧
      (∀ order s, c'.During order s → 0 ≤ s.depth ∧ s.depth ≤ c.machine.maxDepth) ∧
      ∀ {d d' : Session} {orders' : List Order}, d.Leads orders' d' →
        d.depth = c.depth → d.machine.program = c.machine.program →
        d.machine.maxDepth = c.machine.maxDepth → ∀ {K : Keeping} {ρ : Pairing},
        Heap.Alike ρ c'.machine.heap d'.machine.heap →
        (∀ name, Option.Rel (Host.Alike K ρ) (c'.machine.hosts.lookup name)
          (d'.machine.hosts.lookup name)) →
        K.holds ρ c'.machine.memory d'.machine.memory →
        ∀ {order order' : Order}, Session.SameCall ρ order order' → ∀ fuel,
          Option.Rel (Session.AnsweredAlike K ρ) (c'.obey fuel order) (d'.obey fuel order') := by
  obtain ⟨hdepth, hprogram, hlimit⟩ := h.counted hhigh
  refine ⟨hdepth, hlimit, fun order s hduring => ?_, ?_⟩
  · obtain ⟨hcounted, hsame⟩ := hduring.counted (by rwa [hdepth, hlimit])
    have hle := hcounted.le_depth
    have hroom := hcounted.depth
    rw [hdepth] at hle
    rw [hsame, hlimit] at hroom
    exact ⟨Int.le_trans hlow hle, hroom⟩
  · intro d d' orders' h' hd hp hl K ρ hheap hhosts hmemory order order' horder fuel
    obtain ⟨hdepth', hprogram', hlimit'⟩ := h'.counted (by rwa [hd, hl])
    have hmachine : Machine.Alike K ρ c'.machine d'.machine :=
      { program := by rw [hprogram, hprogram', hp]
        maxDepth := by rw [hlimit, hlimit', hl]
        heap := hheap
        hosts := hhosts
        memory := hmemory }
    exact Session.obey_alike hmachine (by rw [hdepth, hdepth', hd]) horder fuel

/-- A function that makes an object and calls the host function `again`. -/
def asking : Graph.Func :=
  { name := "f"
    order := [0]
    blocks := #[{ id := 0, kind := .ret, values := [0, 1] }]
    instrs := #[
      { id := 0, op := .alloc, aux := some (.layout default), block := 0 },
      { id := 1, op := .callDirect, aux := some (.callee (.host "again")), block := 0 }] }

/-- A session in which no call may make more than one further call. -/
def narrow : Session := ⟨{ program := ⟨default, [], [asking]⟩, maxDepth := 2 }, 0⟩

/-- The order to give the name `again` to a host function that calls the function once more. -/
def bindAgain : Order := .bind "again" [] fun _ => Host.calling asking none

/-- After a call that was too deep, the session holds two objects, and still behaves as one
without that call. -/
theorem narrow_session_unmarked : ∃ c d : Session,
    narrow.Leads [bindAgain, .call asking [] none] c ∧ narrow.Leads [bindAgain] d ∧
    c.machine.heap.size = 2 ∧ d.machine.heap.size = 0 ∧ c.depth = 0 ∧ ∀ fuel,
      Option.Rel (Session.AnsweredAlike ⟨fun _ _ _ => True, fun _ _ => trivial⟩ .empty)
        (c.obey fuel (.call asking [] none)) (d.obey fuel (.call asking [] none)) := by
  have hbound : narrow.Leads [bindAgain] _ := .next .start (show narrow.obey 0 bindAgain = some _ from rfl)
  have hcalled : narrow.Leads [bindAgain, .call asking [] none] _ :=
    .next hbound (show Session.obey _ 20 (.call asking [] none) = some _ from rfl)
  obtain ⟨hdepth, -, -, halike⟩ := sessions_leave_no_trace (by decide) (by decide) hcalled
  refine ⟨_, _, hcalled, hbound, rfl, rfl, hdepth, ?_⟩
  have hhosts : ∀ name, Option.Rel (Host.Alike ⟨fun _ _ _ => True, fun _ _ => trivial⟩ .empty)
      ((narrow.machine.bind "again" (Host.calling asking none)).hosts.lookup name)
      ((narrow.machine.bind "again" (Host.calling asking none)).hosts.lookup name) := by
    intro name
    rw [lookup_bind]
    split
    · exact .some (calling_alike _ _ asking none)
    · exact standard_alike _ _ name
  exact halike hbound rfl rfl rfl (fun _ _ h => False.elim h) hhosts trivial (.call asking none .nil)

end ClassLang.Machine
