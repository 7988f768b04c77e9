import Mathlib
import ClassLang.Proofs.Machine.Step

/-!
Runs under other limits. As long as no host function makes a call, a run does under one budget
and one limit of depth what it does under others, until it meets the first of them.
-/

namespace ClassLang.Machine

open ClassLang.Graph (Instr Op Callee)

/-! Host functions that make no calls -/

/-- The replies in which no function is called, and no host function named that calls one. -/
def Reply.Quiet : Reply → Prop
  | .value _ | .fail _ | .pass | .crash => True
  | .print _ next | .change _ _ next | .keep _ next => next.Quiet
  | .look _ next => ∀ o, (next o).Quiet
  | .create _ next => ∀ ref, (next ref).Quiet
  | .kept next => ∀ memory, (next memory).Quiet
  | .bind _ respond next => (∀ args, (respond args).Quiet) ∧ next.Quiet
  | .call .. => False

/-- A host function that makes no calls. -/
def Host.Quiet (h : Host) : Prop := ∀ args, (h.respond args).Quiet

/-- A machine with host functions that make no calls. -/
def Quiet (m : ClassLang.Machine) : Prop := ∀ h ∈ m.hosts, h.2.Quiet

/-- A state of a run in which host functions make no calls. -/
structure State.Quiet (s : State) : Prop where
  hosts : s.machine.Quiet
  frames : ∀ f ∈ s.stack, f.outer = none

/-- The host functions that every machine starts with make no calls. -/
theorem standard_quiet {m : ClassLang.Machine} (h : m.hosts = Host.standard) : m.Quiet := by
  have hprintln : Host.println.Quiet := by
    intro args
    unfold Host.println
    dsimp only
    split <;> trivial
  have hprintInt : Host.printInt.Quiet := by
    intro args
    unfold Host.printInt
    dsimp only
    split <;> trivial
  intro host hhost
  rw [h, Host.standard] at hhost
  rcases List.mem_cons.1 hhost with rfl | hhost
  · exact hprintln
  · obtain rfl := List.mem_singleton.1 hhost
    exact hprintInt

theorem Quiet.lookup {m : ClassLang.Machine} {name : String} {h : Host} (hm : m.Quiet)
    (hlookup : m.hosts.lookup name = some h) : h.Quiet := by
  obtain ⟨front, back, hsplit, -⟩ := List.lookup_eq_some_iff.1 hlookup
  exact hm (name, h) (by simp [hsplit])

theorem Quiet.bind {m : ClassLang.Machine} {h : Host} (hm : m.Quiet) (hh : h.Quiet)
    (name : String) : (m.bind name h).Quiet := by
  intro host hhost
  rcases List.mem_cons.1 hhost with rfl | hhost
  · exact hh
  · exact hm host (List.mem_filter.1 hhost).1

namespace State

variable {s t u : State} {r : Reply} {last : Option Failure} {x : Value} {b : Budget} {d : Nat}

/-! The next question and the next call -/

/-- The run is about to ask whether it may enter a block. -/
def asks (s : State) : Bool :=
  match s.stack with
  | [] => false
  | f :: _ => f.todo.isNone

/-- The run is about to start the function `fn`. -/
def Calls (s : State) (fn : Graph.Func) : Prop :=
  ∃ f rest v x todo ref args, Does s f rest v x todo (.call (.func ref) args) ∧
    s.machine.program.func? ref = some fn

theorem asks_of_todo {f : Frame} {rest : List Frame} {todo : Option (List Nat)}
    (hstack : s.stack = f :: rest) (htodo : f.todo = todo) : s.asks = todo.isNone := by
  unfold asks
  rw [hstack]
  exact congrArg Option.isNone htodo

/-! Other limits -/

/-- The same state of a run with another budget and another limit of depth. -/
def limited (s : State) (b : Budget) (d : Nat) : State :=
  { s with budget := b, machine := { s.machine with maxDepth := d } }

end State

/-- The state after a step. -/
def Step.state : Step → State
  | .next s | .done s _ => s

/-- The same step of a run with another budget and another limit of depth. -/
def Step.limited (b : Budget) (d : Nat) : Step → Step
  | .next s => .next (s.limited b d)
  | .done s r => .done (s.limited b d) r

namespace State

variable {s t u : State} {r : Reply} {last : Option Failure} {x : Value} {b : Budget} {d : Nat}

theorem deliver_limited (s : State) (x : Value) (b : Budget) (d : Nat) :
    (s.limited b d).deliver x = (s.deliver x).limited b d := by
  unfold deliver limited
  dsimp only
  split
  · rfl
  · split <;> rfl

theorem answer_limited (hr : r.Quiet) (s : State) (last : Option Failure) (b : Budget) (d : Nat) :
    (s.limited b d).answer last r = (s.answer last r).limited b d := by
  induction r generalizing s with
  | value x => exact deliver_limited s x b d
  | fail _ | pass | crash => rfl
  | print text next ih => exact ih hr { s with out := s.out ++ text }
  | look ref next ih =>
      unfold answer
      rw [show (s.limited b d).machine.heap = s.machine.heap from rfl]
      split
      · exact ih _ (hr _) s
      · rfl
  | change ref o next ih => exact ih hr (s.modifyHeap (·.setIfInBounds ref o))
  | create o next ih => exact ih _ (hr _) (s.modifyHeap (·.push o))
  | kept next ih => exact ih _ (hr _) s
  | keep memory next ih => exact ih hr { s with machine := { s.machine with memory } }
  | bind name respond next _ ih =>
      exact ih hr.2 { s with machine := s.machine.bind name ⟨respond⟩ }
  | call => exact hr.elim

theorem callHost_limited (h : s.machine.Quiet) (name : String) (args : List Value) (b : Budget)
    (d : Nat) : (s.limited b d).callHost name args = (s.callHost name args).limited b d := by
  unfold callHost
  rw [show (s.limited b d).machine.hosts = s.machine.hosts from rfl]
  cases hlookup : s.machine.hosts.lookup name with
  | none => rfl
  | some host => exact answer_limited (h.lookup hlookup args) s none b d

/-- There is room for one more call under both limits, or they do not differ. -/
def Fits (s : State) (d : Nat) : Prop :=
  d = s.machine.maxDepth ∨ s.depth < s.machine.maxDepth ∧ s.depth < d

theorem push_limited (h : s.Fits d) (fn : Graph.Func) (args : List Value) (b : Budget) :
    (s.limited b d).push fn args none = (s.push fn args none).limited b d := by
  rw [push_eq, push_eq]
  rcases h with rfl | ⟨hlt, hlt'⟩
  · rw [show (s.limited b s.machine.maxDepth).machine.maxDepth = s.machine.maxDepth from rfl,
      show (s.limited b s.machine.maxDepth).depth = s.depth from rfl]
    split <;> rfl
  · have hroom' : ¬ ((s.limited b d).machine.maxDepth : Int) ≤ (s.limited b d).depth :=
      Int.not_le.2 hlt'
    rw [if_neg (Int.not_le.2 hlt), if_neg hroom']
    rfl

/-- Where a call is not too deep under either limit, it is made alike under both. -/
theorem call_limited (h : s.machine.Quiet) (target : Callee) (args : List Value) (b : Budget)
    (hroom : ∀ ref fn, target = .func ref → s.machine.program.func? ref = some fn → s.Fits d) :
    (s.limited b d).call target args = (s.call target args).limited b d := by
  cases target with
  | host name | strayHost name => exact callHost_limited h name args b d
  | strayFunc name => rfl
  | func ref =>
      unfold call
      rw [show (s.limited b d).machine.program = s.machine.program from rfl]
      dsimp only
      cases hfn : s.machine.program.func? ref with
      | none => rfl
      | some fn =>
          exact push_limited (hroom ref fn rfl hfn) fn args b

theorem perform_limited (h : s.machine.Quiet) (f : Frame) (rest : List Frame) (v : Nat)
    (a : Action) (b : Budget)
    (hroom : ∀ ref args fn, a = .call (.func ref) args →
      s.machine.program.func? ref = some fn → s.Fits d) :
    (s.limited b d).perform f rest v a = (s.perform f rest v a).limited b d := by
  cases a with
  | give x => exact deliver_limited s x b d
  | newSlot => exact deliver_limited (s.withTop (f.stored v .nil) rest) .nil b d
  | store a x => exact deliver_limited (s.withTop (f.stored a x) rest) .nil b d
  | allocate o => exact deliver_limited (s.modifyHeap (·.push o)) _ b d
  | setField ref i x =>
      exact deliver_limited (s.modifyHeap (·.modify ref fun o =>
        { o with fields := o.fields.setIfInBounds i x })) .nil b d
  | setDispatch ref l =>
      exact deliver_limited (s.modifyHeap (·.modify ref fun o =>
        { o with dispatch := some l })) .nil b d
  | call target args =>
      refine call_limited h target args b fun ref fn htarget hfn => ?_
      subst htarget
      exact hroom ref args fn rfl hfn

theorem enterBlock_limited {f : Frame} (rest : List Frame) (h : s.budget = some 0 ↔ b = some 0) :
    (s.limited b d).enterBlock f rest = (s.enterBlock f rest).limited (b.map (· - 1)) d := by
  unfold enterBlock
  by_cases hs : s.budget = some 0
  · obtain rfl := h.1 hs
    rw [if_pos hs, if_pos (show (s.limited (some 0) d).budget = some 0 from rfl)]
    rfl
  · rw [if_neg hs, if_neg (show (s.limited b d).budget ≠ some 0 from mt h.2 hs)]
    dsimp only
    split
    · rfl
    · split <;> rfl

theorem leaveBlock_limited {f : Frame} (hf : f.outer = none) (rest : List Frame) (b : Budget)
    (d : Nat) : (s.limited b d).leaveBlock f rest = (s.leaveBlock f rest).limited b d := by
  have hjump : ∀ c, (s.limited b d).jump f rest c = (s.jump f rest c).limited b d := by
    intro c
    cases c <;> rfl
  unfold leaveBlock returnTo
  rw [hf]
  split
  · rfl
  · split
    · exact hjump _
    · split
      · rfl
      · exact hjump _
    · exact deliver_limited (s.left rest none) _ b d
    · rfl

/-- A step is the same under both limits if it meets neither of them, or both. -/
theorem step_limited (h : s.Quiet) (hbudget : s.asks = true → (s.budget = some 0 ↔ b = some 0))
    (hroom : ∀ fn, s.Calls fn → s.Fits d) :
    (s.limited b d).step = s.step.limited (b.map (· - s.asks.toNat)) d := by
  have hsame : b.map (· - false.toNat) = b := by simp
  unfold step
  rw [show (s.limited b d).stack = s.stack from rfl]
  cases hstack : s.stack with
  | nil =>
      rw [show s.asks = false by simp [asks, hstack], hsame]
      rfl
  | cons f rest =>
      dsimp only
      have hasks := asks_of_todo hstack rfl
      cases htodo : f.todo with
      | none =>
          rw [htodo] at hasks
          have hboth := hbudget hasks
          rw [hasks]
          exact enterBlock_limited rest hboth
      | some todo =>
          rw [htodo] at hasks
          rw [show s.asks = false from hasks, hsame]
          cases todo with
          | nil => exact leaveBlock_limited (h.frames f (by simp [hstack])) rest b d
          | cons v todo =>
              dsimp only
              cases hinstr : f.fn.instr? v with
              | none => rfl
              | some y =>
                  rw [show (s.limited b d).machine.heap = s.machine.heap from rfl]
                  dsimp only
                  cases haction : action f s.machine.heap y with
                  | error e => rfl
                  | ok a =>
                      refine perform_limited h.hosts f rest v a b fun ref args fn ha hfn => ?_
                      subst ha
                      exact hroom fn ⟨f, rest, v, y, todo, ref, args,
                        ⟨hstack, ⟨htodo, hinstr⟩, haction⟩, hfn⟩

/-! What stays quiet -/

theorem answer_depth (hr : r.Quiet) (h : s.answer last r = .next t) : t.depth = s.depth := by
  induction r generalizing s with
  | value x =>
      unfold answer deliver at h
      split at h
      · cases h
      · split at h
        · cases h
          rfl
        · cases h
  | fail _ | pass | crash => cases h
  | print text next ih => exact ih (s := { s with out := s.out ++ text }) hr h
  | look ref next ih =>
      unfold answer at h
      split at h
      · exact ih _ (hr _) h
      · cases h
  | change ref o next ih => exact ih (s := s.modifyHeap (·.setIfInBounds ref o)) hr h
  | create o next ih => exact ih (s := s.modifyHeap (·.push o)) _ (hr _) h
  | kept next ih => exact ih _ (hr _) h
  | keep memory next ih => exact ih (s := { s with machine := { s.machine with memory } }) hr h
  | bind name respond next _ ih =>
      exact ih (s := { s with machine := s.machine.bind name ⟨respond⟩ }) hr.2 h
  | call => exact hr.elim

/-- A host function that makes no calls returns a value, if the run goes on. -/
theorem answer_value (hr : r.Quiet) (h : s.answer last r = .next t) :
    ∃ u f rest v todo x, s.Alters u ∧ s.stack = f :: rest ∧ f.todo = some (v :: todo) ∧
      t = u.withTop (f.given v x todo) rest := by
  have hdepth := answer_depth hr h
  cases serves_of_answer h with
  | value alters stack waits => exact ⟨_, _, _, _, _, _, alters, stack, waits, rfl⟩
  | call alters room =>
      have hstarted : (_ : Int) + 1 = s.depth := hdepth
      rw [alters.depth] at hstarted
      omega

theorem deliver_machine (s : State) (x : Value) : (s.deliver x).state.machine = s.machine := by
  unfold deliver fail
  split
  · rfl
  · split <;> rfl

theorem answer_machine (last : Option Failure) (hr : r.Quiet) (h : s.machine.Quiet) :
    (s.answer last r).state.machine.Quiet := by
  induction r generalizing s with
  | value x => exact (deliver_machine s x).symm ▸ h
  | fail _ | pass | crash => exact h
  | print text next ih => exact ih (s := { s with out := s.out ++ text }) hr h
  | look ref next ih =>
      unfold answer
      split
      · exact ih _ (hr _) h
      · exact h
  | change ref o next ih => exact ih (s := s.modifyHeap (·.setIfInBounds ref o)) hr h
  | create o next ih => exact ih (s := s.modifyHeap (·.push o)) _ (hr _) h
  | kept next ih => exact ih _ (hr _) h
  | keep memory next ih => exact ih (s := { s with machine := { s.machine with memory } }) hr h
  | bind name respond next _ ih =>
      exact ih (s := { s with machine := s.machine.bind name ⟨respond⟩ }) hr.2 (h.bind hr.1 name)
  | call => exact hr.elim

/-! Progress -/

/-- How much a frame has to do in its block when it is on top of the stack. -/
def ahead (f : Frame) : Nat :=
  match f.todo with
  | none => 1
  | some todo => 3 * todo.length + 2

/-- How much a frame has to do in its block when it waits for a call. -/
def behind (f : Frame) : Nat :=
  match f.todo with
  | none => 1
  | some todo => 3 * todo.length

/-- How much there is to do in the blocks that have been entered. -/
def weight (s : State) : Nat :=
  match s.stack with
  | [] => 0
  | f :: rest => ahead f + (rest.map behind).sum

theorem weight_withTop (s : State) (f : Frame) (rest : List Frame) :
    (s.withTop f rest).weight = ahead f + (rest.map behind).sum := rfl

theorem ahead_given (f : Frame) (v : Nat) (x : Value) (todo : List Nat) :
    ahead (f.given v x todo) = 3 * todo.length + 2 := rfl

theorem ahead_of_todo {f : Frame} {todo : List Nat} (h : f.todo = some todo) :
    ahead f = 3 * todo.length + 2 := by
  unfold ahead
  rw [h]

theorem behind_of_todo {f : Frame} {todo : List Nat} (h : f.todo = some todo) :
    behind f = 3 * todo.length := by
  unfold behind
  rw [h]

/-- What one step does to a run in which host functions make no calls: it enters a block, or there
is less to do in the blocks that have been entered. -/
structure Progress (s t : State) : Prop where
  quiet : t.Quiet
  spent : t.budget = s.budget.map (· - s.asks.toNat)
  asked : s.asks = true → s.budget ≠ some 0
  less : s.asks = false → t.weight < s.weight

theorem Quiet.withTop {f : Frame} {rest : List Frame} {g : Frame} (h : s.Quiet)
    (hstack : s.stack = f :: rest) (hg : g.outer = f.outer) : (s.withTop g rest).Quiet where
  hosts := h.hosts
  frames := by
    intro f' hf'
    rcases List.mem_cons.1 hf' with rfl | hf'
    · rw [hg]
      exact h.frames f (by simp [hstack])
    · exact h.frames f' (by simp [hstack, hf'])

theorem Quiet.left {f : Frame} {rest : List Frame} (h : s.Quiet) (hstack : s.stack = f :: rest) :
    (s.left rest none).Quiet :=
  ⟨h.hosts, fun g hg => h.frames g (by simp [hstack, show g ∈ rest from hg])⟩

theorem Quiet.started (h : s.Quiet) (fn : Graph.Func) (args : List Value) :
    (s.started fn args none).Quiet where
  hosts := h.hosts
  frames := by
    intro g hg
    rcases List.mem_cons.1 hg with rfl | hg
    · rfl
    · exact h.frames g hg

/-- An instruction has been given a value. -/
theorem Progress.given {f g : Frame} {rest : List Frame} {v : Nat} {todo : List Nat}
    (h : s.Quiet) (hu : u.machine.Quiet) (hbudget : u.budget = s.budget)
    (hstack : s.stack = f :: rest) (htodo : f.todo = some (v :: todo)) (hg : g.outer = f.outer)
    (x : Value) : Progress s (u.withTop (g.given v x todo) rest) where
  quiet :=
    ⟨hu, (h.withTop hstack (g := g.given v x todo) hg).frames⟩
  spent := by
    rw [asks_of_todo hstack htodo]
    simpa [State.withTop] using hbudget
  asked hasks := by
    rw [asks_of_todo hstack htodo] at hasks
    cases hasks
  less _ := by
    rw [weight_withTop, ahead_given, weight, hstack]
    dsimp only
    rw [ahead_of_todo htodo, List.length_cons]
    omega

theorem Quiet.progress (h : s.Quiet) (hmove : Move s t) : Progress s t := by
  cases hmove with
  | enter stack todo budget block edge =>
      refine ⟨?_, ?_, fun _ => budget, fun hasks => ?_⟩
      · exact Quiet.withTop (s := s.charged) ⟨h.hosts, h.frames⟩ stack rfl
      · rw [asks_of_todo stack todo]
        rfl
      · rw [asks_of_todo stack todo] at hasks
        cases hasks
  | jump stack todo goes =>
      refine ⟨h.withTop stack rfl, ?_, fun hasks => ?_, fun _ => ?_⟩
      · rw [asks_of_todo stack todo]
        simp [State.withTop]
      · rw [asks_of_todo stack todo] at hasks
        cases hasks
      · rw [weight_withTop, weight, stack]
        dsimp only
        rw [ahead_of_todo todo]
        simp [ahead, Frame.jumped]
  | @back f g rest x v todo stack done _ _ waits =>
      have hleft := h.left stack
      refine ⟨hleft.withTop rfl rfl, ?_, fun hasks => ?_, fun _ => ?_⟩
      · rw [asks_of_todo stack done]
        simp [State.withTop, State.left]
      · rw [asks_of_todo stack done] at hasks
        cases hasks
      · rw [weight_withTop, ahead_given, weight, stack]
        dsimp only
        rw [ahead_of_todo done, List.map_cons, List.sum_cons, behind_of_todo waits, List.length_cons]
        omega
  | @resume f rest x w _ stack _ _ outer _ =>
      have hnone := h.frames f (by simp [stack])
      rw [outer] at hnone
      cases hnone
  | give does => exact .given h h.hosts rfl does.stack does.at_.todo rfl _
  | @newSlot f rest v x todo does =>
      exact .given (g := f.stored v .nil) h h.hosts rfl does.stack does.at_.todo rfl _
  | @store f rest v x todo a y does =>
      exact .given (g := f.stored a y) h h.hosts rfl does.stack does.at_.todo rfl _
  | allocate does | setField does | setDispatch does =>
      exact .given (u := s.modifyHeap _) h h.hosts rfl does.stack does.at_.todo rfl _
  | @call f rest v x todo ref args fn does found room =>
      refine ⟨h.started _ _, ?_, fun hasks => ?_, fun _ => ?_⟩
      · rw [asks_of_todo does.stack does.at_.todo]
        simp [State.started]
      · rw [asks_of_todo does.stack does.at_.todo] at hasks
        cases hasks
      · have hweight : (s.started fn args none).weight = 1 + (s.stack.map behind).sum := rfl
        rw [hweight, weight, does.stack]
        dsimp only
        rw [ahead_of_todo does.at_.todo, List.map_cons, List.sum_cons, behind_of_todo does.at_.todo]
        omega
  | @host _ _ _ _ _ _ args _ _ _ _ _ found answer =>
      have hreply := h.hosts.lookup found args
      have hmachine := answer_machine none hreply h.hosts
      rw [answer] at hmachine
      obtain ⟨u, f, rest, v, todo, x, alters, stack, waits, rfl⟩ := answer_value hreply answer
      exact .given h hmachine alters.budget stack waits rfl x

theorem Quiet.stop {x : Except Failure Value} (h : s.Quiet) (hstop : Stop s t x) : t.Quiet := by
  refine ⟨?_, fun f hf => h.frames f (hstop.suffix.subset hf)⟩
  cases hstop with
  | @host _ _ _ _ _ _ args _ _ _ _ _ _ found answer =>
      have hmachine := answer_machine none (h.hosts.lookup found args) h.hosts
      rwa [answer] at hmachine
  | @resume f rest _ w _ _ stack _ _ outer _ =>
      have hnone := h.frames f (by simp [stack])
      rw [outer] at hnone
      cases hnone
  | _ => exact h.hosts

/-- The state after a failure has taken all frames off the stack. -/
def dropped (s : State) : State := { s with stack := [], depth := s.base }

/-- Where host functions make no calls, none of them gets to know a failure. -/
theorem unwind_quiet {fs : List Frame} (h : ∀ f ∈ fs, f.outer = none) (hstack : s.stack = fs)
    (e : Failure) : unwind fs e s = .done s.dropped (.error e) := by
  induction fs generalizing s with
  | nil =>
      have hdropped : s.dropped = s := by
        unfold dropped base
        rw [hstack, List.length_nil, Int.natCast_zero, Int.sub_zero, ← hstack]
      rw [hdropped]
      rfl
  | cons f fs ih =>
      unfold unwind
      rw [h f List.mem_cons_self]
      dsimp only
      rw [ih (fun g hg => h g (List.mem_cons_of_mem _ hg)) rfl]
      have hbase : (s.left fs none).base = s.base := by
        simp only [base, State.left, hstack, List.length_cons]
        omega
      unfold dropped
      rw [hbase]
      rfl

theorem advance_of_step (h : s.step = .next t) : s.advance = .next t := by
  unfold advance
  rw [h]

theorem advance_of_value (h : s.step = .done t (.ok x)) : s.advance = .done t (.ok x) := by
  unfold advance
  rw [h]

theorem Quiet.advance_of_failure {e : Failure} (h : s.Quiet) (hstep : s.step = .done t (.error e)) :
    s.advance = .done t.dropped (.error e) := by
  unfold advance
  rw [hstep]
  exact unwind_quiet (h.stop (Stop.of_step hstep)).frames rfl e

/-- Where host functions make no calls, a run goes on only by steps. -/
theorem Quiet.step_of_advance (h : s.Quiet) (hadvance : s.advance = .next t) : s.step = .next t := by
  cases hstep : s.step with
  | next u => rwa [advance_of_step hstep] at hadvance
  | done u r =>
      cases r with
      | ok x =>
          rw [advance_of_value hstep] at hadvance
          cases hadvance
      | error e =>
          rw [h.advance_of_failure hstep] at hadvance
          cases hadvance

/-- With a budget, a run in which host functions make no calls comes to an end. -/
theorem Quiet.ends {s : State} (h : s.Quiet) {n : Nat} (hbudget : s.budget = some n) :
    ∃ fuel end_, s.run fuel = some end_ := by
  cases hadvance : s.advance with
  | done t r => exact ⟨1, (t, r), by simp [run, hadvance]⟩
  | next t =>
      have hprogress := h.progress (Move.of_step (h.step_of_advance hadvance))
      have hspent := hprogress.spent
      rw [hbudget] at hspent
      obtain ⟨fuel, end_, hrun⟩ := hprogress.quiet.ends hspent
      exact ⟨fuel + 1, end_, by simpa [run, hadvance] using hrun⟩
termination_by (n, s.weight)
decreasing_by
  cases hasks : s.asks with
  | true =>
      have hpos : n ≠ 0 := fun h0 => hprogress.asked hasks (h0 ▸ hbudget)
      exact .left _ _ (by simp only [Bool.toNat_true]; omega)
  | false => exact .right _ (hprogress.less hasks)

end State

end ClassLang.Machine
