import ClassLang.Machine
import ClassLang.Proofs.Machine.Action

/-!
What one step of a run can do. Each way in which a run goes on is a constructor of `Move`,
and each way in which it ends one of `Stop`; no other lemma looks into the definition of a
step.
-/

namespace ClassLang.Machine

open ClassLang.Graph (Instr Op Callee)

/-! Changes of a frame -/

namespace Frame

/-- The frame where instruction `v` has the value `x` and the instructions `todo` are left. -/
def given (f : Frame) (v : Nat) (x : Value) (todo : List Nat) : Frame :=
  { f with values := f.values.setIfInBounds v (some x), todo := some todo }

/-- The frame where the slot `a` holds `x`. -/
def stored (f : Frame) (a : Nat) (x : Value) : Frame :=
  { f with slots := f.slots.setIfInBounds a (some x) }

/-- The frame that has entered the block `b`, with values for the instructions that open it. -/
def entered (f : Frame) (b : Graph.Block) (xs : List (Nat × Value)) : Frame :=
  { f with
    values := xs.foldl (fun vs (i, x) => vs.setIfInBounds i (some x)) f.values
    todo := some (b.values.filter fun i => (f.fn.instr? i).map (·.op) ≠ some .phi) }

/-- The frame that is about to enter block `c` from the one it is in. -/
def jumped (f : Frame) (c : Nat) : Frame :=
  { f with block := some c, origin := f.block, todo := none }

/-- The frame waits for the value of instruction `v`, whose text is `x`. -/
structure At (f : Frame) (v : Nat) (x : Instr) (todo : List Nat) : Prop where
  todo : f.todo = some (v :: todo)
  instr : f.fn.instr? v = some x

/-- The block that a frame goes to from the end of its block. -/
inductive Goes (f : Frame) : Nat → Prop
  | plain {b : Graph.Block} {c : Nat} (block : f.block.bind f.fn.block? = some b)
      (kind : b.kind = .plain) (succ : b.succs.head? = some c) : Goes f c
  | branch {b : Graph.Block} {cond : Option Nat} {rest : List (Option Nat)} {c : Nat}
      (block : f.block.bind f.fn.block? = some b) (kind : b.kind = .branch)
      (controls : b.controls = cond :: rest)
      (succ : b.succs[if State.holds f cond then 0 else 1]? = some c) : Goes f c

/-- The value that a frame returns from the end of its block. -/
inductive Returns (f : Frame) : Value → Prop
  | result {b : Graph.Block} {c : Nat} {rest : List (Option Nat)}
      (block : f.block.bind f.fn.block? = some b) (kind : b.kind = .ret)
      (controls : b.controls = some c :: rest) : Returns f (f.value c)
  | nothing {b : Graph.Block} (block : f.block.bind f.fn.block? = some b) (kind : b.kind = .ret)
      (controls : ∀ c, b.controls.head? ≠ some (some c)) : Returns f .nil

end Frame

/-! Host functions -/

namespace State

variable (s : State)

/-- The state after another frame has taken the place of the top one. -/
def withTop (f : Frame) (rest : List Frame) : State := { s with stack := f :: rest }

/-- The state after a block has been entered. -/
def charged : State := { s with budget := s.budget.map (· - 1) }

/-- How many calls were under way before those of the frames on the stack. -/
def base : Int := s.depth - s.stack.length

/-- What a run never changes: the program, the limit of depth, and what has been printed. -/
structure Before (t : State) : Prop where
  program : t.machine.program = s.machine.program
  maxDepth : t.machine.maxDepth = s.machine.maxDepth
  out : ∃ text, t.out = s.out ++ text

/-- What stays while a host function is at work. -/
structure Alters (t : State) : Prop extends s.Before t where
  budget : t.budget = s.budget
  stack : t.stack = s.stack
  depth : t.depth = s.depth

/-- How a host function that is at work lets the run go on: it returns a value, or it calls a
function. -/
inductive Serves : State → Prop
  | value {t : State} {f : Frame} {rest : List Frame} {v : Nat} {todo : List Nat} {x : Value}
      (alters : s.Alters t) (stack : s.stack = f :: rest) (waits : f.todo = some (v :: todo)) :
      Serves (t.withTop (f.given v x todo) rest)
  | call {t : State} {fn : Graph.Func} {args : List Value} {budget : Budget} {w : Waiting}
      (alters : s.Alters t) (room : s.depth < s.machine.maxDepth) :
      Serves ({ t with budget }.started fn args (some w))

/-- How a host function that is at work ends the run. `last` is the failure of the call that it
made last. -/
inductive Quits (last : Option Failure) : State → Except Failure Value → Prop
  | value {t : State} {x : Value} (alters : s.Alters t) (idle : s.stack = []) :
      Quits last t (.ok x)
  | fail {t : State} {text : String} (alters : s.Alters t) : Quits last t (.error (.host text))
  | pass {t : State} {e : Failure} (alters : s.Alters t) (failed : last = some e) :
      Quits last t (.error e)
  | tooDeep {t : State} {fn : Graph.Func} (alters : s.Alters t)
      (full : s.machine.maxDepth ≤ s.depth) : Quits last t (.error (s.tooDeep fn))
  | crash {t : State} (alters : s.Alters t) : Quits last t (.error (.crash .fault))

variable {s} {f : Frame} {rest : List Frame} {v : Nat} {todo : List Nat} {t u : State}
  {last last' : Option Failure} {r : Except Failure Value}

namespace Before

/-- A change that prints nothing. -/
theorem quiet (hprogram : t.machine.program = s.machine.program)
    (hmaxDepth : t.machine.maxDepth = s.machine.maxDepth) (hout : t.out = s.out) : s.Before t :=
  ⟨hprogram, hmaxDepth, "", by simp [hout]⟩

theorem refl (s : State) : s.Before s := .quiet rfl rfl rfl

theorem trans (h : s.Before t) (h' : t.Before u) : s.Before u where
  program := h'.program.trans h.program
  maxDepth := h'.maxDepth.trans h.maxDepth
  out := by
    obtain ⟨text, htext⟩ := h.out
    obtain ⟨text', htext'⟩ := h'.out
    exact ⟨text ++ text', by rw [htext', htext, String.append_assoc]⟩

theorem of_left {budget : Option Budget} (h : (s.left rest budget).Before t) : s.Before t :=
  ⟨h.program, h.maxDepth, h.out⟩

end Before

namespace Alters

theorem refl (s : State) : s.Alters s := ⟨.refl s, rfl, rfl, rfl⟩

theorem trans (h : s.Alters t) (h' : t.Alters u) : s.Alters u :=
  ⟨h.toBefore.trans h'.toBefore, h'.budget.trans h.budget, h'.stack.trans h.stack,
    h'.depth.trans h.depth⟩

theorem base (h : s.Alters t) : t.base = s.base := by
  unfold State.base
  rw [h.depth, h.stack]

theorem tooDeep (h : s.Alters t) (fn : Graph.Func) : t.tooDeep fn = s.tooDeep fn := by
  unfold State.tooDeep
  rw [h.maxDepth]

theorem serves (h : s.Alters t) (hserves : t.Serves u) : s.Serves u := by
  cases hserves with
  | value alters stack waits => exact .value (h.trans alters) (h.stack ▸ stack) waits
  | call alters room => exact .call (h.trans alters) (by rwa [h.depth, h.maxDepth] at room)

/-- A failure of a call that was too deep is no failure of a call before. -/
theorem quits (h : s.Alters t) (hquits : t.Quits last' u r)
    (hlast : ∀ e, last' = some e → last = some e ∨
      s.machine.maxDepth ≤ s.depth ∧ ∃ fn, e = s.tooDeep fn) : s.Quits last u r := by
  cases hquits with
  | value alters idle => exact .value (h.trans alters) (h.stack ▸ idle)
  | fail alters => exact .fail (h.trans alters)
  | pass alters failed =>
      rcases hlast _ failed with hlast | ⟨hfull, fn, rfl⟩
      · exact .pass (h.trans alters) hlast
      · exact .tooDeep (h.trans alters) hfull
  | tooDeep alters full =>
      rw [h.tooDeep]
      rw [h.depth, h.maxDepth] at full
      exact .tooDeep (h.trans alters) full
  | crash alters => exact .crash (h.trans alters)

end Alters

theorem Quits.alters (h : s.Quits last t r) : s.Alters t := by
  cases h <;> assumption

theorem deliver_eq (hstack : s.stack = f :: rest) (htodo : f.todo = some (v :: todo)) (y : Value) :
    s.deliver y = .next (s.withTop (f.given v y todo) rest) := by
  unfold deliver
  rw [hstack]
  dsimp only
  rw [htodo]
  rfl

theorem deliver_fail (hstack : s.stack = f :: rest) (htodo : ∀ v todo, f.todo ≠ some (v :: todo))
    (y : Value) : s.deliver y = s.fail (.crash .fault) := by
  unfold deliver
  rw [hstack]
  dsimp only
  split
  next v todo htodo' => exact absurd htodo' (htodo v todo)
  next => rfl

end State

/-- What a host function that is at work leads to. -/
def Step.Serves (s : State) (last : Option Failure) : Step → Prop
  | .next t => s.Serves t
  | .done t r => s.Quits last t r

namespace State

variable {s t : State} {last : Option Failure}

theorem Alters.step {last' : Option Failure} {x : Step} (h : s.Alters t)
    (hx : x.Serves t last')
    (hlast : ∀ e, last' = some e → last = some e ∨
      s.machine.maxDepth ≤ s.depth ∧ ∃ fn, e = s.tooDeep fn) : x.Serves s last := by
  cases x with
  | next u => exact h.serves hx
  | done u r => exact h.quits hx hlast

/-- The request of a host function leads to its next one, to a value, to a call or to a failure. -/
theorem answer_serves (s : State) (last : Option Failure) (r : Reply) :
    (s.answer last r).Serves s last := by
  induction r generalizing s last with
  | value x =>
      cases hstack : s.stack with
      | nil =>
          unfold answer deliver
          rw [hstack]
          exact Quits.value (.refl s) hstack
      | cons f rest =>
          by_cases hwaits : ∃ v todo, f.todo = some (v :: todo)
          · obtain ⟨v, todo, hf⟩ := hwaits
            rw [answer, deliver_eq hstack hf]
            exact Serves.value (.refl s) hstack hf
          · rw [answer, deliver_fail hstack fun v todo hf => hwaits ⟨v, todo, hf⟩]
            exact Quits.crash (.refl s)
  | fail text => exact Quits.fail (.refl s)
  | pass =>
      cases last with
      | none => exact Quits.crash (.refl s)
      | some e => exact Quits.pass (.refl s) rfl
  | crash => exact Quits.crash (.refl s)
  | print text next ih =>
      exact Alters.step (t := { s with out := s.out ++ text }) ⟨⟨rfl, rfl, text, rfl⟩, rfl, rfl, rfl⟩
        (ih _ last) fun _ => Or.inl
  | look ref next ih =>
      unfold answer
      split
      · exact ih _ s last
      · exact Quits.crash (.refl s)
  | change ref o next ih =>
      exact Alters.step (t := s.modifyHeap (·.setIfInBounds ref o)) ⟨.quiet rfl rfl rfl, rfl, rfl, rfl⟩
        (ih _ last) fun _ => Or.inl
  | create o next ih =>
      exact Alters.step (t := s.modifyHeap (·.push o)) ⟨.quiet rfl rfl rfl, rfl, rfl, rfl⟩
        (ih _ _ last) fun _ => Or.inl
  | kept next ih => exact ih _ s last
  | keep memory next ih =>
      exact Alters.step (t := { s with machine := { s.machine with memory } })
        ⟨.quiet rfl rfl rfl, rfl, rfl, rfl⟩ (ih _ last) fun _ => Or.inl
  | bind name respond next _ ih =>
      exact Alters.step (t := { s with machine := s.machine.bind name ⟨respond⟩ })
        ⟨.quiet rfl rfl rfl, rfl, rfl, rfl⟩ (ih _ last) fun _ => Or.inl
  | call fn args own next ih =>
      unfold answer
      split
      next hfull =>
        refine Alters.step (.refl s) (ih _ _ _) fun e he => Or.inr ⟨hfull, fn, ?_⟩
        exact (Option.some.inj he).symm
      next hroom => exact Serves.call (.refl s) (Int.not_le.1 hroom)

theorem serves_of_answer {r : Reply} (h : s.answer last r = .next t) : s.Serves t := by
  have hserves := s.answer_serves last r
  rwa [h] at hserves

theorem quits_of_answer {r : Reply} {x : Except Failure Value}
    (h : s.answer last r = .done t x) : s.Quits last t x := by
  have hserves := s.answer_serves last r
  rwa [h] at hserves

end State

/-! Steps -/

/-- What the top frame is about to do. -/
structure Does (s : State) (f : Frame) (rest : List Frame) (v : Nat) (x : Instr)
    (todo : List Nat) (a : Action) : Prop where
  stack : s.stack = f :: rest
  at_ : f.At v x todo
  action : action f s.machine.heap x = .ok a

/-- A step after which the run goes on. -/
inductive Move (s : State) : State → Prop
  | enter {f : Frame} {rest : List Frame} {b : Graph.Block} {xs : List (Nat × Value)}
      (stack : s.stack = f :: rest) (todo : f.todo = none) (budget : s.budget ≠ some 0)
      (block : f.block.bind f.fn.block? = some b) (edge : State.edgeValues f b b.values = .ok xs) :
      Move s (s.charged.withTop (f.entered b xs) rest)
  | jump {f : Frame} {rest : List Frame} {c : Nat} (stack : s.stack = f :: rest)
      (todo : f.todo = some []) (goes : f.Goes c) : Move s (s.withTop (f.jumped c) rest)
  | back {f g : Frame} {rest : List Frame} {x : Value} {v : Nat} {todo : List Nat}
      (stack : s.stack = f :: g :: rest) (done : f.todo = some []) (returns : f.Returns x)
      (outer : f.outer = none) (waits : g.todo = some (v :: todo)) :
      Move s ((s.left (g :: rest) none).withTop (g.given v x todo) rest)
  | resume {f : Frame} {rest : List Frame} {x : Value} {w : Waiting} {s' : State}
      (stack : s.stack = f :: rest) (done : f.todo = some []) (returns : f.Returns x)
      (outer : f.outer = some w)
      (answer : (s.left rest w.budget).answer none (w.next (.ok x)) = .next s') : Move s s'
  | give {f : Frame} {rest : List Frame} {v : Nat} {x : Instr} {todo : List Nat} {y : Value}
      (does : Does s f rest v x todo (.give y)) : Move s (s.withTop (f.given v y todo) rest)
  | newSlot {f : Frame} {rest : List Frame} {v : Nat} {x : Instr} {todo : List Nat}
      (does : Does s f rest v x todo .newSlot) :
      Move s (s.withTop ((f.stored v .nil).given v .nil todo) rest)
  | store {f : Frame} {rest : List Frame} {v : Nat} {x : Instr} {todo : List Nat} {a : Nat}
      {y : Value} (does : Does s f rest v x todo (.store a y)) :
      Move s (s.withTop ((f.stored a y).given v .nil todo) rest)
  | allocate {f : Frame} {rest : List Frame} {v : Nat} {x : Instr} {todo : List Nat} {o : Object}
      (does : Does s f rest v x todo (.allocate o)) :
      Move s ((s.modifyHeap (·.push o)).withTop (f.given v (.obj s.machine.heap.size) todo) rest)
  | setField {f : Frame} {rest : List Frame} {v : Nat} {x : Instr} {todo : List Nat}
      {ref i : Nat} {y : Value} (does : Does s f rest v x todo (.setField ref i y)) :
      Move s ((s.modifyHeap (·.modify ref fun o =>
        { o with fields := o.fields.setIfInBounds i y })).withTop (f.given v .nil todo) rest)
  | setDispatch {f : Frame} {rest : List Frame} {v : Nat} {x : Instr} {todo : List Nat}
      {ref : Nat} {l : ClassLayout} (does : Does s f rest v x todo (.setDispatch ref l)) :
      Move s ((s.modifyHeap (·.modify ref fun o =>
        { o with dispatch := some l })).withTop (f.given v .nil todo) rest)
  | call {f : Frame} {rest : List Frame} {v : Nat} {x : Instr} {todo : List Nat} {ref : FuncRef}
      {args : List Value} {fn : Graph.Func} (does : Does s f rest v x todo (.call (.func ref) args))
      (found : s.machine.program.func? ref = some fn) (room : s.depth < s.machine.maxDepth) :
      Move s (s.started fn args none)
  | host {f : Frame} {rest : List Frame} {v : Nat} {x : Instr} {todo : List Nat}
      {target : Callee} {args : List Value} {name : String} {h : Host} {s' : State}
      (does : Does s f rest v x todo (.call target args))
      (target : target = .host name ∨ target = .strayHost name)
      (found : s.machine.hosts.lookup name = some h)
      (answer : s.answer none (h.respond args) = .next s') : Move s s'

/-- A frame that cannot go on because its graph lacks something. -/
inductive Frame.Stuck (f : Frame) : Crash → Prop
  | instr {v : Nat} {todo : List Nat} (ahead : f.todo = some (v :: todo))
      (missing : f.fn.instr? v = none) : Stuck f .fault
  | block (todo : f.todo = some []) (missing : f.block.bind f.fn.block? = none) : Stuck f .fault
  | succ {b : Graph.Block} (todo : f.todo = some []) (block : f.block.bind f.fn.block? = some b)
      (kind : b.kind = .plain) (missing : b.succs = []) : Stuck f .fault
  | cond {b : Graph.Block} (todo : f.todo = some []) (block : f.block.bind f.fn.block? = some b)
      (kind : b.kind = .branch) (missing : b.controls = [] ∨ b.succs.length < 2) : Stuck f .fault
  | kind {b : Graph.Block} (todo : f.todo = some []) (block : f.block.bind f.fn.block? = some b)
      (plain : b.kind ≠ .plain) (branch : b.kind ≠ .branch) (ret : b.kind ≠ .ret) :
      Stuck f (.strangeBlock b.label b.kind.text)

/-- A step that ends the run of the top frame: with a value if no frame is left, or with a
failure. -/
inductive Stop (s : State) : State → Except Failure Value → Prop
  | idle (stack : s.stack = []) : Stop s s (.ok .nil)
  | finish {f : Frame} {x : Value} (stack : s.stack = [f]) (todo : f.todo = some [])
      (returns : f.Returns x) (outer : f.outer = none) : Stop s (s.left [] none) (.ok x)
  | cancel {f : Frame} {rest : List Frame} (stack : s.stack = f :: rest) (todo : f.todo = none)
      (budget : s.budget = some 0) : Stop s s (.error .cancelled)
  | edge {f : Frame} {rest : List Frame} {b : Graph.Block} {e : Failure}
      (stack : s.stack = f :: rest) (todo : f.todo = none) (budget : s.budget ≠ some 0)
      (block : f.block.bind f.fn.block? = some b)
      (edge : State.edgeValues f b b.values = .error e) : Stop s s.charged (.error e)
  | action {f : Frame} {rest : List Frame} {v : Nat} {x : Instr} {todo : List Nat} {e : Failure}
      (stack : s.stack = f :: rest) (at_ : f.At v x todo)
      (action : action f s.machine.heap x = .error e) : Stop s s (.error e)
  | noBody {f : Frame} {rest : List Frame} {v : Nat} {x : Instr} {todo : List Nat}
      {ref : FuncRef} {args : List Value} (does : Does s f rest v x todo (.call (.func ref) args))
      (missing : s.machine.program.func? ref = none) :
      Stop s s (.error (.runtime ref.text Pos.none .noBody))
  | stray {f : Frame} {rest : List Frame} {v : Nat} {x : Instr} {todo : List Nat}
      {name : String} {args : List Value}
      (does : Does s f rest v x todo (.call (.strayFunc name) args)) :
      Stop s s (.error (.runtime name Pos.none .noBody))
  | tooDeep {f : Frame} {rest : List Frame} {v : Nat} {x : Instr} {todo : List Nat}
      {ref : FuncRef} {args : List Value} {fn : Graph.Func}
      (does : Does s f rest v x todo (.call (.func ref) args))
      (found : s.machine.program.func? ref = some fn) (full : s.machine.maxDepth ≤ s.depth) :
      Stop s s (.error (s.tooDeep fn))
  | noHost {f : Frame} {rest : List Frame} {v : Nat} {x : Instr} {todo : List Nat}
      {target : Callee} {args : List Value} {name : String}
      (does : Does s f rest v x todo (.call target args))
      (target : target = .host name ∨ target = .strayHost name)
      (missing : s.machine.hosts.lookup name = none) :
      Stop s s (.error (.runtime name Pos.none .noHost))
  | host {f : Frame} {rest : List Frame} {v : Nat} {x : Instr} {todo : List Nat}
      {target : Callee} {args : List Value} {name : String} {h : Host} {t : State}
      {r : Except Failure Value} (does : Does s f rest v x todo (.call target args))
      (target : target = .host name ∨ target = .strayHost name)
      (found : s.machine.hosts.lookup name = some h)
      (answer : s.answer none (h.respond args) = .done t r) : Stop s t r
  | resume {f : Frame} {rest : List Frame} {x : Value} {w : Waiting} {t : State}
      {r : Except Failure Value} (stack : s.stack = f :: rest) (done : f.todo = some [])
      (returns : f.Returns x) (outer : f.outer = some w)
      (answer : (s.left rest w.budget).answer none (w.next (.ok x)) = .done t r) : Stop s t r
  | noBlock {f : Frame} {rest : List Frame} (stack : s.stack = f :: rest) (todo : f.todo = none)
      (budget : s.budget ≠ some 0) (missing : f.block.bind f.fn.block? = none) :
      Stop s s.charged (.error (.crash .fault))
  | stuck {f : Frame} {rest : List Frame} {c : Crash} (stack : s.stack = f :: rest)
      (stuck : f.Stuck c) : Stop s s (.error (.crash c))
  | noCaller {f g : Frame} {rest : List Frame} {x : Value} (stack : s.stack = f :: g :: rest)
      (todo : f.todo = some []) (returns : f.Returns x) (outer : f.outer = none)
      (missing : ∀ v todo, g.todo ≠ some (v :: todo)) :
      Stop s (s.left (g :: rest) none) (.error (.crash .fault))

/-- A step is of one of these two kinds. -/
def Step.Fits (s : State) : Step → Prop
  | .next s' => Move s s'
  | .done t result => Stop s t result

namespace State

variable {s : State} {f : Frame} {rest : List Frame} {v : Nat} {x : Instr} {todo : List Nat}

theorem push_eq (s : State) (fn : Graph.Func) (args : List Value) (outer : Option Waiting) :
    s.push fn args outer =
      if s.machine.maxDepth ≤ s.depth then s.fail (s.tooDeep fn)
      else .next (s.started fn args outer) := rfl

theorem fits_callHost {target : Callee} {args : List Value} {name : String}
    (hdoes : Does s f rest v x todo (.call target args))
    (htarget : target = .host name ∨ target = .strayHost name) :
    (s.callHost name args).Fits s := by
  unfold callHost
  cases hhost : s.machine.hosts.lookup name with
  | none => exact Stop.noHost hdoes htarget hhost
  | some h =>
      dsimp only
      cases hanswer : s.answer none (h.respond args) with
      | next t => exact Move.host hdoes htarget hhost hanswer
      | done t r => exact Stop.host hdoes htarget hhost hanswer

theorem fits_call {target : Callee} {args : List Value}
    (hdoes : Does s f rest v x todo (.call target args)) : (s.call target args).Fits s := by
  cases target with
  | host name => exact fits_callHost hdoes (Or.inl rfl)
  | strayHost name => exact fits_callHost hdoes (Or.inr rfl)
  | strayFunc name => exact Stop.stray hdoes
  | func ref =>
      unfold call
      dsimp only
      cases hfn : s.machine.program.func? ref with
      | none => exact Stop.noBody hdoes hfn
      | some fn =>
          dsimp only
          rw [push_eq]
          split
          next hfull => exact Stop.tooDeep hdoes hfn hfull
          next hroom => exact Move.call hdoes hfn (Int.not_le.1 hroom)

theorem fits_perform {a : Action} (hdoes : Does s f rest v x todo a) :
    (s.perform f rest v a).Fits s := by
  have hstack := hdoes.stack
  have htodo := hdoes.at_.todo
  cases a with
  | give y =>
      have hdeliver : s.perform f rest v (.give y) = _ := deliver_eq hstack htodo y
      rw [hdeliver]
      exact Move.give hdoes
  | newSlot =>
      have hdeliver : s.perform f rest v .newSlot = _ :=
        deliver_eq (s := s.withTop (f.stored v .nil) rest) rfl htodo .nil
      rw [hdeliver]
      exact Move.newSlot hdoes
  | store a y =>
      have hdeliver : s.perform f rest v (.store a y) = _ :=
        deliver_eq (s := s.withTop (f.stored a y) rest) rfl htodo .nil
      rw [hdeliver]
      exact Move.store hdoes
  | allocate o =>
      have hdeliver : s.perform f rest v (.allocate o) = _ :=
        deliver_eq (s := s.modifyHeap (·.push o)) hstack htodo (.obj s.machine.heap.size)
      rw [hdeliver]
      exact Move.allocate hdoes
  | setField ref i y =>
      have hdeliver : s.perform f rest v (.setField ref i y) = _ :=
        deliver_eq (s := s.modifyHeap _) hstack htodo .nil
      rw [hdeliver]
      exact Move.setField hdoes
  | setDispatch ref l =>
      have hdeliver : s.perform f rest v (.setDispatch ref l) = _ :=
        deliver_eq (s := s.modifyHeap _) hstack htodo .nil
      rw [hdeliver]
      exact Move.setDispatch hdoes
  | call target args => exact fits_call hdoes

theorem fits_enterBlock (hstack : s.stack = f :: rest) (htodo : f.todo = none) :
    (s.enterBlock f rest).Fits s := by
  unfold enterBlock
  split
  next hbudget => exact Stop.cancel hstack htodo hbudget
  next hbudget =>
    cases hblock : f.block.bind f.fn.block? with
    | none => exact Stop.noBlock hstack htodo hbudget hblock
    | some b =>
        dsimp only
        cases hedge : edgeValues f b b.values with
        | error e => exact Stop.edge hstack htodo hbudget hblock hedge
        | ok xs => exact Move.enter hstack htodo hbudget hblock hedge

theorem fits_returnTo {y : Value} (hstack : s.stack = f :: rest) (htodo : f.todo = some [])
    (hreturns : f.Returns y) : (s.returnTo rest f.outer y).Fits s := by
  unfold returnTo
  cases houter : f.outer with
  | some w =>
      dsimp only
      cases hanswer : (s.left rest w.budget).answer none (w.next (.ok y)) with
      | next t => exact Move.resume hstack htodo hreturns houter hanswer
      | done t r => exact Stop.resume hstack htodo hreturns houter hanswer
  | none =>
      dsimp only
      cases rest with
      | nil => exact Stop.finish hstack htodo hreturns houter
      | cons g rest =>
          by_cases hwaits : ∃ v todo, g.todo = some (v :: todo)
          · obtain ⟨v, todo, hg⟩ := hwaits
            rw [deliver_eq (s := s.left (g :: rest) none) rfl hg]
            exact Move.back hstack htodo hreturns houter hg
          · have hg : ∀ v todo, g.todo ≠ some (v :: todo) := fun v todo hg => hwaits ⟨v, todo, hg⟩
            rw [deliver_fail (s := s.left (g :: rest) none) rfl hg]
            exact Stop.noCaller hstack htodo hreturns houter hg

theorem fits_leaveBlock (hstack : s.stack = f :: rest) (htodo : f.todo = some []) :
    (s.leaveBlock f rest).Fits s := by
  unfold leaveBlock
  cases hblock : f.block.bind f.fn.block? with
  | none => exact Stop.stuck hstack (.block htodo hblock)
  | some b =>
      dsimp only
      cases hkind : b.kind with
      | plain =>
          dsimp only
          cases hsucc : b.succs.head? with
          | none =>
              exact Stop.stuck hstack (.succ htodo hblock hkind (List.head?_eq_none_iff.1 hsucc))
          | some c => exact Move.jump hstack htodo (.plain hblock hkind hsucc)
      | branch =>
          dsimp only
          cases hcontrols : b.controls with
          | nil => exact Stop.stuck hstack (.cond htodo hblock hkind (Or.inl hcontrols))
          | cons cond controls =>
              dsimp only
              cases hsucc : b.succs[if holds f cond then 0 else 1]? with
              | none =>
                  have hlen := List.getElem?_eq_none_iff.1 hsucc
                  refine Stop.stuck hstack (.cond htodo hblock hkind (Or.inr ?_))
                  split at hlen <;> omega
              | some c => exact Move.jump hstack htodo (.branch hblock hkind hcontrols hsucc)
      | ret =>
          dsimp only
          refine fits_returnTo hstack htodo ?_
          split
          next c controls hcontrols => exact .result hblock hkind hcontrols
          next hcontrols =>
            refine .nothing hblock hkind fun c hc => ?_
            obtain ⟨controls, hlist⟩ := List.head?_eq_some_iff.1 hc
            exact hcontrols c controls hlist
      | invalid =>
          have hstuck := Frame.Stuck.kind htodo hblock (by simp [hkind]) (by simp [hkind])
            (by simp [hkind])
          rw [hkind] at hstuck
          exact Stop.stuck hstack hstuck
      | unlisted code =>
          have hstuck := Frame.Stuck.kind htodo hblock (by simp [hkind]) (by simp [hkind])
            (by simp [hkind])
          rw [hkind] at hstuck
          exact Stop.stuck hstack hstuck

theorem fits_step (s : State) : s.step.Fits s := by
  unfold step
  cases hstack : s.stack with
  | nil => exact Stop.idle hstack
  | cons f rest =>
      dsimp only
      cases htodo : f.todo with
      | none => exact fits_enterBlock hstack htodo
      | some todo =>
          cases todo with
          | nil => exact fits_leaveBlock hstack htodo
          | cons v todo =>
              dsimp only
              cases hinstr : f.fn.instr? v with
              | none => exact Stop.stuck hstack (.instr htodo hinstr)
              | some x =>
                  dsimp only
                  cases haction : action f s.machine.heap x with
                  | error e => exact Stop.action hstack ⟨htodo, hinstr⟩ haction
                  | ok a => exact fits_perform ⟨hstack, ⟨htodo, hinstr⟩, haction⟩

end State

variable {s s' : State}

/-- What a step does after which the run goes on. -/
theorem Move.of_step (h : s.step = .next s') : Move s s' := by
  have hfits := s.fits_step
  rwa [h] at hfits

/-- What a step does that ends the run. -/
theorem Stop.of_step {result : Except Failure Value}
    (h : s.step = .done s' result) : Stop s s' result := by
  have hfits := s.fits_step
  rwa [h] at hfits

/-! Failures -/

/-- A failure of the top frame takes frames off the stack until a host function goes on. -/
inductive Caught : State → Failure → State → Prop
  | here {s s' : State} {f : Frame} {rest : List Frame} {w : Waiting} {e : Failure}
      (stack : s.stack = f :: rest) (outer : f.outer = some w)
      (answer : (s.left rest w.budget).answer (some e) (w.next (.error e)) = .next s') :
      Caught s e s'
  | again {s t s' : State} {f : Frame} {rest : List Frame} {w : Waiting} {e e' : Failure}
      (stack : s.stack = f :: rest) (outer : f.outer = some w)
      (answer : (s.left rest w.budget).answer (some e) (w.next (.error e)) = .done t (.error e'))
      (caught : Caught t e' s') : Caught s e s'
  | past {s s' : State} {f : Frame} {rest : List Frame} {e : Failure}
      (stack : s.stack = f :: rest) (outer : f.outer = none)
      (caught : Caught (s.left rest none) e s') : Caught s e s'

/-- A failure of the top frame that no host function keeps from ending the run takes all frames
off the stack. -/
inductive Uncaught : State → Failure → State → Except Failure Value → Prop
  | bottom {s : State} {e : Failure} (stack : s.stack = []) : Uncaught s e s (.error e)
  | value {s t : State} {f : Frame} {w : Waiting} {e : Failure} {x : Value}
      (stack : s.stack = [f]) (outer : f.outer = some w)
      (answer : (s.left [] w.budget).answer (some e) (w.next (.error e)) = .done t (.ok x)) :
      Uncaught s e t (.ok x)
  | again {s t s' : State} {f : Frame} {rest : List Frame} {w : Waiting} {e e' : Failure}
      {r : Except Failure Value} (stack : s.stack = f :: rest) (outer : f.outer = some w)
      (answer : (s.left rest w.budget).answer (some e) (w.next (.error e)) = .done t (.error e'))
      (fails : Uncaught t e' s' r) : Uncaught s e s' r
  | past {s s' : State} {f : Frame} {rest : List Frame} {e : Failure} {r : Except Failure Value}
      (stack : s.stack = f :: rest) (outer : f.outer = none)
      (fails : Uncaught (s.left rest none) e s' r) : Uncaught s e s' r

/-- What a failure in the state `s` leads to. -/
def Step.Follows (s : State) (e : Failure) : Step → Prop
  | .next s' => Caught s e s'
  | .done s' result => Uncaught s e s' result

theorem State.unwind_follows {fs : List Frame} {e : Failure} (hstack : s.stack = fs) :
    (State.unwind fs e s).Follows s e := by
  induction fs generalizing s e with
  | nil => exact Uncaught.bottom hstack
  | cons f rest ih =>
      unfold unwind
      cases houter : f.outer with
      | none =>
          have hleft := ih (s := s.left rest none) (e := e) rfl
          dsimp only
          cases hstep : unwind rest e (s.left rest none) <;> rw [hstep] at hleft
          case next s' => exact Caught.past hstack houter hleft
          case done s' r => exact Uncaught.past hstack houter hleft
      | some w =>
          dsimp only
          cases hanswer : (s.left rest w.budget).answer (some e) (w.next (.error e)) with
          | next s' => exact Caught.here hstack houter hanswer
          | done t r =>
              have hquits := quits_of_answer hanswer
              cases r with
              | ok x =>
                  cases hquits with
                  | value alters idle =>
                      obtain rfl : rest = [] := idle
                      exact Uncaught.value hstack houter hanswer
              | error e' =>
                  have hfollows := ih (s := t) (e := e') hquits.alters.stack
                  dsimp only
                  cases hnext : unwind rest e' t <;> rw [hnext] at hfollows
                  case next s' => exact Caught.again hstack houter hanswer hfollows
                  case done s' r => exact Uncaught.again hstack houter hanswer hfollows

/-- How a run goes on: by a step or after a failure that a host function got to know. -/
inductive Goes (s s' : State) : Prop
  | move (move : Move s s')
  | failed {t : State} {e : Failure} (stop : Stop s t (.error e)) (caught : Caught t e s')

/-- How a run ends: with a value or with a failure that no host function kept from ending it. -/
inductive Over (s : State) : State → Except Failure Value → Prop
  | value {t : State} {x : Value} (stop : Stop s t (.ok x)) : Over s t (.ok x)
  | failed {t s' : State} {e : Failure} {r : Except Failure Value} (stop : Stop s t (.error e))
      (uncaught : Uncaught t e s' r) : Over s s' r

theorem Goes.of_advance (h : s.advance = .next s') : Goes s s' := by
  unfold State.advance at h
  split at h
  next t e hstep =>
    have hfollows := State.unwind_follows (s := t) (e := e) rfl
    rw [h] at hfollows
    exact .failed (Stop.of_step hstep) hfollows
  next => exact .move (Move.of_step h)

theorem Over.of_advance {result : Except Failure Value} (h : s.advance = .done s' result) :
    Over s s' result := by
  unfold State.advance at h
  split at h
  next t e hstep =>
    have hfollows := State.unwind_follows (s := t) (e := e) rfl
    rw [h] at hfollows
    exact .failed (Stop.of_step hstep) hfollows
  next hno =>
    cases result with
    | ok x => exact .value (Stop.of_step h)
    | error e => exact absurd h (hno s' e)

/-! What stays -/

theorem State.Serves.before (h : s.Serves s') : s.Before s' := by
  cases h with
  | value alters _ _ => exact alters.toBefore.trans (.quiet rfl rfl rfl)
  | call alters _ => exact alters.toBefore.trans (.quiet rfl rfl rfl)

theorem Move.before (h : Move s s') : s.Before s' := by
  cases h with
  | resume _ _ _ _ answer =>
      exact .of_left (State.serves_of_answer answer).before
  | host _ _ _ answer => exact (State.serves_of_answer answer).before
  | _ => exact .quiet rfl rfl rfl

theorem Stop.before {r : Except Failure Value} (h : Stop s s' r) : s.Before s' := by
  cases h with
  | resume _ _ _ _ answer =>
      exact .of_left (State.quits_of_answer answer).alters.toBefore
  | host _ _ _ answer => exact (State.quits_of_answer answer).alters.toBefore
  | _ => exact .quiet rfl rfl rfl

theorem Caught.before {e : Failure} (h : Caught s e s') : s.Before s' := by
  induction h with
  | here _ _ answer => exact .of_left (State.serves_of_answer answer).before
  | again _ _ answer _ ih =>
      exact .of_left ((State.quits_of_answer answer).alters.toBefore.trans ih)
  | past _ _ _ ih => exact .of_left ih

theorem Uncaught.before {e : Failure} {r : Except Failure Value} (h : Uncaught s e s' r) :
    s.Before s' := by
  induction h with
  | bottom _ => exact .refl _
  | value _ _ answer =>
      exact .of_left (State.quits_of_answer answer).alters.toBefore
  | again _ _ answer _ ih =>
      exact .of_left ((State.quits_of_answer answer).alters.toBefore.trans ih)
  | past _ _ _ ih => exact .of_left ih

/-- One step never changes the program or the limit of depth, nor takes back what was printed. -/
theorem State.before_of_advance (h : s.advance = .next s') : s.Before s' := by
  cases Goes.of_advance h with
  | move move => exact move.before
  | failed stop caught => exact stop.before.trans caught.before

theorem State.before_of_done {r : Except Failure Value} (h : s.advance = .done s' r) :
    s.Before s' := by
  cases Over.of_advance h with
  | value stop => exact stop.before
  | failed stop uncaught => exact stop.before.trans uncaught.before

/-- Nor does a whole run. -/
theorem State.before_of_run {fuel : Nat} {r : Except Failure Value}
    (h : s.run fuel = some (s', r)) : s.Before s' := by
  induction fuel generalizing s with
  | zero => cases h
  | succ fuel ih =>
      unfold State.run at h
      cases hadvance : s.advance <;> rw [hadvance] at h
      case next t => exact (State.before_of_advance hadvance).trans (ih h)
      case done t x =>
        cases h
        exact State.before_of_done hadvance

/-! Runs -/

/-- The states that a call of `fn` passes through. -/
inductive Reached (m : ClassLang.Machine) (budget : Budget) (fn : Graph.Func) (args : List Value) :
    State → Prop
  | start {s : State} (push : State.push { machine := m, budget } fn args none = .next s) :
      Reached m budget fn args s
  | step {s s' : State} (before : Reached m budget fn args s) (step : s.advance = .next s') :
      Reached m budget fn args s'

/-- A call that is over has passed through the states before its end. -/
theorem Reached.of_run {m : ClassLang.Machine} {budget : Budget} {fn : Graph.Func}
    {args : List Value} {fuel : Nat} {s last : State} {result : Except Failure Value}
    (h : Reached m budget fn args s) (hrun : s.run fuel = some (last, result)) :
    ∃ s', Reached m budget fn args s' ∧ s'.advance = .done last result := by
  induction fuel generalizing s with
  | zero => cases hrun
  | succ fuel ih =>
      unfold State.run at hrun
      cases hstep : s.advance with
      | done t r =>
          rw [hstep] at hrun
          cases hrun
          exact ⟨s, h, hstep⟩
      | next t =>
          rw [hstep] at hrun
          exact ih (h.step hstep) hrun

/-! Frames -/

/-- A frame that has made a call and waits for the value. -/
def Frame.Calls (f : Frame) : Prop :=
  ∃ v x todo, f.At v x todo ∧ x.op.isCall = true

/-- What a step does to the frame that it runs. -/
inductive Frame.Next (f : Frame) : Frame → Prop
  | enter {b : Graph.Block} {xs : List (Nat × Value)} (todo : f.todo = none)
      (block : f.block.bind f.fn.block? = some b) (edge : State.edgeValues f b b.values = .ok xs) :
      Next f (f.entered b xs)
  | jump {c : Nat} (todo : f.todo = some []) (goes : f.Goes c) : Next f (f.jumped c)
  | given {v : Nat} {x : Instr} {todo : List Nat} {y : Value} (at_ : f.At v x todo)
      (op : x.op ≠ .alloca) : Next f (f.given v y todo)
  | newSlot {v : Nat} {x : Instr} {todo : List Nat} (at_ : f.At v x todo) (op : x.op = .alloca) :
      Next f ((f.stored v .nil).given v .nil todo)
  | store {v a : Nat} {x : Instr} {todo : List Nat} {y : Value} (at_ : f.At v x todo)
      (op : x.op = .store) (target : x.args.head? = some (some a)) :
      Next f ((f.stored a y).given v .nil todo)

/-- What a step does to the stack. -/
inductive Shift (fs : List Frame) : List Frame → Prop
  | top {f f' : Frame} {rest : List Frame} (stack : fs = f :: rest) (next : f.Next f') :
      Shift fs (f' :: rest)
  | back {g : Frame} {rest : List Frame} {v : Nat} {todo : List Nat} {x : Value}
      (below : g :: rest <:+ fs.tail) (waits : g.todo = some (v :: todo)) :
      Shift fs (g.given v x todo :: rest)
  | push {f : Frame} {rest : List Frame} {fn : Graph.Func} {args : List Value}
      {outer : Option Waiting} (stack : fs = f :: rest) (calls : f.Calls) :
      Shift fs (.start fn args outer :: fs)
  | again {gs : List Frame} {fn : Graph.Func} {args : List Value} {outer : Option Waiting}
      (below : gs <:+ fs.tail) : Shift fs (.start fn args outer :: gs)

/-- An instruction that acts is one whose operation acts so. -/
theorem Does.fits {f : Frame} {rest : List Frame} {v : Nat} {x : Instr} {todo : List Nat}
    {a : Action} (h : Does s f rest v x todo a) : a.Fits x.op :=
  (action_ends _ _ _).ok h.action

theorem State.Serves.shift_below {fs : List Frame} (h : s.Serves s') (below : s.stack <:+ fs.tail) :
    Shift fs s'.stack := by
  cases h with
  | value _ stack waits => exact .back (stack ▸ below) waits
  | @call t _ _ _ _ alters _ =>
      change Shift fs (_ :: t.stack)
      rw [alters.stack]
      exact .again below

/-- A call that an instruction makes has no place for a value of its own. -/
theorem ne_alloca_of_isCall {op : Op} (h : op.isCall = true) : op ≠ .alloca := by
  rintro rfl
  cases h

theorem Move.shift (h : Move s s') : Shift s.stack s'.stack := by
  cases h with
  | enter stack todo _ block edge => exact .top stack (.enter todo block edge)
  | jump stack todo goes => exact .top stack (.jump todo goes)
  | back stack _ _ _ waits => exact .back (stack ▸ List.suffix_refl _) waits
  | resume stack _ _ _ answer =>
      exact (State.serves_of_answer answer).shift_below (stack ▸ List.suffix_refl _)
  | give does => exact .top does.stack (.given does.at_ does.fits.1)
  | newSlot does => exact .top does.stack (.newSlot does.at_ does.fits)
  | store does =>
      exact .top does.stack (.store does.at_ does.fits (head?_of_store _ _ _ does.action))
  | allocate does => exact .top does.stack (.given does.at_ (by simp [show _ = Op.alloc from does.fits]))
  | setField does =>
      exact .top does.stack (.given does.at_ (by simp [show _ = Op.storeField from does.fits]))
  | setDispatch does =>
      exact .top does.stack (.given does.at_ (by simp [show _ = Op.setDispatch from does.fits]))
  | call does _ _ => exact .push does.stack ⟨_, _, _, does.at_, does.fits⟩
  | host does _ _ answer =>
      cases State.serves_of_answer answer with
      | value _ stack waits =>
          obtain ⟨rfl, rfl⟩ := List.cons.inj (does.stack.symm.trans stack)
          obtain ⟨rfl, rfl⟩ := List.cons.inj (Option.some.inj (does.at_.todo.symm.trans waits))
          exact .top stack (.given does.at_ (ne_alloca_of_isCall does.fits))
      | @call t _ _ _ _ alters _ =>
          change Shift s.stack (_ :: t.stack)
          rw [alters.stack]
          exact .push does.stack ⟨_, _, _, does.at_, does.fits⟩

/-- The run of a frame ends with some frames left. -/
theorem Stop.suffix {result : Except Failure Value} (h : Stop s s' result) :
    s'.stack <:+ s.stack := by
  cases h with
  | finish stack | noCaller stack =>
      rw [stack]
      exact List.suffix_cons _ _
  | host _ _ _ answer => exact (State.quits_of_answer answer).alters.stack ▸ List.suffix_refl _
  | resume stack _ _ _ answer =>
      rw [(State.quits_of_answer answer).alters.stack, stack]
      exact List.suffix_cons _ _
  | _ => exact List.suffix_refl _

theorem Caught.shift {e : Failure} {fs : List Frame} (h : Caught s e s') (hle : s.stack <:+ fs) :
    Shift fs s'.stack := by
  have htail : ∀ {f : Frame} {rest : List Frame}, f :: rest <:+ fs → rest <:+ fs.tail := by
    rintro f rest ⟨front, rfl⟩
    cases front with
    | nil => exact List.suffix_refl _
    | cons g front => exact ⟨front ++ [f], by simp⟩
  induction h with
  | here stack _ answer => exact (State.serves_of_answer answer).shift_below (htail (stack ▸ hle))
  | again stack _ answer _ ih =>
      refine ih ?_
      rw [(State.quits_of_answer answer).alters.stack]
      exact (List.suffix_cons _ _).trans (stack ▸ hle)
  | past stack _ _ ih => exact ih ((List.suffix_cons _ _).trans (stack ▸ hle))

theorem Goes.shift (h : Goes s s') : Shift s.stack s'.stack := by
  cases h with
  | move move => exact move.shift
  | failed stop caught => exact caught.shift stop.suffix

/-- The callers of the top frame wait for their calls. -/
theorem Reached.callers {m : ClassLang.Machine} {budget : Budget} {fn : Graph.Func}
    {args : List Value} (h : Reached m budget fn args s) : ∀ g ∈ s.stack.tail, g.Calls := by
  induction h with
  | start hpush =>
      rw [State.push_eq] at hpush
      split at hpush
      next => cases hpush
      next =>
        cases hpush
        simp [State.started]
  | @step s s' _ hstep ih =>
      have hshift := (Goes.of_advance hstep).shift
      generalize s'.stack = stack' at hshift
      cases hshift with
      | top hstack _ =>
          rw [hstack] at ih
          exact ih
      | back hbelow _ => exact fun g hg => ih g (hbelow.subset (List.mem_cons_of_mem _ hg))
      | push hstack hcalls =>
          rw [hstack] at ih ⊢
          intro g hg
          rcases List.mem_cons.1 hg with rfl | hg
          · exact hcalls
          · exact ih g hg
      | again hbelow => exact fun g hg => ih g (hbelow.subset hg)

end ClassLang.Machine
