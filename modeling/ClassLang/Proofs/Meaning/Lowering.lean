import ClassLang.Proofs.Machine.Replay
import ClassLang.Proofs.Meaning.Simulation
import ClassLang.Proofs.Meaning.Soundness

/-!
Lowering preserves meaning. A call on a machine that runs the graphs of an accepted text comes to
what the same call comes to by name, and does not return if that does not.
-/

namespace ClassLang

namespace Machine

open Direct (World)

/-! Ends of runs -/

namespace Step

variable {p : Step} {s s' : State} {r : Except Failure Value} {n n' : Nat}

/-- What a run comes to that goes on for at most `n` steps. -/
def run (n : Nat) : Step → Option (State × Except Failure Value)
  | .done s r => some (s, r)
  | .next s => s.run n

theorem run_succ (s : State) (n : Nat) : s.run (n + 1) = s.advance.run n := by
  rw [State.run]
  cases s.advance <;> rfl

theorem run_mono {x : State × Except Failure Value} (h : p.run n = some x) (hle : n ≤ n') :
    p.run n' = some x := by
  cases p with
  | done _ _ => exact h
  | next _ => exact State.run_mono h hle

/-- A machine that comes to the end of a run has an outcome. -/
theorem Leads.run (h : p.Leads (.done s' r)) : ∃ n, p.run n = some (s', r) := by
  generalize hq : Step.done s' r = q at h
  induction h with
  | refl _ => exact ⟨0, hq ▸ rfl⟩
  | @next s _ _ ih =>
      obtain ⟨n, hn⟩ := ih hq
      exact ⟨n + 1, (run_succ s n).trans hn⟩

/-- A machine that goes on has no outcome before. -/
theorem Lasts.run (h : p.Lasts (n + 1)) : p.run n = none := by
  induction n generalizing p with
  | zero =>
      obtain ⟨s, rfl, -⟩ := h
      rfl
  | succ n ih =>
      obtain ⟨s, rfl, h⟩ := h
      exact (run_succ s n).trans (ih h)

end Step

/-- A call runs the function that it enters. -/
theorem call_eq (m : ClassLang.Machine) (n : Nat) (budget : Budget) (fn : Graph.Func)
    (args : List Value) : m.call n budget fn args =
      ((State.enter { machine := m, budget } fn args none).run n).map fun e =>
        ⟨e.1.machine, e.1.out, e.2⟩ := by
  rw [ClassLang.Machine.call, ClassLang.Machine.callWithin, State.push, State.enter]
  by_cases hfull : (m.maxDepth : Int) ≤ 0
  · rw [if_pos hfull, if_pos hfull]
    rfl
  · rw [if_neg hfull, if_neg hfull]
    exact Option.map_map ..

theorem call_unique {m : ClassLang.Machine} {n n' : Nat} {budget : Budget} {fn : Graph.Func}
    {args : List Value} {run run' : Run} (h : m.call n budget fn args = some run)
    (h' : m.call n' budget fn args = some run') : run = run' := by
  rw [call_eq] at h h'
  obtain ⟨e, he, rfl⟩ := Option.map_eq_some_iff.1 h
  obtain ⟨e', he', rfl⟩ := Option.map_eq_some_iff.1 h'
  rw [Option.some.inj ((Step.run_mono he (Nat.le_max_left n n')).symm.trans
    (Step.run_mono he' (Nat.le_max_right n n')))]

/-- Where no frame waits the run is over. -/
theorem State.resume_idle {s : State} {r : Except Failure Value} (h : s.stack = []) :
    s.resume none r = .done s r := by
  cases r with
  | ok x => simp only [State.resume, State.deliver, h, Step.settled]
  | error e => simp only [State.resume, h, State.unwind]

/-- What a call by name and the call on the machine come to is the same: the objects, what host
functions have kept, what has been printed, and the value or the failure. -/
structure Run.Agrees (K : Terms) (σ : Marks) (w : World) (r : Except Failure Value) (run : Run) :
    Prop where
  machine : MachineOk K σ run.machine
  mirrors : w.Mirrors σ run.machine
  out : run.out = w.out
  result : run.result = r

end Machine

/-- Lowering preserves meaning. Where a machine holds an accepted text, host functions that keep to
the types, and objects that are those of a world by name, a call with arguments of the types that
the function declares comes to the same outcome by name, for some number of rounds, and on the
machine, in some number of steps: the same is printed, and there is the same value or the same
failure at the same position. So it returns on the machine just if it returns by name. -/
theorem lowering_preserves_meaning {name : String} {bytes : List UInt8} {limit : Option Nat}
    {typed : Typed.File} (hparse : (parseFile name bytes).reports = [])
    (hcheck : (parseFile name bytes).file.check limit = .ok typed) (hlimit : limit ≠ some 0)
    (hlength : bytes.length < 2 ^ 63)
    (hobjects : ∀ l ∈ (Layouts.build typed.table).classes, l.size < 2 ^ 63)
    {K : Machine.Terms} (hunit : K.unit = typed) (hstable : K.Stable)
    (hbudget : ∀ b, K.budget b → b = none) {σ : Machine.Marks} {m : Machine} {g : Typed.Func}
    {b : Typed.Block} {ps : List TypeParam} {as : List Ty} {args : List Machine.Value}
    (hentry : Machine.Entry K σ m g b ps as args) {w : Direct.World} (hw : w.Mirrors σ m)
    (hout : w.out = "") :
    let fn := Graph.Func.ofTyped (Layouts.build typed.table) g b
    (∀ rounds w' r, Direct.call typed m.maxDepth rounds 0 w g.ref args = some (w', r) →
      ∃ steps run σ', m.call steps none fn args = some run ∧ σ.Le σ' ∧ run.Agrees K σ' w' r) ∧
    ∀ steps run, m.call steps none fn args = some run →
      ∃ rounds w' r σ', Direct.call typed m.maxDepth rounds 0 w g.ref args = some (w', r) ∧
        σ.Le σ' ∧ run.Agrees K σ' w' r := by
  subst hunit
  intro fn
  have hu := checked_ok hparse hcheck hlimit
  have hsized := checked_sized hparse hcheck hlimit hlength hobjects
  let s : Machine.State := { machine := m, budget := none }
  have hbeside : s.Beside K σ w := ⟨hentry.machine, hw, hout, rfl⟩
  have hmeets : ∀ rounds, Machine.Meets K (g.header.sig.result.subst ps as) rounds σ s.level none
      (s.enter fn args none) (Direct.call K.unit m.maxDepth rounds 0 w g.ref args) := fun rounds =>
    Machine.serves_call hu hsized hstable hbudget rounds 0 m.maxDepth none hbeside rfl rfl
      hentry.binds hentry.ground hentry.body hentry.args
  -- the outcome by name is that of the machine, whose frames are all gone then
  have hforth : ∀ rounds w' r, Direct.call K.unit m.maxDepth rounds 0 w g.ref args = some (w', r) →
      ∃ steps run σ', m.call steps none fn args = some run ∧ σ.Le σ' ∧ run.Agrees K σ' w' r := by
    intro rounds w' r hcall
    have hends := hmeets rounds
    rw [hcall] at hends
    cases hends with
    | @ends σ' s' _ _ le beside level result leads =>
        have hidle : s'.stack = [] := congrArg Machine.Level.stack level
        rw [Machine.State.resume_idle hidle] at leads
        obtain ⟨steps, hrun⟩ := leads.run
        refine ⟨steps, ⟨s'.machine, s'.out, r⟩, σ', ?_, le, beside.machine, beside.mirrors,
          beside.out.symm, rfl⟩
        rw [Machine.call_eq, hrun]
        rfl
  refine ⟨hforth, fun steps run hrun => ?_⟩
  have hends := hmeets (steps + 1)
  cases hcall : Direct.call K.unit m.maxDepth (steps + 1) 0 w g.ref args with
  | none =>
      rw [hcall] at hends
      cases hends with
      | lasts h =>
          rw [Machine.call_eq, h.run] at hrun
          cases hrun
  | some e =>
      obtain ⟨w', r⟩ := e
      obtain ⟨steps', run', σ', hrun', hle, hagrees⟩ := hforth _ w' r hcall
      obtain rfl := Machine.call_unique hrun hrun'
      exact ⟨steps + 1, w', r, σ', hcall, hle, hagrees⟩

/-- A call of the function of the text prints its argument and returns a field of an object, by name
as on the machine. -/
theorem boxText_means : ∃ (typed : Typed.File) (g : Typed.Func) (b : Typed.Block),
    (parseFile "t" boxText).file.check none = .ok typed ∧
    (∃ rounds w' r, Direct.call typed 10000 rounds 0 {} g.ref [.int 5] = some (w', r) ∧
      w'.out = "5\n" ∧ r.toOption = some (.int 2)) ∧
    ∀ rounds w' r, Direct.call typed 10000 rounds 0 {} g.ref [.int 5] = some (w', r) →
      ∃ steps run, (boxMachine typed).call steps none
        (Graph.Func.ofTyped (Layouts.build typed.table) g b) [.int 5] = some run ∧
        run.out = w'.out ∧ run.result = r := by
  obtain ⟨typed, g, b, hparse, hcheck, hlength, hsizes, hentry, -, hrun⟩ := boxText_entry
  have hmirrors : Direct.World.Mirrors (fun _ => none) (boxMachine typed) {} :=
    ⟨rfl, by simp [boxMachine], rfl, rfl⟩
  obtain ⟨hforth, hback⟩ := lowering_preserves_meaning hparse hcheck (by simp) hlength hsizes
    (K := ⟨typed, fun _ _ => True, (· = none)⟩) rfl (fun _ _ _ _ _ => trivial) (fun _ h => h)
    (hentry _ rfl trivial) hmirrors rfl
  refine ⟨typed, g, b, hcheck, ?_, fun rounds w' r hcall => ?_⟩
  · obtain ⟨run, hcall, hends⟩ := Option.map_eq_some_iff.1 (Prod.mk.inj hrun).1
    obtain ⟨hout, hresult⟩ := Prod.mk.inj hends
    obtain ⟨rounds, w', r, σ', hdirect, -, hagrees⟩ := hback 40 run hcall
    exact ⟨rounds, w', r, hdirect, hagrees.out ▸ hout, hagrees.result ▸ hresult⟩
  · obtain ⟨steps, run, σ', hcall, -, hagrees⟩ := hforth rounds w' r hcall
    exact ⟨steps, run, hcall, hagrees.out, hagrees.result⟩

end ClassLang
