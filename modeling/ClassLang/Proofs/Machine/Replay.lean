import ClassLang.Proofs.Machine.Depth
import ClassLang.Proofs.Machine.Limits

/-!
The same call under different budgets and limits of depth. A run under one of them can be
replayed under another until it meets the other limit, and what it prints before a limit stops
it is printed under every larger one too.
-/

namespace ClassLang.Machine

/-! Budgets -/

namespace Budget

/-- The budget is enough for `n` blocks. -/
def Affords (b : Budget) (n : Nat) : Prop := ∀ k, b = some k → n ≤ k

/-- What is left of the budget after `n` blocks. -/
def after (b : Budget) (n : Nat) : Budget := b.map (· - n)

variable {b : Budget} {m n : Nat}

theorem after_zero (b : Budget) : b.after 0 = b := by
  cases b <;> rfl

theorem after_after (b : Budget) (m n : Nat) : (b.after m).after n = b.after (m + n) := by
  cases b with
  | none => rfl
  | some k => simp [after, Nat.sub_sub]

theorem Affords.mono (h : b.Affords n) (hle : m ≤ n) : b.Affords m :=
  fun k hk => Nat.le_trans hle (h k hk)

/-- A budget that is enough for one more block is not used up. -/
theorem Affords.after_ne (h : b.Affords (n + 1)) : b.after n ≠ some 0 := by
  cases b with
  | none => simp [after]
  | some k =>
      have hlt := h k rfl
      simp only [after, Option.map_some, ne_eq, Option.some.injEq]
      omega

theorem Affords.of_after (h : b.Affords n) (hne : b.after n ≠ some 0) : b.Affords (n + 1) := by
  rintro k rfl
  have hle := h k rfl
  simp only [after, Option.map_some, ne_eq, Option.some.injEq] at hne
  omega

end Budget

/-! Runs -/

namespace State

variable {s t u : State} {n k : Nat} {b : Budget} {d : Nat} {r : Except Failure Value}

/-- A run from the state `s` that comes to another state after it has entered `n` blocks. -/
inductive Enters (s : State) : Nat → State → Prop
  | start : Enters s 0 s
  | next {n : Nat} {t u : State} (before : Enters s n t) (advance : t.advance = .next u) :
      Enters s (n + t.asks.toNat) u

namespace Enters

theorem head (hst : s.advance = .next t) (h : t.Enters n u) : s.Enters (s.asks.toNat + n) u := by
  induction h with
  | start => simpa using Enters.next .start hst
  | next _ advance ih => exact Nat.add_assoc _ _ _ ▸ ih.next advance

theorem of_run {fuel : Nat} {last : State} (h : s.run fuel = some (last, r)) :
    ∃ n t, s.Enters n t ∧ t.advance = .done last r := by
  induction fuel generalizing s with
  | zero => cases h
  | succ fuel ih =>
      unfold State.run at h
      cases hadvance : s.advance <;> rw [hadvance] at h
      case next u =>
        obtain ⟨n, t, henters, hlast⟩ := ih h
        exact ⟨_, t, henters.head hadvance, hlast⟩
      case done last r =>
        cases h
        exact ⟨0, s, .start, hadvance⟩

/-- A run that comes by a state ends as it does from there. -/
theorem run (h : s.Enters n t) {x : State × Except Failure Value}
    (ht : ∃ least, ∀ fuel, least ≤ fuel → t.run fuel = some x) :
    ∃ least, ∀ fuel, least ≤ fuel → s.run fuel = some x := by
  induction h with
  | start => exact ht
  | @next n t u _ advance ih =>
      obtain ⟨least, hleast⟩ := ht
      refine ih ⟨least + 1, fun fuel hfuel => ?_⟩
      obtain ⟨fuel, rfl⟩ := Nat.exists_eq_add_of_le' (Nat.le_of_add_left_le hfuel)
      unfold State.run
      rw [advance]
      exact hleast fuel (Nat.le_of_succ_le_succ hfuel)

/-- A run that is over has gone on from each state that it came by. -/
theorem rest {fuel : Nat} {x : State × Except Failure Value} (h : s.Enters n t)
    (hrun : s.run fuel = some x) : ∃ fuel, t.run fuel = some x := by
  induction h with
  | start => exact ⟨fuel, hrun⟩
  | next _ advance ih =>
      obtain ⟨fuel, ht⟩ := ih
      cases fuel with
      | zero => cases ht
      | succ fuel =>
          unfold State.run at ht
          rw [advance] at ht
          exact ⟨fuel, ht⟩

/-- What has been printed stays printed. -/
theorem before (h : s.Enters n t) : s.Before t := by
  induction h with
  | start => exact .refl s
  | next _ advance ih => exact ih.trans (before_of_advance advance)

theorem counted {base : Int} (h : s.Enters n t) (hs : s.Counted base) : t.Counted base := by
  induction h with
  | start => exact hs
  | next _ advance ih => exact ih.advance advance

/-- The budget pays for the blocks that are entered. -/
theorem spent (h : s.Enters n t) (hs : s.Quiet) :
    t.Quiet ∧ t.budget = s.budget.after n ∧ s.budget.Affords n := by
  induction h with
  | start => exact ⟨hs, (Budget.after_zero _).symm, fun _ _ => Nat.zero_le _⟩
  | @next n t u _ advance ih =>
      obtain ⟨hquiet, hbudget, hafford⟩ := ih
      have hprogress := hquiet.progress (Move.of_step (hquiet.step_of_advance advance))
      refine ⟨hprogress.quiet, ?_, ?_⟩
      · rw [hprogress.spent, hbudget]
        exact Budget.after_after _ _ _
      · cases hasks : t.asks with
        | false => exact hafford
        | true => exact hafford.of_after (hbudget ▸ hprogress.asked hasks)

end Enters

theorem Quiet.limited (h : s.Quiet) (b : Budget) (d : Nat) : (s.limited b d).Quiet :=
  ⟨h.hosts, h.frames⟩

theorem Quiet.advance_limited {b' : Budget} (h : s.Quiet)
    (hstep : (s.limited b d).step = s.step.limited b' d) :
    (s.limited b d).advance = s.advance.limited b' d := by
  cases hs : s.step with
  | next t =>
      rw [hs] at hstep
      rw [advance_of_step hs, advance_of_step hstep]
      rfl
  | done t r =>
      rw [hs] at hstep
      cases r with
      | ok x =>
          rw [advance_of_value hs, advance_of_value hstep]
          rfl
      | error e =>
          rw [h.advance_of_failure hs, (h.limited b d).advance_of_failure hstep]
          rfl

/-- Where the run is about to start a function, its step is to start it. -/
theorem Calls.step {fn : Graph.Func} (h : s.Calls fn) : ∃ args, s.step = s.push fn args none := by
  obtain ⟨f, rest, v, x, todo, ref, args, hdoes, hfn⟩ := h
  refine ⟨args, ?_⟩
  unfold State.step
  rw [hdoes.stack]
  dsimp only
  rw [hdoes.at_.todo]
  dsimp only
  rw [hdoes.at_.instr]
  dsimp only
  rw [hdoes.action]
  unfold perform call
  dsimp only
  rw [hfn]

/-- A function that is started finds room. -/
theorem Calls.room {fn : Graph.Func} (h : s.Calls fn) (hstep : s.step = .next t) :
    s.depth < s.machine.maxDepth := by
  obtain ⟨args, hpush⟩ := h.step
  rw [hstep, push_eq] at hpush
  split at hpush
  next => cases hpush
  next hroom => exact Int.not_le.1 hroom

theorem Calls.limited {fn : Graph.Func} (h : s.Calls fn) (b : Budget) (d : Nat) :
    (s.limited b d).Calls fn := by
  obtain ⟨f, rest, v, x, todo, ref, args, hdoes, hfn⟩ := h
  exact ⟨f, rest, v, x, todo, ref, args, ⟨hdoes.stack, hdoes.at_, hdoes.action⟩, hfn⟩

/-- A place of a run where it would be too deep under the limit `d`. -/
structure TooDeep (s : State) (b : Budget) (d : Nat) (u : State) (k : Nat) : Prop where
  there : s.Enters k u
  replayed : (s.limited b d).Enters k (u.limited (b.after k) d)
  calls : ∃ fn, u.Calls fn
  full : d ≤ u.depth
  room : u.depth < s.machine.maxDepth

/-- A run can be replayed under another budget that is large enough and another limit of depth, to
its end or to where it would be too deep. -/
theorem Enters.replay (h : s.Enters n t) (hs : s.Quiet) (hb : b.Affords n) :
    (s.limited b d).Enters n (t.limited (b.after n) d) ∨
      ∃ k u, s.TooDeep b d u k ∧ u.Before t := by
  induction h with
  | start =>
      rw [Budget.after_zero]
      exact Or.inl .start
  | @next n t u before advance ih =>
      have hquiet := (before.spent hs).1
      have hstep := hquiet.step_of_advance advance
      have hprogress := hquiet.progress (Move.of_step hstep)
      rcases ih (hb.mono (Nat.le_add_right _ _)) with ih | ⟨k, v, hdeep, hbefore⟩
      · by_cases hfull : (∃ fn, t.Calls fn) ∧ (d : Int) ≤ t.depth
        · obtain ⟨⟨fn, hcalls⟩, hfull⟩ := hfull
          have hroom := hcalls.room hstep
          rw [before.before.maxDepth] at hroom
          exact Or.inr ⟨n, t, ⟨before, ih, ⟨fn, hcalls⟩, hfull, hroom⟩, before_of_advance advance⟩
        · have hlimited : (t.limited (b.after n) d).step =
              t.step.limited ((b.after n).map (· - t.asks.toNat)) d := by
            refine step_limited hquiet (fun hasks => ?_) fun fn hcalls => ?_
            · rw [hasks] at hb
              exact iff_of_false (hprogress.asked hasks) hb.after_ne
            · exact Or.inr ⟨hcalls.room hstep, Int.not_le.1 fun hle => hfull ⟨⟨fn, hcalls⟩, hle⟩⟩
          have hadvance := hquiet.advance_limited hlimited
          rw [advance] at hadvance
          have hnext := ih.next hadvance
          rw [show (b.after n).map (· - t.asks.toNat) = b.after (n + t.asks.toNat)
            from Budget.after_after _ _ _] at hnext
          exact Or.inl hnext
      · exact Or.inr ⟨k, v, hdeep, hbefore.trans (before_of_advance advance)⟩

/-- Under a limit of depth that is no smaller, a run can be replayed to its end. -/
theorem Enters.replay_of_le (h : s.Enters n t) (hs : s.Quiet) (hb : b.Affords n)
    (hd : s.machine.maxDepth ≤ d) : (s.limited b d).Enters n (t.limited (b.after n) d) := by
  rcases h.replay hs hb (d := d) with h | ⟨k, u, hdeep, -⟩
  · exact h
  · have hroom := hdeep.room
    have hfull := hdeep.full
    omega

theorem run_mono {fuel fuel' : Nat} {x : State × Except Failure Value}
    (h : s.run fuel = some x) (hle : fuel ≤ fuel') : s.run fuel' = some x := by
  induction fuel generalizing s fuel' with
  | zero => cases h
  | succ fuel ih =>
      obtain ⟨fuel', rfl⟩ := Nat.exists_eq_add_of_le' (Nat.le_of_add_left_le hle)
      unfold State.run at h ⊢
      cases hadvance : s.advance <;> rw [hadvance] at h
      case next t => exact ih h (Nat.le_of_succ_le_succ hle)
      case done t r => exact h

end State

/-! Calls -/

/-- A call that comes to an end with the outcome `r`. -/
def Finishes (m : ClassLang.Machine) (b : Budget) (fn : Graph.Func) (args : List Value)
    (r : Run) : Prop :=
  ∃ least, ∀ fuel, least ≤ fuel → m.call fuel b fn args = some r

/-- A state of a call in which `n` blocks have been entered. -/
def Entered (m : ClassLang.Machine) (b : Budget) (fn : Graph.Func) (args : List Value) (n : Nat)
    (s : State) : Prop :=
  ∃ start, State.push { machine := m, budget := b } fn args none = .next start ∧ start.Enters n s

/-- What a run leaves behind that has ended in a state. -/
def Run.ofState (s : State) (r : Except Failure Value) : Run := ⟨s.machine, s.out, r⟩

/-- The same with another limit of depth. -/
def Run.deepened (r : Run) (d : Nat) : Run := { r with machine := { r.machine with maxDepth := d } }

theorem Run.ofState_limited (s : State) (b : Budget) (d : Nat) (r : Except Failure Value) :
    Run.ofState (s.limited b d) r = (Run.ofState s r).deepened d := rfl

theorem Run.deepened_self {s : State} {r : Except Failure Value} {d : Nat}
    (h : s.machine.maxDepth = d) : (Run.ofState s r).deepened d = .ofState s r := by
  subst h
  rfl

section

variable {m : ClassLang.Machine} {b : Budget} {fn : Graph.Func} {args : List Value}

/-- The state at the start of a call. -/
def begun (m : ClassLang.Machine) (b : Budget) (fn : Graph.Func) (args : List Value) : State :=
  { machine := m, budget := b, stack := [.start fn args none], depth := 1 }

theorem begun_quiet (hm : m.Quiet) : (begun m b fn args).Quiet :=
  ⟨hm, fun f hf => by obtain rfl := List.mem_singleton.1 hf; rfl⟩

theorem begun_counted (hroom : 0 < m.maxDepth) : (begun m b fn args).Counted 0 :=
  ⟨rfl, Int.ofNat_le.2 hroom⟩

theorem push_begun (hroom : 0 < m.maxDepth) :
    State.push { machine := m, budget := b } fn args none = .next (begun m b fn args) :=
  if_neg (Int.not_le.2 (Int.natCast_pos.2 hroom))

theorem call_begun (hroom : 0 < m.maxDepth) (fuel : Nat) :
    m.call fuel b fn args = ((begun m b fn args).run fuel).map fun x => .ofState x.1 x.2 := by
  unfold Machine.call Machine.callWithin
  dsimp only
  rw [push_begun hroom]
  exact Option.map_map ..

theorem call_refused (hfull : m.maxDepth = 0) (fuel : Nat) :
    m.call fuel b fn args =
      some ⟨m, "", .error (.runtime fn.name Pos.none (.tooDeep m.maxDepth))⟩ := by
  have hpush : State.push { machine := m, budget := b } fn args none =
      .done { machine := m, budget := b } (.error (.runtime fn.name Pos.none (.tooDeep m.maxDepth))) :=
    if_pos (by simp [hfull])
  unfold Machine.call Machine.callWithin
  dsimp only
  rw [hpush]
  rfl

theorem entered_iff (hroom : 0 < m.maxDepth) {n : Nat} {s : State} :
    Entered m b fn args n s ↔ (begun m b fn args).Enters n s := by
  constructor
  · rintro ⟨start, hpush, henters⟩
    rw [push_begun hroom] at hpush
    cases hpush
    exact henters
  · exact fun henters => ⟨_, push_begun hroom, henters⟩

theorem not_entered (hfull : m.maxDepth = 0) {n : Nat} {s : State} :
    ¬ Entered m b fn args n s := by
  rintro ⟨start, hpush, -⟩
  rw [State.push_eq, if_pos (by simp [hfull])] at hpush
  cases hpush

theorem Finishes.unique {r r' : Run} (h : Finishes m b fn args r) (h' : Finishes m b fn args r') :
    r = r' := by
  obtain ⟨least, hleast⟩ := h
  obtain ⟨least', hleast'⟩ := h'
  have hr := hleast (max least least') (Nat.le_max_left _ _)
  have hr' := hleast' (max least least') (Nat.le_max_right _ _)
  exact Option.some.inj (hr.symm.trans hr')

theorem Finishes.of_call {fuel : Nat} {r : Run} (h : m.call fuel b fn args = some r) :
    Finishes m b fn args r := by
  refine ⟨fuel, fun fuel' hle => ?_⟩
  rcases Nat.eq_zero_or_pos m.maxDepth with hfull | hroom
  · rw [call_refused hfull] at h ⊢
    exact h
  · rw [call_begun hroom] at h ⊢
    obtain ⟨x, hrun, hx⟩ := Option.map_eq_some_iff.1 h
    rw [State.run_mono hrun hle, Option.map_some, hx]

/-- A call ends with the last state of its run. -/
theorem finishes_of_enters (hroom : 0 < m.maxDepth) {n : Nat} {s last : State}
    {r : Except Failure Value} (h : (begun m b fn args).Enters n s)
    (hlast : s.advance = .done last r) : Finishes m b fn args (.ofState last r) := by
  obtain ⟨least, hleast⟩ := h.run (x := (last, r)) ⟨1, fun fuel hfuel => by
    obtain ⟨fuel, rfl⟩ := Nat.exists_eq_add_of_le' hfuel
    unfold State.run
    rw [hlast]⟩
  exact ⟨least, fun fuel hfuel => by rw [call_begun hroom, hleast fuel hfuel]; rfl⟩

theorem Finishes.exists_last (hroom : 0 < m.maxDepth) {r : Run} (h : Finishes m b fn args r) :
    ∃ n s last x, (begun m b fn args).Enters n s ∧ s.advance = .done last x ∧
      r = .ofState last x := by
  obtain ⟨least, hleast⟩ := h
  have hcall := hleast least (Nat.le_refl _)
  rw [call_begun hroom] at hcall
  obtain ⟨⟨last, x⟩, hrun, hr⟩ := Option.map_eq_some_iff.1 hcall
  obtain ⟨n, s, henters, hlast⟩ := State.Enters.of_run hrun
  exact ⟨n, s, last, x, henters, hlast, hr.symm⟩

/-- What is printed up to a state of a run is printed when it is over. -/
theorem Finishes.out_of_enters (hroom : 0 < m.maxDepth) {r : Run} (h : Finishes m b fn args r)
    {n : Nat} {s : State} (hs : (begun m b fn args).Enters n s) :
    ∃ text, r.out = s.out ++ text := by
  obtain ⟨least, hleast⟩ := h
  have hcall := hleast least (Nat.le_refl _)
  rw [call_begun hroom] at hcall
  obtain ⟨⟨last, x⟩, hrun, rfl⟩ := Option.map_eq_some_iff.1 hcall
  obtain ⟨fuel, hrest⟩ := hs.rest hrun
  exact (State.before_of_run hrest).out

end

/-! Cancellation -/

/-- Where a run with nothing left of its budget is about to enter a block, it is cancelled. -/
theorem State.Quiet.cancelled {s : State} (h : s.Quiet) (hasks : s.asks = true)
    (hbudget : s.budget = some 0) : s.advance = .done s.dropped (.error .cancelled) := by
  refine h.advance_of_failure ?_
  unfold State.step
  cases hstack : s.stack with
  | nil => simp [State.asks, hstack] at hasks
  | cons f rest =>
      dsimp only
      cases htodo : f.todo with
      | none =>
          dsimp only
          unfold State.enterBlock
          rw [if_pos hbudget]
          rfl
      | some todo =>
          rw [State.asks_of_todo hstack htodo] at hasks
          cases hasks

section

variable {m : ClassLang.Machine} {b : Budget} {fn : Graph.Func} {args : List Value} {n : Nat}
  (hm : m.Quiet) (hroom : 0 < m.maxDepth)

include hm hroom

/-- Where a run under some budget asks for one block more than `n`, a call with the budget `n` is
cancelled. -/
theorem cancelled_of_asks {s : State} (h : (begun m b fn args).Enters n s)
    (hasks : s.asks = true) : Finishes m (some n) fn args
      (.ofState (s.limited (some 0) m.maxDepth).dropped (.error .cancelled)) := by
  have hafford : Budget.Affords (some n) n := fun k hk => Nat.le_of_eq (Option.some.inj hk)
  have hafter : Budget.after (some n) n = some 0 := by simp [Budget.after]
  have hreplay := h.replay_of_le (begun_quiet hm) hafford (Nat.le_refl m.maxDepth)
  rw [hafter] at hreplay
  have hquiet := (h.spent (begun_quiet hm)).1
  exact finishes_of_enters hroom hreplay ((hquiet.limited _ _).cancelled hasks rfl)

/-- Where a run with the budget `n` ends and does not ask for one block more, it ends so under
every budget that is not smaller. -/
theorem finishes_of_last {k : Nat} {s last : State} {x : Except Failure Value}
    (h : (begun m (some n) fn args).Enters k s) (hlast : s.advance = .done last x)
    (hb : b.Affords n) (hk : s.asks = true → k < n) :
    Finishes m b fn args (.ofState last x) := by
  obtain ⟨hquiet, hbudget, hafford⟩ := h.spent (begun_quiet hm)
  have hreplay := h.replay_of_le (begun_quiet hm) (hb.mono (hafford n rfl)) (Nat.le_refl m.maxDepth)
  have hstep : (s.limited (b.after k) m.maxDepth).step =
      s.step.limited ((b.after k).map (· - s.asks.toNat)) m.maxDepth := by
    refine State.step_limited hquiet (fun hasks => iff_of_false ?_ ?_) fun fn _ => Or.inl ?_
    · have hmore : Budget.Affords (some n) (k + 1) := fun j hj => Option.some.inj hj ▸ hk hasks
      rw [hbudget]
      exact hmore.after_ne
    · exact (hb.mono (hk hasks)).after_ne
    · exact h.before.maxDepth.symm
  have hadvance := hquiet.advance_limited hstep
  rw [hlast] at hadvance
  have hends := finishes_of_enters hroom hreplay hadvance
  have hlimit : last.machine.maxDepth = m.maxDepth :=
    (h.before.trans (State.before_of_done hlast)).maxDepth
  rwa [Run.ofState_limited, Run.deepened_self hlimit] at hends

end

/-- With the host functions that every machine starts with, a budget bounds every run. The call
ends, and no more blocks are entered than the budget allows, over all activations. If a run of
the call comes to ask whether it may enter one block more, under this budget or any that is not
smaller, the call is cancelled, with what had been printed then; if it does not, the call ends as
it does under the other budget. What is printed is the beginning of what is printed there. -/
theorem budget_bounds_call (m : ClassLang.Machine) (hhosts : m.hosts = Host.standard)
    (fn : Graph.Func) (args : List Value) (n : Nat) :
    ∃ r, Finishes m (some n) fn args r ∧
      (∀ k s, Entered m (some n) fn args k s → k ≤ n) ∧
      ∀ b : Budget, b.Affords n →
        (∀ s, Entered m b fn args n s → s.asks = true →
          r.result = .error .cancelled ∧ r.out = s.out) ∧
        ((∀ s, Entered m b fn args n s → s.asks = false) → Finishes m b fn args r) ∧
        ∀ r', Finishes m b fn args r' → ∃ text, r'.out = r.out ++ text := by
  have hm : m.Quiet := standard_quiet hhosts
  rcases Nat.eq_zero_or_pos m.maxDepth with hfull | hroom
  · have hrefused : ∀ b, Finishes m b fn args _ := fun b => ⟨0, fun fuel _ => call_refused hfull fuel⟩
    refine ⟨_, hrefused _, fun k s hs => (not_entered hfull hs).elim, fun b _ => ⟨?_, ?_, ?_⟩⟩
    · exact fun s hs => (not_entered hfull hs).elim
    · exact fun _ => hrefused b
    · intro r' hr'
      obtain rfl := hr'.unique (hrefused b)
      exact ⟨"", by simp⟩
  · have hquiet : (begun m (some n) fn args).Quiet := begun_quiet hm
    obtain ⟨fuel, ⟨last, x⟩, hrun⟩ := hquiet.ends rfl
    obtain ⟨k, t, henters, hlast⟩ := State.Enters.of_run hrun
    have hends := finishes_of_enters hroom henters hlast
    refine ⟨_, hends, fun k s hs => ?_, fun b hb => ?_⟩
    · obtain ⟨-, -, hafford⟩ := ((entered_iff hroom).1 hs).spent (begun_quiet hm)
      exact hafford n rfl
    have hcancelled : ∀ s, Entered m b fn args n s → s.asks = true →
        (Run.ofState last x).result = .error .cancelled ∧ (Run.ofState last x).out = s.out := by
      intro s hs hasks
      rw [hends.unique (cancelled_of_asks hm hroom ((entered_iff hroom).1 hs) hasks)]
      exact ⟨rfl, rfl⟩
    have hsame : (∀ s, Entered m b fn args n s → s.asks = false) →
        Finishes m b fn args (.ofState last x) := by
      intro hnever
      obtain ⟨-, -, hafford⟩ := henters.spent (begun_quiet hm)
      have hkn : k ≤ n := hafford n rfl
      refine finishes_of_last hm hroom henters hlast hb fun hasks => ?_
      refine Nat.lt_of_le_of_ne hkn fun heq => ?_
      have hreplay := henters.replay_of_le (begun_quiet hm) (hb.mono hkn) (Nat.le_refl m.maxDepth)
      subst heq
      have hno := hnever _ ((entered_iff hroom).2 hreplay)
      rw [show (t.limited (b.after k) m.maxDepth).asks = t.asks from rfl, hasks] at hno
      cases hno
    refine ⟨hcancelled, hsame, fun r' hr' => ?_⟩
    by_cases hex : ∃ s, Entered m b fn args n s ∧ s.asks = true
    · obtain ⟨s, hs, hasks⟩ := hex
      rw [(hcancelled s hs hasks).2]
      exact hr'.out_of_enters hroom ((entered_iff hroom).1 hs)
    · have hnever : ∀ s, Entered m b fn args n s → s.asks = false := fun s hs =>
        Bool.eq_false_iff.2 fun hasks => hex ⟨s, hs, hasks⟩
      obtain rfl := hr'.unique (hsame hnever)
      exact ⟨"", by simp⟩

/-- A function that prints a line in every round of a loop. -/
def ticker : Graph.Func :=
  { name := "f"
    order := [0]
    blocks := #[{ id := 0, succs := [0], preds := [0], values := [0, 1] }]
    instrs := #[
      { id := 0, op := .constString, aux := some (.text "tick"), block := 0 },
      { id := 1, op := .callDirect, args := [some 0], aux := some (.callee (.host "println")),
        block := 0 }] }

/-- Two rounds of it. -/
theorem ticker_cancelled : ∃ r, Finishes { program := ⟨default, [], [ticker]⟩ } (some 2) ticker [] r ∧
    r.result = .error .cancelled ∧ r.out = "tick\ntick\n" ∧
    ∀ r', Finishes { program := ⟨default, [], [ticker]⟩ } (some 3) ticker [] r' →
      ∃ text, r'.out = r.out ++ text := by
  obtain ⟨r, hends, -, hlarger⟩ :=
    budget_bounds_call { program := ⟨default, [], [ticker]⟩ } rfl ticker [] 2
  have hcall := Finishes.of_call (show Machine.call { program := ⟨default, [], [ticker]⟩ } 20 (some 2)
    ticker [] = some _ from rfl)
  obtain rfl := hends.unique hcall
  refine ⟨_, hends, rfl, rfl, (hlarger (some 3) ?_).2.2⟩
  rintro k hk
  obtain rfl := Option.some.inj hk
  decide

/-! Depth -/

/-- The failure says that a call was too deep. -/
def Failure.IsTooDeep (e : Failure) : Prop := ∃ func pos limit, e = .runtime func pos (.tooDeep limit)

theorem Failure.not_tooDeep_host (text : String) : ¬ (Failure.host text).IsTooDeep := by
  rintro ⟨_, _, _, h⟩
  cases h

theorem Failure.not_tooDeep_crash (c : Crash) : ¬ (Failure.crash c).IsTooDeep := by
  rintro ⟨_, _, _, h⟩
  cases h

/-- A host function that makes no calls fails with its own message or stops the machine. -/
theorem State.answer_failure {s t : State} {r : Reply} {e : Failure} (hr : r.Quiet)
    (h : s.answer none r = .done t (.error e)) : ¬ e.IsTooDeep := by
  induction r generalizing s with
  | value x =>
      unfold State.answer State.deliver at h
      split at h
      · cases h
      · split at h
        · cases h
        · cases h
          exact Failure.not_tooDeep_crash _
  | fail text =>
      cases h
      exact Failure.not_tooDeep_host text
  | pass | crash =>
      cases h
      exact Failure.not_tooDeep_crash _
  | print text next ih => exact ih (s := { s with out := s.out ++ text }) hr h
  | look ref next ih =>
      unfold State.answer at h
      split at h
      · exact ih _ (hr _) h
      · cases h
        exact Failure.not_tooDeep_crash _
  | change ref o next ih => exact ih (s := s.modifyHeap (·.setIfInBounds ref o)) hr h
  | create o next ih => exact ih (s := s.modifyHeap (·.push o)) _ (hr _) h
  | kept next ih => exact ih _ (hr _) h
  | keep memory next ih => exact ih (s := { s with machine := { s.machine with memory } }) hr h
  | bind name respond next _ ih =>
      exact ih (s := { s with machine := s.machine.bind name ⟨respond⟩ }) hr.2 h
  | call => exact hr.elim

theorem edgeValues_failure {f : Frame} {b : Graph.Block} {vs : List Nat} {e : Failure}
    (h : State.edgeValues f b vs = .error e) : ¬ e.IsTooDeep := by
  induction vs with
  | nil => cases h
  | cons i vs ih =>
      unfold State.edgeValues at h
      split at h
      · cases h
      next v _ =>
        split at h
        · split at h
          · cases h
            rintro ⟨_, _, _, h⟩
            cases h
          next k _ =>
            have hoperand := operand_ends f v k
            cases hx : f.operand v k <;> rw [hx] at h hoperand
            case error e' =>
              cases h
              rintro ⟨_, _, _, rfl⟩
              cases hoperand
            case ok x =>
              cases hxs : State.edgeValues f b vs <;> rw [hxs] at h
              case error e' =>
                cases h
                exact ih hxs
              case ok xs => cases h
        · cases h

/-- Where host functions make no calls, a step fails for the depth of a call only where it is about
to start a function and there is no room. -/
theorem Stop.full {s t : State} {e : Failure} (hs : s.Quiet) (h : Stop s t (.error e))
    (he : e.IsTooDeep) :
    ∃ fn, s.Calls fn ∧ s.machine.maxDepth ≤ s.depth ∧ t = s ∧ e = s.tooDeep fn := by
  cases h with
  | @tooDeep f rest v x todo ref args fn does found full =>
      exact ⟨fn, ⟨f, rest, v, x, todo, ref, args, does, found⟩, full, rfl, rfl⟩
  | edge _ _ _ _ edge => exact absurd he (edgeValues_failure edge)
  | action _ _ action =>
      obtain ⟨_, _, _, rfl⟩ := he
      cases (action_ends _ _ _).error action
  | host _ _ found answer => exact absurd he (State.answer_failure (hs.hosts.lookup found _) answer)
  | resume stack _ _ outer _ =>
      have hnone := hs.frames _ (by rw [stack]; exact List.mem_cons_self)
      rw [outer] at hnone
      cases hnone
  | _ =>
      obtain ⟨_, _, _, he⟩ := he
      cases he

section

variable {m : ClassLang.Machine} {b : Budget} {fn : Graph.Func} {args : List Value} {n : Nat}
  (hm : m.Quiet) (hroom : 0 < m.maxDepth)

include hm hroom

/-- A call ends where a function is about to be started and there is no room. -/
theorem tooDeep_of_calls {s : State} {g : Graph.Func} (h : (begun m b fn args).Enters n s)
    (hcalls : s.Calls g) (hfull : m.maxDepth ≤ s.depth) :
    Finishes m b fn args (.ofState s (.error (.runtime g.name Pos.none (.tooDeep m.maxDepth)))) := by
  have hlimit : s.machine.maxDepth = m.maxDepth := h.before.maxDepth
  obtain ⟨args, hpush⟩ := hcalls.step
  have hstep : s.step = .done s (.error (s.tooDeep g)) := by
    rw [hpush, State.push_eq, if_pos (by rwa [hlimit])]
    rfl
  have hquiet := (h.spent (begun_quiet hm)).1
  have hends := finishes_of_enters hroom h (hquiet.advance_of_failure hstep)
  rwa [State.tooDeep, hlimit] at hends

/-- Where a call ends for the depth of a call, as many calls are under way as the limit allows and
one more is about to be started. -/
theorem calls_of_tooDeep {r : Run} {e : Failure} (h : Finishes m b fn args r)
    (hr : r.result = .error e) (he : e.IsTooDeep) : ∃ n s g, (begun m b fn args).Enters n s ∧
      s.Calls g ∧ s.depth = m.maxDepth ∧ r.out = s.out := by
  obtain ⟨n, s, last, x, henters, hlast, rfl⟩ := h.exists_last hroom
  obtain rfl : x = .error e := hr
  have hquiet := (henters.spent (begun_quiet hm)).1
  have hcounted := henters.counted (begun_counted hroom)
  cases hstep : s.step with
  | next t =>
      rw [State.advance_of_step hstep] at hlast
      cases hlast
  | done t y =>
      cases y with
      | ok y =>
          rw [State.advance_of_value hstep] at hlast
          cases hlast
      | error e' =>
          rw [hquiet.advance_of_failure hstep] at hlast
          cases hlast
          obtain ⟨g, hcalls, hfull, rfl, -⟩ := (Stop.of_step hstep).full hquiet he
          exact ⟨n, t, g, henters, hcalls, by
            have hdepth := hcounted.depth
            have hlimit : t.machine.maxDepth = m.maxDepth := henters.before.maxDepth
            omega, rfl⟩

variable {d : Nat} (hle : m.maxDepth ≤ d)

include hle

/-- A call that does not end for the depth of a call ends alike under every larger limit. -/
theorem finishes_deeper {r : Run} (h : Finishes m b fn args r)
    (hr : ∀ e, r.result = .error e → ¬ e.IsTooDeep) :
    Finishes { m with maxDepth := d } b fn args (r.deepened d) := by
  obtain ⟨n, s, last, x, henters, hlast, rfl⟩ := h.exists_last hroom
  obtain ⟨hquiet, hbudget, hafford⟩ := henters.spent (begun_quiet hm)
  have hreplay := henters.replay_of_le (begun_quiet hm) hafford hle
  have hlimit : s.machine.maxDepth = m.maxDepth := henters.before.maxDepth
  have hroomThere : ∀ g, s.Calls g → s.depth < s.machine.maxDepth := by
    intro g hcalls
    refine Int.not_le.1 fun hfull => ?_
    have hends := tooDeep_of_calls hm hroom henters hcalls (by omega)
    have hsame := hends.unique (finishes_of_enters hroom henters hlast)
    exact hr _ (congrArg Run.result hsame).symm ⟨_, _, _, rfl⟩
  have hstep : (s.limited (b.after n) d).step =
      s.step.limited ((b.after n).map (· - s.asks.toNat)) d := by
    refine State.step_limited hquiet (fun _ => by rw [hbudget]; rfl) fun g hcalls => Or.inr ?_
    have hlt := hroomThere g hcalls
    exact ⟨hlt, by omega⟩
  have hadvance := hquiet.advance_limited hstep
  rw [hlast] at hadvance
  exact finishes_of_enters (m := { m with maxDepth := d }) (Nat.lt_of_lt_of_le hroom hle) hreplay
    hadvance

omit hroom in
/-- A run that comes by a state does so under every larger limit. -/
theorem enters_deeper {s : State} (h : (begun m b fn args).Enters n s) :
    (begun { m with maxDepth := d } b fn args).Enters n (s.limited (b.after n) d) :=
  h.replay_of_le (begun_quiet hm) (h.spent (begun_quiet hm)).2.2 hle

omit hle in
/-- Where under some limit one call more is under way than `m` allows, `m` has been about to start
it and had no room. -/
theorem calls_of_deeper {s : State} (h : (begun { m with maxDepth := d } b fn args).Enters n s)
    (hs : s.depth = m.maxDepth + 1) : ∃ k u g, (begun m b fn args).Enters k u ∧ u.Calls g ∧
      m.maxDepth ≤ u.depth ∧ ∃ text, s.out = u.out ++ text := by
  have hquiet : (begun { m with maxDepth := d } b fn args).Quiet := begun_quiet hm
  rcases h.replay hquiet (h.spent hquiet).2.2 (d := m.maxDepth) with h | ⟨k, u, hdeep, hbefore⟩
  · have hdepth := (h.counted (begun_counted hroom)).depth
    have hle : s.depth ≤ m.maxDepth := hdepth
    omega
  · obtain ⟨g, hcalls⟩ := hdeep.calls
    exact ⟨k, _, g, hdeep.replayed, hcalls.limited _ _, hdeep.full, hbefore.out⟩

end

/-- Where host functions make no calls, a larger limit of depth never changes a call that ends
otherwise: result, output and heap are the same under it. A call ends for its depth exactly where as
many activations are under way as the limit allows and one more is about to start, or, which is
the same, where under a larger limit one more comes to be under way. What has been printed until then
is the beginning of what is printed under the larger limit. -/
theorem larger_limit_keeps_calls (m : ClassLang.Machine) (hm : m.Quiet) (hd : 1 ≤ m.maxDepth)
    (b : Budget) (fn : Graph.Func) (args : List Value) {d : Nat} (hle : m.maxDepth ≤ d) :
    (∀ r, Finishes m b fn args r → (∀ e, r.result = .error e → ¬ e.IsTooDeep) →
      Finishes { m with maxDepth := d } b fn args (r.deepened d)) ∧
    (∀ n s g, Entered m b fn args n s → s.Calls g → s.depth = m.maxDepth →
      Finishes m b fn args
        ⟨s.machine, s.out, .error (.runtime g.name Pos.none (.tooDeep m.maxDepth))⟩) ∧
    (∀ r e, Finishes m b fn args r → r.result = .error e → e.IsTooDeep →
      ∃ n s g, Entered m b fn args n s ∧ s.Calls g ∧ s.depth = m.maxDepth ∧ r.out = s.out) ∧
    (m.maxDepth < d →
      ((∃ r e, Finishes m b fn args r ∧ r.result = .error e ∧ e.IsTooDeep) ↔
        ∃ n s, Entered { m with maxDepth := d } b fn args n s ∧ s.depth = m.maxDepth + 1)) ∧
    ∀ r, Finishes m b fn args r →
      (∀ n s, Entered { m with maxDepth := d } b fn args n s → s.depth = m.maxDepth + 1 →
        ∃ text, s.out = r.out ++ text) ∧
      ∀ r', Finishes { m with maxDepth := d } b fn args r' → ∃ text, r'.out = r.out ++ text := by
  have hroom' : 0 < ({ m with maxDepth := d } : ClassLang.Machine).maxDepth := Nat.lt_of_lt_of_le hd hle
  have hfull : ∀ n s g, Entered m b fn args n s → s.Calls g → s.depth = m.maxDepth →
      Finishes m b fn args
        ⟨s.machine, s.out, .error (.runtime g.name Pos.none (.tooDeep m.maxDepth))⟩ :=
    fun n s g hs hcalls hdepth =>
      tooDeep_of_calls hm hd ((entered_iff hd).1 hs) hcalls (Int.le_of_eq hdepth.symm)
  have hdeep : ∀ n s, Entered { m with maxDepth := d } b fn args n s → s.depth = m.maxDepth + 1 →
      ∃ r e, Finishes m b fn args r ∧ r.result = .error e ∧ e.IsTooDeep ∧
        ∃ text, s.out = r.out ++ text := by
    intro n s hs hdepth
    obtain ⟨k, u, g, hu, hcalls, hge, hout⟩ := calls_of_deeper hm hd ((entered_iff hroom').1 hs) hdepth
    exact ⟨_, _, tooDeep_of_calls hm hd hu hcalls hge, rfl, ⟨_, _, _, rfl⟩, hout⟩
  refine ⟨fun r hr he => finishes_deeper hm hd hle hr he, hfull, ?_, fun hlt => ⟨?_, ?_⟩, ?_⟩
  · intro r e hr hresult he
    obtain ⟨n, s, g, hs, hrest⟩ := calls_of_tooDeep hm hd hr hresult he
    exact ⟨n, s, g, (entered_iff hd).2 hs, hrest⟩
  · rintro ⟨r, e, hr, hresult, he⟩
    obtain ⟨n, s, g, hs, hcalls, hdepth, -⟩ := calls_of_tooDeep hm hd hr hresult he
    obtain ⟨args', hpush⟩ := (hcalls.limited (b.after n) d).step
    have hstarts : (s.limited (b.after n) d).step = .next ((s.limited (b.after n) d).started g args' none) := by
      rw [hpush, State.push_eq, if_neg]
      change ¬ (d : Int) ≤ s.depth
      omega
    refine ⟨_, _, (entered_iff hroom').2 ((enters_deeper hm hle hs).next
      (State.advance_of_step hstarts)), ?_⟩
    change s.depth + 1 = _
    rw [hdepth]
  · rintro ⟨n, s, hs, hdepth⟩
    obtain ⟨r, e, hr, hresult, he, -⟩ := hdeep n s hs hdepth
    exact ⟨r, e, hr, hresult, he⟩
  · intro r hr
    refine ⟨fun n s hs hdepth => ?_, fun r' hr' => ?_⟩
    · obtain ⟨r', e, hr', -, -, hout⟩ := hdeep n s hs hdepth
      rwa [hr.unique hr']
    · by_cases htoo : ∃ e, r.result = .error e ∧ e.IsTooDeep
      · obtain ⟨e, hresult, he⟩ := htoo
        obtain ⟨n, s, g, hs, -, -, hout⟩ := calls_of_tooDeep hm hd hr hresult he
        have hdeeper := hr'.out_of_enters hroom' (enters_deeper hm hle hs)
        rwa [hout]
      · have hsame := finishes_deeper hm hd hle hr fun e hresult he => htoo ⟨e, hresult, he⟩
        obtain rfl := hr'.unique hsame
        exact ⟨"", by simp [Run.deepened]⟩

/-- A function that prints a line and calls itself. -/
def diver : Graph.Func :=
  { name := "f"
    ref := some (.func "f")
    order := [0]
    blocks := #[{ id := 0, succs := [], preds := [], values := [0, 1, 2] }]
    instrs := #[
      { id := 0, op := .constString, aux := some (.text "down"), block := 0 },
      { id := 1, op := .callDirect, args := [some 0], aux := some (.callee (.host "println")),
        block := 0 },
      { id := 2, op := .callDirect, aux := some (.callee (.func (.func "f"))), block := 0 }] }

/-- Two activations of it, the third has no room. -/
theorem diver_refused : ∃ r, Finishes { program := ⟨default, [], [diver]⟩, maxDepth := 2 } none diver [] r ∧
    (∃ e, r.result = .error e ∧ e.IsTooDeep) ∧ r.out = "down\ndown\n" ∧
    (∃ n s, Entered { program := ⟨default, [], [diver]⟩, maxDepth := 5 } none diver [] n s ∧
      s.depth = 3) ∧
    ∀ r', Finishes { program := ⟨default, [], [diver]⟩, maxDepth := 5 } none diver [] r' →
      ∃ text, r'.out = r.out ++ text := by
  obtain ⟨-, -, -, hiff, hbegins⟩ :=
    larger_limit_keeps_calls { program := ⟨default, [], [diver]⟩, maxDepth := 2 }
      (standard_quiet rfl) (by decide) none diver [] (d := 5) (by decide)
  have hcall := Finishes.of_call (show Machine.call
    { program := ⟨default, [], [diver]⟩, maxDepth := 2 } 20 none diver [] = some _ from rfl)
  have hdeeper := (hiff (by decide)).1 ⟨_, _, hcall, rfl, _, _, _, rfl⟩
  exact ⟨_, hcall, ⟨_, rfl, _, _, _, rfl⟩, rfl, hdeeper, (hbegins _ hcall).2⟩

end ClassLang.Machine
