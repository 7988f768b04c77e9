import ClassLang.Proofs.Machine.Step

/-!
The number of calls under way. Every step keeps it between what it was before the run and its
limit, and a run that is over has brought it back, however it ended.
-/

namespace ClassLang.Machine

/-- A state of a run before which `n` calls were under way, where now there are no more than the
limit allows. -/
structure State.Counted (n : Int) (s : State) : Prop where
  base : s.base = n
  depth : s.depth ≤ s.machine.maxDepth

namespace State.Counted

variable {n : Int} {s t : State} {f g : Frame} {rest : List Frame}

theorem alters (h : s.Counted n) (halters : s.Alters t) : t.Counted n :=
  ⟨halters.base.trans h.base, by rw [halters.depth, halters.maxDepth]; exact h.depth⟩

theorem withTop (h : s.Counted n) (hstack : s.stack = f :: rest) (g : Frame) :
    (s.withTop g rest).Counted n where
  base := by
    have hbase := h.base
    simp only [State.base, hstack, List.length_cons] at hbase
    exact hbase
  depth := h.depth

theorem modifyHeap (h : s.Counted n) (k : Array Object → Array Object) :
    (s.modifyHeap k).Counted n := ⟨h.base, h.depth⟩

theorem charged (h : s.Counted n) : s.charged.Counted n := ⟨h.base, h.depth⟩

theorem left (h : s.Counted n) (hstack : s.stack = f :: rest) (budget : Option Budget) :
    (s.left rest budget).Counted n where
  base := by
    have hbase := h.base
    simp only [State.base, hstack, List.length_cons, State.left] at hbase ⊢
    omega
  depth := by
    have hdepth := h.depth
    simp only [State.left]
    omega

theorem started (h : s.Counted n) (hroom : s.depth < s.machine.maxDepth) (fn : Graph.Func)
    (args : List Value) (outer : Option Waiting) : (s.started fn args outer).Counted n where
  base := by
    have hbase := h.base
    simp only [State.base, State.started, List.length_cons] at hbase ⊢
    omega
  depth := hroom

theorem serves (h : s.Counted n) (hserves : s.Serves t) : t.Counted n := by
  cases hserves with
  | value alters stack _ => exact (h.alters alters).withTop (alters.stack.trans stack) _
  | @call u _ _ budget _ alters room =>
      have hu := h.alters alters
      have hgranted : ({ u with budget } : State).Counted n := ⟨hu.base, hu.depth⟩
      exact hgranted.started (by simpa [alters.depth, alters.maxDepth] using room) _ _ _

theorem move (h : s.Counted n) (hmove : Move s t) : t.Counted n := by
  cases hmove with
  | enter stack => exact h.charged.withTop stack _
  | jump stack => exact h.withTop stack _
  | back stack => exact (h.left stack none).withTop rfl _
  | resume stack _ _ _ answer => exact (h.left stack _).serves (serves_of_answer answer)
  | give does | newSlot does | store does => exact h.withTop does.stack _
  | allocate does | setField does | setDispatch does => exact (h.modifyHeap _).withTop does.stack _
  | call _ _ room => exact h.started room _ _ _
  | host _ _ _ answer => exact h.serves (serves_of_answer answer)

theorem stop {r : Except Failure Value} (h : s.Counted n) (hstop : Stop s t r) : t.Counted n := by
  cases hstop with
  | finish stack | noCaller stack => exact h.left stack none
  | edge | noBlock => exact h.charged
  | host _ _ _ answer => exact h.alters (quits_of_answer answer).alters
  | resume stack _ _ _ answer => exact (h.left stack _).alters (quits_of_answer answer).alters
  | _ => exact h

theorem caught {e : Failure} (hcaught : Caught s e t) (h : s.Counted n) : t.Counted n := by
  induction hcaught with
  | here stack _ answer => exact (h.left stack _).serves (serves_of_answer answer)
  | again stack _ answer _ ih =>
      exact ih ((h.left stack _).alters (quits_of_answer answer).alters)
  | past stack _ _ ih => exact ih (h.left stack none)

theorem uncaught {e : Failure} {r : Except Failure Value} (huncaught : Uncaught s e t r)
    (h : s.Counted n) : t.Counted n := by
  induction huncaught with
  | bottom => exact h
  | value stack _ answer => exact (h.left stack _).alters (quits_of_answer answer).alters
  | again stack _ answer _ ih =>
      exact ih ((h.left stack _).alters (quits_of_answer answer).alters)
  | past stack _ _ ih => exact ih (h.left stack none)

/-- One step keeps the count. -/
theorem advance (h : s.Counted n) (hnext : s.advance = .next t) : t.Counted n := by
  cases Goes.of_advance hnext with
  | move move => exact h.move move
  | failed stop caught => exact Counted.caught caught (h.stop stop)

theorem ends {r : Except Failure Value} (h : s.Counted n) (hover : Over s t r) : t.Counted n := by
  cases hover with
  | value stop => exact h.stop stop
  | failed stop uncaught => exact Counted.uncaught uncaught (h.stop stop)

/-- There are no fewer calls under way than before the run. -/
theorem le_depth (h : s.Counted n) : n ≤ s.depth := by
  have hbase := h.base
  unfold State.base at hbase
  omega

end State.Counted

theorem Uncaught.stack {s t : State} {e : Failure} {r : Except Failure Value}
    (h : Uncaught s e t r) : t.stack = [] := by
  induction h with
  | bottom stack => exact stack
  | value _ _ answer => exact (State.quits_of_answer answer).alters.stack
  | again _ _ _ _ ih | past _ _ _ ih => exact ih

/-- A run that is over has left no frames. -/
theorem Over.stack {s t : State} {r : Except Failure Value} (h : Over s t r) : t.stack = [] := by
  cases h with
  | failed _ uncaught => exact uncaught.stack
  | value stop =>
      cases stop with
      | idle stack => exact stack
      | finish => rfl
      | host _ _ _ answer | resume _ _ _ _ answer =>
          cases State.quits_of_answer answer with
          | value alters idle => exact alters.stack.trans idle

/-- A run ends with as many calls under way as there were before it. -/
theorem State.Counted.run {n : Int} {s last : State} {r : Except Failure Value} {fuel : Nat}
    (h : s.Counted n) (hrun : s.run fuel = some (last, r)) : last.depth = n := by
  induction fuel generalizing s with
  | zero => cases hrun
  | succ fuel ih =>
      unfold State.run at hrun
      cases hstep : s.advance <;> rw [hstep] at hrun
      case next t => exact ih (h.advance hstep) hrun
      case done t r =>
        cases hrun
        have hover := Over.of_advance hstep
        have hbase := (h.ends hover).base
        simpa [State.base, hover.stack] using hbase

end ClassLang.Machine
