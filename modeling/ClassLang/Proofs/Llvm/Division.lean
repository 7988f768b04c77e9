import ClassLang.Machine.Action
import ClassLang.Proofs.Llvm.Semantics

/-!
Divisions. What is written for a division ends the program exactly if the divisor is zero. No
division that is undefined is reached, and the result is that of the language: quotients are
truncated, and the least integer divided by minus one is itself, with the remainder zero.
-/

namespace ClassLang.Llvm

variable {c : Context} {s : Writer} {f : Frame} {x y : Operand} {k j : Nat}
  {strcmp : Comparison}

/-! Bit vectors -/

theorem sdiv_minusOne (a : BitVec 64) : a.sdiv (-1) = 0 - a := by
  apply BitVec.eq_of_toInt_eq
  rw [BitVec.toInt_sdiv, BitVec.toInt_sub]
  simp

theorem srem_minusOne (a : BitVec 64) : a.srem (-1) = 0 := by
  apply BitVec.eq_of_toInt_eq
  rw [BitVec.toInt_srem]
  simp

/-- The divisor that takes the place of `b`. -/
def safeDivisor (b : BitVec 64) : BitVec 64 := if b = -1 then 1 else b

/-- No division by it is undefined. -/
theorem safeDivisor_defined (a : BitVec 64) {b : BitVec 64} (hb : b ≠ 0) :
    (safeDivisor b = 0 || overflows a (safeDivisor b)) = false := by
  unfold safeDivisor overflows
  by_cases h : b = -1
  · rw [if_pos h]
    cases decide (a = BitVec.intMin 64) <;> rfl
  · rw [if_neg h]
    have h' : ¬b = 18446744073709551615#64 := h
    simpa [h'] using hb

/-! The instructions of a quotient and of a remainder -/

/-- The instructions that divide `x` by `y`, the first of which has the number `n`. -/
def quotientInstrs (n : Nat) (x y : Operand) : List Instr :=
  [.icmp .eq y (.word (-1)), .select (.result n .i1) (.word 1) y,
    .binary .sdiv x (.result (n + 1) .i64), .binary .sub (.word 0) x,
    .select (.result n .i1) (.result (n + 3) .i64) (.result (n + 2) x.type)]

/-- The instructions for the remainder of `x` by `y`, the first of which has the number `n`. -/
def remainderInstrs (n : Nat) (x y : Operand) : List Instr :=
  [.icmp .eq y (.word (-1)), .select (.result n .i1) (.word 1) y,
    .binary .srem x (.result (n + 1) .i64),
    .select (.result n .i1) (.word 0) (.result (n + 2) x.type)]

theorem icmp_run (pred : IntPred) {width : Nat} (h : x.type = .int width) :
    (Write.icmp pred x y).run s = .ok (.result s.next .i1, s.emitted (.icmp pred x y)) := by
  unfold Write.icmp
  rw [h]
  rfl

theorem quotient_run (hy : y.type = .i64) : (Write.quotient x y).run s =
    .ok (.result (s.next + 4) .i64, s.emits (quotientInstrs s.next x y)) := by
  unfold Write.quotient
  rw [StateT.run_bind, icmp_run .eq hy]
  rfl

theorem remainder_run (hy : y.type = .i64) : (Write.remainder x y).run s =
    .ok (.result (s.next + 3) .i64, s.emits (remainderInstrs s.next x y)) := by
  unfold Write.remainder
  rw [StateT.run_bind, icmp_run .eq hy]
  rfl

section

variable {a b : BitVec 64} {n : Nat}

theorem effect_icmp {pred : IntPred} (hx : f.eval x = some (.int64 a)) (hy : f.eval y = some (.int64 b)) :
    (Instr.icmp pred x y).effect strcmp f = .give (some (.bool (pred.holds a b))) := by
  simp only [Instr.effect, hx, hy]

theorem effect_binary {op : BinaryOp} (hx : f.eval x = some (.int64 a))
    (hy : f.eval y = some (.int64 b)) : (Instr.binary op x y).effect strcmp f = op.onWords a b := by
  simp only [Instr.effect, hx, hy]

theorem effect_select {cond : Operand} {t : Bool} (h : f.eval cond = some (.bool t)) :
    (Instr.select cond x y).effect strcmp f = .give (if t then f.eval x else f.eval y) := by
  simp only [Instr.effect, h]

variable (strcmp)

/-- The first two instructions replace a divisor of minus one. -/
theorem through_safe (hy : f.eval y = some (.int64 b)) (hyold : Frame.Older y n) (is : List Instr) :
    ∃ f', f.through strcmp n (.icmp .eq y (.word (-1)) :: .select (.result n .i1) (.word 1) y :: is) =
        f'.through strcmp (n + 2) is ∧ f.Grows f' n ∧
      f'.eval (.result n .i1) = some (.bool (decide (b = -1))) ∧
      f'.eval (.result (n + 1) .i64) = some (.int64 (safeDivisor b)) := by
  have hcond := f.eval_given n (some (.bool (decide (b = -1)))) .i1
  have hy₁ := (Frame.eval_give (d := some (.bool (decide (b = -1)))) hyold (Nat.le_refl n)).trans hy
  have hgrows := ((Frame.Grows.refl f n).give (Nat.le_refl n) (some (.bool (decide (b = -1))))).give
    (Nat.le_succ n) (some (.int64 (safeDivisor b)))
  refine ⟨_, ?_, hgrows, ?_, Frame.eval_given ..⟩
  · rw [Frame.through_cons (effect_icmp hy rfl)]
    refine Frame.through_cons ((effect_select hcond).trans ?_)
    rw [hy₁]
    unfold safeDivisor
    by_cases h : b = -1
    · rw [if_pos h, decide_eq_true h]
      rfl
    · rw [if_neg h, decide_eq_false h]
      rfl
  · rw [Frame.eval_give (Frame.older_result (Nat.lt_succ_self n) _) (Nat.le_refl _)]
    exact hcond

/-- The instructions of a quotient give the quotient. -/
theorem through_quotient (hx : f.eval x = some (.int64 a)) (hy : f.eval y = some (.int64 b))
    (hxold : Frame.Older x n) (hyold : Frame.Older y n) (hb : b ≠ 0) :
    ∃ f', f.through strcmp n (quotientInstrs n x y) = some f' ∧ f.Grows f' n ∧
      f'.eval (.result (n + 4) .i64) = some (.int64 (a.sdiv b)) := by
  obtain ⟨g, hsafe, hgrows, hcond, hdivisor⟩ := through_safe strcmp hy hyold
    [.binary .sdiv x (.result (n + 1) .i64), .binary .sub (.word 0) x,
      .select (.result n .i1) (.result (n + 3) .i64) (.result (n + 2) x.type)]
  have hdiv : (Instr.binary .sdiv x (.result (n + 1) .i64)).effect strcmp g =
      .give (some (.int64 (a.sdiv (safeDivisor b)))) := by
    rw [effect_binary ((hgrows.eval x hxold).trans hx) hdivisor, BinaryOp.onWords,
      safeDivisor_defined a hb]
    rfl
  have hgrows₁ := hgrows.give (Nat.le_add_right n 2) (some (.int64 (a.sdiv (safeDivisor b))))
  have hsub : (Instr.binary .sub (.word 0) x).effect strcmp
      (g.give (n + 2) (some (.int64 (a.sdiv (safeDivisor b))))) = .give (some (.int64 (0 - a))) :=
    effect_binary (Frame.eval_word _ 0) ((hgrows₁.eval x hxold).trans hx)
  have hgrows₂ := hgrows₁.give (Nat.le_add_right n 3) (some (.int64 (0 - a)))
  have hcond₂ : (((g.give (n + 2) (some (.int64 (a.sdiv (safeDivisor b))))).give (n + 3)
      (some (.int64 (0 - a)))).eval (.result n .i1)) = some (.bool (decide (b = -1))) := by
    rw [Frame.eval_other (by omega), Frame.eval_other (by omega), hcond]
  refine ⟨_, ?_, hgrows₂.give (Nat.le_add_right n 4) (some (.int64 (a.sdiv b))),
    Frame.eval_given ..⟩
  rw [quotientInstrs, hsafe, Frame.through_cons hdiv, Frame.through_cons hsub]
  refine (Frame.through_cons ((effect_select hcond₂).trans ?_)).trans rfl
  rw [Frame.eval_given, Frame.eval_other (by omega), Frame.eval_given]
  unfold safeDivisor
  by_cases h : b = -1
  · rw [if_pos h, decide_eq_true h, h, sdiv_minusOne]
    rfl
  · rw [if_neg h, decide_eq_false h]
    rfl

/-- The instructions of a remainder give the remainder. -/
theorem through_remainder (hx : f.eval x = some (.int64 a)) (hy : f.eval y = some (.int64 b))
    (hxold : Frame.Older x n) (hyold : Frame.Older y n) (hb : b ≠ 0) :
    ∃ f', f.through strcmp n (remainderInstrs n x y) = some f' ∧ f.Grows f' n ∧
      f'.eval (.result (n + 3) .i64) = some (.int64 (a.srem b)) := by
  obtain ⟨g, hsafe, hgrows, hcond, hdivisor⟩ := through_safe strcmp hy hyold
    [.binary .srem x (.result (n + 1) .i64),
      .select (.result n .i1) (.word 0) (.result (n + 2) x.type)]
  have hrem : (Instr.binary .srem x (.result (n + 1) .i64)).effect strcmp g =
      .give (some (.int64 (a.srem (safeDivisor b)))) := by
    rw [effect_binary ((hgrows.eval x hxold).trans hx) hdivisor, BinaryOp.onWords,
      safeDivisor_defined a hb]
    rfl
  have hgrows₁ := hgrows.give (Nat.le_add_right n 2) (some (.int64 (a.srem (safeDivisor b))))
  have hcond₁ : (g.give (n + 2) (some (.int64 (a.srem (safeDivisor b))))).eval (.result n .i1) =
      some (.bool (decide (b = -1))) := by rw [Frame.eval_other (by omega), hcond]
  refine ⟨_, ?_, hgrows₁.give (Nat.le_add_right n 3) (some (.int64 (a.srem b))),
    Frame.eval_given ..⟩
  rw [remainderInstrs, hsafe, Frame.through_cons hrem]
  refine (Frame.through_cons ((effect_select hcond₁).trans ?_)).trans rfl
  rw [Frame.eval_given, Frame.eval_word]
  unfold safeDivisor
  by_cases h : b = -1
  · rw [if_pos h, decide_eq_true h, h, srem_minusOne]
    rfl
  · rw [if_neg h, decide_eq_false h]
    rfl

end

/-! The check of the divisor -/

/-- The message of a division at `pos` that fails. -/
def failureText (pos : Pos) : String :=
  (if pos.isValid then pos.text ++ ": " else "") ++ "integer divide by zero"

/-- The state with one more division, and with the two blocks that belong to it. -/
def Writer.split (s : Writer) : Writer :=
  let counted : Writer := { s with splits := s.splits + 1 }
  (counted.grown s!"divzero.{counted.splits}").grown s!"divok.{counted.splits}"

/-- The state where `y` has been compared with zero. -/
def Writer.asked (s : Writer) (y : Operand) : Writer := s.split.emitted (.icmp .eq y (.word 0))

/-- The state behind the check of the divisor `y` of a division at `pos`. -/
def Writer.checked (s : Writer) (pos : Pos) (y : Operand) : Writer :=
  (s.asked y).divided (.result s.next .i1) s.blocks.size (s.blocks.size + 1) (failureText pos)

theorem checkDivisor_run (pos : Pos) (hy : y.type = .i64) :
    (Write.checkDivisor pos y).run s = .ok ((), s.checked pos y) := by
  have hall : (Write.checkDivisor pos y).run s = (Write.icmp .eq y (.word 0)).run s.split >>=
      fun p => .ok ((), p.2.divided p.1 s.blocks.size
        (({ s with splits := s.splits + 1 } : Writer).grown
          s!"divzero.{s.splits + 1}").blocks.size (failureText pos)) := rfl
  rw [hall, icmp_run .eq hy, Writer.size_grown]
  rfl

namespace Writer

theorem count_closed (t : Terminator) : (s.closed t).body.count k = s.body.count k := by
  unfold Body.count
  rw [getElem?_closed]
  split
  · cases s.body[k]? <;> rfl
  · rfl

theorem count_grown (label : String) : (s.grown label).body.count k = s.body.count k := by
  unfold Body.count
  rw [getElem?_grown]
  split
  next heq =>
    have hnone : s.body[k]? = none := by rw [body, Array.getElem?_toList]; simp [heq]
    rw [hnone]
    rfl
  next => rfl

theorem count_eq_zero (h : s.blocks.size ≤ k) : s.body.count k = 0 := by
  unfold Body.count
  rw [List.getElem?_eq_none (by rwa [length_body])]
  rfl

theorem line?_count (k : Nat) : s.body.line? k (s.body.count k) = none := by
  cases hline : s.body.line? k (s.body.count k) with
  | none => rfl
  | some l => exact absurd (Body.lt_count hline) (Nat.lt_irrefl _)

section

variable {failing ok : Nat} {z : Operand} {text : String}

theorem line?_divided_failing (h : failing < s.blocks.size) :
    (s.divided z failing ok text).body.line? failing (s.body.count failing) =
      some ⟨s.next, .call abort.address [.firstByte (literalSymbol (s.literals.idxOf text))
        (text.utf8ByteSize + 1)]⟩ := by
  have hcount : (((s.closed (.branch z failing ok)).noted text).entered failing).body.count
      failing = s.body.count failing := count_closed _
  unfold divided
  rw [body_entered, line?_closed, line?_emitted (by simpa [entered, noted] using h),
    if_pos ⟨rfl, hcount.symm⟩]
  rfl

theorem terminator?_divided (hcur : s.current < s.blocks.size) (hfailing : failing < s.blocks.size)
    (hne : s.current ≠ failing) :
    (s.divided z failing ok text).body.terminator? s.current = some (.branch z failing ok) := by
  unfold divided
  rw [body_entered, terminator?_closed (by simpa [entered, noted] using hfailing),
    current_emitted, current_entered, if_neg hne, terminator?_emitted, body_entered, body_noted,
    terminator?_closed hcur, if_pos rfl]

theorem size_divided : (s.divided z failing ok text).blocks.size = s.blocks.size := by
  have hinner : (((s.closed (.branch z failing ok)).noted text).entered failing).blocks.size =
      s.blocks.size := size_closed ..
  unfold divided
  change ((Writer.emitted _ _).closed .unreachable).blocks.size = _
  rw [size_closed, size_emitted, hinner]

theorem count_divided (hok : ok ≠ failing) (h : failing < s.blocks.size) :
    (s.divided z failing ok text).body.count ok = s.body.count ok := by
  unfold divided
  rw [body_entered, count_closed, count_emitted (by simpa [entered, noted] using h),
    if_neg (by simpa using hok), body_entered, body_noted, count_closed, Nat.add_zero]

end

/-! Behind the question whether the divisor is zero -/

theorem size_split (s : Writer) : s.split.blocks.size = s.blocks.size + 2 := by
  unfold split
  dsimp only
  rw [size_grown, size_grown]

theorem count_split (s : Writer) : s.split.body.count k = s.body.count k := by
  unfold split
  dsimp only
  rw [count_grown, count_grown]
  rfl

theorem size_asked (s : Writer) (y : Operand) : (s.asked y).blocks.size = s.blocks.size + 2 := by
  rw [asked, size_emitted, size_split]

theorem results_checked (s : Writer) (pos : Pos) (y : Operand) :
    (s.checked pos y).results = s.results := by
  simp only [checked, divided, asked, split, emitted, entered, closed, noted, grown]

theorem split_in_range (h : s.current < s.blocks.size) : s.split.current < s.split.blocks.size := by
  rw [size_split]
  exact Nat.lt_add_right 2 h

theorem count_asked (h : s.current < s.blocks.size) (y : Operand) :
    (s.asked y).body.count k = s.body.count k + if k = s.current then 1 else 0 := by
  rw [asked, count_emitted (split_in_range h), count_split]
  rfl

theorem line?_asked (h : s.current < s.blocks.size) (y : Operand) :
    (s.asked y).body.line? s.current (s.body.count s.current) =
      some ⟨s.next, .icmp .eq y (.word 0)⟩ := by
  rw [asked, line?_emitted (split_in_range h), count_split, if_pos ⟨rfl, rfl⟩]
  rfl

end Writer

/-- What stands in the module behind the check of a divisor, which was written in the state `s`. -/
structure Checked (s : Writer) (pos : Pos) (y : Operand) (t : Writer) : Prop where
  current : t.current = s.blocks.size + 1
  size : t.current < t.blocks.size
  next : t.next = s.next + 2
  results : t.results = s.results
  check : t.body.line? s.current (s.body.count s.current) = some ⟨s.next, .icmp .eq y (.word 0)⟩
  last : t.body.line? s.current (s.body.count s.current + 1) = none
  branch : t.body.terminator? s.current =
    some (.branch (.result s.next .i1) s.blocks.size (s.blocks.size + 1))
  fails : ∃ i, t.literals[i]? = some (failureText pos) ∧
    t.body.line? s.blocks.size 0 = some ⟨s.next + 1,
      .call abort.address [.firstByte (literalSymbol i) ((failureText pos).utf8ByteSize + 1)]⟩
  fresh : t.body.count t.current = 0

theorem checked_writer (hcur : s.current < s.blocks.size) (pos : Pos) (y : Operand) :
    Checked s pos y (s.checked pos y) := by
  have hsize := s.size_asked y
  have hnew : ∀ k, s.blocks.size ≤ k → (s.asked y).body.count k = 0 := by
    intro k hk
    rw [Writer.count_asked hcur, if_neg (by omega), Nat.add_zero]
    exact Writer.count_eq_zero hk
  have hline : ∀ j, (s.checked pos y).body.line? s.current j =
      (s.asked y).body.line? s.current j :=
    fun j => line?_divided (by omega) _ (Nat.ne_of_lt hcur)
  have hcount : (s.asked y).body.count s.current = s.body.count s.current + 1 := by
    rw [Writer.count_asked hcur, if_pos rfl]
  have hlast := Writer.line?_count (s := s.asked y) s.current
  rw [hcount] at hlast
  have hfails : (s.checked pos y).body.line? s.blocks.size
      ((s.asked y).body.count s.blocks.size) = _ := Writer.line?_divided_failing (by omega)
  rw [hnew _ (Nat.le_refl _)] at hfails
  refine ⟨rfl, ?_, rfl, s.results_checked pos y, ?_, (hline _).trans hlast, ?_,
    ⟨_, noted_idxOf (s.asked y) (failureText pos), hfails⟩, ?_⟩
  · rw [Writer.checked, Writer.size_divided, hsize]
    exact Nat.lt_succ_self _
  · rw [hline, Writer.line?_asked hcur]
  · exact Writer.terminator?_divided (s := s.asked y) (by rw [hsize]; exact Nat.lt_add_right 2 hcur)
      (by omega) (Nat.ne_of_lt hcur)
  · exact (Writer.count_divided (by omega) (by omega)).trans (hnew _ (Nat.le_succ _))

/-! Running a division -/

section

variable (strcmp) {pos : Pos} {a b : BitVec 64} {is : List Instr} {t : Writer}
  {arg arg' : Option Nat} {v : Graph.Instr}

/-- How the run through a division at `pos` ends, the instructions of which are `is` behind the
check of the divisor. -/
theorem division_ends (hcur : s.current < s.blocks.size) (ht : Checked s pos y t)
    (hy : f.eval y = some (.int64 b)) (hknows : f.Knows (t.emits is).literals)
    {P : Frame → Prop} (hthrough : b ≠ 0 → ∀ g, f.Grows g s.next →
      ∃ g', g.through strcmp t.next is = some g' ∧ P g') :
    let run := Ends strcmp (t.emits is).body
      ((t.emits is).current, (t.emits is).body.count (t.emits is).current)
      ⟨s.current, s.body.count s.current, f⟩
    (b = 0 → run (.aborts (upToZero (Utf8.encode (failureText pos) ++ [0])))) ∧
      (b ≠ 0 → ∃ g, run (.arrives g) ∧ P g) := by
  have hne : s.current ≠ t.current := by
    rw [ht.current]
    omega
  have hline : ∀ k j, k ≠ t.current → (t.emits is).body.line? k j = t.body.line? k j :=
    fun k j hk => Writer.line?_emits_of_lt ht.size is (Or.inl hk)
  have hzero : f.eval (.word 0) = some (.int64 0) := rfl
  have hcheck := (hline s.current (s.body.count s.current) hne).trans ht.check
  have hbranch : (Config.mk s.current (s.body.count s.current + 1)
      (f.give s.next (some (.bool (decide (b = 0)))))).move strcmp (t.emits is).body =
        .next ⟨if decide (b = 0) then s.blocks.size else s.blocks.size + 1, 0,
          f.give s.next (some (.bool (decide (b = 0))))⟩ := by
    simp only [Config.move, hline _ _ hne, ht.last, Writer.terminator?_emits, ht.branch,
      Frame.eval_given]
  -- the first two moves are the same in both cases
  have hstart : ∀ {e : End}, Ends strcmp (t.emits is).body
      ((t.emits is).current, (t.emits is).body.count (t.emits is).current)
      ⟨if decide (b = 0) then s.blocks.size else s.blocks.size + 1, 0,
        f.give s.next (some (.bool (decide (b = 0))))⟩ e →
      Ends strcmp (t.emits is).body
        ((t.emits is).current, (t.emits is).body.count (t.emits is).current)
        ⟨s.current, s.body.count s.current, f⟩ e := by
    intro e he
    have hstop : ∀ j, (s.current, j) ≠
        ((t.emits is).current, (t.emits is).body.count (t.emits is).current) := by
      intro j h
      rw [Writer.current_emits] at h
      exact hne (Prod.mk.inj h).1
    exact .next (hstop _) (Config.move_give hcheck (effect_icmp hy hzero))
      (.next (hstop _) hbranch he)
  dsimp only
  constructor
  · intro hb
    obtain ⟨i, hi, hfails⟩ := ht.fails
    have hmessage : (f.give s.next (some (.bool (decide (b = 0))))).texts (literalSymbol i) =
        some (Utf8.encode (failureText pos) ++ [0]) :=
      hknows i _ (by rw [Writer.literals_emits]; exact hi)
    refine hstart (.aborts ?_ ?_)
    · intro h
      rw [decide_eq_true hb, if_pos rfl, Writer.current_emits, ht.current] at h
      exact absurd (Prod.mk.inj h).1 (Nat.ne_of_lt (Nat.lt_succ_self _))
    · have hne : s.blocks.size ≠ t.current := by
        rw [ht.current]
        omega
      have hcall := (hline _ 0 hne).trans hfails
      rw [← if_pos (c := decide (b = 0) = true) (t := s.blocks.size) (e := s.blocks.size + 1)
        (decide_eq_true hb)] at hcall
      exact Config.move_abort hcall (effect_abort hmessage _)
  · intro hb
    obtain ⟨g, hg, hP⟩ := hthrough hb _ ((Frame.Grows.refl f s.next).give (Nat.le_refl _)
      (some (.bool (decide (b = 0)))))
    refine ⟨g, hstart ?_, hP⟩
    rw [decide_eq_false hb] at hg ⊢
    rw [if_neg (by simp)]
    have hends := emits_ends ht.size hg
    rwa [ht.fresh, ht.current] at hends

theorem Supplies.mono {d : Datum} (h : Supplies s f arg d x) (hresults : t.results = s.results)
    (hnext : s.next ≤ t.next) : Supplies t f arg d x where
  stored := by
    rw [hresults]
    exact h.stored
  type := h.type
  eval := h.eval
  older m hm := Nat.lt_of_lt_of_le (h.older m hm) hnext

/-- What is written for a division, the last part of which is `finish`. -/
theorem divide_run {finish : Operand → Operand → Write Operand} {z : Operand}
    (hargs : v.args = [arg, arg']) (hcur : s.current < s.blocks.size)
    (hx : Supplies s f arg (.int64 a) x) (hy : Supplies s f arg' (.int64 b) y)
    (hfinish : (finish x y).run (s.checked v.pos y) = .ok (z, (s.checked v.pos y).emits is)) :
    (do
      let y ← Write.argument c v 1
      Write.checkDivisor v.pos y
      return some (← finish (← Write.argument c v 0) y) : Write (Option Operand)).run s =
        .ok (some z, (s.checked v.pos y).emits is) := by
  have ht := checked_writer hcur v.pos y
  have hx' : Supplies (s.checked v.pos y) f arg (.int64 a) x :=
    hx.mono ht.results (by rw [ht.next]; exact Nat.le_add_right ..)
  rw [StateT.run_bind, argument_run (by rw [hargs]; rfl) hy]
  change ((Write.checkDivisor v.pos y >>= fun _ => Write.argument c v 0 >>= fun x =>
    finish x y >>= fun q => pure (some q)) : Write (Option Operand)).run s = _
  rw [StateT.run_bind, checkDivisor_run v.pos hy.type]
  change ((Write.argument c v 0 >>= fun x => finish x y >>= fun q => pure (some q)) :
    Write (Option Operand)).run (s.checked v.pos y) = _
  rw [StateT.run_bind, argument_run (by rw [hargs]; rfl) hx']
  change ((finish x y >>= fun q => pure (some q)) : Write (Option Operand)).run
    (s.checked v.pos y) = _
  rw [StateT.run_bind, hfinish]
  rfl

/-- The two divisions: what is written for them behind the check of the divisor, and the
result. -/
theorem exists_division (hop : v.op = .div64 ∨ v.op = .mod64) (hargs : v.args = [arg, arg'])
    (hcur : s.current < s.blocks.size) (hx : Supplies s f arg (.int64 a) x)
    (hy : Supplies s f arg' (.int64 b) y) :
    ∃ (is : List Instr) (z : Operand),
      (Write.instr c v).run s = .ok (some z, (s.checked v.pos y).emits is) ∧
      (b ≠ 0 → ∀ g, f.Grows g s.next → ∃ g',
        g.through strcmp (s.checked v.pos y).next is = some g' ∧ f.Grows g' s.next ∧
          g'.eval z = some (.int64 (if v.op = .div64 then a.sdiv b else a.srem b))) := by
  have hnext : s.next ≤ (s.checked v.pos y).next := by
    rw [(checked_writer hcur v.pos y).next]
    exact Nat.le_add_right ..
  rcases hop with hop | hop
  · refine ⟨quotientInstrs (s.checked v.pos y).next x y,
      .result ((s.checked v.pos y).next + 4) .i64, ?_, fun hb g hg => ?_⟩
    · unfold Write.instr
      rw [hop]
      exact divide_run hargs hcur hx hy (quotient_run hy.type)
    · obtain ⟨g', hg', hgrows, hz⟩ := through_quotient strcmp
        ((hg.eval x hx.older).trans hx.eval) ((hg.eval y hy.older).trans hy.eval)
        (hx.older.mono hnext) (hy.older.mono hnext) hb
      exact ⟨g', hg', hg.trans hgrows hnext, by rw [hz, if_pos hop]⟩
  · refine ⟨remainderInstrs (s.checked v.pos y).next x y,
      .result ((s.checked v.pos y).next + 3) .i64, ?_, fun hb g hg => ?_⟩
    · unfold Write.instr
      rw [hop]
      exact divide_run hargs hcur hx hy (remainder_run hy.type)
    · obtain ⟨g', hg', hgrows, hz⟩ := through_remainder strcmp
        ((hg.eval x hx.older).trans hx.eval) ((hg.eval y hy.older).trans hy.eval)
        (hx.older.mono hnext) (hy.older.mono hnext) hb
      exact ⟨g', hg', hg.trans hgrows hnext, by rw [hz, hop, if_neg (by decide)]⟩

/-- What is written for a division ends the program exactly if the divisor is zero. Nothing
undefined is reached, and the result is that of the language. -/
theorem division_safe_and_exact (hop : v.op = .div64 ∨ v.op = .mod64) (hargs : v.args = [arg, arg'])
    (hcur : s.current < s.blocks.size) (a b : Int64)
    (hx : Supplies s f arg (.int64 a.toBitVec) x) (hy : Supplies s f arg' (.int64 b.toBitVec) y)
    (hknows : ∀ z t, (Write.instr c v).run s = .ok (z, t) → f.Knows t.literals)
    (frame : Machine.Frame) :
    ∃ z t e, (Write.instr c v).run s = .ok (some z, t) ∧
      (∀ e', Ends strcmp t.body (t.current, t.body.count t.current)
        ⟨s.current, s.body.count s.current, f⟩ e' ↔ e' = e) ∧
      ((∃ message, e = .aborts message) ↔ b = 0) ∧ e ≠ .undefined ∧
      (b = 0 → Machine.intOp frame v a b = frame.fail v .divideByZero ∧
        e = .aborts (upToZero (Utf8.encode (failureText v.pos) ++ [0]))) ∧
      (b ≠ 0 → ∃ r g, Machine.intOp frame v a b = .ok r ∧ e = .arrives g ∧
        f.Grows g s.next ∧ g.eval z = Datum.ofValue? r) := by
  obtain ⟨is, z, hrun, hthrough⟩ := exists_division (c := c) strcmp hop hargs hcur hx hy
  obtain ⟨hzero, hother⟩ := division_ends strcmp hcur (checked_writer hcur v.pos y)
    hy.eval (hknows _ _ hrun) hthrough
  have hb : b.toBitVec = 0 ↔ b = 0 := by
    rw [← Int64.toBitVec_inj]
    rfl
  by_cases h : b = 0
  · have hfail : Machine.intOp frame v a b = frame.fail v .divideByZero := by
      unfold Machine.intOp
      rcases hop with hop | hop <;> rw [hop] <;> exact if_pos h
    exact ⟨z, _, _, hrun, fun e' => (hzero (hb.2 h)).iff_eq, ⟨fun _ => h, fun _ => ⟨_, rfl⟩⟩,
      nofun, fun _ => ⟨hfail, rfl⟩, fun hne => absurd h hne⟩
  · obtain ⟨g, hends, hgrows, hz⟩ := hother fun heq => h (hb.1 heq)
    refine ⟨z, _, _, hrun, fun e' => hends.iff_eq, ⟨nofun, fun heq => absurd heq h⟩, nofun,
      fun heq => absurd heq h, fun _ => ?_⟩
    rcases hop with hop | hop
    · refine ⟨.int (a / b), g, ?_, rfl, hgrows, ?_⟩
      · unfold Machine.intOp
        rw [hop]
        exact if_neg h
      · rw [hz, if_pos hop, Datum.ofValue?, Int64.toBitVec_div]
    · refine ⟨.int (a % b), g, ?_, rfl, hgrows, ?_⟩
      · unfold Machine.intOp
        rw [hop]
        exact if_neg h
      · rw [hz, hop, if_neg (by decide), Datum.ofValue?, Int64.toBitVec_mod]

end

/-- The division of the least integer by minus one. -/
def leastDivision : Graph.Instr := { id := 2, op := .div64, args := [some 0, some 1], block := 0 }

/-- A function without instructions, in whose graph the least integer and minus one come before
the division. -/
def leastWriter : Writer :=
  { blocks := #[{ label := "b0" }]
    results := #[some (.word (-9223372036854775808)), some (.word (-1)), none]
    literals := [] }

/-- An activation of a function of a module with one text, that of a division that fails. -/
def failureFrame : Frame where
  params _ := none
  results _ := none
  texts _ := some (Utf8.encode (failureText Pos.none) ++ [0])

/-- A context in which nothing is declared. -/
def bareContext : Context := ⟨⟨[], []⟩, default, default, []⟩

/-- The least integer divided by minus one is itself. -/
theorem least_by_minusOne : ∃ z t g,
    (Write.instr bareContext leastDivision).run leastWriter = .ok (some z, t) ∧
      Ends (fun _ _ => 0) t.body (t.current, t.body.count t.current) ⟨0, 0, failureFrame⟩
        (.arrives g) ∧ g.eval z = some (.int64 (BitVec.intMin 64)) := by
  have hold : ∀ m, Frame.Older (.word m) 0 := fun _ _ hm => nomatch hm
  have hknows : ∀ z t, (Write.instr bareContext leastDivision).run leastWriter = .ok (z, t) →
      failureFrame.Knows t.literals := by
    intro z t hrun i x hi
    obtain ⟨_, rfl⟩ := Prod.mk.inj (Except.ok.inj hrun.symm)
    have hliterals : ∀ (i : Nat) (x : String),
        [failureText Pos.none][i]? = some x → x = failureText Pos.none := by
      intro i x hi
      exact List.mem_singleton.1 (List.mem_of_getElem? hi)
    rw [hliterals i x hi]
    rfl
  obtain ⟨z, t, e, hrun, hends, _, _, _, harrives⟩ := division_safe_and_exact
    (c := bareContext) (s := leastWriter) (f := failureFrame) (v := leastDivision)
    (fun _ _ => 0) (Or.inl rfl) rfl (by decide) (-9223372036854775808) (-1)
    ⟨⟨0, rfl, rfl⟩, rfl, rfl, hold _⟩ ⟨⟨1, rfl, rfl⟩, rfl, rfl, hold _⟩ hknows default
  obtain ⟨r, g, hr, rfl, _, hz⟩ := harrives (by decide)
  obtain rfl : (.int (-9223372036854775808) : Machine.Value) = r := Except.ok.inj hr
  exact ⟨z, t, g, hrun, (hends _).2 rfl, hz⟩

end ClassLang.Llvm
