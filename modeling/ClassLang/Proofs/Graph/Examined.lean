import ClassLang.Proofs.Graph.Dominators
import ClassLang.Proofs.Graph.Verified

/-!
The examination of a graph ends, whatever is wrong with the graph. It gives no report only
where it asks for the operation of a first operand that is missing; every other operand that
is missing or belongs to another function is reported, and the work on dominators is begun
only for graphs on which its loops end.
-/

namespace ClassLang.Graph

/-! Instructions -/

namespace Instr

/-- An instruction whose first operand has to be a certain operation, with no other fault
that is found before. -/
inductive Asks (v : Instr) : Prop
  | load (op : v.op = .load) (typed : v.type ≠ none) (count : v.args.length = 1)
  | store (op : v.op = .store) (untyped : v.type = none) (count : v.args.length = 2)
  | entry (op : v.op = .dispatchEntry) (typed : v.type ≠ none) (count : v.args.length = 1)
  | call (op : v.op = .callIndirect) (count : 2 ≤ v.args.length)

variable {f : Func} {v : Instr} {n : Nat} {op : Op} {fault : InstrFault} {m : MissingOperand}

theorem firstOp_error_iff (hargs : v.args ≠ []) :
    v.firstOp f = .error m ↔ m = ⟨v.id⟩ ∧ v.args.head? = some none := by
  unfold firstOp
  cases h : v.args with
  | nil => exact absurd h hargs
  | cons arg rest => cases arg <;> simp [eq_comm]

theorem targetFault?_error_iff (hn : n ≠ 0) :
    v.targetFault? f n op fault = .error m ↔
      m = ⟨v.id⟩ ∧ v.args.length = n ∧ v.args.head? = some none := by
  unfold targetFault?
  cases hcount : v.countFault? n with
  | some x =>
      have hne : v.args.length ≠ n := fun h => by simp [countFault?, h] at hcount
      simp [hne]
  | none =>
      have hlength := countFault?_eq_none.1 hcount
      have hargs : v.args ≠ [] := fun h => hn (by simpa [h] using hlength.symm)
      have hfirst := firstOp_error_iff (f := f) (m := m) hargs
      cases hop : v.firstOp f with
      | error m' =>
          rw [hop, Except.error.injEq] at hfirst
          simp only [Bind.bind, Except.bind, Except.error.injEq, hfirst, hlength, true_and]
      | ok found =>
          rw [hop] at hfirst
          simp only [Bind.bind, Except.bind, Pure.pure, Except.pure, hlength, true_and, reduceCtorEq,
            false_iff] at hfirst ⊢
          exact hfirst

theorem operandFault?_error_iff :
    v.operandFault? f = .error m ↔ m = ⟨v.id⟩ ∧ v.args.head? = some none ∧
      (v.op = .load ∧ v.args.length = 1 ∨ v.op = .store ∧ v.args.length = 2 ∨
        v.op = .dispatchEntry ∧ v.args.length = 1 ∨ v.op = .callIndirect ∧ 2 ≤ v.args.length) := by
  unfold operandFault?
  split
  case h_12 hop =>
    rw [targetFault?_error_iff (by decide)]
    simp [hop, and_comm]
  case h_13 hop =>
    rw [targetFault?_error_iff (by decide)]
    simp [hop, and_comm]
  case h_18 hop =>
    have htarget : v.targetFault? f 1 .dispatchTable .entryTable = .error m ↔
        m = ⟨v.id⟩ ∧ v.args.length = 1 ∧ v.args.head? = some none :=
      targetFault?_error_iff (by decide)
    simp only [hop, reduceCtorEq, false_and, true_and, or_false, false_or]
    rw [and_comm (a := v.args.head? = some none), ← htarget]
    cases v.targetFault? f 1 .dispatchTable .entryTable with
    | error m' => simp [Bind.bind, Except.bind]
    | ok fault =>
        simp only [Bind.bind, Except.bind, Pure.pure, Except.pure]
        repeat' split
        all_goals simp
  case h_19 hop =>
    simp only [hop, reduceCtorEq, false_and, true_and, false_or]
    split
    next hfew => simp [Nat.not_le.2 hfew]
    next hmany =>
      have hmany : 2 ≤ v.args.length := Nat.not_lt.1 hmany
      have hargs : v.args ≠ [] := fun h => by simp [h] at hmany
      have hfirst := firstOp_error_iff (f := f) (m := m) hargs
      simp only [hmany, and_true]
      rw [← hfirst]
      cases v.firstOp f <;> simp [Bind.bind, Except.bind, Pure.pure, Except.pure]
  case h_21 hload hstore _ _ _ _ hentry hcall _ =>
    refine iff_of_false (by simp) ?_
    rintro ⟨_, _, ⟨hop, _⟩ | ⟨hop, _⟩ | ⟨hop, _⟩ | ⟨hop, _⟩⟩
    · exact hload hop
    · exact hstore hop
    · exact hentry hop
    · exact hcall hop
  case h_6 hop => split <;> simp [hop]
  all_goals
    rename_i hop
    simp [hop]

/-- The examination of an instruction fails exactly at a first operand that it asks for and
that is missing. -/
theorem fault?_error_iff :
    v.fault? f = .error m ↔ m = ⟨v.id⟩ ∧ v.Asks ∧ v.args.head? = some none := by
  constructor
  · intro h
    unfold fault? at h
    split at h
    next => cases h
    next =>
      split at h
      next => cases h
      next hvoid =>
        split at h
        next => cases h
        next htyped =>
          obtain ⟨hm, hhead, hshape⟩ := operandFault?_error_iff.1 h
          refine ⟨hm, ?_, hhead⟩
          rcases hshape with ⟨hop, hcount⟩ | ⟨hop, hcount⟩ | ⟨hop, hcount⟩ | ⟨hop, hcount⟩
          · exact .load hop (by simpa [hop, Op.isVoid, Op.isCall, Op.isUntyped] using htyped) hcount
          · exact .store hop (by simpa [hop, Op.isVoid] using hvoid) hcount
          · exact .entry hop (by simpa [hop, Op.isVoid, Op.isCall, Op.isUntyped] using htyped) hcount
          · exact .call hop hcount
  · rintro ⟨hm, hasks, hhead⟩
    have hoperand : v.operandFault? f = .error m := by
      rw [operandFault?_error_iff]
      refine ⟨hm, hhead, ?_⟩
      cases hasks with
      | load hop _ hcount => exact Or.inl ⟨hop, hcount⟩
      | store hop _ hcount => exact Or.inr (Or.inl ⟨hop, hcount⟩)
      | entry hop _ hcount => exact Or.inr (Or.inr (Or.inl ⟨hop, hcount⟩))
      | call hop hcount => exact Or.inr (Or.inr (Or.inr ⟨hop, hcount⟩))
    unfold fault?
    cases hasks with
    | load hop htyped _ => simp [hop, Op.isVoid, Op.isCall, Op.isUntyped, htyped, hoperand]
    | store hop huntyped _ => simp [hop, Op.isVoid, Op.isCall, Op.isUntyped, huntyped, hoperand]
    | entry hop htyped _ => simp [hop, Op.isVoid, Op.isCall, Op.isUntyped, htyped, hoperand]
    | call hop _ => simp [hop, Op.isVoid, Op.isCall, hoperand]

end Instr

namespace Func

variable {f : Func} {i : Nat} {xs : List Violation}

/-! Reports that are not given -/

theorem fails_append {ε α : Type} {a b : Except ε (List α)} :
    (∃ m, (do let xs ← a; let ys ← b; return xs ++ ys) = .error m) ↔
      (∃ m, a = .error m) ∨ ∃ m, b = .error m := by
  cases a with
  | error m => simp [Bind.bind, Except.bind]
  | ok xs => cases b <;> simp [Bind.bind, Except.bind, Pure.pure, Except.pure]

/-- Block `b` lists an instruction that asks for a first operand that is missing. -/
def AsksInVain (f : Func) (b : Nat) : Prop :=
  ∃ i ∈ f.values b, ∃ v, f.instr? i = some v ∧ v.Asks ∧ v.args.head? = some none

theorem instrViolations_fails {b v : Nat} {before : Option Nat} :
    (∃ m, f.instrViolations b v before = .error m) ↔
      ∃ x, f.instr? v = some x ∧ x.Asks ∧ x.args.head? = some none := by
  unfold instrViolations
  cases hx : f.instr? v with
  | none => simp
  | some x =>
      have hfault (m : MissingOperand) := Instr.fault?_error_iff (f := f) (v := x) (m := m)
      dsimp only
      cases hfound : x.fault? f with
      | error m =>
          rw [hfound] at hfault
          have hasks := (hfault m).1 rfl
          exact iff_of_true ⟨m, rfl⟩ ⟨x, rfl, hasks.2⟩
      | ok fault =>
          rw [hfound] at hfault
          refine iff_of_false (by simp [Bind.bind, Except.bind, Pure.pure, Except.pure]) ?_
          rintro ⟨y, hy, hasks⟩
          obtain rfl := Option.some.inj hy
          cases (hfault ⟨x.id⟩).2 ⟨rfl, hasks⟩

theorem valueViolations_fails {b : Nat} (before : Option Nat) {vs : List Nat} :
    (∃ m, f.valueViolations b before vs = .error m) ↔
      ∃ i ∈ vs, ∃ v, f.instr? i = some v ∧ v.Asks ∧ v.args.head? = some none := by
  induction vs generalizing before with
  | nil => simp [valueViolations]
  | cons v vs ih =>
      unfold valueViolations
      rw [fails_append, ih, instrViolations_fails, List.exists_mem_cons_iff]

theorem blockViolations_fails {b : Nat} :
    (∃ m, f.blockViolations b = .error m) ↔ f.AsksInVain b := by
  unfold blockViolations AsksInVain values
  cases hb : f.block? b with
  | none => simp
  | some x =>
      dsimp only [Option.map_some, Option.getD_some]
      rw [← valueViolations_fails (b := b) none]
      cases f.valueViolations b none x.values <;>
        simp [Bind.bind, Except.bind, Pure.pure, Except.pure]

theorem shapeViolations_fails {bs : List Nat} :
    (∃ m, f.shapeViolations bs = .error m) ↔ ∃ b ∈ bs, f.AsksInVain b := by
  induction bs with
  | nil => simp [shapeViolations]
  | cons b bs ih =>
      unfold shapeViolations
      rw [fails_append, ih, blockViolations_fails, List.exists_mem_cons_iff]

/-- The examination gives no report exactly where an instruction of a graph with an entry
asks for a first operand that is missing. -/
theorem violations_fails :
    (∃ m, f.violations = .error m) ↔ f.entry ≠ none ∧ ∃ b ∈ f.order, f.AsksInVain b := by
  unfold violations
  split
  next hentry => simp [hentry]
  next horder _ => simp [horder]
  next e hentry _ =>
    rw [← shapeViolations_fails]
    cases f.shapeViolations f.order with
    | error m => simp [Bind.bind, Except.bind, hentry]
    | ok shape =>
        simp only [Bind.bind, Except.bind, Pure.pure, Except.pure]
        split <;> simp

/-! Reports that are given -/

/-- No block of the function lists instruction `i`. -/
def Foreign (f : Func) (i : Nat) : Prop := ∀ b ∈ f.order, i ∉ f.values b

theorem append_ok {ε α : Type} {a b : Except ε (List α)} {zs : List α}
    (h : (do let xs ← a; let ys ← b; return xs ++ ys) = .ok zs) :
    ∃ xs ys, a = .ok xs ∧ b = .ok ys ∧ zs = xs ++ ys := by
  cases a with
  | error _ => cases h
  | ok xs =>
      cases b with
      | error _ => cases h
      | ok ys => exact ⟨xs, ys, rfl, rfl, (Except.ok.inj h).symm⟩

theorem position?_of_foreign (h : f.Foreign i) : f.position? i = none := by
  by_contra hne
  obtain ⟨b, hb, hi⟩ := mem_values_of_position? (Option.isSome_iff_ne_none.2 hne)
  exact h b hb hi

/-- A missing operand and one of another function are reported with their places. -/
theorem mem_argViolations {b v j : Nat} (args : List (Option Nat)) :
    (args[j]? = some none → .argMissing b v j ∈ f.argViolations b v args) ∧
      ∀ a, args[j]? = some (some a) → f.Foreign a →
        .argOutside b v j a ∈ f.argViolations b v args := by
  constructor
  · intro harg
    obtain ⟨hj, hval⟩ := List.getElem?_eq_some_iff.1 harg
    refine List.mem_filterMap.2 ⟨_, List.mem_mapIdx.2 ⟨j, hj, rfl⟩, ?_⟩
    simp [hval]
  · intro a harg ha
    obtain ⟨hj, hval⟩ := List.getElem?_eq_some_iff.1 harg
    refine List.mem_filterMap.2 ⟨_, List.mem_mapIdx.2 ⟨j, hj, rfl⟩, ?_⟩
    simp [hval, position?_of_foreign ha]

theorem mem_instrViolations {b v : Nat} {x : Instr} {before : Option Nat} {y : Violation}
    (h : f.instrViolations b v before = .ok xs) (hx : f.instr? v = some x)
    (hy : y ∈ f.argViolations b v x.args) : y ∈ xs := by
  unfold instrViolations at h
  rw [hx] at h
  dsimp only at h
  cases hfault : x.fault? f with
  | error _ => rw [hfault] at h; cases h
  | ok fault =>
      rw [hfault] at h
      obtain rfl := Except.ok.inj h
      simp [hy]

theorem mem_valueViolations {b v : Nat} {vs : List Nat} {before : Option Nat} {y : Violation}
    (h : f.valueViolations b before vs = .ok xs) (hv : v ∈ vs)
    (hy : ∀ before ys, f.instrViolations b v before = .ok ys → y ∈ ys) : y ∈ xs := by
  induction vs generalizing before xs with
  | nil => cases hv
  | cons w vs ih =>
      obtain ⟨ys, zs, hw, hvs, rfl⟩ := append_ok h
      rcases List.mem_cons.1 hv with rfl | hv
      · exact List.mem_append_left _ (hy _ _ hw)
      · exact List.mem_append_right _ (ih hvs hv)

theorem mem_shapeViolations {b v : Nat} {bs : List Nat} {y : Violation}
    (h : f.shapeViolations bs = .ok xs) (hb : b ∈ bs) (hv : v ∈ f.values b)
    (hy : ∀ before ys, f.instrViolations b v before = .ok ys → y ∈ ys) : y ∈ xs := by
  induction bs generalizing xs with
  | nil => cases hb
  | cons c bs ih =>
      obtain ⟨ys, zs, hc, hbs, rfl⟩ := append_ok h
      rcases List.mem_cons.1 hb with rfl | hb
      · refine List.mem_append_left _ ?_
        unfold blockViolations at hc
        cases hblock : f.block? b with
        | none => simp [values, hblock] at hv
        | some x =>
            have hvalues : f.values b = x.values := by simp [values, hblock]
            rw [hblock] at hc
            dsimp only at hc
            cases hfound : f.valueViolations b none x.values with
            | error _ => rw [hfound] at hc; cases hc
            | ok found =>
                rw [hfound] at hc
                obtain rfl := Except.ok.inj hc
                exact List.mem_append_right _ (mem_valueViolations hfound (hvalues ▸ hv) hy)
      · exact List.mem_append_right _ (ih hbs hb)

/-- What is found in the first part of the examination is what is reported. -/
theorem violations_ok (h : f.violations = .ok xs) :
    (f.entry = none ∨ f.order = []) ∧ xs = [.noEntry] ∨
      ∃ e shape, f.entry = some e ∧ f.shapeViolations f.order = .ok shape ∧
        (f.entryViolations e ++ shape ≠ [] → xs = f.entryViolations e ++ shape) := by
  unfold violations at h
  split at h
  next hentry => exact Or.inl ⟨Or.inl hentry, (Except.ok.inj h).symm⟩
  next horder _ => exact Or.inl ⟨Or.inr horder, (Except.ok.inj h).symm⟩
  next e hentry _ =>
    cases hshape : f.shapeViolations f.order with
    | error _ => rw [hshape] at h; cases h
    | ok shape =>
        rw [hshape] at h
        simp only [Bind.bind, Except.bind, Pure.pure, Except.pure] at h
        refine Or.inr ⟨e, shape, hentry, rfl, fun hfound => ?_⟩
        rw [if_pos (by simpa using hfound)] at h
        exact (Except.ok.inj h).symm

end Func

/-! Loops on the blocks of a function -/

/-- A walk looks only at what the blocks that it comes to lead to. -/
theorem Walks.congr {succs succs' : Nat → List Nat} {S : List Nat} {w w' : Walk} {bs : List Nat}
    (hsame : ∀ b ∈ S, succs' b = succs b) (hclosed : ∀ b ∈ S, ∀ c ∈ succs b, c ∈ S)
    (h : Walks succs w bs w') (hbs : ∀ b ∈ bs, b ∈ S) : Walks succs' w bs w' := by
  induction h with
  | done => exact .done
  | seen old _ ih => exact .seen old (ih fun b hb => hbs b (List.mem_cons_of_mem _ hb))
  | @fresh w inner w' b bs new _ _ ihbelow ihrest =>
      have hb := hbs b List.mem_cons_self
      refine .fresh new ?_ (ihrest fun c hc => hbs c (List.mem_cons_of_mem _ hc))
      rw [hsame b hb]
      exact ihbelow (hclosed b hb)

/-- A walk among the blocks `S` adds no others. -/
theorem Walks.mem_of_done {succs : Nat → List Nat} {S : List Nat} {w w' : Walk} {bs : List Nat}
    (hclosed : ∀ b ∈ S, ∀ c ∈ succs b, c ∈ S) (h : Walks succs w bs w') (hbs : ∀ b ∈ bs, b ∈ S) :
    ∀ x ∈ w'.done, x ∈ w.done ∨ x ∈ S := by
  induction h with
  | done => exact fun x hx => Or.inl hx
  | seen _ _ ih => exact ih fun b hb => hbs b (List.mem_cons_of_mem _ hb)
  | @fresh w inner w' b bs _ _ _ ihbelow ihrest =>
      have hb := hbs b List.mem_cons_self
      intro x hx
      rcases ihrest (fun c hc => hbs c (List.mem_cons_of_mem _ hc)) x hx with hdone | hx
      · rcases List.mem_cons.1 hdone with rfl | hdone
        · exact Or.inr hb
        · exact ihbelow (hclosed b hb) x hdone
      · exact Or.inr hx

theorem visit_congr {succs succs' : Nat → List Nat} {S : List Nat}
    (hsame : ∀ b ∈ S, succs' b = succs b) (hclosed : ∀ b ∈ S, ∀ c ∈ succs b, c ∈ S) (fuel : Nat) :
    ∀ (w : Walk) (b : Nat), b ∈ S → visit succs' fuel w b = visit succs fuel w b := by
  induction fuel with
  | zero => exact fun _ _ _ => rfl
  | succ fuel ih =>
      have hfold : ∀ (bs : List Nat) (w : Walk), (∀ b ∈ bs, b ∈ S) →
          bs.foldl (visit succs' fuel) w = bs.foldl (visit succs fuel) w := by
        intro bs
        induction bs with
        | nil => exact fun _ _ => rfl
        | cons b bs ih' =>
            intro w hbs
            rw [List.foldl_cons, List.foldl_cons, ih w b (hbs b List.mem_cons_self)]
            exact ih' _ fun c hc => hbs c (List.mem_cons_of_mem _ hc)
      intro w b hb
      unfold visit
      rw [hsame b hb, hfold (succs b) _ (hclosed b hb)]

theorem Passes.congr {preds preds' : Nat → List Nat} {order bs : List Nat} {I J : Idoms}
    {changed changed' : Bool} (h : Passes preds order I changed bs J changed')
    (hsame : ∀ b ∈ bs, preds' b = preds b) : Passes preds' order I changed bs J changed' := by
  induction h with
  | done => exact .done
  | same merged keeps _ ih =>
      rw [← hsame _ List.mem_cons_self] at merged
      exact .same merged keeps (ih fun c hc => hsame c (List.mem_cons_of_mem _ hc))
  | change merged differs _ ih =>
      rw [← hsame _ List.mem_cons_self] at merged
      exact .change merged differs (ih fun c hc => hsame c (List.mem_cons_of_mem _ hc))

theorem Settles.congr {preds preds' : Nat → List Nat} {order rest : List Nat} {I J : Idoms}
    (h : Settles preds order rest I J) (hsame : ∀ b ∈ rest, preds' b = preds b) :
    Settles preds' order rest I J := by
  induction h with
  | last pass => exact .last (pass.congr hsame)
  | again pass _ ih => exact .again (pass.congr hsame) ih

theorem settle_congr {preds preds' : Nat → List Nat} {order rest : List Nat}
    (hsame : ∀ b ∈ rest, preds' b = preds b) (fuel : Nat) (I : Idoms) :
    settle preds' order rest fuel I = settle preds order rest fuel I := by
  have hrefine : ∀ bs, (∀ b ∈ bs, preds' b = preds b) → ∀ p : Idoms × Bool,
      refine preds' order p bs = refine preds order p bs := by
    intro bs
    induction bs with
    | nil => exact fun _ _ => rfl
    | cons b bs ih =>
        intro hbs p
        unfold refine at ih ⊢
        rw [List.foldl_cons, List.foldl_cons, hbs b List.mem_cons_self]
        exact ih (fun c hc => hbs c (List.mem_cons_of_mem _ hc)) _
  induction fuel generalizing I with
  | zero => rfl
  | succ fuel ih =>
      unfold settle
      rw [hrefine rest hsame]
      simp only [ih]

namespace Func

variable {f : Func} {e : Nat}

/-- The function without the edges of blocks that do not belong to it. -/
def kept (f : Func) : Func :=
  { f with blocks := f.blocks.mapIdx fun i b =>
      if i ∈ f.order then b else { b with succs := [], preds := [] } }

theorem succs_kept (b : Nat) : f.kept.succs b = if b ∈ f.order then f.succs b else [] := by
  simp only [kept, succs, block?, Array.getElem?_mapIdx]
  cases f.blocks[b]? with
  | none => simp
  | some x => split <;> simp [*]

theorem preds_kept (b : Nat) : f.kept.preds b = if b ∈ f.order then f.preds b else [] := by
  simp only [kept, preds, block?, Array.getElem?_mapIdx]
  cases f.blocks[b]? with
  | none => simp
  | some x => split <;> simp [*]

/-- The edges of a function that no rule about blocks finds fault with. -/
theorem edges_of_shape (h : f.shapeViolations f.order = .ok []) {b : Nat} (hb : b ∈ f.order) :
    (∀ c ∈ f.succs b, c ∈ f.order ∧ b ∈ f.preds c) ∧
      ∀ c ∈ f.preds b, c ∈ f.order ∧ b ∈ f.succs c := by
  cases hx : f.block? b with
  | none => simp [succs, preds, hx]
  | some x =>
      have hedges := (blockViolations_parts (blockViolations_nil h hb) hx).2.1
      refine ⟨fun c hc => mirrored_of_edgeViolations hedges hx hc, fun c hc => ?_⟩
      have hpreds : f.preds b = x.preds := by simp [preds, hx]
      rw [hpreds] at hc
      have hin := List.filterMap_eq_nil_iff.1 (List.append_eq_nil_iff.1 hedges).2 c hc
      by_cases horder : c ∈ f.order
      · by_cases hsucc : b ∈ f.succs c
        · exact ⟨horder, hsucc⟩
        · simp [horder, hsucc] at hin
      · simp [horder] at hin

theorem mirror_kept (h : f.shapeViolations f.order = .ok []) (a b : Nat) :
    b ∈ f.kept.succs a ↔ a ∈ f.kept.preds b := by
  rw [succs_kept, preds_kept]
  constructor
  · intro hb
    split at hb
    next ha =>
      obtain ⟨horder, hpred⟩ := (edges_of_shape h ha).1 b hb
      rwa [if_pos horder]
    next => cases hb
  · intro ha
    split at ha
    next hb =>
      obtain ⟨horder, hsucc⟩ := (edges_of_shape h hb).2 a ha
      rwa [if_pos horder]
    next => cases ha

/-- A function whose entry is no block that there is has no dominators. -/
theorem loops_end_beyond {stored : Idoms} (hentry : f.entry = some e) (he : f.blocks.size ≤ e)
    (hsize : stored.size = f.blocks.size)
    (hother : ∀ b, b ∉ f.order → stored.getD b none = none) :
    f.Computes stored (f.idomsFrom stored) ∧
      ∀ a b, Climbs (f.idomsFrom stored) a b ((f.idomsFrom stored).dominates a b) := by
  have hsuccs : f.succs e = [] := by simp [succs, block?, Array.getElem?_eq_none he]
  have horder : f.reversePostOrder = [e] := by simp [reversePostOrder, hentry, visit, hsuccs]
  have hset : ∀ x, (f.forgotten stored).setIfInBounds e x = f.forgotten stored := fun x =>
    Array.setIfInBounds_eq_of_size_le (by rw [size_forgotten, hsize]; exact he)
  have hidoms : f.idomsFrom stored = f.forgotten stored := by
    simp [idomsFrom, horder, settle, refine, hset]
  have hnone : ∀ b, (f.forgotten stored).getD b none = none := fun b => by
    simp [forgotten_eq hsize hother, Array.getD]
  rw [hidoms]
  constructor
  · have hwalk : Walks f.succs {} [e] { seen := [e], done := [e] } :=
      .fresh (by simp) (by rw [hsuccs]; exact .done) .done
    have hcomputes : f.Computes stored _ := .intro hentry hwalk rfl (.last .done)
    rwa [hset, hset] at hcomputes
  · intro a b
    have habove : (f.forgotten stored).dominates a b = decide (a = b) := by
      unfold Idoms.dominates
      cases (f.forgotten stored).size <;> simp [Idoms.above, hnone]
    rw [habove]
    by_cases hab : a = b
    · rw [hab, decide_eq_true rfl]
      exact .met
    · rw [decide_eq_false hab]
      exact .top hab (hnone b)

/-- Whenever the work on dominators is begun its loops end, whatever was stored for the blocks
before. -/
theorem examined_loops_end {stored : Idoms} (hentry : f.entry = some e)
    (hshape : f.shapeViolations f.order = .ok []) (hstart : f.entryViolations e = [])
    (hsize : stored.size = f.blocks.size)
    (hother : ∀ b, b ∉ f.order → stored.getD b none = none) :
    f.Computes stored (f.idomsFrom stored) ∧
      ∀ a b, Climbs (f.idomsFrom stored) a b ((f.idomsFrom stored).dominates a b) := by
  rcases Nat.lt_or_ge e f.blocks.size with he | he
  case inr => exact loops_end_beyond hentry he hsize hother
  have hhead : f.order.head? = some e := by
    by_contra hne
    simp [entryViolations, hne] at hstart
  have hfirst : ∀ b ∈ [e], b ∈ f.order := by simpa using List.mem_of_mem_head? hhead
  have hsuccs : ∀ b ∈ f.order, f.succs b = f.kept.succs b := fun b hb => by
    rw [succs_kept, if_pos hb]
  have hpreds : ∀ b ∈ f.order, f.preds b = f.kept.preds b := fun b hb => by
    rw [preds_kept, if_pos hb]
  have hclosed : ∀ b ∈ f.order, ∀ c ∈ f.kept.succs b, c ∈ f.order := fun b hb c hc =>
    ((edges_of_shape hshape hb).1 c (hsuccs b hb ▸ hc)).1
  have hkept : f.kept.blocks.size = f.blocks.size := Array.size_mapIdx
  obtain ⟨hcomputes, hclimbs⟩ := loops_end (f := f.kept) (e := e) hentry (hkept.symm ▸ he)
    (mirror_kept hshape) (hsize.trans hkept.symm) hother
  have hreach : f.reversePostOrder = f.kept.reversePostOrder := by
    simp only [reversePostOrder, hkept]
    rw [show f.kept.entry = f.entry from rfl, hentry]
    dsimp only
    rw [visit_congr hsuccs hclosed _ _ _ (hfirst e List.mem_cons_self)]
  have hmem : ∀ w, Walks f.kept.succs {} [e] w → ∀ b ∈ w.done, b ∈ f.order := fun w hw b hb =>
    (hw.mem_of_done hclosed hfirst b hb).resolve_left (by simp)
  have hidoms : f.idomsFrom stored = f.kept.idomsFrom stored := by
    obtain ⟨w, hw, hdone⟩ :=
      walks_reversePostOrder (f := f.kept) hentry (hkept.symm ▸ he) (mirror_kept hshape)
    have hinside := hmem w hw
    unfold idomsFrom
    rw [hreach]
    rw [hdone] at hinside
    cases horder : f.kept.reversePostOrder with
    | nil => rfl
    | cons d rest =>
        rw [horder] at hinside
        have hrest : ∀ b ∈ rest, f.preds b = f.kept.preds b := fun b hb =>
          hpreds b (hinside b (List.mem_cons_of_mem _ hb))
        dsimp only
        rw [settle_congr hrest, hkept]
        rfl
  rw [hidoms]
  refine ⟨?_, hclimbs⟩
  generalize f.kept.idomsFrom stored = J at hcomputes
  cases hcomputes with
  | @intro d rest w I hentry' hwalk horder hpasses =>
      obtain rfl : e = d := Option.some.inj (hentry.symm.trans hentry')
      have hrest : ∀ b ∈ rest, f.preds b = f.kept.preds b := fun b hb =>
        hpreds b (hmem w hwalk b (by simp [horder, hb]))
      exact .intro hentry (hwalk.congr hsuccs hclosed hfirst) horder (hpasses.congr hrest)

/-! The whole examination -/

/-- The examination of any graph ends. It gives no report exactly if the graph has an entry and
one of its blocks lists an instruction that asks for a first operand that is missing. All other
reports on a graph with an entry name each operand that is missing or belongs to another
function, and the loops that work out dominators are begun only where they end. -/
theorem examination_ends (f : Func) :
    ((∃ m, f.violations = .error m) ↔ f.entry ≠ none ∧ ∃ b ∈ f.order, f.AsksInVain b) ∧
      (∀ xs, f.violations = .ok xs → ∀ b ∈ f.order, ∀ i ∈ f.values b, ∀ v, f.instr? i = some v →
        ∀ j : Nat, v.args[j]? = some none ∨ (∃ a, v.args[j]? = some (some a) ∧ f.Foreign a) →
          xs = [.noEntry] ∨ .argMissing b i j ∈ xs ∨ ∃ a, .argOutside b i j a ∈ xs) ∧
      ∀ e stored, f.entry = some e → f.shapeViolations f.order = .ok [] →
        f.entryViolations e = [] → stored.size = f.blocks.size →
        (∀ b, b ∉ f.order → stored.getD b none = none) →
        f.Computes stored (f.idomsFrom stored) ∧
          ∀ a b, Climbs (f.idomsFrom stored) a b ((f.idomsFrom stored).dominates a b) := by
  refine ⟨violations_fails, ?_, fun e stored hentry hshape hstart hsize hother =>
    examined_loops_end hentry hshape hstart hsize hother⟩
  intro xs hxs b hb i hi v hv j harg
  rcases violations_ok hxs with ⟨-, hnone⟩ | ⟨e, shape, hentry, hshape, hfound⟩
  · exact Or.inl hnone
  · have hmem : ∀ y, y ∈ f.argViolations b i v.args → y ∈ xs := by
      intro y hy
      have hy := mem_shapeViolations hshape hb hi fun before ys hys => mem_instrViolations hys hv hy
      rw [hfound (List.append_ne_nil_of_right_ne_nil _ (List.ne_nil_of_mem hy))]
      exact List.mem_append_right _ hy
    obtain ⟨hmissing, houtside⟩ := mem_argViolations (f := f) (b := b) (v := i) (j := j) v.args
    rcases harg with hnone | ⟨a, ha, hforeign⟩
    · exact Or.inr (Or.inl (hmem _ (hmissing hnone)))
    · exact Or.inr (Or.inr ⟨a, hmem _ (houtside a ha hforeign)⟩)

/-- A function that loads from a slot that is missing. -/
def loadNothing : Func :=
  { name := "f"
    order := [0]
    blocks := #[{ id := 0, kind := .ret, values := [0] }]
    instrs := #[{ id := 0, op := .load, type := some .int, args := [none], block := 0 }] }

/-- The missing slot is not reported: the examination itself fails. -/
theorem loadNothing_unreported : loadNothing.violations = .error ⟨0⟩ := by
  rfl

/-- A function with the instruction `v` before a block that leads to itself. -/
def circling (v : Instr) : Func :=
  { name := "g"
    order := [0, 1]
    blocks := #[
      { id := 0, succs := [1], values := [0] },
      { id := 1, succs := [1], preds := [0, 1] }]
    instrs := #[v, { id := 0, op := .const64, type := some .int, block := 2 }] }

/-- An addition of an operand of another function to a missing one. -/
def strayOperands : Instr :=
  { id := 0, op := .add64, type := some .int, args := [none, some 1], block := 0 }

/-- A constant, which needs no operands. -/
def noOperands : Instr := { id := 0, op := .const64, type := some .int, block := 0 }

/-- Both operands of the addition are reported. With the constant in its place dominators are
worked out, although each block is stored as what the other needs. -/
theorem circling_examined :
    (¬∃ m, (circling strayOperands).violations = .error m) ∧
      (∀ xs, (circling strayOperands).violations = .ok xs → xs.length = 2 →
        .argMissing 0 0 1 ∈ xs ∨ ∃ a, .argOutside 0 0 1 a ∈ xs) ∧
      (circling noOperands).violations = .ok [] ∧
      (circling noOperands).Computes #[some 1, some 0] #[none, some 0] := by
  obtain ⟨hfails, hreports, -⟩ := examination_ends (circling strayOperands)
  refine ⟨?_, fun xs hxs hlength => ?_, by rfl, ?_⟩
  · rw [hfails]
    rintro ⟨-, b, hb, i, hi, v, hv, hasks, -⟩
    have hplain : ¬strayOperands.Asks := by
      rintro (hop | hop | hop | hop) <;> cases hop
    simp only [circling, List.mem_cons, List.not_mem_nil, or_false] at hb
    rcases hb with rfl | rfl
    · obtain rfl : i = 0 := by simpa [circling, values, block?] using hi
      have hv : strayOperands = v := Option.some.inj hv
      exact hplain (hv ▸ hasks)
    · simp [circling, values, block?] at hi
  · have hreported := hreports xs hxs 0 (by decide) 0 (by decide) strayOperands rfl 1
      (Or.inr ⟨1, rfl, by unfold Foreign; decide⟩)
    refine hreported.resolve_left fun h => ?_
    rw [h] at hlength
    cases hlength
  · have hother : ∀ b, b ∉ (circling noOperands).order →
        (#[some 1, some 0] : Idoms).getD b none = none := by
      intro b hb
      have hb : 2 ≤ b := by
        simp only [circling, List.mem_cons, List.not_mem_nil, or_false, not_or] at hb
        omega
      simp [Array.getD, Nat.not_lt.2 hb]
    have hloops := (examination_ends (circling noOperands)).2.2 0 #[some 1, some 0] rfl (by rfl)
      (by rfl) (by rfl) hother
    have hresult : (circling noOperands).idomsFrom #[some 1, some 0] = #[none, some 0] := by
      decide +kernel
    exact hresult ▸ hloops.1

end Func

end ClassLang.Graph
