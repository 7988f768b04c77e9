import ClassLang.Proofs.Typing

/-!
What the checker promises about assignability and about the type arguments it
finds.
-/

namespace ClassLang.Check

variable {w : Watch} {P : Prop} {env : Env} {ar : String → Option Nat} {Δ : List TypeParam}

/-! Assignability -/

theorem hasValue_ensures {x : Operand} :
    w.Ensures (hasValue x) P fun ok => ok = true ∧ x.ty.isVoid = false := by
  unfold hasValue
  split
  next => exact .report_bind (.pure False.elim)
  next hvoid => exact .pure fun _ => ⟨rfl, by simpa using hvoid⟩

theorem hasValue_gives {x : Operand} :
    Gives (hasValue x) fun ok => ok = true → x.ty.isVoid = false := by
  unfold hasValue
  split
  · exact (Gives.trivial _).bind fun _ _ => .pure (by simp)
  next hvoid => exact .pure fun _ => by simpa using hvoid

/-- An operand that passes has the type it is assigned to, or one of a descendant. -/
def Assignable (t : Table) (s target : Ty) : Prop :=
  s.isVoid = false ∧ (s.identical target = true ∨ ∃ name c, target = .cls name ∧
    s.className? = some c ∧ isAncestorName t name c = true)

theorem Assignable.fits {t : Table} {s target : Ty} {ps qs : List TypeParam}
    (h : Assignable t s target) (hs : s.Scoped ar ps) (ht : target.Scoped ar qs) :
    t.Fits s target :=
  h.2.imp (hs.eq_of_identical ht) id

theorem assignable_ensures {table : Table} {x : Operand} {target : Ty} {purpose : String} :
    w.Ensures (assignable table x target purpose) P fun ok =>
      ok = true → Assignable table x.ty target := by
  unfold assignable
  refine hasValue_ensures.bind fun ok => ?_
  split
  next => exact .pure fun _ h => by cases h
  next =>
    split
    next => exact .pure fun _ h => by cases h
    next =>
      split
      next hid => exact .pure fun h _ => ⟨h.2.2, .inl hid⟩
      next =>
        dsimp only
        split
        next hclass _ _ =>
          split
          next hanc => exact .pure fun h _ => ⟨h.2.2, .inr ⟨_, _, rfl, hclass, hanc⟩⟩
          next => exact .report_bind (.pure False.elim)
        next => exact .report_bind (.pure False.elim)

theorem assignableAll_ensures {table : Table} {list : List (Operand × Ty × String)} :
    w.Ensures (assignableAll table list) P fun ok =>
      ok = true → ∀ e ∈ list, Assignable table e.1.ty e.2.1 := by
  induction list generalizing P with
  | nil => exact .pure fun _ _ => by simp
  | cons e rest ih =>
      obtain ⟨x, target, purpose⟩ := e
      unfold assignableAll
      refine assignable_ensures.bind fun ok => ih.bind fun others => .pure ?_
      rintro ⟨⟨_, hok⟩, hothers⟩ hall
      obtain ⟨hok', hothers'⟩ : ok = true ∧ others = true := by simpa using hall
      exact List.forall_mem_cons.2 ⟨hok hok', hothers hothers'⟩

/-! Type arguments -/

/-- `K` holds of the type arguments found so far. -/
def FoundAll (K : Ty → Prop) (found : List (Option Ty)) : Prop := ∀ t, some t ∈ found → K t

/-- `K` passes from an instance to its arguments. -/
def Hereditary (K : Ty → Prop) : Prop := ∀ c args, K (.inst c args) → ∀ a ∈ args, K a

variable {K : Ty → Prop}

theorem FoundAll.set {found : List (Option Ty)} {t : Ty} {i : Nat} (h : FoundAll K found)
    (ht : K t) : FoundAll K (found.set i (some t)) := by
  intro s hs
  rcases List.mem_or_eq_of_mem_set hs with hmem | heq
  · exact h s hmem
  · cases heq
    exact ht

mutual

/-- What unification finds are parts of the types of the arguments. -/
theorem unify_ok (hK : Hereditary K) {ps : List TypeParam} : (t arg : Ty) →
    {found found' : List (Option Ty)} → FoundAll K found → K arg →
      unify ps found t arg = .ok found' → found'.length = found.length ∧ FoundAll K found'
  | .param p, arg, found, found', hfound, harg, h => by
    simp only [unify] at h
    split at h
    · split at h
      · cases h
        exact ⟨by simp, hfound.set harg⟩
      · split at h
        · cases h
          exact ⟨rfl, hfound⟩
        · cases h
    · cases h
      exact ⟨rfl, hfound⟩
  | .inst c as, .inst d bs, found, found', hfound, harg, h => by
    simp only [unify] at h
    split at h
    · exact unifyAll_ok hK as bs hfound (hK d bs harg) h
    · cases h
      exact ⟨rfl, hfound⟩
  | .inst _ _, .int, _, _, hfound, _, h | .inst _ _, .float, _, _, hfound, _, h
  | .inst _ _, .bool, _, _, hfound, _, h | .inst _ _, .str, _, _, hfound, _, h
  | .inst _ _, .void, _, _, hfound, _, h | .inst _ _, .cls _, _, _, hfound, _, h
  | .inst _ _, .param _, _, _, hfound, _, h | .inst _ _, .invalid, _, _, hfound, _, h
  | .inst _ _, .missing, _, _, hfound, _, h | .inst _ _, .func .., _, _, hfound, _, h
  | .int, _, _, _, hfound, _, h | .float, _, _, _, hfound, _, h | .bool, _, _, _, hfound, _, h
  | .str, _, _, _, hfound, _, h | .void, _, _, _, hfound, _, h | .cls _, _, _, _, hfound, _, h
  | .invalid, _, _, _, hfound, _, h | .missing, _, _, _, hfound, _, h
  | .func .., _, _, _, hfound, _, h => by
    simp only [unify] at h
    cases h
    exact ⟨rfl, hfound⟩

theorem unifyAll_ok (hK : Hereditary K) {ps : List TypeParam} : (as bs : List Ty) →
    {found found' : List (Option Ty)} → FoundAll K found → (∀ b ∈ bs, K b) →
      unifyAll ps found as bs = .ok found' → found'.length = found.length ∧ FoundAll K found'
  | [], _, _, _, hfound, _, h | _ :: _, [], _, _, hfound, _, h => by
    simp only [unifyAll] at h
    cases h
    exact ⟨rfl, hfound⟩
  | a :: as, b :: bs, found, found', hfound, hbs, h => by
    simp only [unifyAll] at h
    cases hu : unify ps found a b with
    | error e => simp [hu, bind, Except.bind] at h
    | ok mid =>
        simp only [hu, bind, Except.bind] at h
        obtain ⟨hlen, hmid⟩ := unify_ok hK a b hfound (hbs b (by simp)) hu
        obtain ⟨hlen', hfound'⟩ := unifyAll_ok hK as bs hmid (fun x hx => hbs x (by simp [hx])) h
        exact ⟨hlen'.trans hlen, hfound'⟩

end

theorem unifyOperands_ok (hK : Hereditary K) {ps : List TypeParam} {types : List Ty}
    {xs : List Operand} {found found' : List (Option Ty)} (hfound : FoundAll K found)
    (hxs : ∀ x ∈ xs, K x.ty) (h : unifyOperands ps found types xs = .ok found') :
    found'.length = found.length ∧ FoundAll K found' := by
  induction types generalizing xs found with
  | nil =>
      simp only [unifyOperands] at h
      cases h
      exact ⟨rfl, hfound⟩
  | cons t rest ih =>
      cases xs with
      | nil =>
          simp only [unifyOperands] at h
          cases h
          exact ⟨rfl, hfound⟩
      | cons x xs =>
          simp only [unifyOperands] at h
          split at h
          next mid hu =>
            obtain ⟨hlen, hmid⟩ := unify_ok hK t x.ty hfound (hxs x (by simp)) hu
            obtain ⟨hlen', hfound'⟩ := ih hmid (fun y hy => hxs y (by simp [hy])) h
            exact ⟨hlen'.trans hlen, hfound'⟩
          next => cases h

theorem found_isSome {ps : List TypeParam} {found : List (Option Ty)}
    (hlen : found.length = ps.length) (h : (ps.zip found).find? (·.2.isNone) = none) :
    ∀ x ∈ found, x.isSome = true := by
  intro x hx
  obtain ⟨i, hi, rfl⟩ := List.mem_iff_getElem.1 hx
  have hmem : (ps[i], found[i]) ∈ ps.zip found :=
    List.mem_iff_getElem.2 ⟨i, by simp; omega, by simp⟩
  have hsome := List.find?_eq_none.1 h _ hmem
  simpa [Option.isNone_iff_eq_none, Option.isSome_iff_ne_none] using hsome

/-- If every parameter has an argument, the arguments are all that was found. -/
theorem eq_map_some {α : Type} {found : List (Option α)} (h : ∀ x ∈ found, x.isSome = true) :
    found = (found.filterMap id).map some := by
  induction found with
  | nil => rfl
  | cons x rest ih =>
      obtain ⟨t, rfl⟩ := Option.isSome_iff_exists.1 (h x List.mem_cons_self)
      have hrest := ih fun y hy => h y (List.mem_cons_of_mem _ hy)
      rw [List.filterMap_cons_some (f := id) rfl, List.map_cons, ← hrest]

/-- If no parameter lacks an argument, each one has its own. -/
theorem length_filterMap_id {ps : List TypeParam} {found : List (Option Ty)}
    (hlen : found.length = ps.length) (h : (ps.zip found).find? (·.2.isNone) = none) :
    (found.filterMap id).length = ps.length := by
  have hall := congrArg List.length (eq_map_some (found_isSome hlen h))
  rw [List.length_map] at hall
  exact hall.symm.trans hlen

/-- Type arguments that were found are parts of the types of the operands, one for each
parameter, and are accepted. -/
theorem infer_accepts (hK : Hereditary K) {pos : Pos} {what : String} {ps : List TypeParam}
    {types : List Ty} {operands : List Operand} :
    w.Ensures (infer env pos what ps types operands) (∀ x ∈ operands, K x.ty) fun r =>
      ∀ targs, r = some targs → targs.length = ps.length ∧ (∀ t ∈ targs, K t) ∧
        ∀ e ∈ ps.zip targs, Accepts w env e.1 e.2 := by
  unfold infer
  split
  next => exact .fail
  next found hfound =>
    split
    next => exact .fail
    next hnone =>
      dsimp only
      refine typeArgs_ensures.bind fun ok => ?_
      split
      next =>
        refine .pure ?_
        rintro ⟨hxs, _, haccepts⟩ targs ⟨⟩
        have hstart : FoundAll K (ps.map fun _ => none) := by
          intro t ht
          simp at ht
        obtain ⟨hlen, hok⟩ := unifyOperands_ok hK hstart hxs hfound
        have hlen : found.length = ps.length := by simpa using hlen
        refine ⟨length_filterMap_id hlen hnone, fun t ht => ?_, haccepts⟩
        obtain ⟨x, hx, rfl⟩ := List.mem_filterMap.1 ht
        exact hok t hx
      next => exact .pure fun _ targs h => by cases h

theorem hereditary_scoped : Hereditary (·.Scoped ar Δ) := by
  intro c args h
  simp only [Ty.Scoped] at h
  exact Ty.scopedAll_iff.1 h.2.2

theorem infer_ensures (ar : String → Option Nat) (Δ : List TypeParam) {pos : Pos}
    {what : String} {ps : List TypeParam} {types : List Ty} {operands : List Operand} :
    w.Ensures (infer env pos what ps types operands)
      (env.collecting = false ∧ ∀ x ∈ operands, x.ty.Scoped ar Δ) fun r =>
      ∀ targs, r = some targs → targs.length = ps.length ∧ Ty.ScopedAll ar Δ targs ∧
        ∀ e ∈ ps.zip targs, env.table.Admits e.1 e.2 := by
  refine (infer_accepts hereditary_scoped).imp And.right fun h r hr targs htargs => ?_
  obtain ⟨hlen, hknown, haccepts⟩ := hr targs htargs
  exact ⟨hlen, Ty.scopedAll_iff.2 hknown, fun e he => (haccepts e he).admits h.1⟩

end ClassLang.Check
