import ClassLang.Proofs.Graph.Verified
import ClassLang.Proofs.Meaning.Expr
import Mathlib.Data.List.Forall2

/-!
The code of a well typed statement follows the course of the statement. Behind it the variables
that it declares are visible too; a block takes them away again. A loop goes round at most as often
as its course says, and each round takes at least one step, so that a course which is lost is
followed for that many steps.
-/

namespace ClassLang

namespace Graph.Builder.Finished

variable {t : Builder} {p p' : Pos} {i : Nat}

/-- No two variables have the same slot. -/
theorem slot_inj (ht : t.Finished) (hp : t.slots.lookup p = some i)
    (hp' : t.slots.lookup p' = some i) : p = p' := by
  obtain ⟨l, l', hl, _⟩ := List.lookup_eq_some_iff.1 hp
  obtain ⟨m, m', hm, _⟩ := List.lookup_eq_some_iff.1 hp'
  have heq := List.inj_on_of_nodup_map ht.apart (show (p, i) ∈ t.slots by simp [hl])
    (show (p', i) ∈ t.slots by simp [hm]) rfl
  exact (Prod.mk.inj heq).1

/-- A value is only stored into slots. -/
theorem isSlot_of_store (ht : t.Finished) {q : Spot} {a : Nat} {pos : Pos} {ty : Option Ty}
    (hw : t.func.Holds q (q.instr .store ty [i, a] pos 0 none)) : t.func.isSlot i = true := by
  obtain ⟨dom, hcoded⟩ := ht.coded
  obtain ⟨-, -, hfault⟩ := Instr.fault?_eq_none (hcoded.sane _ _ hw.instr)
  have htarget : (q.instr .store ty [i, a] pos 0 none).targetFault? t.func 2 .alloca .storeTarget =
    .ok none := hfault
  obtain ⟨-, a', rest, w, hargs, hinstr, hop⟩ := Instr.targetFault?_eq_none htarget (by simp)
  obtain rfl : i = a' := Option.some.inj (List.cons.inj hargs).1
  rw [Func.isSlot, hinstr, Option.map_some, hop]
  simp

end Graph.Builder.Finished

namespace Typed

/-- Statements declare variables in front of those that are visible. -/
theorem Stmt.Ok.exists_append {Γ : Context} {result : Ty} {vars vars' : List Var} {s : Stmt}
    (h : s.Ok Γ result vars vars') : ∃ l, vars' = l ++ vars := by
  cases h with
  | bind => exact ⟨[_], rfl⟩
  | _ => exact ⟨[], rfl⟩

theorem StmtsOk.exists_append {Γ : Context} {result : Ty} {vars vars' : List Var} {list : List Stmt}
    (h : StmtsOk Γ result vars list vars') : ∃ l, vars' = l ++ vars := by
  induction list generalizing vars with
  | nil =>
      cases h
      exact ⟨[], rfl⟩
  | cons s rest ih =>
      cases h with
      | cons first others =>
          obtain ⟨l, rfl⟩ := first.exists_append
          obtain ⟨l', rfl⟩ := ih others
          exact ⟨l' ++ l, by rw [List.append_assoc]⟩

end Typed

namespace Machine

open Direct (Course Env Flow)
open ClassLang.Graph (Instr Op Spot BindCode CountCode StmtCode StmtsCode)

namespace Activation

variable {A : Activation} {vars vars' : List Var} {σ σ' : Marks} {f f' : Frame} {v : Var}
  {env : Env} {p q : Spot} {i j k l m n slot : Nat} {e e' : Typed.Expr} {x : Value} {pos : Pos}

/-! Variables -/

theorem Bound.stored {w : Var} {b : String × Value} (hA : A.code.Finished) (h : A.Bound σ f w b)
    (hslot : A.code.slots.lookup v.pos = some slot) (hne : w.pos ≠ v.pos) :
    A.Bound σ (f.stored slot x) w b := by
  obtain ⟨i, hi, hvalue⟩ := h.slot
  have hdiff : slot ≠ i := by
    rintro rfl
    exact hne (hA.slot_inj hi hslot)
  refine ⟨h.name, ⟨i, hi, ?_⟩, h.typed⟩
  rw [Frame.stored, Array.getD_eq_getD_getElem?, Array.getElem?_setIfInBounds_ne hdiff,
    ← Array.getD_eq_getD_getElem?]
  exact hvalue

theorem bounds_stored (hA : A.code.Finished) (h : List.Forall₂ (A.Bound σ f) vars env)
    (hslot : A.code.slots.lookup v.pos = some slot) (hfresh : v.pos ∉ vars.map (·.pos)) :
    List.Forall₂ (A.Bound σ (f.stored slot x)) vars env := by
  induction h with
  | nil => exact .nil
  | @cons w b vars env hw _ ih =>
      obtain ⟨hne, hfresh⟩ : v.pos ≠ w.pos ∧ v.pos ∉ vars.map (·.pos) := by simpa using hfresh
      exact .cons (hw.stored hA hslot hne.symm) (ih hfresh)

/-- What a slot holds that has been stored into. -/
theorem getD_stored (hslot : (f.slots.getD slot none).isSome = true) (x : Value) :
    (f.stored slot x).slots.getD slot none = some x := by
  have hlt : slot < f.slots.size := by
    by_contra hle
    simp [Array.getD_eq_getD_getElem?, Array.getElem?_eq_none (Nat.le_of_not_lt hle)] at hslot
  simp [Frame.stored, Array.getD_eq_getD_getElem?, hlt]

namespace Sees

theorem room_stored (h : A.Sees σ f vars env) (slot : Nat) (x : Value) :
    ∀ i, A.code.func.isSlot i = true → ((f.stored slot x).slots.getD i none).isSome = true := by
  intro i hi
  by_cases heq : slot = i
  · subst heq
    rw [getD_stored (h.room slot hi)]
    rfl
  · rw [Frame.stored, Array.getD_eq_getD_getElem?, Array.getElem?_setIfInBounds_ne heq,
      ← Array.getD_eq_getD_getElem?]
    exact h.room i hi

/-- A new variable gets its value. -/
theorem declare (hA : A.code.Finished) (h : A.Sees σ f vars env)
    (hslot : A.code.slots.lookup v.pos = some slot) (hroom : A.code.func.isSlot slot = true)
    (hfresh : v.pos ∉ vars.map (·.pos)) (hx : x.Has A.table σ (A.type v.ty)) :
    A.Sees σ (f.stored slot x) (v :: vars) ((v.name, x) :: env) := by
  exact ⟨.cons ⟨rfl, ⟨slot, hslot, getD_stored (h.room slot hroom) x⟩, hx⟩
    (bounds_stored hA h.bound hslot hfresh), h.room_stored slot x⟩

/-- A visible variable gets another value. -/
theorem assign (hA : A.code.Finished) (h : A.Sees σ f vars env) {name : String}
    (hv : vars.find? (·.name = name) = some v) (hslot : A.code.slots.lookup v.pos = some slot)
    (hnodup : (vars.map (·.pos)).Nodup) (hx : x.Has A.table σ (A.type v.ty)) :
    A.Sees σ (f.stored slot x) vars (env.assign name x) := by
  refine ⟨?_, h.room_stored slot x⟩
  have hbound := h.bound
  clear h
  induction hbound with
  | nil => exact .nil
  | @cons w b vars env hw hrest ih =>
      obtain ⟨bname, y⟩ := b
      obtain rfl : w.name = bname := hw.name
      obtain ⟨hfresh, hnodup⟩ := List.nodup_cons.1 hnodup
      rw [Env.assign]
      by_cases hname : w.name = name
      · obtain rfl : w = v := by simpa [hname] using hv
        rw [if_pos hname]
        obtain ⟨j, hj, hvalue⟩ := hw.slot
        obtain rfl : slot = j := Option.some.inj (hslot.symm.trans hj)
        exact .cons ⟨rfl, ⟨slot, hslot, getD_stored (by rw [hvalue]; rfl) x⟩, hx⟩
          (bounds_stored hA hrest hslot hfresh)
      · rw [if_neg hname]
        rw [List.find?_cons_of_neg (by simpa using hname)] at hv
        have hne : w.pos ≠ v.pos := fun heq =>
          hfresh (List.mem_map.2 ⟨v, List.mem_of_find?_eq_some hv, heq.symm⟩)
        exact .cons (hw.stored hA hslot hne) (ih hv hnodup)

/-- The innermost variable is an integer. -/
theorem counter (h : A.Sees σ f (v :: vars) env) (hint : v.ty = .int)
    (hslot : A.code.slots.lookup v.pos = some slot) : ∃ i rest, env = (v.name, .int i) :: rest ∧
      f.slots.getD slot none = some (.int i) := by
  obtain ⟨hbound, -⟩ := h
  cases hbound with
  | @cons _ b _ rest hv _ =>
      obtain ⟨name, x⟩ := b
      have hx := hv.typed
      rw [hint] at hx
      obtain ⟨i, rfl⟩ := Value.Has.exists_int hx
      obtain ⟨slot', hslot', hvalue⟩ := hv.slot
      obtain rfl : slot = slot' := Option.some.inj (hslot.symm.trans hslot')
      exact ⟨i, rest, by rw [hv.name], hvalue⟩

/-- The innermost variable gets another value. -/
theorem renew (hA : A.code.Finished) {b : String × Value} {rest : Env}
    (h : A.Sees σ f (v :: vars) (b :: rest)) (hslot : A.code.slots.lookup v.pos = some slot)
    (hfresh : v.pos ∉ vars.map (·.pos)) (hx : x.Has A.table σ (A.type v.ty)) :
    A.Sees σ (f.stored slot x) (v :: vars) ((v.name, x) :: rest) := by
  obtain ⟨hbound, hroom⟩ := h
  cases hbound with
  | cons hv hrest =>
      obtain ⟨slot', hslot', hvalue⟩ := hv.slot
      obtain rfl : slot = slot' := Option.some.inj (hslot.symm.trans hslot')
      exact ⟨.cons ⟨rfl, ⟨slot, hslot, getD_stored (by rw [hvalue]; rfl) x⟩, hx⟩
        (bounds_stored hA hrest hslot hfresh), room_stored ⟨.cons hv hrest, hroom⟩ slot x⟩

/-- The variables of a block go out of sight. -/
theorem close (inner : List Var) {env' : Env} (h : A.Sees σ f vars env)
    (h' : A.Sees σ' f' (inner ++ vars) env') :
    A.Sees σ' f' vars (env'.drop (env'.length - env.length)) := by
  have hlen := h.bound.length_eq
  have hlen' := h'.bound.length_eq
  rw [List.length_append] at hlen'
  have hdrop := List.forall₂_drop (env'.length - env.length) h'.bound
  rw [show env'.length - env.length = inner.length by omega] at hdrop ⊢
  rw [List.drop_left] at hdrop
  exact ⟨hdrop, h'.room⟩

end Sees

/-! Flows -/

/-- What code does behind a statement, if it goes on there: it is at one of the spots `r`, has kept
the values of the first `n` instructions, and the variables `vars` are visible. -/
def Onward (A : Activation) (k : Nat) (σ : Marks) (f : Frame) (n : Nat) (r : Option Spot)
    (vars : List Var) (κ : Flow → Course Value) : Prop :=
  ∀ q ∈ r, ∀ σ' f' env, σ.Le σ' → f'.Stands A.code.func q → f.Keeps n f' → A.Sees σ' f' vars env →
    A.Follows k σ' (κ (.next env)) f'

/-- The code from `p` on follows a statement, whatever the function does behind it. It gets to a
spot `r`, unless it returns on every path; the variables `vars'` are visible there. -/
def Runs (A : Activation) (vars vars' : List Var) (returns : Bool) (course : Env → Course Flow)
    (p : Spot) (r : Option Spot) : Prop :=
  ∀ ⦃k : Nat⦄ ⦃σ : Marks⦄ ⦃f : Frame⦄ ⦃env : Env⦄ ⦃κ : Flow → Course Value⦄, k ≤ A.rounds →
    f.Stands A.code.func p → A.Sees σ f vars env → (∀ x, κ (.ret x) = .done x) →
    (returns = false → A.Onward k σ f p.count r vars' κ) →
    A.Follows k σ ((course env).andThen κ) f

/-- A course that is the same. -/
theorem Runs.of_eq {course course' : Env → Course Flow} {returns : Bool} {r : Option Spot}
    (h : A.Runs vars vars' returns course' p r) (heq : ∀ env, course env = course' env) :
    A.Runs vars vars' returns course p r := by
  rwa [funext heq]

variable {r r' out : Option Spot} {κ : Flow → Course Value} {course : Env → Course Flow}
  {returns returns' : Bool}

namespace Onward

theorem mono (h : A.Onward k σ f n r vars κ) (hle : l ≤ k) : A.Onward l σ f n r vars κ :=
  fun q hq σ' f' env hσ hf hkeeps hsees => (h q hq σ' f' env hσ hf hkeeps hsees).mono hle

/-- What follows is the same from where the frame has come to. -/
theorem from_ (h : A.Onward k σ f n r vars κ) (hσ : σ.Le σ') (hkeeps : f.Keeps n f') (hle : n ≤ m) :
    A.Onward k σ' f' m r vars κ :=
  fun q hq σ'' f'' env hσ' hf' hkeeps' hsees =>
    h q hq σ'' f'' env (hσ.trans hσ') hf' (hkeeps.trans (hkeeps'.narrow hle)) hsees

end Onward

/-- A condition is computed, and the code goes to the side that it says. -/
theorem Computes.decides (hA : A.code.Finished) {side : Bool → Nat} {c : Nat}
    {course : Bool → Course Value} (hx : A.Computes vars e.ty (A.value e) p c q)
    (hbool : e.ty = .bool) (hfork : A.code.func.Forks q c side) (hf : f.Stands A.code.func p)
    (hsees : A.Sees σ f vars env) (n : Bool → Nat)
    (h : ∀ b σ' f', σ.Le σ' → f.Comes A.code.func p.count ⟨side b, 0, n b⟩ f' →
      A.Follows (k - 1 - 1) σ' (course b) f') :
    A.Follows k σ ((A.value e env).andThen fun a => (Direct.truth a).andThen course) f := by
  refine hx hf hsees fun σ₁ f₁ hσ₁ hf₁ hty => ?_
  rw [hbool] at hty
  obtain ⟨b, hb⟩ := Value.Has.exists_bool hty
  rw [hb, Direct.truth, Course.pure_andThen]
  exact .forks hA hf₁.stands hfork hb (n b) fun f₂ hf₂ =>
    h b σ₁ f₂ hσ₁ (hf₁.trans (hf₂ _) (Nat.le_refl _))

/-- An instruction stores the value of instruction `i`. -/
theorem storing (hA : A.code.Finished) {shown : Option Ty} {c : Course Value}
    (hf : f.Stands A.code.func p) (hsees : A.Sees σ f vars env)
    (hw : A.code.func.Holds p (p.instr .store shown [slot, i] pos 0 none))
    (h : A.Follows (k - 1) σ c ((f.stored slot (f.value i)).past A.code.func p .nil)) :
    A.Follows k σ c f := by
  refine .stores hf hw (by simp [Spot.instr]) (by simp [Spot.instr]) (fun s _ _ _ => ?_) h
  obtain ⟨y, hy⟩ := Option.isSome_iff_exists.1 (hsees.room slot (hA.isSlot_of_store hw))
  simp only [action, Spot.instr, Frame.operand, Frame.slot, List.map_cons, List.map_nil,
    List.getElem?_cons_zero, List.getElem?_cons_succ, hy, Bind.bind, Except.bind, Pure.pure,
    Except.pure]

theorem stands_skip (hf : f.Stands A.code.func p) : f.Stands A.code.func p.skip :=
  ⟨hf.fn, hf.block, hf.todo, hf.values, hf.slots⟩

/-- A new variable gets the value of instruction `i`. -/
theorem binding (hA : A.code.Finished) {c : Course Value} (hf : f.Stands A.code.func p)
    (hsees : A.Sees σ f vars env) (hbind : BindCode A.code v i pos p)
    (hfresh : v.pos ∉ vars.map (·.pos)) (hx : (f.value i).Has A.table σ (A.type v.ty))
    (h : ∀ f', f'.Stands A.code.func p.skip.next → f.Keeps p.count f' →
      A.Sees σ f' (v :: vars) ((v.name, f.value i) :: env) → A.Follows (k - 1) σ c f') :
    A.Follows k σ c f := by
  have hskip := stands_skip hf
  refine storing hA hskip hsees hbind.store ?_
  have hpast := (hskip.stored p.count (f.value i)).past .nil
  refine h _ hpast.stands ?_ ?_
  · exact (Frame.Keeps.stored p.count f p.count (f.value i)).trans
      (hpast.keeps.narrow (Nat.le_succ _))
  · exact (hsees.declare hA hbind.slot (hA.isSlot_of_store hbind.store) hfresh hx).later (.refl σ)
      hpast.slots

namespace Runs

/-! Plain statements -/

theorem empty : A.Runs vars vars false (fun env => pure (.next env)) p (some p) := by
  intro k σ f env κ _ hf hsees _ hnext
  exact hnext rfl p rfl σ f env (.refl σ) hf (.refl _ f) hsees

theorem expr (hx : A.Computes vars e.ty (A.value e) p i q) :
    A.Runs vars vars false (fun env => A.value e env >>= fun _ => pure (.next env)) p (some q) := by
  intro k σ f env κ _ hf hsees _ hnext
  rw [Course.bind_andThen]
  exact hx hf hsees fun σ₁ f₁ hσ₁ hf₁ _ =>
    hnext rfl q rfl σ₁ f₁ env hσ₁ hf₁.stands hf₁.keeps (hsees.later hσ₁ hf₁.slots)

theorem bind (hA : A.Valid) (hx : A.Computes vars e.ty (A.value e) p i q) (hle : p.count ≤ q.count)
    (hbind : BindCode A.code v i pos q) (hfresh : v.pos ∉ vars.map (·.pos))
    (hfits : A.table.Fits e.ty v.ty) :
    A.Runs vars (v :: vars) false
      (fun env => A.value e env >>= fun x => pure (.next ((v.name, x) :: env))) p
      (some q.skip.next) := by
  intro k σ f env κ _ hf hsees _ hnext
  rw [Course.bind_andThen]
  refine hx hf hsees fun σ₁ f₁ hσ₁ hf₁ hty => ?_
  have hty' := hty.fits hA.unit.sound.table.linked (hfits.subst A.params A.args)
  refine binding hA.finished hf₁.stands (hsees.later hσ₁ hf₁.slots) hbind hfresh hty'
    fun f₂ hf₂ hkeeps hsees₂ => ?_
  exact (hnext rfl _ rfl σ₁ f₂ _ hσ₁ hf₂ (hf₁.keeps.trans (hkeeps.narrow hle)) hsees₂).mono
    (Nat.sub_le k 1)

/-! Assignments -/

theorem assignVar (hA : A.Valid) {id : Ident} {lhs : Typed.Expr}
    (htarget : lhs.unparen = .var id v) (hv : vars.find? (·.name = id.text) = some v)
    (hslot : A.code.slots.lookup v.pos = some slot) (hnodup : (vars.map (·.pos)).Nodup)
    (hx : A.Computes vars e.ty (A.value e) p i q) (hle : p.count ≤ q.count)
    (hfits : A.table.Fits e.ty v.ty)
    (hw : A.code.func.Holds q (q.instr .store none [slot, i] pos 0 none)) :
    A.Runs vars vars false (Direct.assign A.setting · lhs e) p (some q.next) := by
  intro k σ f env κ _ hf hsees _ hnext
  simp only [Direct.assign, htarget]
  rw [Course.bind_andThen]
  refine hx hf hsees fun σ₁ f₁ hσ₁ hf₁ hty => ?_
  have hsees₁ := hsees.later hσ₁ hf₁.slots
  refine storing hA.finished hf₁.stands hsees₁ hw ?_
  have hpast := (hf₁.stands.stored slot (f₁.value i)).past .nil
  have hty' := hty.fits hA.unit.sound.table.linked (hfits.subst A.params A.args)
  refine (hnext rfl _ rfl σ₁ _ _ hσ₁ hpast.stands (hf₁.keeps.trans
    ((Frame.Keeps.stored q.count f₁ slot (f₁.value i)).trans hpast.keeps |>.narrow hle)) ?_).mono
    (Nat.sub_le k 1)
  exact (hsees₁.assign hA.finished hv hslot hnodup hty').later (.refl σ₁) hpast.slots

theorem assignField (hA : A.Valid) {sel : Ident} {fd : Field} {ty : Ty} {lhs : Typed.Expr}
    {c : ClassInfo} {place : FieldSlot} {r : Spot} (htarget : lhs.unparen = .field e sel fd ty)
    (hscoped : e.ty.Scoped A.table.arity A.params) (hc : A.table.classOf? e.ty = some c)
    (hfield : A.table.lookupField c.id sel.text = some fd)
    (hplace : (Layouts.build A.table).fieldSlot? e.ty sel.text = some place)
    (hobj : A.Computes vars e.ty (A.value e) p i q) (hle : p.count ≤ q.count) (hlt : i < q.count)
    (hx : A.Computes vars e'.ty (A.value e') q j r) (hle' : q.count ≤ r.count)
    (hfits : A.table.Fits e'.ty (fd.ty.subst c.tparams e.ty.args))
    (hw : A.code.func.Holds r (r.instr .storeField none [i, j] pos (Int64.ofInt place.offset)
      (some (.text sel.text)))) :
    A.Runs vars vars false (Direct.assign A.setting · lhs e') p (some r.next) := by
  intro k σ f env κ _ hf hsees _ hnext
  simp only [Direct.assign, htarget]
  rw [Course.bind_andThen]
  refine hobj hf hsees fun σ₁ f₁ hσ₁ hf₁ hty₁ => ?_
  rw [Course.bind_andThen]
  have hsees₁ := hsees.later hσ₁ hf₁.slots
  refine hx hf₁.stands hsees₁ fun σ₂ f₂ hσ₂ hf₂ hty₂ => ?_
  have hkept : f₂.value i = f₁.value i := hf₂.keeps.values i hlt
  obtain ⟨ref, m, d, l, hvalue, -, hplaced⟩ :=
    exists_placed hA (hty₁.mono hσ₂) hscoped hc hfield hplace
  have hname : fd.name = sel.text := (Table.lookupField_mem hfield).2
  rw [hvalue, Course.andThen, ← hname]
  refine hplaced.sets hf₂.stands (hkept.trans hvalue)
    (hty₂.fits hA.unit.sound.table.linked (hfits.subst A.params A.args)) hw ?_
  have hσ₃ := Marks.le_set hplaced.known (m.le_give fd.name)
  have hpast := hf₂.stands.past .nil
  exact (hnext rfl _ rfl _ _ env (hσ₁.trans (hσ₂.trans hσ₃)) hpast.stands
    (hf₁.keeps.trans ((hf₂.keeps.trans (hpast.keeps.narrow hle')).narrow hle))
    (hsees₁.later (hσ₂.trans hσ₃) (hpast.slots.trans hf₂.slots))).mono (Nat.sub_le k 1)

/-! Returns -/

theorem ret (hquits : A.code.func.Quits p none) (hresult : A.result = .void) :
    A.Runs vars vars true (fun _ => pure (.ret .nil)) p none := by
  intro k σ f env κ _ hf hsees hκ _
  rw [Course.pure_andThen, hκ]
  exact .quits hf hquits rfl (hresult ▸ .nil)

theorem retValue (hA : A.Valid) {result : Ty} (hresult : A.result = A.type result)
    (hx : A.Computes vars e.ty (A.value e) p i q) (hfits : A.table.Fits e.ty result)
    (hquits : A.code.func.Quits q (some i)) :
    A.Runs vars vars true (fun env => A.value e env >>= fun x => pure (.ret x)) p none := by
  intro k σ f env κ _ hf hsees hκ _
  rw [Course.bind_andThen]
  refine hx hf hsees fun σ₁ f₁ hσ₁ hf₁ hty => ?_
  rw [Course.pure_andThen, hκ]
  exact .quits hf₁.stands hquits rfl
    (hresult ▸ hty.fits hA.unit.sound.table.linked (hfits.subst A.params A.args))

/-! Blocks -/

theorem nil : A.Runs vars vars false (fun env => pure (.next env)) p (some p) := empty

/-- Statements behind a statement. -/
theorem cons {others : Env → Course Flow} {mid : List Var}
    (hfirst : A.Runs vars mid returns course p r)
    (hle : returns = false → ∀ q ∈ r, p.count ≤ q.count)
    (hrest : ∀ q ∈ r, A.Runs mid vars' returns' others q r') :
    A.Runs vars vars' (returns || returns')
      (fun env => course env >>= fun flow => flow.goOn others) p r' := by
  intro k σ f env κ hk hf hsees hκ hnext
  rw [Course.bind_andThen]
  refine hfirst hk hf hsees (fun x => ?_) fun hreturns q hq σ₁ f₁ env₁ hσ₁ hf₁ hkeeps hsees₁ => ?_
  · rw [Flow.goOn, Course.pure_andThen, hκ]
  · refine hrest q hq hk hf₁ hsees₁ hκ fun hreturns' => ?_
    exact (hnext (by rw [hreturns, hreturns']; rfl)).from_ hσ₁ hkeeps (hle hreturns q hq)

/-- A block takes its variables away. -/
theorem block {inner : List Var} (h : A.Runs vars (inner ++ vars) returns course p r) :
    A.Runs vars vars returns (fun env => course env >>= fun flow => pure (flow.close env)) p r := by
  intro k σ f env κ hk hf hsees hκ hnext
  rw [Course.bind_andThen]
  refine h hk hf hsees (fun x => ?_) fun hreturns q hq σ₁ f₁ env₁ hσ₁ hf₁ hkeeps hsees₁ => ?_
  · rw [Flow.close, Course.pure_andThen, hκ]
  · rw [Flow.close, Course.pure_andThen]
    exact hnext hreturns q hq σ₁ f₁ _ hσ₁ hf₁ hkeeps (hsees.close inner hsees₁)

/-! Branches -/

/-- Where the code of a branch ends, it leads to the block where paths meet. -/
theorem joins (hA : A.code.Finished) (h : A.Runs vars vars' returns course p r)
    (hends : ∀ q ∈ r, ∃ b n, out = some ⟨b, 0, n⟩ ∧ A.code.func.Leads q b) :
    A.Runs vars vars' returns course p out := by
  intro k σ f env κ hk hf hsees hκ hnext
  refine h hk hf hsees hκ fun hreturns q hq σ₁ f₁ env₁ hσ₁ hf₁ hkeeps hsees₁ => ?_
  obtain ⟨b, n, rfl, hleads⟩ := hends q hq
  refine .leads hA hf₁ hleads n fun f₂ hf₂ => ?_
  exact (hnext hreturns _ rfl σ₁ f₂ env₁ hσ₁ (hf₂ 0).stands (hkeeps.trans (hf₂ p.count).keeps)
    (hsees₁.later (.refl σ₁) (hf₂ 0).slots)).mono (by omega)

theorem ifElse (hA : A.code.Finished) {side : Bool → Nat} {c : Nat} {other : Env → Course Flow}
    (hx : A.Computes vars e.ty (A.value e) p c q) (hbool : e.ty = .bool)
    (hfork : A.code.func.Forks q c side) (hle : p.count ≤ q.count) (hle' : q.count ≤ m)
    (hyes : A.Runs vars vars returns course ⟨side true, 0, q.count⟩ out)
    (hno : A.Runs vars vars returns' other ⟨side false, 0, m⟩ out) :
    A.Runs vars vars (returns && returns') (fun env => A.value e env >>= fun a =>
      Direct.truth a >>= fun b => if b then course env else other env) p out := by
  intro k σ f env κ hk hf hsees hκ hnext
  simp only [Course.bind_andThen]
  refine hx.decides hA hbool hfork hf hsees (fun b => if b then q.count else m)
    fun b σ₁ f₁ hσ₁ hf₁ => ?_
  have hsees₁ := hsees.later hσ₁ hf₁.slots
  cases b with
  | true =>
      exact hyes (by omega) hf₁.stands hsees₁ hκ fun hreturns =>
        ((hnext (by rw [hreturns]; rfl)).mono (by omega)).from_ hσ₁ hf₁.keeps hle
  | false =>
      exact hno (by omega) hf₁.stands hsees₁ hκ fun hreturns =>
        ((hnext (by rw [hreturns, Bool.and_false])).mono (by omega)).from_ hσ₁ hf₁.keeps
          (Nat.le_trans hle hle')

/-! Loops -/

/-- Where the body of a loop ends, the code gets back to its header. -/
def Returns (A : Activation) (vars : List Var) (q : Spot) (next : Env → Course Flow)
    (header : Spot) : Prop :=
  ∀ ⦃k σ f env κ⦄, f.Stands A.code.func q → A.Sees σ f vars env →
    (∀ f' env', f'.Stands A.code.func header → f.Keeps header.count f' → A.Sees σ f' vars env' →
      A.Follows (k - 1) σ (κ (.next env')) f') → A.Follows k σ ((next env).andThen κ) f

/-- A loop, whose header is at the spot `p`. The test decides at the header, where the values that
it needs have been kept. -/
theorem loop {test : Env → Course Bool} {side : Bool → Nat} {next : Env → Course Flow}
    (I : Frame → Prop) (hI : ∀ f f', I f → f.Keeps p.count f' → I f') (hle : p.count ≤ m)
    (htest : ∀ ⦃k σ f env⦄ ⦃course : Bool → Course Value⦄, f.Stands A.code.func p → I f →
      A.Sees σ f vars env → (∀ b σ' f', σ.Le σ' → A.Sees σ' f' vars env →
        f'.Stands A.code.func ⟨side b, 0, if b then m else n⟩ → f.Keeps p.count f' →
        A.Follows (k - 1) σ' (course b) f') → A.Follows k σ ((test env).andThen course) f)
    (hbody : A.Runs vars vars returns course ⟨side true, 0, m⟩ r)
    (hends : returns = false → ∀ q ∈ r, Returns A vars q next p)
    (hk : k ≤ A.rounds) (rounds : Nat) (hrounds : k ≤ rounds)
    (hf : f.Stands A.code.func p) (hIf : I f) (hsees : A.Sees σ f vars env)
    (hκ : ∀ x, κ (.ret x) = .done x)
    (hnext : A.Onward k σ f p.count (some ⟨side false, 0, n⟩) vars κ) :
    A.Follows k σ ((Direct.loop test (fun env => course env >>= fun flow => flow.goOn next) rounds
      env).andThen κ) f := by
  induction rounds generalizing k σ f env with
  | zero =>
      obtain rfl := Nat.le_zero.1 hrounds
      exact .lost
  | succ rounds ih =>
      rw [Direct.loop, Course.bind_andThen]
      refine htest hf hIf hsees fun b σ₁ f₁ hσ₁ hsees₁ hf₁ hkeeps₁ => ?_
      have hnext₁ := (hnext.mono (Nat.sub_le k 1)).from_ hσ₁ hkeeps₁ (Nat.le_refl _)
      cases b with
      | false => exact hnext₁ _ rfl σ₁ f₁ env (.refl σ₁) hf₁ (.refl _ f₁) hsees₁
      | true =>
          rw [if_pos rfl, Course.bind_andThen, Course.bind_andThen]
          refine hbody (by omega) hf₁ hsees₁ (fun x => ?_)
            fun hreturns q hq σ₂ f₂ env₂ hσ₂ hf₂ hkeeps₂ hsees₂ => ?_
          · rw [Flow.goOn, Course.pure_andThen, Flow.goOn, Course.pure_andThen, hκ]
          · rw [Flow.goOn]
            refine hends hreturns q hq hf₂ hsees₂ fun f₃ env₃ hf₃ hkeeps₃ hsees₃ => ?_
            have hkeeps := (hkeeps₂.narrow hle).trans hkeeps₃
            exact ih (by omega) (by omega) hf₃ (hI _ _ (hI _ _ hIf hkeeps₁) hkeeps) hsees₃
              ((hnext₁.mono (Nat.sub_le _ 1)).from_ hσ₂ hkeeps (Nat.le_refl _))

theorem whileLoop (hA : A.code.Finished) {side : Bool → Nat} {header c : Nat}
    (hleads : A.code.func.Leads p header)
    (hx : A.Computes vars e.ty (A.value e) ⟨header, 0, p.count⟩ c q) (hbool : e.ty = .bool)
    (hfork : A.code.func.Forks q c side) (hle : p.count ≤ q.count)
    (hbody : A.Runs vars vars returns course ⟨side true, 0, q.count⟩ r)
    (hends : ∀ q ∈ r, A.code.func.Leads q header) :
    A.Runs vars vars false (fun env => Direct.loop
      (fun env => A.value e env >>= fun a => Direct.truth a) course A.rounds env) p
      (some ⟨side false, 0, n⟩) := by
  intro k σ f env κ hk hf hsees hκ hnext
  refine .leads hA hf hleads p.count fun f₁ hf₁ => ?_
  have hsees₁ := hsees.later (.refl σ) (hf₁ 0).slots
  have hcourse : (fun env => course env >>= fun flow => flow.goOn fun env => pure (.next env)) =
      course := by
    refine funext fun env => ?_
    have hgo : (fun flow : Flow => flow.goOn fun env => pure (.next env)) = pure := by
      funext flow
      cases flow <;> rfl
    rw [hgo, Course.bind_pure]
  rw [← hcourse]
  have hlater : A.Onward (k - 1 - 1) σ f p.count (some ⟨side false, 0, n⟩) vars κ :=
    (hnext rfl).mono (by omega)
  have hbehind := hlater.from_ (.refl σ) (hf₁ p.count).keeps (Nat.le_refl _)
  refine loop (p := ⟨header, 0, p.count⟩) (fun _ => True) (fun _ _ _ _ => trivial) hle
    (fun k σ f env course hf _ hsees h => ?_) hbody (fun _ q hq => ?_) (by omega) A.rounds
    (by omega) (hf₁ 0).stands trivial hsees₁ hκ hbehind
  · rw [Course.bind_andThen]
    refine (hx.decides hA hbool hfork hf hsees (fun b => if b then q.count else n)
      fun b σ₁ f₁ hσ₁ hf₁ => ?_)
    exact (h b σ₁ f₁ hσ₁ (hsees.later hσ₁ hf₁.slots) hf₁.stands hf₁.keeps).mono (by omega)
  · intro k σ f env κ hf hsees h
    rw [Course.pure_andThen]
    refine .leads hA hf (hends q hq) p.count fun f₂ hf₂ => ?_
    exact (h f₂ env (hf₂ 0).stands (hf₂ p.count).keeps (hsees.later (.refl σ) (hf₂ 0).slots)).mono
      (by omega)

/-- The counting variable goes on by one. -/
theorem returns_count (hA : A.code.Finished) {s : Spot} (hint : v.ty = .int)
    (hslot : A.code.slots.lookup v.pos = some slot) (hcode : CountCode A.code.func slot p s.block)
    (hs : s.index = 0) (hle : s.count ≤ p.count) (hfresh : v.pos ∉ vars.map (·.pos)) :
    Returns A (v :: vars) p Direct.increment s := by
  rintro k σ f env κ hf hsees h
  obtain ⟨i, rest, rfl, hvalue⟩ := hsees.counter hint hslot
  rw [Direct.increment, Course.pure_andThen]
  refine .gives hf hcode.load (by simp [Spot.instr]) (by simp [Spot.instr])
    (fun s _ _ _ => action_load hvalue) ?_
  have hf₁ := hf.past (.int i)
  have hi := Frame.value_past hf hcode.load (.int i)
  generalize f.past A.code.func p (.int i) = f₁ at hf₁ hi
  refine .gives (x := .int 1) hf₁.stands hcode.one (by simp [Spot.instr]) (by simp [Spot.instr])
    (fun _ _ _ _ => rfl) ?_
  have hf₂ := hf₁.stands.past (.int 1)
  have hone := Frame.value_past hf₁.stands hcode.one (.int 1)
  have hi₂ := (hf₂.keeps.values _ (Nat.lt_succ_self _)).trans hi
  generalize f₁.past A.code.func p.next (.int 1) = f₂ at hf₂ hone hi₂
  refine .gives (x := .int (i + 1)) hf₂.stands hcode.add (by simp [Spot.instr])
    (by simp [Spot.instr]) (fun _ _ _ _ => ?_) ?_
  · simp [action, Spot.instr, Frame.operand, hi₂, hone, binary, intOp, Bind.bind, Except.bind,
      Pure.pure, Except.pure]
  have hf₃ := hf₂.stands.past (.int (i + 1))
  have hsum := Frame.value_past hf₂.stands hcode.add (.int (i + 1))
  generalize f₂.past A.code.func p.next.next (.int (i + 1)) = f₃ at hf₃ hsum
  have hslots : f₃.slots = f.slots := hf₃.slots.trans (hf₂.slots.trans hf₁.slots)
  have hsees₃ := hsees.later (.refl σ) hslots
  refine storing hA hf₃.stands hsees₃ hcode.store ?_
  rw [hsum]
  have hf₄ := (hf₃.stands.stored slot (.int (i + 1))).past .nil
  refine .leads hA hf₄.stands hcode.leads s.count fun f₅ hf₅ => ?_
  have hspot : (⟨s.block, 0, s.count⟩ : Spot) = s := by rw [← hs]
  rw [hspot] at hf₅
  have hkeeps : f.Keeps s.count f₅ :=
    (hf₁.keeps.narrow hle).trans ((hf₂.keeps.narrow (by simp only [Spot.next]; omega)).trans
      ((hf₃.keeps.narrow (by simp only [Spot.next]; omega)).trans
        ((Frame.Keeps.stored s.count f₃ slot (.int (i + 1))).trans
          ((hf₄.keeps.narrow (by simp only [Spot.next]; omega)).trans (hf₅ s.count).keeps))))
  have hsees₄ := hsees₃.renew hA hslot hfresh (x := .int (i + 1)) (hint ▸ .int _)
  exact (h f₅ _ (hf₅ 0).stands hkeeps
    (hsees₄.later (.refl σ) ((hf₅ 0).slots.trans hf₄.slots))).mono (by omega)

/-- A loop that counts. -/
theorem forLoop (hA : A.code.Finished) {low high : Typed.Expr} {q r s : Spot} {e : Option Spot}
    {first last header : Nat} {side : Bool → Nat} (hint : v.ty = .int) (hlowInt : low.ty = .int)
    (hhighInt : high.ty = .int) (hfresh : v.pos ∉ vars.map (·.pos))
    (hlow : A.Computes vars low.ty (A.value low) p first q) (hle : p.count ≤ q.count)
    (hlt : first < q.count) (hhigh : A.Computes vars high.ty (A.value high) q last r)
    (hle' : q.count ≤ r.count) (hlt' : last < r.count) (hbind : BindCode A.code v first pos r)
    (hleads : A.code.func.Leads r.skip.next header) (hs : s = ⟨header, 0, r.skip.next.count⟩)
    (hload : A.code.func.Holds s (s.instr .load (some .int) [r.count] Pos.none 0 none))
    (htest : A.code.func.Holds s.next
      (s.next.instr .leq64 (some .bool) [s.count, last] Pos.none 0 none))
    (hfork : A.code.func.Forks s.next.next s.next.count side)
    (hbody : A.Runs (v :: vars) (v :: vars) returns course ⟨side true, 0, s.next.next.count⟩ e)
    (hends : returns = false →
      ∀ x ∈ e, CountCode A.code.func r.count x s.block ∧ s.count ≤ x.count) :
    A.Runs vars vars false (fun env => A.value low env >>= fun a => A.value high env >>= fun b =>
      Direct.loop (Direct.within b)
        (fun env => course env >>= fun flow => flow.goOn Direct.increment)
        A.rounds ((v.name, a) :: env) >>= fun flow => pure (flow.close env)) p
      (some ⟨side false, 0, n⟩) := by
  intro k σ f env κ hk hf hsees hκ hnext
  rw [Course.bind_andThen]
  refine hlow hf hsees fun σ₁ f₁ hσ₁ hf₁ hty₁ => ?_
  rw [Course.bind_andThen]
  refine hhigh hf₁.stands (hsees.later hσ₁ hf₁.slots) fun σ₂ f₂ hσ₂ hf₂ hty₂ => ?_
  rw [hhighInt] at hty₂
  obtain ⟨N, hN⟩ := Value.Has.exists_int hty₂
  have hkept : f₂.value first = f₁.value first := hf₂.keeps.values first hlt
  have hσ := hσ₁.trans hσ₂
  have hsees₂ := hsees.later hσ (hf₂.slots.trans hf₁.slots)
  have hfirst : (f₂.value first).Has A.table σ₂ (A.type v.ty) := by
    rw [hkept, hint, ← hlowInt]
    exact hty₁.mono hσ₂
  refine binding hA hf₂.stands hsees₂ hbind hfresh hfirst fun f₃ hf₃ hkeeps₃ hsees₃ => ?_
  rw [hkept] at hsees₃
  refine .leads hA hf₃ hleads r.skip.next.count fun f₄ hf₄ => ?_
  have hlast : f₄.value last = .int N := by
    rw [(hf₄ r.count).keeps.values last hlt', hkeeps₃.values last hlt', hN]
  have hkeeps₄ := hf₁.keeps.trans ((hf₂.keeps.trans
    ((hkeeps₃.trans (hf₄ r.count).keeps).narrow hle')).narrow hle)
  rw [← hs] at hf₄
  have hlt'' : last < s.count := by
    rw [hs]
    exact Nat.lt_of_lt_of_le hlt' (Nat.le_add_right _ 2)
  rw [Course.bind_andThen, hN]
  refine loop (n := n) (fun f => f.value last = .int N) (fun f f' hf hkeeps => ?_)
    (Nat.le_add_right _ 2) (fun k σ f env course hf hlast hsees h => ?_) hbody
    (fun hreturns x hx => returns_count hA hint hbind.slot (hends hreturns x hx).1 (by rw [hs])
      (hends hreturns x hx).2 hfresh)
    (by omega) A.rounds (by omega) (hf₄ 0).stands hlast (hsees₃.later (.refl _) (hf₄ 0).slots)
    (fun x => ?_) fun x hx σ₅ f₅ env₅ hσ₅ hf₅ hkeeps₅ hsees₅ => ?_
  · exact (hkeeps.values last hlt'').trans hf
  · obtain ⟨i, rest, rfl, hvalue⟩ := hsees.counter hint hbind.slot
    rw [Direct.within, Course.pure_andThen]
    refine .gives hf hload (by simp [Spot.instr]) (by simp [Spot.instr])
      (fun s _ _ _ => action_load hvalue) ?_
    have hf₁ := hf.past (.int i)
    have hi := Frame.value_past hf hload (.int i)
    have hlast₁ := (hf₁.keeps.values last hlt'').trans hlast
    generalize f.past A.code.func s (.int i) = f₁ at hf₁ hi hlast₁
    refine .gives (x := .bool (i ≤ N)) hf₁.stands htest (by simp [Spot.instr])
      (by simp [Spot.instr]) (fun _ _ _ _ => ?_) ?_
    · simp [action, Spot.instr, Frame.operand, hi, hlast₁, binary, intOp, Bind.bind, Except.bind,
        Pure.pure, Except.pure]
    have hf₂ := hf₁.stands.past (.bool (i ≤ N))
    have hcond := Frame.value_past hf₁.stands htest (.bool (i ≤ N))
    generalize f₁.past A.code.func s.next (.bool (i ≤ N)) = f₂ at hf₂ hcond
    refine .forks hA hf₂.stands hfork hcond (if decide (i ≤ N) then s.next.next.count else n)
      fun f₃ hf₃ => ?_
    refine (h _ σ f₃ (.refl σ) (hsees.later (.refl σ) ((hf₃ 0).slots.trans
      (hf₂.slots.trans hf₁.slots))) (hf₃ 0).stands ?_).mono (by omega)
    exact hf₁.keeps.trans ((hf₂.keeps.narrow (Nat.le_succ _)).trans (hf₃ _).keeps)
  · rw [Flow.close, Course.pure_andThen, hκ]
  · rw [Flow.close, Course.pure_andThen]
    refine (hnext rfl x hx σ₅ f₅ _ (hσ.trans hσ₅) hf₅ (hkeeps₄.trans (hkeeps₅.narrow ?_))
      (hsees.close [v] hsees₅)).mono (by omega)
    rw [hs]
    exact Nat.le_trans (Nat.le_trans hle hle') (Nat.le_add_right _ 2)

end Runs

end Activation

end Machine

end ClassLang
