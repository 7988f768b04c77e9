import ClassLang.Proofs.Graph.Routes
import ClassLang.Proofs.Graph.Verify
import Mathlib.Data.List.TakeWhile

/-!
What a graph is like that breaks no rule: how its blocks end, which edges and operands
there are, and on which routes an operand is computed before it is used.
-/

namespace ClassLang.Graph

/-- A block that ends as its kind asks. -/
inductive Block.Ended (b : Block) : Prop
  | plain {c : Nat} (kind : b.kind = .plain) (succs : b.succs = [c])
  | branch {c yes no : Nat} (kind : b.kind = .branch) (controls : b.controls = [some c])
      (succs : b.succs = [yes, no])
  | ret (kind : b.kind = .ret)

/-! Instructions without a fault -/

namespace Instr

variable {f : Func} {v : Instr} {n : Nat} {op : Op} {fault : InstrFault}

theorem countFault?_eq_none : v.countFault? n = none ↔ v.args.length = n := by
  unfold countFault?
  split <;> simp_all

/-- The first operand of such an instruction is of the operation that is asked for. -/
theorem targetFault?_eq_none (h : v.targetFault? f n op fault = .ok none) (hop : op ≠ .invalid) :
    v.args.length = n ∧ ∃ a rest w, v.args = some a :: rest ∧ f.instr? a = some w ∧ w.op = op := by
  unfold targetFault? at h
  split at h
  next => cases h
  next hcount =>
    refine ⟨countFault?_eq_none.1 hcount, ?_⟩
    unfold firstOp at h
    split at h
    next a rest hargs =>
      have hfound : ((f.instr? a).map (·.op)).getD .invalid = op := by
        by_contra hne
        simp [Bind.bind, Except.bind, Pure.pure, Except.pure, hne] at h
      cases hw : f.instr? a with
      | none =>
          rw [hw] at hfound
          exact absurd hfound.symm hop
      | some w =>
          rw [hw] at hfound
          exact ⟨a, rest, w, hargs, hw, hfound⟩
    next => cases h

/-- An instruction without a fault has an operation and the operands that it asks for. -/
theorem fault?_eq_none (h : v.fault? f = .ok none) :
    v.op ≠ .invalid ∧ v.op ≠ .unlisted ∧ v.operandFault? f = .ok none := by
  unfold fault? at h
  split at h
  next => cases h
  next hvalid =>
    split at h
    next => cases h
    next =>
      split at h
      next => cases h
      next => simpa [h] using hvalid

end Instr

namespace Func

/-- The blocks of a graph and their instructions exist, each instruction occurs once in
the lists of the blocks, and the conditions and results of the blocks occur there too. -/
structure Listed (f : Func) : Prop where
  blocks : ∀ b ∈ f.order, b < f.blocks.size
  instrs : ∀ b ∈ f.order, ∀ i ∈ f.values b, i < f.instrs.size
  once : (f.order.flatMap f.values).Nodup
  controls : ∀ b ∈ f.order, ∀ c, some c ∈ f.controlsOf b → c ∈ f.order.flatMap f.values

/-- Whether instruction `i` is a `phi`. -/
def isPhi (f : Func) (i : Nat) : Bool := (f.instr? i).map (·.op) = some .phi

/-- Instruction `i` belongs to a block that every route to block `b` passes. -/
def Before (f : Func) (e i b : Nat) : Prop :=
  ∃ home, i ∈ f.values home ∧ OnEveryRoute f.succs e home b

/-- The operands of an instruction `v` behind the instructions `front` of block `b`. -/
def Fed (f : Func) (e b : Nat) (front : List Nat) (v : Instr) : Prop :=
  if v.op = .phi then
    ∀ (j p : Nat), (f.preds b)[j]? = some p → ∃ a : Nat, v.args[j]? = some (some a) ∧ f.Before e a p
  else
    ∀ arg ∈ v.args, ∃ a, arg = some a ∧
      (a ∈ front ∨ ∃ home, home ≠ b ∧ a ∈ f.values home ∧ OnEveryRoute f.succs e home b)

/-- A graph that control enters at `e` and that has what a run of it asks for. -/
structure Verified (f : Func) (e : Nat) : Prop where
  entry : f.entry = some e
  alone : f.preds e = []
  start : e ∈ f.reversePostOrder
  edges : Mirrored f.succs f.preds f.reversePostOrder
  blocks : ∀ b ∈ f.reversePostOrder, ∃ x, f.block? b = some x ∧ x.Ended
  phis : ∀ b ∈ f.reversePostOrder, ∃ phis rest, f.values b = phis ++ rest ∧
    (∀ i ∈ phis, f.isPhi i = true) ∧ ∀ i ∈ rest, f.isPhi i = false
  sane : ∀ b ∈ f.reversePostOrder, ∀ i ∈ f.values b,
    ∃ v, f.instr? i = some v ∧ v.fault? f = .ok none
  nodup : ∀ b ∈ f.reversePostOrder, (f.values b).Nodup
  fed : ∀ b ∈ f.reversePostOrder, ∀ front i back v, f.values b = front ++ i :: back →
    f.instr? i = some v → f.Fed e b front v
  controls : ∀ b ∈ f.reversePostOrder, ∀ c, some c ∈ f.controlsOf b → f.Before e c b

/-! Reports that are empty -/

theorem ok_append_nil {ε α : Type} {a b : Except ε (List α)}
    (h : (do let xs ← a; let ys ← b; return xs ++ ys) = .ok []) : a = .ok [] ∧ b = .ok [] := by
  cases a with
  | error _ => cases h
  | ok xs =>
      cases b with
      | error _ => cases h
      | ok ys =>
          obtain ⟨hxs, hys⟩ := List.append_eq_nil_iff.1 (Except.ok.inj h)
          exact ⟨congrArg _ hxs, congrArg _ hys⟩

theorem eq_none_of_filterMap_mapIdx {α β : Type} {l : List α} {g : Nat → α → Option β}
    (h : (l.mapIdx g).filterMap id = []) {j : Nat} (hj : j < l.length) : g j l[j] = none :=
  List.filterMap_eq_nil_iff.1 h _ (List.mem_mapIdx.2 ⟨j, hj, rfl⟩)

variable {f : Func} {e b i : Nat} {v : Instr} {front back : List Nat}

theorem blockViolations_nil {bs : List Nat} (h : f.shapeViolations bs = .ok []) (hb : b ∈ bs) :
    f.blockViolations b = .ok [] := by
  induction bs with
  | nil => cases hb
  | cons c bs ih =>
      obtain ⟨hc, hrest⟩ := ok_append_nil h
      rcases List.mem_cons.1 hb with rfl | hb
      · exact hc
      · exact ih hrest hb

/-- The parts of the report on a block. -/
theorem blockViolations_parts {x : Block} (h : f.blockViolations b = .ok [])
    (hx : f.block? b = some x) : f.endViolations b x = [] ∧ f.edgeViolations b x = [] ∧
      f.valueViolations b none x.values = .ok [] := by
  unfold blockViolations at h
  rw [hx] at h
  dsimp only at h
  cases hvalues : f.valueViolations b none x.values with
  | error _ => rw [hvalues] at h; cases h
  | ok values =>
      rw [hvalues] at h
      obtain ⟨hrest, rfl⟩ := List.append_eq_nil_iff.1 (Except.ok.inj h)
      obtain ⟨hrest, hedges⟩ := List.append_eq_nil_iff.1 hrest
      exact ⟨(List.append_eq_nil_iff.1 hrest).2, hedges, rfl⟩

theorem ended_of_endViolations {x : Block} (h : f.endViolations b x = []) : x.Ended := by
  unfold endViolations at h
  cases hkind : x.kind with
  | plain =>
      simp only [hkind, ite_eq_left_iff, reduceCtorEq, imp_false, not_not] at h
      obtain ⟨c, hc⟩ := List.length_eq_one_iff.1 h
      exact .plain hkind hc
  | branch =>
      simp only [hkind, List.append_eq_nil_iff, ite_eq_left_iff, reduceCtorEq, imp_false,
        not_not] at h
      obtain ⟨yes, no, hsuccs⟩ := List.length_eq_two.1 h.2
      obtain ⟨c, hc⟩ : ∃ c, x.controls = [some c] := by
        have hcontrols := h.1
        split at hcontrols
        next c hc => exact ⟨c, hc⟩
        next => cases hcontrols
      exact .branch hkind hc hsuccs
  | ret => exact .ret hkind
  | invalid => simp [hkind] at h
  | unlisted code => simp [hkind] at h

theorem mirrored_of_edgeViolations {x : Block} (h : f.edgeViolations b x = [])
    (hx : f.block? b = some x) {c : Nat} (hc : c ∈ f.succs b) : c ∈ f.order ∧ b ∈ f.preds c := by
  have hsuccs : f.succs b = x.succs := by simp [succs, hx]
  rw [hsuccs] at hc
  have hout := List.filterMap_eq_nil_iff.1 (List.append_eq_nil_iff.1 h).1 c hc
  by_cases hin : c ∈ f.order
  · by_cases hpred : b ∈ f.preds c
    · exact ⟨hin, hpred⟩
    · simp [hin, hpred] at hout
  · simp [hin] at hout

/-- The report on an instruction somewhere in a block. -/
theorem instrViolations_nil {before : Option Nat}
    (h : f.valueViolations b before (front ++ i :: back) = .ok []) :
    f.instrViolations b i (front.getLast?.or before) = .ok [] := by
  induction front generalizing before with
  | nil => exact (ok_append_nil h).1
  | cons x front ih =>
      have hrest := ih (ok_append_nil h).2
      cases hlast : front.getLast? with
      | none =>
          rw [hlast] at hrest
          simpa [List.getLast?_cons, hlast] using hrest
      | some y =>
          rw [hlast] at hrest
          simpa [List.getLast?_cons, hlast] using hrest

/-- The parts of the report on an instruction. -/
theorem instrViolations_parts {before : Option Nat} (h : f.instrViolations b i before = .ok [])
    (hv : f.instr? i = some v) : v.block = b ∧ f.argViolations b i v.args = [] ∧
      (v.op = .phi → f.phiViolations b i v before = []) ∧ v.fault? f = .ok none := by
  unfold instrViolations at h
  rw [hv] at h
  dsimp only at h
  cases hfault : v.fault? f with
  | error _ => rw [hfault] at h; cases h
  | ok fault =>
      rw [hfault] at h
      obtain ⟨hrest, hnone⟩ := List.append_eq_nil_iff.1 (Except.ok.inj h)
      obtain ⟨hrest, hphi⟩ := List.append_eq_nil_iff.1 hrest
      obtain ⟨hblock, hargs⟩ := List.append_eq_nil_iff.1 hrest
      refine ⟨?_, hargs, fun hop => by rwa [if_pos hop] at hphi, ?_⟩
      · by_contra hne
        simp [hne] at hblock
      · cases fault with
        | none => rfl
        | some fault => simp at hnone

/-- A listed operand is in the list of a block. -/
theorem mem_values_of_position? {a : Nat} (h : (f.position? a).isSome = true) :
    ∃ c ∈ f.order, a ∈ f.values c := by
  obtain ⟨c, hc, hfound⟩ := List.findSome?_isSome_iff.1 h
  refine ⟨c, List.mem_reverse.1 hc, ?_⟩
  by_contra ha
  have hnone : (f.values c).reverse.idxOf? a = none :=
    List.idxOf?_eq_none_iff.2 (by simpa using ha)
  simp [hnone] at hfound

theorem operand_of_argViolations {arg : Option Nat} (h : f.argViolations b i v.args = [])
    (harg : arg ∈ v.args) : ∃ a c, arg = some a ∧ c ∈ f.order ∧ a ∈ f.values c := by
  obtain ⟨j, hj, rfl⟩ := List.getElem_of_mem harg
  have hnone := eq_none_of_filterMap_mapIdx h hj
  cases hval : v.args[j] with
  | none => simp [hval] at hnone
  | some a =>
      simp only [hval, ite_eq_left_iff, reduceCtorEq, imp_false, not_not] at hnone
      obtain ⟨c, hc, ha⟩ := mem_values_of_position? hnone
      exact ⟨a, c, rfl, hc, ha⟩

/-! Places of instructions -/

/-- The first instructions of a list are each a `phi`, if each `phi` starts it or follows
one. -/
theorem phis_first {l : List Nat} (h : ∀ front i back, l = front ++ i :: back →
    f.isPhi i = true → ∀ j ∈ front.getLast?, f.isPhi j = true) :
    ∃ phis rest, l = phis ++ rest ∧ (∀ i ∈ phis, f.isPhi i = true) ∧
      ∀ i ∈ rest, f.isPhi i = false := by
  refine ⟨l.takeWhile f.isPhi, l.dropWhile f.isPhi, List.takeWhile_append_dropWhile.symm,
    fun i hi => List.mem_takeWhile_imp hi, fun i hi => ?_⟩
  -- going back from a later `phi` one meets the instruction that ended the first run
  obtain ⟨mid, back, hsplit⟩ := List.append_of_mem hi
  have hl : l = l.takeWhile f.isPhi ++ mid ++ i :: back := by
    rw [List.append_assoc, ← hsplit, List.takeWhile_append_dropWhile]
  clear hi
  induction mid using List.reverseRecOn generalizing i back with
  | nil =>
      have hne : l.dropWhile f.isPhi ≠ [] := by simp [hsplit]
      have hhead := List.head_dropWhile_not f.isPhi hne
      simpa [hsplit] using hhead
  | append_singleton mid j ih =>
      have hj : f.isPhi j = false :=
        ih j (i :: back) (by simpa using hsplit) (by simpa using hl)
      by_contra hphi
      have hlast := h _ i back hl (by simpa using hphi) j (by simp)
      rw [hj] at hlast
      cases hlast

variable (hshape : f.shapeViolations f.order = .ok []) (hlisted : f.Listed)

include hshape hlisted

/-- What the reports say of an instruction in a block. -/
theorem instr_parts (hb : b ∈ f.order) (hvalues : f.values b = front ++ i :: back) :
    ∃ v, f.instr? i = some v ∧ v.block = b ∧ f.argViolations b i v.args = [] ∧
      (v.op = .phi → f.phiViolations b i v front.getLast? = []) ∧ v.fault? f = .ok none := by
  obtain ⟨x, hx⟩ : ∃ x, f.block? b = some x :=
    ⟨_, Array.getElem?_eq_getElem (hlisted.blocks b hb)⟩
  obtain ⟨v, hv⟩ : ∃ v, f.instr? i = some v :=
    ⟨_, Array.getElem?_eq_getElem (hlisted.instrs b hb i (by simp [hvalues]))⟩
  obtain ⟨_, _, hparts⟩ := blockViolations_parts (blockViolations_nil hshape hb) hx
  have hx' : x.values = front ++ i :: back := by rw [← hvalues, values, hx]; rfl
  rw [hx'] at hparts
  have hparts := instrViolations_nil hparts
  rw [Option.or_none] at hparts
  exact ⟨v, hv, instrViolations_parts hparts hv⟩

/-- The block that an instruction names is the only one that lists it. -/
theorem blockOf_eq (hb : b ∈ f.order) (hi : i ∈ f.values b) : f.blockOf i = b := by
  obtain ⟨front, back, hvalues⟩ := List.append_of_mem hi
  obtain ⟨v, hv, hblock, _⟩ := instr_parts hshape hlisted hb hvalues
  simpa [blockOf, hv] using hblock

theorem position?_listed (hb : b ∈ f.order) (hi : i ∈ f.values b) :
    f.position? i = some ((f.values b).idxOf i) := by
  refine position?_eq ((List.nodup_flatMap.1 hlisted.once).1 b hb) hb hi fun c hc hi' => ?_
  rw [← blockOf_eq hshape hlisted hc hi', blockOf_eq hshape hlisted hb hi]

theorem phis_listed (hb : b ∈ f.order) : ∃ phis rest, f.values b = phis ++ rest ∧
    (∀ i ∈ phis, f.isPhi i = true) ∧ ∀ i ∈ rest, f.isPhi i = false := by
  refine phis_first fun front i back hvalues hphi j hj => ?_
  obtain ⟨v, hv, _, _, hplace, _⟩ := instr_parts hshape hlisted hb hvalues
  have hop : v.op = .phi := by simpa [isPhi, hv] using hphi
  have hj : front.getLast? = some j := hj
  have hmem : j ∈ f.values b := by
    rw [hvalues]
    exact List.mem_append_left _ (List.mem_of_getLast? hj)
  obtain ⟨w, hw⟩ : ∃ w, f.instr? j = some w :=
    ⟨_, Array.getElem?_eq_getElem (hlisted.instrs b hb j hmem)⟩
  have hlast := (List.append_eq_nil_iff.1 (hplace hop)).2
  rw [hj, Option.bind_some, hw] at hlast
  have hwop : w.op = .phi := by simpa using hlast
  simp [isPhi, hw, hwop]

/-- What the reports say of the operands of an instruction. -/
theorem fed_listed (hdom : ∀ a c, f.idoms.dominates a c = true → OnEveryRoute f.succs e a c)
    (huses : f.useViolations f.idoms b = []) (hb : b ∈ f.order)
    (hvalues : f.values b = front ++ i :: back) (hv : f.instr? i = some v) :
    f.Fed e b front v := by
  obtain ⟨w, hw, _, hargs, hphis, _⟩ := instr_parts hshape hlisted hb hvalues
  obtain rfl : v = w := Option.some.inj (hv.symm.trans hw)
  have huse : ∀ j a, v.args[j]? = some (some a) →
      f.useViolation? f.idoms b i v.op j a = none := by
    intro j a hj
    obtain ⟨hlt, harg⟩ := List.getElem?_eq_some_iff.1 hj
    have hall := List.flatMap_eq_nil_iff.1 (List.append_eq_nil_iff.1 huses).1 i (by simp [hvalues])
    rw [hv] at hall
    have hnone := eq_none_of_filterMap_mapIdx hall hlt
    rwa [harg, Option.bind_some] at hnone
  unfold Fed
  split
  next hop =>
    intro j p hp
    have hlen : v.args.length = (f.preds b).length := by
      have hcount := (List.append_eq_nil_iff.1 (hphis hop)).1
      by_contra hne
      simp [hne] at hcount
    have hj : j < v.args.length := hlen ▸ (List.getElem?_eq_some_iff.1 hp).1
    obtain ⟨a, c, harg, hc, ha⟩ := operand_of_argViolations hargs (List.getElem_mem hj)
    have harg : v.args[j]? = some (some a) := by rw [List.getElem?_eq_getElem hj, harg]
    have hnone := huse j a harg
    simp only [useViolation?, hop, if_true, hp, blockOf_eq hshape hlisted hc ha,
      ite_eq_left_iff, reduceCtorEq, imp_false, not_not] at hnone
    exact ⟨a, harg, c, ha, hdom c p (by simpa using hnone)⟩
  next hop =>
    intro arg harg
    obtain ⟨a, c, rfl, hc, ha⟩ := operand_of_argViolations hargs harg
    obtain ⟨j, hj, hval⟩ := List.getElem_of_mem harg
    have hnone := huse j a (by rw [List.getElem?_eq_getElem hj, hval])
    rw [useViolation?, if_neg hop, blockOf_eq hshape hlisted hc ha] at hnone
    refine ⟨a, rfl, ?_⟩
    by_cases hcb : c = b
    · subst hcb
      rw [if_pos rfl, position?_listed hshape hlisted hb ha,
        position?_listed hshape hlisted hb (i := i) (by simp [hvalues])] at hnone
      have hlt : (f.values c).idxOf a < (f.values c).idxOf i := by
        by_contra hge
        simp [Nat.not_lt.1 hge] at hnone
      have hnodup := (List.nodup_flatMap.1 hlisted.once).1 c hb
      rw [hvalues] at hnodup hlt
      exact Or.inl (mem_of_idxOf_lt hnodup hlt)
    · rw [if_neg hcb] at hnone
      exact Or.inr ⟨c, hcb, ha, hdom c b (by by_contra hno; simp [hno] at hnone)⟩

theorem controls_listed
    (hdom : ∀ a c, f.idoms.dominates a c = true → OnEveryRoute f.succs e a c)
    (huses : f.useViolations f.idoms b = []) (hb : b ∈ f.order) {c : Nat}
    (hc : some c ∈ f.controlsOf b) : f.Before e c b := by
  obtain ⟨home, hhome, hmem⟩ := List.mem_flatMap.1 (hlisted.controls b hb c hc)
  refine ⟨home, hmem, ?_⟩
  obtain ⟨j, hj, hval⟩ := List.getElem_of_mem hc
  have hnone := eq_none_of_filterMap_mapIdx (List.append_eq_nil_iff.1 huses).2 hj
  unfold controlsOf at hval
  simp only [hval, blockOf_eq hshape hlisted hhome hmem, ite_eq_left_iff, reduceCtorEq, imp_false,
    not_not, Bool.or_eq_true, decide_eq_true_eq] at hnone
  rcases hnone with rfl | hnone
  · exact .refl home
  · exact hdom home b hnone

omit hshape hlisted

/-- The reports that together are empty. -/
theorem violations_parts (hok : f.violations = .ok []) : ∃ e, f.entry = some e ∧
    f.order.head? = some e ∧ f.preds e = [] ∧ f.shapeViolations f.order = .ok [] ∧
    ∀ b ∈ f.order, b ∈ f.reversePostOrder → f.useViolations f.idoms b = [] := by
  unfold violations at hok
  split at hok
  next => cases hok
  next => cases hok
  next _ _ e hentry _ =>
  cases hshape : f.shapeViolations f.order with
  | error _ => rw [hshape] at hok; cases hok
  | ok shape =>
      rw [hshape] at hok
      simp only [Bind.bind, Except.bind, Pure.pure, Except.pure] at hok
      split at hok
      next hfound => exact absurd (Except.ok.inj hok) (by simpa using hfound)
      next hfound =>
        have hfound : f.entryViolations e ++ shape = [] := by simpa using hfound
        obtain ⟨hentries, rfl⟩ := List.append_eq_nil_iff.1 hfound
        obtain ⟨hhead, hpreds⟩ := List.append_eq_nil_iff.1 hentries
        have huses := List.flatMap_eq_nil_iff.1 (Except.ok.inj hok)
        refine ⟨e, hentry, ?_, ?_, rfl, fun b hb hreach => ?_⟩
        · by_contra hne
          simp [hne] at hhead
        · by_contra hne
          simp [hne] at hpreds
        · exact huses b (List.mem_filter.2 ⟨hb, by simpa using hreach⟩)

/-- A graph that breaks no rule has what a run of it asks for. -/
theorem verified (hok : f.violations = .ok []) (hlisted : f.Listed) : ∃ e, f.Verified e := by
  obtain ⟨e, hentry, hhead, halone, hshape, huses⟩ := violations_parts hok
  have hblock : ∀ b ∈ f.order, ∃ x, f.block? b = some x ∧ f.blockViolations b = .ok [] :=
    fun b hb => ⟨_, Array.getElem?_eq_getElem (hlisted.blocks b hb), blockViolations_nil hshape hb⟩
  have hedge : ∀ b ∈ f.order, ∀ c ∈ f.succs b, c ∈ f.order ∧ b ∈ f.preds c := by
    intro b hb c hc
    obtain ⟨x, hx, hnil⟩ := hblock b hb
    exact mirrored_of_edgeViolations (blockViolations_parts hnil hx).2.1 hx hc
  obtain ⟨hstart, hreach⟩ := mem_reversePostOrder hentry (List.mem_of_mem_head? hhead)
    hlisted.blocks fun a ha c hc => (hedge a ha c hc).1
  have hmirrored : Mirrored f.succs f.preds f.reversePostOrder := fun a ha c hc =>
    ⟨(hreach a ha).2 c hc, (hedge a (hreach a ha).1 c hc).2⟩
  have hdom : ∀ a c, f.idoms.dominates a c = true → OnEveryRoute f.succs e a c := fun _ _ =>
    onEveryRoute_of_dominates hentry hmirrored fun c hc => hlisted.blocks c (hreach c hc).1
  refine ⟨e, hentry, halone, hstart, hmirrored, ?_, ?_, ?_, ?_, ?_, ?_⟩
  · intro b hb
    obtain ⟨x, hx, hnil⟩ := hblock b (hreach b hb).1
    exact ⟨x, hx, ended_of_endViolations (blockViolations_parts hnil hx).1⟩
  · exact fun b hb => phis_listed hshape hlisted (hreach b hb).1
  · intro b hb i hi
    obtain ⟨front, back, hvalues⟩ := List.append_of_mem hi
    obtain ⟨v, hv, _, _, _, hfault⟩ := instr_parts hshape hlisted (hreach b hb).1 hvalues
    exact ⟨v, hv, hfault⟩
  · exact fun b hb => (List.nodup_flatMap.1 hlisted.once).1 b (hreach b hb).1
  · exact fun b hb front i back v hvalues hv => fed_listed hshape hlisted hdom
      (huses b (hreach b hb).1 hb) (hreach b hb).1 hvalues hv
  · exact fun b hb c hc => controls_listed hshape hlisted hdom (huses b (hreach b hb).1 hb)
      (hreach b hb).1 hc

end Func

end ClassLang.Graph
