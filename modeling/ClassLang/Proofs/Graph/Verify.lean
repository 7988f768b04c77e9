import ClassLang.Graph.Verify
import ClassLang.Proofs.Graph.Dominance
import ClassLang.Proofs.Graph.Rules

/-!
A graph that obeys the rules of construction and has no open block breaks no rule of
well-formed graphs.
-/

namespace ClassLang.Graph

/-! Places -/

/-- The last place of an element of a list without repetition is its only one. -/
theorem last_idxOf {l : List Nat} {i : Nat} (hl : l.Nodup) (hi : i ∈ l) :
    (l.reverse.idxOf? i).map (fun k => l.length - 1 - k) = some (l.idxOf i) := by
  obtain ⟨front, back, rfl, hfront⟩ := List.eq_append_cons_of_mem hi
  have hback : i ∉ back := (List.nodup_cons.1 (List.nodup_append.1 hl).2.1).1
  have hrev : (front ++ i :: back).reverse = back.reverse ++ i :: front.reverse := by simp
  have hidx : (back.reverse ++ i :: front.reverse).idxOf? i = some back.length := by
    rw [List.idxOf?_eq_some_iff]
    refine ⟨by simp, by simp, fun j hj => ?_⟩
    rw [List.getElem_append_left (by simpa using hj)]
    exact fun heq => hback (List.mem_reverse.1 (heq ▸ List.getElem_mem _))
  rw [hrev, hidx, List.idxOf_append_of_notMem hfront, List.idxOf_cons_self]
  simp

theorem findSome?_eq_some_of_all {α β : Type} {l : List α} {g : α → Option β} {x : β}
    (hall : ∀ a ∈ l, g a = none ∨ g a = some x) (hsome : ∃ a ∈ l, g a = some x) :
    l.findSome? g = some x := by
  obtain ⟨a, ha, hx⟩ := hsome
  have hfound : (l.findSome? g).isSome = true :=
    List.findSome?_isSome_iff.2 ⟨a, ha, by rw [hx]; rfl⟩
  obtain ⟨y, hy⟩ := Option.isSome_iff_exists.1 hfound
  obtain ⟨b, hb, hgb⟩ := List.exists_of_findSome?_eq_some hy
  rcases hall b hb with hnone | hsome
  · rw [hnone] at hgb
    cases hgb
  · rw [hy, ← hgb, hsome]

namespace Func

variable {f : Func} {dom : Doms} {a b i : Nat} {v : Instr}

/-- An instruction that one block lists once has one place. -/
theorem position?_eq (hnodup : (f.values b).Nodup) (hb : b ∈ f.order) (hi : i ∈ f.values b)
    (honly : ∀ c ∈ f.order, i ∈ f.values c → c = b) :
    f.position? i = some ((f.values b).idxOf i) := by
  have hplace := last_idxOf hnodup hi
  refine findSome?_eq_some_of_all (fun c hc => ?_) ⟨b, List.mem_reverse.2 hb, hplace⟩
  by_cases hi' : i ∈ f.values c
  · obtain rfl := honly c (List.mem_reverse.1 hc) hi'
    exact Or.inr hplace
  · have hnone : (f.values c).reverse.idxOf? i = none :=
      List.idxOf?_eq_none_iff.2 (by simpa using hi')
    exact Or.inl (by simp only [hnone, Option.map_none])

theorem Coded.position? (h : f.Coded dom) (hv : f.instr? i = some v) :
    f.position? i = some ((f.values v.block).idxOf i) := by
  refine position?_eq (h.nodup v.block) (h.home i v hv) ((h.placed _ i).2 ⟨v, hv, rfl⟩) ?_
  intro c _ hc
  obtain ⟨w, hw, rfl⟩ := (h.placed c i).1 hc
  exact congrArg Instr.block (Option.some.inj (hw.symm.trans hv))

/-! Blocks -/

theorem endViolations_nil {x : Block} (h : f.Ends b) (hx : f.block? b = some x) :
    f.endViolations b x = [] := by
  have hkind : f.kindOf b = x.kind := by simp [kindOf, hx]
  have hsuccs : f.succs b = x.succs := by simp [succs, hx]
  have hcontrols : f.controlsOf b = x.controls := by simp [controlsOf, hx]
  unfold endViolations
  rw [← hkind, ← hsuccs, ← hcontrols]
  cases h with
  | plain kind succs controls => simp [kind, succs]
  | branch kind succs controls cond type => simp [kind, succs, controls, cond, type]
  | ret result kind succs controls shape =>
      cases result with
      | none => simp [kind, succs, controls, shape]
      | some i => simp [kind, succs, controls, shape]

theorem Wired.edgeViolations (h : f.Wired) {x : Block} (hx : f.block? b = some x) :
    f.edgeViolations b x = [] := by
  have hsuccs : x.succs = f.succs b := by simp [succs, hx]
  have hpreds : x.preds = f.preds b := by simp [preds, hx]
  unfold Func.edgeViolations
  rw [hsuccs, hpreds, List.append_eq_nil_iff, List.filterMap_eq_nil_iff,
    List.filterMap_eq_nil_iff]
  refine ⟨fun c hc => ?_, fun c hc => ?_⟩
  · have hpred := (h.edges b c).1 hc
    simp [(h.inside b c hc).2, hpred]
  · have hsucc := (h.edges c b).2 hc
    simp [(h.inside c b hsucc).1, hsucc]

theorem filterMap_id_mapIdx_nil {α β : Type} {l : List α} {g : Nat → α → Option β}
    (h : ∀ j (hj : j < l.length), g j l[j] = none) : (l.mapIdx g).filterMap id = [] := by
  rw [List.filterMap_eq_nil_iff]
  intro x hx
  obtain ⟨j, hj, rfl⟩ := List.mem_mapIdx.1 hx
  exact h j hj

theorem Coded.argViolations (h : f.Coded dom) (hv : f.instr? i = some v) :
    f.argViolations b i v.args = [] := by
  refine filterMap_id_mapIdx_nil fun j hj => ?_
  obtain ⟨a, w, harg, hw⟩ := h.operands hv v.args[j] (List.getElem_mem hj)
  simp only [harg, h.position? hw, Option.isSome_some, if_true]

/-- A `phi` has an operand for each predecessor and comes first in its block. -/
theorem Coded.phiViolations (h : f.Coded dom) {front back : List Nat}
    (hvalues : f.values b = front ++ i :: back) (hv : f.instr? i = some v) (hblock : v.block = b)
    (hphi : v.op = .phi) : f.phiViolations b i v front.getLast? = [] := by
  subst hblock
  obtain ⟨hfirst, hoperands⟩ := h.phis i v hv hphi
  obtain rfl : front = [] := by
    cases front with
    | nil => rfl
    | cons x rest =>
        rw [hvalues, List.cons_append, List.head?_cons] at hfirst
        have hnodup := h.nodup v.block
        rw [hvalues, Option.some.inj hfirst, List.cons_append, List.nodup_cons] at hnodup
        exact absurd (by simp) hnodup.1
  unfold Func.phiViolations
  simp [hoperands.length_eq]

theorem Coded.valueViolations (h : f.Coded dom) {front back : List Nat}
    (hvalues : f.values b = front ++ back) :
    f.valueViolations b front.getLast? back = .ok [] := by
  induction back generalizing front with
  | nil => rfl
  | cons i back ih =>
      obtain ⟨v, hv, hblock⟩ := (h.placed b i).1 (by simp [hvalues])
      have hphi : (if v.op = .phi then f.phiViolations b i v front.getLast? else []) = [] := by
        split
        next hphi => exact h.phiViolations hvalues hv hblock hphi
        next => rfl
      have hinstr : f.instrViolations b i front.getLast? = .ok [] := by
        simp only [instrViolations, hv, h.sane i v hv, hblock, h.argViolations hv, hphi, if_true,
          Bind.bind, Except.bind, Pure.pure, Except.pure, Option.toList_none, List.map_nil,
          List.append_nil]
      have hrest : f.valueViolations b (front ++ [i]).getLast? back = .ok [] :=
        ih (by simp [hvalues])
      rw [List.getLast?_concat] at hrest
      simp only [Func.valueViolations, hinstr, hrest, Bind.bind, Except.bind, Pure.pure,
        Except.pure, List.append_nil]

theorem Good.shapeViolations (h : f.Good dom []) {bs : List Nat} (hbs : ∀ b ∈ bs, b ∈ f.order) :
    f.shapeViolations bs = .ok [] := by
  induction bs with
  | nil => rfl
  | cons b rest ih =>
      have hb := hbs b List.mem_cons_self
      obtain ⟨x, hx⟩ : ∃ x, f.block? b = some x :=
        ⟨_, Array.getElem?_eq_getElem (h.wired.known b hb)⟩
      have hvalues : f.valueViolations b none x.values = .ok [] := by
        have hx' : f.values b = [] ++ x.values := by simp [values, hx]
        exact h.coded.valueViolations hx'
      have hblock : f.blockViolations b = .ok [] := by
        simp only [blockViolations, hx, hvalues, (h.wired.ids b x hx).2, if_true,
          endViolations_nil (h.closed.ends b hb (by simp)) hx, h.wired.edgeViolations hx,
          Bind.bind, Except.bind, Pure.pure, Except.pure, List.append_nil]
      have hrest := ih fun c hc => hbs c (List.mem_cons_of_mem _ hc)
      simp only [Func.shapeViolations, hblock, hrest, Bind.bind, Except.bind, Pure.pure,
        Except.pure, List.append_nil]

/-! Uses -/

/-- What is there at the end of a block is computed in it or in a block that dominates it. -/
theorem Good.dominates (h : f.Good dom []) (hb : b ∈ f.order) (hi : f.Avail dom b i) :
    f.idoms.dominates (f.blockOf i) b = true := by
  obtain ⟨v, hv, hblock⟩ := hi
  obtain ⟨hentry, hclosed⟩ := mem_reversePostOrder h.wired.entry h.wired.mem_zero h.wired.known
    fun a _ c hc => (h.wired.inside a c hc).2
  have hreach : ∀ {c}, f.Reach c → c ∈ f.reversePostOrder := by
    intro c hc
    induction hc with
    | entry => exact hentry
    | step _ hedge ih => exact (hclosed _ ih).2 _ hedge
  have hsize : ∀ c ∈ f.reversePostOrder, c < f.blocks.size := fun c hc =>
    h.wired.known c (hclosed c hc).1
  have hcert : Certificate (fun x y => x = y ∨ x ∈ dom y) f.preds 0 := by
    refine ⟨fun x hx => ?_, fun x y p hx hne hp => ?_⟩
    · rcases hx with hx | hx
      · exact hx
      · rw [h.covered.root] at hx
        cases hx
    · exact List.mem_cons.1 (h.covered.edges p y hp (hx.resolve_left hne))
  have hhome : f.blockOf i = v.block := by simp [blockOf, hv]
  rw [hhome]
  exact idoms_dominates h.wired.entry (fun x _ y => (h.wired.edges x y).1) hsize hcert
    (hreach (h.closed.reach b hb (by simp))) hblock

theorem Good.useViolation?_phi (h : f.Good dom []) (hv : f.instr? i = some v)
    (hphi : v.op = .phi) {j : Nat} (hj : j < v.args.length) :
    v.args[j].bind (f.useViolation? f.idoms v.block i v.op j) = none := by
  have hoperands := List.forall₂_iff_get.1 (h.coded.phis i v hv hphi).operands
  have hj' : j < (f.preds v.block).length := hoperands.1 ▸ hj
  obtain ⟨a, harg, havail⟩ := hoperands.2 j hj hj'
  rw [List.get_eq_getElem] at harg havail
  have hpred := (h.wired.edges _ v.block).2 (List.getElem_mem hj')
  have hdom := h.dominates (h.wired.inside _ _ hpred).1 havail
  simp only [harg, Option.bind_some, useViolation?, hphi, if_true, List.getElem?_eq_getElem hj',
    hdom]

theorem Good.useViolation?_plain (h : f.Good dom []) (hv : f.instr? i = some v)
    (hphi : v.op ≠ .phi) {j : Nat} (hj : j < v.args.length) :
    v.args[j].bind (f.useViolation? f.idoms v.block i v.op j) = none := by
  obtain ⟨a, w, harg, hw, hplace⟩ := h.coded.uses i v hv hphi _ (List.getElem_mem hj)
  have hhome : f.blockOf a = w.block := by simp [blockOf, hw]
  rcases hplace with ⟨hblock, hsub⟩ | ⟨hne, hmem⟩
  · have hlt := idxOf_lt_of_sublist (h.coded.nodup v.block) hsub
    have hpos := h.coded.position? hv
    have hpos' := h.coded.position? hw
    rw [hblock] at hpos'
    simp only [harg, Option.bind_some, useViolation?, if_neg hphi, hhome, hblock, if_true, hpos,
      hpos', Option.getD_some, if_neg (Nat.not_le_of_lt hlt)]
  · have hdom := h.dominates (h.coded.home i v hv) (i := a) ⟨w, hw, Or.inr hmem⟩
    rw [hhome] at hdom
    simp only [harg, Option.bind_some, useViolation?, if_neg hphi, hhome, if_neg hne, hdom, if_true]

theorem Good.useViolations (h : f.Good dom []) (hb : b ∈ f.order) :
    f.useViolations f.idoms b = [] := by
  unfold Func.useViolations
  rw [List.append_eq_nil_iff, List.flatMap_eq_nil_iff]
  refine ⟨fun i hi => ?_, filterMap_id_mapIdx_nil fun j hj => ?_⟩
  · obtain ⟨v, hv, rfl⟩ := (h.coded.placed b i).1 hi
    simp only [hv]
    refine filterMap_id_mapIdx_nil fun j hj => ?_
    by_cases hphi : v.op = .phi
    · exact h.useViolation?_phi hv hphi hj
    · exact h.useViolation?_plain hv hphi hj
  · obtain ⟨c, hc⟩ : ∃ c, c = (((f.block? b).map (·.controls)).getD [])[j] := ⟨_, rfl⟩
    rw [← hc]
    cases c with
    | none => rfl
    | some c =>
        have havail := h.closed.controls b c (hc ▸ List.getElem_mem hj)
        simp [h.dominates hb havail]

/-- A graph that obeys the rules of construction breaks no rule. -/
theorem Good.violations (h : f.Good dom []) : f.violations = .ok [] := by
  have hshape : f.shapeViolations f.order = .ok [] := h.shapeViolations fun b hb => hb
  have hentry : f.entryViolations 0 = [] := by
    simp [entryViolations, h.wired.head, h.wired.entry_preds]
  have huses : (f.order.filter f.reversePostOrder.contains).flatMap
      (f.useViolations f.idoms) = [] :=
    List.flatMap_eq_nil_iff.2 fun b hb => h.useViolations (List.mem_filter.1 hb).1
  unfold Func.violations
  rw [h.wired.entry]
  cases horder : f.order with
  | nil =>
      have hhead := h.wired.head
      rw [horder] at hhead
      cases hhead
  | cons b rest =>
      rw [horder] at hshape huses
      simp only [hshape, hentry, huses, List.append_nil, List.isEmpty_nil, Bool.not_true,
        Bool.false_eq_true, if_false, Bind.bind, Except.bind, Pure.pure, Except.pure]

end Func

end ClassLang.Graph
