import ClassLang.Proofs.Llvm.Blocks

/-!
Routes through a function that has been written. A route through its blocks follows a route
through the graph, and passes each chain that it enters from its start on. So what must be
passed in the graph is passed here, and the blocks that lead to a phi are the ends of the
chains of the blocks that lead to it in the graph.
-/

namespace ClassLang.Llvm

open Graph (Route OnEveryRoute)
open Relation (ReflTransGen TransGen)

variable {c : Context} {e : Env} {dom : Graph.Doms} {s : Writer} {opens : List Nat}
  {a b k k' j n : Nat} {t : Terminator}

namespace Body

variable {body : Body}

theorem Follows.mem_succs (h : body.Follows n k k') : k' ∈ body.succs k := by
  obtain ⟨x, failing, ht, _⟩ := h
  exact Body.mem_succs.2 ⟨_, ht, by simp [Terminator.targets]⟩

theorem Follows.le (h : body.Follows n k k') : n ≤ k' := by
  obtain ⟨_, _, _, hn⟩ := h
  exact hn

end Body

/-! Chains -/

/-- Blocks of the graph start in the first blocks, and chains go on behind them. -/
theorem Within.head (hw : Within c s b k) (hk : k < c.order.length) : k = c.order.idxOf b := by
  obtain rfl | ⟨j, _, hj⟩ := hw.cases_tail
  · rfl
  · exact absurd hj.le (Nat.not_le.2 hk)

section

variable (hc : Sound c e dom) (h : Inv c e dom opens s)

include hc

theorem targets_lt (ht : t.targets = (c.graph.succs b).map c.order.idxOf) :
    ∀ o ∈ t.targets, o < c.order.length := by
  intro o ho
  rw [ht] at ho
  obtain ⟨a, ha, rfl⟩ := List.mem_map.1 ho
  exact hc.idxOf_lt (hc.inside b a ha)

/-- The last block of a chain is not one that a division ends. -/
theorem Stops.last (hstop : Stops c s b k) (j : Nat) : ¬s.body.Follows c.order.length k j := by
  obtain ⟨t, ht, htargets⟩ := hstop.leads
  rintro ⟨x, failing, ht', hj⟩
  obtain rfl := Option.some.inj (ht.symm.trans ht')
  exact Nat.not_lt.2 hj (targets_lt hc htargets j (by simp [Terminator.targets]))

include h

theorem Body.Follows.lt (hf : s.body.Follows c.order.length k k') : k < k' := by
  obtain ⟨x, failing, ht, hk'⟩ := hf
  cases (h.ends k _ ht).leads with
  | split _ _ _ _ next => exact next
  | last _ _ targets =>
      exact absurd (targets_lt hc targets k' (by simp [Terminator.targets])) (Nat.not_lt.2 hk')

theorem Within.unique (ha : a ∈ c.order) (hb : b ∈ c.order) (hw : Within c s a k)
    (hw' : Within c s b k) : a = b := by
  induction hw with
  | refl => exact hc.idxOf_inj ha (hw'.head (hc.idxOf_lt ha))
  | tail _ hf ih =>
      obtain rfl | ⟨j, hj, hf'⟩ := hw'.cases_tail
      · exact absurd hf.le (Nat.not_le.2 (hc.idxOf_lt hb))
      · obtain rfl := h.single _ _ _ hf.le hf.mem_succs hf'.mem_succs
        exact ih hj

/-! Routes -/

/-- Whoever follows in a chain is only reached from the one before. -/
theorem Body.Follows.passes (hf : s.body.Follows c.order.length k k') :
    OnEveryRoute s.body.succs 0 k k' := by
  intro l hl
  cases hl with
  | start => exact absurd hf.le (Nat.not_le.2 hc.length_pos)
  | step front edge =>
      obtain rfl := h.single _ _ _ hf.le hf.mem_succs edge
      exact List.mem_cons_of_mem _ front.mem

theorem passes_chain (hf : ReflTransGen (s.body.Follows c.order.length) k k') :
    OnEveryRoute s.body.succs 0 k k' := by
  induction hf with
  | refl => exact .refl k
  | tail _ hf ih => exact ih.trans (hf.passes hc h)

/-- A route through the blocks passes what must be passed in the graph. -/
theorem passes_dom {l : List Nat} (hl : Route s.body.succs 0 k l) (hb : b ∈ c.order)
    (hw : Within c s b k) (ha : a ∈ dom b) (hne : a ≠ b) (hw' : Within c s a k') : k' ∈ l := by
  induction hl generalizing b with
  | start =>
      have hzero := hw.head hc.length_pos
      rw [← hc.idxOf_zero] at hzero
      obtain rfl := hc.idxOf_inj (hc.mem_order.2 hc.good.wired.mem_zero) hzero
      rw [hc.good.covered.root] at ha
      cases ha
  | @step p k l front edge ih =>
      by_cases hk : c.order.length ≤ k
      · -- inside a chain the route comes from the block before
        obtain rfl | ⟨j, hj, hf⟩ := hw.cases_tail
        · exact absurd hk (Nat.not_le.2 (hc.idxOf_lt hb))
        · obtain rfl := h.single _ _ _ hk hf.mem_succs edge
          exact List.mem_cons_of_mem _ (ih hb hj ha hne)
      · -- at its start the route comes from the end of another chain
        obtain ⟨t, ht, ho⟩ := Body.mem_succs.1 edge
        cases (h.ends p t ht).leads with
        | split behind _ behind' =>
            rcases List.mem_pair.1 ho with rfl | rfl
            · exact absurd behind hk
            · exact absurd behind' hk
        | failed => cases ho
        | @last _ b' mem within targets =>
            rw [targets] at ho
            obtain ⟨b'', hb'', hidx⟩ := List.mem_map.1 ho
            have hhead := hw.head (Nat.not_le.1 hk)
            obtain rfl := hc.idxOf_inj (hc.inside b' b'' hb'') (hidx.trans hhead)
            have hdom := hc.good.covered.edges b' b'' ((hc.good.wired.edges b' b'').1 hb'') ha
            by_cases hab : a = b'
            · subst hab
              have hchain := continues_to_last hw' within (Stops.last hc ⟨within, t, ht, targets⟩)
              exact List.mem_cons_of_mem _ (passes_chain hc h hchain _ front)
            · exact List.mem_cons_of_mem _
                (ih mem within ((List.mem_cons.1 hdom).resolve_left hab) hab)

/-- What comes before a block is another block that every route passes. -/
theorem Before.passes (hbefore : Before c dom s k' k) :
    k' ≠ k ∧ OnEveryRoute s.body.succs 0 k' k := by
  rcases hbefore with hchain | ⟨a, b, ha, hne, hmem, hb, hw', hw⟩
  · refine ⟨?_, passes_chain hc h hchain.to_reflTransGen⟩
    have hlt : k' < k := by
      induction hchain with
      | single hf => exact hf.lt hc h
      | tail _ hf ih => exact Nat.lt_trans ih (hf.lt hc h)
    exact Nat.ne_of_lt hlt
  · refine ⟨?_, fun l hl => passes_dom hc h hl hb hw ha hne hw'⟩
    rintro rfl
    exact hne (hw'.unique hc h hmem hb hw)

/-- What may be used has been computed on every route. -/
theorem Used.available {i : Nat} (hused : Used c dom s n k i) : s.body.Available n k i := by
  obtain ⟨k', i', l, hl, hn, hplace⟩ := hused
  exact ⟨k', i', l, hl, hn, hplace.imp_right (Before.passes hc h)⟩

end

/-! Predecessors -/

namespace Body

variable {body : Body}

theorem mem_preds : j ∈ body.preds k ↔ k ∈ body.succs j := by
  unfold preds
  rw [List.mem_flatMap]
  constructor
  · rintro ⟨j', _, hj⟩
    obtain ⟨o, ho, rfl⟩ := List.mem_map.1 hj
    obtain ⟨ho, hk⟩ := List.mem_filter.1 ho
    exact of_decide_eq_true hk ▸ ho
  · intro hk
    obtain ⟨t, ht, _⟩ := Body.mem_succs.1 hk
    obtain ⟨x, hx, _⟩ := Option.bind_eq_some_iff.1 ht
    exact ⟨j, List.mem_range.2 (List.getElem?_eq_some_iff.1 hx).1,
      List.mem_map.2 ⟨k, List.mem_filter.2 ⟨hk, by simp⟩, rfl⟩⟩

/-- If no block leads to another one twice, each predecessor is there once. -/
theorem nodup_preds (h : ∀ j, (body.succs j).Nodup) : (body.preds k).Nodup := by
  unfold preds
  rw [List.nodup_flatMap]
  constructor
  · intro j _
    rw [List.filter_eq, List.map_replicate, List.nodup_replicate]
    exact List.nodup_iff_count_le_one.1 (h j) k
  · apply List.nodup_range.imp
    intro j j' hne x hx hx'
    obtain ⟨_, _, rfl⟩ := List.mem_map.1 hx
    obtain ⟨_, _, heq⟩ := List.mem_map.1 hx'
    exact hne heq.symm

end Body

section

variable (hc : Sound c e dom)

include hc

theorem nodup_targets (ht : t.targets = (c.graph.succs b).map c.order.idxOf) :
    t.targets.Nodup := by
  rw [ht]
  apply List.Nodup.map_on _ (hc.good.wired.single b).1
  exact fun x hx y _ heq => hc.idxOf_inj (hc.inside b x hx) heq

theorem nodup_succs (h : Inv c e dom opens s) (k : Nat) : (s.body.succs k).Nodup := by
  unfold Body.succs
  cases ht : s.body.terminator? k with
  | none => exact List.nodup_nil
  | some t =>
      cases (h.ends k t ht).leads with
      | split _ _ _ _ _ ne => simpa [Terminator.targets] using ne
      | failed => exact List.nodup_nil
      | last _ _ targets => exact nodup_targets hc targets

/-- A chain has one end. -/
theorem Stops.unique (hstop : Stops c s b k) (hstop' : Stops c s b k') : k = k' := by
  have hchain := continues_to_last hstop.within hstop'.within (hstop'.last hc)
  obtain rfl | ⟨j, hj, _⟩ := hchain.cases_head
  · rfl
  · exact absurd hj (hstop.last hc j)

/-- The blocks that lead to the start of a chain are the ends of the chains of the blocks
that lead to its block in the graph. -/
theorem preds_stops (h : Inv c e dom opens s) (hb : b ∈ c.order) {stop : Nat → Nat}
    (hstop : ∀ p ∈ c.graph.preds b, Stops c s p (stop p)) :
    ((c.graph.preds b).map stop).Nodup ∧
      ((c.graph.preds b).map stop).Perm (s.body.preds (c.order.idxOf b)) := by
  have hnodup : ((c.graph.preds b).map stop).Nodup := by
    apply List.Nodup.map_on _ (hc.good.wired.single b).2
    intro p hp q hq heq
    have hwithin := (hstop q hq).within
    rw [← heq] at hwithin
    exact (hstop p hp).within.unique hc h (hc.mem_of_pred hp) (hc.mem_of_pred hq) hwithin
  refine ⟨hnodup, (List.perm_ext_iff_of_nodup hnodup (Body.nodup_preds (nodup_succs hc h))).2
    fun j => ?_⟩
  rw [Body.mem_preds, List.mem_map]
  constructor
  · rintro ⟨p, hp, rfl⟩
    obtain ⟨t, ht, htargets⟩ := (hstop p hp).leads
    rw [Body.mem_succs]
    exact ⟨t, ht, htargets ▸ List.mem_map_of_mem ((hc.good.wired.edges p b).2 hp)⟩
  · intro hedge
    obtain ⟨t, ht, ho⟩ := Body.mem_succs.1 hedge
    have hlt := hc.idxOf_lt hb
    cases (h.ends j t ht).leads with
    | split behind _ behind' =>
        rcases List.mem_pair.1 ho with heq | heq
        · exact absurd behind (Nat.not_le.2 (heq ▸ hlt))
        · exact absurd behind' (Nat.not_le.2 (heq ▸ hlt))
    | failed => cases ho
    | @last _ p mem within targets =>
        have ho' := ho
        rw [targets] at ho'
        obtain ⟨b', hb', hidx⟩ := List.mem_map.1 ho'
        obtain rfl := hc.idxOf_inj (hc.inside p b' hb') hidx
        have hp := (hc.good.wired.edges p b').1 hb'
        exact ⟨p, hp, (hstop p hp).unique hc ⟨within, t, ht, targets⟩⟩

end

end ClassLang.Llvm

/-!
Filling in the phis of a function. When all blocks have been written, each phi gets the
results of its operands in the graph, each with the end of the chain of its block.
-/

namespace ClassLang.Llvm

variable {c : Context} {e : Env} {dom : Graph.Doms} {s s' : Writer} {v : Graph.Instr}
  {number k i : Nat} {pairs : List (Operand × Nat)}

/-- What a phi chooses from: for each operand in the graph its result, with the last block of
what the predecessor became that it belongs to. -/
def Chooses (f : Graph.Func) (s : Writer) (v : Graph.Instr) (pairs : List (Operand × Nat)) :
    Prop :=
  List.Forall₂ (fun (arg : Option Nat × Nat) (pair : Operand × Nat) =>
      (∃ a, arg.1 = some a ∧ s.results[a]? = some (some pair.1)) ∧
        s.ends.lookup arg.2 = some pair.2)
    (v.args.zip (f.preds v.block)) pairs

/-- The state where the phi number `number` chooses from `pairs`. -/
def Writer.filled (s : Writer) (number : Nat) (pairs : List (Operand × Nat)) : Writer :=
  { s with
    blocks := s.blocks.map fun b => { b with lines := b.lines.map fun l =>
      if l.number = number then { l with instr := .phi l.instr.type pairs } else l } }

namespace Writer

@[simp] theorem size_filled : (s.filled number pairs).blocks.size = s.blocks.size :=
  Array.size_map ..

theorem getElem?_filled : (s.filled number pairs).body[k]? =
    s.body[k]?.map fun b => { b with lines := b.lines.map fun l =>
      if l.number = number then { l with instr := .phi l.instr.type pairs } else l } := by
  rw [body, body, filled, Array.getElem?_toList, Array.getElem?_map, Array.getElem?_toList]

@[simp] theorem terminator?_filled :
    (s.filled number pairs).body.terminator? k = s.body.terminator? k := by
  unfold Body.terminator?
  rw [getElem?_filled]
  cases s.body[k]? <;> rfl

theorem line?_filled : (s.filled number pairs).body.line? k i = (s.body.line? k i).map fun l =>
    if l.number = number then { l with instr := .phi l.instr.type pairs } else l := by
  unfold Body.line?
  rw [getElem?_filled]
  cases s.body[k]? with
  | none => rfl
  | some b => exact List.getElem?_map ..

end Writer

theorem InstrTyped.of_phi {f : Graph.Func} (h : InstrTyped e f v) (hop : v.op = .phi) :
    ∃ type, type.isValue = true ∧ resultType? v = some type ∧
      ∀ arg ∈ v.args, Carries f arg type := by
  cases h with
  | phi _ value args result => exact ⟨_, value, result, args⟩
  | operation op =>
      rw [hop] at op
      cases op
  | equality op =>
      rw [hop] at op
      rcases op with op | op <;> cases op
  | arg op | alloca op | load op | store op | alloc op | loadField op | storeField op
  | setDispatch op | callDirect op | dispatchEntry op | callIndirect op =>
      rw [hop] at op
      cases op

theorem exists_forall₂ {α β : Type} {R : α → β → Prop} {l : List α} (h : ∀ x ∈ l, ∃ y, R x y) :
    ∃ ys, List.Forall₂ R l ys := by
  induction l with
  | nil => exact ⟨[], .nil⟩
  | cons x l ih =>
      obtain ⟨y, hy⟩ := h x List.mem_cons_self
      obtain ⟨ys, hys⟩ := ih fun z hz => h z (List.mem_cons_of_mem _ hz)
      exact ⟨y :: ys, .cons hy hys⟩

/-- The step for one operand of a phi. -/
def choose (preds : List Nat) (s : Writer) (arg : Option Nat × Nat) :
    Write (Option (Operand × Nat)) :=
  match preds[arg.2]? with
  | none => Write.fault .missingPart
  | some p =>
    match s.ends.lookup p with
    | none => return none
    | some stop =>
      match arg.1.bind fun i => s.results.getD i none with
      | some x => return some (x, stop)
      | none => Write.fault .missingPart

theorem chosen {preds ps : List Nat} {args : List (Option Nat)} {n : Nat} {w : Writer}
    (hps : preds.drop n = ps) (hlength : args.length = ps.length)
    (h : List.Forall₂ (fun (arg : Option Nat × Nat) (pair : Operand × Nat) =>
        (∃ a, arg.1 = some a ∧ s.results[a]? = some (some pair.1)) ∧
          s.ends.lookup arg.2 = some pair.2) (args.zip ps) pairs) :
    ((args.zipIdx n).mapM (choose preds s)).run w = .ok (pairs.map some, w) := by
  induction args generalizing n ps pairs with
  | nil =>
      cases h
      rfl
  | cons arg args ih =>
      cases ps with
      | nil => cases hlength
      | cons p ps =>
          cases h with
          | @cons _ pair _ pairs hpair hpairs =>
          obtain ⟨⟨a, ha, hx⟩, hstop⟩ := hpair
          have hget : preds[n]? = some p := by
            have hhead := congrArg (fun l => l[0]?) hps
            simpa using hhead
          have hrest : preds.drop (n + 1) = ps := by
            rw [← List.drop_drop, hps]
            rfl
          have hchoose : choose preds s (arg, n) = pure (some pair) := by
            simp only at ha hstop
            simp [choose, hget, hstop, ha, Array.getD_eq_getD_getElem?, hx]
          rw [List.zipIdx_cons, List.mapM_cons, hchoose, pure_bind, StateT.run_bind,
            ih hrest (Nat.succ.inj hlength) hpairs]
          rfl

/-- The operands of a phi are there when all blocks have been written. -/
theorem exists_chooses (hc : Sound c e dom) (h : Done c e dom c.order [] s) {j : Nat}
    (hv : c.graph.instr? j = some v) (hop : v.op = .phi) :
    ∃ pairs, Chooses c.graph s v pairs ∧ ∀ s', s'.results = s.results → s'.ends = s.ends →
      (Write.incoming c v).run s' = .ok (pairs, s') := by
  have huses := (hc.good.coded.phis j v hv hop).operands
  obtain ⟨type, _, _, hcarries⟩ := (hc.typed.instrs j v hv).of_phi hop
  have hall : ∀ arg ∈ v.args.zip (c.graph.preds v.block), ∃ pair : Operand × Nat,
      (∃ a, arg.1 = some a ∧ s.results[a]? = some (some pair.1)) ∧
        s.ends.lookup arg.2 = some pair.2 := by
    rintro ⟨arg, p⟩ harg
    obtain ⟨harg, hp⟩ := List.of_mem_zip harg
    obtain ⟨a, w, rfl, hw, hvoid, _⟩ := hcarries arg harg
    have hdone : a ∈ c.order.flatMap c.graph.values := List.mem_flatMap.2
      ⟨w.block, hc.mem_order.2 (hc.good.coded.home a w hw), mem_values_of_block hc hw⟩
    obtain ⟨x, hx⟩ := h.stored.there a hdone w hw hvoid
    obtain ⟨stop, hstop, _⟩ := h.stops p (hc.mem_of_pred hp)
    exact ⟨(x, stop), ⟨a, rfl, hx⟩, hstop⟩
  obtain ⟨pairs, hpairs⟩ := exists_forall₂ hall
  refine ⟨pairs, hpairs, fun s' hresults hends => ?_⟩
  rw [← hresults, ← hends] at hpairs
  have hrun : (Write.incoming c v).run s' =
      ((v.args.zipIdx 0).mapM (choose (c.graph.preds v.block) s')).run s' >>=
        fun p => .ok (p.1.filterMap id, p.2) := rfl
  have hchosen : ((v.args.zipIdx 0).mapM (choose (c.graph.preds v.block) s')).run s' =
      .ok (pairs.map some, s') := chosen List.drop_zero huses.length_eq hpairs
  rw [hrun, hchosen]
  simp [Bind.bind, Except.bind]

/-! Filling in -/

/-- From `s` to `s'` only phis are changed, and those of `done` have what they choose from. -/
structure Filled (c : Context) (done : List (Nat × Graph.Instr)) (s s' : Writer) : Prop where
  size : s'.blocks.size = s.blocks.size
  ends : ∀ k, s'.body.terminator? k = s.body.terminator? k
  same : s'.results = s.results ∧ s'.ends = s.ends ∧ s'.literals = s.literals
  lines : ∀ k i l, s'.body.line? k i = some l → ∃ l', s.body.line? k i = some l' ∧
    l'.number = l.number ∧ l'.instr.type = l.instr.type ∧
    ((l' = l ∧ ∀ v, (l.number, v) ∉ done) ∨ ∃ v pairs, (l.number, v) ∈ done ∧
      Chooses c.graph s v pairs ∧ l.instr = .phi l'.instr.type pairs)
  kept : ∀ k i l, s.body.line? k i = some l → ∃ l', s'.body.line? k i = some l'

theorem Filled.refl (c : Context) (s : Writer) : Filled c [] s s where
  size := rfl
  ends _ := rfl
  same := ⟨rfl, rfl, rfl⟩
  lines _ _ l hl := ⟨l, hl, rfl, rfl, Or.inl ⟨rfl, fun _ => List.not_mem_nil⟩⟩
  kept _ _ l hl := ⟨l, hl⟩

/-- Another phi is filled in. -/
theorem Filled.fill {done : List (Nat × Graph.Instr)} (h : Filled c done s s')
    (hpairs : Chooses c.graph s v pairs) :
    Filled c (done ++ [(number, v)]) s (s'.filled number pairs) where
  size := by rw [Writer.size_filled, h.size]
  ends k := by rw [Writer.terminator?_filled, h.ends]
  same := h.same
  lines k i l hl := by
    rw [Writer.line?_filled] at hl
    obtain ⟨l₁, hl₁, rfl⟩ := Option.map_eq_some_iff.1 hl
    obtain ⟨l₀, hl₀, hnumber, htype, hcases⟩ := h.lines k i l₁ hl₁
    refine ⟨l₀, hl₀, ?_⟩
    split
    next heq =>
      exact ⟨hnumber, htype, Or.inr ⟨v, pairs, by simp [heq], hpairs, by rw [htype]⟩⟩
    next hne =>
      refine ⟨hnumber, htype, hcases.imp (fun ⟨hsame, hnot⟩ => ⟨hsame, fun w hw => ?_⟩)
        fun ⟨w, pairs', hw, hrest⟩ => ⟨w, pairs', List.mem_append_left _ hw, hrest⟩⟩
      rcases List.mem_append.1 hw with hw | hw
      · exact hnot w hw
      · exact hne (Prod.mk.inj (List.mem_singleton.1 hw)).1
  kept k i l hl := by
    obtain ⟨l', hl'⟩ := h.kept k i l hl
    rw [Writer.line?_filled, hl']
    exact ⟨_, rfl⟩

/-- Filling in one phi. -/
theorem phi_filled (hc : Sound c e dom) (h : Done c e dom c.order [] s)
    {done : List (Nat × Graph.Instr)} (hs : Filled c done s s') (hmem : (number, v) ∈ s.phis) :
    ∃ s'', (Write.fillPhi c number v).run s' = .ok ((), s'') ∧
      Filled c (done ++ [(number, v)]) s s'' := by
  obtain ⟨j, type, hv, hop, _, _⟩ := h.inv.phis number v hmem
  obtain ⟨pairs, hpairs, hrun⟩ := exists_chooses hc h hv hop
  have hrun' := hrun s' hs.same.1 hs.same.2.1
  refine ⟨s'.filled number pairs, ?_, hs.fill hpairs⟩
  have hfill : (Write.fillPhi c number v).run s' = (Write.incoming c v).run s' >>=
      fun p => .ok ((), p.2.filled number p.1) := rfl
  rw [hfill, hrun']
  rfl

/-- Filling in the phis one after the other. -/
theorem phis_filled (hc : Sound c e dom) (h : Done c e dom c.order [] s)
    {done todo : List (Nat × Graph.Instr)} (hs : Filled c done s s') (htodo : todo ⊆ s.phis) :
    ∃ s'', (todo.forM fun p => Write.fillPhi c p.1 p.2).run s' = .ok ((), s'') ∧
      Filled c (done ++ todo) s s'' := by
  induction todo generalizing done s' with
  | nil => exact ⟨s', rfl, by rwa [List.append_nil]⟩
  | cons p todo ih =>
      obtain ⟨hp, htodo⟩ := List.cons_subset.1 htodo
      obtain ⟨s₁, hrun, hfilled⟩ := phi_filled hc h hs hp
      obtain ⟨s₂, hrun', hfilled'⟩ := ih hfilled htodo
      refine ⟨s₂, ?_, by rwa [List.append_assoc] at hfilled'⟩
      have hcons : ((p :: todo).forM fun p => Write.fillPhi c p.1 p.2).run s' =
          (Write.fillPhi c p.1 p.2).run s' >>=
            fun q => (todo.forM fun p => Write.fillPhi c p.1 p.2).run q.2 := rfl
      rw [hcons, hrun]
      exact hrun'

end ClassLang.Llvm
