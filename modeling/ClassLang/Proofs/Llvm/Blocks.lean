import ClassLang.Proofs.Llvm.Instruction

/-!
Writing the blocks of a graph one after the other. The operands of an instruction have been
written before it: earlier in its block, or in a block that must be passed before and is
therefore written before.
-/

namespace ClassLang.Llvm

variable {c : Context} {e : Env} {dom : Graph.Doms} {s s' : Writer} {rest done : List Nat}
  {b i : Nat} {v : Graph.Instr} {x : Operand} {type : Ty}

/-! Results -/

/-- The results of the instructions `done` are there, and no others. -/
structure Stored (c : Context) (done : List Nat) (s : Writer) : Prop where
  size : s.results.size = c.graph.instrs.size
  there : ∀ i ∈ done, ∀ v, c.graph.instr? i = some v → v.op.isVoid = false →
    ∃ x, s.results[i]? = some (some x)
  others : ∀ i x, s.results[i]? = some (some x) → i ∈ done

/-- The state where `x` is the result of instruction `i`. -/
def Writer.kept (s : Writer) (i : Nat) (x : Operand) : Writer :=
  { s with results := s.results.setIfInBounds i (some x) }

theorem Writer.getElem?_kept {j : Nat} (hi : i < s.results.size) :
    (s.kept i x).results[j]? = if j = i then some (some x) else s.results[j]? := by
  unfold Writer.kept
  rw [Array.getElem?_setIfInBounds]
  by_cases hj : j = i
  · subst hj
    simp [hi]
  · simp [hj, Ne.symm hj]

theorem extends_kept (s : Writer) (i : Nat) (x : Operand) : Extends s (s.kept i x) :=
  ⟨Nat.le_refl _, fun _ _ _ h => h, fun _ _ h => h, List.prefix_refl _⟩

/-- A new result is kept. -/
theorem Ready.keep (h : Ready c e dom b rest s) (hi : i < s.results.size)
    (hnew : ∀ y, s.results[i]? ≠ some (some y)) (hv : c.graph.instr? i = some v)
    (hresult : resultType? v = some type) (hmade : Made c e v.block s x type) (hform : Form s v x) :
    Ready c e dom b rest (s.kept i x) where
  mem := h.mem
  within := h.within
  blank := h.blank
  inv := by
    have hs := extends_kept s i x
    have hkept : ∀ (j : Nat) (y : Operand), s.results[j]? = some (some y) →
        (s.kept i x).results[j]? = some (some y) := by
      intro j y hy
      rw [Writer.getElem?_kept hi, if_neg]
      · exact hy
      · rintro rfl
        exact hnew y hy
    exact {
      size := h.inv.size
      opened := h.inv.opened
      nodup := h.inv.nodup
      fresh := h.inv.fresh
      numbers := h.inv.numbers
      lines := fun k j l hl => (h.inv.lines k j l hl).mono hs
      phi_lines := h.inv.phi_lines
      phis := h.inv.phis
      ends := fun k t ht => (h.inv.ends k t ht).mono hs
      single := h.inv.single
      results := by
        intro j y hy
        rw [Writer.getElem?_kept hi] at hy
        split at hy
        next heq =>
          obtain rfl := Option.some.inj (Option.some.inj hy)
          subst heq
          exact ⟨v, type, hv, hresult, hmade.mono hs,
            hform.mono hs (List.Subset.refl _) hkept⟩
        next =>
          obtain ⟨w, type', hw, hresult', hmade', hform'⟩ := h.inv.results j y hy
          exact ⟨w, type', hw, hresult', hmade'.mono hs,
            hform'.mono hs (List.Subset.refl _) hkept⟩ }

theorem Stored.keep (h : Stored c done s) (hi : i < s.results.size) :
    Stored c (done ++ [i]) (s.kept i x) where
  size := by
    rw [← h.size]
    exact Array.size_setIfInBounds
  there j hj w hw hvoid := by
    rw [Writer.getElem?_kept hi]
    split
    next => exact ⟨x, rfl⟩
    next hne =>
      exact h.there j ((List.mem_append.1 hj).resolve_right (by simpa using hne)) w hw hvoid
  others j y hy := by
    rw [Writer.getElem?_kept hi] at hy
    split at hy
    next heq => simp [heq]
    next => exact List.mem_append_left _ (h.others j y hy)

theorem Stored.congr (h : Stored c done s) (hresults : s'.results = s.results) :
    Stored c done s' := by
  obtain ⟨hsize, hdone, hothers⟩ := h
  rw [← hresults] at hsize hdone hothers
  exact ⟨hsize, hdone, hothers⟩

theorem Stored.skip (h : Stored c done s) (hv : c.graph.instr? i = some v)
    (hvoid : v.op.isVoid = true) : Stored c (done ++ [i]) s where
  size := h.size
  there j hj w hw hnot := by
    rcases List.mem_append.1 hj with hj | hj
    · exact h.there j hj w hw hnot
    · obtain rfl := List.mem_singleton.1 hj
      obtain rfl := Option.some.inj (hv.symm.trans hw)
      rw [hvoid] at hnot
      cases hnot
  others j y hy := List.mem_append_left _ (h.others j y hy)

/-- The result of an instruction that is done may be used in its block, and in the blocks
before which its block must be passed. -/
theorem given_of_done (hc : Sound c e dom) (hinv : Inv c e dom rest s) (hstored : Stored c done s)
    {a : Nat} {w : Graph.Instr} (ha : a ∈ done) (hw : c.graph.instr? a = some w)
    (hdom : w.block ∈ b :: dom b) (hcarries : Carries c.graph (some a) type) :
    Given c e dom b s (some a) type := by
  obtain ⟨i, w', hi, hw', hvoid, hresult⟩ := hcarries
  obtain rfl := Option.some.inj hi
  obtain rfl := Option.some.inj (hw.symm.trans hw')
  obtain ⟨x, hx⟩ := hstored.there a ha w hw hvoid
  obtain ⟨w', type', hw', hresult', hmade, _⟩ := hinv.results a x hx
  obtain rfl := Option.some.inj (hw.symm.trans hw')
  obtain rfl := Option.some.inj (hresult.symm.trans hresult')
  refine ⟨x, ⟨a, rfl, hx⟩, hmade.type, hmade.typed, fun n hn => ?_⟩
  exact ⟨w.block, hdom, hc.mem_order.2 (hc.good.coded.home a w hw), hmade.inside n hn⟩

/-! Instructions -/

section

variable {before after pre post : List Nat}

/-- What must be passed before a block is done before it. -/
theorem Sound.dom_done (hc : Sound c e dom) (horder : c.order = before ++ b :: after) {a : Nat}
    (ha : a ∈ dom b) (hne : a ≠ b) : a ∈ before := by
  have hnodup := hc.nodup
  obtain ⟨_, hlt⟩ := hc.dom_before _ b rfl (by simp [horder]) a ha hne
  rw [horder] at hlt hnodup
  exact Graph.mem_of_idxOf_lt hnodup hlt

theorem mem_values_of_block (hc : Sound c e dom) {a : Nat} {w : Graph.Instr}
    (hw : c.graph.instr? a = some w) : a ∈ c.graph.values w.block :=
  (hc.good.coded.placed w.block a).2 ⟨w, hw, rfl⟩

/-- The operands of the next instruction of a block have been written. -/
theorem operands_given (hc : Sound c e dom) (horder : c.order = before ++ b :: after)
    (hvalues : c.graph.values b = pre ++ i :: post) (hv : c.graph.instr? i = some v)
    (hop : v.op ≠ .phi) (hinv : Inv c e dom rest s)
    (hstored : Stored c (before.flatMap c.graph.values ++ pre) s) :
    ∀ arg ∈ v.args, ∀ type, Carries c.graph arg type → Given c e dom b s arg type := by
  intro arg harg type hcarries
  have hblock : v.block = b := by
    obtain ⟨w, hw, hblock⟩ := (hc.good.coded.placed b i).1 (by simp [hvalues])
    obtain rfl := Option.some.inj (hv.symm.trans hw)
    exact hblock
  obtain ⟨a, w, rfl, hw, hplace⟩ := hc.good.coded.uses i v hv hop arg harg
  rw [hblock] at hplace
  rcases hplace with ⟨hsame, hsub⟩ | ⟨hne, hdom⟩
  · have hnodup := hc.good.coded.nodup b
    have hlt := Graph.idxOf_lt_of_sublist hnodup hsub
    rw [hvalues] at hlt hnodup
    have ha := Graph.mem_of_idxOf_lt hnodup hlt
    exact given_of_done hc hinv hstored (List.mem_append_right _ ha) hw
      (List.mem_cons.2 (Or.inl hsame)) hcarries
  · have hbefore := hc.dom_done horder hdom hne
    have ha := List.mem_flatMap.2 ⟨w.block, hbefore, mem_values_of_block hc hw⟩
    exact given_of_done hc hinv hstored (List.mem_append_left _ ha) hw
      (List.mem_cons_of_mem _ hdom) hcarries

/-- Writing an instruction of a block. -/
theorem value_written (hc : Sound c e dom) (horder : c.order = before ++ b :: after)
    (hvalues : c.graph.values b = pre ++ i :: post) (hs : Ready c e dom b rest s)
    (hstored : Stored c (before.flatMap c.graph.values ++ pre) s)
    (hfirst : pre = [] → s.current = c.order.idxOf b ∧ s.body.count s.current = 0) :
    ∃ s', (Write.value c i).run s = .ok ((), s') ∧ Ready c e dom b rest s' ∧ Extends s s' ∧
      s'.ends = s.ends ∧ Stored c (before.flatMap c.graph.values ++ (pre ++ [i])) s' := by
  obtain ⟨v, hv, hblock⟩ := (hc.good.coded.placed b i).1 (by simp [hvalues])
  have hphi : v.op = .phi → s.current = c.order.idxOf v.block ∧ s.body.count s.current = 0 := by
    intro hop
    have hhead := (hc.good.coded.phis i v hv hop).first
    rw [hblock, hvalues] at hhead
    rw [hblock]
    apply hfirst
    cases pre with
    | nil => rfl
    | cons j pre =>
        obtain rfl := Option.some.inj hhead
        have hnodup := hc.good.coded.nodup b
        simp [hvalues] at hnodup
  have hb : b ∈ c.order := by simp [horder]
  have hgiven := fun hop => operands_given hc horder hvalues hv hop hs.inv hstored
  obtain ⟨r, s₁, hrun, hready, hstep, hr⟩ := Writes.instr hc hb hv hgiven hphi hs
  have hstored₁ := hstored.congr hstep.results
  have hvalue : (Write.value c i).run s = .ok ((), r.elim s₁ (s₁.kept i)) := by
    unfold Write.value
    rw [hv]
    dsimp only
    rw [StateT.run_bind, hrun]
    cases r <;> rfl
  rcases hr with ⟨hvoid, rfl⟩ | ⟨x, type, rfl, hvoid, hresult, hmade, hform⟩
  · refine ⟨s₁, hvalue, hready, hstep.toExtends, hstep.stops, ?_⟩
    rw [← List.append_assoc]
    exact hstored₁.skip hv hvoid
  · have hi : i < s₁.results.size := by
      rw [hstored₁.size]
      exact Graph.Func.instr?_lt hv
    have hnew : ∀ y, s₁.results[i]? ≠ some (some y) := by
      intro y hy
      rcases List.mem_append.1 (hstored₁.others i y hy) with hmem | hmem
      · obtain ⟨a, ha, hmem⟩ := List.mem_flatMap.1 hmem
        obtain ⟨w, hw, hwblock⟩ := (hc.good.coded.placed a i).1 hmem
        obtain rfl := Option.some.inj (hv.symm.trans hw)
        have hnodup := hc.nodup
        rw [horder] at hnodup
        exact (List.nodup_append.1 hnodup).2.2 a ha b List.mem_cons_self
          (hwblock.symm.trans hblock)
      · have hnodup := hc.good.coded.nodup b
        rw [hvalues] at hnodup
        exact (List.nodup_append.1 hnodup).2.2 i hmem i List.mem_cons_self rfl
    have hready' := hready.keep hi hnew hv hresult (hblock ▸ hmade) hform
    refine ⟨_, hvalue, hready', hstep.toExtends.trans (extends_kept _ _ _), hstep.stops, ?_⟩
    rw [← List.append_assoc]
    exact hstored₁.keep hi

/-- Writing the rest of the instructions of a block. -/
theorem values_written (hc : Sound c e dom) (horder : c.order = before ++ b :: after)
    (hvalues : c.graph.values b = pre ++ post) (hs : Ready c e dom b rest s)
    (hstored : Stored c (before.flatMap c.graph.values ++ pre) s)
    (hfirst : pre = [] → s.current = c.order.idxOf b ∧ s.body.count s.current = 0) :
    ∃ s', (post.forM (Write.value c)).run s = .ok ((), s') ∧ Ready c e dom b rest s' ∧
      Extends s s' ∧ s'.ends = s.ends ∧
      Stored c (before.flatMap c.graph.values ++ c.graph.values b) s' := by
  induction post generalizing pre s with
  | nil =>
      refine ⟨s, rfl, hs, .refl s, rfl, ?_⟩
      rw [hvalues, List.append_nil]
      exact hstored
  | cons i post ih =>
      obtain ⟨s₁, hrun, hready, hextends, hends, hstored₁⟩ :=
        value_written hc horder hvalues hs hstored hfirst
      obtain ⟨s₂, hrun', hready', hextends', hends', hstored₂⟩ := ih
        (hvalues.trans (List.append_cons pre i post))  hready hstored₁ (by simp)
      refine ⟨s₂, ?_, hready', hextends.trans hextends', hends'.trans hends, hstored₂⟩
      have hcons : ((i :: post).forM (Write.value c)).run s =
          (Write.value c i).run s >>= fun p => (post.forM (Write.value c)).run p.2 := rfl
      rw [hcons, hrun]
      exact hrun'

end

/-! Ends of blocks -/

/-- Block `k` is the last one that block `b` of the graph becomes, and leads where `b` does. -/
structure Stops (c : Context) (s : Writer) (b k : Nat) : Prop where
  within : Within c s b k
  leads : ∃ t, s.body.terminator? k = some t ∧ t.targets = (c.graph.succs b).map c.order.idxOf

theorem Stops.mono {k : Nat} (h : Stops c s b k) (hs : Extends s s') : Stops c s' b k where
  within := hs.within h.within
  leads := by
    obtain ⟨t, ht, htargets⟩ := h.leads
    exact ⟨t, hs.ends _ _ ht, htargets⟩

/-- The end of a block is written when its instructions have been. -/
theorem end_written (hc : Sound c e dom) (hb : b ∈ c.order) {x : Graph.Block}
    (hx : c.graph.block? b = some x)
    (hgiven : ∀ i, some i ∈ c.graph.controlsOf b → ∀ type, Carries c.graph (some i) type →
      Given c e dom b s (some i) type) :
    ∃ t, (Write.terminate c x).run s = .ok ((), s.closed t) ∧ t.Typed c.head.result ∧
      (∀ y ∈ t.operands, Known c e dom b s y) ∧
      t.targets = (c.graph.succs b).map c.order.idxOf := by
  have hsuccs : c.graph.succs b = x.succs := by simp [Graph.Func.succs, hx]
  have hkind : c.graph.kindOf b = x.kind := by simp [Graph.Func.kindOf, hx]
  have hcontrols : c.graph.controlsOf b = x.controls := by simp [Graph.Func.controlsOf, hx]
  rw [hcontrols] at hgiven
  cases hc.good.closed.ends b (hc.mem_order.1 hb) List.not_mem_nil with
  | plain kind succs controls =>
      rw [hkind] at kind
      rw [hsuccs] at succs
      obtain ⟨a, ha⟩ := List.length_eq_one_iff.1 succs
      refine ⟨.jump (c.order.idxOf a), ?_, .jump, by simp [Terminator.operands], ?_⟩
      · unfold Write.terminate
        rw [kind, ha]
        rfl
      · rw [hsuccs, ha]
        rfl
  | branch kind succs controls cond type =>
      rename_i i v
      rw [hkind] at kind
      rw [hsuccs] at succs
      rw [hcontrols] at controls
      obtain ⟨yes, no, hyes⟩ := List.length_eq_two.1 succs
      have hcarries := hc.typed.branches b x hx kind (some i) (by simp [controls])
      obtain ⟨y, hy⟩ := hgiven i (by simp [controls]) _ hcarries
      refine ⟨.branch y (c.order.idxOf yes) (c.order.idxOf no), ?_, .branch hy.type,
        by simpa [Terminator.operands] using hy.known, ?_⟩
      · have hrun : (Write.terminate c x).run s = (Write.operand c (some i)).run s >>=
            fun p => .ok ((), p.2.closed (.branch p.1 (c.order.idxOf yes) (c.order.idxOf no))) := by
          unfold Write.terminate
          rw [kind, controls, hyes]
          rfl
        rw [hrun, operand_run hy]
        rfl
      · rw [hsuccs, hyes]
        rfl
  | ret result kind succs controls shape =>
      rw [hkind] at kind
      rw [hsuccs] at succs
      rw [hcontrols] at controls
      cases result with
      | none =>
          refine ⟨.ret none, ?_, .retVoid (hc.void shape), by simp [Terminator.operands], ?_⟩
          · unfold Write.terminate
            rw [kind, controls]
            rfl
          · rw [hsuccs, succs]
            rfl
      | some i =>
          have hcarries := hc.typed.returns b x hx kind (some i) (by simp [controls])
          obtain ⟨y, hy⟩ := hgiven i (by simp [controls]) _ hcarries
          refine ⟨.ret (some y), ?_, .ret (by rw [hc.head]; exact hy.type),
            by simpa [Terminator.operands] using hy.known, ?_⟩
          · have hrun : (Write.terminate c x).run s = (Write.operand c (some i)).run s >>=
                fun p => .ok ((), p.2.closed (.ret (some p.1))) := by
              unfold Write.terminate
              rw [kind, controls]
              rfl
            rw [hrun, operand_run hy]
            rfl
          · rw [hsuccs, succs]
            rfl

/-! Whole blocks -/

/-- The blocks `before` of the graph have been written, and the blocks `after` have not. -/
structure Done (c : Context) (e : Env) (dom : Graph.Doms) (before after : List Nat) (s : Writer) :
    Prop where
  inv : Inv c e dom (after.map c.order.idxOf) s
  blank : ∀ b ∈ after, ∀ i, s.body.line? (c.order.idxOf b) i = none
  stored : Stored c (before.flatMap c.graph.values) s
  stops : ∀ b ∈ before, ∃ k, s.ends.lookup b = some k ∧ Stops c s b k
  known : ∀ b k, s.ends.lookup b = some k → b ∈ before

/-- The state where block `b` of the graph is known to end in the current block. -/
def Writer.stopped (s : Writer) (b : Nat) : Writer := { s with ends := (b, s.current) :: s.ends }

theorem extends_stopped (s : Writer) (b : Nat) : Extends s (s.stopped b) :=
  ⟨Nat.le_refl _, fun _ _ _ h => h, fun _ _ h => h, List.prefix_refl _⟩

theorem Ready.stop (h : Ready c e dom b rest s) : Ready c e dom b rest (s.stopped b) where
  inv := h.inv.congr (extends_stopped s b) (fun _ _ => rfl) rfl rfl rfl h.inv.opened h.inv.nodup
    (fun _ _ ht => Or.inl ht) h.inv.single
  mem := h.mem
  within := h.within
  blank := h.blank

theorem Body.count_eq_zero {body : Body} {k : Nat} (h : ∀ i, body.line? k i = none) :
    body.count k = 0 := by
  by_contra hne
  obtain ⟨l, hl⟩ := Body.exists_line? (Nat.pos_of_ne_zero hne)
  rw [h 0] at hl
  cases hl

/-- The end of a block of the graph ends the current block. -/
theorem Ready.finish (h : Ready c e dom b rest s) (hc : Sound c e dom) {t : Terminator}
    (htyped : t.Typed c.head.result) (hops : ∀ y ∈ t.operands, Known c e dom b s y)
    (htargets : t.targets = (c.graph.succs b).map c.order.idxOf) :
    Inv c e dom rest (s.closed t) ∧ Extends s (s.closed t) ∧ Stops c (s.closed t) b s.current := by
  have hcur := h.inv.lt_size List.mem_cons_self
  have hextends := extends_closed hcur (h.inv.terminator?_eq_none List.mem_cons_self) t
  have hend : EndOk c e dom (s.closed t) s.current t :=
    ⟨htyped, fun y hy => hextends.typed (hops y hy).typed,
      fun y hy n hn => (((hops y hy).used h n hn).mono hextends).later (hextends.count_le _),
      .last h.mem (hextends.within h.within) htargets⟩
  have hinv := h.inv.close List.mem_cons_self hend fun o ho hbehind => by
    rw [htargets] at ho
    obtain ⟨a, ha, rfl⟩ := List.mem_map.1 ho
    exact absurd (hc.idxOf_lt (hc.inside b a ha)) (Nat.not_lt.2 hbehind)
  rw [List.erase_cons_head] at hinv
  refine ⟨hinv, hextends, hextends.within h.within, t, ?_, htargets⟩
  rw [Writer.terminator?_closed hcur, if_pos rfl]

/-- Writing a block of the graph. -/
theorem block_written (hc : Sound c e dom) {before after : List Nat}
    (horder : c.order = before ++ b :: after) (h : Done c e dom before (b :: after) s) :
    ∃ s', (Write.block c b).run s = .ok ((), s') ∧ Done c e dom (before ++ [b]) after s' ∧
      Extends s s' := by
  have hb : b ∈ c.order := by simp [horder]
  have hlt := hc.good.wired.known b (hc.mem_order.1 hb)
  obtain ⟨x, hx⟩ : ∃ x, c.graph.block? b = some x := ⟨_, Array.getElem?_eq_getElem hlt⟩
  have hvalues : c.graph.values b = x.values := by simp [Graph.Func.values, hx]
  -- the block starts where it has its place
  have hready : Ready c e dom b (after.map c.order.idxOf) (s.entered (c.order.idxOf b)) := by
    refine ⟨h.inv.enter _, hb, .refl, fun k hk i => ?_⟩
    obtain ⟨a, ha, rfl⟩ := List.mem_map.1 hk
    exact h.blank a (List.mem_cons_of_mem _ ha) i
  have hempty : (s.entered (c.order.idxOf b)).body.count (c.order.idxOf b) = 0 :=
    Body.count_eq_zero (h.blank b List.mem_cons_self)
  obtain ⟨s₁, hrun, hready₁, hextends, hends, hstored⟩ := values_written hc horder
    (List.nil_append (c.graph.values b)).symm hready
    (by rw [List.append_nil]; exact h.stored.congr rfl) fun _ => ⟨rfl, hempty⟩
  -- and ends where its last instruction is
  have hready₂ := hready₁.stop
  have hgiven : ∀ i, some i ∈ c.graph.controlsOf b → ∀ type, Carries c.graph (some i) type →
      Given c e dom b (s₁.stopped b) (some i) type := by
    intro i hi type hcarries
    obtain ⟨w, hw, hdom⟩ := hc.good.closed.controls b i hi
    have hmem : i ∈ before.flatMap c.graph.values ++ c.graph.values b := by
      by_cases hsame : w.block = b
      · exact List.mem_append_right _ (hsame ▸ mem_values_of_block hc hw)
      · exact List.mem_append_left _ (List.mem_flatMap.2 ⟨w.block,
          hc.dom_done horder (hdom.resolve_left hsame) hsame, mem_values_of_block hc hw⟩)
    exact given_of_done (s := s₁.stopped b) hc hready₂.inv
      (hstored.congr rfl) hmem hw (List.mem_cons.2 hdom) hcarries
  obtain ⟨t, hend, htyped, hops, htargets⟩ := end_written hc hb hx hgiven
  obtain ⟨hinv, hextends', hstops⟩ := hready₂.finish hc htyped hops htargets
  have hall : Extends s ((s₁.stopped b).closed t) := ((extends_entered s _).trans hextends).trans
    ((extends_stopped s₁ b).trans hextends')
  have hlookup : ∀ a, ((s₁.stopped b).closed t).ends.lookup a =
      if a = b then some s₁.current else s.ends.lookup a := by
    intro a
    change ((b, s₁.current) :: s₁.ends).lookup a = _
    rw [hends, List.lookup_cons]
    by_cases hab : a = b
    · simp [hab]
    · have hbeq : (a == b) = false := by simpa using hab
      rw [hbeq, if_neg hab]
      rfl
  refine ⟨_, ?_, ⟨hinv, fun a ha i => ?_, ?_, fun a ha => ?_, fun a k hk => ?_⟩, hall⟩
  · have hblock : (Write.block c b).run s =
        (x.values.forM (Write.value c)).run (s.entered (c.order.idxOf b)) >>=
          fun p => (Write.terminate c x).run (p.2.stopped b) := by
      unfold Write.block
      rw [hx]
      rfl
    rw [← hvalues] at hblock
    rw [hblock, hrun]
    exact hend
  · rw [Writer.line?_closed]
    exact hready₂.blank _ (List.mem_map_of_mem ha) i
  · rw [List.flatMap_append, List.flatMap_singleton]
    exact hstored.congr rfl
  · rw [hlookup]
    split
    next heq =>
      subst heq
      exact ⟨_, rfl, hstops⟩
    next hne =>
      obtain ⟨k, hk, hstop⟩ := h.stops a ((List.mem_append.1 ha).resolve_right (by simpa using hne))
      exact ⟨k, hk, hstop.mono hall⟩
  · rw [hlookup] at hk
    split at hk
    next heq => simp [heq]
    next => exact List.mem_append_left _ (h.known a k hk)

/-- Writing all blocks of the graph. -/
theorem blocks_written (hc : Sound c e dom) {before after : List Nat}
    (horder : c.order = before ++ after) (h : Done c e dom before after s) :
    ∃ s', (after.forM (Write.block c)).run s = .ok ((), s') ∧ Done c e dom c.order [] s' ∧
      Extends s s' := by
  induction after generalizing before s with
  | nil =>
      rw [List.append_nil] at horder
      exact ⟨s, rfl, horder ▸ h, .refl s⟩
  | cons b after ih =>
      obtain ⟨s₁, hrun, hdone, hextends⟩ := block_written hc horder h
      obtain ⟨s₂, hrun', hdone', hextends'⟩ := ih (by rw [horder, List.append_assoc]; rfl) hdone
      refine ⟨s₂, ?_, hdone', hextends.trans hextends'⟩
      have hcons : ((b :: after).forM (Write.block c)).run s =
          (Write.block c b).run s >>= fun p => (after.forM (Write.block c)).run p.2 := rfl
      rw [hcons, hrun]
      exact hrun'

end ClassLang.Llvm
