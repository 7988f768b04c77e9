import ClassLang.Proofs.Check.Result
import ClassLang.Proofs.Llvm.Chains

/-!
Functions that have been written keep to the rules, in their shape and in their types.
-/

namespace ClassLang.Llvm

variable {c : Context} {e : Env} {dom : Graph.Doms} {s s' : Writer} {v : Graph.Instr}
  {k i n : Nat} {l : Line} {x : Operand} {type : Ty}

/-! Lines -/

namespace Filled

variable {done : List (Nat × Graph.Instr)}

theorem line (h : Filled c done s s') (hl : s.body.line? k i = some l) :
    ∃ l', s'.body.line? k i = some l' ∧ l'.number = l.number ∧ l'.instr.type = l.instr.type := by
  obtain ⟨l', hl'⟩ := h.kept k i l hl
  obtain ⟨l₀, hl₀, hnumber, htype, _⟩ := h.lines k i l' hl'
  obtain rfl := Option.some.inj (hl.symm.trans hl₀)
  exact ⟨l', hl', hnumber.symm, htype.symm⟩

theorem succs (h : Filled c done s s') : s'.body.succs = s.body.succs := by
  funext k
  unfold Body.succs
  rw [h.ends]

theorem preds (h : Filled c done s s') : s'.body.preds = s.body.preds := by
  funext k
  unfold Body.preds
  rw [h.succs, Writer.length_body, Writer.length_body, h.size]

theorem count (h : Filled c done s s') (k : Nat) : s'.body.count k = s.body.count k := by
  apply Nat.le_antisymm
  · by_contra hlt
    obtain ⟨l, hl⟩ := Body.exists_line? (Nat.lt_of_not_le hlt)
    obtain ⟨l₀, hl₀, _⟩ := h.lines _ _ _ hl
    exact Nat.lt_irrefl _ (Body.lt_count hl₀)
  · by_contra hlt
    obtain ⟨l, hl⟩ := Body.exists_line? (Nat.lt_of_not_le hlt)
    obtain ⟨l', hl'⟩ := h.kept _ _ _ hl
    exact Nat.lt_irrefl _ (Body.lt_count hl')

theorem available (h : Filled c done s s') (ha : s.body.Available n k i) :
    s'.body.Available n k i := by
  obtain ⟨k', i', l, hl, hn, hplace⟩ := ha
  obtain ⟨l', hl', hnumber, _⟩ := h.line hl
  refine ⟨k', i', l', hl', hnumber.trans hn, ?_⟩
  rw [h.succs]
  exact hplace

theorem typed (h : Filled c done s s') (hx : x.Typed (visible c e s)) :
    x.Typed (visible c e s') := by
  have hglobals : (visible c e s).globals ⊆ (visible c e s').globals := by
    unfold visible
    rw [h.same.2.2]
    exact List.Subset.refl _
  exact hx.mono (fun f hf => ⟨f, hf, rfl⟩) hglobals rfl fun k i l hl => h.line hl

end Filled

/-- What a filled phi is: the first instruction of the block that the block of an instruction
of the graph starts in, which chooses from what the operands of that instruction became. -/
structure Phi (c : Context) (s : Writer) (k i : Nat) (l : Line) (v : Graph.Instr) (j : Nat)
    (type : Ty) (pairs : List (Operand × Nat)) : Prop where
  instr : c.graph.instr? j = some v
  op : v.op = .phi
  noted : (l.number, v) ∈ s.phis
  block : k = c.order.idxOf v.block
  first : i = 0
  result : resultType? v = some type
  chooses : Chooses c.graph s v pairs
  form : l.instr = .phi type pairs

section

variable (hc : Sound c e dom) (h : Done c e dom c.order [] s) (hs : Filled c s.phis s s')

include h hs

/-- Each line has been written as it is, or is a phi that has been filled in. -/
theorem line_cases (hl : s'.body.line? k i = some l) :
    (s.body.line? k i = some l ∧ l.instr.isPhi = false) ∨
      ∃ v j type pairs, Phi c s k i l v j type pairs := by
  obtain ⟨l₀, hl₀, hnumber, htype, ⟨rfl, hnot⟩ | ⟨v, pairs, hmem, hpairs, hform⟩⟩ :=
    hs.lines k i l hl
  · refine Or.inl ⟨hl₀, ?_⟩
    cases hphi : l₀.instr.isPhi with
    | false => rfl
    | true =>
        obtain ⟨_, v, hv⟩ := h.inv.phi_lines k i l₀ hl₀ hphi
        exact absurd hv (hnot v)
  · obtain ⟨j, type, hv, hop, hresult, hline⟩ := h.inv.phis l.number v hmem
    obtain ⟨rfl, rfl⟩ := h.inv.numbers k i l₀ _ _ _ hl₀ hline hnumber
    obtain rfl := Option.some.inj (hl₀.symm.trans hline)
    exact Or.inr ⟨v, j, type, pairs, hv, hop, hmem, rfl, rfl, hresult, hpairs, hform⟩

end

/-! Phis -/

section

variable (hc : Sound c e dom) (h : Done c e dom c.order [] s)

include hc h

/-- Where an operand of a phi comes from. -/
theorem Chooses.operand {j : Nat} {pairs : List (Operand × Nat)} (hchooses : Chooses c.graph s v pairs)
    (hv : c.graph.instr? j = some v) (hop : v.op = .phi) {pair : Operand × Nat}
    (hpair : pair ∈ pairs) : ∃ a p w, some a ∈ v.args ∧ p ∈ c.graph.preds v.block ∧
      c.graph.instr? a = some w ∧ w.block ∈ p :: dom p ∧ s.results[a]? = some (some pair.1) ∧
      Stops c s p pair.2 := by
  obtain ⟨⟨arg, p⟩, hmem, ⟨a, ha, hx⟩, hstop⟩ := Check.forall₂_partner hchooses.flip hpair
  subst ha
  obtain ⟨harg, hp⟩ := List.of_mem_zip hmem
  obtain ⟨a', ha', w, hw, hplace⟩ :=
    (List.forall₂_iff_zip.1 (hc.good.coded.phis j v hv hop).operands).2 hmem
  obtain rfl := Option.some.inj ha'
  obtain ⟨k, hk, hstops⟩ := h.stops p (hc.mem_of_pred hp)
  obtain rfl := Option.some.inj (hstop.symm.trans hk)
  exact ⟨a, p, w, harg, hp, hw, List.mem_cons.2 hplace, hx, hstops⟩

/-- Each operand of a phi is known at the end of the block that it belongs to. -/
theorem Chooses.known {j : Nat} {pairs : List (Operand × Nat)} (hchooses : Chooses c.graph s v pairs)
    (hv : c.graph.instr? j = some v) (hop : v.op = .phi) (hresult : resultType? v = some type)
    {pair : Operand × Nat} (hpair : pair ∈ pairs) : pair.1.type = type ∧
      ∃ p ∈ c.order, Known c e dom p s pair.1 ∧ Stops c s p pair.2 := by
  obtain ⟨a, p, w, harg, hp, hw, hdom, hx, hstops⟩ := hchooses.operand hc h hv hop hpair
  obtain ⟨w', type', hw', hresult', hmade, _⟩ := h.inv.results a _ hx
  obtain rfl := Option.some.inj (hw.symm.trans hw')
  obtain ⟨type'', _, hresult'', hcarries⟩ := (hc.typed.instrs j v hv).of_phi hop
  obtain rfl := Option.some.inj (hresult.symm.trans hresult'')
  obtain ⟨i, w', hi, hw', _, htype⟩ := hcarries _ harg
  obtain rfl := Option.some.inj hi
  obtain rfl := Option.some.inj (hw.symm.trans hw')
  obtain rfl := Option.some.inj (hresult'.symm.trans htype)
  have hmem := hc.mem_order.2 (hc.good.coded.home a w hw)
  exact ⟨hmade.type, p, hc.mem_of_pred hp,
    ⟨hmade.typed, fun n hn => ⟨w.block, hdom, hmem, hmade.inside n hn⟩⟩, hstops⟩

/-- A phi has one operand for each block that leads to it. -/
theorem Chooses.preds {j : Nat} {pairs : List (Operand × Nat)} (hchooses : Chooses c.graph s v pairs)
    (hv : c.graph.instr? j = some v) (hop : v.op = .phi) :
    (pairs.map (·.2)).Nodup ∧
      (pairs.map (·.2)).Perm (s.body.preds (c.order.idxOf v.block)) := by
  have hstop : ∀ p ∈ c.graph.preds v.block, Stops c s p ((s.ends.lookup p).getD 0) := by
    intro p hp
    obtain ⟨k, hk, hstops⟩ := h.stops p (hc.mem_of_pred hp)
    rwa [hk]
  have hmap : pairs.map (·.2) =
      (c.graph.preds v.block).map fun p => (s.ends.lookup p).getD 0 := by
    have hlength := (hc.good.coded.phis j v hv hop).operands.length_eq
    rw [← List.map_snd_zip (Nat.le_of_eq hlength.symm), List.map_map]
    unfold Chooses at hchooses
    generalize v.args.zip (c.graph.preds v.block) = args at hchooses
    induction hchooses with
    | nil => rfl
    | cons hpair _ ih => simp [hpair.2, ih]
  rw [hmap]
  exact preds_stops hc h.inv (hc.mem_order.2 (hc.good.coded.home j v hv)) hstop

end

/-! The rules -/

section

variable (hc : Sound c e dom) (h : Done c e dom c.order [] s) (hs : Filled c s.phis s s')

include hc h hs

theorem used_available (hused : Used c dom s n k i) : s'.body.Available n k i :=
  hs.available (hused.available hc h.inv)

/-- The shape of a function that has been written. -/
theorem wellFormed : s'.body.WellFormed := by
  have hterm : ∀ k t, s'.body.terminator? k = some t → s.body.terminator? k = some t := by
    intro k t ht
    rwa [hs.ends] at ht
  constructor
  · intro b hb
    obtain ⟨k, hk⟩ := List.getElem?_of_mem hb
    have hlt : k < s.blocks.size := by
      rw [← hs.size, ← Writer.length_body]
      exact (List.getElem?_eq_some_iff.1 hk).1
    have hclosed : s'.body.terminator? k = b.terminator := by
      unfold Body.terminator?
      rw [hk]
      rfl
    rw [← hclosed, hs.ends, Option.isSome_iff_ne_none]
    intro hnone
    have hopen := (h.inv.opened k).2 ⟨hlt, hnone⟩
    cases hopen
  · intro k t ht
    rw [hs.succs] at ht
    rw [Writer.length_body, hs.size]
    exact h.inv.succs_lt hc.inside ht
  · rw [hs.preds, List.eq_nil_iff_forall_not_mem]
    intro j hj
    obtain ⟨t, ht, ho⟩ := Body.mem_succs.1 (Body.mem_preds.1 hj)
    have hpos := hc.length_pos
    cases (h.inv.ends j t ht).leads with
    | split behind _ behind' =>
        rcases List.mem_pair.1 ho with heq | heq <;> omega
    | failed => cases ho
    | @last _ b mem within targets =>
        rw [targets] at ho
        obtain ⟨b', hb', hidx⟩ := List.mem_map.1 ho
        rw [← hc.idxOf_zero] at hidx
        obtain rfl := hc.idxOf_inj (hc.inside b b' hb') hidx
        have hentry := (hc.good.wired.edges b 0).1 hb'
        rw [hc.good.wired.entry_preds] at hentry
        cases hentry
  · intro b hb
    obtain ⟨k, hk⟩ := List.getElem?_of_mem hb
    rw [List.pairwise_iff_getElem]
    intro i j hi hj hij hphi
    have hl : s'.body.line? k j = some b.lines[j] := by
      simp [Body.line?, hk]
    rcases line_cases h hs hl with ⟨_, hnot⟩ | ⟨v, j', type, pairs, hshape⟩
    · rw [hnot] at hphi
      cases hphi
    · exact absurd hshape.first (by omega)
  · intro k i l k' i' l' hl hl' hnumber
    obtain ⟨l₀, hl₀, hn, _⟩ := hs.lines k i l hl
    obtain ⟨l₁, hl₁, hn', _⟩ := hs.lines k' i' l' hl'
    exact h.inv.numbers k i l₀ k' i' l₁ hl₀ hl₁ (by rw [hn, hn', hnumber])
  · intro k i l hl hphi
    rcases line_cases h hs hl with ⟨_, hnot⟩ | ⟨v, j, type, pairs, hshape⟩
    · rw [hnot] at hphi
      cases hphi
    · rw [hshape.form, hshape.block, hs.preds]
      exact hshape.chooses.preds hc h hshape.instr hshape.op
  · intro k i l hl x hx n hn
    rcases line_cases h hs hl with ⟨hl, _⟩ | ⟨v, j, type, pairs, hshape⟩
    · exact used_available hc h hs ((h.inv.lines k i l hl).used x hx n hn)
    · rw [hshape.form] at hx
      cases hx
  · intro k i l hl pair hpair n hn
    rcases line_cases h hs hl with ⟨_, hnot⟩ | ⟨v, j, type, pairs, hshape⟩
    · cases hinstr : l.instr <;> rw [hinstr] at hpair hnot <;> cases hpair <;> cases hnot
    · rw [hshape.form] at hpair
      obtain ⟨_, p, hp, hknown, hstops⟩ :=
        hshape.chooses.known hc h hshape.instr hshape.op hshape.result hpair
      rw [hs.count]
      exact used_available hc h hs (hknown.used_at hp hstops.within (hstops.last hc) n hn)
  · intro k t ht x hx n hn
    rw [hs.count]
    exact used_available hc h hs ((h.inv.ends k t (hterm k t ht)).used x hx n hn)

/-- The types in a function that has been written. -/
theorem typed : Body.Typed (visible c e s') c.head.result s'.body := by
  constructor
  · intro k i l hl
    rcases line_cases h hs hl with ⟨hl, _⟩ | ⟨v, j, type, pairs, hshape⟩
    · exact (h.inv.lines k i l hl).typed
    · obtain ⟨type', hvalue, hresult, _⟩ := (hc.typed.instrs j v hshape.instr).of_phi hshape.op
      obtain rfl := Option.some.inj (hshape.result.symm.trans hresult)
      rw [hshape.form]
      refine .phi (by rintro rfl; cases hvalue) fun pair hpair => ?_
      exact (hshape.chooses.known hc h hshape.instr hshape.op hshape.result hpair).1
  · intro k i l hl x hx
    rcases line_cases h hs hl with ⟨hl, _⟩ | ⟨v, j, type, pairs, hshape⟩
    · exact hs.typed ((h.inv.lines k i l hl).operands x hx)
    · rw [hshape.form] at hx
      cases hx
  · intro k i l hl pair hpair
    rcases line_cases h hs hl with ⟨_, hnot⟩ | ⟨v, j, type, pairs, hshape⟩
    · cases hinstr : l.instr <;> rw [hinstr] at hpair hnot <;> cases hpair <;> cases hnot
    · rw [hshape.form] at hpair
      obtain ⟨_, p, _, hknown, _⟩ :=
        hshape.chooses.known hc h hshape.instr hshape.op hshape.result hpair
      exact hs.typed hknown.typed
  · intro k t ht
    rw [hs.ends] at ht
    have hend := h.inv.ends k t ht
    exact ⟨hend.typed, fun x hx => hs.typed (hend.operands x hx)⟩

end

/-! The start -/

/-- The state before a function is written: each block of the graph has its place. -/
def Writer.start (f : Graph.Func) (literals : List String) : Writer :=
  { blocks := ((f.reversePostOrder.map fun b => ({ label := f.blockLabel b } : Block)) ++
      (f.order.filter fun b => !f.reversePostOrder.contains b).map fun b =>
        ({ label := f.blockLabel b, terminator := some .unreachable } : Block)).toArray
    results := Array.replicate f.instrs.size none
    literals }

/-- At the start there is one empty block for each block of the graph. -/
theorem body_start (hc : Sound c e dom) (literals : List String) :
    (Writer.start c.graph literals).body =
      c.order.map fun b => ({ label := c.graph.blockLabel b } : Block) := by
  have hothers : (c.graph.order.filter fun b => !c.graph.reversePostOrder.contains b) = [] := by
    rw [List.filter_eq_nil_iff]
    intro b hb
    have hmem := hc.mem_order.2 hb
    rw [hc.order] at hmem
    simp [hmem]
  rw [Writer.body, Writer.start, hothers, List.map_nil, List.append_nil, hc.order]

/-- At the start no block of the graph has been written. -/
theorem start_done (hc : Sound c e dom) (literals : List String) :
    Done c e dom [] c.order (Writer.start c.graph literals) := by
  have hbody := body_start hc literals
  have hsize : (Writer.start c.graph literals).blocks.size = c.order.length := by
    rw [← Writer.length_body, hbody, List.length_map]
  have hline : ∀ k i, (Writer.start c.graph literals).body.line? k i = none := by
    intro k i
    unfold Body.line?
    rw [hbody, List.getElem?_map]
    cases c.order[k]? <;> rfl
  have hterm : ∀ k, (Writer.start c.graph literals).body.terminator? k = none := by
    intro k
    unfold Body.terminator?
    rw [hbody, List.getElem?_map]
    cases c.order[k]? <;> rfl
  have hresults : ∀ (i : Nat) (x : Operand),
      (Writer.start c.graph literals).results[i]? ≠ some (some x) := by
    intro i x hx
    simp only [Writer.start, Array.getElem?_replicate] at hx
    split at hx
    · cases Option.some.inj hx
    · cases hx
  have hopened : ∀ k, k ∈ c.order.map c.order.idxOf ↔
      k < (Writer.start c.graph literals).blocks.size ∧
        (Writer.start c.graph literals).body.terminator? k = none := by
    intro k
    rw [hsize, hterm]
    constructor
    · intro hk
      obtain ⟨b, hb, rfl⟩ := List.mem_map.1 hk
      exact ⟨hc.idxOf_lt hb, rfl⟩
    · rintro ⟨hk, _⟩
      exact List.mem_map.2 ⟨c.order[k], List.getElem_mem hk, hc.nodup.idxOf_getElem k hk⟩
  have hinv : Inv c e dom (c.order.map c.order.idxOf) (Writer.start c.graph literals) :=
    { size := Nat.le_of_eq hsize.symm
      opened := hopened
      nodup := hc.nodup.map_on fun x hx y _ heq => hc.idxOf_inj hx heq
      fresh := fun k i l hl => by rw [hline] at hl; cases hl
      numbers := fun k i l _ _ _ hl => by rw [hline] at hl; cases hl
      lines := fun k i l hl => by rw [hline] at hl; cases hl
      phi_lines := fun k i l hl => by rw [hline] at hl; cases hl
      phis := fun n v hv => by cases hv
      ends := fun k t ht => by rw [hterm] at ht; cases ht
      single := fun k k' o _ ho => by
        obtain ⟨t, ht, _⟩ := Body.mem_succs.1 ho
        rw [hterm] at ht
        cases ht
      results := fun i x hx => absurd hx (hresults i x) }
  exact ⟨hinv, fun b _ i => hline _ i,
    ⟨Array.size_replicate, fun i hi => absurd hi List.not_mem_nil,
      fun i x hx => absurd hx (hresults i x)⟩,
    fun b hb => absurd hb List.not_mem_nil, fun b k hk => by cases hk⟩

/-- Every function can be written. -/
theorem body_written (hc : Sound c e dom) (literals : List String) :
    ∃ s s', (Write.body c).run (Writer.start c.graph literals) = .ok (s'.body, s') ∧
      Done c e dom c.order [] s ∧ Filled c s.phis s s' ∧ literals <+: s'.literals := by
  obtain ⟨s, hrun, hdone, hextends⟩ :=
    blocks_written hc (List.nil_append c.order).symm (start_done hc literals)
  obtain ⟨s', hrun', hfilled⟩ :=
    phis_filled hc hdone (.refl c s) (List.Subset.refl s.phis)
  refine ⟨s, s', ?_, hdone, hfilled, ?_⟩
  · have hbody : (Write.body c).run (Writer.start c.graph literals) =
        (c.order.forM (Write.block c)).run (Writer.start c.graph literals) >>= fun p =>
          (p.2.phis.forM fun q => Write.fillPhi c q.1 q.2).run p.2 >>= fun q =>
            .ok (q.2.body, q.2) := rfl
    rw [hbody, hrun]
    have hrest : ((s.phis.forM fun q => Write.fillPhi c q.1 q.2).run s >>= fun q =>
        Except.ok (q.2.body, q.2)) = (Except.ok (s'.body, s') : Except EmitError _) := by
      rw [hrun']
      rfl
    exact hrest
  · rw [hfilled.same.2.2]
    exact hextends.literals

end ClassLang.Llvm
