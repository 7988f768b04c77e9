import ClassLang.Proofs.Graph.Verified
import ClassLang.Proofs.Machine.Step

/-!
A run of a graph that breaks no rule reads only what it has computed. A frame has come
along some route to the block that it is in, and has computed all instructions of the
blocks on it; so an operand whose block lies on every route is there.
-/

namespace ClassLang.Machine

open ClassLang.Graph (Instr Op Route OnEveryRoute)

/-! Operands -/

namespace Frame

/-- Instruction `i` has been computed in this activation. -/
def Computed (f : Frame) (i : Nat) : Prop := (f.values.getD i none).isSome = true

/-- The slot of instruction `i` has been allocated in this activation. -/
def Allocated (f : Frame) (i : Nat) : Prop := (f.slots.getD i none).isSome = true

/-- An operand that is there and has been computed. -/
def Finds (f : Frame) (arg : Option (Option Nat)) : Prop :=
  ∃ a, arg = some (some a) ∧ f.Computed a

/-- What a frame is about to read is there: on the edge into a block the operands of each
`phi` that opens it, at an instruction its operands and its slot, and at the end of a block
the successors and the condition or result. -/
structure Safe (f : Frame) : Prop where
  edge : f.todo = none → ∃ b, f.block.bind f.fn.block? = some b ∧
    ∀ p, f.origin = some p → ∃ k, b.preds.idxOf? p = some k ∧
      ∀ i v, i ∈ b.values → f.fn.instr? i = some v → v.op = .phi → f.Finds v.args[k]?
  operands : ∀ i todo, f.todo = some (i :: todo) → ∃ v, f.At i v todo ∧
    (∀ k ∈ reads v.op v.args.length, f.Finds v.args[k]?) ∧
    (v.op = .load ∨ v.op = .store → ∃ a, v.args[0]? = some (some a) ∧ f.Allocated a)
  leave : f.todo = some [] → ∃ b, f.block.bind f.fn.block? = some b ∧
    (b.kind = .plain ∧ (∃ c, b.succs[0]? = some c) ∨
      b.kind = .branch ∧ (∃ yes no, b.succs[0]? = some yes ∧ b.succs[1]? = some no) ∧
        f.Finds b.controls[0]? ∨
      b.kind = .ret ∧ ∀ c, b.controls[0]? = some (some c) → f.Computed c)

end Frame

/-! Places -/

/-- The blocks that control has passed before block `b`, to which it came from `origin`. -/
inductive Came (succs : Nat → List Nat) (e : Nat) : Option Nat → Nat → List Nat → Prop
  | entry : Came succs e none e []
  | edge {p b : Nat} {l : List Nat} (front : Route succs e p l) (edge : b ∈ succs p) :
      Came succs e (some p) b l

theorem Came.route {succs : Nat → List Nat} {e b : Nat} {o : Option Nat} {l : List Nat}
    (h : Came succs e o b l) : Route succs e b (b :: l) := by
  cases h with
  | entry => exact .start
  | edge front edge => exact .step front edge

namespace Frame

/-- Where a frame is in its graph: before a block or in it, with the instructions `front`
behind it. -/
inductive Place (f : Frame) (e b : Nat) (front : List Nat) : Prop
  | before (todo : f.todo = none) (none : front = [])
  | inside {rest : List Nat} (todo : f.todo = some rest) (split : f.fn.values b = front ++ rest)
      (plain : ∀ i ∈ rest, f.fn.isPhi i = false)

/-- What holds of a frame of a graph that control enters at `e`. -/
structure Ready (f : Frame) (e : Nat) : Prop where
  values : f.values.size = f.fn.instrs.size
  slots : f.slots.size = f.fn.instrs.size
  allocated : ∀ i v, f.fn.instr? i = some v → v.op = .alloca → f.Computed i → f.Allocated i
  place : ∃ b l front, f.block = some b ∧ Came f.fn.succs e f.origin b l ∧
    f.Place e b front ∧ (∀ i ∈ front, f.Computed i) ∧ ∀ c ∈ l, ∀ i ∈ f.fn.values c, f.Computed i

variable {f : Frame} {e i v a : Nat} {y : Value} {todo : List Nat} {x : Instr}

/-! What is computed -/

theorem isSome_setIfInBounds {xs : Array (Option Value)} :
    ((xs.setIfInBounds v (some y)).getD i none).isSome = true ↔
      (xs.getD i none).isSome = true ∨ (i = v ∧ v < xs.size) := by
  simp only [Array.getD_eq_getD_getElem?, Array.getElem?_setIfInBounds]
  by_cases hi : v = i
  · subst hi
    by_cases hv : v < xs.size
    · simp [hv]
    · simp [hv]
  · simp [hi, Ne.symm hi]

theorem computed_given :
    (f.given v y todo).Computed i ↔ f.Computed i ∨ (i = v ∧ v < f.values.size) :=
  isSome_setIfInBounds

theorem allocated_stored : (f.stored a y).Allocated i ↔ f.Allocated i ∨ (i = a ∧ a < f.slots.size) :=
  isSome_setIfInBounds

theorem computed_entered {b : Graph.Block} {xs : List (Nat × Value)} :
    (f.entered b xs).Computed i ↔
      f.Computed i ∨ (i ∈ xs.map Prod.fst ∧ i < f.values.size) := by
  have hfold : ∀ (xs : List (Nat × Value)) (vs : Array (Option Value)),
      ((xs.foldl (fun vs p => vs.setIfInBounds p.1 (some p.2)) vs).getD i none).isSome = true ↔
        (vs.getD i none).isSome = true ∨ (i ∈ xs.map Prod.fst ∧ i < vs.size) := by
    intro xs
    induction xs with
    | nil => simp
    | cons x xs ih =>
        intro vs
        rw [List.foldl_cons, ih, isSome_setIfInBounds, Array.size_setIfInBounds, List.map_cons,
          List.mem_cons]
        constructor
        · rintro ((h | ⟨rfl, h⟩) | ⟨hi, h⟩)
          · exact Or.inl h
          · exact Or.inr ⟨Or.inl rfl, h⟩
          · exact Or.inr ⟨Or.inr hi, h⟩
        · rintro (h | ⟨rfl | hi, h⟩)
          · exact Or.inl (Or.inl h)
          · exact Or.inl (Or.inr ⟨rfl, h⟩)
          · exact Or.inr ⟨hi, h⟩
  exact hfold xs f.values

theorem size_entered (f : Frame) (b : Graph.Block) (xs : List (Nat × Value)) :
    (f.entered b xs).values.size = f.values.size := by
  have hfold : ∀ (xs : List (Nat × Value)) (vs : Array (Option Value)),
      (xs.foldl (fun vs p => vs.setIfInBounds p.1 (some p.2)) vs).size = vs.size := by
    intro xs
    induction xs with
    | nil => exact fun _ => rfl
    | cons x xs ih => exact fun vs => (ih _).trans (Array.size_setIfInBounds ..)
  exact hfold xs f.values

/-- The values taken on an edge are those of the instructions that open the block. -/
theorem fst_edgeValues {b : Graph.Block} {vs : List Nat} {xs : List (Nat × Value)}
    (h : State.edgeValues f b vs = .ok xs) : xs.map Prod.fst = vs.takeWhile f.fn.isPhi := by
  induction vs generalizing xs with
  | nil =>
      cases h
      rfl
  | cons i vs ih =>
      unfold State.edgeValues at h
      cases hv : f.fn.instr? i with
      | none =>
          rw [hv] at h
          cases h
          simp [Graph.Func.isPhi, hv]
      | some v =>
          rw [hv] at h
          dsimp only at h
          split at h
          next hop =>
            have hphi : f.fn.isPhi i = true := by simp [Graph.Func.isPhi, hv, hop]
            rw [List.takeWhile_cons_of_pos hphi]
            split at h
            next => cases h
            next k _ =>
              cases hx : f.operand v k with
              | error _ => rw [hx] at h; cases h
              | ok x =>
                  cases hrest : State.edgeValues f b vs with
                  | error _ => rw [hx, hrest] at h; cases h
                  | ok ys =>
                      rw [hx, hrest] at h
                      cases h
                      rw [List.map_cons, ih hrest]
          next hop =>
            have hphi : ¬ f.fn.isPhi i = true := by simp [Graph.Func.isPhi, hv, hop]
            rw [List.takeWhile_cons_of_neg hphi]
            cases h
            rfl

/-! Operands that are there -/

/-- An instruction without a fault has the operands that it reads. -/
theorem lt_of_mem_reads {g : Graph.Func} (h : x.fault? g = .ok none) (hphi : x.op ≠ .phi)
    (hi : i ∈ reads x.op x.args.length) : i < x.args.length := by
  obtain ⟨hvalid, hlisted, h⟩ := Instr.fault?_eq_none h
  have hcount : ∀ n, (.ok (x.countFault? n) : Except Graph.MissingOperand _) = .ok none →
      x.args.length = n := fun n h => Instr.countFault?_eq_none.1 (Except.ok.inj h)
  unfold Instr.operandFault? at h
  cases hop : x.op
  all_goals simp only [hop, reads, List.not_mem_nil, List.mem_cons, or_false,
    List.mem_range] at h hi hphi hvalid hlisted
  case invalid | unlisted | phi => contradiction
  case load =>
    obtain ⟨hlen, _⟩ := Instr.targetFault?_eq_none h (by simp)
    omega
  case store =>
    obtain ⟨hlen, _⟩ := Instr.targetFault?_eq_none h (by simp)
    omega
  case dispatchEntry =>
    cases htarget : x.targetFault? g 1 .dispatchTable .entryTable with
    | error _ => rw [htarget] at h; cases h
    | ok found =>
        cases found with
        | some _ => rw [htarget] at h; cases h
        | none =>
            obtain ⟨hlen, _⟩ := Instr.targetFault?_eq_none htarget (by simp)
            omega
  case setDispatch =>
    split at h
    · have hlen := hcount _ h
      omega
    · cases h
  case callDirect => exact hi
  case callIndirect =>
    split at h
    · cases h
    · omega
  all_goals
    have hlen := hcount _ h
    omega

/-! Steps -/

theorem Ready.start {fn : Graph.Func} (hentry : fn.entry = some e) (args : List Value)
    (outer : Option Waiting) : (Frame.start fn args outer).Ready e where
  values := by simp [Frame.start]
  slots := by simp [Frame.start]
  allocated i v _ _ h := by
    have hnone : ((Array.replicate fn.instrs.size (none : Option Value)).getD i none) = none := by
      rw [Array.getD_eq_getD_getElem?, Array.getElem?_replicate]
      split <;> rfl
    unfold Computed Frame.start at h
    rw [hnone] at h
    cases h
  place := ⟨e, [], [], hentry, .entry, .before rfl rfl, by simp, by simp⟩

theorem values_of_block {b : Nat} {bk : Graph.Block} (hb : f.block = some b)
    (hbk : f.block.bind f.fn.block? = some bk) :
    f.fn.block? b = some bk ∧ f.fn.values b = bk.values := by
  rw [hb, Option.bind_some] at hbk
  exact ⟨hbk, by simp [Graph.Func.values, hbk]⟩

theorem Ready.jumped {c : Nat} (h : f.Ready e) (htodo : f.todo = some []) (hgoes : f.Goes c) :
    (f.jumped c).Ready e := by
  obtain ⟨n, l, front, hn, hcame, hplace, hfront, hl⟩ := h.place
  have hedge : c ∈ f.fn.succs n := by
    cases hgoes with
    | plain hb _ hsucc =>
        obtain ⟨hbk, _⟩ := values_of_block hn hb
        simpa [Graph.Func.succs, hbk] using List.mem_of_mem_head? hsucc
    | branch hb _ _ hsucc =>
        obtain ⟨hbk, _⟩ := values_of_block hn hb
        simpa [Graph.Func.succs, hbk] using List.mem_of_getElem? hsucc
  have hall : ∀ i ∈ f.fn.values n, f.Computed i := by
    cases hplace with
    | before htodo' _ => rw [htodo] at htodo'; cases htodo'
    | inside htodo' hsplit _ =>
        obtain rfl := Option.some.inj (htodo.symm.trans htodo')
        rw [hsplit, List.append_nil]
        exact hfront
  refine ⟨h.values, h.slots, h.allocated, c, n :: l, [], rfl, ?_, .before rfl rfl, by simp, ?_⟩
  · show Came f.fn.succs e f.block c (n :: l)
    rw [hn]
    exact .edge hcame.route hedge
  · intro c' hc'
    rcases List.mem_cons.1 hc' with rfl | hc'
    · exact hall
    · exact hl c' hc'

section

variable (hv : f.fn.Verified e)

include hv

theorem mem_of_route {b : Nat} {l : List Nat} (h : Route f.fn.succs e b l) :
    b ∈ f.fn.reversePostOrder :=
  h.subset hv.start (fun p c hp hc => (hv.edges p hp c hc).1) h.mem

theorem Ready.entered {b : Graph.Block} {xs : List (Nat × Value)} (h : f.Ready e)
    (hb : f.block.bind f.fn.block? = some b)
    (hxs : State.edgeValues f b b.values = .ok xs) : (f.entered b xs).Ready e := by
  obtain ⟨n, l, front, hn, hcame, hplace, hfront, hl⟩ := h.place
  have hmem := mem_of_route hv hcame.route
  obtain ⟨hbk, hvalues⟩ := values_of_block hn hb
  obtain ⟨phis, rest, hsplit, hphis, hrest⟩ := hv.phis n hmem
  rw [hvalues] at hsplit
  have htake : b.values.takeWhile f.fn.isPhi = phis := by
    rw [hsplit, List.takeWhile_append_of_pos hphis]
    cases rest with
    | nil => simp
    | cons i rest => simp [hrest i List.mem_cons_self]
  have hfilter : (b.values.filter fun i => (f.fn.instr? i).map (·.op) ≠ some .phi) = rest := by
    have hfun : (fun i => decide ((f.fn.instr? i).map (·.op) ≠ some .phi)) =
        fun i => !f.fn.isPhi i := by
      funext i
      cases hi : f.fn.instr? i with
      | none => simp [Graph.Func.isPhi, hi]
      | some v => simp [Graph.Func.isPhi, hi]
    rw [hfun, hsplit, List.filter_append, List.filter_eq_nil_iff.2 (by simpa using hphis),
      List.filter_eq_self.2 (by simpa using hrest), List.nil_append]
  have hxs := (fst_edgeValues hxs).trans htake
  refine ⟨(size_entered f b xs).trans h.values, h.slots, fun i v hi hop hc => ?_, n, l, phis, hn,
    hcame, .inside (congrArg some hfilter) (hvalues.trans hsplit) hrest, fun i hi => ?_,
    fun c hc i hi => computed_entered.2 (Or.inl (hl c hc i hi))⟩
  · rcases computed_entered.1 hc with hc | ⟨hc, _⟩
    · exact h.allocated i v hi hop hc
    · have hphi := hphis i (hxs ▸ hc)
      have hi : f.fn.instr? i = some v := hi
      simp [Graph.Func.isPhi, hi, hop] at hphi
  · obtain ⟨v, hi', _⟩ := hv.sane n hmem i (by simp [hvalues, hsplit, hi])
    exact computed_entered.2 (Or.inr ⟨hxs ▸ hi, h.values ▸ Graph.Func.instr?_lt hi'⟩)

/-- The instruction that a frame has come to. -/
theorem Ready.instr (h : f.Ready e) (htodo : f.todo = some (v :: todo)) :
    ∃ b l front, f.block = some b ∧ Came f.fn.succs e f.origin b l ∧
      f.fn.values b = front ++ v :: todo ∧ (∀ i ∈ v :: todo, f.fn.isPhi i = false) ∧
      (∀ i ∈ front, f.Computed i) ∧ (∀ c ∈ l, ∀ i ∈ f.fn.values c, f.Computed i) ∧
      ∃ x, f.fn.instr? v = some x ∧ x.fault? f.fn = .ok none := by
  obtain ⟨n, l, front, hn, hcame, hplace, hfront, hl⟩ := h.place
  cases hplace with
  | before htodo' _ => rw [htodo] at htodo'; cases htodo'
  | inside htodo' hsplit hplain =>
      obtain rfl := Option.some.inj (htodo.symm.trans htodo')
      exact ⟨n, l, front, hn, hcame, hsplit, hplain, hfront, hl,
        hv.sane n (mem_of_route hv hcame.route) v (by simp [hsplit])⟩

theorem Ready.given (h : f.Ready e) (htodo : f.todo = some (v :: todo))
    (halloc : ∀ x, f.fn.instr? v = some x → x.op = .alloca → f.Allocated v) (y : Value) :
    (f.given v y todo).Ready e := by
  obtain ⟨n, l, front, hn, hcame, hsplit, hplain, hfront, hl, x, hx, _⟩ := h.instr hv htodo
  refine ⟨?_, h.slots, fun i w hi hop hc => ?_, n, l, front ++ [v], hn, hcame,
    .inside rfl (hsplit.trans (by simp)) fun i hi => hplain i (List.mem_cons_of_mem _ hi),
    fun i hi => ?_, fun c hc i hi => computed_given.2 (Or.inl (hl c hc i hi))⟩
  · exact (Array.size_setIfInBounds ..).trans h.values
  · rcases computed_given.1 hc with hc | ⟨rfl, _⟩
    · exact h.allocated i w hi hop hc
    · exact halloc w hi hop
  · rcases List.mem_append.1 hi with hi | hi
    · exact computed_given.2 (Or.inl (hfront i hi))
    · exact computed_given.2 (Or.inr ⟨List.mem_singleton.1 hi, h.values ▸ Graph.Func.instr?_lt hx⟩)

omit hv

theorem Ready.stored (h : f.Ready e) (a : Nat) (y : Value) : (f.stored a y).Ready e where
  values := h.values
  slots := (Array.size_setIfInBounds ..).trans h.slots
  allocated i w hi hop hc := allocated_stored.2 (Or.inl (h.allocated i w hi hop hc))
  place := by
    obtain ⟨n, l, front, hn, hcame, hplace, hrest⟩ := h.place
    refine ⟨n, l, front, hn, hcame, ?_, hrest⟩
    cases hplace with
    | before htodo hnone => exact .before htodo hnone
    | inside htodo hsplit hplain => exact .inside htodo hsplit hplain

end

theorem Ready.next {f' : Frame} (hv : f.fn.Verified e) (h : f.Ready e) (hnext : f.Next f') :
    f'.Ready e := by
  cases hnext with
  | enter _ hb hxs => exact h.entered hv hb hxs
  | jump htodo hgoes => exact h.jumped htodo hgoes
  | given hat hop =>
      refine h.given hv hat.todo (fun x hx halloc => ?_) _
      exact absurd (Option.some.inj (hat.instr.symm.trans hx) ▸ halloc) hop
  | @newSlot v x todo hat hop =>
      refine Ready.given (f := f.stored v .nil) hv (h.stored v .nil) hat.todo (fun _ _ _ => ?_) _
      exact allocated_stored.2 (Or.inr ⟨rfl, h.slots ▸ Graph.Func.instr?_lt hat.instr⟩)
  | @store v a x todo y hat hop _ =>
      refine Ready.given (f := f.stored a y) hv (h.stored a y) hat.todo (fun w hw halloc => ?_) _
      have hw : f.fn.instr? v = some w := hw
      rw [← Option.some.inj (hat.instr.symm.trans hw), hop] at halloc
      cases halloc

/-! What a frame reads -/

/-- What comes before a block on every route has been computed when control is there. -/
theorem computed_of_before {b : Nat} {l : List Nat} (hroute : Route f.fn.succs e b l)
    (hl : ∀ c ∈ l, ∀ i ∈ f.fn.values c, f.Computed i) (ha : f.fn.Before e a b) : f.Computed a := by
  obtain ⟨home, hmem, hevery⟩ := ha
  exact hl home (hevery l hroute) a hmem

/-- Only the entry is not come to from another block. -/
theorem Ready.block_of_origin (h : f.Ready e) (horigin : f.origin = none) : f.block = some e := by
  obtain ⟨n, l, front, hn, hcame, _⟩ := h.place
  rw [horigin] at hcame
  cases hcame
  exact hn

section

variable (hv : f.fn.Verified e) (h : f.Ready e)

include hv h

theorem Ready.edge : ∃ b, f.block.bind f.fn.block? = some b ∧
    ∀ p, f.origin = some p → ∃ k, b.preds.idxOf? p = some k ∧
      ∀ i v, i ∈ b.values → f.fn.instr? i = some v → v.op = .phi → f.Finds v.args[k]? := by
  obtain ⟨n, l, front, hn, hcame, hplace, hfront, hl⟩ := h.place
  have hmem := mem_of_route hv hcame.route
  obtain ⟨b, hb, _⟩ := hv.blocks n hmem
  have hpreds : f.fn.preds n = b.preds := by simp [Graph.Func.preds, hb]
  have hvalues : f.fn.values n = b.values := by simp [Graph.Func.values, hb]
  refine ⟨b, by rw [hn, Option.bind_some, hb], fun p horigin => ?_⟩
  rw [horigin] at hcame
  cases hcame with
  | @edge _ _ _ hroute hedge =>
      have hp := (hv.edges p (mem_of_route hv hroute) n hedge).2
      rw [hpreds] at hp
      obtain ⟨k, hk⟩ : ∃ k, b.preds.idxOf? p = some k :=
        Option.isSome_iff_exists.1 (by simpa [List.isSome_idxOf?] using hp)
      have hpred : (f.fn.preds n)[k]? = some p := by
        obtain ⟨hlt, heq, _⟩ := List.idxOf?_eq_some_iff.1 hk
        rw [hpreds, List.getElem?_eq_getElem hlt, heq]
      refine ⟨k, hk, fun i v hi hinstr hop => ?_⟩
      obtain ⟨front, back, hsplit⟩ := List.append_of_mem (hvalues ▸ hi)
      have hfed := hv.fed n hmem front i back v hsplit hinstr
      rw [Graph.Func.Fed, if_pos hop] at hfed
      obtain ⟨a, harg, hbefore⟩ := hfed k p hpred
      exact ⟨a, harg, computed_of_before hroute hl hbefore⟩

theorem Ready.operands (htodo : f.todo = some (v :: todo)) : ∃ x, f.At v x todo ∧
    (∀ k ∈ reads x.op x.args.length, f.Finds x.args[k]?) ∧
    (x.op = .load ∨ x.op = .store → ∃ a, x.args[0]? = some (some a) ∧ f.Allocated a) := by
  obtain ⟨n, l, front, hn, hcame, hsplit, hplain, hfront, hl, x, hx, hfault⟩ := h.instr hv htodo
  have hphi : x.op ≠ .phi := by
    have hnot := hplain v List.mem_cons_self
    simpa [Graph.Func.isPhi, hx] using hnot
  have hfed := hv.fed n (mem_of_route hv hcame.route) front v todo x hsplit hx
  rw [Graph.Func.Fed, if_neg hphi] at hfed
  have hfinds : ∀ k < x.args.length, f.Finds x.args[k]? := by
    intro k hk
    obtain ⟨a, harg, hplace⟩ := hfed _ (List.getElem_mem hk)
    refine ⟨a, by rw [List.getElem?_eq_getElem hk, harg], ?_⟩
    rcases hplace with hfront' | ⟨home, hne, hmem, hevery⟩
    · exact hfront a hfront'
    · have hhome := (List.mem_cons.1 (hevery _ hcame.route)).resolve_left hne
      exact hl home hhome a hmem
  refine ⟨x, ⟨htodo, hx⟩, fun k hk => hfinds k (lt_of_mem_reads hfault hphi hk), fun hop => ?_⟩
  obtain ⟨_, _, hop'⟩ := Instr.fault?_eq_none hfault
  have hslot : ∃ a rest w, x.args = some a :: rest ∧ f.fn.instr? a = some w ∧ w.op = .alloca := by
    unfold Instr.operandFault? at hop'
    rcases hop with hop | hop
    · rw [hop] at hop'
      exact (Instr.targetFault?_eq_none hop' (by simp)).2
    · rw [hop] at hop'
      exact (Instr.targetFault?_eq_none hop' (by simp)).2
  obtain ⟨a, rest, w, hargs, hw, halloc⟩ := hslot
  obtain ⟨a', harg, hcomputed⟩ := hfinds 0 (by simp [hargs])
  have ha : x.args[0]? = some (some a) := by simp [hargs]
  obtain rfl : a' = a := Option.some.inj (Option.some.inj (harg.symm.trans ha))
  exact ⟨a', ha, h.allocated a' w hw halloc hcomputed⟩

theorem Ready.leave (htodo : f.todo = some []) : ∃ b, f.block.bind f.fn.block? = some b ∧
    (b.kind = .plain ∧ (∃ c, b.succs[0]? = some c) ∨
      b.kind = .branch ∧ (∃ yes no, b.succs[0]? = some yes ∧ b.succs[1]? = some no) ∧
        f.Finds b.controls[0]? ∨
      b.kind = .ret ∧ ∀ c, b.controls[0]? = some (some c) → f.Computed c) := by
  obtain ⟨n, l, front, hn, hcame, hplace, hfront, hl⟩ := h.place
  have hmem := mem_of_route hv hcame.route
  obtain ⟨b, hb, hended⟩ := hv.blocks n hmem
  have hall : ∀ c ∈ n :: l, ∀ i ∈ f.fn.values c, f.Computed i := by
    intro c hc
    rcases List.mem_cons.1 hc with rfl | hc
    · cases hplace with
      | before htodo' _ => rw [htodo] at htodo'; cases htodo'
      | inside htodo' hsplit _ =>
          obtain rfl := Option.some.inj (htodo.symm.trans htodo')
          rw [hsplit, List.append_nil]
          exact hfront
    · exact hl c hc
  have hcontrol : ∀ c, some c ∈ b.controls → f.Computed c := fun c hc =>
    computed_of_before hcame.route hall
      (hv.controls n hmem c (by simpa [Graph.Func.controlsOf, hb] using hc))
  refine ⟨b, by rw [hn, Option.bind_some, hb], ?_⟩
  cases hended with
  | @plain c hkind hsuccs => exact Or.inl ⟨hkind, c, by simp [hsuccs]⟩
  | @branch c yes no hkind hcontrols hsuccs =>
      refine Or.inr (Or.inl ⟨hkind, ⟨yes, no, by simp [hsuccs]⟩, c, by simp [hcontrols], ?_⟩)
      exact hcontrol c (by simp [hcontrols])
  | ret hkind =>
      exact Or.inr (Or.inr ⟨hkind, fun c hc => hcontrol c (List.mem_of_getElem? hc)⟩)

end

end Frame

/-! Runs -/

variable {m : ClassLang.Machine} {budget : Budget} {fn : Graph.Func} {args : List Value}
  {s : State}

/-- Every frame of a run is at a place that its graph allows. -/
theorem Reached.ready (h : Reached m budget fn args s) :
    ∀ f ∈ s.stack, ∀ e, f.fn.Verified e → f.Ready e := by
  induction h with
  | start hpush =>
      rw [State.push_eq] at hpush
      split at hpush
      next => cases hpush
      next =>
        cases hpush
        intro f hf e hv
        obtain rfl : f = _ := List.mem_singleton.1 hf
        exact .start hv.entry args _
  | @step s s' hbefore hstep ih =>
      have hshift := (Goes.of_advance hstep).shift
      have hcallers := hbefore.callers
      generalize s'.stack = stack' at hshift
      cases hshift with
      | @top f f' rest hstack hnext =>
          intro g hg e hv
          rcases List.mem_cons.1 hg with rfl | hg
          · have hfn : g.fn = f.fn := by cases hnext <;> rfl
            rw [hfn] at hv
            exact (ih f (by simp [hstack]) e hv).next hv hnext
          · exact ih g (by simp [hstack, hg]) e hv
      | @back g rest v todo x hbelow hwaits =>
          intro g' hg' e hv
          have hmem : ∀ g' ∈ g :: rest, g' ∈ s.stack := fun g' hg' =>
            List.mem_of_mem_tail (hbelow.subset hg')
          rcases List.mem_cons.1 hg' with rfl | hg'
          · obtain ⟨w, y, todo', hat, hcall⟩ := hcallers g (hbelow.subset List.mem_cons_self)
            have hv : g.fn.Verified e := hv
            refine (ih g (hmem g List.mem_cons_self) e hv).given hv hwaits (fun z hz halloc => ?_) x
            obtain ⟨rfl, -⟩ := List.cons.inj (Option.some.inj (hat.todo.symm.trans hwaits))
            rw [Option.some.inj (hat.instr.symm.trans hz), halloc] at hcall
            cases hcall
          · exact ih g' (hmem g' (List.mem_cons_of_mem _ hg')) e hv
      | again hbelow =>
          intro g hg e hv
          rcases List.mem_cons.1 hg with rfl | hg
          · exact .start hv.entry _ _
          · exact ih g (List.mem_of_mem_tail (hbelow.subset hg)) e hv
      | push _ _ =>
          intro g hg e hv
          rcases List.mem_cons.1 hg with rfl | hg
          · exact .start hv.entry _ _
          · exact ih g hg e hv

/-- The edge into a block gives a value to each `phi` that finds its operand. -/
theorem edgeValues_ok {f : Frame} {b : Graph.Block} {p k : Nat} {vs : List Nat}
    (horigin : f.origin = some p) (hk : b.preds.idxOf? p = some k)
    (h : ∀ i v, i ∈ vs → f.fn.instr? i = some v → v.op = .phi → f.Finds v.args[k]?) :
    ∃ xs, State.edgeValues f b vs = .ok xs := by
  induction vs with
  | nil => exact ⟨[], rfl⟩
  | cons i vs ih =>
      obtain ⟨xs, hxs⟩ := ih fun j v hj => h j v (List.mem_cons_of_mem _ hj)
      unfold State.edgeValues
      cases hv : f.fn.instr? i with
      | none => exact ⟨[], rfl⟩
      | some v =>
          dsimp only
          split
          next hop =>
            obtain ⟨a, ha, _⟩ := h i v List.mem_cons_self hv hop
            rw [horigin, Option.bind_some, hk]
            exact ⟨(i, f.value a) :: xs, by
              simp only [Frame.operand, ha, hxs, Bind.bind, Except.bind, Pure.pure, Except.pure]⟩
          next => exact ⟨[], rfl⟩

/-- Where the edge into a block gives no values, the block starts with a `phi`. -/
theorem isPhi_of_edgeValues {f : Frame} {b : Graph.Block} {vs : List Nat} {e : Failure}
    (h : State.edgeValues f b vs = .error e) : ∃ i, vs.head? = some i ∧ f.fn.isPhi i = true := by
  cases vs with
  | nil => cases h
  | cons i vs =>
      refine ⟨i, rfl, ?_⟩
      unfold State.edgeValues at h
      cases hv : f.fn.instr? i with
      | none => rw [hv] at h; cases h
      | some v =>
          rw [hv] at h
          dsimp only at h
          split at h
          next hop => simp [Graph.Func.isPhi, hv, hop]
          next => cases h

/-- A frame that finds what it reads comes to each block but the first from a predecessor. -/
theorem Frame.Safe.strangeEdge {f : Frame} (h : f.Safe) {last : State} {n b o : String} {p : Pos}
    (hhead : s.stack.head? = some f)
    (hstop : Stop s last (.error (.runtime n p (.strangeEdge b o)))) :
    f.origin = none ∧ ∃ bk i, f.block.bind f.fn.block? = some bk ∧ bk.values.head? = some i ∧
      f.fn.isPhi i = true := by
  have htop : ∀ {g rest}, s.stack = g :: rest → g = f := fun hstack => by
    rw [hstack] at hhead
    exact Option.some.inj hhead
  have hserved : ∀ {s : State}, ¬ s.Quits none last (.error (.runtime n p (.strangeEdge b o))) := by
    intro s hquits
    generalize hr : Except.error (Failure.runtime n p (.strangeEdge b o)) = r at hquits
    cases hquits with
    | pass _ failed => cases failed
    | _ => cases hr
  cases hstop with
  | host _ _ _ answer => exact absurd (State.quits_of_answer answer) hserved
  | resume _ _ _ _ answer => exact absurd (State.quits_of_answer answer) hserved
  | edge hstack htodo _ hblock hedge =>
      obtain rfl := htop hstack
      obtain ⟨bk, hbk, hphis⟩ := h.edge htodo
      obtain rfl := Option.some.inj (hblock.symm.trans hbk)
      obtain ⟨i, hi, hphi⟩ := isPhi_of_edgeValues hedge
      refine ⟨?_, _, i, hblock, hi, hphi⟩
      cases horigin : Frame.origin _ with
      | none => rfl
      | some p =>
          obtain ⟨k, hk, hfinds⟩ := hphis p horigin
          obtain ⟨xs, hxs⟩ := edgeValues_ok horigin hk hfinds
          rw [hxs] at hedge
          cases hedge
  | action _ _ haction => cases (action_ends _ _ _).error haction

/-- In a run, a frame of a graph that breaks no rule and lists each instruction once reads
only operands that it has computed and slots that it has allocated, and finds the successors
that its blocks ask for. Only a `phi` that starts the entry can fail for lack of an edge. -/
theorem accepted_frames_are_safe (h : Reached m budget fn args s) {f : Frame} (hf : f ∈ s.stack)
    (hok : f.fn.violations = .ok []) (hlisted : f.fn.Listed) :
    f.Safe ∧ ∀ last n p b o, s.stack.head? = some f →
      s.step = .done last (.error (.runtime n p (.strangeEdge b o))) →
      ∃ e i, f.fn.entry = some e ∧ (f.fn.values e).head? = some i ∧ f.fn.isPhi i = true := by
  obtain ⟨e, hv⟩ := Graph.Func.verified hok hlisted
  have hready := h.ready f hf e hv
  have hsafe : f.Safe :=
    { edge := fun _ => hready.edge hv
      operands := fun i todo => hready.operands hv
      leave := hready.leave hv }
  refine ⟨hsafe, fun last n p b o hhead hstep => ?_⟩
  obtain ⟨horigin, bk, i, hbk, hi, hphi⟩ := hsafe.strangeEdge hhead (Stop.of_step hstep)
  obtain ⟨_, hvalues⟩ := Frame.values_of_block (hready.block_of_origin horigin) hbk
  exact ⟨e, i, hv.entry, by rw [hvalues, hi], hphi⟩

/-- A function whose entry is a `phi` of no operands. -/
def phiFirst : Graph.Func :=
  { name := "f"
    order := [0]
    blocks := #[{ id := 0, kind := .ret, values := [0] }]
    instrs := #[{ id := 0, op := .phi, type := some .bool, block := 0 }] }

/-- Such a function breaks no rule, and no run of it succeeds. -/
theorem phiFirst_fails : phiFirst.violations = .ok [] ∧ phiFirst.Listed ∧
    (call { program := ⟨default, [], [phiFirst]⟩ } 1 none phiFirst []).map (·.result) =
      some (.error (.runtime "f" Pos.none (.strangeEdge "b0" "<nil>"))) := by
  refine ⟨by rfl, ⟨?_, ?_, ?_, ?_⟩, by rfl⟩
  · decide
  · decide
  · decide
  · simp [phiFirst, Graph.Func.controlsOf, Graph.Func.block?]

/-- A function that leaves a truth value in a slot and returns it by one of two ways. -/
def chosen : Graph.Func :=
  { name := "g"
    sig := some ⟨[], [], .bool⟩
    order := [0, 1, 2]
    blocks := #[
      { id := 0, kind := .branch, controls := [some 1], succs := [1, 2], values := [0, 1, 2] },
      { id := 1, succs := [2], preds := [0], values := [3] },
      { id := 2, kind := .ret, controls := [some 4], preds := [0, 1], values := [4] }]
    instrs := #[
      { id := 0, op := .alloca, type := some .bool, block := 0 },
      { id := 1, op := .constBool, type := some .bool, number := 1, block := 0 },
      { id := 2, op := .store, args := [some 0, some 1], block := 0 },
      { id := 3, op := .load, type := some .bool, args := [some 0], block := 1 },
      { id := 4, op := .phi, type := some .bool, args := [some 1, some 3], block := 2 }] }

theorem chosen_listed : chosen.Listed := by
  refine ⟨by decide, by decide, by decide, ?_⟩
  simp [chosen, Graph.Func.controlsOf, Graph.Func.block?, Graph.Func.values]

/-- A run of this function where it is about to fill its slot. -/
theorem chosen_safe : ∃ s f, Reached { program := ⟨default, [], [chosen]⟩ } none chosen [] s ∧
    f ∈ s.stack ∧ f.fn.violations = .ok [] ∧ f.fn.Listed ∧ f.todo = some [2] ∧ f.Safe := by
  have hreached : Reached { program := ⟨default, [], [chosen]⟩ } none chosen [] _ :=
    .step (.step (.step (.start rfl) rfl) rfl) rfl
  have hsafe := accepted_frames_are_safe hreached List.mem_cons_self (by rfl) chosen_listed
  exact ⟨_, _, hreached, List.mem_cons_self, by rfl, chosen_listed, rfl, hsafe.1⟩

end ClassLang.Machine
