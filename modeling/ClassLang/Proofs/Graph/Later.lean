import ClassLang.Proofs.Graph.Logic

/-!
What a state of construction says about the finished graph. Instructions and the ends of
blocks are there to stay; a block that has no end yet may get more instructions, and any block
more edges that lead to it.
-/

namespace ClassLang.Graph

namespace Func

variable {f g h : Func} {dom : Doms} {a b c n : Nat} {v : Instr}

/-- Block `b` has an end. -/
def Ended (f : Func) (b : Nat) : Prop := f.kindOf b ≠ .plain ∨ f.succs b ≠ []

/-- Block `b` can be entered from anywhere, since it does not start with a `phi`. -/
def Calm (f : Func) (b : Nat) : Prop := ∀ i ∈ f.body b, ∃ v, f.instr? i = some v ∧ v.op ≠ .phi

theorem Open.not_ended (h : f.Open b) : ¬f.Ended b := by
  rintro (hkind | hsuccs)
  · exact hkind h.kind
  · exact hsuccs h.succs

theorem Ends.ended (h : f.Ends b) : f.Ended b := by
  cases h with
  | plain _ succs =>
      right
      intro hnil
      simp [hnil] at succs
  | branch kind | ret _ kind =>
      left
      simp [kind]

theorem Ended.congr (h : f.Ended b) (hkind : g.kindOf b = f.kindOf b)
    (hsuccs : g.succs b = f.succs b) : g.Ended b := by
  rwa [Ended, hkind, hsuccs]

theorem Calm.of_body (h : f.Calm b) (hbody : g.body b = f.body b)
    (hinstr : ∀ i v, f.instr? i = some v → g.instr? i = some v) : g.Calm b := by
  intro i hi
  obtain ⟨v, hv, hop⟩ := h i (hbody ▸ hi)
  exact ⟨v, hinstr i v hv, hop⟩

theorem Calm.of_empty (h : f.body b = []) : f.Calm b := by
  intro i hi
  rw [h] at hi
  cases hi

theorem Coded.calm_iff (h : f.Coded dom) : f.Calm b ↔ f.NoPhi b := by
  constructor
  · intro hcalm i v hv hblock hphi
    have hmem : i ∈ f.body b := by
      refine List.mem_filter.2 ⟨(h.placed b i).2 ⟨v, hv, hblock⟩, ?_⟩
      simp [isSlot_of_instr? hv, hphi]
    obtain ⟨w, hw, hop⟩ := hcalm i hmem
    exact hop (Option.some.inj (hw.symm.trans hv) ▸ hphi)
  · intro hnophi i hi
    obtain ⟨v, hv, hblock⟩ := (h.placed b i).1 (List.mem_filter.1 hi).1
    exact ⟨v, hv, hnophi i v hv hblock⟩

@[simp] theorem body_branched (f : Func) (a cond yes no c : Nat) :
    (f.branched a cond yes no).body c = f.body c :=
  body_congr (values_branched ..) fun _ => instr?_branched ..

@[simp] theorem body_grows (f : Func) (k c : Nat) : (f.grows k).body c = f.body c := by
  induction k generalizing f with
  | zero => rfl
  | succ k ih => rw [grows, ih, body_grown]

@[simp] theorem instrs_grows (f : Func) (k : Nat) : (f.grows k).instrs = f.instrs := by
  induction k generalizing f with
  | zero => rfl
  | succ k ih => rw [grows, ih]; rfl

@[simp] theorem instrs_linked (f : Func) (a b : Nat) : (f.linked a b).instrs = f.instrs := rfl

@[simp] theorem instrs_ended (f : Func) (b : Nat) (kind : BlockKind)
    (controls : List (Option Nat)) : (f.ended b kind controls).instrs = f.instrs := rfl

@[simp] theorem instrs_branched (f : Func) (a cond yes no : Nat) :
    (f.branched a cond yes no).instrs = f.instrs := by
  rw [branched, instrs_linked, instrs_linked, instrs_ended]

theorem Open.grows (h : f.Open b) (k : Nat) : (f.grows k).Open b := by
  induction k generalizing f with
  | zero => exact h
  | succ k ih => exact ih ⟨by simpa using h.kind, by simpa using h.succs, by simpa using h.controls⟩

theorem Open.linked (h : f.Open b) (ha : a < f.blocks.size) (hne : a ≠ b) (c : Nat) :
    (f.linked a c).Open b where
  kind := by simpa using h.kind
  succs := by rw [succs_linked _ _ _ _ ha, if_neg hne, h.succs]
  controls := by simpa using h.controls

/-- From `f` to `g` construction has gone on. -/
structure Kept (f g : Func) : Prop where
  instrs : ∀ i v, f.instr? i = some v → g.instr? i = some v
  count : f.instrs.size ≤ g.instrs.size
  size : f.blocks.size ≤ g.blocks.size
  preds : ∀ b < f.blocks.size, f.preds b <+: g.preds b
  body : ∀ b < f.blocks.size, f.body b <+: g.body b
  ended : ∀ b < f.blocks.size, f.Ended b → g.kindOf b = f.kindOf b ∧ g.succs b = f.succs b ∧
    g.controlsOf b = f.controlsOf b ∧ g.body b = f.body b

namespace Kept

theorem refl (f : Func) : Kept f f where
  instrs _ _ hv := hv
  count := Nat.le_refl _
  size := Nat.le_refl _
  preds _ _ := List.prefix_refl _
  body _ _ := List.prefix_refl _
  ended _ _ _ := ⟨rfl, rfl, rfl, rfl⟩

theorem trans (hfg : Kept f g) (hgh : Kept g h) : Kept f h where
  instrs i v hv := hgh.instrs i v (hfg.instrs i v hv)
  count := Nat.le_trans hfg.count hgh.count
  size := Nat.le_trans hfg.size hgh.size
  preds b hb := (hfg.preds b hb).trans (hgh.preds b (Nat.lt_of_lt_of_le hb hfg.size))
  body b hb := (hfg.body b hb).trans (hgh.body b (Nat.lt_of_lt_of_le hb hfg.size))
  ended b hb hended := by
    obtain ⟨hkind, hsuccs, hcontrols, hbody⟩ := hfg.ended b hb hended
    obtain ⟨hkind', hsuccs', hcontrols', hbody'⟩ :=
      hgh.ended b (Nat.lt_of_lt_of_le hb hfg.size) (hended.congr hkind hsuccs)
    exact ⟨hkind'.trans hkind, hsuccs'.trans hsuccs, hcontrols'.trans hcontrols,
      hbody'.trans hbody⟩

theorem grown (f : Func) : Kept f f.grown where
  instrs _ _ hv := hv
  count := Nat.le_refl _
  size := by simp
  preds b _ := by simp
  body b _ := by simp
  ended b _ _ := by simp

theorem grows (f : Func) (k : Nat) : Kept f (f.grows k) := by
  induction k generalizing f with
  | zero => exact refl f
  | succ k ih => exact (grown f).trans (ih f.grown)

theorem linked (ha : a < f.blocks.size) (hb : b < f.blocks.size) (hopen : ¬f.Ended a) :
    Kept f (f.linked a b) where
  instrs _ _ hv := hv
  count := Nat.le_refl _
  size := by simp
  preds c _ := by
    rw [preds_linked _ _ _ _ hb]
    split
    · exact List.prefix_append _ _
    · exact List.prefix_refl _
  body c _ := by simp
  ended c _ hended := by
    have hne : a ≠ c := fun heq => hopen (heq ▸ hended)
    refine ⟨by simp, ?_, by simp, by simp⟩
    rw [succs_linked _ _ _ _ ha, if_neg hne]

theorem closed (hb : b < f.blocks.size) (hopen : ¬f.Ended b) (kind : BlockKind)
    (controls : List (Option Nat)) : Kept f (f.ended b kind controls) where
  instrs _ _ hv := hv
  count := Nat.le_refl _
  size := by simp
  preds c _ := by simp
  body c _ := by simp
  ended c _ hended := by
    have hne : b ≠ c := fun heq => hopen (heq ▸ hended)
    refine ⟨?_, by simp, ?_, by simp⟩
    · rw [kindOf_ended _ _ _ _ _ hb, if_neg hne]
    · rw [controlsOf_ended _ _ _ _ _ hb, if_neg hne]

theorem branched {cond yes no : Nat} (ha : a < f.blocks.size) (hyes : yes < f.blocks.size)
    (hno : no < f.blocks.size) (hopen : ¬f.Ended a) : Kept f (f.branched a cond yes no) where
  instrs i _ hv := (instr?_branched ..).trans hv
  count := by simp [Func.branched, Func.linked, Func.ended]
  size := by simp
  preds c _ := by
    rw [Func.branched, preds_linked _ _ _ _ (by simpa using hno),
      preds_linked _ _ _ _ (by simpa using hyes), preds_ended]
    split <;> split <;> simp [List.append_assoc]
  body c _ := by simp
  ended c _ hended := by
    have hne : a ≠ c := fun heq => hopen (heq ▸ hended)
    refine ⟨?_, ?_, ?_, ?_⟩
    · rw [kindOf_branched _ _ _ _ _ _ ha, if_neg hne]
    · rw [succs_branched _ _ _ _ _ _ ha, if_neg hne]
    · rw [controlsOf_branched _ _ _ _ _ _ ha, if_neg hne]
    · simp

theorem without (f : Func) (b : Nat) : Kept f (f.without b) where
  instrs _ _ hv := hv
  count := Nat.le_refl _
  size := Nat.le_refl _
  preds _ _ := List.prefix_refl _
  body _ _ := List.prefix_refl _
  ended _ _ _ := ⟨rfl, rfl, rfl, rfl⟩

theorem placed (hcoded : f.Coded dom) (hb : b < f.blocks.size) (hop : v.op ≠ .alloca)
    (hopen : ¬f.Ended b) : Kept f (f.inserted b (f.values b).length v) where
  instrs _ _ hv := instr?_inserted_of hv v b _
  count := by simp [inserted]
  size := by simp
  preds c _ := by simp
  body c _ := by
    rw [body_placed hcoded hb hop]
    split
    · exact List.prefix_append _ _
    · exact List.prefix_refl _
  ended c _ hended := by
    have hne : b ≠ c := fun heq => hopen (heq ▸ hended)
    refine ⟨by simp, by simp, by simp, ?_⟩
    rw [body_placed hcoded hb hop, if_neg hne]

theorem slot (hcoded : f.Coded dom) (hb : b < f.blocks.size) (hop : v.op = .alloca) (n : Nat) :
    Kept f (f.inserted b n v) where
  instrs _ _ hv := instr?_inserted_of hv v b _
  count := by simp [inserted]
  size := by simp
  preds c _ := by simp
  body c _ := body_slot hcoded hb hop ▸ List.prefix_refl _
  ended c _ _ := ⟨by simp, by simp, by simp, body_slot hcoded hb hop⟩

/-- What only touches blocks that are open or new keeps the others. -/
theorem of_frame {cur : Option Nat} {dom' : Doms}
    (hframe : Frame f.blocks.size cur dom f dom' g) (hopen : ∀ c ∈ cur, ¬f.Ended c)
    (hcount : f.instrs.size ≤ g.instrs.size) : Kept f g where
  instrs := hframe.instrs
  count := hcount
  size := hframe.size
  preds b hb := hframe.preds b hb ▸ List.prefix_refl _
  body := hframe.body
  ended b hb hended := hframe.others b hb fun heq => hopen b (Option.mem_def.2 heq.symm) hended

end Kept

/-- Where all instructions are kept there are no fewer. -/
theorem count_le (hinstr : ∀ i v, f.instr? i = some v → g.instr? i = some v) :
    f.instrs.size ≤ g.instrs.size := by
  by_contra hlt
  have hlast : g.instrs.size < f.instrs.size := Nat.lt_of_not_le hlt
  have hv := hinstr g.instrs.size _ (Array.getElem?_eq_getElem hlast)
  exact Nat.lt_irrefl _ (instr?_lt hv)

end Func

theorem Builder.func_slotted (s : Builder) (x : Var) : (s.slotted x).func =
    s.func.inserted 0 s.slotCount
      { id := s.func.instrs.size, op := .alloca, type := some x.ty, block := 0,
        aux := some (.text x.name) } := rfl

theorem Builder.slots_slotted (s : Builder) (x : Var) :
    (s.slotted x).slots = (x.pos, s.func.instrs.size) :: s.slots := rfl

theorem Builder.current_slotted (s : Builder) (x : Var) : (s.slotted x).current = s.current := rfl

-- changes of a graph are only known by what they do
attribute [local irreducible] Func.inserted Func.grown Func.without Func.linked Func.ended
  Func.branched Func.grows

namespace Builder

open Func (Kept)

variable {s s' t : Builder} {dom dom' : Doms} {pend : List Nat} {a b c : Nat} {v : Instr}

/-- The construction that has got to `s` ends with `t`. -/
structure Later (s t : Builder) : Prop extends s.func.Kept t.func where
  slots : s.slots ⊆ t.slots
  calm : ∀ b, s.current = some b → s.func.Calm b → t.func.Calm b

namespace Later

theorem refl (t : Builder) : Later t t := ⟨.refl _, List.Subset.refl _, fun _ _ => id⟩

/-- What holds later on holds before. The current block must either stay the current one or
get an end. -/
theorem back (h : Later s' t) (hkept : s.func.Kept s'.func) (hslots : s.slots ⊆ s'.slots)
    (hcalm : ∀ b, s.current = some b → s.func.Calm b → s'.func.Calm b ∧
      (s'.current = some b ∨ b < s'.func.blocks.size ∧ s'.func.Ended b)) : Later s t := by
  refine ⟨hkept.trans h.toKept, List.Subset.trans hslots h.slots, fun b hb hb' => ?_⟩
  obtain ⟨hcalm', hsame | ⟨hlt, hended⟩⟩ := hcalm b hb hb'
  · exact h.calm b hsame hcalm'
  · exact hcalm'.of_body (h.ended b hlt hended).2.2.2 h.instrs

/-- The current block of a state that has no fewer instructions is as before. -/
theorem back_same (h : Later s' t) (hkept : s.func.Kept s'.func) (hslots : s.slots ⊆ s'.slots)
    (hcur : s'.current = s.current)
    (hbody : ∀ b, s.current = some b → s'.func.body b = s.func.body b) : Later s t :=
  h.back hkept hslots fun b hb hcalm =>
    ⟨hcalm.of_body (hbody b hb) hkept.instrs, Or.inl (hcur.trans hb)⟩

/-- The current block has an end, which is there to stay. -/
theorem left {f : Func} (h : f.Kept t.func) (hkept : s.func.Kept f) (hslots : s.slots ⊆ t.slots)
    (hended : ∀ b, s.current = some b → b < f.blocks.size ∧ f.Ended b ∧ f.body b = s.func.body b) :
    Later s t := by
  refine ⟨hkept.trans h, hslots, fun b hb hcalm => ?_⟩
  obtain ⟨hlt, hended, hbody⟩ := hended b hb
  exact hcalm.of_body ((h.ended b hlt hended).2.2.2.trans hbody) (hkept.trans h).instrs

theorem grows {k : Nat} (h : Later (s.withFunc (s.func.grows k)) t) : Later s t :=
  h.back_same (.grows s.func k) (List.Subset.refl _) rfl fun _ _ => Func.body_grows ..

theorem linked (h : Later (s.withFunc (s.func.linked a b)) t) (ha : a < s.func.blocks.size)
    (hb : b < s.func.blocks.size) (hopen : ¬s.func.Ended a) : Later s t :=
  h.back_same (.linked ha hb hopen) (List.Subset.refl _) rfl fun _ _ => Func.body_linked ..

theorem closed {kind : BlockKind} {controls : List (Option Nat)}
    (h : Later (s.withFunc (s.func.ended b kind controls)) t) (hb : b < s.func.blocks.size)
    (hopen : ¬s.func.Ended b) : Later s t :=
  h.back_same (.closed hb hopen kind controls) (List.Subset.refl _) rfl
    fun _ _ => Func.body_ended ..

theorem branched {cond yes no : Nat} (h : Later (s.withFunc (s.func.branched a cond yes no)) t)
    (ha : a < s.func.blocks.size) (hyes : yes < s.func.blocks.size)
    (hno : no < s.func.blocks.size) (hopen : ¬s.func.Ended a) : Later s t :=
  h.back_same (.branched ha hyes hno hopen) (List.Subset.refl _) rfl
    fun _ _ => Func.body_branched ..

theorem without (h : Later (s.withFunc (s.func.without b)) t) : Later s t :=
  h.back_same (.without s.func b) (List.Subset.refl _) rfl
    fun _ _ => Func.body_congr (Func.values_without ..) fun _ => Func.instr?_without ..

/-- Another block is entered when the current one has an end. -/
theorem entered {cur : Option Nat} (h : Later (s.entered cur) t)
    (hended : ∀ b ∈ s.current, b < s.func.blocks.size ∧ s.func.Ended b) : Later s t :=
  h.back (.refl _) (List.Subset.refl _) fun b hb hcalm =>
    ⟨hcalm, Or.inr (hended b (Option.mem_def.2 hb))⟩

theorem placed (h : Later (s.placed c v) t) (hcoded : s.func.Coded dom)
    (hc : c < s.func.blocks.size) (hslot : v.op ≠ .alloca)
    (hphi : s.current = some c → v.op ≠ .phi) (hopen : ¬s.func.Ended c) : Later s t := by
  have hkept := Kept.placed hcoded hc hslot hopen
  refine h.back hkept (List.Subset.refl _) fun b hb hcalm => ⟨fun i hi => ?_, Or.inl hb⟩
  rw [func_placed, Func.body_placed hcoded hc hslot] at hi
  have hold : i ∈ s.func.body b → ∃ w, (s.placed c v).func.instr? i = some w ∧ w.op ≠ .phi := by
    intro hi
    obtain ⟨w, hw, hop⟩ := hcalm i hi
    exact ⟨w, hkept.instrs i w hw, hop⟩
  split at hi
  next heq =>
    rcases List.mem_append.1 hi with hi | hi
    · exact hold hi
    · refine ⟨v, ?_, hphi (heq ▸ hb)⟩
      rw [List.mem_singleton.1 hi, func_placed, Func.instr?_inserted, if_pos rfl]
  next => exact hold hi

theorem slotted {x : Var} (h : Later (s.slotted x) t) (hcoded : s.func.Coded dom)
    (hsize : 0 < s.func.blocks.size) : Later s t := by
  refine h.back_same ?_ ?_ (current_slotted s x) fun b _ => ?_
  · rw [func_slotted]
    exact .slot hcoded hsize rfl _
  · rw [slots_slotted]
    exact List.subset_cons_self _ _
  · rw [func_slotted, Func.body_slot hcoded hsize rfl]

/-- What a step of construction promises of the finished graph was so before. -/
theorem step (h : Later s' t) (hs : Inv dom pend s) (hstep : Step pend dom s dom' s') :
    Later s t := by
  have hopen : ∀ c ∈ s.current, ¬s.func.Ended c := fun c hc =>
    (hs.good.closed.opened c (by simp [Option.mem_def.1 hc])).not_ended
  have hkept : s.func.Kept s'.func :=
    .of_frame hstep.frame hopen (Func.count_le hstep.frame.instrs)
  refine h.back hkept hstep.slots.subset fun b hb hcalm => ?_
  have hlt := hs.lt_size hb
  have hcalm' : s'.func.Calm b := hstep.inv.good.coded.calm_iff.2
    (hstep.frame.phis b hlt (hs.good.coded.calm_iff.1 hcalm))
  refine ⟨hcalm', or_iff_not_imp_left.2 fun hcur => ⟨Nat.lt_of_lt_of_le hlt hkept.size, ?_⟩⟩
  -- a block that was current and is so no longer is not among the open ones
  have horder : b ∈ s'.func.order := (hstep.frame.order b hlt).2 (hs.mem_order hb)
  refine (hstep.inv.good.closed.ends b horder fun hmem => ?_).ended
  have hnodup := hs.good.closed.nodup
  rw [hb] at hnodup
  rcases List.mem_append.1 hmem with hmem | hmem
  · exact hcur (Option.mem_toList.1 hmem)
  · exact (List.nodup_cons.1 hnodup).1 hmem

end Later

end Builder

end ClassLang.Graph
