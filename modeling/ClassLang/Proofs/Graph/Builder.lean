import ClassLang.Proofs.Graph.Rules

/-!
What a step of construction promises. It leaves the blocks that were there alone, apart
from the current one and the slots at the start of the entry, and it ends in a block
before which the current one must be passed.
-/

namespace ClassLang.Graph

namespace Func

/-- Whether instruction `i` is a slot. -/
def isSlot (f : Func) (i : Nat) : Bool := ((f.instr? i).map (·.op)) = some .alloca

/-- The instructions of block `b` without the slots. -/
def body (f : Func) (b : Nat) : List Nat := (f.values b).filter fun i => !f.isSlot i

/-- The first `n` instructions of the entry are slots, and there are no others. -/
structure Slotted (f : Func) (n : Nat) : Prop where
  count : n ≤ (f.values 0).length
  front : ∀ i ∈ (f.values 0).take n, f.isSlot i = true
  back : ∀ i ∈ (f.values 0).drop n, f.isSlot i = false
  others : ∀ b, b ≠ 0 → ∀ i ∈ f.values b, f.isSlot i = false

variable {f : Func} {dom : Doms} {opens : List Nat} {b c i n : Nat} {v : Instr}

theorem isSlot_of_instr? (h : f.instr? i = some v) :
    f.isSlot i = decide (v.op = .alloca) := by
  simp [isSlot, h]

theorem isSlot_inserted (h : i ∈ f.values c) (hcoded : f.Coded dom) :
    (f.inserted b n v).isSlot i = f.isSlot i := by
  obtain ⟨w, hw, _⟩ := (hcoded.placed c i).1 h
  rw [isSlot_of_instr? hw, isSlot_of_instr? (instr?_inserted_of hw v b n)]

theorem isSlot_new : (f.inserted b n v).isSlot f.instrs.size = decide (v.op = .alloca) :=
  isSlot_of_instr? (by rw [instr?_inserted, if_pos rfl])

/-- The slots are left out, so the instructions that count are in the same order. -/
theorem body_inserted (hcoded : f.Coded dom) (hb : b < f.blocks.size) :
    (f.inserted b n v).body c = if b = c then
      ((f.values c).take n).filter (fun i => !f.isSlot i) ++
        (if v.op = .alloca then [] else [f.instrs.size]) ++
        ((f.values c).drop n).filter (fun i => !f.isSlot i)
    else f.body c := by
  have hsame : ∀ l : List Nat, l ⊆ f.values c →
      l.filter (fun i => !(f.inserted b n v).isSlot i) = l.filter fun i => !f.isSlot i := by
    intro l hl
    refine List.filter_congr fun i hi => ?_
    rw [isSlot_inserted (hl hi) hcoded]
  unfold body
  rw [values_inserted _ _ _ _ _ hb]
  split
  · rw [List.filter_append, List.filter_cons, isSlot_new, hsame _ (List.take_subset n _),
      hsame _ (List.drop_subset n _)]
    by_cases hop : v.op = .alloca <;> simp [hop]
  · exact hsame _ fun _ hx => hx

/-- An instruction at the end of a block. -/
theorem body_placed (hcoded : f.Coded dom) (hb : b < f.blocks.size) (hop : v.op ≠ .alloca) :
    (f.inserted b (f.values b).length v).body c =
      if b = c then f.body c ++ [f.instrs.size] else f.body c := by
  rw [body_inserted hcoded hb]
  split
  next heq => simp [← heq, body]
  next => rfl

/-- A slot does not count. -/
theorem body_slot (hcoded : f.Coded dom) (hb : b < f.blocks.size) (hop : v.op = .alloca) :
    (f.inserted b n v).body c = f.body c := by
  rw [body_inserted hcoded hb]
  split
  next => 
    rw [List.append_nil, ← List.filter_append, List.take_append_drop]
    rfl
  next => rfl

theorem Slotted.placed (h : f.Slotted n) (hcoded : f.Coded dom) (hb : b < f.blocks.size)
    (hop : v.op ≠ .alloca) : (f.inserted b (f.values b).length v).Slotted n := by
  have hvalues : ∀ c, (f.inserted b (f.values b).length v).values c =
      if b = c then f.values c ++ [f.instrs.size] else f.values c := by
    intro c
    rw [values_inserted _ _ _ _ _ hb]
    split
    next heq => simp [← heq]
    next => rfl
  have hold : ∀ {i c}, i ∈ f.values c →
      (f.inserted b (f.values b).length v).isSlot i = f.isSlot i := fun hi =>
    isSlot_inserted hi hcoded
  have hnew : (f.inserted b (f.values b).length v).isSlot f.instrs.size = false := by
    rw [isSlot_new]
    simpa using hop
  have htake : ((f.inserted b (f.values b).length v).values 0).take n = (f.values 0).take n := by
    rw [hvalues]
    split
    · exact List.take_append_of_le_length h.count
    · rfl
  refine ⟨?_, fun i hi => ?_, fun i hi => ?_, fun c hc i hi => ?_⟩
  · rw [hvalues]
    split
    · exact Nat.le_trans h.count (by simp)
    · exact h.count
  · rw [htake] at hi
    rw [hold (List.mem_of_mem_take hi)]
    exact h.front i hi
  · rw [hvalues] at hi
    split at hi
    · rw [List.drop_append_of_le_length h.count] at hi
      rcases List.mem_append.1 hi with hi | hi
      · rw [hold (List.mem_of_mem_drop hi)]
        exact h.back i hi
      · rw [List.mem_singleton.1 hi]
        exact hnew
    · rw [hold (List.mem_of_mem_drop hi)]
      exact h.back i hi
  · rw [hvalues] at hi
    split at hi
    · rcases List.mem_append.1 hi with hi | hi
      · rw [hold hi]
        exact h.others c hc i hi
      · rw [List.mem_singleton.1 hi]
        exact hnew
    · rw [hold hi]
      exact h.others c hc i hi

theorem Slotted.slot (h : f.Slotted n) (hcoded : f.Coded dom) (hb : 0 < f.blocks.size)
    (hop : v.op = .alloca) : (f.inserted 0 n v).Slotted (n + 1) := by
  have hlen : ((f.values 0).take n).length = n := by
    rw [List.length_take, Nat.min_eq_left h.count]
  have hvalues : (f.inserted 0 n v).values 0 =
      (f.values 0).take n ++ f.instrs.size :: (f.values 0).drop n := by
    rw [values_inserted _ _ _ _ _ hb, if_pos rfl]
  have hold : ∀ {i c}, i ∈ f.values c → (f.inserted 0 n v).isSlot i = f.isSlot i := fun hi =>
    isSlot_inserted hi hcoded
  have htake : ((f.inserted 0 n v).values 0).take (n + 1) =
      (f.values 0).take n ++ [f.instrs.size] := by
    rw [hvalues, List.take_append, hlen, List.take_of_length_le (by omega)]
    simp
  have hdrop : ((f.inserted 0 n v).values 0).drop (n + 1) = (f.values 0).drop n := by
    rw [hvalues, List.drop_append, hlen, List.drop_eq_nil_of_le (by omega)]
    simp
  refine ⟨?_, fun i hi => ?_, fun i hi => ?_, fun c hc i hi => ?_⟩
  · rw [hvalues, List.length_append, hlen]
    simp
  · rw [htake] at hi
    rcases List.mem_append.1 hi with hi | hi
    · rw [hold (List.mem_of_mem_take hi)]
      exact h.front i hi
    · rw [List.mem_singleton.1 hi, isSlot_new]
      simpa using hop
  · rw [hdrop] at hi
    rw [hold (List.mem_of_mem_drop hi)]
    exact h.back i hi
  · rw [values_inserted _ _ _ _ _ hb, if_neg (Ne.symm hc)] at hi
    rw [hold hi]
    exact h.others c hc i hi

theorem Slotted.congr {f' : Func} (h : f.Slotted n) (hvalues : ∀ b, f'.values b = f.values b)
    (hinstr : ∀ i, f'.instr? i = f.instr? i) : f'.Slotted n := by
  have hslot : ∀ i, f'.isSlot i = f.isSlot i := fun i => by rw [isSlot, isSlot, hinstr]
  refine ⟨?_, ?_, ?_, ?_⟩
  · rw [hvalues]
    exact h.count
  · simpa only [hvalues, hslot] using h.front
  · simpa only [hvalues, hslot] using h.back
  · simpa only [hvalues, hslot] using h.others

theorem body_congr {f' : Func} (hvalues : f'.values b = f.values b)
    (hinstr : ∀ i, f'.instr? i = f.instr? i) : f'.body b = f.body b := by
  unfold body isSlot
  simp only [hvalues, hinstr]

/-- Only the entry holds slots. -/
theorem Slotted.body_eq (h : f.Slotted n) (hb : b ≠ 0) : f.body b = f.values b :=
  List.filter_eq_self.2 fun i hi => by simp [h.others b hb i hi]

@[simp] theorem body_grown (f : Func) (c : Nat) : f.grown.body c = f.body c :=
  body_congr (values_grown f c) (instr?_grown f)

@[simp] theorem body_linked (f : Func) (a b c : Nat) : (f.linked a b).body c = f.body c :=
  body_congr (values_linked f a b c) (instr?_linked f a b)

@[simp] theorem body_ended (f : Func) (b c : Nat) (kind : BlockKind)
    (controls : List (Option Nat)) : (f.ended b kind controls).body c = f.body c :=
  body_congr (values_ended f b c kind controls) (instr?_ended f b · kind controls)

/-! What a change leaves alone -/

/-- What a graph says of the function as a whole. -/
def head (f : Func) : String × Option FuncRef × Option Signature × Option Ty × Option Nat :=
  (f.name, f.ref, f.sig, f.recv, f.entry)

/-- From `f` to `f'` the first `n` blocks stay as they are, apart from the instructions and
the end of `cur` and the slots of the entry. -/
structure Frame (n : Nat) (cur : Option Nat) (dom : Doms) (f : Func) (dom' : Doms)
    (f' : Func) : Prop where
  head : f'.head = f.head
  size : f.blocks.size ≤ f'.blocks.size
  instrs : ∀ i v, f.instr? i = some v → f'.instr? i = some v
  order : ∀ b < n, b ∈ f'.order ↔ b ∈ f.order
  preds : ∀ b < n, f'.preds b = f.preds b
  body : ∀ b < n, f.body b <+: f'.body b
  phis : ∀ b < n, f.NoPhi b → f'.NoPhi b
  others : ∀ b < n, some b ≠ cur → f'.kindOf b = f.kindOf b ∧ f'.succs b = f.succs b ∧
    f'.controlsOf b = f.controlsOf b ∧ f'.body b = f.body b
  doms : ∀ b < n, dom' b = dom b

namespace Frame

variable {n' : Nat} {cur cur' : Option Nat} {dom' dom'' : Doms} {f' f'' : Func}

theorem refl (n : Nat) (cur : Option Nat) (dom : Doms) (f : Func) : Frame n cur dom f dom f where
  head := rfl
  size := Nat.le_refl _
  instrs _ _ h := h
  order _ _ := Iff.rfl
  preds _ _ := rfl
  body _ _ := List.prefix_refl _
  phis _ _ h := h
  others _ _ _ := ⟨rfl, rfl, rfl, rfl⟩
  doms _ _ := rfl

theorem trans (h : Frame n cur dom f dom' f') (h' : Frame n cur dom' f' dom'' f'') :
    Frame n cur dom f dom'' f'' where
  head := h'.head.trans h.head
  size := Nat.le_trans h.size h'.size
  instrs i v hv := h'.instrs i v (h.instrs i v hv)
  order b hb := (h'.order b hb).trans (h.order b hb)
  preds b hb := (h'.preds b hb).trans (h.preds b hb)
  body b hb := (h.body b hb).trans (h'.body b hb)
  phis b hb hphi := h'.phis b hb (h.phis b hb hphi)
  others b hb hcur := by
    obtain ⟨hkind, hsuccs, hcontrols, hbody⟩ := h.others b hb hcur
    obtain ⟨hkind', hsuccs', hcontrols', hbody'⟩ := h'.others b hb hcur
    exact ⟨hkind'.trans hkind, hsuccs'.trans hsuccs, hcontrols'.trans hcontrols,
      hbody'.trans hbody⟩
  doms b hb := (h'.doms b hb).trans (h.doms b hb)

/-- What stays as it is stays so for fewer blocks. -/
theorem narrow (h : Frame n' cur' dom f dom' f') (hn : n ≤ n')
    (hcur : ∀ c ∈ cur', cur = some c ∨ n ≤ c) : Frame n cur dom f dom' f' where
  head := h.head
  size := h.size
  instrs := h.instrs
  order b hb := h.order b (Nat.lt_of_lt_of_le hb hn)
  preds b hb := h.preds b (Nat.lt_of_lt_of_le hb hn)
  body b hb := h.body b (Nat.lt_of_lt_of_le hb hn)
  phis b hb := h.phis b (Nat.lt_of_lt_of_le hb hn)
  others b hb hne := by
    refine h.others b (Nat.lt_of_lt_of_le hb hn) fun heq => ?_
    rcases hcur b (Option.mem_def.2 heq.symm) with hsame | hle
    · exact hne hsame.symm
    · exact absurd hb (Nat.not_lt_of_le hle)
  doms b hb := h.doms b (Nat.lt_of_lt_of_le hb hn)

/-- Block `b` is the current one or comes later. -/
theorem absurd_of_ne {b c : Nat} (hb : cur = some b ∨ n ≤ b) (hc : c < n) (hne : some c ≠ cur) :
    b ≠ c := by
  rintro rfl
  rcases hb with heq | hle
  · exact hne heq.symm
  · omega

theorem placed (hcoded : f.Coded dom) (hb : b < f.blocks.size) (hplace : cur = some b ∨ n ≤ b)
    (hop : v.op ≠ .alloca) (hblock : v.block = b) (hphi : v.op = .phi → n ≤ b) :
    Frame n cur dom f dom (f.inserted b (f.values b).length v) where
  head := rfl
  size := by simp
  instrs _ _ hv := instr?_inserted_of hv v b _
  order _ _ := Iff.rfl
  preds _ _ := by simp
  body c _ := by
    rw [body_placed hcoded hb hop]
    split
    · exact List.prefix_append _ _
    · exact List.prefix_refl _
  phis c hc hnophi i w hw hwc := by
    rw [instr?_inserted] at hw
    split at hw
    · obtain rfl := Option.some.inj hw
      intro hop
      have := hphi hop
      omega
    · exact hnophi i w hw hwc
  others c hc hne := by
    refine ⟨by simp, by simp, by simp, ?_⟩
    rw [body_placed hcoded hb hop, if_neg (absurd_of_ne hplace hc hne)]
  doms _ _ := rfl

theorem slot (hcoded : f.Coded dom) (hb : b < f.blocks.size) (hop : v.op = .alloca) (k : Nat) :
    Frame n cur dom f dom (f.inserted b k v) where
  head := rfl
  size := by simp
  instrs _ _ hv := instr?_inserted_of hv v b _
  order _ _ := Iff.rfl
  preds _ _ := by simp
  body _ _ := (body_slot hcoded hb hop).symm ▸ List.prefix_refl _
  phis c hc hnophi i w hw hwc := by
    rw [instr?_inserted] at hw
    split at hw
    · obtain rfl := Option.some.inj hw
      simp [hop]
    · exact hnophi i w hw hwc
  others c hc hne := ⟨by simp, by simp, by simp, body_slot hcoded hb hop⟩
  doms _ _ := rfl

/-- A new block, with what must be passed before it. -/
theorem grown (hn : n ≤ f.blocks.size) (cur : Option Nat) (dom : Doms) (d : List Nat) :
    Frame n cur dom f (Function.update dom f.blocks.size d) f.grown where
  head := rfl
  size := by simp
  instrs _ _ hv := hv
  order b hb := by
    rw [order_grown, List.mem_append, List.mem_singleton]
    exact or_iff_left (by omega)
  preds _ _ := by simp
  body c _ := by simp
  phis _ _ h := h
  others c _ _ := ⟨by simp, by simp, by simp, by simp⟩
  doms b hb := Function.update_of_ne (by omega) _ _

theorem linked {a b : Nat} (ha : a < f.blocks.size) (hb : b < f.blocks.size)
    (hplace : cur = some a ∨ n ≤ a) (hnew : n ≤ b) : Frame n cur dom f dom (f.linked a b) where
  head := rfl
  size := by simp
  instrs _ _ hv := hv
  order _ _ := Iff.rfl
  preds c hc := by rw [preds_linked _ _ _ _ hb, if_neg (by omega)]
  body c _ := by simp
  phis _ _ h := h
  others c hc hne := by
    refine ⟨by simp, ?_, by simp, by simp⟩
    rw [succs_linked _ _ _ _ ha, if_neg (absurd_of_ne hplace hc hne)]
  doms _ _ := rfl

theorem ended (hb : b < f.blocks.size) (hplace : cur = some b ∨ n ≤ b) (kind : BlockKind)
    (controls : List (Option Nat)) : Frame n cur dom f dom (f.ended b kind controls) where
  head := rfl
  size := by simp
  instrs _ _ hv := hv
  order _ _ := Iff.rfl
  preds _ _ := by simp
  body c _ := by simp
  phis _ _ h := h
  others c hc hne := by
    refine ⟨?_, by simp, ?_, by simp⟩
    · rw [kindOf_ended _ _ _ _ _ hb, if_neg (absurd_of_ne hplace hc hne)]
    · rw [controlsOf_ended _ _ _ _ _ hb, if_neg (absurd_of_ne hplace hc hne)]
  doms _ _ := rfl

theorem branched {a cond yes no : Nat} (ha : a < f.blocks.size) (hyes : yes < f.blocks.size)
    (hno : no < f.blocks.size) (hplace : cur = some a ∨ n ≤ a) (hyesn : n ≤ yes) (hnon : n ≤ no) :
    Frame n cur dom f dom (f.branched a cond yes no) := by
  refine (Frame.ended ha hplace .branch [some cond]).trans ?_
  have hfirst : Frame n cur dom (f.ended a .branch [some cond]) dom
      ((f.ended a .branch [some cond]).linked a yes) :=
    .linked (by simpa using ha) (by simpa using hyes) hplace hyesn
  exact hfirst.trans (.linked (by simpa using ha) (by simpa using hno) hplace hnon)

theorem without (hnew : n ≤ b) (hnodup : f.order.Nodup) :
    Frame n cur dom f dom (f.without b) where
  head := rfl
  size := by simp
  instrs _ _ hv := hv
  order c hc := by
    rw [Func.without, hnodup.mem_erase_iff]
    exact and_iff_right (by omega)
  preds _ _ := rfl
  body _ _ := List.prefix_refl _
  phis _ _ h := h
  others _ _ _ := ⟨rfl, rfl, rfl, rfl⟩
  doms _ _ := rfl

end Frame

end Func

/-! States of construction -/

namespace Builder

/-- The state with another graph. -/
def withFunc (s : Builder) (f : Func) : Builder := { s with func := f }

/-- The state with another current block. -/
def entered (s : Builder) (c : Option Nat) : Builder := { s with current := c }

@[simp] theorem func_withFunc (s : Builder) (f : Func) : (s.withFunc f).func = f := rfl

@[simp] theorem current_withFunc (s : Builder) (f : Func) : (s.withFunc f).current = s.current := rfl

@[simp] theorem slots_withFunc (s : Builder) (f : Func) : (s.withFunc f).slots = s.slots := rfl

@[simp] theorem withFunc_withFunc (s : Builder) (f g : Func) :
    (s.withFunc f).withFunc g = s.withFunc g := rfl

@[simp] theorem func_entered (s : Builder) (c : Option Nat) : (s.entered c).func = s.func := rfl

@[simp] theorem current_entered (s : Builder) (c : Option Nat) : (s.entered c).current = c := rfl

@[simp] theorem slots_entered (s : Builder) (c : Option Nat) : (s.entered c).slots = s.slots := rfl

/-- The state with an instruction at the end of block `b`. -/
def placed (s : Builder) (b : Nat) (v : Instr) : Builder :=
  { s with func := s.func.inserted b (s.func.values b).length v }

@[simp] theorem func_placed (s : Builder) (b : Nat) (v : Instr) :
    (s.placed b v).func = s.func.inserted b (s.func.values b).length v := rfl

@[simp] theorem current_placed (s : Builder) (b : Nat) (v : Instr) :
    (s.placed b v).current = s.current := rfl

@[simp] theorem slots_placed (s : Builder) (b : Nat) (v : Instr) :
    (s.placed b v).slots = s.slots := rfl

end Builder

/-! Steps of construction -/

namespace Builder

/-- A graph under construction that obeys the rules, where `pend` are the open blocks
apart from the current one. -/
structure Inv (dom : Doms) (pend : List Nat) (s : Builder) : Prop where
  good : s.func.Good dom (s.current.toList ++ pend)
  reach : ∀ c ∈ s.current, s.func.Reach c
  slots : ∀ e ∈ s.slots, ∃ v, s.func.instr? e.2 = some v ∧ v.op = .alloca ∧ v.block = 0
  slotted : s.func.Slotted s.slotCount
  faults : s.faults = []

/-- Instruction `i` is `v`, and its value is there at the end of the current block. -/
def Has (dom : Doms) (s : Builder) (i : Nat) (v : Instr) : Prop :=
  ∃ c, s.current = some c ∧ s.func.instr? i = some v ∧ (v.block = c ∨ v.block ∈ dom c)

/-- One step of construction or several, seen from where they start. -/
structure Step (pend : List Nat) (dom : Doms) (s : Builder) (dom' : Doms) (s' : Builder) :
    Prop where
  inv : Inv dom' pend s'
  frame : Func.Frame s.func.blocks.size s.current dom s.func dom' s'.func
  slots : s.slots <:+ s'.slots
  fresh : ∀ c ∈ s'.current, s.current = some c ∨ s.func.blocks.size ≤ c
  deeper : ∀ c ∈ s.current, ∀ c' ∈ s'.current, c :: dom c ⊆ c' :: dom' c'

variable {pend : List Nat} {dom dom' dom'' : Doms} {s s' s'' : Builder} {c i : Nat}
  {v : Instr}

namespace Step

theorem refl (h : Inv dom pend s) : Step pend dom s dom s where
  inv := h
  frame := .refl _ _ dom s.func
  slots := List.suffix_refl _
  fresh c hc := Or.inl hc
  deeper c hc c' hc' := by
    rw [Option.mem_unique hc hc']
    exact fun _ hx => hx

theorem trans (h : Step pend dom s dom' s') (h' : Step pend dom' s' dom'' s'')
    (hcur : s'.current.isSome = true) : Step pend dom s dom'' s'' where
  inv := h'.inv
  frame := h.frame.trans (h'.frame.narrow h.frame.size h.fresh)
  slots := h.slots.trans h'.slots
  fresh c hc := by
    rcases h'.fresh c hc with hsame | hle
    · exact h.fresh c hsame
    · exact Or.inr (Nat.le_trans h.frame.size hle)
  deeper c hc c'' hc'' := by
    obtain ⟨c', hc'⟩ := Option.isSome_iff_exists.1 hcur
    exact fun x hx => h'.deeper c' hc' c'' hc'' (h.deeper c hc c' hc' hx)

/-- A value that is there stays there. -/
theorem has (h : Step pend dom s dom' s') (hcur : s'.current.isSome = true)
    (hi : Has dom s i v) : Has dom' s' i v := by
  obtain ⟨c, hc, hv, hblock⟩ := hi
  obtain ⟨c', hc'⟩ := Option.isSome_iff_exists.1 hcur
  have hmem := h.deeper c hc c' hc' (List.mem_cons.2 hblock)
  exact ⟨c', hc', h.frame.instrs i v hv, List.mem_cons.1 hmem⟩

end Step

theorem Has.avail (h : Has dom s i v) (hc : s.current = some c) : s.func.Avail dom c i := by
  obtain ⟨c', hc', hv, hblock⟩ := h
  obtain rfl : c' = c := by simpa [hc'] using hc
  exact ⟨v, hv, hblock⟩

theorem Has.instr (h : Has dom s i v) : s.func.instr? i = some v := by
  obtain ⟨_, _, hv, _⟩ := h
  exact hv

namespace Inv

theorem mem_order (h : Inv dom pend s) (hc : s.current = some c) : c ∈ s.func.order :=
  h.good.closed.order c (by simp [hc])

theorem lt_size (h : Inv dom pend s) (hc : s.current = some c) : c < s.func.blocks.size :=
  h.good.wired.known c (h.mem_order hc)

/-- A slot is there in every block. -/
theorem has_slot (h : Inv dom pend s) (hcur : s.current.isSome = true) {p : Pos}
    (hi : (p, i) ∈ s.slots) : ∃ v, Has dom s i v ∧ v.op = .alloca := by
  obtain ⟨v, hv, hop, hblock⟩ := h.slots (p, i) hi
  obtain ⟨c, hc⟩ := Option.isSome_iff_exists.1 hcur
  have hentry := h.good.covered.entry c (h.mem_order hc)
  rw [← hblock] at hentry
  exact ⟨v, ⟨c, hc, hv, List.mem_cons.1 hentry⟩, hop⟩

end Inv

end Builder

namespace Build

variable {α β : Type}

theorem run_bind (m : Build α) (f : α → Build β) (s : Builder) :
    (m >>= f).run s = (f (m.run s).1).run (m.run s).2 := rfl

theorem run_get (s : Builder) : (get : Build Builder).run s = (s, s) := rfl

theorem run_here {s : Builder} {c : Nat} (h : s.current = some c) : here.run s = (c, s) := by
  unfold here
  rw [run_bind]
  show (require s.current .noBlock 0).run s = _
  rw [h]
  rfl

theorem run_require {x : Option α} {a : α} (h : x = some a) (e : Fault) (d : α) (s : Builder) :
    (require x e d).run s = (a, s) := by
  subst h
  rfl

theorem run_newBlock (s : Builder) :
    newBlock.run s = (s.func.blocks.size, s.withFunc s.func.grown) := rfl

theorem run_addEdge (a b : Nat) (s : Builder) :
    (addEdge a b).run s = ((), s.withFunc (s.func.linked a b)) := rfl

theorem run_enter (c : Option Nat) (s : Builder) : (enter c).run s = ((), s.entered c) := rfl

theorem run_jump {s : Builder} {a : Nat} (h : s.current = some a) (b : Nat) :
    (jump b).run s = ((), s.withFunc (s.func.linked a b)) := by
  unfold jump
  rw [run_bind, run_get]
  dsimp only
  rw [h]
  rfl

theorem run_jump_none {s : Builder} (h : s.current = none) (b : Nat) :
    (jump b).run s = ((), s) := by
  unfold jump
  rw [run_bind, run_get]
  dsimp only
  rw [h]
  rfl

/-- What is done only in an open block. -/
theorem run_ifOpen (m : Build Unit) (s : Builder) :
    (do if (← get).current.isSome then m : Build Unit).run s =
      (if s.current.isSome then m else pure () : Build Unit).run s := rfl

theorem run_branch_of_here {s s' : Builder} {a : Nat} (h : here.run s = (a, s'))
    (cond yes no : Nat) :
    (branch cond yes no).run s = ((), s'.withFunc (s'.func.branched a cond yes no)) := by
  unfold branch
  rw [run_bind, h]
  rfl

theorem run_branch {s : Builder} {a : Nat} (h : s.current = some a) (cond yes no : Nat) :
    (branch cond yes no).run s = ((), s.withFunc (s.func.branched a cond yes no)) :=
  run_branch_of_here (run_here h) cond yes no

theorem run_ret {s : Builder} {a : Nat} (h : s.current = some a) (result : Option Nat) :
    (ret result).run s =
      ((), s.withFunc (s.func.ended a .ret (result.toList.map some))) := by
  unfold ret
  rw [run_bind, run_here h]
  rfl

theorem run_place (b : Nat) (v : Nat → Instr) (s : Builder) :
    (place b v).run s = (s.func.instrs.size, s.placed b (v s.func.instrs.size)) := by
  have hblocks : s.func.blocks.modify b (fun x =>
      { x with values := x.values ++ [s.func.instrs.size] }) =
      (s.func.inserted b (s.func.values b).length (v s.func.instrs.size)).blocks := by
    apply Array.ext_getElem?
    intro c
    rw [Func.inserted, Func.getElem?_modify_block, Func.getElem?_modify_block]
    split
    next heq =>
      subst heq
      unfold Func.values Func.block?
      cases s.func.blocks[b]? with
      | none => rfl
      | some x => simp
    next => rfl
  show (s.func.instrs.size, { s with func := { s.func with
    instrs := s.func.instrs.push (v s.func.instrs.size)
    blocks := s.func.blocks.modify b fun x =>
      { x with values := x.values ++ [s.func.instrs.size] } } }) = _
  rw [hblocks]
  rfl

theorem run_emitAt (b : Nat) (op : Op) (type : Option Ty) (args : List Nat) (pos : Pos)
    (number : Int64) (aux : Option Aux) (s : Builder) :
    (emitAt b op type args pos number aux).run s = (s.func.instrs.size, s.placed b
      { id := s.func.instrs.size, op, type, args := args.map some, block := b, number, aux,
        pos }) :=
  run_place b _ s

theorem run_newSlot (v : Var) (s : Builder) : (newSlot v).run s = (s.func.instrs.size, { s with
    func := s.func.inserted 0 s.slotCount
      { id := s.func.instrs.size, op := .alloca, type := some v.ty, block := 0,
        aux := some (.text v.name) }
    slotCount := s.slotCount + 1
    slots := (v.pos, s.func.instrs.size) :: s.slots }) := rfl

end Build

namespace Builder

variable {pend : List Nat} {dom : Doms} {s : Builder} {c i n : Nat} {v : Instr}

/-- The slots stay where they are. -/
theorem Inv.slots_mono {f : Func} (h : Inv dom pend s)
    (hinstr : ∀ i v, s.func.instr? i = some v → f.instr? i = some v) :
    ∀ e ∈ s.slots, ∃ v, f.instr? e.2 = some v ∧ v.op = .alloca ∧ v.block = 0 := by
  intro e he
  obtain ⟨v, hv, hop⟩ := h.slots e he
  exact ⟨v, hinstr _ _ hv, hop⟩

theorem Step.placed (h : Inv dom pend s) (hc : s.current = some c) (hid : v.id = s.func.instrs.size)
    (hblock : v.block = c) (hphi : v.op ≠ .phi) (hslot : v.op ≠ .alloca)
    (hsane : v.fault? s.func = .ok none)
    (hargs : ∀ arg ∈ v.args, ∃ a w, arg = some a ∧ Has dom s a w) :
    Step pend dom s dom (s.placed c v) where
  inv :=
    { good := h.good.inserted (h.mem_order hc) (.place h.good.coded (h.lt_size hc) hid hblock hphi
        hsane fun arg harg => by
          obtain ⟨a, w, ha, hw⟩ := hargs arg harg
          exact ⟨a, ha, hw.avail hc⟩)
      reach := fun b hb => (h.reach b hb).mono (by simp [Builder.placed])
      slots := h.slots_mono fun i w hw => Func.instr?_inserted_of hw v c _
      slotted := h.slotted.placed h.good.coded (h.lt_size hc) hslot
      faults := h.faults }
  frame := .placed h.good.coded (h.lt_size hc) (Or.inl hc) hslot hblock (absurd · hphi)
  slots := List.suffix_refl _
  fresh b hb := Or.inl hb
  deeper b hb b' hb' := by
    rw [Option.mem_unique hb hb']
    exact fun _ hx => hx

/-- The state with one more slot. -/
def slotted (s : Builder) (v : Var) : Builder :=
  ((Build.newSlot v).run s).2

theorem Step.slotted (h : Inv dom pend s) (v : Var) : Step pend dom s dom (s.slotted v) where
  inv :=
    { good := h.good.inserted h.good.wired.mem_zero (.slot h.good.coded rfl rfl (by simp) rfl rfl)
      reach := fun b hb => (h.reach b hb).mono (by simp [Builder.slotted, Build.run_newSlot])
      slots := by
        intro e he
        rcases List.mem_cons.1 he with rfl | he
        · exact ⟨_, (Func.instr?_inserted ..).trans (if_pos rfl), rfl, rfl⟩
        · exact h.slots_mono (fun i w hw => Func.instr?_inserted_of hw _ 0 _) e he
      slotted := h.slotted.slot h.good.coded h.good.wired.zero_lt rfl
      faults := h.faults }
  frame := .slot h.good.coded h.good.wired.zero_lt rfl _
  slots := List.suffix_cons _ _
  fresh b hb := Or.inl hb
  deeper b hb b' hb' := by
    rw [Option.mem_unique hb hb']
    exact fun _ hx => hx

end Builder

namespace Build

variable {α β : Type} {pend : List Nat} {dom : Doms} {s : Builder} {Q R : α → Doms → Builder → Prop}

open Builder (Step Inv Has)

/-- From `s` on the construction `m` obeys the rules and goes on behind it, with `Q` of its
result. -/
def Makes (pend : List Nat) (dom : Doms) (s : Builder) (m : Build α)
    (Q : α → Doms → Builder → Prop) : Prop :=
  ∃ dom', Step pend dom s dom' (m.run s).2 ∧ (m.run s).2.current.isSome = true ∧
    Q (m.run s).1 dom' (m.run s).2

namespace Makes

theorem exists_run {m : Build α} (h : Makes pend dom s m Q) : ∃ a s' dom', m.run s = (a, s') ∧
    Step pend dom s dom' s' ∧ s'.current.isSome = true ∧ Q a dom' s' := by
  obtain ⟨dom', hstep, hcur, hQ⟩ := h
  exact ⟨_, _, dom', rfl, hstep, hcur, hQ⟩

theorem of_run {m : Build α} {a : α} {s' : Builder} {dom' : Doms} (hrun : m.run s = (a, s'))
    (hstep : Step pend dom s dom' s') (hcur : s'.current.isSome = true) (hQ : Q a dom' s') :
    Makes pend dom s m Q := by
  refine ⟨dom', ?_⟩
  rw [hrun]
  exact ⟨hstep, hcur, hQ⟩

theorem of_eq {m m' : Build α} (heq : m.run s = m'.run s) (h : Makes pend dom s m' Q) :
    Makes pend dom s m Q := by
  obtain ⟨a, s', dom', hrun, hstep, hcur, hQ⟩ := h.exists_run
  exact .of_run (heq.trans hrun) hstep hcur hQ

theorem pure {a : α} (h : Inv dom pend s) (hcur : s.current.isSome = true) (hQ : Q a dom s) :
    Makes pend dom s (pure a) Q :=
  ⟨dom, .refl h, hcur, hQ⟩

theorem bind {m : Build α} {f : α → Build β} {R : β → Doms → Builder → Prop}
    (hm : Makes pend dom s m Q)
    (hf : ∀ a dom' s', Step pend dom s dom' s' → s'.current.isSome = true → Q a dom' s' →
      Makes pend dom' s' (f a) R) : Makes pend dom s (m >>= f) R := by
  obtain ⟨dom', hstep, hcur, hQ⟩ := hm
  obtain ⟨dom'', hstep', hcur', hR⟩ := hf _ dom' _ hstep hcur hQ
  exact ⟨dom'', hstep.trans hstep' hcur, hcur', hR⟩

theorem imp {m : Build α} (h : Makes pend dom s m Q)
    (himp : ∀ a dom' s', Step pend dom s dom' s' → Q a dom' s' → R a dom' s') :
    Makes pend dom s m R := by
  obtain ⟨dom', hstep, hcur, hQ⟩ := h
  exact ⟨dom', hstep, hcur, himp _ _ _ hstep hQ⟩

/-- What should be there is there. -/
theorem require {x : Option α} {a : α} (hx : x = some a) (e : Fault) (d : α) (h : Inv dom pend s)
    (hcur : s.current.isSome = true) (hQ : Q a dom s) :
    Makes pend dom s (Build.require x e d) Q := by
  subst hx
  exact .pure h hcur hQ

theorem discard {m : Build α} (h : Makes pend dom s m Q) :
    Makes pend dom s (discard m) fun _ dom' s' => ∃ a, Q a dom' s' := by
  obtain ⟨dom', hstep, hcur, hQ⟩ := h
  exact ⟨dom', hstep, hcur, _, hQ⟩

theorem place {c : Nat} {v : Nat → Instr} (h : Inv dom pend s) (hc : s.current = some c)
    (hid : ∀ i, (v i).id = i) (hblock : ∀ i, (v i).block = c) (hphi : ∀ i, (v i).op ≠ .phi)
    (hslot : ∀ i, (v i).op ≠ .alloca) (hsane : ∀ i, (v i).fault? s.func = .ok none)
    (hargs : ∀ i, ∀ arg ∈ (v i).args, ∃ a w, arg = some a ∧ Has dom s a w) :
    Makes pend dom s (place c v) fun i dom' s' => Has dom' s' i (v i) ∧ s'.current = some c := by
  have hstep := Step.placed h hc (hid s.func.instrs.size) (hblock _) (hphi _) (hslot _) (hsane _)
    (hargs _)
  refine .of_run (run_place c v s) hstep (by simp [hc]) ⟨⟨c, hc, ?_, Or.inl (hblock _)⟩, hc⟩
  rw [Builder.func_placed, Func.instr?_inserted, if_pos rfl]

section

variable {op : Op} {t : Option Ty} {args : List Nat} {pos : Pos} {number : Int64}
  {aux : Option Aux}

/-- An instruction at the end of the current block, with operands that are there. -/
theorem emitAt {c : Nat} (h : Inv dom pend s) (hc : s.current = some c) (hphi : op ≠ .phi)
    (hslot : op ≠ .alloca) (hargs : ∀ a ∈ args, ∃ w, Has dom s a w)
    (hsane : ∀ id block, Instr.fault? s.func
      { id, op, type := t, args := args.map some, block, number, aux, pos } = .ok none) :
    Makes pend dom s (emitAt c op t args pos number aux) fun i dom' s' =>
      (∃ v, Has dom' s' i v ∧ v.op = op ∧ v.type = t) ∧ s'.current = some c := by
  refine (Makes.place h hc (by simp) (by simp) (by simp [hphi]) (by simp [hslot])
    (fun i => hsane i c) fun i arg harg => ?_).imp
    fun i dom' s' _ ⟨hi, hc⟩ => ⟨⟨_, hi, rfl, rfl⟩, hc⟩
  obtain ⟨a, ha, rfl⟩ := List.mem_map.1 harg
  obtain ⟨w, hw⟩ := hargs a ha
  exact ⟨a, w, rfl, hw⟩

/-- An instruction in the current block, with operands that are there. -/
theorem emitWith (h : Inv dom pend s) (hcur : s.current.isSome = true) (hphi : op ≠ .phi)
    (hslot : op ≠ .alloca) (hargs : ∀ a ∈ args, ∃ w, Has dom s a w)
    (hsane : ∀ id block, Instr.fault? s.func
      { id, op, type := t, args := args.map some, block, number, aux, pos } = .ok none) :
    Makes pend dom s (emitWith op t args pos number aux) fun i dom' s' =>
      ∃ v, Has dom' s' i v ∧ v.op = op ∧ v.type = t := by
  obtain ⟨c, hc⟩ := Option.isSome_iff_exists.1 hcur
  have hrun : (Build.emitWith op t args pos number aux).run s =
      (Build.emitAt c op t args pos number aux).run s := by
    unfold Build.emitWith
    rw [run_bind, run_here hc]
  exact .of_eq hrun ((Makes.emitAt h hc hphi hslot hargs hsane).imp fun _ _ _ _ hi => hi.1)

end

end Makes

end Build

end ClassLang.Graph
