import ClassLang.Proofs.Graph.Shape

/-!
The rules that a graph obeys while it is built. They come in four groups: its blocks and
edges, its instructions, the ends of its blocks, and which blocks must be passed on the
way to others. Some blocks may still be open; the rules for ends are about the rest.
-/

namespace ClassLang.Graph

/-- Block `b` can be reached from the entry. -/
inductive Func.Reach (f : Func) : Nat → Prop
  | entry : f.Reach 0
  | step {a b : Nat} (reach : f.Reach a) (edge : b ∈ f.succs a) : f.Reach b

/-- For each block the blocks that must be passed before it. -/
abbrev Doms := Nat → List Nat

namespace Func

/-- The value of instruction `i` is there at the end of block `b`. -/
def Avail (f : Func) (dom : Doms) (b i : Nat) : Prop :=
  ∃ v, f.instr? i = some v ∧ (v.block = b ∨ v.block ∈ dom b)

/-- No instruction of block `b` is a `phi`. -/
def NoPhi (f : Func) (b : Nat) : Prop :=
  ∀ i v, f.instr? i = some v → v.block = b → v.op ≠ .phi

/-- The blocks of a graph and its edges. -/
structure Wired (f : Func) : Prop where
  entry : f.entry = some 0
  head : f.order.head? = some 0
  nodup : f.order.Nodup
  known : ∀ b ∈ f.order, b < f.blocks.size
  ids : ∀ b x, f.block? b = some x → x.id = b ∧ x.owned = true
  edges : ∀ a b, b ∈ f.succs a ↔ a ∈ f.preds b
  single : ∀ b, (f.succs b).Nodup ∧ (f.preds b).Nodup
  inside : ∀ a b, b ∈ f.succs a → a ∈ f.order ∧ b ∈ f.order
  entry_preds : f.preds 0 = []

/-- The operands of a `phi` are there at the ends of the predecessors of its block, which
it starts. -/
structure PhiUses (f : Func) (dom : Doms) (i : Nat) (v : Instr) : Prop where
  first : (f.values v.block).head? = some i
  operands : List.Forall₂ (fun arg p => ∃ a, arg = some a ∧ f.Avail dom p a) v.args
    (f.preds v.block)

/-- The operands of any other instruction come before it in its block, or in a block that
must be passed before. -/
def Uses (f : Func) (dom : Doms) (i : Nat) (v : Instr) : Prop :=
  ∀ arg ∈ v.args, ∃ a w, arg = some a ∧ f.instr? a = some w ∧
    ((w.block = v.block ∧ [a, i].Sublist (f.values v.block)) ∨
      (w.block ≠ v.block ∧ w.block ∈ dom v.block))

/-- The instructions of a graph. -/
structure Coded (f : Func) (dom : Doms) : Prop where
  ids : ∀ i v, f.instr? i = some v → v.id = i
  home : ∀ i v, f.instr? i = some v → v.block ∈ f.order
  placed : ∀ b i, i ∈ f.values b ↔ ∃ v, f.instr? i = some v ∧ v.block = b
  nodup : ∀ b, (f.values b).Nodup
  entry : f.NoPhi 0
  sane : ∀ i v, f.instr? i = some v → v.fault? f = .ok none
  phis : ∀ i v, f.instr? i = some v → v.op = .phi → f.PhiUses dom i v
  uses : ∀ i v, f.instr? i = some v → v.op ≠ .phi → f.Uses dom i v

/-- Block `b` ends as it should. -/
inductive Ends (f : Func) (b : Nat) : Prop
  | plain (kind : f.kindOf b = .plain) (succs : (f.succs b).length = 1)
      (controls : f.controlsOf b = [])
  | branch {c : Nat} {v : Instr} (kind : f.kindOf b = .branch) (succs : (f.succs b).length = 2)
      (controls : f.controlsOf b = [some c]) (cond : f.instr? c = some v)
      (type : v.type = some .bool)
  | ret (result : Option Nat) (kind : f.kindOf b = .ret) (succs : f.succs b = [])
      (controls : f.controlsOf b = result.toList.map some) (shape : f.hasResult = result.isSome)

/-- Block `b` has no end yet. -/
structure Open (f : Func) (b : Nat) : Prop where
  kind : f.kindOf b = .plain
  succs : f.succs b = []
  controls : f.controlsOf b = []

/-- The ends of the blocks, where `opens` are open. -/
structure Closed (f : Func) (dom : Doms) (opens : List Nat) : Prop where
  order : ∀ b ∈ opens, b ∈ f.order
  nodup : opens.Nodup
  opened : ∀ b ∈ opens, f.Open b
  ends : ∀ b ∈ f.order, b ∉ opens → f.Ends b
  controls : ∀ b c, some c ∈ f.controlsOf b → f.Avail dom b c
  reach : ∀ b ∈ f.order, b ∉ opens → f.Reach b

/-- What must be passed before a block must be passed before each of its predecessors, or
is that predecessor; and the entry must be passed before every other block. -/
structure Covered (f : Func) (dom : Doms) : Prop where
  root : dom 0 = []
  edges : ∀ a b, a ∈ f.preds b → dom b ⊆ a :: dom a
  entry : ∀ b ∈ f.order, 0 ∈ b :: dom b

/-- A graph under construction that obeys the rules. -/
structure Good (f : Func) (dom : Doms) (opens : List Nat) : Prop where
  wired : f.Wired
  coded : f.Coded dom
  closed : f.Closed dom opens
  covered : f.Covered dom

/-! What no step changes -/

variable {f f' : Func} {dom : Doms} {opens : List Nat} {a b c i n : Nat} {v : Instr}

theorem instr?_lt (h : f.instr? i = some v) : i < f.instrs.size := by
  rw [instr?, Array.getElem?_eq_some_iff] at h
  exact h.1

theorem Wired.mem_zero (h : f.Wired) : 0 ∈ f.order := List.mem_of_mem_head? h.head

theorem Wired.zero_lt (h : f.Wired) : 0 < f.blocks.size := h.known 0 h.mem_zero

/-- Edges are all that the first group knows of the insides of blocks. -/
theorem Wired.congr (h : f.Wired) (hentry : f'.entry = f.entry) (horder : f'.order = f.order)
    (hsize : f'.blocks.size = f.blocks.size)
    (hids : ∀ b x', f'.block? b = some x' → ∃ x, f.block? b = some x ∧ x'.id = x.id ∧
      x'.owned = x.owned)
    (hsuccs : ∀ b, f'.succs b = f.succs b) (hpreds : ∀ b, f'.preds b = f.preds b) :
    f'.Wired where
  entry := hentry.trans h.entry
  head := by rw [horder]; exact h.head
  nodup := by rw [horder]; exact h.nodup
  known b hb := by rw [hsize]; exact h.known b (horder ▸ hb)
  ids b x' hx' := by
    obtain ⟨x, hx, hid, howned⟩ := hids b x' hx'
    rw [hid, howned]
    exact h.ids b x hx
  edges a b := by rw [hsuccs, hpreds]; exact h.edges a b
  single b := by rw [hsuccs, hpreds]; exact h.single b
  inside a b hb := by rw [horder]; exact h.inside a b (hsuccs a ▸ hb)
  entry_preds := by rw [hpreds]; exact h.entry_preds

theorem Reach.mono (h : f.Reach b) (hsuccs : ∀ a, f.succs a ⊆ f'.succs a) : f'.Reach b := by
  induction h with
  | entry => exact .entry
  | step _ hedge ih => exact .step ih (hsuccs _ hedge)

theorem Avail.mono (h : f.Avail dom b i)
    (hinstr : ∀ v, f.instr? i = some v → f'.instr? i = some v) : f'.Avail dom b i := by
  obtain ⟨v, hv, hblock⟩ := h
  exact ⟨v, hinstr v hv, hblock⟩

/-- A value that is there stays there in every block before which the block must be
passed. -/
theorem Avail.deeper (h : f.Avail dom b i) (hsub : b :: dom b ⊆ c :: dom c) :
    f.Avail dom c i := by
  obtain ⟨v, hv, hblock⟩ := h
  have hmem : v.block ∈ c :: dom c := hsub (List.mem_cons.2 hblock)
  exact ⟨v, hv, List.mem_cons.1 hmem⟩

/-- The end of a block depends on that block alone, and on what its controls are. -/
theorem Ends.congr (h : f.Ends b) (hkind : f'.kindOf b = f.kindOf b)
    (hsuccs : f'.succs b = f.succs b) (hcontrols : f'.controlsOf b = f.controlsOf b)
    (hinstr : ∀ i v, f.instr? i = some v → f'.instr? i = some v) (hsig : f'.sig = f.sig) :
    f'.Ends b := by
  cases h with
  | plain kind succs controls =>
      exact .plain (hkind.trans kind) (hsuccs ▸ succs) (hcontrols.trans controls)
  | branch kind succs controls cond type =>
      exact .branch (hkind.trans kind) (hsuccs ▸ succs) (hcontrols.trans controls)
        (hinstr _ _ cond) type
  | ret result kind succs controls shape =>
      refine .ret result (hkind.trans kind) (hsuccs.trans succs) (hcontrols.trans controls) ?_
      rw [← shape, hasResult, hasResult, hsig]

theorem Coded.operands (h : f.Coded dom) (hv : f.instr? i = some v) :
    ∀ arg ∈ v.args, ∃ a w, arg = some a ∧ f.instr? a = some w := by
  intro arg harg
  by_cases hphi : v.op = .phi
  · obtain ⟨k, hk, hget⟩ := List.mem_iff_getElem.1 harg
    have hall := List.forall₂_iff_get.1 (h.phis i v hv hphi).operands
    obtain ⟨a, ha, w, hw, _⟩ := hall.2 k hk (hall.1 ▸ hk)
    exact ⟨a, w, by rw [← hget]; exact ha, hw⟩
  · obtain ⟨a, w, ha, hw, _⟩ := h.uses i v hv hphi arg harg
    exact ⟨a, w, ha, hw⟩

/-- What is wrong with an instruction depends on its operands alone. -/
theorem fault?_mono (hargs : ∀ arg ∈ v.args, ∃ a w, arg = some a ∧ f.instr? a = some w)
    (hinstr : ∀ a w, f.instr? a = some w → f'.instr? a = some w) :
    v.fault? f' = v.fault? f := by
  have hfirst : v.firstOp f' = v.firstOp f := by
    unfold Instr.firstOp
    split
    next a rest heq =>
      obtain ⟨a', w, ha', hw⟩ := hargs (some a) (by rw [heq]; exact List.mem_cons_self)
      obtain rfl := Option.some.inj ha'
      rw [hw, hinstr a w hw]
    next => rfl
  unfold Instr.fault? Instr.operandFault? Instr.targetFault?
  rw [hfirst]

/-! A new instruction -/

section inserted

theorem instr?_inserted_of (hv : f.instr? i = some v) (w : Instr) (b n : Nat) :
    (f.inserted b n w).instr? i = some v := by
  rw [instr?_inserted, if_neg (Nat.ne_of_lt (instr?_lt hv)), hv]

theorem values_sublist_inserted (hb : b < f.blocks.size) (v : Instr) (n c : Nat) :
    (f.values c).Sublist ((f.inserted b n v).values c) := by
  rw [values_inserted _ _ _ _ _ hb]
  split
  · have hsub := (List.sublist_cons_self f.instrs.size ((f.values c).drop n)).append_left
      ((f.values c).take n)
    rwa [List.take_append_drop] at hsub
  · exact List.Sublist.refl _

theorem Wired.inserted (h : f.Wired) (b n : Nat) (v : Instr) : (f.inserted b n v).Wired := by
  refine h.congr rfl rfl (by simp) (fun c x' hx' => ?_) (by simp) (by simp)
  rw [block?, Func.inserted, getElem?_modify_block] at hx'
  split at hx'
  · obtain ⟨x, hx, rfl⟩ := Option.map_eq_some_iff.1 hx'
    exact ⟨x, hx, rfl, rfl⟩
  · exact ⟨x', hx', rfl, rfl⟩

theorem Closed.inserted (h : f.Closed dom opens) (b n : Nat) (v : Instr) :
    (f.inserted b n v).Closed dom opens where
  order := h.order
  nodup := h.nodup
  opened c hc := ⟨by simpa using (h.opened c hc).kind, by simpa using (h.opened c hc).succs,
    by simpa using (h.opened c hc).controls⟩
  ends c hc hopen := (h.ends c hc hopen).congr (by simp) (by simp) (by simp)
    (fun i w hw => instr?_inserted_of hw v b n) rfl
  controls c i hi :=
    (h.controls c i (by simpa using hi)).mono fun w hw => instr?_inserted_of hw v b n
  reach c hc hopen := (h.reach c hc hopen).mono (by simp)

theorem Covered.inserted (h : f.Covered dom) (b n : Nat) (v : Instr) :
    (f.inserted b n v).Covered dom :=
  ⟨h.root, fun a c hp => h.edges a c (by simpa using hp), h.entry⟩

/-- A new instruction that may stand at its place. -/
structure Fits (f : Func) (dom : Doms) (b n : Nat) (v : Instr) : Prop where
  id : v.id = f.instrs.size
  block : v.block = b
  room : n = 0 → f.values b = [] ∨ f.NoPhi b
  operands : ∀ arg ∈ v.args, ∃ a w, arg = some a ∧ f.instr? a = some w
  sane : v.fault? f = .ok none
  entry : v.op = .phi → b ≠ 0
  phi : v.op = .phi → (f.inserted b n v).PhiUses dom f.instrs.size v
  uses : v.op ≠ .phi → (f.inserted b n v).Uses dom f.instrs.size v

theorem PhiUses.inserted (h : f.PhiUses dom i v) (hb : b < f.blocks.size) (w : Instr)
    (hroom : n = 0 → v.block = b → f.values b = []) : (f.inserted b n w).PhiUses dom i v where
  first := by
    rw [values_inserted _ _ _ _ _ hb]
    split
    next heq =>
      have hfirst := h.first
      cases hvalues : f.values v.block with
      | nil => simp [hvalues] at hfirst
      | cons x rest =>
          cases n with
          | zero =>
              have hempty := hroom rfl heq.symm
              rw [heq, hvalues] at hempty
              cases hempty
          | succ n => simpa [hvalues] using hfirst
    next => exact h.first
  operands := by
    rw [preds_inserted]
    exact h.operands.imp fun arg p ⟨a, ha, havail⟩ =>
      ⟨a, ha, havail.mono fun x hx => instr?_inserted_of hx w b n⟩

theorem Uses.inserted (h : f.Uses dom i v) (hb : b < f.blocks.size) (w : Instr) :
    (f.inserted b n w).Uses dom i v := by
  intro arg harg
  obtain ⟨a, x, ha, hx, hplace⟩ := h arg harg
  refine ⟨a, x, ha, instr?_inserted_of hx w b n, ?_⟩
  rcases hplace with ⟨hblock, hsub⟩ | hdom
  · exact Or.inl ⟨hblock, hsub.trans (values_sublist_inserted hb w n _)⟩
  · exact Or.inr hdom

theorem Coded.inserted (h : f.Coded dom) (hb : b ∈ f.order) (hlt : b < f.blocks.size)
    (hv : f.Fits dom b n v) : (f.inserted b n v).Coded dom where
  ids i w hw := by
    rw [instr?_inserted] at hw
    split at hw
    next heq => rw [← Option.some.inj hw, heq, hv.id]
    next => exact h.ids i w hw
  home i w hw := by
    rw [instr?_inserted] at hw
    split at hw
    next => rw [← Option.some.inj hw, hv.block]; exact hb
    next => exact h.home i w hw
  placed c i := by
    have hold : ∀ j w, f.instr? j = some w → j ≠ f.instrs.size := fun j w hw =>
      Nat.ne_of_lt (instr?_lt hw)
    have hmem : i ∈ (f.inserted b n v).values c ↔ i ∈ f.values c ∨ (i = f.instrs.size ∧ b = c) := by
      rw [values_inserted _ _ _ _ _ hlt]
      split
      next heq =>
        rw [List.mem_append, List.mem_cons, ← List.take_append_drop n (f.values c),
          List.mem_append]
        simp [heq, or_assoc, or_comm]
      next hne => simp [hne]
    rw [hmem, h.placed c i, instr?_inserted]
    constructor
    · rintro (⟨w, hw, hblock⟩ | ⟨rfl, rfl⟩)
      · exact ⟨w, by rw [if_neg (hold i w hw), hw], hblock⟩
      · exact ⟨v, by rw [if_pos rfl], hv.block⟩
    · rintro ⟨w, hw, hblock⟩
      split at hw
      next heq =>
        obtain rfl := Option.some.inj hw
        exact Or.inr ⟨heq, hv.block.symm.trans hblock⟩
      next => exact Or.inl ⟨w, hw, hblock⟩
  nodup c := by
    rw [values_inserted _ _ _ _ _ hlt]
    split
    next heq =>
      have hfresh : f.instrs.size ∉ f.values c := by
        intro hmem
        obtain ⟨w, hw, _⟩ := (h.placed c _).1 hmem
        exact Nat.lt_irrefl _ (instr?_lt hw)
      refine (List.perm_middle.nodup_iff).2 ?_
      rw [List.take_append_drop]
      exact List.nodup_cons.2 ⟨hfresh, h.nodup c⟩
    next => exact h.nodup c
  entry i w hw hblock := by
    rw [instr?_inserted] at hw
    split at hw
    next =>
      obtain rfl := Option.some.inj hw
      intro hphi
      exact hv.entry hphi (hv.block.symm.trans hblock)
    next => exact h.entry i w hw hblock
  sane i w hw := by
    rw [instr?_inserted] at hw
    split at hw
    next =>
      obtain rfl := Option.some.inj hw
      rw [fault?_mono hv.operands fun a x hx => instr?_inserted_of hx v b n]
      exact hv.sane
    next =>
      rw [fault?_mono (h.operands hw) fun a x hx => instr?_inserted_of hx v b n]
      exact h.sane i w hw
  phis i w hw hphi := by
    rw [instr?_inserted] at hw
    split at hw
    next heq =>
      obtain rfl := Option.some.inj hw
      exact heq ▸ hv.phi hphi
    next =>
      refine (h.phis i w hw hphi).inserted hlt v fun hn hblock => ?_
      rcases hv.room hn with hempty | hnophi
      · exact hempty
      · exact absurd hphi (hnophi i w hw hblock)
  uses i w hw hphi := by
    rw [instr?_inserted] at hw
    split at hw
    next heq =>
      obtain rfl := Option.some.inj hw
      exact heq ▸ hv.uses hphi
    next => exact (h.uses i w hw hphi).inserted hlt v

theorem Good.inserted (h : f.Good dom opens) (hb : b ∈ f.order) (hv : f.Fits dom b n v) :
    (f.inserted b n v).Good dom opens :=
  ⟨h.wired.inserted b n v, h.coded.inserted hb (h.wired.known b hb) hv, h.closed.inserted b n v,
    h.covered.inserted b n v⟩

/-- An instruction at the end of a block may use what is there. -/
theorem Fits.place (h : f.Coded dom) (hb : b < f.blocks.size) (hid : v.id = f.instrs.size)
    (hblock : v.block = b) (hop : v.op ≠ .phi) (hsane : v.fault? f = .ok none)
    (hargs : ∀ arg ∈ v.args, ∃ a, arg = some a ∧ f.Avail dom b a) :
    f.Fits dom b (f.values b).length v where
  id := hid
  block := hblock
  room hn := Or.inl (List.length_eq_zero_iff.1 hn)
  operands arg harg := by
    obtain ⟨a, ha, w, hw, _⟩ := hargs arg harg
    exact ⟨a, w, ha, hw⟩
  sane := hsane
  entry hphi := absurd hphi hop
  phi hphi := absurd hphi hop
  uses _ arg harg := by
    obtain ⟨a, ha, w, hw, hplace⟩ := hargs arg harg
    refine ⟨a, w, ha, instr?_inserted_of hw v _ _, ?_⟩
    rw [hblock]
    by_cases hsame : w.block = b
    · refine Or.inl ⟨hsame, ?_⟩
      rw [values_inserted _ _ _ _ _ hb, if_pos rfl, List.take_length, List.drop_length]
      have hmem : a ∈ f.values b := (h.placed b a).2 ⟨w, hw, hsame⟩
      exact (List.singleton_sublist.2 hmem).append_right [f.instrs.size]
    · exact Or.inr ⟨hsame, hplace.resolve_left hsame⟩

/-- A `phi` starts its block. -/
theorem Fits.join (hb : b < f.blocks.size) (hid : v.id = f.instrs.size) (hblock : v.block = b)
    (hentry : b ≠ 0) (hop : v.op = .phi) (hempty : f.values b = [])
    (hsane : v.fault? f = .ok none)
    (hargs : List.Forall₂ (fun arg p => ∃ a, arg = some a ∧ f.Avail dom p a) v.args
      (f.preds b)) : f.Fits dom b (f.values b).length v where
  id := hid
  block := hblock
  room _ := Or.inl hempty
  operands arg harg := by
    obtain ⟨k, hk, hget⟩ := List.mem_iff_getElem.1 harg
    have hall := List.forall₂_iff_get.1 hargs
    obtain ⟨a, ha, w, hw, _⟩ := hall.2 k hk (hall.1 ▸ hk)
    exact ⟨a, w, by rw [← hget]; exact ha, hw⟩
  sane := hsane
  entry _ := hentry
  phi _ := by
    refine ⟨?_, ?_⟩
    · rw [hblock, values_inserted _ _ _ _ _ hb, if_pos rfl, hempty]
      rfl
    · rw [hblock, preds_inserted]
      exact hargs.imp fun arg p ⟨a, ha, havail⟩ =>
        ⟨a, ha, havail.mono fun x hx => instr?_inserted_of hx v _ _⟩
  uses hphi := absurd hop hphi

/-- An instruction without operands may stand anywhere in the entry. -/
theorem Fits.slot (h : f.Coded dom) (hid : v.id = f.instrs.size) (hblock : v.block = 0)
    (hop : v.op ≠ .phi) (hargs : v.args = []) (hsane : v.fault? f = .ok none) :
    f.Fits dom 0 n v where
  id := hid
  block := hblock
  room _ := Or.inr h.entry
  operands := by simp [hargs]
  sane := hsane
  entry hphi := absurd hphi hop
  phi hphi := absurd hphi hop
  uses _ := by simp [Uses, hargs]

end inserted

/-! A new block, and what must be passed before a block that nothing leads to -/

/-- Nothing is known of block `b` yet. -/
structure Idle (f : Func) (b : Nat) : Prop where
  preds : f.preds b = []
  succs : f.succs b = []
  values : f.values b = []
  controls : f.controlsOf b = []

theorem Avail.redom (h : f.Avail dom c i) (d : List Nat) (hne : c ≠ b) :
    f.Avail (Function.update dom b d) c i := by
  obtain ⟨v, hv, hblock⟩ := h
  exact ⟨v, hv, by rwa [Function.update_of_ne hne]⟩

theorem Good.redom (h : f.Good dom opens) (hidle : f.Idle b) (hb : b ≠ 0) {d : List Nat}
    (hd : 0 ∈ d) : f.Good (Function.update dom b d) opens where
  wired := h.wired
  coded :=
    { ids := h.coded.ids
      home := h.coded.home
      placed := h.coded.placed
      nodup := h.coded.nodup
      entry := h.coded.entry
      sane := h.coded.sane
      phis := fun i v hv hphi => by
        obtain ⟨hfirst, hops⟩ := h.coded.phis i v hv hphi
        refine ⟨hfirst, ?_⟩
        have hpreds : ∀ p ∈ f.preds v.block, p ≠ b := by
          rintro p hp rfl
          have hsucc := (h.wired.edges p v.block).2 hp
          rw [hidle.succs] at hsucc
          cases hsucc
        rw [List.forall₂_iff_get] at hops ⊢
        refine ⟨hops.1, fun k hk hk' => ?_⟩
        obtain ⟨a, ha, havail⟩ := hops.2 k hk hk'
        exact ⟨a, ha, havail.redom d (hpreds _ (List.get_mem _ _))⟩
      uses := fun i v hv hphi arg harg => by
        have hne : v.block ≠ b := by
          rintro heq
          have hmem := (h.coded.placed v.block i).2 ⟨v, hv, rfl⟩
          rw [heq, hidle.values] at hmem
          cases hmem
        rw [Function.update_of_ne hne]
        exact h.coded.uses i v hv hphi arg harg }
  closed :=
    { order := h.closed.order
      nodup := h.closed.nodup
      opened := h.closed.opened
      ends := h.closed.ends
      controls := fun c i hi => by
        refine (h.closed.controls c i hi).redom d ?_
        rintro rfl
        rw [hidle.controls] at hi
        cases hi
      reach := h.closed.reach }
  covered :=
    { root := by rw [Function.update_of_ne (Ne.symm hb)]; exact h.covered.root
      edges := fun a c hp => by
        have hcb : c ≠ b := by
          rintro rfl
          rw [hidle.preds] at hp
          cases hp
        have hab : a ≠ b := by
          rintro rfl
          have hsucc := (h.wired.edges a c).2 hp
          rw [hidle.succs] at hsucc
          cases hsucc
        rw [Function.update_of_ne hcb, Function.update_of_ne hab]
        exact h.covered.edges a c hp
      entry := fun c hc => by
        by_cases hcb : c = b
        · subst hcb
          rw [Function.update_self]
          exact List.mem_cons_of_mem _ hd
        · rw [Function.update_of_ne hcb]
          exact h.covered.entry c hc }

theorem Good.grown (h : f.Good dom opens) (hd : 0 ∈ dom f.blocks.size) :
    f.grown.Good dom (f.blocks.size :: opens) where
  wired :=
    { entry := h.wired.entry
      head := by simp [order_grown, h.wired.head]
      nodup := by
        rw [order_grown, List.nodup_append]
        refine ⟨h.wired.nodup, by simp, fun x hx y hy => ?_⟩
        rw [List.mem_singleton.1 hy]
        exact Nat.ne_of_lt (h.wired.known x hx)
      known := fun b hb => by
        rw [size_grown]
        rcases List.mem_append.1 hb with hb | hb
        · exact Nat.lt_succ_of_lt (h.wired.known b hb)
        · exact List.mem_singleton.1 hb ▸ Nat.lt_succ_self _
      ids := fun b x hx => by
        rw [block?, Func.grown, Array.getElem?_push] at hx
        split at hx
        next heq => rw [← Option.some.inj hx]; exact ⟨heq.symm, rfl⟩
        next => exact h.wired.ids b x hx
      edges := by simpa using h.wired.edges
      single := by simpa using h.wired.single
      inside := fun a b hb => by
        obtain ⟨ha, hb⟩ := h.wired.inside a b (by simpa using hb)
        simp [order_grown, ha, hb]
      entry_preds := by simpa using h.wired.entry_preds }
  coded :=
    { ids := h.coded.ids
      home := fun i v hv => by simp [order_grown, h.coded.home i v hv]
      placed := by simpa using h.coded.placed
      nodup := by simpa using h.coded.nodup
      entry := h.coded.entry
      sane := h.coded.sane
      phis := fun i v hv hphi => by
        obtain ⟨hfirst, hops⟩ := h.coded.phis i v hv hphi
        exact ⟨by simpa using hfirst, by rw [preds_grown]; exact hops⟩
      uses := fun i v hv hphi arg harg => by
        simpa using h.coded.uses i v hv hphi arg harg }
  closed :=
    { order := fun b hb => by
        rcases List.mem_cons.1 hb with rfl | hb
        · simp [order_grown]
        · simp [order_grown, h.closed.order b hb]
      nodup := by
        refine List.nodup_cons.2 ⟨fun hmem => ?_, h.closed.nodup⟩
        exact Nat.lt_irrefl _ (h.wired.known _ (h.closed.order _ hmem))
      opened := fun b hb => by
        have hopen : f.Open b := by
          rcases List.mem_cons.1 hb with rfl | hb
          · have hnone : f.block? f.blocks.size = none := by simp [block?]
            exact ⟨by simp [kindOf, hnone], succs_nil f _ (Nat.le_refl _),
              by simp [controlsOf, hnone]⟩
          · exact h.closed.opened b hb
        exact ⟨by simpa using hopen.kind, by simpa using hopen.succs,
          by simpa using hopen.controls⟩
      ends := fun b hb hopen => by
        obtain ⟨hne, hopen⟩ : b ≠ f.blocks.size ∧ b ∉ opens := by simpa using hopen
        have hb : b ∈ f.order := by simpa [order_grown, hne] using hb
        exact (h.closed.ends b hb hopen).congr (by simp) (by simp) (by simp) (fun _ _ hv => hv) rfl
      controls := fun b c hc => h.closed.controls b c (by simpa using hc)
      reach := fun b hb hopen => by
        obtain ⟨hne, hopen⟩ : b ≠ f.blocks.size ∧ b ∉ opens := by simpa using hopen
        have hb : b ∈ f.order := by simpa [order_grown, hne] using hb
        exact (h.closed.reach b hb hopen).mono (by simp) }
  covered :=
    { root := h.covered.root
      edges := by simpa using h.covered.edges
      entry := fun b hb => by
        rcases List.mem_append.1 hb with hb | hb
        · exact h.covered.entry b hb
        · exact List.mem_cons_of_mem _ (List.mem_singleton.1 hb ▸ hd) }

/-! Edges and ends -/

theorem mem_succs_linked (ha : a < f.blocks.size) {x y : Nat} :
    y ∈ (f.linked a b).succs x ↔ y ∈ f.succs x ∨ (x = a ∧ y = b) := by
  rw [succs_linked _ _ _ _ ha]
  split
  next heq => simp [heq]
  next hne => simp [show x ≠ a from fun h => hne h.symm]

theorem mem_preds_linked (hb : b < f.blocks.size) {x y : Nat} :
    x ∈ (f.linked a b).preds y ↔ x ∈ f.preds y ∨ (x = a ∧ y = b) := by
  rw [preds_linked _ _ _ _ hb]
  split
  next heq => simp [heq]
  next hne => simp [show y ≠ b from fun h => hne h.symm]

/-- A new edge between two blocks. -/
theorem Wired.linked (h : f.Wired) (ha : a ∈ f.order) (hb : b ∈ f.order) (hne : b ≠ 0)
    (hnew : b ∉ f.succs a) : (f.linked a b).Wired where
  entry := h.entry
  head := h.head
  nodup := h.nodup
  known := by simpa using h.known
  ids c x hx := by
    rw [block?, Func.linked, getElem?_modify_block, getElem?_modify_block] at hx
    have hmap : ∃ y, f.block? c = some y ∧ x.id = y.id ∧ x.owned = y.owned := by
      unfold block?
      cases hy : f.blocks[c]? with
      | none => simp [hy] at hx
      | some y =>
          refine ⟨y, rfl, ?_⟩
          by_cases hbc : b = c <;> by_cases hac : a = c <;>
            simp only [hy, hbc, hac, if_true, if_false, Option.map_some, Option.some.injEq] at hx <;>
            subst hx <;> exact ⟨rfl, rfl⟩
    obtain ⟨y, hy, hid, howned⟩ := hmap
    rw [hid, howned]
    exact h.ids c y hy
  edges x y := by
    rw [mem_succs_linked (h.known a ha), mem_preds_linked (h.known b hb), h.edges x y]
  single x := by
    have hsnoc : ∀ {l : List Nat} {y : Nat}, l.Nodup → y ∉ l → (l ++ [y]).Nodup :=
      fun hl hy => List.nodup_append.2 ⟨hl, List.nodup_singleton _, fun z hz w hw heq =>
        hy ((List.mem_singleton.1 hw) ▸ heq ▸ hz)⟩
    rw [succs_linked _ _ _ _ (h.known a ha), preds_linked _ _ _ _ (h.known b hb)]
    constructor
    · split
      next heq => exact hsnoc (h.single x).1 (heq ▸ hnew)
      next => exact (h.single x).1
    · split
      next heq => exact hsnoc (h.single x).2 fun hmem => hnew ((h.edges a b).2 (heq ▸ hmem))
      next => exact (h.single x).2
  inside x y hy := by
    rcases (mem_succs_linked (h.known a ha)).1 hy with hy | ⟨rfl, rfl⟩
    · exact h.inside x y hy
    · exact ⟨ha, hb⟩
  entry_preds := by
    rw [preds_linked _ _ _ _ (h.known b hb), if_neg hne]
    exact h.entry_preds

theorem Coded.linked (h : f.Coded dom) (hb : b < f.blocks.size) (hphi : f.NoPhi b) :
    (f.linked a b).Coded dom where
  ids := h.ids
  home := h.home
  placed := by simpa using h.placed
  nodup := by simpa using h.nodup
  entry := h.entry
  sane := h.sane
  phis i v hv hop := by
    obtain ⟨hfirst, hops⟩ := h.phis i v hv hop
    refine ⟨by simpa using hfirst, ?_⟩
    rw [preds_linked _ _ _ _ hb, if_neg fun heq => hphi i v hv heq.symm hop]
    exact hops
  uses i v hv hop arg harg := by simpa using h.uses i v hv hop arg harg

theorem Covered.linked (h : f.Covered dom) (hb : b < f.blocks.size)
    (hdom : dom b ⊆ a :: dom a) : (f.linked a b).Covered dom where
  root := h.root
  edges x y hx := by
    rcases (mem_preds_linked hb).1 hx with hx | ⟨rfl, rfl⟩
    · exact h.edges x y hx
    · exact hdom
  entry := h.entry

theorem Wired.ended (h : f.Wired) (b : Nat) (kind : BlockKind) (controls : List (Option Nat)) :
    (f.ended b kind controls).Wired := by
  refine h.congr rfl rfl (by simp) (fun c x' hx' => ?_) (by simp) (by simp)
  rw [block?, Func.ended, getElem?_modify_block] at hx'
  split at hx'
  · obtain ⟨x, hx, rfl⟩ := Option.map_eq_some_iff.1 hx'
    exact ⟨x, hx, rfl, rfl⟩
  · exact ⟨x', hx', rfl, rfl⟩

theorem Coded.ended (h : f.Coded dom) (b : Nat) (kind : BlockKind)
    (controls : List (Option Nat)) : (f.ended b kind controls).Coded dom where
  ids := h.ids
  home := h.home
  placed := by simpa using h.placed
  nodup := by simpa using h.nodup
  entry := h.entry
  sane := h.sane
  phis i v hv hop := by
    obtain ⟨hfirst, hops⟩ := h.phis i v hv hop
    exact ⟨by simpa using hfirst, by rw [preds_ended]; exact hops⟩
  uses i v hv hop arg harg := by simpa using h.uses i v hv hop arg harg

theorem Covered.ended (h : f.Covered dom) (b : Nat) (kind : BlockKind)
    (controls : List (Option Nat)) : (f.ended b kind controls).Covered dom :=
  ⟨h.root, by simpa using h.edges, h.entry⟩

/-- Giving the open block `a` its end closes it and leaves the others as they are. -/
theorem Closed.close (h : f.Closed dom opens) (f' : Func) (hreach : f.Reach a)
    (horder : f'.order = f.order) (hsig : f'.sig = f.sig)
    (hinstr : ∀ i v, f.instr? i = some v → f'.instr? i = some v)
    (hsuccs : ∀ c, f.succs c ⊆ f'.succs c)
    (hother : ∀ c, c ≠ a → f'.kindOf c = f.kindOf c ∧ f'.succs c = f.succs c ∧
      f'.controlsOf c = f.controlsOf c)
    (hends : f'.Ends a) (hcontrols : ∀ c, some c ∈ f'.controlsOf a → f'.Avail dom a c) :
    f'.Closed dom (opens.erase a) where
  order b hb := horder ▸ h.order b (List.mem_of_mem_erase hb)
  nodup := h.nodup.erase a
  opened b hb := by
    obtain ⟨hne, hb⟩ := (h.nodup.mem_erase_iff).1 hb
    obtain ⟨hkind, hsucc, hcontrol⟩ := hother b hne
    exact ⟨hkind ▸ (h.opened b hb).kind, hsucc ▸ (h.opened b hb).succs,
      hcontrol ▸ (h.opened b hb).controls⟩
  ends b hb hopen := by
    by_cases hba : b = a
    · exact hba ▸ hends
    · obtain ⟨hkind, hsucc, hcontrol⟩ := hother b hba
      refine (h.ends b (horder ▸ hb) fun hmem => hopen ?_).congr hkind hsucc hcontrol hinstr hsig
      exact (h.nodup.mem_erase_iff).2 ⟨hba, hmem⟩
  controls b c hc := by
    by_cases hba : b = a
    · subst hba
      exact hcontrols c hc
    · rw [(hother b hba).2.2] at hc
      exact (h.controls b c hc).mono fun v hv => hinstr c v hv
  reach b hb hopen := by
    by_cases hba : b = a
    · exact hba ▸ hreach.mono hsuccs
    · refine (h.reach b (horder ▸ hb) fun hmem => hopen ?_).mono hsuccs
      exact (h.nodup.mem_erase_iff).2 ⟨hba, hmem⟩

/-- An edge from the open block `a` closes it. -/
theorem Good.jump (h : f.Good dom opens) (ha : a ∈ opens) (hreach : f.Reach a)
    (hb : b ∈ f.order) (hne : b ≠ 0) (hphi : f.NoPhi b) (hdom : dom b ⊆ a :: dom a) :
    (f.linked a b).Good dom (opens.erase a) := by
  have haorder := h.closed.order a ha
  have halt := h.wired.known a haorder
  have hblt := h.wired.known b hb
  have hopen := h.closed.opened a ha
  refine ⟨h.wired.linked haorder hb hne (by simp [hopen.succs]), h.coded.linked hblt hphi, ?_,
    h.covered.linked hblt hdom⟩
  refine h.closed.close _ hreach rfl rfl (fun _ _ hv => hv) ?_ ?_ ?_ ?_
  · exact fun c x hx => (mem_succs_linked halt).2 (Or.inl hx)
  · intro c hc
    refine ⟨by simp, ?_, by simp⟩
    rw [succs_linked _ _ _ _ halt, if_neg (Ne.symm hc)]
  · refine .plain (by rw [kindOf_linked, hopen.kind]) ?_ (by rw [controlsOf_linked, hopen.controls])
    rw [succs_linked _ _ _ _ halt, if_pos rfl, hopen.succs]
    rfl
  · intro c hc
    rw [controlsOf_linked, hopen.controls] at hc
    cases hc

/-- A branch closes the open block `a`. -/
theorem Good.branch (h : f.Good dom opens) (ha : a ∈ opens) (hreach : f.Reach a)
    (cond yes no : Nat) (hcond : f.Avail dom a cond)
    (hbool : ∀ v, f.instr? cond = some v → v.type = some .bool)
    (hyes : yes ∈ f.order) (hno : no ∈ f.order) (hne : yes ≠ no) (hyes0 : yes ≠ 0)
    (hno0 : no ≠ 0) (hyesphi : f.NoPhi yes) (hnophi : f.NoPhi no)
    (hyesdom : dom yes ⊆ a :: dom a) (hnodom : dom no ⊆ a :: dom a) :
    (f.branched a cond yes no).Good dom (opens.erase a) := by
  have haorder := h.closed.order a ha
  have halt := h.wired.known a haorder
  have hopen := h.closed.opened a ha
  have hyeslt : yes < (f.ended a .branch [some cond]).blocks.size := by
    rw [size_ended]
    exact h.wired.known yes hyes
  have hnolt : no < ((f.ended a .branch [some cond]).linked a yes).blocks.size := by
    rw [size_linked, size_ended]
    exact h.wired.known no hno
  have hclosed : (f.branched a cond yes no).Closed dom (opens.erase a) := by
    refine h.closed.close _ hreach (order_branched ..) (by simp [branched, linked, ended])
      (fun i v hv => by rwa [instr?_branched]) ?_ ?_ ?_ ?_
    · intro c x hx
      rw [succs_branched _ _ _ _ _ _ halt]
      split
      · exact List.mem_append_left _ hx
      · exact hx
    · intro c hc
      have hne := Ne.symm hc
      rw [kindOf_branched _ _ _ _ _ _ halt, if_neg hne, succs_branched _ _ _ _ _ _ halt, if_neg hne,
        controlsOf_branched _ _ _ _ _ _ halt, if_neg hne]
      exact ⟨rfl, rfl, rfl⟩
    · obtain ⟨v, hv, _⟩ := hcond
      refine .branch (c := cond) (v := v) ?_ ?_ ?_ (by rwa [instr?_branched]) (hbool v hv)
      · rw [kindOf_branched _ _ _ _ _ _ halt, if_pos rfl]
      · rw [succs_branched _ _ _ _ _ _ halt, if_pos rfl, hopen.succs]
        rfl
      · rw [controlsOf_branched _ _ _ _ _ _ halt, if_pos rfl]
    · intro c hc
      rw [controlsOf_branched _ _ _ _ _ _ halt, if_pos rfl] at hc
      obtain rfl : c = cond := by simpa using hc
      exact hcond.mono fun v hv => by rwa [instr?_branched]
  have hwired := (h.wired.ended a .branch [some cond]).linked haorder hyes hyes0
    (by simp [hopen.succs])
  have hsecond : no ∉ ((f.ended a .branch [some cond]).linked a yes).succs a := by
    rw [succs_linked _ _ _ _ (by rwa [size_ended]), if_pos rfl, succs_ended, hopen.succs]
    simpa using Ne.symm hne
  exact ⟨hwired.linked haorder hno hno0 hsecond,
    ((h.coded.ended a .branch [some cond]).linked hyeslt hyesphi).linked hnolt hnophi, hclosed,
    ((h.covered.ended a .branch [some cond]).linked hyeslt hyesdom).linked hnolt hnodom⟩

/-- A return closes the open block `a`. -/
theorem Good.ret (h : f.Good dom opens) (ha : a ∈ opens) (hreach : f.Reach a)
    (result : Option Nat) (hresult : ∀ i ∈ result, f.Avail dom a i)
    (hshape : f.hasResult = result.isSome) :
    (f.ended a .ret (result.toList.map some)).Good dom (opens.erase a) := by
  have halt := h.wired.known a (h.closed.order a ha)
  have hopen := h.closed.opened a ha
  refine ⟨h.wired.ended a _ _, h.coded.ended a _ _, ?_, h.covered.ended a _ _⟩
  refine h.closed.close _ hreach rfl rfl (fun _ _ hv => hv) (by simp) ?_ ?_ ?_
  · intro c hc
    have hne := Ne.symm hc
    rw [kindOf_ended _ _ _ _ _ halt, if_neg hne, succs_ended, controlsOf_ended _ _ _ _ _ halt,
      if_neg hne]
    exact ⟨rfl, rfl, rfl⟩
  · refine .ret result ?_ (by rw [succs_ended, hopen.succs]) ?_ hshape
    · rw [kindOf_ended _ _ _ _ _ halt, if_pos rfl]
    · rw [controlsOf_ended _ _ _ _ _ halt, if_pos rfl]
  · intro c hc
    rw [controlsOf_ended _ _ _ _ _ halt, if_pos rfl] at hc
    exact hresult c (by simpa using hc)

/-- A block that nothing leads to and that is empty may go. -/
theorem Good.without (h : f.Good dom opens) (hb : b ∈ opens) (hne : b ≠ 0)
    (hpreds : f.preds b = []) (hvalues : f.values b = []) :
    (f.without b).Good dom (opens.erase b) := by
  have hopen := h.closed.opened b hb
  have horder : ∀ c, c ∈ (f.without b).order ↔ c ≠ b ∧ c ∈ f.order := fun c =>
    h.wired.nodup.mem_erase_iff
  have hleave : ∀ x y, y ∈ f.succs x → x ≠ b ∧ y ≠ b := by
    intro x y hy
    constructor
    · rintro rfl
      rw [hopen.succs] at hy
      cases hy
    · rintro rfl
      have hpred := (h.wired.edges x y).1 hy
      rw [hpreds] at hpred
      cases hpred
  constructor
  · refine ⟨h.wired.entry, ?_, h.wired.nodup.erase b, fun c hc => ?_, h.wired.ids,
      h.wired.edges, h.wired.single, fun x y hy => ?_, h.wired.entry_preds⟩
    · have hhead := h.wired.head
      unfold Func.without
      cases hf : f.order with
      | nil => simp [hf] at hhead
      | cons x rest =>
          obtain rfl : x = 0 := by simpa [hf] using hhead
          rw [List.erase_cons_tail (by simpa using Ne.symm hne)]
          rfl
    · exact h.wired.known c ((horder c).1 hc).2
    · obtain ⟨hx, hy'⟩ := hleave x y hy
      exact ⟨(horder x).2 ⟨hx, (h.wired.inside x y hy).1⟩,
        (horder y).2 ⟨hy', (h.wired.inside x y hy).2⟩⟩
  · refine ⟨h.coded.ids, fun i v hv => ?_, h.coded.placed, h.coded.nodup, h.coded.entry,
      h.coded.sane, fun i v hv hop => ⟨(h.coded.phis i v hv hop).first,
        (h.coded.phis i v hv hop).operands⟩, h.coded.uses⟩
    refine (horder _).2 ⟨fun heq => ?_, h.coded.home i v hv⟩
    have hmem := (h.coded.placed v.block i).2 ⟨v, hv, rfl⟩
    rw [heq, hvalues] at hmem
    cases hmem
  · have hclosed : ∀ c ∈ (f.without b).order, c ∉ opens.erase b → c ∈ f.order ∧ c ∉ opens := by
      intro c hc hopen
      obtain ⟨hcb, hc⟩ := (horder c).1 hc
      exact ⟨hc, fun hmem => hopen ((h.closed.nodup.mem_erase_iff).2 ⟨hcb, hmem⟩)⟩
    refine ⟨fun c hc => ?_, h.closed.nodup.erase b, fun c hc => ?_, fun c hc hopen => ?_,
      h.closed.controls, fun c hc hopen => ?_⟩
    · obtain ⟨hcb, hc⟩ := (h.closed.nodup.mem_erase_iff).1 hc
      exact (horder c).2 ⟨hcb, h.closed.order c hc⟩
    · have hopen := h.closed.opened c (List.mem_of_mem_erase hc)
      exact ⟨hopen.kind, hopen.succs, hopen.controls⟩
    · obtain ⟨hc, hopen⟩ := hclosed c hc hopen
      exact (h.closed.ends c hc hopen).congr rfl rfl rfl (fun _ _ hv => hv) rfl
    · obtain ⟨hc, hopen⟩ := hclosed c hc hopen
      exact (h.closed.reach c hc hopen).mono fun _ _ hx => hx
  · exact ⟨h.covered.root, h.covered.edges, fun c hc =>
      h.covered.entry c ((horder c).1 hc).2⟩

end Func

end ClassLang.Graph
