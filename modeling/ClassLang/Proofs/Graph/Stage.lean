import ClassLang.Proofs.Graph.Builder

/-!
Construction between two statements or expressions, where more blocks are open than
before. Blocks are added, get their ends and are entered, one change at a time; at the
end of it only the blocks that were open are open again, and the current one.
-/

namespace ClassLang.Graph

namespace Func

variable {f : Func} {dom dom' : Doms} {opens opens' : List Nat} {a b c i : Nat} {v : Instr}

theorem Closed.perm (h : f.Closed dom opens) (hperm : opens.Perm opens') :
    f.Closed dom opens' where
  order b hb := h.order b (hperm.mem_iff.2 hb)
  nodup := hperm.nodup_iff.1 h.nodup
  opened b hb := h.opened b (hperm.mem_iff.2 hb)
  ends b hb hopen := h.ends b hb fun hmem => hopen (hperm.mem_iff.1 hmem)
  controls := h.controls
  reach b hb hopen := h.reach b hb fun hmem => hopen (hperm.mem_iff.1 hmem)

theorem Good.perm (h : f.Good dom opens) (hperm : opens.Perm opens') : f.Good dom opens' :=
  ⟨h.wired, h.coded, h.closed.perm hperm, h.covered⟩

theorem Avail.congr (h : f.Avail dom b i) (hdom : dom' b = dom b) : f.Avail dom' b i := by
  obtain ⟨v, hv, hblock⟩ := h
  exact ⟨v, hv, hdom ▸ hblock⟩

/-- What must be passed before blocks that are not there does not matter. -/
theorem Good.congr (h : f.Good dom opens) (hdom : ∀ b < f.blocks.size, dom' b = dom b) :
    f.Good dom' opens := by
  have horder : ∀ b ∈ f.order, dom' b = dom b := fun b hb => hdom b (h.wired.known b hb)
  have hpred : ∀ p b, p ∈ f.preds b → p ∈ f.order ∧ b ∈ f.order := fun p b hp =>
    h.wired.inside p b ((h.wired.edges p b).2 hp)
  refine ⟨h.wired, ?_, ?_, ?_⟩
  · refine ⟨h.coded.ids, h.coded.home, h.coded.placed, h.coded.nodup, h.coded.entry, h.coded.sane,
      fun i v hv hphi => ?_, fun i v hv hphi arg harg => ?_⟩
    · obtain ⟨hfirst, hops⟩ := h.coded.phis i v hv hphi
      refine ⟨hfirst, ?_⟩
      rw [List.forall₂_iff_get] at hops ⊢
      refine ⟨hops.1, fun k hk hk' => ?_⟩
      obtain ⟨a, ha, havail⟩ := hops.2 k hk hk'
      exact ⟨a, ha, havail.congr (horder _ (hpred _ _ (List.get_mem _ _)).1)⟩
    · rw [horder _ (h.coded.home i v hv)]
      exact h.coded.uses i v hv hphi arg harg
  · refine ⟨h.closed.order, h.closed.nodup, h.closed.opened, h.closed.ends, fun b c hc => ?_,
      h.closed.reach⟩
    refine (h.closed.controls b c hc).congr (hdom b ?_)
    refine Nat.lt_of_not_le fun hle => ?_
    simp [controlsOf, block?, Array.getElem?_eq_none hle] at hc
  · refine ⟨?_, fun a b hp => ?_, fun b hb => ?_⟩
    · rw [horder 0 h.wired.mem_zero]
      exact h.covered.root
    · obtain ⟨ha, hb⟩ := hpred a b hp
      rw [horder a ha, horder b hb]
      exact h.covered.edges a b hp
    · rw [horder b hb]
      exact h.covered.entry b hb

/-- A block that a predecessor leads to can be reached. -/
theorem Good.reach_of_pred (h : f.Good dom opens) (hp : a ∈ f.preds b) : f.Reach b := by
  have hsucc := (h.wired.edges a b).2 hp
  refine .step (h.closed.reach a (h.wired.inside a b hsucc).1 fun hopen => ?_) hsucc
  rw [(h.closed.opened a hopen).succs] at hsucc
  cases hsucc

/-- The graph with `k` empty blocks. -/
def grows (f : Func) : Nat → Func
  | 0 => f
  | k + 1 => (f.grown).grows k

@[simp] theorem instr?_grows (f : Func) (k i : Nat) : (f.grows k).instr? i = f.instr? i := by
  induction k generalizing f with
  | zero => rfl
  | succ k ih => rw [grows, ih, instr?_grown]

@[simp] theorem succs_grows (f : Func) (k b : Nat) : (f.grows k).succs b = f.succs b := by
  induction k generalizing f with
  | zero => rfl
  | succ k ih => rw [grows, ih, succs_grown]

@[simp] theorem size_grows (f : Func) (k : Nat) :
    (f.grows k).blocks.size = f.blocks.size + k := by
  induction k generalizing f with
  | zero => rfl
  | succ k ih =>
      rw [grows, ih, size_grown]
      omega

/-- A block that edges may lead to. -/
structure Target (f : Func) (b : Nat) : Prop where
  order : b ∈ f.order
  entry : b ≠ 0
  phis : f.NoPhi b

/-- A block that is as it was made: nothing leads to it, and it is empty. -/
structure Blank (f : Func) (b : Nat) : Prop extends f.Target b where
  preds : f.preds b = []
  body : f.body b = []

namespace Target

/-- Construction only adds a `phi` to a block that it makes. -/
theorem frame {n : Nat} {cur : Option Nat} {f' : Func} (h : f.Target b)
    (hframe : Frame n cur dom f dom' f') (hb : b < n) : f'.Target b :=
  ⟨(hframe.order b hb).2 h.order, h.entry, hframe.phis b hb h.phis⟩

theorem congr {f' : Func} (h : f.Target b) (horder : f'.order = f.order)
    (hinstr : ∀ i, f'.instr? i = f.instr? i) : f'.Target b where
  order := horder ▸ h.order
  entry := h.entry
  phis i v hv := h.phis i v ((hinstr i).symm.trans hv)

end Target

namespace Blank

theorem new (h : f.Good dom opens) : f.grown.Blank f.blocks.size where
  order := by simp [order_grown]
  entry := Nat.ne_of_gt h.wired.zero_lt
  preds := by rw [preds_grown, preds_nil f _ (Nat.le_refl _)]
  body := by rw [body_grown, Func.body, values_nil f _ (Nat.le_refl _), List.filter_nil]
  phis i v hv hblock := by
    have hlt := h.wired.known _ (h.coded.home i v hv)
    omega

theorem grown (h : f.Blank b) : f.grown.Blank b where
  order := by simp [order_grown, h.order]
  entry := h.entry
  preds := by rw [preds_grown, h.preds]
  body := by rw [body_grown, h.body]
  phis := h.phis

theorem grows (h : f.Blank b) (k : Nat) : (f.grows k).Blank b := by
  induction k generalizing f with
  | zero => exact h
  | succ k ih => exact ih h.grown

theorem linked (h : f.Blank b) (hc : c < f.blocks.size) (hne : c ≠ b) : (f.linked a c).Blank b where
  order := h.order
  entry := h.entry
  preds := by rw [preds_linked _ _ _ _ hc, if_neg hne, h.preds]
  body := by rw [body_linked, h.body]
  phis := h.phis

theorem ended (h : f.Blank b) (a : Nat) (kind : BlockKind) (controls : List (Option Nat)) :
    (f.ended a kind controls).Blank b where
  order := h.order
  entry := h.entry
  preds := by rw [preds_ended, h.preds]
  body := by rw [body_ended, h.body]
  phis := h.phis

theorem branched {cond yes no : Nat} (h : f.Blank b) (hyes : yes < f.blocks.size)
    (hno : no < f.blocks.size) (hyesne : yes ≠ b) (hnone : no ≠ b) :
    (f.branched a cond yes no).Blank b :=
  ((h.ended a .branch [some cond]).linked (by simpa using hyes) hyesne).linked
    (by simpa using hno) hnone

theorem placed (h : f.Blank b) (hcoded : f.Coded dom) (hc : c < f.blocks.size) (hne : c ≠ b)
    (hop : v.op ≠ .alloca) (hblock : v.block = c) :
    (f.inserted c (f.values c).length v).Blank b where
  order := h.order
  entry := h.entry
  preds := by rw [preds_inserted, h.preds]
  body := by rw [body_placed hcoded hc hop, if_neg hne, h.body]
  phis i w hw hwb := by
    rw [instr?_inserted] at hw
    split at hw
    · obtain rfl := Option.some.inj hw
      exact absurd (hblock.symm.trans hwb) hne
    · exact h.phis i w hw hwb

/-- Construction elsewhere leaves a blank block alone. -/
theorem frame {n : Nat} {cur : Option Nat} {f' : Func} (h : f.Blank b)
    (hframe : Frame n cur dom f dom' f') (hb : b < n) (hcur : some b ≠ cur) : f'.Blank b where
  order := (hframe.order b hb).2 h.order
  entry := h.entry
  preds := by rw [hframe.preds b hb, h.preds]
  body := by rw [(hframe.others b hb hcur).2.2.2, h.body]
  phis := hframe.phis b hb h.phis

theorem values (h : f.Blank b) {n : Nat} (hslots : f.Slotted n) : f.values b = [] := by
  rw [← hslots.body_eq h.entry, h.body]

theorem idle (h : f.Blank b) (hopen : f.Open b) {n : Nat} (hslots : f.Slotted n) : f.Idle b :=
  ⟨h.preds, hopen.succs, h.values hslots, hopen.controls⟩

end Blank

end Func

namespace Builder

open Func (Frame Blank)

/-- A state on the way from `s`, where the blocks `opens` are open. -/
structure Stage (dom : Doms) (s : Builder) (dom' : Doms) (opens : List Nat) (s' : Builder) :
    Prop where
  good : s'.func.Good dom' opens
  slots : ∀ e ∈ s'.slots, ∃ v, s'.func.instr? e.2 = some v ∧ v.op = .alloca ∧ v.block = 0
  slotted : s'.func.Slotted s'.slotCount
  faults : s'.faults = []
  frame : Frame s.func.blocks.size s.current dom s.func dom' s'.func
  more : s.slots <:+ s'.slots

variable {pend opens opens' : List Nat} {dom dom' dom'' : Doms} {s s' s'' : Builder} {a b c i : Nat}
  {v : Instr}

/-- Block `b` is the current one of `s` or was made later. -/
def Mine (s : Builder) (b : Nat) : Prop := s.current = some b ∨ s.func.blocks.size ≤ b

theorem Step.stage (h : Step pend dom s dom' s') :
    Stage dom s dom' (s'.current.toList ++ pend) s' :=
  ⟨h.inv.good, h.inv.slots, h.inv.slotted, h.inv.faults, h.frame, h.slots⟩

namespace Stage

theorem perm (h : Stage dom s dom' opens s') (hperm : opens.Perm opens') :
    Stage dom s dom' opens' s' := { h with good := h.good.perm hperm }

/-- Entering a block changes nothing else. -/
theorem enter (h : Stage dom s dom' opens s') (c : Option Nat) :
    Stage dom s dom' opens (s'.entered c) :=
  ⟨h.good, h.slots, h.slotted, h.faults, h.frame, h.more⟩

theorem setDom (h : Stage dom s dom' opens s')
    (hdom : ∀ b < s'.func.blocks.size, dom'' b = dom' b) : Stage dom s dom'' opens s' where
  good := h.good.congr hdom
  slots := h.slots
  slotted := h.slotted
  faults := h.faults
  frame := { h.frame with
    doms := fun b hb =>
      (hdom b (Nat.lt_of_lt_of_le hb h.frame.size)).trans (h.frame.doms b hb) }
  more := h.more

theorem redom (h : Stage dom s dom' opens s') (hb : b ∈ opens) (hblank : s'.func.Blank b)
    (hnew : s.func.blocks.size ≤ b) {d : List Nat} (hd : 0 ∈ d) :
    Stage dom s (Function.update dom' b d) opens s' where
  good := h.good.redom (hblank.idle (h.good.closed.opened b hb) h.slotted) hblank.entry hd
  slots := h.slots
  slotted := h.slotted
  faults := h.faults
  frame := { h.frame with
    doms := fun c hc => by
      rw [Function.update_of_ne (by omega)]
      exact h.frame.doms c hc }
  more := h.more

/-- Slots are neither made nor moved by what changes no instruction. -/
theorem rewire (h : Stage dom s dom' opens s') {f : Func} (hgood : f.Good dom' opens')
    (hframe : Frame s.func.blocks.size s.current dom' s'.func dom' f)
    (hvalues : ∀ b, f.values b = s'.func.values b) (hinstr : ∀ i, f.instr? i = s'.func.instr? i) :
    Stage dom s dom' opens' (s'.withFunc f) where
  good := hgood
  slots e he := by
    obtain ⟨v, hv, hop⟩ := h.slots e he
    exact ⟨v, (hinstr _).trans hv, hop⟩
  slotted := h.slotted.congr hvalues hinstr
  faults := h.faults
  frame := h.frame.trans hframe
  more := h.more

theorem grow (h : Stage dom s dom' opens s') (hd : 0 ∈ dom' s'.func.blocks.size) :
    Stage dom s dom' (s'.func.blocks.size :: opens) (s'.withFunc s'.func.grown) := by
  have hframe : Frame s.func.blocks.size s.current dom' s'.func dom' s'.func.grown := by
    have hgrown := Frame.grown h.frame.size s.current dom' (dom' s'.func.blocks.size)
    rwa [Function.update_eq_self] at hgrown
  exact h.rewire (h.good.grown hd) hframe (by simp) (by simp)

/-- Several new blocks, none of which anything leads to. -/
theorem grows (h : Stage dom s dom' opens s') (hd : ∀ b, s'.func.blocks.size ≤ b → 0 ∈ dom' b)
    (k : Nat) : Stage dom s dom' (List.range' s'.func.blocks.size k ++ opens)
        (s'.withFunc (s'.func.grows k)) ∧
      ∀ b ∈ List.range' s'.func.blocks.size k, (s'.func.grows k).Blank b := by
  induction k generalizing s' opens with
  | zero => exact ⟨h, by simp⟩
  | succ k ih =>
      have hsize : (s'.withFunc s'.func.grown).func.blocks.size = s'.func.blocks.size + 1 := by simp
      obtain ⟨hstage, hblank⟩ := ih (h.grow (hd _ (Nat.le_refl _))) fun b hb => hd b (by omega)
      rw [hsize] at hstage hblank
      rw [Func.grows, List.range'_succ]
      refine ⟨hstage.perm List.perm_middle, fun b hb => ?_⟩
      rcases List.mem_cons.1 hb with rfl | hb
      · exact (Blank.new h.good).grows k
      · exact hblank b hb

theorem link (h : Stage dom s dom' opens s') (ha : a ∈ opens) (hmine : s.Mine a)
    (hreach : s'.func.Reach a) (hb : s'.func.Target b) (hnew : s.func.blocks.size ≤ b)
    (hdom : dom' b ⊆ a :: dom' a) :
    Stage dom s dom' (opens.erase a) (s'.withFunc (s'.func.linked a b)) :=
  h.rewire (h.good.jump ha hreach hb.order hb.entry hb.phis hdom)
    (.linked (h.good.wired.known a (h.good.closed.order a ha)) (h.good.wired.known b hb.order)
      hmine hnew) (by simp) (by simp)

theorem branch (h : Stage dom s dom' opens s') (ha : a ∈ opens) (hmine : s.Mine a)
    (hreach : s'.func.Reach a) (cond yes no : Nat) (hcond : s'.func.Avail dom' a cond)
    (hbool : ∀ v, s'.func.instr? cond = some v → v.type = some .bool)
    (hyes : s'.func.Target yes) (hno : s'.func.Target no) (hne : yes ≠ no)
    (hyesnew : s.func.blocks.size ≤ yes) (hnonew : s.func.blocks.size ≤ no)
    (hyesdom : dom' yes ⊆ a :: dom' a) (hnodom : dom' no ⊆ a :: dom' a) :
    Stage dom s dom' (opens.erase a) (s'.withFunc (s'.func.branched a cond yes no)) :=
  h.rewire (h.good.branch ha hreach cond yes no hcond hbool hyes.order hno.order hne hyes.entry
      hno.entry hyes.phis hno.phis hyesdom hnodom)
    (.branched (h.good.wired.known a (h.good.closed.order a ha))
      (h.good.wired.known yes hyes.order) (h.good.wired.known no hno.order) hmine hyesnew hnonew)
    (by simp) (by simp)

theorem ret (h : Stage dom s dom' opens s') (ha : a ∈ opens) (hmine : s.Mine a)
    (hreach : s'.func.Reach a) (result : Option Nat)
    (hresult : ∀ i ∈ result, s'.func.Avail dom' a i)
    (hshape : s'.func.hasResult = result.isSome) :
    Stage dom s dom' (opens.erase a)
      (s'.withFunc (s'.func.ended a .ret (result.toList.map some))) :=
  h.rewire (h.good.ret ha hreach result hresult hshape)
    (.ended (h.good.wired.known a (h.good.closed.order a ha)) hmine _ _) (by simp) (by simp)

theorem remove (h : Stage dom s dom' opens s') (hb : b ∈ opens) (hblank : s'.func.Blank b)
    (hnew : s.func.blocks.size ≤ b) :
    Stage dom s dom' (opens.erase b) (s'.withFunc (s'.func.without b)) :=
  h.rewire (h.good.without hb hblank.entry hblank.preds (hblank.values h.slotted))
    (.without hnew h.good.wired.nodup) (by simp) (by simp)

theorem insert (h : Stage dom s dom' opens s') (hb : b ∈ s'.func.order) (hmine : s.Mine b)
    (hslot : v.op ≠ .alloca) (hblock : v.block = b)
    (hphi : v.op = .phi → s.func.blocks.size ≤ b)
    (hfits : s'.func.Fits dom' b (s'.func.values b).length v) :
    Stage dom s dom' opens (s'.placed b v) := by
  have hlt := h.good.wired.known b hb
  refine ⟨h.good.inserted hb hfits, fun e he => ?_, h.slotted.placed h.good.coded hlt hslot,
    h.faults, h.frame.trans (.placed h.good.coded hlt hmine hslot hblock hphi), h.more⟩
  obtain ⟨w, hw, hop⟩ := h.slots e he
  exact ⟨w, Func.instr?_inserted_of hw v b _, hop⟩

/-- An instruction at the end of a block, with operands that are there. -/
theorem place (h : Stage dom s dom' opens s') (hb : b ∈ s'.func.order) (hmine : s.Mine b)
    (hid : v.id = s'.func.instrs.size) (hblock : v.block = b) (hphi : v.op ≠ .phi)
    (hslot : v.op ≠ .alloca) (hsane : v.fault? s'.func = .ok none)
    (hargs : ∀ arg ∈ v.args, ∃ a, arg = some a ∧ s'.func.Avail dom' b a) :
    Stage dom s dom' opens (s'.placed b v) :=
  h.insert hb hmine hslot hblock (absurd · hphi)
    (.place h.good.coded (h.good.wired.known b hb) hid hblock hphi hsane hargs)

/-- A `phi` at the start of a new block. -/
theorem join (h : Stage dom s dom' opens s') (hb : b ∈ s'.func.order) (hentry : b ≠ 0)
    (hnew : s.func.blocks.size ≤ b) (hempty : s'.func.body b = [])
    (hid : v.id = s'.func.instrs.size) (hblock : v.block = b) (hphi : v.op = .phi)
    (hsane : v.fault? s'.func = .ok none)
    (hargs : List.Forall₂ (fun arg p => ∃ a, arg = some a ∧ s'.func.Avail dom' p a) v.args
      (s'.func.preds b)) : Stage dom s dom' opens (s'.placed b v) := by
  refine h.insert hb (Or.inr hnew) (by simp [hphi]) hblock (fun _ => hnew) ?_
  refine .join (h.good.wired.known b hb) hid hblock hentry hphi ?_ hsane hargs
  rw [← h.slotted.body_eq hentry, hempty]

theorem inv (h : Stage dom s dom' opens s') (hopens : opens.Perm (s'.current.toList ++ pend))
    (hreach : ∀ c ∈ s'.current, s'.func.Reach c) : Inv dom' pend s' :=
  ⟨h.good.perm hopens, hreach, h.slots, h.slotted, h.faults⟩

/-- Construction that starts in a block that is mine. -/
theorem followed (h : Stage dom s dom' opens s') (hmine : ∀ c ∈ s'.current, s.Mine c)
    (hstep : Step pend dom' s' dom'' s'') :
    Stage dom s dom'' (s''.current.toList ++ pend) s'' :=
  { hstep.stage with
    frame := h.frame.trans (hstep.frame.narrow h.frame.size hmine)
    more := h.more.trans hstep.slots }

theorem mine (h : Stage dom s dom' opens s') (hmine : ∀ c ∈ s'.current, s.Mine c)
    (hstep : Step pend dom' s' dom'' s'') : ∀ c ∈ s''.current, s.Mine c := by
  intro c hc
  rcases hstep.fresh c hc with hsame | hle
  · exact hmine c hsame
  · exact Or.inr (Nat.le_trans h.frame.size hle)

theorem step (h : Stage dom s dom' opens s') (hopens : opens.Perm (s'.current.toList ++ pend))
    (hreach : ∀ c ∈ s'.current, s'.func.Reach c) (hmine : ∀ c ∈ s'.current, s.Mine c)
    (hdeeper : ∀ c ∈ s.current, ∀ c' ∈ s'.current, c :: dom c ⊆ c' :: dom' c') :
    Step pend dom s dom' s' :=
  ⟨h.inv hopens hreach, h.frame, h.more, hmine, hdeeper⟩

end Stage

/-- The value of instruction `i` has the type `ty` and is there. -/
def Value (ty : Ty) (i : Nat) (dom : Doms) (s : Builder) : Prop :=
  ∃ v, Has dom s i v ∧ v.type = some ty

theorem Value.exists_has {ty : Ty} (h : Value ty i dom s) : ∃ v, Has dom s i v := by
  obtain ⟨v, hv, _⟩ := h
  exact ⟨v, hv⟩

theorem Value.next {ty : Ty} (h : Value ty i dom s)
    (hstep : Step pend dom s dom' s') (hcur : s'.current.isSome = true) : Value ty i dom' s' := by
  obtain ⟨v, hv, hty⟩ := h
  exact ⟨v, hstep.has hcur hv, hty⟩

/-- Before `k` new blocks the current block must be passed. -/
theorem Inv.grows (h : Inv dom pend s) (ha : s.current = some a) (k : Nat) :
    ∃ dom' : Doms, (∀ b < s.func.blocks.size, dom' b = dom b) ∧
      (∀ b, s.func.blocks.size ≤ b → dom' b = a :: dom a) ∧
      Stage dom s dom' (List.range' s.func.blocks.size k ++ a :: pend)
        (s.withFunc (s.func.grows k)) ∧
      ∀ b ∈ List.range' s.func.blocks.size k, (s.func.grows k).Blank b := by
  have haorder := h.mem_order ha
  obtain ⟨dom', hold, hnew⟩ : ∃ dom' : Doms, (∀ b < s.func.blocks.size, dom' b = dom b) ∧
      ∀ b, s.func.blocks.size ≤ b → dom' b = a :: dom a :=
    ⟨fun b => if b < s.func.blocks.size then dom b else a :: dom a, fun b hb => if_pos hb,
      fun b hb => if_neg (Nat.not_lt_of_le hb)⟩
  have hstart : Stage dom s dom' (a :: pend) s := by
    have hstart := (Step.refl h).stage
    rw [ha] at hstart
    exact hstart.setDom hold
  refine ⟨dom', hold, hnew, hstart.grows (fun b hb => ?_) k⟩
  rw [hnew b hb]
  exact h.good.covered.entry a haorder

/-- A branch from the current block to two of `k` new blocks. Nothing leads to the others
yet. -/
theorem Inv.fork (h : Inv dom pend s) (ha : s.current = some a) {cond : Nat} (k yes no : Nat)
    (hcond : Value .bool cond dom s) (hyes : yes ∈ List.range' s.func.blocks.size k)
    (hno : no ∈ List.range' s.func.blocks.size k) (hne : yes ≠ no) :
    ∃ dom' s', s' = s.withFunc ((s.func.grows k).branched a cond yes no) ∧
      s'.func.blocks.size = s.func.blocks.size + k ∧
      (∀ b < s.func.blocks.size, dom' b = dom b) ∧
      (∀ b, s.func.blocks.size ≤ b → dom' b = a :: dom a) ∧
      Stage dom s dom' (List.range' s.func.blocks.size k ++ pend) s' ∧
      ∀ b ∈ List.range' s.func.blocks.size k, s'.func.Target b ∧ s'.func.body b = [] ∧
        (b = yes ∨ b = no → s'.func.Reach b ∧ a ∈ s'.func.preds b) ∧
        (b ≠ yes → b ≠ no → s'.func.preds b = []) := by
  have han := h.lt_size ha
  obtain ⟨dom', hold, hnew, hgrown, hblank⟩ := h.grows ha k
  obtain ⟨x, hx, hbool⟩ := hcond
  have hnotin : a ∉ List.range' s.func.blocks.size k := fun hmem => by
    have := List.left_le_of_mem_range' hmem
    omega
  have hsub : ∀ b, b ∈ List.range' s.func.blocks.size k → dom' b ⊆ a :: dom' a := by
    intro b hb
    rw [hnew b (List.left_le_of_mem_range' hb), hold a han]
    exact fun _ hy => hy
  have hcond : (s.func.grows k).Avail dom' a cond := by
    obtain ⟨v, hv, hblock⟩ := hx.avail ha
    exact ⟨v, by rwa [Func.instr?_grows], hold a han ▸ hblock⟩
  have hbranch := hgrown.branch (a := a) (by simp) (Or.inl ha)
    ((h.reach a ha).mono fun c => by simp) cond yes no hcond
    (fun v hv => by
      rw [Builder.func_withFunc, Func.instr?_grows, hx.instr] at hv
      obtain rfl := Option.some.inj hv
      exact hbool)
    (hblank yes hyes).toTarget (hblank no hno).toTarget hne
    (List.left_le_of_mem_range' hyes) (List.left_le_of_mem_range' hno) (hsub yes hyes) (hsub no hno)
  rw [List.erase_append_right _ hnotin, List.erase_cons_head, withFunc_withFunc, func_withFunc]
    at hbranch
  have hpred : ∀ b, b = yes ∨ b = no → a ∈ ((s.func.grows k).branched a cond yes no).preds b := by
    intro b hb
    refine (hbranch.good.wired.edges a b).1 ?_
    rw [func_withFunc, Func.succs_branched _ _ _ _ _ _ (by rw [Func.size_grows]; omega), if_pos rfl]
    rcases hb with rfl | rfl <;> simp
  refine ⟨dom', _, rfl, by simp, hold, hnew, hbranch, fun b hb => ⟨?_, ?_, fun hends => ?_,
    fun hbyes hbno => ?_⟩⟩
  · exact (hblank b hb).toTarget.congr (Func.order_branched ..) fun i => Func.instr?_branched ..
  · rw [func_withFunc, Func.branched, Func.body_linked, Func.body_linked, Func.body_ended,
      (hblank b hb).body]
  · exact ⟨hbranch.good.reach_of_pred (hpred b hends), hpred b hends⟩
  · exact ((hblank b hb).branched (hgrown.good.wired.known yes (hblank yes hyes).order)
      (hgrown.good.wired.known no (hblank no hno).order) (Ne.symm hbyes) (Ne.symm hbno)).preds

/-- A jump from the current block to the first of several new blocks. Nothing leads to the
others yet. -/
theorem Inv.leap (h : Inv dom pend s) (ha : s.current = some a) (k : Nat) :
    ∃ dom' s', s' = s.withFunc ((s.func.grows (k + 1)).linked a s.func.blocks.size) ∧
      s'.func.blocks.size = s.func.blocks.size + (k + 1) ∧
      (∀ b < s.func.blocks.size, dom' b = dom b) ∧
      (∀ b, s.func.blocks.size ≤ b → dom' b = a :: dom a) ∧
      Stage dom s dom' (List.range' s.func.blocks.size (k + 1) ++ pend) s' ∧
      s'.func.Target s.func.blocks.size ∧ s'.func.Reach s.func.blocks.size ∧
      ∀ b ∈ List.range' (s.func.blocks.size + 1) k, s'.func.Blank b := by
  have han := h.lt_size ha
  obtain ⟨dom', hold, hnew, hgrown, hblank⟩ := h.grows ha (k + 1)
  have hnotin : a ∉ List.range' s.func.blocks.size (k + 1) := fun hmem => by
    have := List.left_le_of_mem_range' hmem
    omega
  have hfirst := hblank s.func.blocks.size (by simp)
  have hlt : s.func.blocks.size < (s.func.grows (k + 1)).blocks.size :=
    hgrown.good.wired.known _ hfirst.order
  have hlink := hgrown.link (a := a) (by simp) (Or.inl ha) ((h.reach a ha).mono fun c => by simp)
    hfirst.toTarget (Nat.le_refl _) (by
      rw [hnew _ (Nat.le_refl _), hold a han]
      exact fun _ hy => hy)
  rw [List.erase_append_right _ hnotin, List.erase_cons_head, withFunc_withFunc, func_withFunc]
    at hlink
  refine ⟨dom', _, rfl, by simp, hold, hnew, hlink, ?_, ?_, fun b hb => ?_⟩
  · exact hfirst.toTarget.congr (Func.order_linked ..) fun i => Func.instr?_linked ..
  · refine hlink.good.reach_of_pred (a := a) ?_
    rw [func_withFunc, Func.preds_linked _ _ _ _ hlt, if_pos rfl]
    simp
  · obtain ⟨hle, hb'⟩ := List.mem_range'_1.1 hb
    exact (hblank b (List.mem_range'_1.2 ⟨by omega, by omega⟩)).linked hlt (by omega)

end Builder

end ClassLang.Graph
