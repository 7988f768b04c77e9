import ClassLang.Proofs.Graph.Later

/-!
Spots in a graph. A piece of construction starts at one spot and ends at another. What it
has made stays where it is while construction goes on, so it is said of the graph that is
finished later.
-/

namespace ClassLang.Graph

/-- A spot in a graph: `index` instructions of the block `block` that are no slots come
before it, and `count` instructions of the function are older. -/
structure Spot where
  block : Nat
  index : Nat
  count : Nat

namespace Spot

/-- The spot behind an instruction. -/
def next (p : Spot) : Spot := ⟨p.block, p.index + 1, p.count + 1⟩

/-- The same spot after a slot has been made. -/
def skip (p : Spot) : Spot := ⟨p.block, p.index, p.count + 1⟩

/-- The instruction that is made at a spot. -/
def instr (p : Spot) (op : Op) (type : Option Ty) (args : List Nat) (pos : Pos)
    (number : Int64) (aux : Option Aux) : Instr :=
  { id := p.count, op, type, args := args.map some, block := p.block, number, aux, pos }

/-- The instruction for a constant. -/
def constant (p : Spot) (ty : Ty) (pos : Pos) : Constant → Instr
  | .int n => p.instr .const64 (some ty) [] pos (Int64.ofInt n) none
  | .float q =>
    { id := p.count, op := .constFloat, type := some ty, block := p.block,
      float := Double.ofRat q, pos }
  | .bool b => p.instr .constBool (some ty) [] pos (if b then 1 else 0) none
  | .str s => p.instr .constString (some ty) [] pos 0 (some (.text s))

end Spot

namespace Func

/-- The instruction `v` stands at the spot `p`. -/
structure Holds (f : Func) (p : Spot) (v : Instr) : Prop where
  body : (f.body p.block)[p.index]? = some p.count
  instr : f.instr? p.count = some v

/-- A block that can be entered from anywhere. -/
structure Landing (f : Func) (b : Nat) : Prop where
  known : b < f.blocks.size
  entry : b ≠ 0
  calm : f.Calm b

/-- The block of `p` ends at `p`. -/
structure Ending (f : Func) (p : Spot) (kind : BlockKind) (controls : List (Option Nat))
    (succs : List Nat) : Prop where
  known : p.block < f.blocks.size
  last : p.index = (f.body p.block).length
  kind : f.kindOf p.block = kind
  controls : f.controlsOf p.block = controls
  succs : f.succs p.block = succs
  ended : f.Ended p.block

/-- The block of `p` ends at `p`, and the only way on is to the block `b`. -/
abbrev Links (f : Func) (p : Spot) (b : Nat) : Prop := f.Ending p .plain [] [b]

/-- Control goes from `p` to the start of the block `b`. -/
structure Leads (f : Func) (p : Spot) (b : Nat) : Prop where
  links : f.Links p b
  landing : f.Landing b

/-- Control goes from `p` to the block that belongs to the value of `cond`. -/
structure Forks (f : Func) (p : Spot) (cond : Nat) (side : Bool → Nat) : Prop where
  ends : f.Ending p .branch [some cond] [side true, side false]
  landing : ∀ b, f.Landing (side b)

/-- The function returns at `p`. -/
abbrev Quits (f : Func) (p : Spot) (result : Option Nat) : Prop :=
  f.Ending p .ret (result.toList.map some) []

/-- Two paths meet in a block that starts with the instruction `phi`. -/
structure Merges (f : Func) (p q : Spot) (args : List Nat) (pos : Pos) (r : Spot) : Prop where
  first : f.Links p r.block
  second : f.Links q r.block
  preds : [p.block, q.block] <+: f.preds r.block
  distinct : p.block ≠ q.block
  known : r.block < f.blocks.size
  entry : r.block ≠ 0
  start : r.index = 0
  phi : f.Holds r (r.instr .phi (some .bool) args pos 0 none)

variable {f g : Func} {p : Spot} {v : Instr} {dom : Doms} {a b c : Nat}

namespace Kept

theorem holds (h : Kept f g) (hp : f.Holds p v) (hb : p.block < f.blocks.size) : g.Holds p v where
  body := by
    obtain ⟨l, hl⟩ := h.body p.block hb
    rw [← hl, List.getElem?_append_left (List.getElem?_eq_some_iff.1 hp.body).1]
    exact hp.body
  instr := h.instrs _ _ hp.instr

theorem ending {kind : BlockKind} {controls : List (Option Nat)} {succs : List Nat}
    (h : Kept f g) (hp : f.Ending p kind controls succs) : g.Ending p kind controls succs := by
  obtain ⟨hkind, hsuccs, hcontrols, hbody⟩ := h.ended p.block hp.known hp.ended
  exact ⟨Nat.lt_of_lt_of_le hp.known h.size, by rw [hbody, hp.last], hkind.trans hp.kind,
    hcontrols.trans hp.controls, hsuccs.trans hp.succs, hp.ended.congr hkind hsuccs⟩

end Kept

/-- An instruction that has just been made. -/
theorem holds_placed (hcoded : f.Coded dom) (hc : c < f.blocks.size) (hslot : v.op ≠ .alloca) :
    (f.inserted c (f.values c).length v).Holds ⟨c, (f.body c).length, f.instrs.size⟩ v where
  body := by
    rw [body_placed hcoded hc hslot, if_pos rfl]
    simp
  instr := by rw [instr?_inserted, if_pos rfl]

/-- A block that has just got an edge to the block `b`. -/
theorem links_linked (ha : a < f.blocks.size) (hopen : f.Open a) (b n : Nat) :
    (f.linked a b).Links ⟨a, (f.body a).length, n⟩ b where
  known := by simpa using ha
  last := by simp
  kind := by simpa using hopen.kind
  controls := by simpa using hopen.controls
  succs := by rw [succs_linked _ _ _ _ ha, if_pos rfl, hopen.succs]; rfl
  ended := by
    right
    rw [succs_linked _ _ _ _ ha, if_pos rfl]
    simp

/-- A block that has just got a branch to the blocks `yes` and `no`. -/
theorem ending_branched (ha : a < f.blocks.size) (hopen : f.Open a) (cond yes no n : Nat) :
    (f.branched a cond yes no).Ending ⟨a, (f.body a).length, n⟩ .branch [some cond]
      [yes, no] where
  known := by simpa using ha
  last := by simp
  kind := by rw [kindOf_branched _ _ _ _ _ _ ha, if_pos rfl]
  controls := by rw [controlsOf_branched _ _ _ _ _ _ ha, if_pos rfl]
  succs := by rw [succs_branched _ _ _ _ _ _ ha, if_pos rfl, hopen.succs]; rfl
  ended := by
    left
    rw [kindOf_branched _ _ _ _ _ _ ha, if_pos rfl]
    simp

/-- A block that has just got a return. -/
theorem quits_ended (ha : a < f.blocks.size) (hopen : f.Open a) (result : Option Nat) (n : Nat) :
    (f.ended a .ret (result.toList.map some)).Quits ⟨a, (f.body a).length, n⟩ result where
  known := by simpa using ha
  last := by simp
  kind := by rw [kindOf_ended _ _ _ _ _ ha, if_pos rfl]
  controls := by rw [controlsOf_ended _ _ _ _ _ ha, if_pos rfl]
  succs := by simpa using hopen.succs
  ended := by
    left
    rw [kindOf_ended _ _ _ _ _ ha, if_pos rfl]
    simp

end Func

namespace Builder

variable {s s' t : Builder} {dom : Doms} {pend : List Nat} {b c : Nat} {v : Instr}

/-- The end of the current block, if there is one. -/
def spot? (s : Builder) : Option Spot :=
  s.current.map fun c => ⟨c, (s.func.body c).length, s.func.instrs.size⟩

/-- The end of the current block. -/
def spot (s : Builder) : Spot :=
  ⟨s.current.getD 0, (s.func.body (s.current.getD 0)).length, s.func.instrs.size⟩

theorem spot_of_current (hc : s.current = some c) :
    s.spot = ⟨c, (s.func.body c).length, s.func.instrs.size⟩ := by
  simp [spot, hc]

theorem spot?_of_current (hc : s.current = some c) : s.spot? = some s.spot := by
  simp [spot, spot?, hc]

theorem spot?_eq (hcur : s.current.isSome = true) : s.spot? = some s.spot := by
  obtain ⟨c, hc⟩ := Option.isSome_iff_exists.1 hcur
  exact spot?_of_current hc

theorem spot?_none (hc : s.current = none) : s.spot? = none := by simp [spot?, hc]

/-- A graph that is well made: variables have slots of their own, all slots come first, and the
instructions obey the rules. -/
structure Finished (t : Builder) : Prop where
  distinct : (t.slots.map (·.1)).Nodup
  apart : (t.slots.map (·.2)).Nodup
  slotted : ∃ n, t.func.Slotted n
  coded : ∃ dom, t.func.Coded dom

namespace Finished

theorem lookup_of_mem (ht : t.Finished) {p : Pos} {i : Nat} (hi : (p, i) ∈ t.slots) :
    t.slots.lookup p = some i := by
  obtain ⟨j, hj⟩ : ∃ j, t.slots.lookup p = some j := by
    cases hnone : t.slots.lookup p with
    | some j => exact ⟨j, rfl⟩
    | none => exact absurd (List.lookup_eq_none_iff.1 hnone _ hi) (by simp)
  obtain ⟨l, l', hl, _⟩ := List.lookup_eq_some_iff.1 hj
  have heq := List.inj_on_of_nodup_map ht.distinct (show (p, j) ∈ t.slots by simp [hl]) hi rfl
  rw [hj, (Prod.mk.inj heq).2]

/-- A slot is found for good. -/
theorem lookup (ht : t.Finished) (h : Later s t) {p : Pos} {i : Nat}
    (hi : s.slots.lookup p = some i) : t.slots.lookup p = some i := by
  obtain ⟨l, l', hl, _⟩ := List.lookup_eq_some_iff.1 hi
  exact ht.lookup_of_mem (h.slots (by simp [hl]))

/-- Only the entry has slots. -/
theorem values_eq (ht : t.Finished) {b : Nat} (hb : b ≠ 0) : t.func.values b = t.func.body b := by
  obtain ⟨n, hn⟩ := ht.slotted
  exact (hn.body_eq hb).symm

/-- Behind the first instruction of a block there is no `phi`. -/
theorem not_phi (ht : t.Finished) {b i j : Nat} {l : List Nat} {w : Instr}
    (hvalues : t.func.values b = i :: l) (hj : j ∈ l) (hw : t.func.instr? j = some w) :
    w.op ≠ .phi := by
  obtain ⟨dom, hcoded⟩ := ht.coded
  intro hphi
  have hnodup := hcoded.nodup b
  have hfirst := (hcoded.phis j w hw hphi).first
  obtain ⟨w', hw', hblock⟩ := (hcoded.placed b j).1 (hvalues ▸ List.mem_cons_of_mem i hj)
  obtain rfl : w = w' := Option.some.inj (hw.symm.trans hw')
  rw [hblock, hvalues] at hfirst
  rw [hvalues] at hnodup
  exact (List.nodup_cons.1 hnodup).1 (Option.some.inj hfirst ▸ hj)

end Finished

/-- An instruction stays where it was made. -/
theorem Later.holds (h : Later (s.placed c v) t) (hs : Inv dom pend s) (hc : s.current = some c)
    (hslot : v.op ≠ .alloca) : t.func.Holds s.spot v := by
  have hlt := hs.lt_size hc
  rw [spot_of_current hc]
  exact h.toKept.holds (Func.holds_placed hs.good.coded hlt hslot) (by simpa using hlt)

/-- An empty block that has been entered has no `phi` later on. -/
theorem Later.landing (h : Later (s.entered (some b)) t) (hb : b < s.func.blocks.size)
    (hne : b ≠ 0) (hbody : s.func.body b = []) : t.func.Landing b :=
  ⟨Nat.lt_of_lt_of_le hb h.size, hne, h.calm b rfl (.of_empty hbody)⟩

theorem spot_placed (hs : Inv dom pend s) (hc : s.current = some c) (hslot : v.op ≠ .alloca) :
    (s.placed c v).spot = s.spot.next := by
  rw [spot_of_current hc, spot_of_current (s := s.placed c v) hc, func_placed,
    Func.body_placed hs.good.coded (hs.lt_size hc) hslot]
  simp [Spot.next, Func.inserted]

/-- A block that is open has no end yet. -/
theorem Inv.opened (hs : Inv dom pend s) (hc : s.current = some c) : s.func.Open c :=
  hs.good.closed.opened c (by simp [hc])

end Builder

namespace Build

open Builder (Inv Step Value Later Finished Has)

variable {α β : Type} {pend : List Nat} {dom : Doms} {s : Builder} {vars : List Var}

theorem run_emitWith {c : Nat} (hc : s.current = some c) (op : Op) (type : Option Ty)
    (args : List Nat) (pos : Pos) (number : Int64) (aux : Option Aux) :
    (emitWith op type args pos number aux).run s = (emitAt c op type args pos number aux).run s := by
  unfold emitWith
  rw [run_bind, run_here hc]

/-- What the construction `m` makes from `s` on is `C` of the graph that is finished later,
of the spot where it starts, its result, and the spot where it ends. -/
def Codes (s : Builder) (m : Build α) (C : Builder → Spot → α → Spot → Prop) : Prop :=
  ∀ t, t.Finished → Later (m.run s).2 t → Later s t ∧ C t s.spot (m.run s).1 (m.run s).2.spot

/-- What `m` makes is `C` wherever the variables `vars` have slots. -/
def CodesAll (vars : List Var) (m : Build α) (C : Builder → Spot → α → Spot → Prop) : Prop :=
  ∀ pend dom s, Ready vars pend dom s → Codes s m C

namespace Codes

variable {C D : Builder → Spot → α → Spot → Prop} {m : Build α}

theorem pure {a : α} : Codes s (pure a) fun _ p b q => b = a ∧ q = p :=
  fun _ _ h => ⟨h, rfl, rfl⟩

theorem imp (h : Codes s m C) (himp : ∀ t p a q, t.Finished → C t p a q → D t p a q) :
    Codes s m D :=
  fun t ht hlater => (h t ht hlater).imp_right (himp t _ _ _ ht)

theorem bind {f : α → Build β} {E : α → Builder → Spot → β → Spot → Prop}
    (hm : Codes s m C) (hf : Codes (m.run s).2 (f (m.run s).1) (E (m.run s).1)) :
    Codes s (m >>= f) fun t p b q => ∃ a r, C t p a r ∧ E a t r b q := by
  intro t ht hlater
  rw [run_bind] at hlater ⊢
  obtain ⟨hlater, hE⟩ := hf t ht hlater
  obtain ⟨hlater, hC⟩ := hm t ht hlater
  exact ⟨hlater, _, _, hC, hE⟩

theorem of_eq {m' : Build α} (heq : m.run s = m'.run s) (h : Codes s m' C) : Codes s m C := by
  unfold Codes
  rw [heq]
  exact h

/-- Construction that goes on behind `m`. -/
theorem andThen {f : α → Build β} {Q : α → Doms → Builder → Prop}
    {E : α → Builder → Spot → β → Spot → Prop} (hm : Makes pend dom s m Q) (hC : Codes s m C)
    (hf : ∀ a dom' s', Step pend dom s dom' s' → s'.current.isSome = true → Q a dom' s' →
      Codes s' (f a) (E a)) :
    Codes s (m >>= f) fun t p b q => ∃ a r, C t p a r ∧ E a t r b q := by
  obtain ⟨dom', hstep, hcur, hQ⟩ := hm
  exact hC.bind (hf _ dom' _ hstep hcur hQ)

theorem require {x : Option α} {a : α} (hx : x = some a) (e : Fault) (d : α) :
    Codes s (Build.require x e d) fun _ p b q => b = a ∧ q = p := by
  subst hx
  exact .pure

theorem discard (h : Codes s m C) :
    Codes s (discard m) fun t p _ q => ∃ a, C t p a q := by
  intro t ht hlater
  obtain ⟨hlater, hC⟩ := h t ht hlater
  exact ⟨hlater, _, hC⟩

/-- An instruction at the end of the current block. -/
theorem place {c : Nat} {v : Nat → Nat → Instr} (hs : Inv dom pend s) (hc : s.current = some c)
    (hphi : ∀ i, (v c i).op ≠ .phi) (hslot : ∀ i, (v c i).op ≠ .alloca) :
    Codes s (place c (v c)) fun t p i q =>
      i = p.count ∧ q = p.next ∧ t.func.Holds p (v p.block p.count) := by
  intro t ht hlater
  rw [run_place] at hlater ⊢
  have hspot := Builder.spot_of_current hc
  refine ⟨hlater.placed hs.good.coded (hs.lt_size hc) (hslot _) (fun _ => hphi _)
    (hs.opened hc).not_ended, ?_, Builder.spot_placed hs hc (hslot _), ?_⟩
  · rw [hspot]
  · have hholds := hlater.holds hs hc (hslot _)
    rw [hspot] at hholds ⊢
    exact hholds

section

variable {op : Op} {type : Option Ty} {args : List Nat} {pos : Pos} {number : Int64}
  {aux : Option Aux}

theorem emitAt {c : Nat} (hs : Inv dom pend s) (hc : s.current = some c) (hphi : op ≠ .phi)
    (hslot : op ≠ .alloca) : Codes s (emitAt c op type args pos number aux) fun t p i q =>
      i = p.count ∧ q = p.next ∧ t.func.Holds p (p.instr op type args pos number aux) :=
  place (v := fun b i => { id := i, op, type, args := args.map some, block := b, number, aux, pos })
    hs hc (fun _ => hphi) fun _ => hslot

theorem emitWith (op : Op) (type : Option Ty) (args : List Nat) (pos : Pos) (number : Int64)
    (aux : Option Aux) (hs : Inv dom pend s) (hcur : s.current.isSome = true) (hphi : op ≠ .phi)
    (hslot : op ≠ .alloca) : Codes s (Build.emitWith op type args pos number aux) fun t p i q =>
      i = p.count ∧ q = p.next ∧ t.func.Holds p (p.instr op type args pos number aux) := by
  obtain ⟨c, hc⟩ := Option.isSome_iff_exists.1 hcur
  exact .of_eq (run_emitWith hc op type args pos number aux) (emitAt hs hc hphi hslot)

/-- Construction that goes on behind an instruction. -/
theorem emits (op : Op) (type : Option Ty) (args : List Nat) (pos : Pos) (number : Int64)
    (aux : Option Aux) {f : Nat → Build α} {E : Nat → Builder → Spot → α → Spot → Prop}
    (hs : Ready vars pend dom s) (hphi : op ≠ .phi) (hslot : op ≠ .alloca)
    (hargs : ∀ a ∈ args, ∃ w, Has dom s a w)
    (hsane : ∀ id block, Instr.fault? s.func
      { id, op, type, args := args.map some, block, number, aux, pos } = .ok none)
    (hf : ∀ i dom' s', Step pend dom s dom' s' → s'.current.isSome = true →
      (∃ v, Has dom' s' i v ∧ v.op = op ∧ v.type = type) → Codes s' (f i) (E i)) :
    Codes s (Build.emitWith op type args pos number aux >>= f) fun t p b q =>
      t.func.Holds p (p.instr op type args pos number aux) ∧ E p.count t p.next b q := by
  refine imp (andThen (Makes.emitWith hs.inv hs.current hphi hslot hargs hsane)
    (emitWith op type args pos number aux hs.inv hs.current hphi hslot) hf) ?_
  rintro t p b q _ ⟨_, _, ⟨rfl, rfl, hinstr⟩, hE⟩
  exact ⟨hinstr, hE⟩

/-- Construction that goes on behind an instruction without a value. -/
theorem discards (op : Op) (args : List Nat) (pos : Pos) (number : Int64) (aux : Option Aux)
    {m : Build α} {E : Builder → Spot → α → Spot → Prop} (hs : Ready vars pend dom s)
    (hphi : op ≠ .phi) (hslot : op ≠ .alloca) (hargs : ∀ a ∈ args, ∃ w, Has dom s a w)
    (hsane : ∀ id block, Instr.fault? s.func
      { id, op, type := none, args := args.map some, block, number, aux, pos } = .ok none)
    (hm : ∀ dom' s', Step pend dom s dom' s' → s'.current.isSome = true → Codes s' m E) :
    Codes s (do Functor.discard (Build.emitWith op none args pos number aux); m) fun t p b q =>
      t.func.Holds p (p.instr op none args pos number aux) ∧ E t p.next b q := by
  refine imp (andThen (Makes.emitWith hs.inv hs.current hphi hslot hargs hsane).discard
    (emitWith op none args pos number aux hs.inv hs.current hphi hslot).discard
    fun _ dom' s' hstep hcur _ => hm dom' s' hstep hcur) ?_
  rintro t p b q _ ⟨_, _, ⟨_, rfl, rfl, hinstr⟩, hE⟩
  exact ⟨hinstr, hE⟩

end

end Codes

end Build

end ClassLang.Graph
