import ClassLang.Proofs.Graph.Walk
import ClassLang.Proofs.Llvm.Rules
import ClassLang.Proofs.Llvm.Typing

/-!
What is kept while a function is written. A block of the graph becomes a chain of blocks: a
division ends the block that it is written to and goes on in a new one. All that has been
written stays where it is, so that a result can be used wherever the chain of its block has
been passed.
-/

namespace ClassLang.Llvm

open Relation (ReflTransGen TransGen)

/-! What one step of writing changes -/

namespace Body

variable {body : Body} {k i : Nat}

/-- Instructions have the places below their number. -/
theorem lt_count {l : Line} (h : body.line? k i = some l) : i < body.count k := by
  obtain ⟨b, hb, hl⟩ := Option.bind_eq_some_iff.1 h
  rw [count, hb, Option.map_some, Option.getD_some]
  exact (List.getElem?_eq_some_iff.1 hl).1

theorem exists_line? (h : i < body.count k) : ∃ l, body.line? k i = some l := by
  unfold count at h
  unfold line?
  cases hb : body[k]? with
  | none => simp [hb] at h
  | some b =>
      rw [hb, Option.map_some, Option.getD_some] at h
      exact ⟨_, List.getElem?_eq_getElem h⟩

theorem mem_succs {o : Nat} : o ∈ body.succs k ↔ ∃ t, body.terminator? k = some t ∧
    o ∈ t.targets := by
  unfold succs
  cases body.terminator? k <;> simp

end Body

namespace Writer

variable {s : Writer} {k j : Nat}

/-- The blocks written so far. -/
def body (s : Writer) : Body := s.blocks.toList

/-- The state with one more instruction in the current block. -/
def emitted (s : Writer) (i : Instr) : Writer :=
  { s with
    next := s.next + 1
    blocks := s.blocks.modify s.current fun b => { b with lines := b.lines ++ [⟨s.next, i⟩] } }

/-- The state with an end of the current block. -/
def closed (s : Writer) (t : Terminator) : Writer :=
  { s with blocks := s.blocks.modify s.current fun b => { b with terminator := some t } }

/-- The state with one more block. -/
def grown (s : Writer) (label : String) : Writer :=
  { s with blocks := s.blocks.push { label } }

/-- The state where instructions go to block `b`. -/
def entered (s : Writer) (b : Nat) : Writer := { s with current := b }

/-- The state where the text `x` is a constant. -/
def noted (s : Writer) (x : String) : Writer :=
  { s with literals := if s.literals.contains x then s.literals else s.literals ++ [x] }

theorem length_body (s : Writer) : s.body.length = s.blocks.size := Array.length_toList

theorem line?_lt {l : Line} (h : s.body.line? k j = some l) : k < s.blocks.size := by
  obtain ⟨b, hb, _⟩ := Option.bind_eq_some_iff.1 h
  rw [← length_body]
  exact (List.getElem?_eq_some_iff.1 hb).1

@[simp] theorem size_emitted (s : Writer) (i : Instr) : (s.emitted i).blocks.size = s.blocks.size :=
  Array.size_modify

@[simp] theorem size_closed (s : Writer) (t : Terminator) :
    (s.closed t).blocks.size = s.blocks.size := Array.size_modify

@[simp] theorem size_grown (s : Writer) (label : String) :
    (s.grown label).blocks.size = s.blocks.size + 1 := Array.size_push ..

@[simp] theorem current_emitted (s : Writer) (i : Instr) : (s.emitted i).current = s.current := rfl

@[simp] theorem current_closed (s : Writer) (t : Terminator) :
    (s.closed t).current = s.current := rfl

@[simp] theorem current_entered (s : Writer) (b : Nat) : (s.entered b).current = b := rfl

@[simp] theorem body_entered (s : Writer) (b : Nat) : (s.entered b).body = s.body := rfl

@[simp] theorem body_noted (s : Writer) (x : String) : (s.noted x).body = s.body := rfl

theorem getElem?_emitted (i : Instr) : (s.emitted i).body[k]? = if k = s.current then
    s.body[k]?.map fun b => { b with lines := b.lines ++ [⟨s.next, i⟩] } else s.body[k]? := by
  rw [body, body, emitted, Array.getElem?_toList, Array.getElem?_modify, Array.getElem?_toList]
  by_cases h : k = s.current
  · rw [if_pos h, if_pos h.symm]
  · rw [if_neg h, if_neg (Ne.symm h)]

theorem getElem?_closed (t : Terminator) : (s.closed t).body[k]? = if k = s.current then
    s.body[k]?.map fun b => { b with terminator := some t } else s.body[k]? := by
  rw [body, body, closed, Array.getElem?_toList, Array.getElem?_modify, Array.getElem?_toList]
  by_cases h : k = s.current
  · rw [if_pos h, if_pos h.symm]
  · rw [if_neg h, if_neg (Ne.symm h)]

theorem exists_current (h : s.current < s.blocks.size) : ∃ b, s.body[s.current]? = some b := by
  rw [body, Array.getElem?_toList, Array.getElem?_eq_getElem h]
  exact ⟨_, rfl⟩

theorem line?_emitted (h : s.current < s.blocks.size) (i : Instr) :
    (s.emitted i).body.line? k j =
      if k = s.current ∧ j = s.body.count k then some ⟨s.next, i⟩ else s.body.line? k j := by
  unfold Body.line? Body.count
  rw [getElem?_emitted]
  by_cases hk : k = s.current
  · subst hk
    obtain ⟨b, hb⟩ := exists_current h
    simp only [hb, Option.map_some, Option.bind_some, Option.getD_some, if_true, true_and]
    rw [List.getElem?_append]
    split
    next hlt => rw [if_neg (Nat.ne_of_lt hlt)]
    next hge =>
      by_cases hj : j = b.lines.length
      · simp [hj]
      · rw [if_neg hj, List.getElem?_eq_none (by simp; omega), List.getElem?_eq_none (by omega)]
  · simp [hk]

@[simp] theorem terminator?_emitted (i : Instr) :
    (s.emitted i).body.terminator? k = s.body.terminator? k := by
  unfold Body.terminator?
  rw [getElem?_emitted]
  split
  · cases s.body[k]? <;> rfl
  · rfl

@[simp] theorem line?_closed (t : Terminator) :
    (s.closed t).body.line? k j = s.body.line? k j := by
  unfold Body.line?
  rw [getElem?_closed]
  split
  · cases s.body[k]? <;> rfl
  · rfl

theorem terminator?_closed (h : s.current < s.blocks.size) (t : Terminator) :
    (s.closed t).body.terminator? k =
      if k = s.current then some t else s.body.terminator? k := by
  unfold Body.terminator?
  rw [getElem?_closed]
  by_cases hk : k = s.current
  · subst hk
    obtain ⟨b, hb⟩ := exists_current h
    simp [hb]
  · simp [hk]

theorem getElem?_grown (label : String) : (s.grown label).body[k]? =
    if k = s.blocks.size then some { label } else s.body[k]? := by
  rw [body, body, grown, Array.getElem?_toList, Array.getElem?_push, Array.getElem?_toList]

@[simp] theorem line?_grown (label : String) :
    (s.grown label).body.line? k j = s.body.line? k j := by
  unfold Body.line?
  rw [getElem?_grown]
  split
  next heq =>
    have hnone : s.body[k]? = none := by rw [body, Array.getElem?_toList]; simp [heq]
    rw [hnone]
    rfl
  next => rfl

@[simp] theorem terminator?_grown (label : String) :
    (s.grown label).body.terminator? k = s.body.terminator? k := by
  unfold Body.terminator?
  rw [getElem?_grown]
  split
  next heq =>
    have hnone : s.body[k]? = none := by rw [body, Array.getElem?_toList]; simp [heq]
    rw [hnone]
    rfl
  next => rfl

@[simp] theorem succs_emitted (i : Instr) : (s.emitted i).body.succs k = s.body.succs k := by
  unfold Body.succs
  rw [terminator?_emitted]

@[simp] theorem succs_grown (label : String) :
    (s.grown label).body.succs k = s.body.succs k := by
  unfold Body.succs
  rw [terminator?_grown]

end Writer

/-! What has been written -/

/-- The functions that calls may refer to. -/
def Declared.all (d : Declared) : List Func :=
  supportFuncs ++ [compareTexts] ++ d.hosts ++ d.funcs.map (·.2)

/-- What a call names is declared. -/
theorem Declared.mem_all {d : Declared} {callee : Option Graph.Callee} {head : Func}
    (h : d.find? callee = some head) : head ∈ d.all := by
  unfold Declared.find? at h
  simp only [Declared.all, List.mem_append]
  split at h
  · exact Or.inr (List.mem_map_of_mem (Check.mem_of_lookup h))
  · exact Or.inl (Or.inr (List.mem_of_find?_eq_some h))
  all_goals cases h

/-- The constants for texts. -/
def textGlobals (literals : List String) : List Global :=
  literals.mapIdx fun i x => ⟨literalSymbol i, .chars x⟩

/-- The chains of blocks. A division in block `k` goes on in block `k'`, which is one of those
behind the first `n`. -/
def Body.Follows (body : Body) (n k k' : Nat) : Prop :=
  ∃ x failing, body.terminator? k = some (.branch x failing k') ∧ n ≤ k'

/-- Block `k'` belongs to the chain of block `k`, and comes behind it or is `k`. -/
def Body.Continues (body : Body) (n : Nat) : Nat → Nat → Prop := ReflTransGen (body.Follows n)

variable {c : Context} {e : Env} {dom : Graph.Doms} {s s' s'' : Writer} {opens : List Nat}
  {k k' i b : Nat} {x : Operand} {t : Terminator}

/-- What operands may refer to while a function is written. -/
def visible (c : Context) (e : Env) (s : Writer) : Visible where
  funcs := c.declared.all
  globals := (Layouts.build e.table).classes.flatMap (classGlobals c.declared) ++
    textGlobals s.literals
  params := c.head.params
  body := s.body

/-- Block `k` of what is written belongs to block `b` of the graph. -/
def Within (c : Context) (s : Writer) (b k : Nat) : Prop :=
  s.body.Continues c.order.length (c.order.idxOf b) k

/-- Every way to block `k` passes block `k'` before. -/
def Before (c : Context) (dom : Graph.Doms) (s : Writer) (k' k : Nat) : Prop :=
  TransGen (s.body.Follows c.order.length) k' k ∨
    ∃ a b, a ∈ dom b ∧ a ≠ b ∧ a ∈ c.order ∧ b ∈ c.order ∧ Within c s a k' ∧ Within c s b k

/-- What has been written stays where it is. -/
structure Extends (s s' : Writer) : Prop where
  size : s.blocks.size ≤ s'.blocks.size
  lines : ∀ k i l, s.body.line? k i = some l → s'.body.line? k i = some l
  ends : ∀ k t, s.body.terminator? k = some t → s'.body.terminator? k = some t
  literals : s.literals <+: s'.literals

namespace Extends

theorem refl (s : Writer) : Extends s s :=
  ⟨Nat.le_refl _, fun _ _ _ h => h, fun _ _ h => h, List.prefix_refl _⟩

theorem trans (h : Extends s s') (h' : Extends s' s'') : Extends s s'' where
  size := Nat.le_trans h.size h'.size
  lines k i l hl := h'.lines k i l (h.lines k i l hl)
  ends k t ht := h'.ends k t (h.ends k t ht)
  literals := h.literals.trans h'.literals

theorem follows (h : Extends s s') {n : Nat} (hf : s.body.Follows n k k') :
    s'.body.Follows n k k' := by
  obtain ⟨x, failing, ht, hn⟩ := hf
  exact ⟨x, failing, h.ends _ _ ht, hn⟩

theorem within (h : Extends s s') (hw : Within c s b k) : Within c s' b k :=
  ReflTransGen.mono (fun _ _ hf => h.follows hf) _ _ hw

theorem before (h : Extends s s') (hb : Before c dom s k' k) : Before c dom s' k' k := by
  obtain hb | ⟨a, b, hdom, hne, ha, hb, hk', hk⟩ := hb
  · exact Or.inl (TransGen.mono (fun _ _ hf => h.follows hf) _ _ hb)
  · exact Or.inr ⟨a, b, hdom, hne, ha, hb, h.within hk', h.within hk⟩

theorem globals (h : Extends s s') : (visible c e s).globals ⊆ (visible c e s').globals := by
  obtain ⟨more, hmore⟩ := h.literals
  intro g hg
  rcases List.mem_append.1 hg with hg | hg
  · exact List.mem_append_left _ hg
  · refine List.mem_append_right _ ?_
    rw [← hmore, textGlobals, List.mapIdx_append]
    exact List.mem_append_left _ hg

theorem typed (h : Extends s s') (hx : x.Typed (visible c e s)) : x.Typed (visible c e s') :=
  hx.mono (fun f hf => ⟨f, hf, rfl⟩) h.globals rfl fun k i l hl => ⟨l, h.lines k i l hl, rfl, rfl⟩

end Extends

/-- The result number `n` is that of an instruction in block `k`. -/
def Writer.Computes (s : Writer) (n k : Nat) : Prop :=
  ∃ i l, s.body.line? k i = some l ∧ l.number = n

theorem Writer.Computes.mono {n : Nat} (h : s.Computes n k) (hs : Extends s s') :
    s'.Computes n k := by
  obtain ⟨i, l, hl, hn⟩ := h
  exact ⟨i, l, hs.lines k i l hl, hn⟩

/-- The operand `x` may be used in what block `b` of the graph becomes. -/
structure Known (c : Context) (e : Env) (dom : Graph.Doms) (b : Nat) (s : Writer) (x : Operand) :
    Prop where
  typed : x.Typed (visible c e s)
  passed : ∀ n ∈ x.line?, ∃ a ∈ b :: dom b, a ∈ c.order ∧ ∃ k, Within c s a k ∧ s.Computes n k

/-- The operand `x` of the type `type` has been made in what block `b` of the graph becomes. -/
structure Made (c : Context) (e : Env) (b : Nat) (s : Writer) (x : Operand) (type : Ty) :
    Prop where
  typed : x.Typed (visible c e s)
  type : x.type = type
  inside : ∀ n ∈ x.line?, ∃ k, Within c s b k ∧ s.Computes n k

theorem Known.mono (h : Known c e dom b s x) (hs : Extends s s') : Known c e dom b s' x where
  typed := hs.typed h.typed
  passed n hn := by
    obtain ⟨a, ha, hmem, k, hk, hcomputes⟩ := h.passed n hn
    exact ⟨a, ha, hmem, k, hs.within hk, hcomputes.mono hs⟩

theorem Made.mono {type : Ty} (h : Made c e b s x type) (hs : Extends s s') :
    Made c e b s' x type where
  typed := hs.typed h.typed
  type := h.type
  inside n hn := by
    obtain ⟨k, hk, hcomputes⟩ := h.inside n hn
    exact ⟨k, hs.within hk, hcomputes.mono hs⟩

theorem Made.known {type : Ty} (h : Made c e b s x type) (hb : b ∈ c.order) :
    Known c e dom b s x where
  typed := h.typed
  passed n hn := ⟨b, List.mem_cons_self, hb, h.inside n hn⟩

/-! What is kept -/

/-- The result number `n` may be used before instruction `i` of block `k`. -/
def Used (c : Context) (dom : Graph.Doms) (s : Writer) (n k i : Nat) : Prop :=
  ∃ k' i' l, s.body.line? k' i' = some l ∧ l.number = n ∧
    ((k' = k ∧ i' < i) ∨ Before c dom s k' k)

theorem Used.mono {n : Nat} (h : Used c dom s n k i) (hs : Extends s s') :
    Used c dom s' n k i := by
  obtain ⟨k', i', l, hl, hn, hplace⟩ := h
  exact ⟨k', i', l, hs.lines k' i' l hl, hn, hplace.imp_right hs.before⟩

/-- Instruction number `i` of block `k` obeys the rules. -/
structure LineOk (c : Context) (e : Env) (dom : Graph.Doms) (s : Writer) (k i : Nat)
    (instr : Instr) : Prop where
  typed : instr.Typed
  operands : ∀ x ∈ instr.operands, x.Typed (visible c e s)
  used : ∀ x ∈ instr.operands, ∀ n ∈ x.line?, Used c dom s n k i

/-- Where the end of block `k` leads. A division that fails ends the program; one that does
not goes on in a new block; and the last block of a chain ends as the block of the graph. -/
inductive Leads (c : Context) (s : Writer) (k : Nat) : Terminator → Prop
  | split {x : Operand} {failing ok : Nat} (behind : c.order.length ≤ failing)
      (known : failing < s.blocks.size) (behind' : c.order.length ≤ ok) (known' : ok < s.blocks.size)
      (next : k < ok) (ne : failing ≠ ok) : Leads c s k (.branch x failing ok)
  | failed (behind : c.order.length ≤ k) : Leads c s k .unreachable
  | last {t : Terminator} {b : Nat} (mem : b ∈ c.order) (within : Within c s b k)
      (targets : t.targets = (c.graph.succs b).map c.order.idxOf) : Leads c s k t

/-- The end of block `k` obeys the rules. -/
structure EndOk (c : Context) (e : Env) (dom : Graph.Doms) (s : Writer) (k : Nat)
    (t : Terminator) : Prop where
  typed : t.Typed c.head.result
  operands : ∀ x ∈ t.operands, x.Typed (visible c e s)
  used : ∀ x ∈ t.operands, ∀ n ∈ x.line?, Used c dom s n k (s.body.count k)
  leads : Leads c s k t

/-- What the operand `x` for the instruction `v` of the graph refers to, where more is to be
said than its type. -/
def Form (s : Writer) (v : Graph.Instr) (x : Operand) : Prop :=
  match v.op with
  | .phi => ∃ n type, x = .result n type ∧ (n, v) ∈ s.phis
  | .dispatchEntry => ∃ k i n impl type, x = .result n (.ptr type) ∧
      s.body.line? k i = some ⟨n, .bitcast impl (.ptr type)⟩
  | .callIndirect => ∃ k i n entry callee args, x = .result n (Instr.callResult callee.type) ∧
      s.body.line? k i = some ⟨n, .call callee args⟩ ∧ v.args[0]? = some (some entry) ∧
      s.results[entry]? = some (some callee)
  | _ => True

/-- What is kept while a function is written, where the blocks `opens` have no end yet. -/
structure Inv (c : Context) (e : Env) (dom : Graph.Doms) (opens : List Nat) (s : Writer) :
    Prop where
  size : c.order.length ≤ s.blocks.size
  opened : ∀ k, k ∈ opens ↔ k < s.blocks.size ∧ s.body.terminator? k = none
  nodup : opens.Nodup
  fresh : ∀ k i l, s.body.line? k i = some l → l.number < s.next
  numbers : ∀ k i l k' i' l', s.body.line? k i = some l → s.body.line? k' i' = some l' →
    l.number = l'.number → k = k' ∧ i = i'
  lines : ∀ k i l, s.body.line? k i = some l → LineOk c e dom s k i l.instr
  phi_lines : ∀ k i l, s.body.line? k i = some l → l.instr.isPhi = true →
    i = 0 ∧ ∃ v, (l.number, v) ∈ s.phis
  phis : ∀ n v, (n, v) ∈ s.phis → ∃ j type, c.graph.instr? j = some v ∧ v.op = .phi ∧
    resultType? v = some type ∧
    s.body.line? (c.order.idxOf v.block) 0 = some ⟨n, .phi type []⟩
  ends : ∀ k t, s.body.terminator? k = some t → EndOk c e dom s k t
  single : ∀ k k' o, c.order.length ≤ o → o ∈ s.body.succs k → o ∈ s.body.succs k' → k = k'
  results : ∀ i x, s.results[i]? = some (some x) → ∃ v type, c.graph.instr? i = some v ∧
    resultType? v = some type ∧ Made c e v.block s x type ∧ Form s v x

/-! Keeping it -/

theorem Extends.count_le (h : Extends s s') (k : Nat) : s.body.count k ≤ s'.body.count k := by
  by_contra hlt
  obtain ⟨l, hl⟩ := Body.exists_line? (Nat.lt_of_not_le hlt)
  exact Nat.lt_irrefl _ (Body.lt_count (h.lines k _ l hl))

theorem Used.later {n j : Nat} (h : Used c dom s n k i) (hj : i ≤ j) : Used c dom s n k j := by
  obtain ⟨k', i', l, hl, hn, hplace⟩ := h
  exact ⟨k', i', l, hl, hn, hplace.imp_left fun ⟨hk, hi⟩ => ⟨hk, Nat.lt_of_lt_of_le hi hj⟩⟩

theorem LineOk.mono {instr : Instr} (h : LineOk c e dom s k i instr) (hs : Extends s s') :
    LineOk c e dom s' k i instr where
  typed := h.typed
  operands x hx := hs.typed (h.operands x hx)
  used x hx n hn := (h.used x hx n hn).mono hs

theorem Leads.mono (h : Leads c s k t) (hs : Extends s s') : Leads c s' k t := by
  cases h with
  | split behind known behind' known' next ne =>
      exact .split behind (Nat.lt_of_lt_of_le known hs.size) behind'
        (Nat.lt_of_lt_of_le known' hs.size) next ne
  | failed behind => exact .failed behind
  | last mem within targets => exact .last mem (hs.within within) targets

theorem EndOk.mono (h : EndOk c e dom s k t) (hs : Extends s s') : EndOk c e dom s' k t where
  typed := h.typed
  operands x hx := hs.typed (h.operands x hx)
  used x hx n hn := ((h.used x hx n hn).mono hs).later (hs.count_le k)
  leads := h.leads.mono hs

/-- What an operand refers to stays what it is. -/
theorem Form.mono {v : Graph.Instr} (h : Form s v x) (hs : Extends s s') (hphis : s.phis ⊆ s'.phis)
    (hresults : ∀ (i : Nat) (x : Operand), s.results[i]? = some (some x) →
      s'.results[i]? = some (some x)) : Form s' v x := by
  unfold Form at h ⊢
  split
  next heq =>
    simp only [heq] at h
    obtain ⟨n, type, hx, hmem⟩ := h
    exact ⟨n, type, hx, hphis hmem⟩
  next heq =>
    simp only [heq] at h
    obtain ⟨k, i, n, impl, type, hx, hl⟩ := h
    exact ⟨k, i, n, impl, type, hx, hs.lines _ _ _ hl⟩
  next heq =>
    simp only [heq] at h
    obtain ⟨k, i, n, entry, callee, args, hx, hl, hargs, hcallee⟩ := h
    exact ⟨k, i, n, entry, callee, args, hx, hs.lines _ _ _ hl, hargs, hresults _ _ hcallee⟩
  next => exact trivial

theorem extends_emitted (h : s.current < s.blocks.size) (instr : Instr) :
    Extends s (s.emitted instr) where
  size := by simp
  lines k i l hl := by
    rw [Writer.line?_emitted h, if_neg fun heq => Nat.ne_of_lt (Body.lt_count hl) heq.2]
    exact hl
  ends k t ht := by simpa using ht
  literals := List.prefix_refl _

theorem extends_closed (h : s.current < s.blocks.size)
    (hopen : s.body.terminator? s.current = none) (t : Terminator) : Extends s (s.closed t) where
  size := by simp
  lines k i l hl := by simpa using hl
  ends k u hu := by
    rw [Writer.terminator?_closed h, if_neg]
    · exact hu
    · rintro rfl
      rw [hopen] at hu
      cases hu
  literals := List.prefix_refl _

theorem extends_grown (s : Writer) (label : String) : Extends s (s.grown label) where
  size := by simp
  lines k i l hl := by simpa using hl
  ends k t ht := by simpa using ht
  literals := List.prefix_refl _

theorem extends_entered (s : Writer) (b : Nat) : Extends s (s.entered b) :=
  ⟨Nat.le_refl _, fun _ _ _ h => h, fun _ _ h => h, List.prefix_refl _⟩

theorem extends_noted (s : Writer) (text : String) : Extends s (s.noted text) where
  size := Nat.le_refl _
  lines _ _ _ hl := hl
  ends _ _ ht := ht
  literals := by
    unfold Writer.noted
    dsimp only
    split
    · exact List.prefix_refl _
    · exact List.prefix_append _ _

namespace Inv

theorem lt_size (h : Inv c e dom opens s) (hk : k ∈ opens) : k < s.blocks.size :=
  ((h.opened k).1 hk).1

theorem terminator?_eq_none (h : Inv c e dom opens s) (hk : k ∈ opens) :
    s.body.terminator? k = none := ((h.opened k).1 hk).2

/-- Control only goes to blocks that are there. -/
theorem succs_lt (h : Inv c e dom opens s) (hinside : ∀ a b, b ∈ c.graph.succs a → b ∈ c.order)
    {o : Nat} (ho : o ∈ s.body.succs k) : o < s.blocks.size := by
  obtain ⟨t, ht, ho⟩ := Body.mem_succs.1 ho
  cases (h.ends k t ht).leads with
  | split _ known _ known' =>
      rcases List.mem_pair.1 ho with rfl | rfl
      · exact known
      · exact known'
  | failed => cases ho
  | last _ _ targets =>
      rw [targets] at ho
      obtain ⟨b, hb, rfl⟩ := List.mem_map.1 ho
      exact Nat.lt_of_lt_of_le (List.idxOf_lt_length_of_mem (hinside _ _ hb)) h.size

/-- An instruction is written at the end of the current block. A phi is the first one of its
block, and is noted. -/
theorem emit (h : Inv c e dom opens s) (hcur : s.current ∈ opens) (instr : Instr)
    (more : List (Nat × Graph.Instr))
    (hok : LineOk c e dom s s.current (s.body.count s.current) instr)
    (hmore : (instr.isPhi = false ∧ more = []) ∨ ∃ j v type, instr = .phi type [] ∧
      more = [(s.next, v)] ∧ s.body.count s.current = 0 ∧ s.current = c.order.idxOf v.block ∧
      c.graph.instr? j = some v ∧ v.op = .phi ∧ resultType? v = some type) :
    Inv c e dom opens ({ s with phis := s.phis ++ more }.emitted instr) := by
  have hlt := h.lt_size hcur
  have hs := extends_emitted (s := { s with phis := s.phis ++ more }) hlt instr
  have hline : ∀ k i, ({ s with phis := s.phis ++ more }.emitted instr).body.line? k i =
      if k = s.current ∧ i = s.body.count k then some ⟨s.next, instr⟩ else s.body.line? k i :=
    fun k i => Writer.line?_emitted (s := { s with phis := s.phis ++ more }) hlt instr
  have hold : Extends s ({ s with phis := s.phis ++ more }.emitted instr) :=
    ⟨hs.size, hs.lines, hs.ends, hs.literals⟩
  have hcases : ∀ {k i l}, ({ s with phis := s.phis ++ more }.emitted instr).body.line? k i =
      some l → (k = s.current ∧ i = s.body.count s.current ∧ l = ⟨s.next, instr⟩) ∨
        s.body.line? k i = some l := by
    intro k i l hl
    rw [hline] at hl
    split at hl
    next heq =>
      obtain ⟨rfl, rfl⟩ := heq
      exact Or.inl ⟨rfl, rfl, (Option.some.inj hl).symm⟩
    next => exact Or.inr hl
  have hterm : ∀ k, ({ s with phis := s.phis ++ more }.emitted instr).body.terminator? k =
      s.body.terminator? k := fun k => Writer.terminator?_emitted instr
  constructor
  · simpa using h.size
  · intro k
    rw [hterm, Writer.size_emitted]
    exact h.opened k
  · exact h.nodup
  · intro k i l hl
    obtain ⟨_, _, rfl⟩ | hl := hcases hl
    · exact Nat.lt_succ_self _
    · exact Nat.lt_succ_of_lt (h.fresh k i l hl)
  · intro k i l k' i' l' hl hl' hnumber
    obtain ⟨rfl, rfl, rfl⟩ | hl := hcases hl <;> obtain ⟨rfl, rfl, rfl⟩ | hl' := hcases hl'
    · exact ⟨rfl, rfl⟩
    · exact absurd hnumber (Nat.ne_of_gt (h.fresh _ _ _ hl'))
    · exact absurd hnumber (Nat.ne_of_lt (h.fresh _ _ _ hl))
    · exact h.numbers k i l k' i' l' hl hl' hnumber
  · intro k i l hl
    obtain ⟨rfl, rfl, rfl⟩ | hl := hcases hl
    · exact hok.mono hold
    · exact (h.lines k i l hl).mono hold
  · intro k i l hl hphi
    obtain ⟨rfl, rfl, rfl⟩ | hl := hcases hl
    · obtain ⟨hnot, _⟩ | ⟨j, v, type, _, rfl, hcount, _⟩ := hmore
      · rw [hnot] at hphi
        cases hphi
      · exact ⟨hcount, v, by simp [Writer.emitted]⟩
    · obtain ⟨hi, v, hv⟩ := h.phi_lines k i l hl hphi
      exact ⟨hi, v, List.mem_append_left _ hv⟩
  · intro n v hv
    rcases List.mem_append.1 hv with hmem | hmem
    · obtain ⟨j, type, hj, hop, htype, hl⟩ := h.phis n v hmem
      exact ⟨j, type, hj, hop, htype, hold.lines _ _ _ hl⟩
    · obtain ⟨_, hnil⟩ | ⟨j, v', type, rfl, hsingle, hcount, hblock, hj, hop, htype⟩ := hmore
      · rw [hnil] at hmem
        cases hmem
      · rw [hsingle] at hmem
        obtain ⟨rfl, rfl⟩ := Prod.mk.inj (List.mem_singleton.1 hmem)
        refine ⟨j, type, hj, hop, htype, ?_⟩
        rw [hline, ← hblock, hcount, if_pos ⟨rfl, rfl⟩]
  · intro k t ht
    rw [hterm] at ht
    exact (h.ends k t ht).mono hold
  · intro k k' o ho hk hk'
    unfold Body.succs at hk hk'
    rw [hterm] at hk hk'
    exact h.single k k' o ho hk hk'
  · intro i x hx
    obtain ⟨v, type, hv, htype, hmade, hform⟩ := h.results i x hx
    exact ⟨v, type, hv, htype, hmade.mono hold,
      hform.mono hold (List.subset_append_left _ _) fun _ _ hx => hx⟩

/-- What has been written is the same in both states, apart from the ends of blocks. -/
theorem congr (h : Inv c e dom opens s) {opens' : List Nat} (hs : Extends s s')
    (hlines : ∀ k i, s'.body.line? k i = s.body.line? k i) (hnext : s'.next = s.next)
    (hphis : s'.phis = s.phis) (hresults : s'.results = s.results)
    (hopened : ∀ k, k ∈ opens' ↔ k < s'.blocks.size ∧ s'.body.terminator? k = none)
    (hnodup : opens'.Nodup)
    (hends : ∀ k t, s'.body.terminator? k = some t →
      s.body.terminator? k = some t ∨ EndOk c e dom s' k t)
    (hsingle : ∀ k k' o, c.order.length ≤ o → o ∈ s'.body.succs k → o ∈ s'.body.succs k' → k = k') :
    Inv c e dom opens' s' where
  size := Nat.le_trans h.size hs.size
  opened := hopened
  nodup := hnodup
  fresh k i l hl := by
    rw [hnext]
    exact h.fresh k i l (hlines k i ▸ hl)
  numbers k i l k' i' l' hl hl' := h.numbers k i l k' i' l' (hlines k i ▸ hl) (hlines k' i' ▸ hl')
  lines k i l hl := (h.lines k i l (hlines k i ▸ hl)).mono hs
  phi_lines k i l hl hphi := by
    rw [hphis]
    exact h.phi_lines k i l (hlines k i ▸ hl) hphi
  phis n v hv := by
    rw [hphis] at hv
    obtain ⟨j, type, hj, hop, htype, hl⟩ := h.phis n v hv
    exact ⟨j, type, hj, hop, htype, hs.lines _ _ _ hl⟩
  ends k t ht := (hends k t ht).elim (fun ht => (h.ends k t ht).mono hs) id
  single := hsingle
  results i x hx := by
    rw [hresults] at hx
    obtain ⟨v, type, hv, htype, hmade, hform⟩ := h.results i x hx
    refine ⟨v, type, hv, htype, hmade.mono hs, hform.mono hs ?_ ?_⟩
    · rw [hphis]
      exact List.Subset.refl _
    · rw [hresults]
      exact fun _ _ hx => hx

/-- A new block is empty and has no end. -/
theorem grow (h : Inv c e dom opens s) (label : String) :
    Inv c e dom (s.blocks.size :: opens) (s.grown label) := by
  have hnone : s.body.terminator? s.blocks.size = none := by
    unfold Body.terminator?
    rw [List.getElem?_eq_none (Nat.le_of_eq s.length_body)]
    rfl
  apply h.congr (extends_grown s label) (fun _ _ => Writer.line?_grown label) rfl rfl rfl
  · intro k
    rw [Writer.size_grown, Writer.terminator?_grown, List.mem_cons, h.opened k]
    constructor
    · rintro (rfl | ⟨hk, ht⟩)
      · exact ⟨Nat.lt_succ_self _, hnone⟩
      · exact ⟨Nat.lt_succ_of_lt hk, ht⟩
    · rintro ⟨hk, ht⟩
      rcases Nat.lt_succ_iff_lt_or_eq.1 hk with hk | rfl
      · exact Or.inr ⟨hk, ht⟩
      · exact Or.inl rfl
  · exact List.nodup_cons.2 ⟨fun hmem => Nat.lt_irrefl _ (h.lt_size hmem), h.nodup⟩
  · intro k t ht
    rw [Writer.terminator?_grown] at ht
    exact Or.inl ht
  · intro k k' o ho hk hk'
    rw [Writer.succs_grown] at hk hk'
    exact h.single k k' o ho hk hk'

theorem note (h : Inv c e dom opens s) (text : String) : Inv c e dom opens (s.noted text) :=
  h.congr (extends_noted s text) (fun _ _ => rfl) rfl rfl rfl h.opened h.nodup
    (fun _ _ ht => Or.inl ht) h.single

theorem enter (h : Inv c e dom opens s) (b : Nat) : Inv c e dom opens (s.entered b) :=
  h.congr (extends_entered s b) (fun _ _ => rfl) rfl rfl rfl h.opened h.nodup
    (fun _ _ ht => Or.inl ht) h.single

/-- The current block gets its end. New blocks that it leads to are led to from nowhere else. -/
theorem close (h : Inv c e dom opens s) (hcur : s.current ∈ opens) {t : Terminator}
    (hok : EndOk c e dom (s.closed t) s.current t)
    (hnew : ∀ o ∈ t.targets, c.order.length ≤ o → ∀ k, o ∉ s.body.succs k) :
    Inv c e dom (opens.erase s.current) (s.closed t) := by
  have hlt := h.lt_size hcur
  have hnone := h.terminator?_eq_none hcur
  have hsuccs : ∀ k o, o ∈ (s.closed t).body.succs k →
      (k = s.current ∧ o ∈ t.targets) ∨ o ∈ s.body.succs k := by
    intro k o ho
    unfold Body.succs at ho ⊢
    rw [Writer.terminator?_closed hlt] at ho
    split at ho
    next heq => exact Or.inl ⟨heq, ho⟩
    next => exact Or.inr ho
  apply h.congr (extends_closed hlt hnone t) (fun _ _ => Writer.line?_closed t) rfl rfl rfl
  · intro k
    rw [Writer.size_closed, Writer.terminator?_closed hlt, h.nodup.mem_erase_iff, h.opened k]
    by_cases hk : k = s.current <;> simp [hk]
  · exact h.nodup.erase _
  · intro k u hu
    rw [Writer.terminator?_closed hlt] at hu
    split at hu
    next heq =>
      obtain rfl := Option.some.inj hu
      exact Or.inr (heq ▸ hok)
    next => exact Or.inl hu
  · intro k k' o ho hk hk'
    obtain ⟨rfl, hmem⟩ | hk := hsuccs k o hk <;> obtain ⟨rfl, hmem'⟩ | hk' := hsuccs k' o hk'
    · rfl
    · exact absurd hk' (hnew o hmem ho k')
    · exact absurd hk (hnew o hmem' ho k)
    · exact h.single k k' o ho hk hk'

end Inv

end ClassLang.Llvm

/-!
What the blocks that a function is written in have to do with its graph: they are all the
blocks of the graph, and what must be passed before a block is written before it.
-/

namespace ClassLang.Llvm

/-- A function is written from a graph that obeys the rules, for the declaration that it
was built for. -/
structure Sound (c : Context) (e : Env) (dom : Graph.Doms) : Prop where
  declared : c.declared = e.declared
  head : c.head = e.head
  method : c.graph.isMethod = e.method
  good : c.graph.Good dom []
  typed : GraphTyped e c.graph
  order : c.order = c.graph.reversePostOrder
  void : c.graph.hasResult = false → c.head.result = .void

namespace Sound

variable {c : Context} {e : Env} {dom : Graph.Doms} {a b : Nat}

theorem mem_order (h : Sound c e dom) : b ∈ c.order ↔ b ∈ c.graph.order := by
  rw [h.order]
  obtain ⟨hentry, hclosed⟩ := Graph.Func.mem_reversePostOrder h.good.wired.entry
    h.good.wired.mem_zero h.good.wired.known fun a _ c hc => (h.good.wired.inside a c hc).2
  constructor
  · exact fun hb => (hclosed b hb).1
  · intro hb
    induction h.good.closed.reach b hb List.not_mem_nil with
    | entry => exact hentry
    | step _ hedge ih => exact (hclosed _ (ih (h.good.wired.inside _ _ hedge).1)).2 _ hedge

theorem inside (h : Sound c e dom) (a b : Nat) (hb : b ∈ c.graph.succs a) : b ∈ c.order :=
  h.mem_order.2 (h.good.wired.inside a b hb).2

theorem mem_of_pred (h : Sound c e dom) (ha : a ∈ c.graph.preds b) : a ∈ c.order :=
  h.mem_order.2 (h.good.wired.inside a b ((h.good.wired.edges a b).2 ha)).1

/-- The entry is written first, and each other block behind one that leads to it. -/
theorem ordered (h : Sound c e dom) :
    ∃ rest, c.order = 0 :: rest ∧ Graph.Ordered c.graph.preds 0 rest := by
  rw [h.order]
  exact Graph.Func.reversePostOrder_ordered h.good.wired.entry
    fun a _ b hb => (h.good.wired.edges a b).1 hb

theorem nodup (h : Sound c e dom) : c.order.Nodup := by
  obtain ⟨rest, horder, hordered⟩ := h.ordered
  rw [horder]
  exact hordered.nodup

theorem idxOf_zero (h : Sound c e dom) : c.order.idxOf 0 = 0 := by
  obtain ⟨rest, horder, _⟩ := h.ordered
  rw [horder, List.idxOf_cons_self]

theorem length_pos (h : Sound c e dom) : 0 < c.order.length := by
  obtain ⟨rest, horder, _⟩ := h.ordered
  rw [horder]
  exact Nat.succ_pos _

theorem idxOf_lt (_ : Sound c e dom) (hb : b ∈ c.order) : c.order.idxOf b < c.order.length :=
  List.idxOf_lt_length_of_mem hb

theorem idxOf_inj (_ : Sound c e dom) (ha : a ∈ c.order)
    (heq : c.order.idxOf a = c.order.idxOf b) : a = b :=
  (List.idxOf_inj ha).1 heq

/-- What must be passed before a block is written before it. -/
theorem dom_before (h : Sound c e dom) : ∀ n b, c.order.idxOf b = n → b ∈ c.order →
    ∀ a ∈ dom b, a ≠ b → a ∈ c.order ∧ c.order.idxOf a < c.order.idxOf b := by
  intro n
  induction n using Nat.strongRecOn with
  | _ n ih =>
  rintro b rfl hb a ha hne
  obtain ⟨rest, horder, hordered⟩ := h.ordered
  rcases List.mem_cons.1 (horder ▸ hb) with rfl | hrest
  · rw [h.good.covered.root] at ha
    cases ha
  · obtain ⟨p, hp, hsub⟩ := hordered.pred b hrest
    have hlt : c.order.idxOf p < c.order.idxOf b := by
      rw [horder]
      exact Graph.idxOf_lt_of_sublist hordered.nodup hsub
    have hmem := h.mem_of_pred hp
    by_cases hap : a = p
    · subst hap
      exact ⟨hmem, hlt⟩
    · have hdom := (List.mem_cons.1 (h.good.covered.edges p b hp ha)).resolve_left hap
      obtain ⟨ha, hlt'⟩ := ih _ hlt p rfl hmem a hdom hap
      exact ⟨ha, Nat.lt_trans hlt' hlt⟩

end Sound

end ClassLang.Llvm
