import ClassLang.Proofs.Llvm.Writer

/-!
Steps of writing inside a block of the graph. Each of them succeeds, keeps what is kept, and
only uses what has been passed on every way to the current block.
-/

namespace ClassLang.Llvm

open Relation (ReflTransGen TransGen)

variable {α β : Type} {c : Context} {e : Env} {dom : Graph.Doms} {s s' s'' : Writer}
  {opens rest : List Nat} {b k k' i n : Nat} {x y : Operand} {type : Ty}

/-- A block has at most one that it goes on in. -/
theorem follows_unique {body : Body} (h : body.Follows n i k) (h' : body.Follows n i k') :
    k = k' := by
  obtain ⟨x, failing, ht, _⟩ := h
  obtain ⟨x', failing', ht', _⟩ := h'
  obtain ⟨_, _, rfl⟩ := Terminator.branch.inj (Option.some.inj (ht.symm.trans ht'))
  rfl

/-- A block that nothing follows is the last one of its chain. -/
theorem continues_to_last {body : Body} (h : body.Continues n i k) (h' : body.Continues n i k')
    (hlast : ∀ j, ¬body.Follows n k' j) : body.Continues n k k' := by
  have hunique : Relator.RightUnique (body.Follows n) := fun _ _ _ => follows_unique
  obtain hkk' | hk'k := ReflTransGen.total_of_right_unique hunique h h'
  · exact hkk'
  · obtain rfl | ⟨j, hj, _⟩ := hk'k.cases_head
    · exact .refl
    · exact absurd hj (hlast j)

/-- Nothing follows a block without an end. -/
theorem not_follows_of_open {body : Body} (hopen : body.terminator? k = none) (j : Nat) :
    ¬body.Follows n k j := by
  rintro ⟨_, _, ht, _⟩
  rw [hopen] at ht
  cases ht

/-- In the middle of block `b` of the graph. The blocks `rest` are still to be written. -/
structure Ready (c : Context) (e : Env) (dom : Graph.Doms) (b : Nat) (rest : List Nat)
    (s : Writer) : Prop where
  inv : Inv c e dom (s.current :: rest) s
  mem : b ∈ c.order
  within : Within c s b s.current
  blank : ∀ k ∈ rest, ∀ i, s.body.line? k i = none

/-- What has been written stays, and nothing else is changed. -/
structure Step (s s' : Writer) : Prop extends Extends s s' where
  results : s'.results = s.results
  stops : s'.ends = s.ends
  phis : s.phis ⊆ s'.phis

namespace Step

theorem refl (s : Writer) : Step s s := ⟨.refl s, rfl, rfl, List.Subset.refl _⟩

theorem trans (h : Step s s') (h' : Step s' s'') : Step s s'' :=
  ⟨h.toExtends.trans h'.toExtends, h'.results.trans h.results, h'.stops.trans h.stops,
    List.Subset.trans h.phis h'.phis⟩

end Step

/-- An operand that is known may be used at the end of the chain of the block. -/
theorem Known.used_at (h : Known c e dom b s x) (hb : b ∈ c.order) (hk : Within c s b k)
    (hlast : ∀ j, ¬s.body.Follows c.order.length k j) :
    ∀ n ∈ x.line?, Used c dom s n k (s.body.count k) := by
  intro n hn
  obtain ⟨a, ha, hmem, k', hk', i, l, hl, hnumber⟩ := h.passed n hn
  refine ⟨k', i, l, hl, hnumber, ?_⟩
  by_cases hab : a = b
  · subst hab
    obtain rfl | htrans := Relation.reflTransGen_iff_eq_or_transGen.1
      (continues_to_last hk' hk hlast)
    · exact Or.inl ⟨rfl, Body.lt_count hl⟩
    · exact Or.inr (Or.inl htrans)
  · have hdom := (List.mem_cons.1 ha).resolve_left hab
    exact Or.inr (Or.inr ⟨a, b, hdom, hab, hmem, hb, hk', hk⟩)

/-- An operand that is known may be used in the current block. -/
theorem Known.used (h : Known c e dom b s x) (hs : Ready c e dom b rest s) :
    ∀ n ∈ x.line?, Used c dom s n s.current (s.body.count s.current) :=
  h.used_at hs.mem hs.within
    (not_follows_of_open (hs.inv.terminator?_eq_none List.mem_cons_self))

/-- From `s` on the step `m` succeeds, with `Q` of its result. -/
def Writes (c : Context) (e : Env) (dom : Graph.Doms) (b : Nat) (rest : List Nat) (s : Writer)
    (m : Write α) (Q : α → Writer → Prop) : Prop :=
  Ready c e dom b rest s →
    ∃ a s', m.run s = .ok (a, s') ∧ Ready c e dom b rest s' ∧ Step s s' ∧ Q a s'

namespace Writes

variable {Q R : α → Writer → Prop}

theorem of_run (t : Writer) {m : Write α} {a : α} (hrun : m.run s = .ok (a, t))
    (h : Ready c e dom b rest s → Ready c e dom b rest t ∧ Step s t ∧ Q a t) :
    Writes c e dom b rest s m Q := fun hs => ⟨a, t, hrun, h hs⟩

theorem pure {a : α} (hQ : Q a s) : Writes c e dom b rest s (pure a) Q :=
  .of_run s rfl fun hs => ⟨hs, .refl s, hQ⟩

theorem imp {m : Write α} (h : Writes c e dom b rest s m Q)
    (himp : ∀ a s', Step s s' → Q a s' → R a s') : Writes c e dom b rest s m R := by
  intro hs
  obtain ⟨a, s', hrun, hs', hstep, hQ⟩ := h hs
  exact ⟨a, s', hrun, hs', hstep, himp a s' hstep hQ⟩

theorem bind {m : Write α} {f : α → Write β} {R : β → Writer → Prop}
    (hm : Writes c e dom b rest s m Q)
    (hf : ∀ a s', Step s s' → Q a s' → Writes c e dom b rest s' (f a) R) :
    Writes c e dom b rest s (m >>= f) R := by
  intro hs
  obtain ⟨a, s', hrun, hs', hstep, hQ⟩ := hm hs
  obtain ⟨a', s'', hrun', hs'', hstep', hR⟩ := hf a s' hstep hQ hs'
  refine ⟨a', s'', ?_, hs'', hstep.trans hstep', hR⟩
  rw [StateT.run_bind, hrun]
  exact hrun'

/-- The state can be looked at. -/
theorem look {f : Writer → Write β} {R : β → Writer → Prop}
    (h : Writes c e dom b rest s (f s) R) : Writes c e dom b rest s (do f (← get)) R := h

theorem discard {m : Write α} (h : Writes c e dom b rest s m Q) :
    Writes c e dom b rest s (discard m) fun _ s' => ∃ a, Q a s' :=
  h.bind fun a _ _ hQ => .pure ⟨a, hQ⟩

/-- What holds between steps may be used. -/
theorem ready {m : Write α} (h : Ready c e dom b rest s → Writes c e dom b rest s m Q) :
    Writes c e dom b rest s m Q := fun hs => h hs hs

/-- An instruction is written whose operands are known. -/
theorem emit {instr : Instr} (htyped : instr.Typed) (hphi : instr.isPhi = false)
    (hops : ∀ x ∈ instr.operands, Known c e dom b s x) :
    Writes c e dom b rest s (Write.emit instr) fun x s' => Made c e b s' x instr.type ∧
      ∃ k i n, x = .result n instr.type ∧ s'.body.line? k i = some ⟨n, instr⟩ := by
  refine .of_run (s.emitted instr) rfl fun hs => ?_
  have hlt := hs.inv.lt_size List.mem_cons_self
  have hextends := extends_emitted hlt instr
  have hline : (s.emitted instr).body.line? s.current (s.body.count s.current) =
      some ⟨s.next, instr⟩ := by rw [Writer.line?_emitted hlt, if_pos ⟨rfl, rfl⟩]
  have hinv := hs.inv.emit List.mem_cons_self instr []
    ⟨htyped, fun x hx => (hops x hx).typed, fun x hx => (hops x hx).used hs⟩
    (Or.inl ⟨hphi, rfl⟩)
  rw [List.append_nil] at hinv
  have hblank : ∀ k ∈ rest, ∀ i, (s.emitted instr).body.line? k i = none := by
    intro k hk i
    rw [Writer.line?_emitted hlt, if_neg]
    · exact hs.blank k hk i
    · rintro ⟨rfl, _⟩
      exact (List.nodup_cons.1 hs.inv.nodup).1 hk
  have hmade : Made c e b (s.emitted instr) (.result s.next instr.type) instr.type := by
    refine ⟨.result (v := visible c e (s.emitted instr)) hline, rfl, fun m hm => ?_⟩
    obtain rfl := Option.some.inj hm
    exact ⟨s.current, hextends.within hs.within, _, _, hline, rfl⟩
  exact ⟨⟨hinv, hs.mem, hextends.within hs.within, hblank⟩,
    ⟨hextends, rfl, rfl, List.Subset.refl _⟩, hmade, _, _, _, rfl, hline⟩

end Writes

/-! Operands -/

/-- A constant of the module or a parameter may be used everywhere. -/
theorem Known.const (htyped : x.Typed (visible c e s)) (hline : x.line? = none) :
    Known c e dom b s x where
  typed := htyped
  passed n hn := by
    rw [hline] at hn
    cases hn

theorem Made.const (htyped : x.Typed (visible c e s)) (htype : x.type = type)
    (hline : x.line? = none) : Made c e b s x type where
  typed := htyped
  type := htype
  inside n hn := by
    rw [hline] at hn
    cases hn

theorem Known.int {width : Nat} {m : Int} : Known c e dom b s (.int width m) := .const .int rfl

theorem Known.bool {v : Bool} : Known c e dom b s (.bool v) := .const .bool rfl

theorem Made.weaken (h : Made c e b s x type) (hs : Step s s') : Made c e b s' x type :=
  h.mono hs.toExtends

theorem Known.weaken (h : Known c e dom b s x) (hs : Step s s') : Known c e dom b s' x :=
  h.mono hs.toExtends

/-- A text has its place among the texts that are constants. -/
theorem noted_idxOf (s : Writer) (text : String) :
    (s.noted text).literals[s.literals.idxOf text]? = some text := by
  unfold Writer.noted
  by_cases hmem : text ∈ s.literals
  · simp [hmem]
  · simp [hmem]

/-- The text of number `i` is a constant of the module. -/
theorem literal_typed {text : String} :
    (Operand.firstByte (literalSymbol (s.literals.idxOf text)) (text.utf8ByteSize + 1)).Typed
      (visible c e (s.noted text)) := by
  have hglobal : (⟨literalSymbol (s.literals.idxOf text), .chars text⟩ : Global) ∈
      (visible c e (s.noted text)).globals := by
    apply List.mem_append_right
    apply List.mem_of_getElem? (i := s.literals.idxOf text)
    rw [textGlobals, List.getElem?_mapIdx, noted_idxOf]
    rfl
  exact .firstByte hglobal rfl

/-- The operand `arg` of the graph has been written as `x`, which may be used in block `b`. -/
structure Gives (c : Context) (e : Env) (dom : Graph.Doms) (b : Nat) (s : Writer)
    (arg : Option Nat) (type : Ty) (x : Operand) : Prop where
  stored : ∃ i, arg = some i ∧ s.results[i]? = some (some x)
  type : x.type = type
  known : Known c e dom b s x

/-- The operand `arg` of the graph has been written, and may be used in block `b`. -/
def Given (c : Context) (e : Env) (dom : Graph.Doms) (b : Nat) (s : Writer)
    (arg : Option Nat) (type : Ty) : Prop := ∃ x, Gives c e dom b s arg type x

variable {arg : Option Nat} {args : List (Option Nat)} {types : List Ty}

theorem Gives.weaken (h : Gives c e dom b s arg type x) (hs : Step s s') :
    Gives c e dom b s' arg type x where
  stored := by
    rw [hs.results]
    exact h.stored
  type := h.type
  known := h.known.weaken hs

theorem Given.weaken (h : Given c e dom b s arg type) (hs : Step s s') :
    Given c e dom b s' arg type := by
  obtain ⟨x, hx⟩ := h
  exact ⟨x, hx.weaken hs⟩

theorem weaken_all (h : List.Forall₂ (Given c e dom b s) args types) (hs : Step s s') :
    List.Forall₂ (Given c e dom b s') args types :=
  h.imp fun _ _ harg => harg.weaken hs

theorem exists_given {n : Nat} (h : List.Forall₂ (Given c e dom b s) args types)
    (hn : types[n]? = some type) : ∃ arg, args[n]? = some arg ∧ Given c e dom b s arg type := by
  induction h generalizing n with
  | nil => simp at hn
  | cons harg _ ih =>
      cases n with
      | zero =>
          obtain rfl := Option.some.inj hn
          exact ⟨_, rfl, harg⟩
      | succ n => exact ih hn

theorem operand_stored (c : Context) {i : Nat} (h : s.results[i]? = some (some x)) :
    (Write.operand c (some i)).run s = .ok (x, s) := by
  have hgetD : s.results.getD i none = some x := by rw [Array.getD_eq_getD_getElem?, h]; rfl
  unfold Write.operand
  dsimp only
  rw [StateT.run_bind, StateT.run_get, pure_bind]
  dsimp only
  rw [hgetD]
  rfl

theorem operand_run (h : Gives c e dom b s arg type x) :
    (Write.operand c arg).run s = .ok (x, s) := by
  obtain ⟨i, rfl, hi⟩ := h.stored
  exact operand_stored c hi

/-! Steps -/

namespace Writes

theorem operand (h : Given c e dom b s arg type) :
    Writes c e dom b rest s (Write.operand c arg) fun x s' => Gives c e dom b s' arg type x := by
  obtain ⟨x, hx⟩ := h
  exact .of_run s (operand_run hx) fun hs => ⟨hs, .refl s, hx⟩

theorem argument {v : Graph.Instr} {n : Nat} (h : List.Forall₂ (Given c e dom b s) v.args types)
    (hn : types[n]? = some type) :
    Writes c e dom b rest s (Write.argument c v n) fun x s' =>
      ∃ arg, v.args[n]? = some arg ∧ Gives c e dom b s' arg type x := by
  obtain ⟨arg, harg, hgiven⟩ := exists_given h hn
  unfold Write.argument
  rw [harg]
  exact (Writes.operand hgiven).imp fun x s' _ hx => ⟨arg, rfl, hx⟩

/-- The operands of a call are written one after the other. -/
theorem operands (h : List.Forall₂ (Given c e dom b s) args types) :
    Writes c e dom b rest s (args.mapM (Write.operand c)) fun xs s' =>
      xs.map (·.type) = types ∧ ∀ x ∈ xs, Known c e dom b s' x := by
  induction args generalizing s types with
  | nil =>
      cases h
      exact .pure ⟨rfl, fun _ hx => absurd hx List.not_mem_nil⟩
  | cons arg args ih =>
      cases h with
      | cons harg hargs =>
      rw [List.mapM_cons]
      refine (Writes.operand harg).bind fun x s₁ h₁ hx => ?_
      refine (ih (weaken_all hargs h₁)).bind fun xs s₂ h₂ hxs => .pure ⟨?_, ?_⟩
      · rw [List.map_cons, hx.type, hxs.1]
      · exact List.forall_mem_cons.2 ⟨hx.known.weaken h₂, hxs.2⟩

theorem literal (text : String) :
    Writes c e dom b rest s (Write.literal text) fun x s' => Made c e b s' x .bytes := by
  refine .of_run (s.noted text) rfl fun hs => ?_
  have hextends := extends_noted s text
  exact ⟨⟨hs.inv.note text, hs.mem, hextends.within hs.within, hs.blank⟩,
    ⟨hextends, rfl, rfl, List.Subset.refl _⟩, .const literal_typed rfl rfl⟩

theorem icmp {pred : IntPred} {width : Nat} (hxtype : x.type = .int width)
    (hytype : y.type = .int width) (hx : Known c e dom b s x) (hy : Known c e dom b s y) :
    Writes c e dom b rest s (Write.icmp pred x y) fun z s' => Made c e b s' z .i1 := by
  unfold Write.icmp
  rw [hxtype]
  exact (Writes.emit (.icmp hxtype hytype) rfl (by simp [Instr.operands, hx, hy])).imp
    fun _ _ _ hz => hz.1

theorem fcmp {pred : FloatPred} (hxtype : x.type = .double) (hytype : y.type = .double)
    (hx : Known c e dom b s x) (hy : Known c e dom b s y) :
    Writes c e dom b rest s (Write.fcmp pred x y) fun z s' => Made c e b s' z .i1 := by
  unfold Write.fcmp
  rw [hxtype]
  exact (Writes.emit (.fcmp hxtype hytype) rfl (by simp [Instr.operands, hx, hy])).imp
    fun _ _ _ hz => hz.1

theorem store (htype : y.type = .ptr x.type) (hx : Known c e dom b s x)
    (hy : Known c e dom b s y) :
    Writes c e dom b rest s (Write.store x y) fun _ _ => True := by
  unfold Write.store
  rw [htype]
  simp only [Ty.same_self, if_true]
  exact (Writes.emit (.store htype) rfl (by simp [Instr.operands, hx, hy])).discard.imp
    fun _ _ _ _ => trivial

theorem call {f : Operand} {xs : List Operand} {result : Ty} (hf : f.type = .ptr (.func result types))
    (hxs : xs.map (·.type) = types) (hknown : Known c e dom b s f)
    (hargs : ∀ x ∈ xs, Known c e dom b s x) :
    Writes c e dom b rest s (Write.call f xs) fun x s' => Made c e b s' x result ∧
      ∃ k i n, x = .result n result ∧ s'.body.line? k i = some ⟨n, .call f xs⟩ := by
  have htype : (Instr.call f xs).type = result := by rw [Instr.type, hf, Instr.callResult]
  have hemit : Writes c e dom b rest s _ _ := Writes.emit (.call hf hxs) rfl
    (List.forall_mem_cons.2 ⟨hknown, hargs⟩)
  rw [htype] at hemit
  unfold Write.call
  rw [hf]
  exact hemit

theorem element (hx : x.type = .ptr type) (hknown : Known c e dom b s x) (index : Int) :
    Writes c e dom b rest s (Write.element type x index) fun z s' =>
      Made c e b s' z (.ptr type) := by
  unfold Write.element
  rw [hx]
  exact (Writes.emit (.element hx rfl) rfl
    (by simp [Instr.operands, hknown, Operand.word, Known.int])).imp fun _ _ _ hz => hz.1

section

variable (hb : b ∈ c.order)

include hb

theorem fieldAddress (hx : x.type = .bytes) (hknown : Known c e dom b s x) (offset : Int)
    (elem : Ty) : Writes c e dom b rest s (Write.fieldAddress x offset elem) fun z s' =>
      Made c e b s' z (.ptr elem) := by
  unfold Write.fieldAddress
  refine (Writes.element hx hknown offset).bind fun p s₁ _ hp => ?_
  exact (Writes.emit (.bitcast hp.type) rfl (by simp [Instr.operands, hp.known hb])).imp
    fun _ _ _ hz => hz.1

theorem quotient (hxtype : x.type = .i64) (hytype : y.type = .i64) (hx : Known c e dom b s x)
    (hy : Known c e dom b s y) :
    Writes c e dom b rest s (Write.quotient x y) fun z s' => Made c e b s' z .i64 := by
  unfold Write.quotient
  refine (Writes.icmp hytype rfl hy .int).bind fun m s₁ h₁ hm => ?_
  have hselect : (Instr.select m (.word 1) y).Typed := .select hm.type hytype.symm
  refine (Writes.emit hselect rfl (by
    simp [Instr.operands, hm.known hb, hy.weaken h₁, Operand.word, Known.int])).bind
    fun safe s₂ h₂ ⟨hsafe, _⟩ => ?_
  have hx₂ := (hx.weaken h₁).weaken h₂
  have hdiv : (Instr.binary .sdiv x safe).Typed := .int rfl hxtype hsafe.type
  refine (Writes.emit hdiv rfl (by
    simp [Instr.operands, hsafe.known hb, hx₂])).bind fun q s₃ h₃ ⟨hq, _⟩ => ?_
  have hneg : (Instr.binary .sub (.word 0) x).Typed := .int rfl rfl hxtype
  refine (Writes.emit hneg rfl (by
    simp [Instr.operands, hx₂.weaken h₃, Operand.word, Known.int])).bind
    fun r s₄ h₄ ⟨hr, _⟩ => ?_
  have hm₄ : Known c e dom b s₄ m := (((hm.weaken h₂).weaken h₃).weaken h₄).known hb
  have hsame : r.type = q.type := by rw [hr.type, hq.type]; exact hxtype.symm
  refine (Writes.emit (.select hm.type hsame) rfl (by
    simp [Instr.operands, hm₄, hr.known hb, (hq.weaken h₄).known hb])).imp
    fun z s₅ _ ⟨hz, _⟩ => ?_
  rwa [Instr.type, hr.type] at hz

theorem remainder (hxtype : x.type = .i64) (hytype : y.type = .i64) (hx : Known c e dom b s x)
    (hy : Known c e dom b s y) :
    Writes c e dom b rest s (Write.remainder x y) fun z s' => Made c e b s' z .i64 := by
  unfold Write.remainder
  refine (Writes.icmp hytype rfl hy .int).bind fun m s₁ h₁ hm => ?_
  have hselect : (Instr.select m (.word 1) y).Typed := .select hm.type hytype.symm
  refine (Writes.emit hselect rfl (by
    simp [Instr.operands, hm.known hb, hy.weaken h₁, Operand.word, Known.int])).bind
    fun safe s₂ h₂ ⟨hsafe, _⟩ => ?_
  have hrem : (Instr.binary .srem x safe).Typed := .int rfl hxtype hsafe.type
  refine (Writes.emit hrem rfl (by
    simp [Instr.operands, hsafe.known hb, (hx.weaken h₁).weaken h₂])).bind
    fun r s₃ h₃ ⟨hr, _⟩ => ?_
  have hsame : (Operand.word 0).type = r.type := by rw [hr.type]; exact hxtype.symm
  refine (Writes.emit (.select hm.type hsame) rfl (by
    simp [Instr.operands, hr.known hb, ((hm.weaken h₂).weaken h₃).known hb, Operand.word,
      Known.int])).imp fun z s₄ _ ⟨hz, _⟩ => hz

end

end Writes

/-! Divisions -/

theorem Writer.line?_eq_none (h : s.blocks.size ≤ k) : s.body.line? k i = none := by
  cases hl : s.body.line? k i with
  | none => rfl
  | some l => exact absurd (Writer.line?_lt hl) (Nat.not_lt.2 h)

theorem Inv.perm {opens' : List Nat} (h : Inv c e dom opens s) (hperm : opens.Perm opens') :
    Inv c e dom opens' s :=
  { h with
    opened := fun k => hperm.mem_iff.symm.trans (h.opened k)
    nodup := hperm.nodup_iff.1 h.nodup }

/-- A new block is still to be written. -/
theorem Ready.grow (h : Ready c e dom b rest s) (label : String) :
    Ready c e dom b (s.blocks.size :: rest) (s.grown label) where
  inv := (h.inv.grow label).perm (.swap ..)
  mem := h.mem
  within := (extends_grown s label).within h.within
  blank := by
    intro k hk i
    rw [Writer.line?_grown]
    rcases List.mem_cons.1 hk with rfl | hk
    · exact Writer.line?_eq_none (Nat.le_refl _)
    · exact h.blank k hk i

theorem step_grown (s : Writer) (label : String) : Step s (s.grown label) :=
  ⟨extends_grown s label, rfl, rfl, List.Subset.refl _⟩

/-- The state behind a division that fails in block `failing` and goes on in block `ok`. -/
def Writer.divided (s : Writer) (z : Operand) (failing ok : Nat) (text : String) : Writer :=
  (((((s.closed (.branch z failing ok)).noted text).entered failing).emitted
    (.call abort.address [.firstByte (literalSymbol (s.literals.idxOf text))
      (text.utf8ByteSize + 1)])).closed .unreachable).entered ok

section

variable {failing ok : Nat} {z : Operand}

/-- The branch of a division. -/
theorem Ready.branch (h : Ready c e dom b (ok :: failing :: rest) s)
    (hfailing : c.order.length ≤ failing) (hok : c.order.length ≤ ok) (hlt : s.current < ok)
    (hfresh : ∀ k, failing ∉ s.body.succs k ∧ ok ∉ s.body.succs k)
    (hz : Made c e b s z .i1) :
    Inv c e dom (ok :: failing :: rest) (s.closed (.branch z failing ok)) ∧
      Within c (s.closed (.branch z failing ok)) b ok := by
  have hcur : s.current < s.blocks.size := h.inv.lt_size List.mem_cons_self
  have hnone := h.inv.terminator?_eq_none List.mem_cons_self
  have hextends := extends_closed hcur hnone (.branch z failing ok)
  have hz' : Known c e dom b (s.closed (.branch z failing ok)) z := (hz.known h.mem).mono hextends
  have hne : failing ≠ ok := by
    rintro rfl
    have hnodup := h.inv.nodup
    simp at hnodup
  have hterm : (s.closed (.branch z failing ok)).body.terminator? s.current =
      some (.branch z failing ok) := by rw [Writer.terminator?_closed hcur, if_pos rfl]
  have hend : EndOk c e dom (s.closed (.branch z failing ok)) s.current
      (.branch z failing ok) := by
    refine ⟨.branch hz.type, ?_, ?_, ?_⟩
    · simpa [Terminator.operands] using hz'.typed
    · intro x hx n hn
      obtain rfl := List.mem_singleton.1 hx
      exact (((hz.known h.mem).used h n hn).mono hextends).later (hextends.count_le _)
    · exact .split hfailing (by simpa using h.inv.lt_size (k := failing) (by simp)) hok
        (by simpa using h.inv.lt_size (k := ok) (by simp)) hlt hne
  constructor
  · have hinv := h.inv.close List.mem_cons_self hend fun o ho _ k => by
      rcases List.mem_pair.1 ho with rfl | rfl
      · exact (hfresh k).1
      · exact (hfresh k).2
    rwa [List.erase_cons_head] at hinv
  · exact (hextends.within h.within).tail ⟨z, failing, hterm, hok⟩

/-- A division that fails ends the program. -/
theorem Inv.fail (h : Inv c e dom (ok :: s.current :: rest) s) (hbehind : c.order.length ≤ s.current)
    {x : Operand} (hx : x.Typed (visible c e s)) (htype : x.type = .bytes) (hline : x.line? = none) :
    Inv c e dom (ok :: rest) ((s.emitted (.call abort.address [x])).closed .unreachable) ∧
      Extends s ((s.emitted (.call abort.address [x])).closed .unreachable) := by
  have hknown : ∀ y ∈ [abort.address, x], y.Typed (visible c e s) ∧ y.line? = none := by
    have habort : abort ∈ (visible c e s).funcs := by simp [visible, Declared.all, supportFuncs]
    have hconst : abort.address.line? = none := rfl
    simp [hx, hline, hconst, Operand.Typed.func habort]
  have hemit := h.emit (List.mem_cons_of_mem _ List.mem_cons_self) (.call abort.address [x]) []
    ⟨.call rfl (by simp [abort, htype]), fun y hy => (hknown y hy).1, fun y hy n hn => by
      rw [(hknown y hy).2] at hn
      cases hn⟩ (Or.inl ⟨rfl, rfl⟩)
  rw [List.append_nil] at hemit
  have hinv := hemit.close (t := .unreachable) (List.mem_cons_of_mem _ List.mem_cons_self)
    ⟨.unreachable, by simp [Terminator.operands], by simp [Terminator.operands], .failed hbehind⟩
    (by simp [Terminator.targets])
  have hne : ok ≠ s.current := by
    rintro rfl
    have hnodup := h.nodup
    simp at hnodup
  have herase : (ok :: s.current :: rest).erase s.current = ok :: rest := by
    rw [List.erase_cons_tail (by simpa using hne), List.erase_cons_head]
  have hcur : s.current < s.blocks.size := h.lt_size (by simp)
  change Inv c e dom ((ok :: s.current :: rest).erase s.current) _ at hinv
  rw [herase] at hinv
  apply And.intro hinv
  apply (extends_emitted hcur _).trans (extends_closed (by simpa using hcur) _ _)
  rw [Writer.terminator?_emitted, Writer.current_emitted]
  exact h.terminator?_eq_none (by simp)

theorem line?_divided (hfailing : failing < s.blocks.size) (text : String) (hk : k ≠ failing) :
    (s.divided z failing ok text).body.line? k i = s.body.line? k i := by
  unfold Writer.divided
  rw [Writer.body_entered, Writer.line?_closed, Writer.line?_emitted, if_neg fun h => hk h.1,
    Writer.body_entered, Writer.body_noted, Writer.line?_closed]
  simpa [Writer.entered, Writer.noted] using hfailing

/-- What follows a division is in the same chain. -/
theorem Ready.divide (h : Ready c e dom b (ok :: failing :: rest) s)
    (hfailing : c.order.length ≤ failing) (hok : c.order.length ≤ ok) (hlt : s.current < ok)
    (hfresh : ∀ k, failing ∉ s.body.succs k ∧ ok ∉ s.body.succs k)
    (hz : Made c e b s z .i1) (text : String) :
    Ready c e dom b rest (s.divided z failing ok text) ∧ Step s (s.divided z failing ok text) := by
  have hcur : s.current < s.blocks.size := h.inv.lt_size List.mem_cons_self
  obtain ⟨hinv, hwithin⟩ := h.branch hfailing hok hlt hfresh hz
  have hnoted := (hinv.note text).enter failing
  obtain ⟨hlast, hends⟩ := Inv.fail
    (s := ((s.closed (.branch z failing ok)).noted text).entered failing) hnoted hfailing
    (x := .firstByte (literalSymbol (s.literals.idxOf text)) (text.utf8ByteSize + 1))
    (literal_typed (s := s.closed (.branch z failing ok))) rfl rfl
  have hbranch := extends_closed hcur (h.inv.terminator?_eq_none List.mem_cons_self)
    (.branch z failing ok)
  have hrest := ((extends_noted (s.closed (.branch z failing ok)) text).trans
    (extends_entered _ failing)).trans (hends.trans (extends_entered _ ok))
  have hsize : failing < s.blocks.size := h.inv.lt_size (by simp)
  have hnodup := h.inv.nodup
  refine ⟨⟨hlast.enter ok, h.mem, hrest.within hwithin, fun k hk i => ?_⟩,
    ⟨hbranch.trans hrest, rfl, rfl, List.Subset.refl _⟩⟩
  rw [line?_divided hsize]
  · exact h.blank k (by simp [hk]) i
  · rintro rfl
    simp [hk] at hnodup

end

/-- A division whose divisor is checked goes on in a new block. -/
theorem Writes.checkDivisor (hc : Sound c e dom) (pos : Pos) (hytype : y.type = .i64)
    (hy : Known c e dom b s y) :
    Writes c e dom b rest s (Write.checkDivisor pos y) fun _ _ => True := by
  intro hs
  let counted : Writer := { s with splits := s.splits + 1 }
  let failing := counted.blocks.size
  let grown := counted.grown s!"divzero.{counted.splits}"
  let ok := grown.blocks.size
  let both := grown.grown s!"divok.{counted.splits}"
  let check : Instr := .icmp .eq y (.word 0)
  have hcount : Step s counted := ⟨⟨Nat.le_refl _, fun _ _ _ h => h, fun _ _ h => h,
    List.prefix_refl _⟩, rfl, rfl, List.Subset.refl _⟩
  have hcounted : Ready c e dom b rest counted :=
    ⟨hs.inv.congr hcount.toExtends (fun _ _ => rfl) rfl rfl rfl hs.inv.opened hs.inv.nodup
      (fun _ _ ht => Or.inl ht) hs.inv.single, hs.mem, hs.within, hs.blank⟩
  have hgrow : Step s both := (hcount.trans (step_grown counted _)).trans (step_grown grown _)
  have hboth : Ready c e dom b (ok :: failing :: rest) both := (hcounted.grow _).grow _
  have hwrites : Writes c e dom b (ok :: failing :: rest) both (Write.icmp .eq y (.word 0))
      fun z s' => Made c e b s' z .i1 := .icmp hytype rfl (hy.weaken hgrow) .int
  obtain ⟨z, s', hrun, hready, hicmp, hz⟩ := hwrites hboth
  have hemit : (Write.icmp .eq y (.word 0)).run both =
      .ok (.result both.next .i1, both.emitted check) := by
    unfold Write.icmp
    rw [hytype]
    rfl
  obtain ⟨rfl, rfl⟩ := Prod.mk.inj (Except.ok.inj (hrun.symm.trans hemit))
  -- control goes to neither of the new blocks yet
  have hsize : ok = s.blocks.size + 1 := Writer.size_grown counted _
  have hfresh : ∀ k, failing ∉ (both.emitted check).body.succs k ∧
      ok ∉ (both.emitted check).body.succs k := by
    intro k
    have hsuccs : (both.emitted check).body.succs k = s.body.succs k := by
      rw [Writer.succs_emitted, Writer.succs_grown, Writer.succs_grown]
      rfl
    rw [hsuccs]
    constructor
    · exact fun hmem => Nat.lt_irrefl _ (hs.inv.succs_lt hc.inside hmem)
    · intro hmem
      have hlt := hs.inv.succs_lt hc.inside hmem
      omega
  have hlt : s.current < ok := by
    have hlt := hs.inv.lt_size List.mem_cons_self
    omega
  have hok : c.order.length ≤ ok := Nat.le_trans hs.inv.size (by omega)
  let text := (if pos.isValid then pos.text ++ ": " else "") ++ "integer divide by zero"
  have hall : (Write.checkDivisor pos y).run s = (Write.icmp .eq y (.word 0)).run both >>=
      fun p => .ok ((), p.2.divided p.1 failing ok text) := rfl
  rw [hemit] at hall
  obtain ⟨hready', hdivide⟩ := hready.divide hs.inv.size hok hlt hfresh hz text
  exact ⟨(), _, hall, hready', (hgrow.trans hicmp).trans hdivide, trivial⟩

end ClassLang.Llvm
