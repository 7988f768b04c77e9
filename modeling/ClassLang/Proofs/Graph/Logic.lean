import ClassLang.Proofs.Graph.Stage

/-!
Logical operators. The right operand is computed in a block of its own, and the paths with
it and without it meet in a block that starts with a `phi`.
-/

namespace ClassLang.Graph

namespace Build

open Builder (Inv Step Has Stage Mine Value)
open Func (Blank Target)

variable {α β : Type} {pend : List Nat} {dom : Doms} {s : Builder} {vars : List Var}

/-- Every one of the variables `vars` has a slot. -/
def Bound (vars : List Var) (s : Builder) : Prop :=
  ∀ v ∈ vars, (s.slots.lookup v.pos).isSome = true

theorem Bound.mono {s' : Builder} (h : Bound vars s) (hslots : s.slots <:+ s'.slots) :
    Bound vars s' := by
  obtain ⟨l, hl⟩ := hslots
  intro v hv
  rw [← hl, List.lookup_append, Option.isSome_or, h v hv, Bool.or_true]

/-- A new slot comes before all others. -/
theorem Bound.cons {s' : Builder} {v : Var} {slot : Nat} (h : Bound vars s)
    (hslots : s'.slots = (v.pos, slot) :: s.slots) : Bound (v :: vars) s' := by
  intro w hw
  rw [hslots, List.lookup_cons]
  rcases List.mem_cons.1 hw with rfl | hw
  · simp
  · cases w.pos == v.pos
    · exact h w hw
    · rfl

/-- Construction can go on, and the variables `vars` have slots. -/
structure Ready (vars : List Var) (pend : List Nat) (dom : Doms) (s : Builder) : Prop where
  inv : Inv dom pend s
  current : s.current.isSome = true
  bound : Bound vars s

theorem Ready.next {dom' : Doms} {s' : Builder} (h : Ready vars pend dom s)
    (hstep : Step pend dom s dom' s') (hcur : s'.current.isSome = true) :
    Ready vars pend dom' s' :=
  ⟨hstep.inv, hcur, h.bound.mono hstep.slots⟩

/-- What can be constructed wherever the variables `vars` have slots. -/
def Computes (vars : List Var) (m : Build α) (Q : α → Doms → Builder → Prop) : Prop :=
  ∀ pend dom s, Ready vars pend dom s → Makes pend dom s m Q

theorem grows_three (f : Func) : f.grows 3 = f.grown.grown.grown := rfl

-- changes of a graph are only known by what they do
attribute [local irreducible] Func.inserted Func.grown Func.without Func.linked Func.ended
  Func.branched Func.grows

/-- The paths of a logical operator meet in a block that only the one without the right
operand leads to so far. -/
theorem run_join {dom' : Doms} {s' : Builder} {c short merge right i : Nat} (pos : Pos)
    (h : Stage dom s dom' (c :: merge :: pend) s') (hc : s'.current = some c) (hmine : s.Mine c)
    (hreach : s'.func.Reach c) (hmerge : s'.func.Target merge)
    (hnew : s.func.blocks.size ≤ merge) (hempty : s'.func.body merge = [])
    (hpreds : s'.func.preds merge = [short]) (hshort : s'.func.Avail dom' short i)
    (hright : Value .bool right dom' s') (hdom : dom' merge ⊆ c :: dom' c)
    (hdeeper : ∀ a ∈ s.current, a :: dom a ⊆ dom' merge) :
    ∃ j s'', (Lower.join pos i right merge).run s' = (j, s'') ∧ Step pend dom s dom' s'' ∧
      s''.current.isSome = true ∧ Value .bool j dom' s'' := by
  obtain ⟨s₁, hs₁⟩ : ∃ s₁, s₁ = (s'.withFunc (s'.func.linked c merge)).entered (some merge) :=
    ⟨_, rfl⟩
  obtain ⟨phi, hphi⟩ : ∃ v : Instr, v =
      { id := s₁.func.instrs.size, op := .phi, type := some .bool, args := [i, right].map some,
        block := merge, pos } := ⟨_, rfl⟩
  have hlt := h.good.wired.known merge hmerge.order
  have hclt := h.good.wired.known c (h.good.closed.order c (by simp))
  have hopens : (c :: merge :: pend).erase c = merge :: pend := List.erase_cons_head ..
  have h₁ : Stage dom s dom' (merge :: pend) s₁ := by
    rw [hs₁, ← hopens]
    exact (h.link (by simp) hmine hreach hmerge hnew hdom).enter _
  have hpred₁ : s₁.func.preds merge = [short, c] := by
    rw [hs₁, Builder.func_entered, Builder.func_withFunc, Func.preds_linked _ _ _ _ hlt,
      if_pos rfl, hpreds]
    rfl
  have havail : ∀ {b j}, s'.func.Avail dom' b j → s₁.func.Avail dom' b j := by
    intro b j hj
    refine hj.mono fun v hv => ?_
    rw [hs₁, Builder.func_entered, Builder.func_withFunc, Func.instr?_linked, hv]
  have h₂ : Stage dom s dom' (merge :: pend) (s₁.placed merge phi) := by
    refine h₁.join ?_ hmerge.entry hnew ?_ (by rw [hphi]) (by rw [hphi]) (by rw [hphi])
      (by subst hphi; rfl) ?_
    · exact h₁.good.closed.order merge (by simp)
    · rw [hs₁, Builder.func_entered, Builder.func_withFunc, Func.body_linked, hempty]
    · obtain ⟨v, hv, _⟩ := hright
      rw [hpred₁, hphi]
      exact .cons ⟨i, rfl, havail hshort⟩ (.cons ⟨right, rfl, havail (hv.avail hc)⟩ .nil)
  have hcur₁ : (s₁.placed merge phi).current = some merge := by rw [hs₁]; rfl
  have hreach₁ : (s₁.placed merge phi).func.Reach merge :=
    h₂.good.reach_of_pred (a := c) (by rw [Builder.func_placed, Func.preds_inserted, hpred₁]; simp)
  refine ⟨s₁.func.instrs.size, s₁.placed merge phi, ?_, ?_, ?_, ?_⟩
  · unfold Lower.join
    rw [run_bind, run_jump hc, run_bind, run_enter, run_emitAt]
    subst hs₁ hphi
    rfl
  · refine h₂.step (by rw [hcur₁]; exact .refl _) ?_ ?_ ?_
    · intro b hb
      obtain rfl : merge = b := Option.some.inj (hcur₁.symm.trans hb)
      exact hreach₁
    · intro b hb
      obtain rfl : merge = b := Option.some.inj (hcur₁.symm.trans hb)
      exact Or.inr hnew
    · intro a ha b hb
      obtain rfl : merge = b := Option.some.inj (hcur₁.symm.trans hb)
      exact fun x hx => List.mem_cons_of_mem _ (hdeeper a ha hx)
  · rw [hcur₁]
    rfl
  · refine ⟨phi, ⟨merge, hcur₁, ?_, Or.inl (by rw [hphi])⟩, by rw [hphi]⟩
    rw [Builder.func_placed, Func.instr?_inserted, if_pos rfl]

/-- The path without the right operand leads to the block `merge`, and only that path does
so far. -/
structure Shortcut (short merge i : Nat) (s : Builder) : Prop extends s.func.Target merge where
  value : ∃ v, s.func.instr? i = some v ∧ v.block = short
  preds : s.func.preds merge = [short]
  body : s.func.body merge = []

/-- The path without the right operand. -/
theorem run_shortcut {dom' : Doms} {s' : Builder} {opens : List Nat} {short merge : Nat}
    (number : Int64) (h : Stage dom s dom' (short :: opens) s') (hshort : s.func.blocks.size ≤ short)
    (hreach : s'.func.Reach short) (hmerge : s'.func.Blank merge) (hmem : merge ∈ opens)
    (hnew : s.func.blocks.size ≤ merge) (hdom : dom' merge ⊆ short :: dom' short) :
    ∃ s₁ s'', (emitAt short .constBool (some .bool) [] Pos.none number none).run s' =
        (s'.func.instrs.size, s₁) ∧ (addEdge short merge).run s₁ = ((), s'') ∧
      Stage dom s dom' opens s'' ∧ Shortcut short merge s'.func.instrs.size s'' ∧
      ∀ b, s'.func.Reach b → s''.func.Reach b := by
  have hne : short ≠ merge := by
    rintro rfl
    exact (List.nodup_cons.1 h.good.closed.nodup).1 hmem
  have hlt := h.good.wired.known short (h.good.closed.order short (by simp))
  have hmergelt := h.good.wired.known merge hmerge.order
  obtain ⟨v, hv⟩ : ∃ v : Instr, v =
      { id := s'.func.instrs.size, op := .constBool, type := some .bool, block := short, number,
        pos := Pos.none } := ⟨_, rfl⟩
  obtain ⟨s₁, hs₁⟩ : ∃ s₁, s₁ = s'.placed short v := ⟨_, rfl⟩
  have h₁ : Stage dom s dom' (short :: opens) s₁ := by
    rw [hs₁]
    refine h.place (h.good.closed.order short (by simp)) (Or.inr hshort) ?_ ?_ ?_ ?_ ?_ ?_
    all_goals subst hv
    · rfl
    · rfl
    · simp
    · simp
    · rfl
    · simp
  have hblank : s₁.func.Blank merge := by
    rw [hs₁]
    exact hmerge.placed h.good.coded hlt hne (by rw [hv]; simp) (by rw [hv])
  have hsize : s₁.func.blocks.size = s'.func.blocks.size := by
    rw [hs₁, Builder.func_placed, Func.size_inserted]
  have hreach₁ : ∀ b, s'.func.Reach b → s₁.func.Reach b := fun b hb => by
    refine hb.mono fun c => ?_
    rw [hs₁, Builder.func_placed, Func.succs_inserted]
    exact List.Subset.refl _
  have hlink := h₁.link (b := merge) (by simp) (Or.inr hshort) (hreach₁ _ hreach) hblank.toTarget
    hnew hdom
  rw [List.erase_cons_head] at hlink
  refine ⟨s₁, _, ?_, run_addEdge .., hlink, ⟨?_, ⟨v, ?_, by rw [hv]⟩, ?_, ?_⟩, fun b hb => ?_⟩
  · rw [run_emitAt, hs₁, hv]
    rfl
  · exact hblank.toTarget.congr (Func.order_linked ..) fun i => Func.instr?_linked ..
  · rw [Builder.func_withFunc, Func.instr?_linked, hs₁, Builder.func_placed,
      Func.instr?_inserted, if_pos rfl]
  · rw [Builder.func_withFunc, Func.preds_linked _ _ _ _ (by omega), if_pos rfl, hblank.preds]
    rfl
  · rw [Builder.func_withFunc, Func.body_linked, hblank.body]
  · refine (hreach₁ b hb).mono fun c x hx => ?_
    rw [Builder.func_withFunc, Func.mem_succs_linked (by omega)]
    exact Or.inl hx

/-- What is constructed in a new block that can be reached. -/
theorem Stage.ready {dom' : Doms} {s' : Builder} {b : Nat} {rest : List Nat}
    (h : Stage dom s dom' (b :: rest) s') (hreach : s'.func.Reach b) (hbound : Bound vars s) :
    Ready vars rest dom' (s'.entered (some b)) := by
  refine ⟨(h.enter (some b)).inv (.refl _) fun c hc => ?_, rfl, hbound.mono h.more⟩
  obtain rfl : b = c := Option.some.inj hc
  exact hreach

/-- The right operand is computed by `m` in the block `b`, and the paths meet behind it. -/
theorem run_right {m : Build Nat} {dom' : Doms} {s' : Builder} {b short merge i : Nat} (pos : Pos)
    (h : Stage dom s dom' (b :: merge :: pend) s') (hm : Computes vars m (Value .bool))
    (hbound : Bound vars s) (hb : s.func.blocks.size ≤ b) (hreach : s'.func.Reach b)
    (hshort : Shortcut short merge i s') (hnew : s.func.blocks.size ≤ merge)
    (hdom : dom' merge ⊆ dom' b) (hdeeper : ∀ a ∈ s.current, a :: dom a ⊆ dom' merge) :
    ∃ right s₁ j s'' dom'', m.run (s'.entered (some b)) = (right, s₁) ∧
      (Lower.join pos i right merge).run s₁ = (j, s'') ∧ Step pend dom s dom'' s'' ∧ s''.current.isSome = true ∧ Value .bool j dom'' s'' := by
  have henter := h.enter (some b)
  have hne : merge ≠ b := by
    rintro rfl
    simpa using (List.nodup_cons.1 h.good.closed.nodup).1
  have hmergelt := h.good.wired.known merge hshort.order
  obtain ⟨right, s₁, dom₁, hrun, hstep, hcur, hright⟩ :=
    (hm _ _ _ (Stage.ready h hreach hbound)).exists_run
  obtain ⟨c, hc⟩ := Option.isSome_iff_exists.1 hcur
  have hmine : ∀ c ∈ (s'.entered (some b)).current, s.Mine c := fun c hc => by
    obtain rfl : b = c := Option.some.inj hc
    exact Or.inr hb
  have h₁ := henter.followed hmine hstep
  rw [hc] at h₁
  have hdom₁ : dom₁ merge = dom' merge := hstep.frame.doms merge hmergelt
  have hempty : s₁.func.body merge = [] := by
    rw [(hstep.frame.others merge hmergelt (by simpa using hne)).2.2.2]
    exact hshort.body
  have havail : s₁.func.Avail dom₁ short i := by
    obtain ⟨v, hv, hblock⟩ := hshort.value
    exact ⟨v, hstep.frame.instrs i v hv, Or.inl hblock⟩
  obtain ⟨j, s₂, hrun₂, hstep₂, hcur₂, hvalue⟩ := run_join pos h₁ hc
    (henter.mine hmine hstep c hc) (hstep.inv.reach c hc)
    (hshort.toTarget.frame hstep.frame hmergelt) hnew hempty
    (by rw [hstep.frame.preds merge hmergelt]; exact hshort.preds) havail hright
    (by
      rw [hdom₁]
      exact fun x hx => hstep.deeper b rfl c hc (List.mem_cons_of_mem _ (hdom hx)))
    (by rwa [hdom₁])
  exact ⟨right, s₁, j, s₂, dom₁, hrun, hrun₂, hstep₂, hcur₂, hvalue⟩

/-- The way to the right operand of a logical operator in the first of three new blocks. The
second is the path without it, which leads to the third. -/
theorem exists_shortcut {left n : Nat} (p : Prop) [Decidable p] (number : Int64)
    (h : Ready vars pend dom s) (hleft : Value .bool left dom s) (hn : s.func.blocks.size = n) :
    ∃ a dom' s₁ s₂ s', s.current = some a ∧
      s₁ = s.withFunc ((s.func.grows 3).branched a left (if p then n else n + 1)
        (if p then n + 1 else n)) ∧
      (emitAt (n + 1) .constBool (some .bool) [] Pos.none number none).run s₁ =
        (s₁.func.instrs.size, s₂) ∧
      (addEdge (n + 1) (n + 2)).run s₂ = ((), s') ∧ (∀ b, n ≤ b → dom' b = a :: dom a) ∧
      Stage dom s dom' (List.range' n 3 ++ pend) s₁ ∧
      Stage dom s dom' (n :: (n + 2) :: pend) s' ∧ s'.func.Reach n ∧
      Shortcut (n + 1) (n + 2) s₁.func.instrs.size s' := by
  obtain ⟨a, ha⟩ := Option.isSome_iff_exists.1 h.current
  obtain ⟨yes, hyes⟩ : ∃ yes, (if p then n else n + 1) = yes := ⟨_, rfl⟩
  obtain ⟨no, hno⟩ : ∃ no, (if p then n + 1 else n) = no := ⟨_, rfl⟩
  have hends : yes = n ∧ no = n + 1 ∨ yes = n + 1 ∧ no = n := by
    by_cases hp : p <;> simp_all
  obtain ⟨dom₁, s₁, hs₁, hsize₁, _, hnew, h₁, htarget⟩ := h.inv.fork ha 3 yes no hleft
    (by rw [List.mem_range'_1]; omega) (by rw [List.mem_range'_1]; omega) (by omega)
  rw [hn] at hnew h₁ htarget hsize₁
  have hblocks : ∀ b, n ≤ b → b < n + 3 → b ∈ List.range' n 3 := fun b hb hlt =>
    List.mem_range'_1.2 ⟨hb, hlt⟩
  have hreach : ∀ b, b = n ∨ b = n + 1 → s₁.func.Reach b := fun b hb =>
    ((htarget b (hblocks b (by omega) (by omega))).2.2.1 (by omega)).1
  have hmerge : s₁.func.Blank (n + 2) := by
    obtain ⟨htarget, hbody, _, hpreds⟩ := htarget (n + 2) (hblocks _ (by omega) (by omega))
    exact ⟨htarget, hpreds (by omega) (by omega), hbody⟩
  have hperm : (List.range' n 3 ++ pend).Perm ((n + 1) :: n :: (n + 2) :: pend) := .swap ..
  obtain ⟨s₂, s₃, hrun₂, hrun₃, h₃, hshort, hreach₃⟩ := run_shortcut number (h₁.perm hperm)
    (by omega) (hreach _ (Or.inr rfl)) hmerge (by simp) (by omega)
    (by rw [hnew _ (by omega), hnew _ (by omega)]; simp)
  subst hyes hno
  exact ⟨a, dom₁, s₁, s₂, s₃, ha, hs₁, hrun₂, hrun₃, hnew, h₁, h₃, hreach₃ n (hreach n (Or.inl rfl)),
    hshort⟩

/-- The construction of a logical operator, put together from its parts. -/
theorem run_logic {m : Build Nat} {a n left k right j : Nat} {pos : Pos} {s₁ s₂ s₃ s₄ s₅ : Builder}
    (p : Prop) [Decidable p] (number : Int64) (ha : s.current = some a)
    (hn : s.func.blocks.size = n)
    (hs₁ : s₁ = s.withFunc ((s.func.grows 3).branched a left (if p then n else n + 1)
      (if p then n + 1 else n)))
    (hrun₂ : (emitAt (n + 1) .constBool (some .bool) [] Pos.none number none).run s₁ = (k, s₂))
    (hrun₃ : (addEdge (n + 1) (n + 2)).run s₂ = ((), s₃))
    (hrun₄ : m.run (s₃.entered (some n)) = (right, s₄))
    (hrun₅ : (Lower.join pos k right (n + 2)).run s₄ = (j, s₅)) :
    (do
      let right ← newBlock
      let short ← newBlock
      let merge ← newBlock
      if p then branch left right short else branch left short right
      let shortValue ← emitAt short .constBool (some .bool) [] Pos.none number none
      addEdge short merge
      enter (some right)
      let i ← m
      Lower.join pos shortValue i merge : Build Nat).run s = (j, s₅) := by
  have hforked : ∀ yes no, s₁ = s.withFunc ((s.func.grows 3).branched a left yes no) →
      (branch left yes no).run (s.withFunc s.func.grown.grown.grown) = ((), s₁) := by
    intro yes no hs₁
    rw [run_branch (by rw [Builder.current_withFunc, ha]), hs₁, grows_three,
      Builder.withFunc_withFunc, Builder.func_withFunc]
  by_cases hp : p
  · simp only [if_pos hp] at hs₁
    simp only [run_bind, run_newBlock, Builder.func_withFunc, Builder.withFunc_withFunc,
      Func.size_grown, hn, Nat.add_assoc, Nat.reduceAdd, if_pos hp, hforked _ _ hs₁, hrun₂, hrun₃,
      run_enter, hrun₄, hrun₅]
  · simp only [if_neg hp] at hs₁
    simp only [run_bind, run_newBlock, Builder.func_withFunc, Builder.withFunc_withFunc,
      Func.size_grown, hn, Nat.add_assoc, Nat.reduceAdd, if_neg hp, hforked _ _ hs₁, hrun₂, hrun₃,
      run_enter, hrun₄, hrun₅]

/-- The value of a logical operator, where `m` computes its right operand. -/
theorem makes_logic {m : Build Nat} {left : Nat} {pos : Pos} (p : Prop) [Decidable p]
    (number : Int64) (h : Ready vars pend dom s) (hleft : Value .bool left dom s)
    (hm : Computes vars m (Value .bool)) :
    Makes pend dom s (do
      let right ← newBlock
      let short ← newBlock
      let merge ← newBlock
      if p then branch left right short else branch left short right
      let shortValue ← emitAt short .constBool (some .bool) [] Pos.none number none
      addEdge short merge
      enter (some right)
      let i ← m
      Lower.join pos shortValue i merge) (Value .bool) := by
  obtain ⟨n, hn⟩ : ∃ n, s.func.blocks.size = n := ⟨_, rfl⟩
  obtain ⟨a, dom₁, s₁, s₂, s₃, ha, hs₁, hrun₂, hrun₃, hnew, _, h₃, hreach, hshort⟩ :=
    exists_shortcut p number h hleft hn
  obtain ⟨right, s₄, j, s₅, dom₂, hrun₄, hrun₅, hstep, hcur, hvalue⟩ := run_right pos h₃ hm h.bound (by omega)
    hreach hshort (by omega)
    (by rw [hnew _ (by omega), hnew _ (by omega)]; simp)
    (fun b hb => by
      obtain rfl : a = b := Option.some.inj (ha.symm.trans hb)
      rw [hnew _ (by omega)]
      simp)
  exact .of_run (run_logic p number ha hn hs₁ hrun₂ hrun₃ hrun₄ hrun₅) hstep hcur hvalue

end Build

end ClassLang.Graph
