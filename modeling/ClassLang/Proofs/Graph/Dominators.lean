import ClassLang.Proofs.Graph.Routes

/-!
The loops that work out dominators, with no bound on how often they go round. They end on
every graph whose lists of predecessors mirror its lists of successors, however blocks
lead back to others, and the parents that they leave behind are the immediate dominators.
-/

namespace ClassLang.Graph

/-! Loops without a bound -/

/-- Walks depth-first from each block of a list in turn. -/
inductive Walks (succs : Nat → List Nat) : Walk → List Nat → Walk → Prop
  | done {w : Walk} : Walks succs w [] w
  | seen {w w' : Walk} {b : Nat} {bs : List Nat} (old : b ∈ w.seen)
      (rest : Walks succs w bs w') : Walks succs w (b :: bs) w'
  | fresh {w inner w' : Walk} {b : Nat} {bs : List Nat} (new : b ∉ w.seen)
      (below : Walks succs { w with seen := b :: w.seen } (succs b) inner)
      (rest : Walks succs { inner with done := b :: inner.done } bs w') :
      Walks succs w (b :: bs) w'

/-- Two blocks go up until they meet, always the one that comes later in `order`. -/
inductive Converges (order : List Nat) (I : Idoms) : Nat → Nat → Nat → Prop
  | met {a : Nat} : Converges order I a a a
  | left {a b d c : Nat} (later : order.idxOf b < order.idxOf a) (parent : I.getD a none = some d)
      (rest : Converges order I d b c) : Converges order I a b c
  | right {a b d c : Nat} (later : order.idxOf a < order.idxOf b)
      (parent : I.getD b none = some d) (rest : Converges order I a d c) : Converges order I a b c

/-- Where those of a list of predecessors meet that are known, given where the ones before
them do. -/
inductive Merges (order : List Nat) (I : Idoms) : List Nat → Option Nat → Option Nat → Prop
  | done {acc : Option Nat} : Merges order I [] acc acc
  | unknown {p : Nat} {ps : List Nat} {acc r : Option Nat} (parent : I.getD p none = none)
      (rest : Merges order I ps acc r) : Merges order I (p :: ps) acc r
  | first {p : Nat} {ps : List Nat} {r : Option Nat} (parent : (I.getD p none).isSome = true)
      (rest : Merges order I ps (some p) r) : Merges order I (p :: ps) none r
  | meet {p d c : Nat} {ps : List Nat} {r : Option Nat} (parent : (I.getD p none).isSome = true)
      (common : Converges order I p d c) (rest : Merges order I ps (some c) r) :
      Merges order I (p :: ps) (some d) r

/-- One pass over a list of blocks, with whether one has changed. -/
inductive Passes (preds : Nat → List Nat) (order : List Nat) :
    Idoms → Bool → List Nat → Idoms → Bool → Prop
  | done {I : Idoms} {changed : Bool} : Passes preds order I changed [] I changed
  | same {I J : Idoms} {changed changed' : Bool} {b : Nat} {bs : List Nat} {r : Option Nat}
      (merged : Merges order I (preds b) none r) (keeps : r = none ∨ I.getD b none = r)
      (rest : Passes preds order I changed bs J changed') :
      Passes preds order I changed (b :: bs) J changed'
  | change {I J : Idoms} {changed changed' : Bool} {b d : Nat} {bs : List Nat}
      (merged : Merges order I (preds b) none (some d)) (differs : I.getD b none ≠ some d)
      (rest : Passes preds order (I.setIfInBounds b (some d)) true bs J changed') :
      Passes preds order I changed (b :: bs) J changed'

/-- Passes until none changes a block. -/
inductive Settles (preds : Nat → List Nat) (order rest : List Nat) : Idoms → Idoms → Prop
  | last {I J : Idoms} (pass : Passes preds order I false rest J false) :
      Settles preds order rest I J
  | again {I J K : Idoms} (pass : Passes preds order I false rest J true)
      (more : Settles preds order rest J K) : Settles preds order rest I K

/-- Goes up from a block until `a` is met or there is no parent, and tells which. -/
inductive Climbs (I : Idoms) (a : Nat) : Nat → Bool → Prop
  | met : Climbs I a a true
  | top {b : Nat} (ne : a ≠ b) (parent : I.getD b none = none) : Climbs I a b false
  | up {b d : Nat} {r : Bool} (ne : a ≠ b) (parent : I.getD b none = some d)
      (rest : Climbs I a d r) : Climbs I a b r

/-- What is left for the blocks when all loops have ended, given what was stored before. -/
inductive Func.Computes (f : Func) (stored : Idoms) : Idoms → Prop
  | intro {e : Nat} {rest : List Nat} {w : Walk} {I : Idoms} (entry : f.entry = some e)
      (walk : Walks f.succs {} [e] w) (order : w.done = e :: rest)
      (passes : Settles f.preds (e :: rest) rest
        ((f.forgotten stored).setIfInBounds e (some e)) I) :
      f.Computes stored (I.setIfInBounds e none)

/-! The bounds are never reached -/

theorem Walks.append {succs : Nat → List Nat} {w w' w'' : Walk} {bs cs : List Nat}
    (h : Walks succs w bs w') (h' : Walks succs w' cs w'') : Walks succs w (bs ++ cs) w'' := by
  induction h with
  | done => exact h'
  | seen old _ ih => exact .seen old (ih h')
  | fresh new below _ _ ih => exact .fresh new below (ih h')

/-- A walk whose fuel covers the blocks that it has not seen is the one without a bound. -/
theorem walks_visit {succs : Nat → List Nat} {n : Nat}
    (hsuccs : ∀ x < n, ∀ y ∈ succs x, y < n) (fuel : Nat) :
    ∀ (w : Walk) (b : Nat), b < n → w.unseen n < fuel →
      Walks succs w [b] (visit succs fuel w b) := by
  induction fuel with
  | zero => intro w b _ hfuel; exact absurd hfuel (Nat.not_lt_zero _)
  | succ fuel ih =>
      have hfold : ∀ (ss : List Nat) (w : Walk), (∀ y ∈ ss, y < n) → w.unseen n < fuel →
          Walks succs w ss (ss.foldl (visit succs fuel) w) := by
        intro ss
        induction ss with
        | nil => exact fun _ _ _ => .done
        | cons s ss ih' =>
            intro w hss hfuel
            obtain ⟨new, hnew, _⟩ := visit_extends succs fuel w s
            have hrest := ih' (visit succs fuel w s) (fun y hy => hss y (by simp [hy]))
              (Nat.lt_of_le_of_lt (Walk.unseen_le hnew.seen) hfuel)
            exact (ih w s (hss s (by simp)) hfuel).append hrest
      intro w b hb hfuel
      unfold visit
      split
      next hseen => exact .seen (by simpa using hseen) .done
      next hfresh =>
        have hfresh : b ∉ w.seen := by simpa using hfresh
        have hless := Walk.unseen_lt hb hfresh
        apply Walks.fresh hfresh
        · apply hfold
          · exact hsuccs b hb
          · omega
        · exact .done

namespace Tree

variable {D : Nat → Nat → Prop} {e : Nat} {order : List Nat} {I : Idoms}

/-- Two blocks of the tree meet. -/
theorem converges (h : Tree D e order I) (fuel : Nat) :
    ∀ a b, (I.getD a none).isSome = true → (I.getD b none).isSome = true →
      order.idxOf a + order.idxOf b < fuel →
      Converges order I a b (intersect order I fuel a b) := by
  have hrise : ∀ a b, (I.getD a none).isSome = true → order.idxOf b < order.idxOf a →
      ∃ d, I.getD a none = some d ∧ order.idxOf d < order.idxOf a ∧
        (I.getD d none).isSome = true := by
    intro a b ha hlt
    obtain ⟨d, hd⟩ := Option.isSome_iff_exists.1 ha
    have hae : a ≠ e := by
      rintro rfl
      rw [h.first] at hlt
      omega
    obtain ⟨hidx, hknown, _⟩ := h.parent a d hae hd
    exact ⟨d, hd, hidx, hknown⟩
  induction fuel with
  | zero => intro a b _ _ hfuel; exact absurd hfuel (Nat.not_lt_zero _)
  | succ fuel ih =>
      intro a b ha hb hfuel
      unfold intersect
      split
      next heq => subst heq; exact .met
      next hne =>
        split
        next hlt =>
          obtain ⟨d, hd, hidx, hknown⟩ := hrise a b ha hlt
          rw [hd, Option.getD_some]
          exact .left hlt hd (ih d b hknown hb (by omega))
        next hle =>
          have hlt : order.idxOf a < order.idxOf b := by
            apply Nat.lt_of_le_of_ne (Nat.le_of_not_lt hle)
            exact fun heq => hne (h.idx_inj ha heq)
          obtain ⟨d, hd, hidx, hknown⟩ := hrise b a hb hlt
          rw [hd, Option.getD_some]
          exact .right hlt hd (ih a d ha hknown (by omega))

/-- The predecessors of a block meet. -/
theorem merges (h : Tree D e order I) (ps : List Nat) :
    Merges order I ps none (mergePreds order I ps) := by
  have hfold : ∀ (ps : List Nat) (acc : Option Nat),
      (∀ d, acc = some d → (I.getD d none).isSome = true) →
      Merges order I ps acc (ps.foldl (mergePred order I) acc) := by
    intro ps
    induction ps with
    | nil => exact fun _ _ => .done
    | cons p ps ih =>
        intro acc hacc
        rw [List.foldl_cons, mergePred.eq_def]
        cases hp : I.getD p none with
        | none => exact .unknown hp (ih acc hacc)
        | some x =>
            have hknown : (I.getD p none).isSome = true := by rw [hp]; rfl
            cases acc with
            | none =>
                apply Merges.first hknown
                apply ih
                rintro d ⟨⟩
                exact hknown
            | some d =>
                have hd := hacc d rfl
                have hfuel : order.idxOf p + order.idxOf d < 2 * order.length + 2 := by
                  have := List.idxOf_le_length (l := order) (a := p)
                  have := List.idxOf_le_length (l := order) (a := d)
                  omega
                apply Merges.meet hknown (h.converges _ p d hknown hd hfuel)
                apply ih
                rintro c ⟨⟩
                exact h.up_known (h.intersect_up _ p d hknown hd hfuel).1 hknown
  rw [mergePreds_eq]
  exact hfold ps none (by simp)

/-- A pass over the blocks ends, and keeps the tree. -/
theorem passes {preds : Nat → List Nat} {rest : List Nat} (hcert : Certificate D preds e)
    (hord : Ordered preds e rest) (hsize : ∀ b ∈ e :: rest, b < I.size)
    (h : Tree D e (e :: rest) I) (changed : Bool) :
    Passes preds (e :: rest) I changed rest (refine preds (e :: rest) (I, changed) rest).1
      (refine preds (e :: rest) (I, changed) rest).2 := by
  have hpass : ∀ (todo done : List Nat) (J : Idoms) (changed : Bool), rest = done ++ todo →
      Tree D e (e :: rest) J → J.size = I.size →
      (∀ b ∈ e :: done, (J.getD b none).isSome = true) →
      Passes preds (e :: rest) J changed todo (refine preds (e :: rest) (J, changed) todo).1
        (refine preds (e :: rest) (J, changed) todo).2 := by
    intro todo
    induction todo with
    | nil => exact fun _ _ _ _ _ _ _ => .done
    | cons b todo ih =>
        intro done J changed hrest hJ hJsize hknown
        have hbrest : b ∈ rest := by simp [hrest]
        have hb : b < J.size := hJsize ▸ hsize b (List.mem_cons_of_mem _ hbrest)
        obtain ⟨hbe, d, hd, hmeets, hidx⟩ := hJ.merged hord hrest hknown
        have hmerges : Merges (e :: rest) J (preds b) none (some d) := hd ▸ hJ.merges (preds b)
        have hrest' : rest = (done ++ [b]) ++ todo := by simp [hrest]
        have hknown' : ∀ c ∈ e :: (done ++ [b]),
            ((J.setIfInBounds b (some d)).getD c none).isSome = true := by
          intro c hc
          rw [getD_set hb]
          split
          next => rfl
          next hcb =>
            apply hknown
            rw [← List.cons_append, List.mem_append, List.mem_singleton] at hc
            exact hc.resolve_right hcb
        have hnext := ih (done ++ [b]) (J.setIfInBounds b (some d))
          (if J.getD b none = some d then changed else true) hrest'
          (hJ.set hcert hbe (List.mem_cons_of_mem _ hbrest) hb hmeets hidx)
          (by simpa using hJsize) hknown'
        simp only [refine, List.foldl_cons, hd] at hnext ⊢
        by_cases hsame : J.getD b none = some d
        · rw [if_pos hsame, set_same hsame] at hnext
          rw [if_pos hsame]
          exact .same hmerges (Or.inr hsame) hnext
        · rw [if_neg hsame] at hnext
          rw [if_neg hsame]
          exact .change hmerges hsame hnext
  apply hpass rest [] I changed rfl h rfl
  intro b hb
  rw [List.mem_singleton.1 hb, h.root]
  rfl

end Tree

/-! The parents are the immediate dominators -/

/-- Block `d` is the closest block before `b` that every route to `b` passes. -/
structure ImmediateDominator (succs : Nat → List Nat) (e d b : Nat) : Prop where
  ne : d ≠ b
  passed : OnEveryRoute succs e d b
  closest : ∀ a, a ≠ b → OnEveryRoute succs e a b → OnEveryRoute succs e a d

/-- A block that can be reached has one immediate dominator at most. -/
theorem ImmediateDominator.unique {succs : Nat → List Nat} {e b d d' : Nat} {l : List Nat}
    (hroute : Route succs e b l) (h : ImmediateDominator succs e d b)
    (h' : ImmediateDominator succs e d' b) : d = d' := by
  obtain ⟨l', hl', _⟩ := hroute.to_mem (h'.passed l hroute)
  exact OnEveryRoute.antisymm hl' (h'.closest d h.ne h.passed) (h.closest d' h'.ne h'.passed)

/-- What lies on every route is a certificate, if edges are known at both ends. -/
theorem certificate_onEveryRoute {succs preds : Nat → List Nat}
    (hmirror : ∀ a b, a ∈ preds b → b ∈ succs a) (e : Nat) :
    Certificate (OnEveryRoute succs e) preds e where
  root _ h := List.mem_singleton.1 (h [e] .start)
  step _ b p h hne hp := h.pred hne (hmirror p b hp)

namespace Tree

variable {succs preds : Nat → List Nat} {rest : List Nat} {e n : Nat} {I : Idoms}

theorem onEveryRoute_of_up {a b : Nat}
    (hparents : ∀ b d, b ≠ e → I.getD b none = some d → OnEveryRoute succs e d b)
    (hup : Up I e a b) : OnEveryRoute succs e a b := by
  induction hup with
  | here => exact .refl _
  | above hne hparent _ ih => exact ih.trans (hparents _ _ hne hparent)

/-- A parent is the immediate dominator, if it and all above it lie on every route. -/
theorem parent_immediate {order : List Nat} {b d : Nat}
    (h : Tree (OnEveryRoute succs e) e order I)
    (hparents : ∀ b d, b ≠ e → I.getD b none = some d → OnEveryRoute succs e d b)
    (hb : b ≠ e) (hd : I.getD b none = some d) : ImmediateDominator succs e d b := by
  constructor
  · rintro rfl
    exact Nat.lt_irrefl _ (h.parent d d hb hd).1
  · exact hparents b d hb hd
  · intro a hab ha
    cases h.complete b (by rw [hd]; rfl) a ha with
    | here => exact absurd rfl hab
    | above _ hparent hup =>
        obtain rfl : _ = d := Option.some.inj (hparent.symm.trans hd)
        exact onEveryRoute_of_up hparents hup

/-- So is what the predecessors tell. -/
theorem meets_immediate {order : List Nat} {b d : Nat} (h : Tree (OnEveryRoute succs e) e order I)
    (hparents : ∀ b d, b ≠ e → I.getD b none = some d → OnEveryRoute succs e d b)
    (hmirror : ∀ a b, b ∈ succs a ↔ a ∈ preds b) (hclosed : ∀ p l, Route succs e p l → p ∈ order)
    (hknown : ∀ p ∈ order, (I.getD p none).isSome = true) (hb : b ≠ e)
    (hidx : order.idxOf d < order.idxOf b) (hm : Meets I e (preds b) d) :
    ImmediateDominator succs e d b := by
  constructor
  · rintro rfl
    exact Nat.lt_irrefl _ hidx
  · intro l hl
    cases hl with
    | start => exact absurd rfl hb
    | @step p _ l front edge =>
        have hup := hm.up p ((hmirror p b).1 edge) (hknown p (hclosed p l front))
        exact List.mem_cons_of_mem _ (onEveryRoute_of_up hparents hup l front)
  · intro a hab ha
    have hup : Up I e a d := by
      apply hm.closest
      intro p hp hsome
      exact h.complete p hsome a (ha.pred hab ((hmirror p b).2 hp))
    exact onEveryRoute_of_up hparents hup

/-- A pass that finds every parent right changes none. -/
theorem refine_stable (hord : Ordered preds e rest) (h : Tree (OnEveryRoute succs e) e (e :: rest) I)
    (hparents : ∀ b d, b ≠ e → I.getD b none = some d → OnEveryRoute succs e d b)
    (hmirror : ∀ a b, b ∈ succs a ↔ a ∈ preds b)
    (hclosed : ∀ p, p ∈ e :: rest ↔ ∃ l, Route succs e p l)
    (hknown : ∀ p ∈ e :: rest, (I.getD p none).isSome = true) :
    refine preds (e :: rest) (I, false) rest = (I, false) := by
  have hkeep : ∀ b ∈ rest, ∃ d, mergePreds (e :: rest) I (preds b) = some d ∧
      I.getD b none = some d := by
    intro b hb
    obtain ⟨done, todo, hrest⟩ := List.append_of_mem hb
    obtain ⟨hbe, d, hd, hmeets, hidx⟩ := h.merged hord hrest fun c hc => hknown c (by
      rcases List.mem_cons.1 hc with rfl | hc
      · exact List.mem_cons_self
      · simp [hrest, hc])
    obtain ⟨d', hd'⟩ := Option.isSome_iff_exists.1 (hknown b (List.mem_cons_of_mem _ hb))
    obtain ⟨l, hl⟩ := (hclosed b).1 (List.mem_cons_of_mem _ hb)
    have hnew := h.meets_immediate hparents hmirror (fun p l hl => (hclosed p).2 ⟨l, hl⟩) hknown
      hbe hidx hmeets
    have hold := h.parent_immediate hparents hbe hd'
    exact ⟨d, hd, hnew.unique hl hold ▸ hd'⟩
  have hfold : ∀ bs ⊆ rest, refine preds (e :: rest) (I, false) bs = (I, false) := by
    intro bs
    induction bs with
    | nil => exact fun _ => rfl
    | cons b bs ih =>
        intro hsub
        obtain ⟨d, hd, hsame⟩ := hkeep b (hsub List.mem_cons_self)
        have hrest := ih (List.subset_of_cons_subset hsub)
        simp only [refine, List.foldl_cons, hd, if_pos hsame] at hrest ⊢
        exact hrest
  exact hfold rest (List.Subset.refl _)

/-- After as many passes as there are blocks the next one is the last. -/
theorem settles (hord : Ordered preds e rest) (hmirror : ∀ a b, b ∈ succs a ↔ a ∈ preds b)
    (hclosed : ∀ p, p ∈ e :: rest ↔ ∃ l, Route succs e p l) (fuel : Nat) :
    ∀ (n : Nat) (I : Idoms), (∀ b ∈ e :: rest, b < I.size) →
      Tree (OnEveryRoute succs e) e (e :: rest) I → Tree Eq e (e :: rest) I →
      ParentsPassed succs (e :: rest) e n I →
      (0 < n → ∀ b ∈ e :: rest, (I.getD b none).isSome = true) →
      (e :: rest).length < n + fuel →
      Settles preds (e :: rest) rest I (settle preds (e :: rest) rest fuel I) := by
  have hcert := certificate_onEveryRoute (fun a b => (hmirror a b).2) e
  have hin : ∀ p c, p ∈ e :: rest → c ∈ succs p → c ∈ e :: rest := by
    intro p c hp hc
    obtain ⟨l, hl⟩ := (hclosed p).1 hp
    exact (hclosed c).2 ⟨c :: l, .step hl hc⟩
  have hedges : Mirrored succs preds (e :: rest) := fun p hp b hb =>
    ⟨hin p b hp hb, (hmirror p b).1 hb⟩
  -- once routes of all kinds are right the next pass changes nothing
  have hstop : ∀ (n : Nat) (I : Idoms), (e :: rest).length < n →
      Tree (OnEveryRoute succs e) e (e :: rest) I → ParentsPassed succs (e :: rest) e n I →
      (∀ b ∈ e :: rest, (I.getD b none).isSome = true) →
      refine preds (e :: rest) (I, false) rest = (I, false) := by
    intro n I hn h hpassed hknown
    apply refine_stable hord h _ hmirror hclosed hknown
    intro b d hb hd
    exact (hpassed b d hb hd).onEveryRoute hn hin List.mem_cons_self
  induction fuel with
  | zero =>
      intro n I hsize h _ hpassed hknown hn
      have hsame := hstop n I hn h hpassed (hknown (by omega))
      have hpass := h.passes hcert hord hsize false
      rw [hsame] at hpass
      exact .last hpass
  | succ fuel ih =>
      intro n I hsize h heq hpassed hknown hn
      have hpass := h.passes hcert hord hsize false
      obtain ⟨htree, hsize', hall, _⟩ := refine_tree (M := fun _ _ => True) hcert hord hsize
        false h trivial fun _ _ _ _ _ _ _ _ _ _ _ => trivial
      obtain ⟨heq', _⟩ := refine_tree (M := fun _ _ => True) (certificate_eq preds e) hord hsize
        false heq trivial fun _ _ _ _ _ _ _ _ _ _ _ => trivial
      have hpassed' := refine_passed hord hsize hedges heq hpassed hknown
      unfold settle
      dsimp only
      split
      next hchanged =>
        rw [hchanged] at hpass
        apply Settles.again hpass
        apply ih (n + 1) _ _ htree heq' hpassed'
        · exact fun _ => hall
        · omega
        · exact fun b hb => hsize' ▸ hsize b hb
      next hsame =>
        rw [Bool.eq_false_iff.2 hsame] at hpass
        exact .last hpass

/-- The way up from any block ends. -/
theorem climbs {D : Nat → Nat → Prop} {order : List Nat} {J : Idoms} (h : Tree D e order I)
    (hentry : J.getD e none = none) (hJ : ∀ c, c ≠ e → J.getD c none = I.getD c none) (a : Nat)
    (fuel : Nat) : ∀ b, ((I.getD b none).isSome = true → order.idxOf b ≤ fuel) →
      Climbs J a b (J.above fuel a b) := by
  have htop : ∀ b, J.getD b none = none → a ≠ b → ∀ fuel, Climbs J a b (J.above fuel a b) := by
    intro b hb hab fuel
    have habove : J.above fuel a b = false := by
      cases fuel with
      | zero => simp [Idoms.above, hab]
      | succ fuel => simp only [Idoms.above, hb, decide_eq_false hab, Bool.or_false]
    rw [habove]
    exact .top hab hb
  have hmet : ∀ b fuel, Climbs J b b (J.above fuel b b) := by
    intro b fuel
    have habove : J.above fuel b b = true := by cases fuel <;> simp [Idoms.above]
    rw [habove]
    exact .met
  induction fuel with
  | zero =>
      intro b hb
      by_cases hab : a = b
      · exact hab ▸ hmet a 0
      · apply htop b _ hab
        by_cases hbe : b = e
        · rw [hbe, hentry]
        · rw [hJ b hbe]
          by_contra hsome
          have hknown : (I.getD b none).isSome = true := Option.isSome_iff_ne_none.2 hsome
          have hzero : order.idxOf b = order.idxOf e := by
            rw [h.first]
            exact Nat.le_zero.1 (hb hknown)
          exact hbe (h.idx_inj hknown hzero)
  | succ fuel ih =>
      intro b hb
      by_cases hab : a = b
      · exact hab ▸ hmet a _
      · cases hparent : J.getD b none with
        | none => exact htop b hparent hab _
        | some d =>
            have hbe : b ≠ e := by
              rintro rfl
              rw [hentry] at hparent
              cases hparent
            rw [hJ b hbe] at hparent
            have hidx := (h.parent b d hbe hparent).1
            have hfuel := hb (by rw [hparent]; rfl)
            rw [← hJ b hbe] at hparent
            have habove : J.above (fuel + 1) a b = J.above fuel a d := by
              simp only [Idoms.above, hparent, decide_eq_false hab, Bool.false_or]
            rw [habove]
            apply Climbs.up hab hparent
            apply ih
            intro _
            omega

end Tree

namespace Func

variable {f : Func} {e : Nat}

section

variable (hentry : f.entry = some e) (he : e < f.blocks.size)
  (hmirror : ∀ a b, b ∈ f.succs a ↔ a ∈ f.preds b)

include he hmirror in
/-- Routes lead to blocks of the graph only. -/
theorem lt_size_of_route {b : Nat} {l : List Nat} (h : Route f.succs e b l) :
    b < f.blocks.size := by
  cases h with
  | start => exact he
  | @step p _ l _ edge =>
      by_contra hge
      have hp := (hmirror p b).1 edge
      rw [preds, block?, Array.getElem?_eq_none (Nat.le_of_not_lt hge)] at hp
      cases hp

include hentry he hmirror

/-- The order of a walk holds the blocks that some route leads to. -/
theorem mem_reversePostOrder_iff (b : Nat) :
    b ∈ f.reversePostOrder ↔ ∃ l, Route f.succs e b l := by
  obtain ⟨hstart, hclosed⟩ := mem_reversePostOrder (P := fun b => ∃ l, Route f.succs e b l) hentry
    ⟨[e], .start⟩ (fun _ ⟨_, hl⟩ => lt_size_of_route he hmirror hl)
    fun a ⟨l, hl⟩ c hc => ⟨c :: l, .step hl hc⟩
  constructor
  · exact fun hb => (hclosed b hb).1
  · rintro ⟨l, hl⟩
    induction hl with
    | start => exact hstart
    | step _ edge ih => exact (hclosed _ ih).2 _ edge

theorem lt_size_of_mem_reversePostOrder {b : Nat} (hb : b ∈ f.reversePostOrder) :
    b < f.blocks.size := by
  obtain ⟨_, hl⟩ := (mem_reversePostOrder_iff hentry he hmirror b).1 hb
  exact lt_size_of_route he hmirror hl

theorem mirrored_reversePostOrder : Mirrored f.succs f.preds f.reversePostOrder := by
  intro p hp b hb
  have hreach := mem_reversePostOrder_iff hentry he hmirror
  obtain ⟨l, hl⟩ := (hreach p).1 hp
  exact ⟨(hreach b).2 ⟨b :: l, .step hl hb⟩, (hmirror p b).1 hb⟩

theorem length_reversePostOrder_le (hnodup : f.reversePostOrder.Nodup) :
    f.reversePostOrder.length ≤ f.blocks.size := by
  have hsub : f.reversePostOrder ⊆ List.range f.blocks.size := fun b hb =>
    List.mem_range.2 (lt_size_of_mem_reversePostOrder hentry he hmirror hb)
  simpa using (List.subperm_of_subset hnodup hsub).length_le

/-- The walk that orders the blocks ends. -/
theorem walks_reversePostOrder :
    ∃ w, Walks f.succs {} [e] w ∧ w.done = f.reversePostOrder := by
  have hsuccs : ∀ x < f.blocks.size, ∀ y ∈ f.succs x, y < f.blocks.size := by
    intro x _ y hy
    by_contra hge
    have hx := (hmirror x y).1 hy
    rw [preds, block?, Array.getElem?_eq_none (Nat.le_of_not_lt hge)] at hx
    cases hx
  refine ⟨_, walks_visit hsuccs (f.blocks.size + 1) {} e he ?_, ?_⟩
  · simp [Walk.unseen]
  · simp only [reversePostOrder, hentry]

/-- When the passes end each block that can be reached has its immediate dominator. -/
theorem idoms_settled {rest : List Nat} (horder : f.reversePostOrder = e :: rest)
    (hord : Ordered f.preds e rest) :
    ∃ J : Idoms, f.idoms = J.setIfInBounds e none ∧ J.size = f.blocks.size ∧
      Settles f.preds (e :: rest) rest
        ((Array.replicate f.blocks.size none : Idoms).setIfInBounds e (some e)) J ∧
      Tree (OnEveryRoute f.succs e) e (e :: rest) J ∧
      (∀ b ∈ e :: rest, (J.getD b none).isSome = true) ∧
      ∀ b d, b ≠ e → J.getD b none = some d → ImmediateDominator f.succs e d b := by
  have hreach := mem_reversePostOrder_iff hentry he hmirror
  have hedges := mirrored_reversePostOrder hentry he hmirror
  have hsize : ∀ b ∈ f.reversePostOrder, b < f.blocks.size := fun b =>
    lt_size_of_mem_reversePostOrder hentry he hmirror
  have hlen := length_reversePostOrder_le hentry he hmirror (horder ▸ hord.nodup)
  rw [horder] at hreach hedges hsize hlen
  have hfuel : (e :: rest).length < 0 + (f.blocks.size * f.blocks.size + 2) := by
    have hsquare : f.blocks.size ≤ f.blocks.size * f.blocks.size := Nat.le_mul_self _
    omega
  have hcert := certificate_onEveryRoute (fun a b => (hmirror a b).2) e
  have hstart : Tree (OnEveryRoute f.succs e) e (e :: rest) _ := Tree.start _ he hcert.root
  have hstart' : Tree Eq e (e :: rest) _ := Tree.start Eq he fun _ h => h
  have hsize' : ∀ b ∈ e :: rest, b < ((Array.replicate f.blocks.size none : Idoms).setIfInBounds e
      (some e)).size := by simpa using hsize
  have hlone : ParentsPassed f.succs (e :: rest) e 0
      ((Array.replicate f.blocks.size none : Idoms).setIfInBounds e (some e)) := by
    intro b d hb hd
    rw [Tree.getD_start he, if_neg hb] at hd
    cases hd
  obtain ⟨htree, hJsize, hknown⟩ := Tree.settle_tree hcert hord (f.blocks.size * f.blocks.size + 1)
    _ hsize' hstart
  have hpassed := Tree.settle_passed hord hedges (f.blocks.size * f.blocks.size + 2) 0 _ hsize'
    hstart' hlone (by simp)
  have hparents : ∀ b d, b ≠ e → (settle f.preds (e :: rest) rest
      (f.blocks.size * f.blocks.size + 2) ((Array.replicate f.blocks.size none : Idoms).setIfInBounds
        e (some e))).getD b none = some d → OnEveryRoute f.succs e d b := by
    intro b d hb hd
    exact (hpassed b d hb hd).onEveryRoute hfuel (fun p c hp hc => (hedges p hp c hc).1)
      List.mem_cons_self
  refine ⟨_, idoms_eq horder, ?_, ?_, htree, hknown, ?_⟩
  · simpa using hJsize
  · exact Tree.settles hord hmirror hreach _ 0 _ hsize' hstart hstart' hlone (by simp) hfuel
  · exact fun b d hb hd => htree.parent_immediate hparents hb hd

/-- All loops end, whatever was stored for the blocks before. -/
theorem loops_end {stored : Idoms} (hsize : stored.size = f.blocks.size)
    (hother : ∀ b, b ∉ f.order → stored.getD b none = none) :
    f.Computes stored (f.idomsFrom stored) ∧
      ∀ a b, Climbs (f.idomsFrom stored) a b ((f.idomsFrom stored).dominates a b) := by
  obtain ⟨rest, horder, hord⟩ :=
    reversePostOrder_ordered hentry fun a _ b hb => (hmirror a b).1 hb
  obtain ⟨J, hJ, hJsize, hsettles, htree, -, -⟩ := idoms_settled hentry he hmirror horder hord
  rw [idomsFrom_eq_idoms hsize hother (by simp [horder])]
  constructor
  · obtain ⟨w, hw, hdone⟩ := walks_reversePostOrder hentry he hmirror
    rw [← forgotten_eq hsize hother] at hsettles
    rw [hJ]
    exact .intro hentry hw (hdone.trans horder) hsettles
  · intro a b
    have hroot : f.idoms.getD e none = none := by
      simp [hJ, Array.getD_eq_getD_getElem?, hJsize, he]
    have hparent : ∀ b, b ≠ e → f.idoms.getD b none = J.getD b none := by
      intro b hb
      simp only [hJ, Array.getD_eq_getD_getElem?, Array.getElem?_setIfInBounds,
        if_neg (Ne.symm hb)]
    apply htree.climbs hroot hparent
    intro hb
    have hidx := List.idxOf_lt_length_of_mem (htree.known b hb)
    have hlen := length_reversePostOrder_le hentry he hmirror (horder ▸ hord.nodup)
    rw [horder] at hlen
    rw [hJ, Array.size_setIfInBounds]
    omega

end

/-- For a graph whose lists of predecessors mirror its lists of successors all loops end,
whatever was stored for its blocks before. Afterwards a block is found to dominate one that
control can reach exactly if every route there passes it, the parent of each such block but
the entry is its one immediate dominator, and no other block has a parent. -/
theorem dominators_computed {stored : Idoms} (hentry : f.entry = some e)
    (he : e < f.blocks.size) (hmirror : ∀ a b, b ∈ f.succs a ↔ a ∈ f.preds b)
    (hsize : stored.size = f.blocks.size)
    (hother : ∀ b, b ∉ f.order → stored.getD b none = none) :
    f.Computes stored (f.idomsFrom stored) ∧
      (∀ a b, Climbs (f.idomsFrom stored) a b ((f.idomsFrom stored).dominates a b)) ∧
      (∀ a b l, Route f.succs e b l →
        ((f.idomsFrom stored).dominates a b = true ↔ OnEveryRoute f.succs e a b)) ∧
      (∀ b l, Route f.succs e b l → b ≠ e → ∃ d, (f.idomsFrom stored).getD b none = some d ∧
        ImmediateDominator f.succs e d b ∧ ∀ d', ImmediateDominator f.succs e d' b → d' = d) ∧
      (∀ b, (f.idomsFrom stored).getD b none = none ↔ b = e ∨ ¬∃ l, Route f.succs e b l) := by
  have hreach := mem_reversePostOrder_iff hentry he hmirror
  obtain ⟨rest, horder, hord⟩ :=
    reversePostOrder_ordered hentry fun a _ b hb => (hmirror a b).1 hb
  obtain ⟨J, hJ, hJsize, -, htree, hknown, hparents⟩ :=
    idoms_settled hentry he hmirror horder hord
  have hsame : f.idomsFrom stored = f.idoms := idomsFrom_eq_idoms hsize hother (by simp [horder])
  have hroot : f.idoms.getD e none = none := by
    simp [hJ, Array.getD_eq_getD_getElem?, hJsize, he]
  have hparent : ∀ b, b ≠ e → f.idoms.getD b none = J.getD b none := by
    intro b hb
    simp only [hJ, Array.getD_eq_getD_getElem?, Array.getElem?_setIfInBounds, if_neg (Ne.symm hb)]
  obtain ⟨hcomputes, hclimbs⟩ := loops_end hentry he hmirror hsize hother
  rw [horder] at hreach
  refine ⟨hcomputes, hclimbs, ?_, ?_, ?_⟩
  · intro a b l hl
    have hedges := mirrored_reversePostOrder hentry he hmirror
    have hblocks : ∀ c ∈ f.reversePostOrder, c < f.blocks.size := fun c =>
      lt_size_of_mem_reversePostOrder hentry he hmirror
    rw [hsame]
    constructor
    · exact onEveryRoute_of_dominates hentry hedges hblocks
    · apply idoms_dominates hentry (fun p hp c hc => (hedges p hp c hc).2) hblocks
      · exact certificate_onEveryRoute (fun a b => (hmirror a b).2) e
      · exact horder ▸ (hreach b).2 ⟨l, hl⟩
  · intro b l hl hb
    obtain ⟨d, hd⟩ := Option.isSome_iff_exists.1 (hknown b ((hreach b).2 ⟨l, hl⟩))
    have himm := hparents b d hb hd
    rw [hsame, hparent b hb]
    exact ⟨d, hd, himm, fun d' h' => h'.unique hl himm⟩
  · intro b
    rw [hsame]
    by_cases hb : b = e
    · simp [hb, hroot]
    · rw [hparent b hb]
      constructor
      · intro hnone
        refine Or.inr fun hroute => ?_
        have hsome := hknown b ((hreach b).2 hroute)
        rw [hnone] at hsome
        cases hsome
      · rintro (hbe | hroute)
        · exact absurd hbe hb
        · by_contra hsome
          exact hroute ((hreach b).1 (htree.known b (Option.isSome_iff_ne_none.2 hsome)))

/-- It is enough to look at the edges of the blocks that there are. -/
theorem mirror_of_blocks (hsuccs : ∀ a < f.blocks.size, ∀ b ∈ f.succs a, a ∈ f.preds b)
    (hpreds : ∀ b < f.blocks.size, ∀ a ∈ f.preds b, b ∈ f.succs a) (a b : Nat) :
    b ∈ f.succs a ↔ a ∈ f.preds b := by
  constructor
  · intro h
    apply hsuccs a _ b h
    by_contra hge
    rw [succs, block?, Array.getElem?_eq_none (Nat.le_of_not_lt hge)] at h
    cases h
  · intro h
    apply hpreds b _ a h
    by_contra hge
    rw [preds, block?, Array.getElem?_eq_none (Nat.le_of_not_lt hge)] at h
    cases h

/-- Blocks that lead to each other, to themselves and back to the entry, and one that no
route leads to. -/
def tangled : Func :=
  { name := "tangled"
    order := [0, 1, 2, 3, 4, 5]
    blocks := #[
      { id := 0, succs := [1, 2], preds := [4] },
      { id := 1, succs := [2, 3], preds := [0, 2] },
      { id := 2, succs := [1, 4], preds := [0, 1] },
      { id := 3, succs := [3, 4], preds := [1, 3] },
      { id := 4, succs := [0], preds := [2, 3, 5] },
      { id := 5, succs := [4], preds := [] }] }

/-- What is stored for the blocks of `tangled` before matters as little as the blocks that
lead to each other. -/
theorem tangled_dominators :
    let stored : Idoms := #[some 3, some 5, none, some 4, some 3, some 1]
    tangled.Computes stored #[none, some 0, some 0, some 1, some 0, none] ∧
      OnEveryRoute tangled.succs 0 1 3 ∧ ¬OnEveryRoute tangled.succs 0 2 4 := by
  intro stored
  have hother : ∀ b, b ∉ tangled.order → stored.getD b none = none := by
    intro b hb
    by_cases hlt : b < 6
    · exact absurd (by simp [tangled]; omega) hb
    · simp [stored, Array.getD, hlt]
  have hmirror := tangled.mirror_of_blocks (by decide) (by decide)
  have hstored : stored.size = tangled.blocks.size := rfl
  obtain ⟨hcomputes, _, hdominates, _⟩ :=
    dominators_computed (f := tangled) rfl (by decide) hmirror hstored hother
  have hresult : tangled.idomsFrom stored =
      #[none, some 0, some 0, some 1, some 0, none] := by
    decide +kernel
  rw [hresult] at hcomputes hdominates
  refine ⟨hcomputes, ?_, ?_⟩
  · exact (hdominates 1 3 [3, 1, 0] (.step (.step .start (by decide)) (by decide))).1 rfl
  · have hroute : Route tangled.succs 0 4 [4, 3, 1, 0] :=
      .step (.step (.step .start (by decide)) (by decide)) (by decide)
    rw [← hdominates 2 4 _ hroute]
    decide

end Func

end ClassLang.Graph

/-!
Reverse post-order respects dominance. Whoever goes back from a block to a predecessor
that is listed before it, and on to the entry, has found a route that passes only blocks
listed up to that block. What lies on every route is among them.
-/

namespace ClassLang.Graph

namespace Ordered

variable {succs preds : Nat → List Nat} {e : Nat} {rest : List Nat}

/-- Each block has a route that passes only blocks listed before it. -/
theorem exists_route (hord : Ordered preds e rest) (hedges : ∀ p b, p ∈ preds b → b ∈ succs p)
    {b : Nat} (hb : b ∈ e :: rest) :
    ∃ l, Route succs e b l ∧ ∀ c ∈ l, c ≠ b → (e :: rest).idxOf c < (e :: rest).idxOf b := by
  -- by induction on the place of the block in the order
  induction hidx : (e :: rest).idxOf b using Nat.strong_induction_on generalizing b with
  | _ n ih =>
      subst hidx
      rcases List.mem_cons.1 hb with rfl | hrest
      · exact ⟨[b], .start, fun c hc hne => absurd (List.mem_singleton.1 hc) hne⟩
      · obtain ⟨p, hp, hsub⟩ := hord.pred b hrest
        have hlt := idxOf_lt_of_sublist hord.nodup hsub
        obtain ⟨l, hl, hbefore⟩ := ih _ hlt (hsub.subset (by simp)) rfl
        refine ⟨b :: l, .step hl (hedges p b hp), fun c hc hne => ?_⟩
        have hcl := (List.mem_cons.1 hc).resolve_left hne
        by_cases hcp : c = p
        · exact hcp ▸ hlt
        · exact Nat.lt_trans (hbefore c hcl hcp) hlt

/-- What lies on every route to a block is listed before it. -/
theorem idxOf_lt_of_onEveryRoute (hord : Ordered preds e rest)
    (hedges : ∀ p b, p ∈ preds b → b ∈ succs p) {a b : Nat} (hb : b ∈ e :: rest)
    (hdom : OnEveryRoute succs e a b) (hne : a ≠ b) :
    (e :: rest).idxOf a < (e :: rest).idxOf b := by
  obtain ⟨l, hl, hbefore⟩ := hord.exists_route hedges hb
  exact hbefore a (hdom l hl) hne

end Ordered

namespace Func

variable {f : Func} {e : Nat}

/-- For a graph whose lists of predecessors mirror its lists of successors the walk that
orders the blocks ends. It lists the blocks that control can reach, each once and the entry
first; each other one comes behind one of its predecessors, and behind every block that all
routes to it pass. -/
theorem order_respects_dominance (hentry : f.entry = some e) (he : e < f.blocks.size)
    (hmirror : ∀ a b, b ∈ f.succs a ↔ a ∈ f.preds b) :
    let order := f.reversePostOrder
    (∃ w, Walks f.succs {} [e] w ∧ w.done = order) ∧
      (∀ b, b ∈ order ↔ ∃ l, Route f.succs e b l) ∧ order.Nodup ∧ order.head? = some e ∧
      (∀ b ∈ order, b ≠ e → ∃ p ∈ f.preds b, order.idxOf p < order.idxOf b) ∧
      ∀ a b l, Route f.succs e b l → OnEveryRoute f.succs e a b → a ≠ b →
        order.idxOf a < order.idxOf b := by
  intro order
  have hreach := mem_reversePostOrder_iff hentry he hmirror
  obtain ⟨rest, horder, hord⟩ :=
    reversePostOrder_ordered hentry fun a _ b hb => (hmirror a b).1 hb
  refine ⟨walks_reversePostOrder hentry he hmirror, hreach, ?_⟩
  simp only [order, horder] at hreach ⊢
  refine ⟨hord.nodup, rfl, fun b hb hne => ?_, fun a b l hl hdom hne => ?_⟩
  · obtain ⟨p, hp, hsub⟩ := hord.pred b ((List.mem_cons.1 hb).resolve_left hne)
    exact ⟨p, hp, idxOf_lt_of_sublist hord.nodup hsub⟩
  · exact hord.idxOf_lt_of_onEveryRoute (fun p b => (hmirror p b).2) ((hreach b).2 ⟨l, hl⟩)
      hdom hne

/-- In `tangled` all routes to block 3 pass block 1, which is listed before it. -/
theorem tangled_order :
    tangled.reversePostOrder = [0, 1, 3, 2, 4] ∧ OnEveryRoute tangled.succs 0 1 3 ∧
      tangled.reversePostOrder.idxOf 1 < tangled.reversePostOrder.idxOf 3 := by
  have hmirror := tangled.mirror_of_blocks (by decide) (by decide)
  have hdom : OnEveryRoute tangled.succs 0 1 3 := by
    intro l hl
    generalize hb : 3 = b at hl
    induction hl with
    | start => cases hb
    | @step p b l front edge ih =>
        subst hb
        have hp : p ∈ [1, 3] := (hmirror p 3).1 edge
        rcases List.mem_pair.1 hp with rfl | rfl
        · exact List.mem_cons_of_mem _ front.mem
        · exact List.mem_cons_of_mem _ (ih rfl)
  have hroute : Route tangled.succs 0 3 [3, 1, 0] :=
    .step (.step .start (by decide)) (by decide)
  obtain ⟨-, -, -, -, -, hbefore⟩ :=
    order_respects_dominance (f := tangled) rfl (by decide) hmirror
  exact ⟨by decide, hdom, hbefore 1 3 _ hroute hdom (by decide)⟩

end Func

end ClassLang.Graph
