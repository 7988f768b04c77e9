import ClassLang.Proofs.Graph.Dominance

/-!
Whatever block is found to dominate another lies on every route to it. A pass over the
blocks gets those routes right that go back in the order of the blocks less often than
passes have been made, and no route without a repetition goes back more often than there
are blocks.
-/

namespace ClassLang.Graph

/-! Routes -/

/-- A route from block `e` to a block, with the blocks that it passes, the last one
first. -/
inductive Route (succs : Nat → List Nat) (e : Nat) : Nat → List Nat → Prop
  | start : Route succs e e [e]
  | step {p b : Nat} {l : List Nat} (front : Route succs e p l) (edge : b ∈ succs p) :
      Route succs e b (b :: l)

namespace Route

variable {succs : Nat → List Nat} {e b c : Nat} {l : List Nat}

theorem mem (h : Route succs e b l) : b ∈ l := by
  cases h <;> exact List.mem_cons_self

/-- A route to a block that is passed on the way. -/
theorem to_mem (h : Route succs e b l) (hc : c ∈ l) : ∃ l', Route succs e c l' ∧ l' <:+ l := by
  induction h with
  | start => exact ⟨[e], List.mem_singleton.1 hc ▸ .start, List.suffix_refl _⟩
  | @step p b l front edge ih =>
      rcases List.mem_cons.1 hc with rfl | hc
      · exact ⟨c :: l, .step front edge, List.suffix_refl _⟩
      · obtain ⟨l', hl', hsuffix⟩ := ih hc
        exact ⟨l', hl', hsuffix.trans (List.suffix_cons b l)⟩

/-- A shorter route need not pass a block twice. -/
theorem exists_nodup (h : Route succs e b l) : ∃ l', Route succs e b l' ∧ l'.Nodup ∧ l' ⊆ l := by
  induction h with
  | start => exact ⟨[e], .start, by simp, List.Subset.refl _⟩
  | @step p b l _ edge ih =>
      obtain ⟨l', hl', hnodup, hsub⟩ := ih
      by_cases hb : b ∈ l'
      · obtain ⟨l'', hl'', hsuffix⟩ := hl'.to_mem hb
        exact ⟨l'', hl'', hnodup.sublist hsuffix.sublist,
          fun x hx => List.mem_cons_of_mem _ (hsub (hsuffix.subset hx))⟩
      · exact ⟨b :: l', .step hl' edge, List.nodup_cons.2 ⟨hb, hnodup⟩,
          List.cons_subset_cons b hsub⟩

/-- A route stays among blocks that no edge leads out of. -/
theorem subset {order : List Nat} (h : Route succs e b l) (he : e ∈ order)
    (hclosed : ∀ p c, p ∈ order → c ∈ succs p → c ∈ order) : l ⊆ order := by
  induction h with
  | start => exact fun x hx => List.mem_singleton.1 hx ▸ he
  | @step p b l front edge ih =>
      exact List.cons_subset.2 ⟨hclosed p b (ih front.mem) edge, ih⟩

end Route

/-- Every route from block `e` to block `b` passes block `a`. -/
def OnEveryRoute (succs : Nat → List Nat) (e a b : Nat) : Prop :=
  ∀ l, Route succs e b l → a ∈ l

namespace OnEveryRoute

variable {succs : Nat → List Nat} {e a b c : Nat}

theorem refl (b : Nat) : OnEveryRoute succs e b b := fun _ h => h.mem

theorem trans (h : OnEveryRoute succs e a b) (h' : OnEveryRoute succs e b c) :
    OnEveryRoute succs e a c := by
  intro l hl
  obtain ⟨l', hl', hsuffix⟩ := hl.to_mem (h' l hl)
  exact hsuffix.subset (h l' hl')

/-- What every route to a block passes before it, every route to its predecessors does. -/
theorem pred {p : Nat} (h : OnEveryRoute succs e a b) (hne : a ≠ b) (hp : b ∈ succs p) :
    OnEveryRoute succs e a p := fun l hl =>
  (List.mem_cons.1 (h (b :: l) (.step hl hp))).resolve_left hne

/-- Of two blocks that can be reached, only one comes before the other on every route. -/
theorem antisymm {l : List Nat} (hroute : Route succs e b l) (h : OnEveryRoute succs e a b)
    (h' : OnEveryRoute succs e b a) : a = b := by
  by_contra hne
  -- the shortest way to one of them would have to pass the other before it
  have hall : ∀ n l, l.length ≤ n → ¬ Route succs e b l := by
    intro n
    induction n with
    | zero =>
        intro l hl hr
        have hnil : l = [] := List.length_eq_zero_iff.1 (Nat.le_zero.1 hl)
        subst hnil
        cases hr
    | succ n ih =>
        intro l hl hr
        cases hr with
        | start => exact hne (List.mem_singleton.1 (h [e] .start))
        | @step p _ l front edge =>
            have ha : a ∈ l := (List.mem_cons.1 (h _ (.step front edge))).resolve_left hne
            obtain ⟨l₁, hl₁, hsuffix₁⟩ := front.to_mem ha
            obtain ⟨l₂, hl₂, hsuffix₂⟩ := hl₁.to_mem (h' l₁ hl₁)
            have hlen : l₂.length ≤ l.length := (hsuffix₂.trans hsuffix₁).length_le
            simp only [List.length_cons] at hl
            exact ih l₂ (by omega) hl₂
  exact hall l.length l (Nat.le_refl _) hroute

end OnEveryRoute

/-! Routes that go back a number of times -/

/-- A route that goes back in `order` at most `k` times. -/
inductive Trail (succs : Nat → List Nat) (order : List Nat) (e : Nat) :
    Nat → Nat → List Nat → Prop
  | start {k : Nat} : Trail succs order e k e [e]
  | ahead {k p b : Nat} {l : List Nat} (front : Trail succs order e k p l) (edge : b ∈ succs p)
      (later : order.idxOf p < order.idxOf b) : Trail succs order e k b (b :: l)
  | back {k p b : Nat} {l : List Nat} (front : Trail succs order e k p l) (edge : b ∈ succs p) :
      Trail succs order e (k + 1) b (b :: l)

namespace Trail

variable {succs : Nat → List Nat} {order : List Nat} {e k b c : Nat} {l : List Nat}

theorem mem (h : Trail succs order e k b l) : b ∈ l := by
  cases h <;> exact List.mem_cons_self

theorem mono {n : Nat} (h : Trail succs order e k b l) (hk : k ≤ n) :
    Trail succs order e n b l := by
  induction h generalizing n with
  | start => exact .start
  | ahead _ edge later ih => exact .ahead (ih hk) edge later
  | back _ edge ih =>
      obtain ⟨m, rfl⟩ := Nat.exists_eq_add_of_le' hk
      rw [← Nat.add_assoc]
      exact .back (ih (Nat.le_add_left _ _)) edge

theorem to_mem (h : Trail succs order e k b l) (hc : c ∈ l) :
    ∃ l', Trail succs order e k c l' ∧ l' ⊆ l := by
  induction h with
  | start => exact ⟨[e], List.mem_singleton.1 hc ▸ .start, List.Subset.refl _⟩
  | @ahead k p b l front edge later ih =>
      rcases List.mem_cons.1 hc with rfl | hc
      · exact ⟨c :: l, .ahead front edge later, List.Subset.refl _⟩
      · obtain ⟨l', hl', hsub⟩ := ih hc
        exact ⟨l', hl', fun x hx => List.mem_cons_of_mem _ (hsub hx)⟩
  | @back k p b l front edge ih =>
      rcases List.mem_cons.1 hc with rfl | hc
      · exact ⟨c :: l, .back front edge, List.Subset.refl _⟩
      · obtain ⟨l', hl', hsub⟩ := ih hc
        exact ⟨l', hl'.mono (Nat.le_succ k), fun x hx => List.mem_cons_of_mem _ (hsub hx)⟩

/-- A trail stays among blocks that no edge leads out of. -/
theorem mem_order {order' : List Nat} (h : Trail succs order e k b l) (he : e ∈ order')
    (hclosed : ∀ p c, p ∈ order' → c ∈ succs p → c ∈ order') : b ∈ order' := by
  induction h with
  | start => exact he
  | ahead _ edge _ ih | back _ edge ih => exact hclosed _ _ ih edge

/-- Every route is one that goes back less often than it has blocks. -/
theorem of_route (h : Route succs e b l) : Trail succs order e (l.length - 1) b l := by
  induction h with
  | start => exact .start
  | @step p b l front edge ih =>
      have hlen : 0 < l.length := List.length_pos_of_mem front.mem
      have hpred : (b :: l).length - 1 = l.length - 1 + 1 := by
        simp only [List.length_cons]
        omega
      rw [hpred]
      exact .back ih edge

end Trail

/-- Every trail to `b` that goes back less than `n` times passes `a`. -/
def Passed (succs : Nat → List Nat) (order : List Nat) (e n a b : Nat) : Prop :=
  ∀ k < n, ∀ l, Trail succs order e k b l → a ∈ l

namespace Passed

variable {succs : Nat → List Nat} {order : List Nat} {e n a b c : Nat}

theorem refl (b : Nat) : Passed succs order e n b b := fun _ _ _ h => h.mem

theorem trans (h : Passed succs order e n a b) (h' : Passed succs order e n b c) :
    Passed succs order e n a c := by
  intro k hk l hl
  obtain ⟨l', hl', hsub⟩ := hl.to_mem (h' k hk l hl)
  exact hsub (h k hk l' hl')

theorem mono {m : Nat} (h : Passed succs order e n a b) (hm : m ≤ n) :
    Passed succs order e m a b := fun k hk => h k (Nat.lt_of_lt_of_le hk hm)

/-- Trails that go back less often than there are blocks tell of all routes. -/
theorem onEveryRoute (h : Passed succs order e n a b) (hn : order.length < n)
    (hclosed : ∀ p c, p ∈ order → c ∈ succs p → c ∈ order) (he : e ∈ order) :
    OnEveryRoute succs e a b := by
  intro l hl
  obtain ⟨l', hl', hnodup, hsub⟩ := hl.exists_nodup
  have hin : l' ⊆ order := hl'.subset he hclosed
  have hlen : l'.length ≤ order.length := (List.subperm_of_subset hnodup hin).length_le
  exact hsub (h _ (by omega) l' (.of_route hl'))

end Passed

/-! What passes achieve -/

/-- The parent of each block is passed by the trails that go back less than `n` times. -/
def ParentsPassed (succs : Nat → List Nat) (order : List Nat) (e n : Nat) (I : Idoms) : Prop :=
  ∀ b d, b ≠ e → I.getD b none = some d → Passed succs order e n d b

/-- Edges stay among the blocks of `order`, and are known at both ends. -/
def Mirrored (succs preds : Nat → List Nat) (order : List Nat) : Prop :=
  ∀ p ∈ order, ∀ b ∈ succs p, b ∈ order ∧ p ∈ preds b

/-- Without a change a pass has left all blocks as they were. -/
theorem refine_unchanged {preds : Nat → List Nat} {order rest : List Nat} {I : Idoms}
    (h : (refine preds order (I, false) rest).2 = false) :
    (refine preds order (I, false) rest).1 = I := by
  have hstays : ∀ (rest : List Nat) (I : Idoms),
      (refine preds order (I, true) rest).2 = true := by
    intro rest
    induction rest with
    | nil => exact fun _ => rfl
    | cons b rest ih =>
        intro I
        simp only [refine, List.foldl_cons] at ih ⊢
        cases mergePreds order I (preds b) with
        | none => exact ih I
        | some d =>
            dsimp only
            split
            · exact ih I
            · exact ih _
  induction rest with
  | nil => rfl
  | cons b rest ih =>
      simp only [refine, List.foldl_cons] at h hstays ih ⊢
      cases hd : mergePreds order I (preds b) with
      | none =>
          simp only [hd] at h ⊢
          exact ih h
      | some d =>
          simp only [hd] at h ⊢
          split at h
          next hsame =>
            rw [if_pos hsame]
            exact ih h
          next => rw [hstays] at h; cases h

namespace Tree

variable {succs preds : Nat → List Nat} {rest : List Nat} {e n : Nat} {I : Idoms}

/-- On the way up everything is passed, if all parents so far up are. -/
theorem passed_of_up {order : List Nat} {a c : Nat} (h : Tree Eq e order I) (hup : Up I e a c)
    (hparents : ∀ x d, x ≠ e → order.idxOf x ≤ order.idxOf c → I.getD x none = some d →
      Passed succs order e n d x) : Passed succs order e n a c := by
  induction hup with
  | here => exact .refl _
  | @above c d hne hparent hrest ih =>
      have hlt := (h.parent _ _ hne hparent).1
      have hd := hparents c d hne (Nat.le_refl _) hparent
      exact (ih fun x d' hx hidx => hparents x d' hx (Nat.le_trans hidx (Nat.le_of_lt hlt))).trans hd

theorem certificate_eq (preds : Nat → List Nat) (e : Nat) : Certificate Eq preds e :=
  ⟨fun _ h => h, fun _ _ _ h hne _ => absurd h hne⟩

/-- What a pass keeps, where it is done with the blocks `done`: the trails to these are
right that go back once more than those to all blocks. -/
structure PassInv (succs : Nat → List Nat) (order : List Nat) (e n : Nat) (done : List Nat)
    (J : Idoms) : Prop where
  done : ∀ b ∈ done, ∀ d, J.getD b none = some d → Passed succs order e (n + 1) d b
  all : ParentsPassed succs order e n J
  known : 0 < n → ∀ b ∈ order, (J.getD b none).isSome = true

/-- The parent of a block that its predecessors tell is passed by the trails that go back
once more. -/
theorem Meets.passed {done todo : List Nat} {b d : Nat} {J : Idoms} (hord : Ordered preds e rest)
    (hedges : Mirrored succs preds (e :: rest)) (hJ : Tree Eq e (e :: rest) J)
    (hrest : rest = done ++ b :: todo) (hbefore : ∀ c ∈ e :: done, (J.getD c none).isSome = true)
    (hmeets : Meets J e (preds b) d) (h : PassInv succs (e :: rest) e n done J) :
    Passed succs (e :: rest) e (n + 1) d b := by
  have hnodup : ((e :: done) ++ b :: todo).Nodup := by
    rw [List.cons_append, ← hrest]
    exact hord.nodup
  have hidx : ∀ x, (e :: rest).idxOf x < (e :: rest).idxOf b → x ∈ e :: done := by
    intro x hx
    rw [hrest, ← List.cons_append] at hx
    exact mem_of_idxOf_lt hnodup hx
  intro k hk l hl
  cases hl with
  | start =>
      exact absurd rfl ((List.nodup_append.1 hnodup).2.2 e List.mem_cons_self e List.mem_cons_self)
  | @ahead _ p _ l front edge later =>
      have hp : p ∈ e :: rest := front.mem_order List.mem_cons_self fun p c hp => (hedges p hp c · |>.1)
      have hup := hmeets.up p (hedges p hp b edge).2 (hbefore p (hidx p later))
      refine List.mem_cons_of_mem _ (hJ.passed_of_up hup ?_ k hk l front)
      intro x d' hx hle hd'
      have hmem := hidx x (Nat.lt_of_le_of_lt hle later)
      exact h.done x ((List.mem_cons.1 hmem).resolve_left hx) d' hd'
  | @back k p _ l front edge =>
      have hp : p ∈ e :: rest := front.mem_order List.mem_cons_self fun p c hp => (hedges p hp c · |>.1)
      have hup := hmeets.up p (hedges p hp b edge).2 (h.known (by omega) p hp)
      exact List.mem_cons_of_mem _
        (hJ.passed_of_up hup (fun x d' hx _ hd' => h.all x d' hx hd') k (by omega) l front)

/-- A pass gets the trails right that go back once more. -/
theorem refine_passed (hord : Ordered preds e rest) (hsize : ∀ b ∈ e :: rest, b < I.size)
    (hedges : Mirrored succs preds (e :: rest))
    (h : Tree Eq e (e :: rest) I) (hpassed : ParentsPassed succs (e :: rest) e n I)
    (hknown : 0 < n → ∀ b ∈ e :: rest, (I.getD b none).isSome = true) :
    ParentsPassed succs (e :: rest) e (n + 1)
      (refine preds (e :: rest) (I, false) rest).1 := by
  have hstep : ∀ done todo b J d, rest = done ++ b :: todo → Tree Eq e (e :: rest) J →
      b < J.size → (∀ c ∈ e :: done, (J.getD c none).isSome = true) → Meets J e (preds b) d →
      PassInv succs (e :: rest) e n done J →
      PassInv succs (e :: rest) e n (done ++ [b]) (J.setIfInBounds b (some d)) := by
    intro done todo b J d hrest hJ hb hbefore hmeets hinv
    have hnew := hmeets.passed hord hedges hJ hrest hbefore hinv
    refine ⟨fun c hc d' hd' => ?_, fun c d' hce hd' => ?_, fun hn c hc => ?_⟩
    · rw [getD_set hb] at hd'
      split at hd'
      next heq => exact heq ▸ Option.some.inj hd' ▸ hnew
      next hne =>
        refine hinv.done c ?_ d' hd'
        exact (List.mem_append.1 hc).resolve_right fun hc => hne (List.mem_singleton.1 hc)
    · rw [getD_set hb] at hd'
      split at hd'
      next heq => exact heq ▸ Option.some.inj hd' ▸ hnew.mono (Nat.le_succ n)
      next => exact hinv.all c d' hce hd'
    · rw [getD_set hb]
      split
      · rfl
      · exact hinv.known hn c hc
  obtain ⟨htree, _, _, hinv⟩ := refine_tree (certificate_eq preds e) hord hsize false h
    (⟨by simp, hpassed, hknown⟩ : PassInv succs (e :: rest) e n [] I) hstep
  intro b d hb hd
  have hmem := htree.known b (by rw [hd]; rfl)
  exact hinv.done b ((List.mem_cons.1 hmem).resolve_left hb) d hd

/-- Passes until none changes a block, or a number of them. -/
theorem settle_passed (hord : Ordered preds e rest)
    (hedges : Mirrored succs preds (e :: rest)) (fuel : Nat) :
    ∀ (n : Nat) (I : Idoms), (∀ b ∈ e :: rest, b < I.size) → Tree Eq e (e :: rest) I →
      ParentsPassed succs (e :: rest) e n I →
      (0 < n → ∀ b ∈ e :: rest, (I.getD b none).isSome = true) →
      ParentsPassed succs (e :: rest) e (n + fuel) (settle preds (e :: rest) rest fuel I) := by
  induction fuel with
  | zero => exact fun n I _ _ hpassed _ => hpassed
  | succ fuel ih =>
      intro n I hsize h hpassed hknown
      obtain ⟨htree, hsize', hall, _⟩ := refine_tree (M := fun _ _ => True)
        (certificate_eq preds e) hord hsize false h trivial fun _ _ _ _ _ _ _ _ _ _ _ => trivial
      have hstep := refine_passed hord hsize hedges h hpassed hknown
      unfold settle
      dsimp only
      split
      next =>
        have hrest := ih (n + 1) _ (fun b hb => hsize' ▸ hsize b hb) htree hstep fun _ => hall
        rwa [Nat.add_assoc, Nat.add_comm 1 fuel] at hrest
      next hsame =>
        -- what no pass changes is right for trails of every kind
        have hsame := refine_unchanged (Bool.eq_false_iff.2 hsame)
        rw [hsame] at hall ⊢
        have hevery : ∀ m, ParentsPassed succs (e :: rest) e m I := by
          intro m
          induction m with
          | zero => exact fun _ _ _ _ k hk => absurd hk (Nat.not_lt_zero k)
          | succ m ihm =>
              have hpass := refine_passed hord hsize hedges h ihm fun _ => hall
              rwa [hsame] at hpass
        exact hevery _

end Tree

namespace Func

variable {f : Func}

/-- A block that is found to dominate a block that control can reach lies on every route
to it. -/
theorem onEveryRoute_of_dominates {e a b : Nat} (hentry : f.entry = some e)
    (hedges : Mirrored f.succs f.preds f.reversePostOrder)
    (hsize : ∀ b ∈ f.reversePostOrder, b < f.blocks.size)
    (hdom : f.idoms.dominates a b = true) : OnEveryRoute f.succs e a b := by
  obtain ⟨rest, horder, hord⟩ :=
    reversePostOrder_ordered hentry fun a ha b hb => (hedges a ha b hb).2
  rw [horder] at hsize hedges
  have he : e < f.blocks.size := hsize e List.mem_cons_self
  obtain ⟨I, hI⟩ : ∃ I, I = (Array.replicate f.blocks.size none : Idoms).setIfInBounds e (some e) :=
    ⟨_, rfl⟩
  have hIsize : I.size = f.blocks.size := by rw [hI]; simp
  have hstart : Tree Eq e (e :: rest) I := hI ▸ Tree.start Eq he fun _ h => h
  have hlone : ∀ c d, c ≠ e → I.getD c none = some d → False := by
    intro c d hc hd
    rw [hI, Tree.getD_start he, if_neg hc] at hd
    cases hd
  have hpassed := Tree.settle_passed hord hedges (f.blocks.size * f.blocks.size + 2) 0 I
    (by rwa [hIsize]) hstart (fun c d hc hd => (hlone c d hc hd).elim) (by simp)
  have hlen : (e :: rest).length ≤ f.blocks.size := by
    have hsub : (e :: rest) ⊆ List.range f.blocks.size := fun x hx =>
      List.mem_range.2 (hsize x hx)
    simpa using (List.subperm_of_subset hord.nodup hsub).length_le
  have hall : ∀ b d, b ≠ e → (settle f.preds (e :: rest) rest
      (f.blocks.size * f.blocks.size + 2) I).getD b none = some d → OnEveryRoute f.succs e d b := by
    intro b d hb hd
    refine (hpassed b d hb hd).onEveryRoute ?_ (fun p c hp hc => (hedges p hp c hc).1)
      List.mem_cons_self
    have hsquare : f.blocks.size ≤ f.blocks.size * f.blocks.size := Nat.le_mul_self _
    omega
  unfold Idoms.dominates at hdom
  rw [idoms_eq horder, ← hI] at hdom
  generalize (settle f.preds (e :: rest) rest (f.blocks.size * f.blocks.size + 2) I) = J at hdom hall
  -- up the tree from `b`, where the entry has lost its parent
  generalize (J.setIfInBounds e none).size = fuel at hdom
  induction fuel generalizing b with
  | zero =>
      have hab : a = b := by simpa [Idoms.above] using hdom
      exact hab ▸ .refl a
  | succ fuel ih =>
      rw [Idoms.above, Bool.or_eq_true] at hdom
      rcases hdom with hab | hup
      · have hab : a = b := by simpa using hab
        exact hab ▸ .refl a
      · split at hup
        next d hd =>
          have hb : b ≠ e := by
            rintro rfl
            simp only [Array.getD_eq_getD_getElem?, Array.getElem?_setIfInBounds, if_true] at hd
            split at hd <;> cases hd
          have hd' : J.getD b none = some d := by
            rw [← hd]
            simp only [Array.getD_eq_getD_getElem?, Array.getElem?_setIfInBounds]
            rw [if_neg (Ne.symm hb)]
          exact (ih hup).trans (hall b d hb hd')
        next => cases hup

end Func

end ClassLang.Graph
