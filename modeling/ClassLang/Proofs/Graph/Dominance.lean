import ClassLang.Proofs.Graph.Walk

/-!
The walk up the computed dominators finds every block that must be passed. What must
be passed is given by a certificate: a relation `D` such that whatever must be passed
on the way to a block is that block or must be passed on the way to each of its
predecessors.
-/

namespace ClassLang.Graph

/-! The tree of dominators -/

/-- Block `a` is met on the way up from `b`. -/
inductive Up (I : Idoms) (e : Nat) : Nat → Nat → Prop
  | here (b : Nat) : Up I e b b
  | above {a b d : Nat} (hne : b ≠ e) (parent : I.getD b none = some d) (rest : Up I e a d) :
      Up I e a b

theorem Up.trans {I : Idoms} {e a b c : Nat} (h : Up I e a b) (h' : Up I e b c) : Up I e a c := by
  induction h' with
  | here => exact h
  | above hne hparent _ ih => exact .above hne hparent ih

/-- `D` tells which blocks must be passed: nothing before the entry, and whatever must be
passed on the way to a block must be passed on the way to its predecessors. -/
structure Certificate (D : Nat → Nat → Prop) (preds : Nat → List Nat) (e : Nat) : Prop where
  root : ∀ a, D a e → a = e
  step : ∀ a b p, D a b → a ≠ b → p ∈ preds b → D a p

/-- A tree that leads from each block it knows to blocks before it in `order`. It has not
lost a block that must be passed: none that must be passed on the way to `b` lies between
`b` and its parent, and all of them are met on the way up. -/
structure Tree (D : Nat → Nat → Prop) (e : Nat) (order : List Nat) (I : Idoms) : Prop where
  root : I.getD e none = some e
  first : order.idxOf e = 0
  known : ∀ b, (I.getD b none).isSome = true → b ∈ order
  parent : ∀ b d, b ≠ e → I.getD b none = some d → order.idxOf d < order.idxOf b ∧
    (I.getD d none).isSome = true ∧ ∀ a, D a b → order.idxOf a < order.idxOf d → D a d
  complete : ∀ b, (I.getD b none).isSome = true → ∀ a, D a b → Up I e a b

namespace Tree

variable {D : Nat → Nat → Prop} {e : Nat} {order : List Nat} {I : Idoms} {a b c : Nat}

theorem up_idx (h : Tree D e order I) (hup : Up I e a b) : order.idxOf a ≤ order.idxOf b := by
  induction hup with
  | here => exact Nat.le_refl _
  | above hne hparent _ ih => exact Nat.le_trans ih (Nat.le_of_lt (h.parent _ _ hne hparent).1)

theorem up_known (h : Tree D e order I) (hup : Up I e a b)
    (hb : (I.getD b none).isSome = true) : (I.getD a none).isSome = true := by
  induction hup with
  | here => exact hb
  | above hne hparent _ ih => exact ih (h.parent _ _ hne hparent).2.1

/-- What must be passed on the way to a block must be passed on the way to each block
above it that comes later in the order. -/
theorem climb (h : Tree D e order I) (hup : Up I e b c) (hD : D a c)
    (hidx : order.idxOf a < order.idxOf b) : D a b := by
  induction hup with
  | here => exact hD
  | above hne hparent hrest ih =>
      exact ih ((h.parent _ _ hne hparent).2.2 a hD (Nat.lt_of_lt_of_le hidx (h.up_idx hrest)))

theorem idx_inj (h : Tree D e order I) (ha : (I.getD a none).isSome = true) (heq : order.idxOf a = order.idxOf b) : a = b :=
  (List.idxOf_inj (h.known a ha)).1 heq

/-- The way up from two blocks meets at their closest common block. -/
theorem intersect_up (h : Tree D e order I) (fuel : Nat) :
    ∀ a b, (I.getD a none).isSome = true → (I.getD b none).isSome = true →
      order.idxOf a + order.idxOf b < fuel →
      Up I e (intersect order I fuel a b) a ∧ Up I e (intersect order I fuel a b) b ∧
        ∀ x, Up I e x a → Up I e x b → Up I e x (intersect order I fuel a b) := by
  induction fuel with
  | zero => intro a b _ _ hfuel; exact absurd hfuel (Nat.not_lt_zero _)
  | succ fuel ih =>
      intro a b ha hb hfuel
      have hrise : ∀ a b, (I.getD a none).isSome = true →
          order.idxOf b < order.idxOf a → ∃ d, a ≠ e ∧ I.getD a none = some d := by
        intro a b ha hlt
        obtain ⟨d, hd⟩ := Option.isSome_iff_exists.1 ha
        exact ⟨d, by rintro rfl; rw [h.first] at hlt; omega, hd⟩
      -- a block that is not below `b` cannot be met on the way up from it
      have hskip : ∀ {a b d x}, a ≠ e → I.getD a none = some d →
          order.idxOf b < order.idxOf a → Up I e x a → Up I e x b → Up I e x d := by
        intro a b d x hne hd hlt hxa hxb
        cases hxa with
        | here => exact absurd (h.up_idx hxb) (Nat.not_le_of_lt hlt)
        | above _ hparent hrest =>
            obtain rfl : _ = d := Option.some.inj (hparent.symm.trans hd)
            exact hrest
      unfold intersect
      split
      next heq => subst heq; exact ⟨.here _, .here _, fun _ hx _ => hx⟩
      next hne =>
        split
        next hlt =>
          obtain ⟨d, hae, hd⟩ := hrise a b ha hlt
          obtain ⟨hidx, hdsome, _⟩ := h.parent a d hae hd
          simp only [hd, Option.getD_some]
          obtain ⟨hleft, hright, hall⟩ := ih d b hdsome hb (by omega)
          exact ⟨hleft.trans (.above hae hd (.here d)), hright,
            fun x hxa hxb => hall x (hskip hae hd hlt hxa hxb) hxb⟩
        next hle =>
          have hlt : order.idxOf a < order.idxOf b := by
            rcases Nat.lt_or_ge (order.idxOf a) (order.idxOf b) with hlt | hge
            · exact hlt
            · exact absurd (h.idx_inj ha (by omega)) hne
          obtain ⟨d, hbe, hd⟩ := hrise b a hb hlt
          obtain ⟨hidx, hdsome, _⟩ := h.parent b d hbe hd
          simp only [hd, Option.getD_some]
          obtain ⟨hleft, hright, hall⟩ := ih a d ha hdsome (by omega)
          exact ⟨hleft, hright.trans (.above hbe hd (.here d)),
            fun x hxa hxb => hall x hxa (hskip hbe hd hlt hxb hxa)⟩

/-- What the predecessors that are known tell: `d` is the closest block met on the way up
from all of them. -/
structure Meets (I : Idoms) (e : Nat) (ps : List Nat) (d : Nat) : Prop where
  up : ∀ p ∈ ps, (I.getD p none).isSome = true → Up I e d p
  some : ∃ p ∈ ps, (I.getD p none).isSome = true
  closest : ∀ x, (∀ p ∈ ps, (I.getD p none).isSome = true → Up I e x p) → Up I e x d

theorem Meets.known {ps : List Nat} {d : Nat} (hm : Meets I e ps d) (h : Tree D e order I) :
    (I.getD d none).isSome = true := by
  obtain ⟨p, hp, hsome⟩ := hm.some
  exact h.up_known (hm.up p hp hsome) hsome

/-- One more predecessor. -/
theorem Meets.snoc (h : Tree D e order I) {ps : List Nat} {d p : Nat} (hm : Meets I e ps d)
    (hp : (I.getD p none).isSome = true) :
    Meets I e (ps ++ [p]) (intersect order I (2 * order.length + 2) p d) := by
  have hfuel : order.idxOf p + order.idxOf d < 2 * order.length + 2 := by
    have hp := List.idxOf_le_length (l := order) (a := p)
    have hd := List.idxOf_le_length (l := order) (a := d)
    omega
  obtain ⟨hleft, hright, hall⟩ := h.intersect_up _ p d hp (hm.known h) hfuel
  refine ⟨fun q hq hsome => ?_, ⟨p, by simp, hp⟩, fun x hx => ?_⟩
  · rcases List.mem_append.1 hq with hq | hq
    · exact hright.trans (hm.up q hq hsome)
    · exact List.mem_singleton.1 hq ▸ hleft
  · exact hall x (hx p (by simp) hp) (hm.closest x fun q hq => hx q (by simp [hq]))

theorem Meets.skip {ps : List Nat} {d p : Nat} (hm : Meets I e ps d)
    (hp : I.getD p none = none) : Meets I e (ps ++ [p]) d := by
  refine ⟨fun q hq hsome => ?_, ?_, fun x hx => hm.closest x fun q hq => hx q (by simp [hq])⟩
  · rcases List.mem_append.1 hq with hq | hq
    · exact hm.up q hq hsome
    · rw [List.mem_singleton.1 hq, hp] at hsome
      cases hsome
  · obtain ⟨q, hq, hsome⟩ := hm.some
    exact ⟨q, by simp [hq], hsome⟩

/-- What the predecessor `p` adds to what those before it lead to. -/
def mergePred (order : List Nat) (I : Idoms) (acc : Option Nat) (p : Nat) : Option Nat :=
  match I.getD p none, acc with
  | none, _ => acc
  | some _, none => some p
  | some _, some d => some (intersect order I (2 * order.length + 2) p d)

theorem mergePreds_eq (order : List Nat) (I : Idoms) (preds : List Nat) :
    mergePreds order I preds = preds.foldl (mergePred order I) none := rfl

theorem mergePreds_meets (h : Tree D e order I) (preds : List Nat) :
    match mergePreds order I preds with
    | none => ∀ p ∈ preds, I.getD p none = none
    | some d => Meets I e preds d := by
  have hfold : ∀ (rest ps : List Nat) (acc : Option Nat),
      (match acc with
      | none => ∀ p ∈ ps, I.getD p none = none
      | some d => Meets I e ps d) →
      match rest.foldl (mergePred order I) acc with
      | none => ∀ p ∈ ps ++ rest, I.getD p none = none
      | some d => Meets I e (ps ++ rest) d := by
    intro rest
    induction rest with
    | nil => intro ps acc hacc; simpa using hacc
    | cons p rest ih =>
        intro ps acc hacc
        rw [List.foldl_cons, ← List.singleton_append, ← List.append_assoc]
        refine ih (ps ++ [p]) _ ?_
        unfold mergePred
        cases hp : I.getD p none with
        | none =>
            cases acc with
            | none =>
                intro q hq
                rcases List.mem_append.1 hq with hq | hq
                · exact hacc q hq
                · rw [List.mem_singleton.1 hq, hp]
            | some d => exact hacc.skip hp
        | some x =>
            have hsome : (I.getD p none).isSome = true := by rw [hp]; rfl
            cases acc with
            | none =>
                refine ⟨fun q hq hq' => ?_, ⟨p, by simp, hsome⟩, fun x hx => hx p (by simp) hsome⟩
                rcases List.mem_append.1 hq with hq | hq
                · rw [hacc q hq] at hq'
                  cases hq'
                · exact List.mem_singleton.1 hq ▸ .here q
            | some d => exact hacc.snoc h hsome
  rw [mergePreds_eq]
  exact hfold preds [] none (by simp)

theorem getD_set {I : Idoms} {b c d : Nat} (hb : b < I.size) :
    (I.setIfInBounds b (some d)).getD c none = if c = b then some d else I.getD c none := by
  simp only [Array.getD_eq_getD_getElem?, Array.getElem?_setIfInBounds, hb]
  split
  next heq => rw [if_pos heq.symm]; rfl
  next hne => rw [if_neg (fun heq => hne heq.symm)]

/-- A new parent of `b` changes the way up only where it leads through `b`. -/
theorem up_set (h : Tree D e order I) {d : Nat} (hb : b < I.size) (hup : Up I e a c) :
    Up (I.setIfInBounds b (some d)) e a c ∨
      (Up I e b c ∧ Up (I.setIfInBounds b (some d)) e b c ∧ order.idxOf a < order.idxOf b) := by
  induction hup with
  | here => exact Or.inl (.here _)
  | @above c d' hne hparent hrest ih =>
      by_cases hcb : c = b
      · subst hcb
        refine Or.inr ⟨.here _, .here _, ?_⟩
        exact Nat.lt_of_le_of_lt (h.up_idx hrest) (h.parent _ _ hne hparent).1
      · have hparent' : (I.setIfInBounds b (some d)).getD c none = some d' := by
          rw [getD_set hb, if_neg hcb, hparent]
        rcases ih with ih | ⟨hold, hnew, hidx⟩
        · exact Or.inl (.above hne hparent' ih)
        · exact Or.inr ⟨.above hne hparent hold, .above hne hparent' hnew, hidx⟩

/-- Giving a block the parent that its predecessors tell keeps the tree. -/
theorem set (h : Tree D e order I) {preds : Nat → List Nat} (hcert : Certificate D preds e)
    {d : Nat} (hne : b ≠ e) (horder : b ∈ order) (hb : b < I.size)
    (hm : Meets I e (preds b) d) (hidx : order.idxOf d < order.idxOf b) :
    Tree D e order (I.setIfInBounds b (some d)) := by
  have hdb : d ≠ b := by rintro rfl; exact Nat.lt_irrefl _ hidx
  have hd := hm.known h
  have hmono : ∀ c, (I.getD c none).isSome = true →
      ((I.setIfInBounds b (some d)).getD c none).isSome = true := by
    intro c hc
    rw [getD_set hb]
    split
    · rfl
    · exact hc
  -- what must be passed on the way to `b` is met on the way up from its new parent
  have habove : ∀ a, a ≠ b → D a b → Up (I.setIfInBounds b (some d)) e a d := by
    intro a hab hD
    have hup : Up I e a d := hm.closest a fun p hp hsome =>
      h.complete p hsome a (hcert.step a b p hD hab hp)
    rcases h.up_set (d := d) hb hup with hup | ⟨hbd, _, _⟩
    · exact hup
    · exact absurd (h.up_idx hbd) (Nat.not_le_of_lt hidx)
  have hbparent : (I.setIfInBounds b (some d)).getD b none = some d := by
    rw [getD_set hb, if_pos rfl]
  refine ⟨?_, h.first, ?_, ?_, ?_⟩
  · rw [getD_set hb, if_neg (Ne.symm hne)]
    exact h.root
  · intro c hc
    rw [getD_set hb] at hc
    split at hc
    next heq => exact heq ▸ horder
    next => exact h.known c hc
  · intro c d' hce hparent
    rw [getD_set hb] at hparent
    split at hparent
    next heq =>
      obtain rfl := Option.some.inj hparent
      subst heq
      refine ⟨hidx, hmono d hd, fun a hD ha => ?_⟩
      obtain ⟨p, hp, hsome⟩ := hm.some
      have hac : a ≠ c := by rintro rfl; omega
      exact h.climb (hm.up p hp hsome) (hcert.step a c p hD hac hp) ha
    next =>
      obtain ⟨hlt, hsome, hclimb⟩ := h.parent c d' hce hparent
      exact ⟨hlt, hmono d' hsome, hclimb⟩
  · intro c hc a hD
    by_cases hcb : c = b
    · subst hcb
      by_cases hac : a = c
      · exact hac ▸ .here a
      · exact .above hne hbparent (habove a hac hD)
    · rw [getD_set hb, if_neg hcb] at hc
      rcases h.up_set (d := d) hb (h.complete c hc a hD) with hup | ⟨hold, hnew, ha⟩
      · exact hup
      · have hDb : D a b := h.climb hold hD ha
        have hab : a ≠ b := by rintro rfl; exact Nat.lt_irrefl _ ha
        exact (Up.above hne hbparent (habove a hab hDb)).trans hnew

theorem set_same {I : Idoms} {b d : Nat} (h : I.getD b none = some d) :
    I.setIfInBounds b (some d) = I := by
  refine Array.ext (by simp) fun i hi hi' => ?_
  rw [Array.getElem_setIfInBounds hi']
  split
  next heq =>
    subst heq
    rw [Array.getD_eq_getD_getElem?, Array.getElem?_eq_getElem hi'] at h
    exact h.symm
  next => rfl

theorem getD_start {n c : Nat} (he : e < n) :
    ((Array.replicate n none : Idoms).setIfInBounds e (some e)).getD c none =
      if c = e then some e else none := by
  rw [getD_set (by simpa using he), Array.getD_eq_getD_getElem?, Array.getElem?_replicate]
  split
  · rfl
  · split <;> rfl

/-- The tree that knows the entry only. -/
theorem start (D : Nat → Nat → Prop) {n : Nat} {rest : List Nat} (he : e < n)
    (hroot : ∀ a, D a e → a = e) : Tree D e (e :: rest)
      ((Array.replicate n none : Idoms).setIfInBounds e (some e)) := by
  refine ⟨by simp [getD_start he], List.idxOf_cons_self, ?_, ?_, ?_⟩
  · intro c hc
    rw [getD_start he] at hc
    split at hc
    next heq => exact heq ▸ List.mem_cons_self
    next => cases hc
  · intro c d hce hc
    rw [getD_start he, if_neg hce] at hc
    cases hc
  · intro c hc x hx
    rw [getD_start he] at hc
    split at hc
    next heq =>
      subst heq
      rw [hroot x hx]
      exact .here c
    next => cases hc

/-- Where all blocks before it are known, a block gets a parent that comes before it. -/
theorem merged {preds : Nat → List Nat} {rest done todo : List Nat}
    (h : Tree D e (e :: rest) I) (hord : Ordered preds e rest) (hrest : rest = done ++ b :: todo)
    (hknown : ∀ c ∈ e :: done, (I.getD c none).isSome = true) :
    b ≠ e ∧ ∃ d, mergePreds (e :: rest) I (preds b) = some d ∧ Meets I e (preds b) d ∧
      (e :: rest).idxOf d < (e :: rest).idxOf b := by
  have hbrest : b ∈ rest := by simp [hrest]
  obtain ⟨p, hp, hsub⟩ := hord.pred b hbrest
  have hidx := idxOf_lt_of_sublist hord.nodup hsub
  have hdone : p ∈ e :: done := by
    apply mem_of_idxOf_lt (b := b) (r := todo)
    · rw [List.cons_append, ← hrest]
      exact hord.nodup
    · rw [List.cons_append, ← hrest]
      exact hidx
  have hmerge := h.mergePreds_meets (preds b)
  constructor
  · rintro rfl
    exact (List.nodup_cons.1 hord.nodup).1 hbrest
  · cases hd : mergePreds (e :: rest) I (preds b) with
    | none =>
        rw [hd] at hmerge
        have hpknown := hknown p hdone
        rw [hmerge p hp] at hpknown
        cases hpknown
    | some d =>
        rw [hd] at hmerge
        exact ⟨d, rfl, hmerge,
          Nat.lt_of_le_of_lt (h.up_idx (hmerge.up p hp (hknown p hdone))) hidx⟩

/-- One pass over the blocks in order keeps the tree, and afterwards it knows them all.
It keeps whatever else `M` tells of the blocks done, if each step does. -/
theorem refine_tree {preds : Nat → List Nat} {rest : List Nat} {M : List Nat → Idoms → Prop}
    (hcert : Certificate D preds e) (hord : Ordered preds e rest)
    (hsize : ∀ b ∈ e :: rest, b < I.size) (changed : Bool) (h : Tree D e (e :: rest) I)
    (start : M [] I)
    (step : ∀ done todo b J d, rest = done ++ b :: todo → Tree D e (e :: rest) J →
      b < J.size → (∀ c ∈ e :: done, (J.getD c none).isSome = true) → Meets J e (preds b) d →
      M done J → M (done ++ [b]) (J.setIfInBounds b (some d))) :
    let I' := (refine preds (e :: rest) (I, changed) rest).1
    Tree D e (e :: rest) I' ∧ I'.size = I.size ∧
      (∀ b ∈ e :: rest, (I'.getD b none).isSome = true) ∧ M rest I' := by
  have hpass : ∀ (todo done : List Nat) (J : Idoms) (changed : Bool), rest = done ++ todo →
      Tree D e (e :: rest) J → J.size = I.size →
      (∀ b ∈ e :: done, (J.getD b none).isSome = true) → M done J →
      let J' := (refine preds (e :: rest) (J, changed) todo).1
      Tree D e (e :: rest) J' ∧ J'.size = I.size ∧
        (∀ b ∈ e :: rest, (J'.getD b none).isSome = true) ∧ M rest J' := by
    intro todo
    induction todo with
    | nil =>
        intro done J changed hrest hJ hJsize hknown hM
        obtain rfl : rest = done := by simpa using hrest
        exact ⟨hJ, hJsize, hknown, hM⟩
    | cons b todo ih =>
        intro done J changed hrest hJ hJsize hknown hM
        have hbrest : b ∈ rest := by simp [hrest]
        obtain ⟨hbe, d, hd, hmerge, hdidx⟩ := hJ.merged hord hrest hknown
        have hbsize : b < J.size := hJsize ▸ hsize b (List.mem_cons_of_mem _ hbrest)
        have hM' := step done todo b J d hrest hJ hbsize hknown hmerge hM
        have hrest' : rest = (done ++ [b]) ++ todo := by simp [hrest]
        obtain ⟨changed', hstep⟩ : ∃ changed', refine preds (e :: rest) (J, changed)
            (b :: todo) =
            refine preds (e :: rest) (J.setIfInBounds b (some d), changed') todo := by
          simp only [refine, List.foldl_cons, hd]
          by_cases hsame : J.getD b none = some d
          · exact ⟨changed, by rw [if_pos hsame, set_same hsame]⟩
          · exact ⟨true, by rw [if_neg hsame]⟩
        rw [hstep]
        refine ih (done ++ [b]) _ changed' hrest'
          (hJ.set hcert hbe (List.mem_cons_of_mem _ hbrest) hbsize hmerge hdidx)
          (by simpa using hJsize) (fun c hc => ?_) hM'
        rw [getD_set hbsize]
        split
        · rfl
        next hcb =>
          rw [← List.cons_append] at hc
          rcases List.mem_append.1 hc with hc | hc
          · exact hknown c hc
          · exact absurd (List.mem_singleton.1 hc) hcb
  refine hpass rest [] I changed rfl h rfl (fun b hb => ?_) start
  rw [List.mem_singleton.1 hb, h.root]
  rfl

/-- Any number of passes, but at least one. -/
theorem settle_tree {preds : Nat → List Nat} {rest : List Nat} (hcert : Certificate D preds e)
    (hord : Ordered preds e rest) (fuel : Nat) :
    ∀ I : Idoms, (∀ b ∈ e :: rest, b < I.size) → Tree D e (e :: rest) I →
      let I' := settle preds (e :: rest) rest (fuel + 1) I
      Tree D e (e :: rest) I' ∧ I'.size = I.size ∧
        ∀ b ∈ e :: rest, (I'.getD b none).isSome = true := by
  induction fuel with
  | zero =>
      intro I hsize h
      obtain ⟨htree, hsize', hknown, _⟩ := refine_tree (M := fun _ _ => True) hcert hord hsize
        false h trivial fun _ _ _ _ _ _ _ _ _ _ _ => trivial
      unfold settle
      dsimp only
      split
      · exact ⟨htree, hsize', hknown⟩
      · exact ⟨htree, hsize', hknown⟩
  | succ fuel ih =>
      intro I hsize h
      obtain ⟨htree, hsize', hknown, _⟩ := refine_tree (M := fun _ _ => True) hcert hord hsize
        false h trivial fun _ _ _ _ _ _ _ _ _ _ _ => trivial
      unfold settle
      dsimp only
      split
      · obtain ⟨htree', hsize'', hknown'⟩ := ih _ (fun b hb => hsize' ▸ hsize b hb) htree
        exact ⟨htree', hsize''.trans hsize', hknown'⟩
      · exact ⟨htree, hsize', hknown⟩

/-- The computed walk up meets whatever is met on the way up. -/
theorem above_of_up (h : Tree D e order I) (hup : Up I e a b) (fuel : Nat)
    (hfuel : order.idxOf b ≤ fuel) {J : Idoms}
    (hJ : ∀ c, c ≠ e → J.getD c none = I.getD c none) : J.above fuel a b = true := by
  induction hup generalizing fuel with
  | here =>
      cases fuel with
      | zero => simp [Idoms.above]
      | succ fuel => simp [Idoms.above]
  | @above b d hne hparent _ ih =>
      have hlt := (h.parent _ _ hne hparent).1
      cases fuel with
      | zero => omega
      | succ fuel =>
          unfold Idoms.above
          rw [hJ b hne, hparent]
          simp [ih fuel (by omega)]

end Tree

namespace Func

variable {f : Func}

theorem size_forgotten (stored : Idoms) : (f.forgotten stored).size = stored.size := by
  have hfold : ∀ (bs : List Nat) (I : Idoms),
      (bs.foldl (fun I b => I.setIfInBounds b none) I).size = I.size := by
    intro bs
    induction bs with
    | nil => exact fun _ => rfl
    | cons b bs ih => exact fun I => (ih _).trans Array.size_setIfInBounds
  exact hfold f.order stored

/-- Nothing is left for the blocks of the function, and all else stays. -/
theorem getD_forgotten (stored : Idoms) (c : Nat) :
    (f.forgotten stored).getD c none = if c ∈ f.order then none else stored.getD c none := by
  have hset : ∀ (I : Idoms) (b : Nat),
      (I.setIfInBounds b none).getD c none = if c = b then none else I.getD c none := by
    intro I b
    simp only [Array.getD_eq_getD_getElem?, Array.getElem?_setIfInBounds]
    by_cases hcb : b = c
    · subst hcb
      by_cases hb : b < I.size <;> simp [hb]
    · rw [if_neg hcb, if_neg (Ne.symm hcb)]
  have hfold : ∀ (bs : List Nat) (I : Idoms),
      (bs.foldl (fun I b => I.setIfInBounds b none) I).getD c none =
        if c ∈ bs then none else I.getD c none := by
    intro bs
    induction bs with
    | nil => intro I; simp
    | cons b bs ih =>
        intro I
        rw [List.foldl_cons, ih, hset]
        by_cases hb : c = b <;> by_cases hbs : c ∈ bs <;> simp [hb, hbs]
  exact hfold f.order stored

/-- What was stored makes no difference, unless it was for other blocks. -/
theorem forgotten_eq {stored : Idoms} (hsize : stored.size = f.blocks.size)
    (hother : ∀ b, b ∉ f.order → stored.getD b none = none) :
    f.forgotten stored = Array.replicate f.blocks.size none := by
  refine Array.ext (by rw [size_forgotten, hsize, Array.size_replicate]) fun i hi _ => ?_
  have hgetD : (f.forgotten stored).getD i none = none := by
    rw [getD_forgotten]
    split
    next => rfl
    next hi => exact hother i hi
  rw [Array.getD_eq_getD_getElem?, Array.getElem?_eq_getElem hi, Option.getD_some] at hgetD
  rw [hgetD, Array.getElem_replicate]

theorem idomsFrom_eq_idoms {stored : Idoms} (hsize : stored.size = f.blocks.size)
    (hother : ∀ b, b ∉ f.order → stored.getD b none = none) (he : f.reversePostOrder ≠ []) :
    f.idomsFrom stored = f.idoms := by
  unfold idoms idomsFrom
  rw [forgotten_eq hsize hother, forgotten_eq Array.size_replicate fun b _ => by simp [Array.getD]]
  cases horder : f.reversePostOrder with
  | nil => exact absurd horder he
  | cons => rfl

theorem idoms_eq {e : Nat} {rest : List Nat} (horder : f.reversePostOrder = e :: rest) :
    f.idoms = (settle f.preds (e :: rest) rest (f.blocks.size * f.blocks.size + 2)
      ((Array.replicate f.blocks.size none : Idoms).setIfInBounds e (some e))).setIfInBounds e
        none := by
  unfold idoms idomsFrom
  rw [forgotten_eq Array.size_replicate fun b _ => by simp [Array.getD], horder]

/-- Every block that must be passed on the way to a block that control can reach is found
to dominate it. -/
theorem idoms_dominates {D : Nat → Nat → Prop} {e : Nat} (hentry : f.entry = some e)
    (hedges : ∀ a ∈ f.reversePostOrder, ∀ b ∈ f.succs a, a ∈ f.preds b)
    (hsize : ∀ b ∈ f.reversePostOrder, b < f.blocks.size)
    (hcert : Certificate D f.preds e) {a b : Nat} (hb : b ∈ f.reversePostOrder) (hD : D a b) :
    f.idoms.dominates a b = true := by
  obtain ⟨rest, horder, hord⟩ := reversePostOrder_ordered hentry hedges
  rw [horder] at hsize hb
  have he : e < f.blocks.size := hsize e List.mem_cons_self
  have hstart : Tree D e (e :: rest)
      ((Array.replicate f.blocks.size none : Idoms).setIfInBounds e (some e)) :=
    Tree.start D he hcert.root
  obtain ⟨htree, hsize', hknown⟩ := Tree.settle_tree hcert hord
    (f.blocks.size * f.blocks.size + 1) _ (by simpa using hsize) hstart
  have hup := htree.complete b (hknown b hb) a hD
  unfold Idoms.dominates
  rw [idoms_eq horder]
  refine htree.above_of_up hup _ ?_ fun c hce => ?_
  · have hlen : (e :: rest).length ≤ f.blocks.size := by
      have hsub : (e :: rest) ⊆ List.range f.blocks.size := fun x hx =>
        List.mem_range.2 (hsize x hx)
      simpa using (List.subperm_of_subset hord.nodup hsub).length_le
    have hidx := List.idxOf_lt_length_of_mem hb
    simp only [Array.size_setIfInBounds, hsize', Array.size_replicate]
    omega
  · simp only [Array.getD_eq_getD_getElem?, Array.getElem?_setIfInBounds]
    rw [if_neg (Ne.symm hce)]

end Func

end ClassLang.Graph
