import ClassLang.Graph.Dominance
import Mathlib.Data.Finset.Card
import Mathlib.Data.List.Perm.Subperm

/-!
The depth-first walk that orders the blocks of a graph. Each block comes behind one of its
predecessors, and no block that control can reach is left out.
-/

namespace ClassLang.Graph

/-! Depth-first walks -/

/-- Blocks that a walk adds: each follows one of `roots` or, later in the list, a block
that leads to it. -/
def Descends (succs : Nat → List Nat) (roots new : List Nat) : Prop :=
  ∀ x ∈ new, x ∈ roots ∨ ∃ p, x ∈ succs p ∧ [p, x].Sublist new

/-- What a walk from the blocks `roots` adds to what it has done. -/
structure Extends (succs : Nat → List Nat) (roots : List Nat) (w w' : Walk) (new : List Nat) :
    Prop where
  done : w'.done = new ++ w.done
  seen : ∀ x ∈ w.seen, x ∈ w'.seen
  marked : ∀ x ∈ new, x ∈ w'.seen ∧ x ∉ w.seen
  nodup : new.Nodup
  descends : Descends succs roots new

namespace Extends

variable {succs : Nat → List Nat} {w w' w'' : Walk} {roots : List Nat}

theorem refl (roots : List Nat) (w : Walk) : Extends succs roots w w [] :=
  ⟨rfl, fun _ h => h, by simp, List.nodup_nil, by simp [Descends]⟩

theorem trans {s : Nat} {new more : List Nat} (h : Extends succs [s] w w' new)
    (h' : Extends succs roots w' w'' more) : Extends succs (s :: roots) w w'' (more ++ new) where
  done := by rw [h'.done, h.done, List.append_assoc]
  seen x hx := h'.seen x (h.seen x hx)
  marked x hx := by
    rcases List.mem_append.1 hx with hx | hx
    · exact ⟨(h'.marked x hx).1, fun hseen => (h'.marked x hx).2 (h.seen x hseen)⟩
    · exact ⟨h'.seen x (h.marked x hx).1, (h.marked x hx).2⟩
  nodup := by
    refine List.nodup_append.2 ⟨h'.nodup, h.nodup, ?_⟩
    rintro x hx y hy rfl
    exact (h'.marked x hx).2 (h.marked x hy).1
  descends x hx := by
    rcases List.mem_append.1 hx with hx | hx
    · rcases h'.descends x hx with hroot | ⟨p, hp, hsub⟩
      · exact Or.inl (List.mem_cons_of_mem _ hroot)
      · exact Or.inr ⟨p, hp, hsub.trans (List.sublist_append_left _ _)⟩
    · rcases h.descends x hx with hroot | ⟨p, hp, hsub⟩
      · exact Or.inl (List.mem_singleton.1 hroot ▸ List.mem_cons_self)
      · exact Or.inr ⟨p, hp, hsub.trans (List.sublist_append_right _ _)⟩

end Extends

/-- A walk adds blocks that descend from where it starts, the start first. -/
theorem visit_extends (succs : Nat → List Nat) (fuel : Nat) (w : Walk) (b : Nat) :
    ∃ new, Extends succs [b] w (visit succs fuel w b) new ∧ (new = [] ∨ new.head? = some b) := by
  induction fuel generalizing w b with
  | zero => exact ⟨[], .refl _ w, Or.inl rfl⟩
  | succ fuel ih =>
      have hfold : ∀ (ss : List Nat) (w : Walk),
          ∃ new, Extends succs ss w (ss.foldl (visit succs fuel) w) new := by
        intro ss
        induction ss with
        | nil => exact fun w => ⟨[], .refl _ w⟩
        | cons s ss ih' =>
            intro w
            obtain ⟨new, hnew, _⟩ := ih w s
            obtain ⟨more, hmore⟩ := ih' (visit succs fuel w s)
            exact ⟨more ++ new, hnew.trans hmore⟩
      unfold visit
      split
      next => exact ⟨[], .refl _ w, Or.inl rfl⟩
      next hfresh =>
        have hfresh : b ∉ w.seen := by simpa using hfresh
        obtain ⟨new, hnew⟩ := hfold (succs b) { w with seen := b :: w.seen }
        refine ⟨b :: new, ⟨?_, ?_, ?_, ?_, ?_⟩, Or.inr rfl⟩
        · simp only [hnew.done, List.cons_append]
        · exact fun x hx => hnew.seen x (List.mem_cons_of_mem _ hx)
        · intro x hx
          rcases List.mem_cons.1 hx with rfl | hx
          · exact ⟨hnew.seen x List.mem_cons_self, hfresh⟩
          · exact ⟨(hnew.marked x hx).1,
              fun hseen => (hnew.marked x hx).2 (List.mem_cons_of_mem _ hseen)⟩
        · refine List.nodup_cons.2 ⟨fun hb => ?_, hnew.nodup⟩
          exact (hnew.marked b hb).2 List.mem_cons_self
        · intro x hx
          rcases List.mem_cons.1 hx with rfl | hx
          · exact Or.inl (List.mem_singleton.2 rfl)
          · rcases hnew.descends x hx with hroot | ⟨p, hp, hsub⟩
            · exact Or.inr ⟨b, hroot, (List.singleton_sublist.2 hx).cons_cons b⟩
            · exact Or.inr ⟨p, hp, hsub.cons b⟩

/-- A walk has seen whatever its blocks lead to, and adds only blocks of a kind `P`. -/
structure Visits (succs : Nat → List Nat) (P : Nat → Prop) (w w' : Walk) : Prop where
  seen : w.seen ⊆ w'.seen
  done : w.done ⊆ w'.done
  closed : ∀ x ∈ w'.seen, x ∈ w.seen ∨ (P x ∧ x ∈ w'.done ∧ ∀ y ∈ succs x, y ∈ w'.seen)

namespace Visits

variable {succs : Nat → List Nat} {P : Nat → Prop} {w w' w'' : Walk}

theorem refl (P : Nat → Prop) (w : Walk) : Visits succs P w w :=
  ⟨fun _ h => h, fun _ h => h, fun _ h => Or.inl h⟩

theorem trans (h : Visits succs P w w') (h' : Visits succs P w' w'') : Visits succs P w w'' where
  seen _ hx := h'.seen (h.seen hx)
  done _ hx := h'.done (h.done hx)
  closed x hx := by
    rcases h'.closed x hx with hx | hnew
    · rcases h.closed x hx with hx | ⟨hP, hdone, hsuccs⟩
      · exact Or.inl hx
      · exact Or.inr ⟨hP, h'.done hdone, fun y hy => h'.seen (hsuccs y hy)⟩
    · exact Or.inr hnew

end Visits

namespace Walk

/-- How many of the first `n` blocks a walk has not seen yet. -/
def unseen (n : Nat) (w : Walk) : Nat := (Finset.range n \ w.seen.toFinset).card

theorem unseen_le {n : Nat} {w w' : Walk} (h : w.seen ⊆ w'.seen) : w'.unseen n ≤ w.unseen n := by
  refine Finset.card_le_card fun x hx => ?_
  simp only [Finset.mem_sdiff, List.mem_toFinset] at hx ⊢
  exact ⟨hx.1, fun hseen => hx.2 (h hseen)⟩

theorem unseen_lt {n b : Nat} {w : Walk} (hb : b < n) (hfresh : b ∉ w.seen) :
    ({ w with seen := b :: w.seen } : Walk).unseen n < w.unseen n := by
  refine Finset.card_lt_card (Finset.ssubset_iff.2 ⟨b, ?_, fun x hx => ?_⟩)
  · simp
  · rcases Finset.mem_insert.1 hx with rfl | hx
    · simpa using ⟨hb, hfresh⟩
    · simp only [Finset.mem_sdiff, List.mem_toFinset, List.mem_cons, not_or] at hx ⊢
      exact ⟨hx.1, hx.2.2⟩

end Walk

/-- With enough fuel a walk sees the block where it starts, and whatever follows. -/
theorem visit_visits {succs : Nat → List Nat} {P : Nat → Prop} {n : Nat} (hP : ∀ x, P x → x < n)
    (hsuccs : ∀ x, P x → ∀ y ∈ succs x, P y) (fuel : Nat) :
    ∀ (w : Walk) (b : Nat), P b → w.unseen n < fuel →
      Visits succs P w (visit succs fuel w b) ∧ b ∈ (visit succs fuel w b).seen := by
  induction fuel with
  | zero => intro w b _ hfuel; exact absurd hfuel (Nat.not_lt_zero _)
  | succ fuel ih =>
      have hfold : ∀ (ss : List Nat) (w : Walk), (∀ y ∈ ss, P y) → w.unseen n < fuel →
          Visits succs P w (ss.foldl (visit succs fuel) w) ∧
            ∀ y ∈ ss, y ∈ (ss.foldl (visit succs fuel) w).seen := by
        intro ss
        induction ss with
        | nil => exact fun w _ _ => ⟨.refl P w, by simp⟩
        | cons s ss ih' =>
            intro w hss hfuel
            obtain ⟨hvisits, hs⟩ := ih w s (hss s (by simp)) hfuel
            obtain ⟨hmore, hall⟩ := ih' (visit succs fuel w s) (fun y hy => hss y (by simp [hy]))
              (Nat.lt_of_le_of_lt (Walk.unseen_le hvisits.seen) hfuel)
            refine ⟨hvisits.trans hmore, fun y hy => ?_⟩
            rcases List.mem_cons.1 hy with rfl | hy
            · exact hmore.seen hs
            · exact hall y hy
      intro w b hb hfuel
      unfold visit
      split
      next hseen => exact ⟨.refl P w, by simpa using hseen⟩
      next hfresh =>
        have hfresh : b ∉ w.seen := by simpa using hfresh
        have hless := Walk.unseen_lt (hP b hb) hfresh
        obtain ⟨hvisits, hall⟩ := hfold (succs b) { w with seen := b :: w.seen } (hsuccs b hb)
          (by omega)
        refine ⟨⟨fun x hx => hvisits.seen (List.mem_cons_of_mem _ hx),
          fun x hx => List.mem_cons_of_mem _ (hvisits.done hx), fun x hx => ?_⟩,
          hvisits.seen List.mem_cons_self⟩
        rcases hvisits.closed x hx with hx | ⟨hx, hdone, hsucc⟩
        · rcases List.mem_cons.1 hx with rfl | hx
          · exact Or.inr ⟨hb, List.mem_cons_self, hall⟩
          · exact Or.inl hx
        · exact Or.inr ⟨hx, List.mem_cons_of_mem _ hdone, hsucc⟩

/-- Places in a list without repetition. -/
theorem idxOf_lt_of_sublist {l : List Nat} (hl : l.Nodup) {p b : Nat} (h : [p, b].Sublist l) :
    l.idxOf p < l.idxOf b := by
  induction l with
  | nil => cases h
  | cons x l ih =>
      obtain ⟨hx, hl⟩ := List.nodup_cons.1 hl
      cases h with
      | cons _ h =>
          have hp : p ∈ l := h.subset (by simp)
          have hb : b ∈ l := h.subset (by simp)
          rw [List.idxOf_cons_ne _ (by rintro rfl; exact hx hp),
            List.idxOf_cons_ne _ (by rintro rfl; exact hx hb)]
          exact Nat.succ_lt_succ (ih hl h)
      | cons_cons _ h =>
          have hb : b ∈ l := List.singleton_sublist.1 h
          rw [List.idxOf_cons_self, List.idxOf_cons_ne _ (by rintro rfl; exact hx hb)]
          exact Nat.succ_pos _

/-- What comes before an element of a list without repetition. -/
theorem mem_of_idxOf_lt {l r : List Nat} {p b : Nat} (hl : (l ++ b :: r).Nodup)
    (h : (l ++ b :: r).idxOf p < (l ++ b :: r).idxOf b) : p ∈ l := by
  by_contra hp
  have hb : b ∉ l := fun hb => (List.nodup_append.1 hl).2.2 b hb b List.mem_cons_self rfl
  rw [List.idxOf_append_of_notMem hp, List.idxOf_append_of_notMem hb, List.idxOf_cons_self] at h
  omega

/-- An order of blocks in which each but the first has a predecessor before it. -/
structure Ordered (preds : Nat → List Nat) (e : Nat) (rest : List Nat) : Prop where
  nodup : (e :: rest).Nodup
  pred : ∀ b ∈ rest, ∃ p ∈ preds b, [p, b].Sublist (e :: rest)

namespace Func

variable {f : Func}

/-- The blocks that control can reach start with the entry, and each other one comes
behind a predecessor. -/
theorem reversePostOrder_ordered {e : Nat} (hentry : f.entry = some e)
    (hedges : ∀ a ∈ f.reversePostOrder, ∀ b ∈ f.succs a, a ∈ f.preds b) :
    ∃ rest, f.reversePostOrder = e :: rest ∧ Ordered f.preds e rest := by
  obtain ⟨new, hnew, hhead⟩ := visit_extends f.succs (f.blocks.size + 1) {} e
  have hdone : f.reversePostOrder = new := by
    simp only [reversePostOrder, hentry, hnew.done, List.append_nil]
  obtain ⟨rest, rfl⟩ : ∃ rest, new = e :: rest := by
    rcases hhead with rfl | hhead
    · have hempty := hnew.done
      simp [visit] at hempty
    · cases new with
      | nil => cases hhead
      | cons x rest => exact ⟨rest, by rw [Option.some.inj hhead]⟩
  refine ⟨rest, hdone, hnew.nodup, fun b hb => ?_⟩
  rcases hnew.descends b (List.mem_cons_of_mem _ hb) with hroot | ⟨p, hp, hsub⟩
  · obtain rfl := List.mem_singleton.1 hroot
    exact absurd hb (List.nodup_cons.1 hnew.nodup).1
  · exact ⟨p, hedges p (hdone ▸ hsub.subset (by simp)) b hp, hsub⟩

/-- No block that control can reach is left out, and none is added that no edge leads to. -/
theorem mem_reversePostOrder {P : Nat → Prop} {e : Nat} (hentry : f.entry = some e) (he : P e)
    (hP : ∀ b, P b → b < f.blocks.size) (hsuccs : ∀ a, P a → ∀ b ∈ f.succs a, P b) :
    e ∈ f.reversePostOrder ∧
      ∀ a ∈ f.reversePostOrder, P a ∧ ∀ b ∈ f.succs a, b ∈ f.reversePostOrder := by
  have hfuel : ({} : Walk).unseen f.blocks.size < f.blocks.size + 1 := by
    simp [Walk.unseen]
  obtain ⟨hvisits, hseen⟩ := visit_visits hP hsuccs (f.blocks.size + 1) {} e he hfuel
  obtain ⟨new, hnew, _⟩ := visit_extends f.succs (f.blocks.size + 1) {} e
  have hclosed : ∀ x ∈ (visit f.succs (f.blocks.size + 1) {} e).seen,
      P x ∧ x ∈ (visit f.succs (f.blocks.size + 1) {} e).done ∧
        ∀ y ∈ f.succs x, y ∈ (visit f.succs (f.blocks.size + 1) {} e).seen := fun x hx =>
    (hvisits.closed x hx).resolve_left (by simp)
  simp only [reversePostOrder, hentry]
  refine ⟨(hclosed e hseen).2.1, fun a ha => ?_⟩
  have hmarked : a ∈ (visit f.succs (f.blocks.size + 1) {} e).seen := by
    rw [hnew.done, List.append_nil] at ha
    exact (hnew.marked a ha).1
  obtain ⟨haP, _, hsucc⟩ := hclosed a hmarked
  exact ⟨haP, fun b hb => (hclosed b (hsucc b hb)).2.1⟩

end Func

end ClassLang.Graph
