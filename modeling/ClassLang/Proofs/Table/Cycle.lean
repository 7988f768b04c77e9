import ClassLang.Proofs.Table.Chain
import Mathlib.Data.List.Cycle
import Mathlib.Logic.Relation

/-!
The cycles of parents. A class has at most one parent, so two cycles with a common member are the
same, and following the parents of any class ends at a root or in exactly one cycle. Each cycle is
listed from its smallest member on, and the errors of a table are those of its cycles, each once.
-/

namespace ClassLang.Table

/-- Class number `j` was found to be the parent of class number `i`. -/
def IsParent (t : Table) (i j : Nat) : Prop := (t.class? i).bind (·.parent) = some j

theorem IsParent.unique {t : Table} {i j k : Nat} (h : t.IsParent i j) (h' : t.IsParent i k) :
    j = k := Option.some.inj (h.symm.trans h')

/-! Circuits -/

/-- The list `l` goes once round a cycle of `r`, from the smallest member on. -/
structure Circuit (r : Nat → Nat → Prop) (l : List Nat) : Prop where
  nodup : l.Nodup
  round : ∃ a rest, l = a :: rest ∧ (∀ i ∈ rest, a ≤ i) ∧ (a :: (rest ++ [a])).IsChain r

/-- The list `l` goes once round a cycle of `r`, from any member on. -/
structure Round (r : Nat → Nat → Prop) (l : List Nat) : Prop where
  nodup : l.Nodup
  nonempty : l ≠ []
  chain : (l : Cycle Nat).Chain r

section

variable {r : Nat → Nat → Prop} {l l' : List Nat} {a b : Nat}

theorem Circuit.toRound (h : Circuit r l) : Round r l := by
  obtain ⟨a, rest, rfl, _, hchain⟩ := h.round
  exact ⟨h.nodup, List.cons_ne_nil _ _, hchain⟩

theorem Round.isRotated (h : Round r l) (hrot : l ~r l') : Round r l' where
  nodup := hrot.nodup_iff.1 h.nodup
  nonempty hnil := h.nonempty (List.isRotated_nil_iff.1 (hnil ▸ hrot))
  chain := Cycle.coe_eq_coe.2 hrot ▸ h.chain

/-- A round can start at any of its members. -/
theorem Round.exists_cons (h : Round r l) (ha : a ∈ l) :
    ∃ rest, l ~r (a :: rest) ∧ Round r (a :: rest) := by
  obtain ⟨l₁, l₂, rfl⟩ := List.append_of_mem ha
  have hrot : (l₁ ++ a :: l₂) ~r (a :: l₂ ++ l₁) := List.isRotated_append
  exact ⟨l₂ ++ l₁, hrot, h.isRotated hrot⟩

/-- A way back to `b` that does not pass `b` before is known from its start. -/
theorem isChain_unique (hr : ∀ i j k, r i j → r i k → j = k) {rest rest' : List Nat}
    (hchain : (a :: (rest ++ [b])).IsChain r) (hb : b ∉ rest)
    (hchain' : (a :: (rest' ++ [b])).IsChain r) (hb' : b ∉ rest') : rest = rest' := by
  induction rest generalizing a rest' with
  | nil =>
      cases rest' with
      | nil => rfl
      | cons y rest' =>
          simp only [List.nil_append, List.cons_append, List.isChain_cons_cons] at hchain hchain'
          exact absurd (hr _ _ _ hchain.1 hchain'.1) fun h => hb' (by simp [h])
  | cons x rest ih =>
      cases rest' with
      | nil =>
          simp only [List.nil_append, List.cons_append, List.isChain_cons_cons] at hchain hchain'
          exact absurd (hr _ _ _ hchain'.1 hchain.1) fun h => hb (by simp [h])
      | cons y rest' =>
          simp only [List.cons_append, List.isChain_cons_cons] at hchain hchain'
          obtain rfl : x = y := hr _ _ _ hchain.1 hchain'.1
          rw [ih hchain.2 (fun h => hb (by simp [h])) hchain'.2 fun h => hb' (by simp [h])]

theorem Round.cons_unique (hr : ∀ i j k, r i j → r i k → j = k) {rest rest' : List Nat}
    (h : Round r (a :: rest)) (h' : Round r (a :: rest')) : rest = rest' :=
  isChain_unique hr h.chain (List.nodup_cons.1 h.nodup).1 h'.chain (List.nodup_cons.1 h'.nodup).1

/-- Two cycles with a common member are the same. -/
theorem Round.unique (hr : ∀ i j k, r i j → r i k → j = k) (h : Round r l) (h' : Round r l')
    (ha : a ∈ l) (ha' : a ∈ l') : l ~r l' := by
  obtain ⟨rest, hrot, hround⟩ := h.exists_cons ha
  obtain ⟨rest', hrot', hround'⟩ := h'.exists_cons ha'
  rw [hround.cons_unique hr hround'] at hrot
  exact hrot.trans hrot'.symm

theorem Circuit.unique (hr : ∀ i j k, r i j → r i k → j = k) (h : Circuit r l)
    (h' : Circuit r l') (hhead : l.head? = l'.head?) : l = l' := by
  have hround := h.toRound
  have hround' := h'.toRound
  obtain ⟨a, rest, rfl, _⟩ := h.round
  obtain ⟨b, rest', rfl, _⟩ := h'.round
  obtain rfl : a = b := by simpa using hhead
  rw [hround.cons_unique hr hround']

/-- A chain leads from its start to its end. -/
theorem transGen_of_isChain {rest : List Nat} (h : (a :: (rest ++ [b])).IsChain r) :
    Relation.TransGen r a b := by
  induction rest generalizing a with
  | nil => exact .single (by simpa using h)
  | cons x rest ih =>
      simp only [List.cons_append, List.isChain_cons_cons] at h
      exact .head h.1 (ih h.2)

/-- A member of a round comes back to itself. -/
theorem Round.transGen (h : Round r l) (ha : a ∈ l) : Relation.TransGen r a a := by
  obtain ⟨rest, _, hround⟩ := h.exists_cons ha
  exact transGen_of_isChain hround.chain

/-- Every member of a round has a successor. -/
theorem Round.exists_next (h : Round r l) (ha : a ∈ l) : ∃ b, r a b := by
  obtain ⟨b, hb, _⟩ := (Relation.TransGen.head'_iff.1 (h.transGen ha))
  exact ⟨b, hb⟩

/-- What follows a member of a round is a member. -/
theorem Round.mem_of_next (hr : ∀ i j k, r i j → r i k → j = k) (h : Round r l) (ha : a ∈ l)
    (hab : r a b) : b ∈ l := by
  obtain ⟨rest, hrot, hround⟩ := h.exists_cons ha
  refine hrot.mem_iff.2 ?_
  have hchain : (a :: (rest ++ [a])).IsChain r := hround.chain
  cases rest with
  | nil =>
      rw [List.nil_append, List.isChain_pair] at hchain
      simp [hr _ _ _ hab hchain]
  | cons x rest =>
      rw [List.cons_append, List.isChain_cons_cons] at hchain
      simp [hr _ _ _ hab hchain.1]

/-! The smallest member -/

/-- A round from its smallest member on. -/
def canonical (l : List Nat) : List Nat :=
  l.dropWhile (· ≠ anchor l) ++ l.takeWhile (· ≠ anchor l)

theorem anchor_mem (h : l ≠ []) : anchor l ∈ l ∧ ∀ i ∈ l, anchor l ≤ i := by
  obtain ⟨m, hm⟩ := Option.isSome_iff_exists.1 (List.isSome_min?_of_ne_nil h)
  have hanchor : anchor l = m := by simp [anchor, hm]
  rw [hanchor]
  exact List.min?_eq_some_iff.1 hm

theorem canonical_isRotated (l : List Nat) : l ~r canonical l := by
  conv_lhs => rw [← List.takeWhile_append_dropWhile (p := fun i => decide (i ≠ anchor l)) (l := l)]
  exact List.isRotated_append

/-- What is left of a list from a member on. -/
theorem dropWhile_ne (h : a ∈ l) :
    ∃ l₁ l₂, l = l₁ ++ a :: l₂ ∧ l.dropWhile (· ≠ a) = a :: l₂ := by
  obtain ⟨l₁, l₂, rfl, hnew⟩ := List.eq_append_cons_of_mem h
  refine ⟨l₁, l₂, rfl, ?_⟩
  rw [List.dropWhile_append_of_pos fun i hi => by
    simpa using fun heq : i = a => hnew (heq ▸ hi)]
  simp

theorem canonical_head? (h : l ≠ []) : (canonical l).head? = some (anchor l) := by
  obtain ⟨_, _, _, hdrop⟩ := dropWhile_ne (anchor_mem h).1
  rw [canonical, hdrop]
  rfl

theorem Round.circuit (h : Round r l) : Circuit r (canonical l) := by
  have hround := h.isRotated (canonical_isRotated l)
  refine ⟨hround.nodup, ?_⟩
  obtain ⟨a, rest, hl⟩ := List.exists_cons_of_ne_nil hround.nonempty
  have ha : anchor l = a := by simpa [hl] using (canonical_head? h.nonempty).symm
  refine ⟨a, rest, hl, fun i hi => ?_, ?_⟩
  swap
  · have hchain := hround.chain
    rwa [hl] at hchain
  rw [← ha]
  exact (anchor_mem h.nonempty).2 i ((canonical_isRotated l).mem_iff.2 (by simp [hl, hi]))

end

/-! Walks that run into a cycle -/

section

variable {t : Table} {fuel id : Nat} {seen cycle l : List Nat}

/-- A walk only fails with a round. It stays among classes that contain their parents. -/
theorem walk_error (P : Nat → Prop) (hP : ∀ i j, t.IsParent i j → P i → P j)
    (hnodup : seen.Nodup) (hpath : (seen.reverse ++ [id]).IsChain t.IsParent)
    (hid : ∀ i ∈ id :: seen, P i) (h : t.walk fuel seen id = .error cycle) :
    Round t.IsParent cycle ∧ ∀ i ∈ cycle, P i := by
  induction fuel generalizing seen id with
  | zero => cases h
  | succ fuel ih =>
      simp only [walk] at h
      split at h
      next hback =>
        obtain rfl : seen.reverse.dropWhile (· ≠ id) = cycle := Except.error.inj h
        have hmem : id ∈ seen.reverse := by simpa using hback
        obtain ⟨l₁, l₂, hl, hdrop⟩ := dropWhile_ne hmem
        have hsuffix : (id :: l₂) <:+ seen.reverse := hl ▸ List.suffix_append ..
        rw [hdrop]
        refine ⟨⟨?_, List.cons_ne_nil _ _, ?_⟩, fun i hi => ?_⟩
        · exact hsuffix.sublist.nodup (List.nodup_reverse.2 hnodup)
        · rw [hl, List.append_assoc] at hpath
          exact hpath.right_of_append
        · exact hid i (List.mem_cons_of_mem _ (List.mem_reverse.1 (hsuffix.subset hi)))
      next hfresh =>
        split at h
        next => cases h
        next p hp =>
          refine ih (List.nodup_cons.2 ⟨by simpa using hfresh, hnodup⟩) ?_ ?_ h
          · rw [List.reverse_cons]
            refine hpath.append (List.isChain_singleton p) ?_
            simpa [IsParent] using hp
          · exact List.forall_mem_cons.2 ⟨hP id p hp (hid id (by simp)), hid⟩

theorem walkParents_error (P : Nat → Prop) (hP : ∀ i j, t.IsParent i j → P i → P j) (hid : P id)
    (h : t.walkParents id = .error cycle) : Round t.IsParent cycle ∧ ∀ i ∈ cycle, P i :=
  walk_error P hP List.nodup_nil (by simp) (by simpa using hid) h

/-- A class on a cycle leads to no root. -/
theorem Ancestry.not_mem_round (hl : Round t.IsParent l) {path : List Nat}
    (h : Ancestry t id path) : id ∉ l := by
  induction h with
  | root hroot =>
      intro hid
      obtain ⟨p, hp⟩ := hl.exists_next hid
      rw [IsParent, hroot] at hp
      cases hp
  | step hstep _ ih =>
      exact fun hid => ih (hl.mem_of_next (fun _ _ _ h h' => h.unique h') hid hstep)

/-- A walk from a member of a cycle runs into that cycle. -/
theorem walkParents_round (hclosed : t.Closed) (hl : Round t.IsParent l) (hid : id ∈ l) :
    ∃ cycle, t.walkParents id = .error cycle ∧ Round t.IsParent cycle ∧ cycle ~r l := by
  have hunique : ∀ i j k, t.IsParent i j → t.IsParent i k → j = k := fun _ _ _ => IsParent.unique
  cases hwalk : t.walkParents id with
  | ok path =>
      obtain ⟨p, hp⟩ := hl.exists_next hid
      have hlt : id < t.classes.length := by
        obtain ⟨c, hc, _⟩ := Option.bind_eq_some_iff.1 hp
        exact class?_eq_some_lt hc
      exact absurd hid ((walkParents_ok hclosed hlt hwalk).not_mem_round hl)
  | error cycle =>
      obtain ⟨hround, hin⟩ := walkParents_error (· ∈ l)
        (fun i j hij hi => hl.mem_of_next hunique hi hij) hid hwalk
      obtain ⟨a, rest, rfl⟩ := List.exists_cons_of_ne_nil hround.nonempty
      exact ⟨_, rfl, hround, hround.unique hunique hl (a := a) (by simp) (hin a (by simp))⟩

/-- What the parents of a class lead to comes behind it in its ancestry. -/
theorem Ancestry.mem_tail {path : List Nat} (h : Ancestry t id path) {j : Nat}
    (hj : Relation.TransGen t.IsParent id j) : j ∈ path.tail := by
  induction hj with
  | single hp =>
      cases h with
      | root hroot => simp [IsParent, hroot] at hp
      | step hstep rest =>
          obtain rfl := IsParent.unique hstep hp
          cases rest <;> simp
  | @tail j k _ hp ih =>
      obtain ⟨l', hl', hsuffix⟩ := h.exists_suffix (List.mem_of_mem_tail ih)
      cases hl' with
      | root hroot => simp [IsParent, hroot] at hp
      | @step _ q l' hstep rest =>
          obtain rfl := IsParent.unique hstep hp
          cases h with
          | root => simp at ih
          | @step _ _ path _ _ =>
              have hin : q ∈ l' := by cases rest <;> simp
              rcases List.suffix_cons_iff.1 hsuffix with heq | hsuffix
              · cases heq
                exact hin
              · exact hsuffix.subset (List.mem_cons_of_mem _ hin)

/-- The parents of a class that leads to a root do not lead back to it. -/
theorem Ancestry.not_transGen {path : List Nat} (h : Ancestry t id path) :
    ¬ Relation.TransGen t.IsParent id id := by
  intro hback
  have htail := h.mem_tail hback
  have hnodup := h.nodup
  cases h with
  | root => simp at htail
  | step => exact (List.nodup_cons.1 hnodup).1 htail

end

/-! Each cycle once -/

/-- The error that reports a cycle, listed from its smallest member on. -/
def circuitError (t : Table) (l : List Nat) : Diagnostic :=
  ⟨.cyclicInheritance, ((l.head?.bind t.class?).map (·.pos)).getD Pos.none,
    "cyclic inheritance: " ++ " -> ".intercalate (t.namesOf (l ++ l.take 1))⟩

theorem cycleError_eq (t : Table) {l : List Nat} (h : l ≠ []) :
    t.cycleError l = t.circuitError (canonical l) := by
  have hhead := canonical_head? h
  have htake : (canonical l).take 1 = [anchor l] := by
    cases hl : canonical l with
    | nil => simp [hl] at hhead
    | cons a rest => simpa [hl] using hhead
  rw [circuitError, hhead, htake]
  rfl

/-- Of lists with the same smallest member, the first one. -/
def firsts (cycles : List (List Nat)) : List (List Nat) :=
  cycles.foldl (fun acc c => if acc.any (anchor · = anchor c) then acc else acc ++ [c]) []

/-- The cycles that the classes `ids` run into. -/
def cyclesOf (t : Table) (ids : List Nat) : List (List Nat) :=
  ids.filterMap fun id =>
    match t.walkParents id with
    | .error cycle => some cycle
    | .ok _ => none

theorem cycleErrors_eq (t : Table) (ids : List Nat) :
    t.cycleErrors ids = (firsts (t.cyclesOf ids)).map t.cycleError := rfl

theorem mem_cyclesOf {t : Table} {ids : List Nat} {cycle : List Nat} :
    cycle ∈ t.cyclesOf ids ↔ ∃ id ∈ ids, t.walkParents id = .error cycle := by
  unfold cyclesOf
  rw [List.mem_filterMap]
  refine exists_congr fun id => and_congr_right fun _ => ?_
  cases t.walkParents id <;> simp

theorem foldl_anchor (cycles acc : List (List Nat)) (hacc : (acc.map anchor).Nodup) :
    let result := cycles.foldl
      (fun acc c => if acc.any (anchor · = anchor c) then acc else acc ++ [c]) acc
    (result.map anchor).Nodup ∧ (∀ c ∈ result, c ∈ acc ∨ c ∈ cycles) ∧
      ∀ c, c ∈ acc ∨ c ∈ cycles → ∃ d ∈ result, anchor d = anchor c := by
  induction cycles generalizing acc with
  | nil => exact ⟨hacc, fun c hc => .inl hc, fun c hc => ⟨c, by simpa using hc, rfl⟩⟩
  | cons x rest ih =>
      simp only [List.foldl_cons]
      split
      next hold =>
        obtain ⟨d, hd, hanchor⟩ : ∃ d ∈ acc, anchor d = anchor x := by simpa using hold
        obtain ⟨hnodup, honly, hall⟩ := ih acc hacc
        refine ⟨hnodup, fun c hc => (honly c hc).imp_right (List.mem_cons_of_mem _), ?_⟩
        intro c hc
        rcases hc with hc | hc
        · exact hall c (.inl hc)
        · rcases List.mem_cons.1 hc with rfl | hc
          · obtain ⟨d', hd', heq⟩ := hall d (.inl hd)
            exact ⟨d', hd', heq.trans hanchor⟩
          · exact hall c (.inr hc)
      next hnew =>
        have hfresh : anchor x ∉ acc.map anchor := by simpa using hnew
        obtain ⟨hnodup, honly, hall⟩ := ih (acc ++ [x]) (by
          rw [List.map_append, List.map_singleton, ← List.concat_eq_append]
          exact hacc.concat hfresh)
        refine ⟨hnodup, fun c hc => ?_, fun c hc => hall c ?_⟩
        · rcases honly c hc with hc | hc
          · rcases List.mem_append.1 hc with hc | hc
            · exact .inl hc
            · exact .inr (by simp [List.mem_singleton.1 hc])
          · exact .inr (List.mem_cons_of_mem _ hc)
        · rcases hc with hc | hc
          · exact .inl (List.mem_append_left _ hc)
          · rcases List.mem_cons.1 hc with rfl | hc
            · exact .inl (by simp)
            · exact .inr hc

/-- The errors of cycles are those of all circuits of the parents, each circuit once. -/
theorem cycleErrors_circuits {t : Table} (hclosed : t.Closed) (ids : List Nat)
    (hids : ∀ i < t.classes.length, i ∈ ids) :
    ∃ circuits : List (List Nat), circuits.Nodup ∧
      (∀ l, l ∈ circuits ↔ Circuit t.IsParent l) ∧
      t.cycleErrors ids = circuits.map t.circuitError := by
  have hunique : ∀ i j k, t.IsParent i j → t.IsParent i k → j = k := fun _ _ _ h h' => h.unique h'
  have hround : ∀ c ∈ t.cyclesOf ids, Round t.IsParent c := by
    intro c hc
    obtain ⟨id, _, hwalk⟩ := mem_cyclesOf.1 hc
    exact (walkParents_error (fun _ => True) (fun _ _ _ _ => trivial) trivial hwalk).1
  obtain ⟨hnodup, honly, hall⟩ := foldl_anchor (t.cyclesOf ids) [] (by simp)
  have hrounds : ∀ c ∈ firsts (t.cyclesOf ids), Round t.IsParent c := by
    intro c hc
    exact hround c (by simpa using honly c hc)
  refine ⟨(firsts (t.cyclesOf ids)).map canonical, ?_, fun l => ⟨?_, fun hl => ?_⟩, ?_⟩
  · -- circuits with different smallest members are different
    refine List.Nodup.of_map List.head? ?_
    have hheads : ((firsts (t.cyclesOf ids)).map canonical).map List.head? =
        ((firsts (t.cyclesOf ids)).map anchor).map some := by
      simp only [List.map_map]
      exact List.map_congr_left fun c hc => canonical_head? (hrounds c hc).nonempty
    rw [hheads]
    exact List.Nodup.map (Option.some_injective _) hnodup
  · intro hl
    obtain ⟨c, hc, rfl⟩ := List.mem_map.1 hl
    exact (hrounds c hc).circuit
  · obtain ⟨a, rest, rfl, hleast, _⟩ := hl.round
    obtain ⟨p, hp⟩ := hl.toRound.exists_next (a := a) (by simp)
    have hlt : a < t.classes.length := by
      obtain ⟨c, hc, _⟩ := Option.bind_eq_some_iff.1 hp
      exact class?_eq_some_lt hc
    have hmem : a ∈ a :: rest := List.mem_cons_self
    obtain ⟨cycle, hwalk, hcycle, hrot⟩ := walkParents_round hclosed hl.toRound hmem
    have hanchor : anchor cycle = a := by
      obtain ⟨hmem, hmin⟩ := anchor_mem hcycle.nonempty
      have hle : anchor cycle ≤ a := hmin a (hrot.mem_iff.2 (by simp))
      rcases List.mem_cons.1 (hrot.mem_iff.1 hmem) with heq | hin
      · exact heq
      · exact Nat.le_antisymm hle (hleast _ hin)
    obtain ⟨d, hd, hsame⟩ := hall cycle (.inr (mem_cyclesOf.2 ⟨a, hids a hlt, hwalk⟩))
    refine List.mem_map.2 ⟨d, hd, (hrounds d hd).circuit.unique hunique hl ?_⟩
    rw [canonical_head? (hrounds d hd).nonempty, hsame, hanchor]
    rfl
  · rw [cycleErrors_eq, List.map_map]
    exact List.map_congr_left fun c hc => cycleError_eq t (hrounds c hc).nonempty

end ClassLang.Table
