import ClassLang.Table
import Mathlib.Data.List.Nodup
import Mathlib.Data.List.Perm.Subperm

/-!
The chains of ancestors of a linked table. Following the parents of a class ends
at a root unless it runs into a cycle, and the table of a unit without cycles
keeps for each class the classes passed on the way. What is added to a table
after linking leaves its chains alone.
-/

namespace ClassLang.Table

/-! Ancestries -/

/-- The classes passed when the parents of `id` are followed to the root. -/
inductive Ancestry (t : Table) : Nat → List Nat → Prop
  | root {id : Nat} (h : (t.class? id).bind (·.parent) = none) : Ancestry t id [id]
  | step {id p : Nat} {l : List Nat} (h : (t.class? id).bind (·.parent) = some p)
      (rest : Ancestry t p l) : Ancestry t id (id :: l)

namespace Ancestry

variable {t : Table} {id : Nat} {l l' : List Nat}

theorem unique (h : Ancestry t id l) (h' : Ancestry t id l') : l = l' := by
  induction h generalizing l' with
  | root hroot =>
      cases h' with
      | root => rfl
      | step hstep => simp [hroot] at hstep
  | step hstep _ ih =>
      cases h' with
      | root hroot => simp [hstep] at hroot
      | step hstep' rest' =>
          rw [hstep] at hstep'
          cases hstep'
          rw [ih rest']

/-- A class occurs once in its ancestry: what follows it is shorter. -/
theorem exists_suffix {a : Nat} (h : Ancestry t id l) (ha : a ∈ l) :
    ∃ l', Ancestry t a l' ∧ l' <:+ l := by
  induction h with
  | @root id hroot =>
      have heq : a = id := by simpa using ha
      subst heq
      exact ⟨[a], .root hroot, List.suffix_refl _⟩
  | @step id p l hstep rest ih =>
      rcases List.mem_cons.1 ha with heq | hmem
      · subst heq
        exact ⟨a :: l, .step hstep rest, List.suffix_refl _⟩
      · obtain ⟨l', hl', hsuffix⟩ := ih hmem
        exact ⟨l', hl', hsuffix.trans (List.suffix_cons id l)⟩

theorem nodup (h : Ancestry t id l) : l.Nodup := by
  induction h with
  | root => simp
  | @step id p l hstep rest ih =>
      refine List.nodup_cons.2 ⟨fun hmem => ?_, ih⟩
      obtain ⟨l', hl', hsuffix⟩ := rest.exists_suffix hmem
      have heq := hl'.unique (.step hstep rest)
      have hlen := hsuffix.length_le
      simp only [heq, List.length_cons] at hlen
      omega

/-- Only the parents matter. -/
theorem congr {u : Table}
    (hp : ∀ i, (u.class? i).bind (·.parent) = (t.class? i).bind (·.parent))
    (h : Ancestry t id l) : Ancestry u id l := by
  induction h with
  | @root id hroot => exact .root ((hp id).trans hroot)
  | @step id p l hstep _ ih => exact .step ((hp id).trans hstep) ih

end Ancestry

/-! Walks -/

/-- The parents of all classes are classes. -/
def Closed (t : Table) : Prop :=
  ∀ id p, (t.class? id).bind (·.parent) = some p → p < t.classes.length

/-- A walk that meets no cycle passes an ancestry. There are fewer classes than
steps, so the walk is not cut short. -/
theorem walk_ok {t : Table} (hclosed : t.Closed) {fuel id : Nat} {seen l : List Nat}
    (hnodup : seen.Nodup) (hseen : ∀ x ∈ seen, x < t.classes.length)
    (hid : id < t.classes.length) (hfuel : t.classes.length < fuel + seen.length)
    (h : t.walk fuel seen id = .ok l) : ∃ l', Ancestry t id l' ∧ l = seen.reverse ++ l' := by
  induction fuel generalizing seen id with
  | zero =>
      have hle : seen.length ≤ t.classes.length := by
        have hsub : seen.Subperm (List.range t.classes.length) :=
          hnodup.subperm fun x hx => List.mem_range.2 (hseen x hx)
        simpa using hsub.length_le
      omega
  | succ fuel ih =>
      simp only [walk] at h
      split at h
      · cases h
      · rename_i hfresh
        split at h
        · rename_i hroot
          cases h
          exact ⟨[id], .root hroot, by simp⟩
        · rename_i p hstep
          have hnew : id ∉ seen := by simpa using hfresh
          obtain ⟨l', hl', heq⟩ := ih (List.nodup_cons.2 ⟨hnew, hnodup⟩)
            (by simpa using ⟨hid, hseen⟩) (hclosed id p hstep) (by simp; omega) h
          exact ⟨id :: l', .step hstep hl', by simp [heq]⟩

theorem walkParents_ok {t : Table} (hclosed : t.Closed) {id : Nat} {l : List Nat}
    (hid : id < t.classes.length) (h : t.walkParents id = .ok l) : Ancestry t id l := by
  obtain ⟨l', hl', heq⟩ := walk_ok hclosed List.nodup_nil (by simp) hid (by simp) h
  simpa [heq] using hl'

/-- Each cycle is reported once, but one is if there are any. -/
private theorem foldl_anchor_ne_nil (cycles acc : List (List Nat))
    (hacc : acc ≠ []) :
    cycles.foldl (fun acc c =>
      if acc.any (anchor · = anchor c) then acc else acc ++ [c]) acc ≠ [] := by
  induction cycles generalizing acc with
  | nil => exact hacc
  | cons c rest ih =>
      simp only [List.foldl_cons]
      split
      · exact ih acc hacc
      · exact ih _ (by simp)

private theorem eq_nil_of_foldl_anchor {cycles : List (List Nat)}
    (h : cycles.foldl (fun acc c =>
      if acc.any (anchor · = anchor c) then acc else acc ++ [c]) [] = []) : cycles = [] := by
  cases cycles with
  | nil => rfl
  | cons c rest => exact absurd h (foldl_anchor_ne_nil rest [c] (by simp))

/-- Without an error no walk runs into a cycle. -/
theorem walkParents_of_cycleErrors {t : Table} {ids : List Nat} (h : t.cycleErrors ids = [])
    {id : Nat} (hid : id ∈ ids) : ∃ l, t.walkParents id = .ok l := by
  simp only [cycleErrors, List.map_eq_nil_iff] at h
  have hnone := List.filterMap_eq_nil_iff.1 (eq_nil_of_foldl_anchor h) id hid
  cases hwalk : t.walkParents id with
  | ok l => exact ⟨l, rfl⟩
  | error cycle => simp [hwalk] at hnone

/-! Linked tables -/

/-- What linking achieves: classes are numbered by their places and have different
names, the parents of a class lead to a root and none of them is generic, and the
order lists every class once and after its ancestors. -/
structure Linked (t : Table) : Prop where
  id_eq : ∀ {i c}, t.class? i = some c → c.id = i
  names : (t.classes.map (·.name)).Nodup
  closed : t.Closed
  parent_plain : ∀ {i p c}, (t.class? i).bind (·.parent) = some p → t.class? p = some c →
    c.isGeneric = false
  ancestry : ∀ {i}, i < t.classes.length → Ancestry t i (t.chain i)
  order_perm : t.order.Perm (List.range t.classes.length)
  order_sorted : t.order.Pairwise fun a b => (t.chain a).length ≤ (t.chain b).length

theorem class?_eq_some_lt {t : Table} {i : Nat} {c : ClassInfo} (h : t.class? i = some c) :
    i < t.classes.length := (List.getElem?_eq_some_iff.1 h).1

theorem class?_isSome {t : Table} {i : Nat} (h : i < t.classes.length) :
    ∃ c, t.class? i = some c := ⟨t.classes[i], List.getElem?_eq_getElem h⟩

namespace Linked

variable {t : Table} {i j p : Nat} {c : ClassInfo}

theorem class?_id (h : t.Linked) (hc : c ∈ t.classes) : t.class? c.id = some c := by
  obtain ⟨i, hi, rfl⟩ := List.mem_iff_getElem.1 hc
  have hget : t.class? i = some t.classes[i] := List.getElem?_eq_getElem hi
  rw [h.id_eq hget, hget]

theorem ids (h : t.Linked) : t.classes.map (·.id) = List.range t.classes.length := by
  refine List.ext_getElem (by simp) fun i hi _ => ?_
  have hlt : i < t.classes.length := by simpa using hi
  have hget : t.class? i = some t.classes[i] := List.getElem?_eq_getElem hlt
  simp [h.id_eq hget]

theorem classNamed?_name (h : t.Linked) (hc : c ∈ t.classes) :
    t.classNamed? c.name = some c := by
  cases hfind : t.classNamed? c.name with
  | none =>
      have := List.find?_eq_none.1 hfind c hc
      simp at this
  | some d =>
      have hd : d ∈ t.classes := List.mem_of_find?_eq_some hfind
      have hname : d.name = c.name := by simpa using List.find?_some hfind
      rw [List.inj_on_of_nodup_map h.names hd hc hname]

/-- The chain of a class is the class and then the chain of its parent. -/
theorem chain_of_parent (h : t.Linked) (hp : (t.class? i).bind (·.parent) = some p) :
    t.chain i = i :: t.chain p := by
  have hi : i < t.classes.length := by
    cases hc : t.class? i with
    | none => simp [hc] at hp
    | some c => exact class?_eq_some_lt hc
  exact (h.ancestry hi).unique (.step hp (h.ancestry (h.closed i p hp)))

theorem chain_of_root (h : t.Linked) (hi : i < t.classes.length)
    (hp : (t.class? i).bind (·.parent) = none) : t.chain i = [i] :=
  (h.ancestry hi).unique (.root hp)

theorem mem_chain_self (h : t.Linked) (hi : i < t.classes.length) : i ∈ t.chain i := by
  have hanc := h.ancestry hi
  generalize t.chain i = l at hanc
  cases hanc <;> simp

theorem lt_of_mem_chain (h : t.Linked) (hi : i < t.classes.length) (hj : j ∈ t.chain i) :
    j < t.classes.length := by
  have hanc := h.ancestry hi
  generalize t.chain i = l at hanc hj
  induction hanc with
  | root => simpa [List.mem_singleton.1 hj] using hi
  | @step id p l hstep _ ih =>
      rcases List.mem_cons.1 hj with heq | hmem
      · simpa [heq] using hi
      · exact ih (h.closed id p hstep) hmem

end Linked

end ClassLang.Table
