import ClassLang.Proofs.Table.Chain
import ClassLang.Proofs.Type

/-!
Linking gives a linked table, and adding members keeps it linked.
-/

namespace ClassLang

deriving instance DecidableEq for Var, Field, Method, Symbol

namespace ClassInfo

/-- What stays of a class once it has been linked: its number, declaration and
parent, and the number of its type parameters. -/
def frame (c : ClassInfo) : Nat × ClassDecl × Option Nat × Nat :=
  (c.id, c.decl, c.parent, c.tparams.length)

theorem frame_eq {c d : ClassInfo} (h : c.frame = d.frame) :
    c.id = d.id ∧ c.decl = d.decl ∧ c.parent = d.parent ∧
      c.tparams.length = d.tparams.length := by
  simpa [frame] using h

theorem isGeneric_of_frame {c d : ClassInfo} (h : c.frame = d.frame) :
    c.isGeneric = d.isGeneric := by
  have hlen := (frame_eq h).2.2.2
  cases hc : c.tparams <;> cases hd : d.tparams <;> simp_all [isGeneric]

theorem name_of_frame {c d : ClassInfo} (h : c.frame = d.frame) : c.name = d.name := by
  simp [name, (frame_eq h).2.1]

end ClassInfo

namespace Table

/-- The number of type parameters of the class with a given name. -/
def arity (t : Table) (name : String) : Option Nat :=
  (t.classNamed? name).map (·.tparams.length)

/-! Members leave the hierarchy alone -/

/-- Two tables with the same hierarchy of classes. -/
structure SameFrame (t u : Table) : Prop where
  classes : u.classes.map (·.frame) = t.classes.map (·.frame)
  chains : u.chains = t.chains
  order : u.order = t.order

namespace SameFrame

variable {t u v : Table} {i : Nat}

theorem refl (t : Table) : SameFrame t t := ⟨rfl, rfl, rfl⟩

theorem trans (h : SameFrame t u) (h' : SameFrame u v) : SameFrame t v :=
  ⟨h'.classes.trans h.classes, h'.chains.trans h.chains, h'.order.trans h.order⟩

theorem length (h : SameFrame t u) : u.classes.length = t.classes.length := by
  simpa using congrArg List.length h.classes

theorem class? (h : SameFrame t u) (i : Nat) :
    (u.class? i).map (·.frame) = (t.class? i).map (·.frame) := by
  have := congrArg (·[i]?) h.classes
  simpa [Table.class?] using this

theorem of_class? (h : SameFrame t u) {c : ClassInfo} (hc : u.class? i = some c) :
    ∃ d, t.class? i = some d ∧ c.frame = d.frame := by
  have := h.class? i
  rw [hc] at this
  cases hd : t.class? i with
  | none => simp [hd] at this
  | some d => exact ⟨d, rfl, by simpa [hd] using this⟩

theorem chain (h : SameFrame t u) (i : Nat) : u.chain i = t.chain i := by
  simp [Table.chain, h.chains]

theorem parent (h : SameFrame t u) (i : Nat) :
    (u.class? i).bind (·.parent) = (t.class? i).bind (·.parent) := by
  have := h.class? i
  cases hu : u.class? i with
  | none =>
      cases ht : t.class? i with
      | none => rfl
      | some d => simp [hu, ht] at this
  | some c =>
      obtain ⟨d, hd, hframe⟩ := h.of_class? hu
      simp [hd, (ClassInfo.frame_eq hframe).2.2.1]

theorem names (h : SameFrame t u) :
    u.classes.map (·.name) = t.classes.map (·.name) := by
  have := congrArg (List.map fun x : Nat × ClassDecl × Option Nat × Nat => x.2.1.name.text)
    h.classes
  simpa [ClassInfo.frame, ClassInfo.name, Function.comp_def] using this

/-- The arity of a class is part of its frame. -/
theorem arity (h : SameFrame t u) : u.arity = t.arity := by
  funext name
  have hfind : ∀ v : Table, (v.classes.map (·.frame)).find? (fun x => x.2.1.name.text = name) =
      (v.classNamed? name).map (·.frame) := by
    intro v
    rw [List.find?_map]
    rfl
  have heq := (hfind u).symm.trans ((congrArg _ h.classes).trans (hfind t))
  have hlen := congrArg (Option.map fun x : Nat × ClassDecl × Option Nat × Nat => x.2.2.2) heq
  simpa [Table.arity, ClassInfo.frame, Function.comp_def] using hlen

theorem linked (h : SameFrame t u) (ht : t.Linked) : u.Linked where
  id_eq {i c} hc := by
    obtain ⟨d, hd, hframe⟩ := h.of_class? hc
    rw [(ClassInfo.frame_eq hframe).1, ht.id_eq hd]
  names := by rw [h.names]; exact ht.names
  closed i p hp := by
    rw [h.length]
    exact ht.closed i p (by rw [← h.parent i, hp])
  parent_plain {i p c} hp hc := by
    obtain ⟨d, hd, hframe⟩ := h.of_class? hc
    rw [ClassInfo.isGeneric_of_frame hframe]
    exact ht.parent_plain (by rw [← h.parent i, hp]) hd
  ancestry {i} hi := by
    rw [h.chain i]
    exact (ht.ancestry (by rwa [← h.length])).congr h.parent
  order_perm := by rw [h.order, h.length]; exact ht.order_perm
  order_sorted := by
    rw [h.order]
    simpa [h.chain] using ht.order_sorted

end SameFrame

/-! Resolving parents -/

/-- A table whose classes and bounds have been registered and nothing else. -/
structure Registered (t : Table) : Prop where
  id_eq : ∀ {i c}, t.class? i = some c → c.id = i
  names : (t.classes.map (·.name)).Nodup
  parent : ∀ c ∈ t.classes, c.parent = none

namespace Registered

variable {t : Table}

theorem class?_id (h : t.Registered) {c : ClassInfo} (hc : c ∈ t.classes) :
    t.class? c.id = some c := by
  obtain ⟨i, hi, rfl⟩ := List.mem_iff_getElem.1 hc
  have hget : t.class? i = some t.classes[i] := List.getElem?_eq_getElem hi
  rw [h.id_eq hget, hget]

end Registered

/-- A parent that can be resolved is a class that is not generic. -/
theorem resolveParent_ok {t : Table} {c : ClassInfo} {name : Ident} {p : Nat}
    (h : t.resolveParent c name = .ok p) :
    ∃ d ∈ t.classes, d.name = name.text ∧ d.id = p ∧ d.isGeneric = false := by
  unfold resolveParent resolve at h
  split at h
  · cases h
  · split at h
    · rename_i d hd
      have hmem : d ∈ t.classes := List.mem_of_find?_eq_some hd
      have hname : d.name = name.text := by simpa using List.find?_some hd
      cases hg : d.isGeneric with
      | true => simp [hg, bind, Except.bind, throw, throwThe, MonadExceptOf.throw] at h
      | false =>
          simp [hg, bind, Except.bind, pure, Except.pure] at h
          exact ⟨d, hmem, hname, h, hg⟩
    · cases h
  · cases h

/-- The class `c` with the parent that its declaration names. -/
def withParent (t : Table) (c : ClassInfo) : ClassInfo :=
  match c.decl.parent.map (t.resolveParent c) with
  | some (.ok p) => { c with parent := some p }
  | _ => c

theorem linkParents_classes (t : Table) :
    t.linkParents.1 = { t with classes := t.classes.map t.withParent } := by
  simp only [linkParents, List.map_map]
  congr 1
  refine List.map_congr_left fun c _ => ?_
  simp only [Function.comp, withParent]
  cases c.decl.parent with
  | none => rfl
  | some name =>
      simp only [Option.map_some]
      cases t.resolveParent c name <;> rfl

namespace Registered

variable {t : Table}

theorem withParent_fields (c : ClassInfo) :
    (t.withParent c).id = c.id ∧ (t.withParent c).decl = c.decl ∧
      (t.withParent c).tparams = c.tparams ∧ (t.withParent c).fields = c.fields ∧
      (t.withParent c).methods = c.methods := by
  unfold withParent
  split <;> simp

theorem class?_linkParents (i : Nat) :
    t.linkParents.1.class? i = (t.class? i).map t.withParent := by
  simp [linkParents_classes, class?]

/-- The parent that linking finds is a class of the table, and not generic. -/
theorem parent_linkParents (h : t.Registered) {i p : Nat}
    (hp : (t.linkParents.1.class? i).bind (·.parent) = some p) :
    ∃ d, t.class? p = some d ∧ d.isGeneric = false := by
  rw [class?_linkParents] at hp
  cases hc : t.class? i with
  | none => simp [hc] at hp
  | some c =>
      have hmem : c ∈ t.classes := List.mem_of_getElem? hc
      simp only [hc, Option.map_some, Option.bind_some] at hp
      unfold withParent at hp
      split at hp
      · rename_i q hq
        cases hp
        cases hname : c.decl.parent with
        | none => simp [hname] at hq
        | some name =>
            have hres : t.resolveParent c name = .ok p := by simpa [hname] using hq
            obtain ⟨d, hd, _, rfl, hplain⟩ := resolveParent_ok hres
            exact ⟨d, h.class?_id hd, hplain⟩
      · simp [h.parent c hmem] at hp

theorem closed_linkParents (h : t.Registered) : t.linkParents.1.Closed := by
  intro i p hp
  obtain ⟨d, hd, _⟩ := h.parent_linkParents hp
  simpa [linkParents_classes] using class?_eq_some_lt hd

theorem ids_linkParents (h : t.Registered) :
    t.linkParents.1.classes.map (·.id) = List.range t.classes.length := by
  refine List.ext_getElem (by simp [linkParents_classes]) fun i hi _ => ?_
  have hlt : i < t.classes.length := by simpa [linkParents_classes] using hi
  have hget : t.class? i = some t.classes[i] := List.getElem?_eq_getElem hlt
  simp [linkParents_classes, (withParent_fields (t := t) t.classes[i]).1, h.id_eq hget]

end Registered

/-- What linking keeps of a registered class: everything but its parent and its
children. -/
def SameMembers (t u : Table) : Prop :=
  u.unit = t.unit ∧ u.bounds = t.bounds ∧ u.classes.length = t.classes.length ∧
    ∀ i c, u.class? i = some c → ∃ d, t.class? i = some d ∧ c.decl = d.decl ∧
      c.tparams = d.tparams ∧ c.fields = d.fields ∧ c.methods = d.methods

private theorem chain_of_chains {u : Table} {n : Nat} {f : Nat → List Nat}
    (h : u.chains = (List.range n).map f) {i : Nat} (hi : i < n) : u.chain i = f i := by
  simp [chain, h, List.getD_eq_getElem?_getD, hi]

/-! The order of depths -/

theorem insertByDepth_perm (depth : Nat → Nat) (id : Nat) (ids : List Nat) :
    (insertByDepth depth id ids).Perm (id :: ids) := by
  fun_induction insertByDepth depth id ids with
  | case1 => rfl
  | case2 => rfl
  | case3 other rest _ ih => exact (ih.cons other).trans (List.Perm.swap id other rest)

theorem insertByDepth_sorted {depth : Nat → Nat} {ids : List Nat} (id : Nat)
    (h : ids.Pairwise fun a b => depth a ≤ depth b) :
    (insertByDepth depth id ids).Pairwise fun a b => depth a ≤ depth b := by
  fun_induction insertByDepth depth id ids with
  | case1 => exact List.pairwise_singleton _ _
  | case2 other rest hle =>
      refine List.pairwise_cons.2 ⟨fun b hb => ?_, h⟩
      rcases List.mem_cons.1 hb with rfl | hb
      · exact hle
      · exact Nat.le_trans hle ((List.pairwise_cons.1 h).1 b hb)
  | case3 other rest hlt ih =>
      obtain ⟨hother, hrest⟩ := List.pairwise_cons.1 h
      refine List.pairwise_cons.2 ⟨fun b hb => ?_, ih hrest⟩
      rcases List.mem_cons.1 ((insertByDepth_perm depth id rest).mem_iff.1 hb) with rfl | hb
      · omega
      · exact hother b hb

theorem sortByDepth_perm (depth : Nat → Nat) (ids : List Nat) :
    (sortByDepth depth ids).Perm ids := by
  induction ids with
  | nil => rfl
  | cons id rest ih => exact (insertByDepth_perm depth id _).trans (ih.cons id)

theorem sortByDepth_sorted (depth : Nat → Nat) (ids : List Nat) :
    (sortByDepth depth ids).Pairwise fun a b => depth a ≤ depth b := by
  induction ids with
  | nil => exact List.Pairwise.nil
  | cons id rest ih => exact insertByDepth_sorted id ih

/-- Linking without errors gives a linked table. -/
theorem linkAll_linked {t u : Table} (h : t.Registered) (hlink : t.linkAll = (u, [])) :
    u.Linked ∧ SameMembers t u := by
  have hids := h.ids_linkParents
  unfold linkAll at hlink
  simp only [hids] at hlink
  split at hlink
  · rename_i herrors
    have hsort : Diagnostic.sort (t.linkParents.2 ++
        t.linkParents.1.cycleErrors (List.range t.classes.length)) = [] := (Prod.mk.inj hlink).2
    have hperm := List.mergeSort_perm (t.linkParents.2 ++
        t.linkParents.1.cycleErrors (List.range t.classes.length)) fun a b => a.pos.le b.pos
    unfold Diagnostic.sort at hsort
    rw [hsort] at hperm
    simp [hperm.symm.eq_nil] at herrors
  · rename_i hnone
    have hcycles : t.linkParents.1.cycleErrors (List.range t.classes.length) = [] := by
      have : t.linkParents.2 = [] ∧
        t.linkParents.1.cycleErrors (List.range t.classes.length) = [] := by simpa using hnone
      exact this.2
    have hu := (Prod.mk.inj hlink).1
    -- Only the children of a class differ from the table with resolved parents.
    have hclass : ∀ i, ∃ g : ClassInfo → List Nat, u.class? i =
        (t.class? i).map fun c => { t.withParent c with children := g c } := by
      intro i
      subst hu
      exact ⟨_, by simp [class?, linkParents_classes, Function.comp_def]; rfl⟩
    have hparent : ∀ i, (u.class? i).bind (·.parent) =
        (t.linkParents.1.class? i).bind (·.parent) := by
      intro i
      obtain ⟨g, hg⟩ := hclass i
      rw [hg, Registered.class?_linkParents]
      cases t.class? i <;> rfl
    have hlen : u.classes.length = t.classes.length := by
      subst hu
      simp [linkParents_classes]
    have hancestry : ∀ i, i < t.classes.length → Ancestry u i (u.chain i) := by
      intro i hi
      obtain ⟨l, hl⟩ := walkParents_of_cycleErrors hcycles (List.mem_range.2 hi)
      have hchain : u.chain i = l := by
        rw [chain_of_chains (by subst hu; rfl) hi, hl]
      rw [hchain]
      exact (walkParents_ok h.closed_linkParents
        (by simpa [linkParents_classes] using hi) hl).congr hparent
    have horder : u.order =
        sortByDepth (fun i => (u.chain i).length) (List.range t.classes.length) := by
      subst hu
      rfl
    refine ⟨⟨?_, ?_, ?_, ?_, ?_, ?_, ?_⟩, ?_⟩
    · intro i c hc
      obtain ⟨g, hg⟩ := hclass i
      rw [hg] at hc
      obtain ⟨d, hd, rfl⟩ := Option.map_eq_some_iff.1 hc
      simpa [(Registered.withParent_fields (t := t) d).1] using h.id_eq hd
    · have hnames : u.classes.map (·.name) = t.classes.map (·.name) := by
        subst hu
        simp [linkParents_classes, ClassInfo.name, Registered.withParent_fields]
      rw [hnames]
      exact h.names
    · intro i p hp
      obtain ⟨d, hd, _⟩ := h.parent_linkParents ((hparent i).symm.trans hp)
      rw [hlen]
      exact class?_eq_some_lt hd
    · intro i p c hp hc
      obtain ⟨d, hd, hplain⟩ := h.parent_linkParents ((hparent i).symm.trans hp)
      obtain ⟨g, hg⟩ := hclass p
      rw [hg, hd, Option.map_some, Option.some.injEq] at hc
      subst hc
      simpa [ClassInfo.isGeneric, Registered.withParent_fields] using hplain
    · intro i hi
      exact hancestry i (by rwa [hlen] at hi)
    · rw [horder, hlen]
      exact sortByDepth_perm _ _
    · rw [horder]
      exact sortByDepth_sorted _ _
    · refine ⟨by subst hu; rfl, by subst hu; rfl, hlen, fun i c hc => ?_⟩
      obtain ⟨g, hg⟩ := hclass i
      rw [hg] at hc
      obtain ⟨d, hd, rfl⟩ := Option.map_eq_some_iff.1 hc
      exact ⟨d, hd, (Registered.withParent_fields (t := t) d).2⟩

end Table

end ClassLang

/-!
Looking up members along the chain of ancestors. A class has its own members and
those of its parent; so if every method agrees in its signature with the one that
the parent has under its name, every class agrees with all its ancestors.
-/

namespace ClassLang.Table

variable {t u : Table} {i j p : Nat} {c : ClassInfo} {name : String}

/-! One step up -/

theorem chainClasses_of_parent (h : t.Linked) (hc : t.class? i = some c)
    (hp : c.parent = some p) : t.chainClasses i = c :: t.chainClasses p := by
  have hchain : t.chain i = i :: t.chain p := h.chain_of_parent (by simp [hc, hp])
  simp [chainClasses, hchain, hc]

theorem chainClasses_of_root (h : t.Linked) (hc : t.class? i = some c)
    (hp : c.parent = none) : t.chainClasses i = [c] := by
  have hchain : t.chain i = [i] := h.chain_of_root (class?_eq_some_lt hc) (by simp [hc, hp])
  simp [chainClasses, hchain, hc]

theorem lookupMethod_of_class (h : t.Linked) (hc : t.class? i = some c) :
    t.lookupMethod i name = (c.method? name).or (c.parent.bind (t.lookupMethod · name)) := by
  cases hp : c.parent with
  | none =>
      simp only [lookupMethod, chainClasses_of_root h hc hp, List.findSome?_cons]
      cases c.method? name <;> rfl
  | some p =>
      simp only [lookupMethod, chainClasses_of_parent h hc hp, List.findSome?_cons,
        Option.bind_some]
      cases c.method? name <;> rfl

theorem lookupField_of_class (h : t.Linked) (hc : t.class? i = some c) :
    t.lookupField i name = (c.field? name).or (c.parent.bind (t.lookupField · name)) := by
  cases hp : c.parent with
  | none =>
      simp only [lookupField, chainClasses_of_root h hc hp, List.findSome?_cons]
      cases c.field? name <;> rfl
  | some p =>
      simp only [lookupField, chainClasses_of_parent h hc hp, List.findSome?_cons,
        Option.bind_some]
      cases c.field? name <;> rfl

theorem flatFields_of_parent (h : t.Linked) (hc : t.class? i = some c)
    (hp : c.parent = some p) : t.flatFields i = t.flatFields p ++ c.fields := by
  simp [flatFields, chainClasses_of_parent h hc hp]

theorem flatFields_of_root (h : t.Linked) (hc : t.class? i = some c)
    (hp : c.parent = none) : t.flatFields i = c.fields := by
  simp [flatFields, chainClasses_of_root h hc hp]

/-! Tables that agree on a chain -/

theorem chainClasses_congr (hchain : u.chain i = t.chain i)
    (h : ∀ j ∈ t.chain i, u.class? j = t.class? j) : u.chainClasses i = t.chainClasses i := by
  unfold chainClasses
  rw [hchain]
  exact List.filterMap_congr h

theorem lookupMethod_congr (hchain : u.chain i = t.chain i)
    (h : ∀ j ∈ t.chain i, u.class? j = t.class? j) :
    u.lookupMethod i name = t.lookupMethod i name := by
  simp only [lookupMethod, chainClasses_congr hchain h]

theorem lookupField_congr (hchain : u.chain i = t.chain i)
    (h : ∀ j ∈ t.chain i, u.class? j = t.class? j) :
    u.lookupField i name = t.lookupField i name := by
  simp only [lookupField, chainClasses_congr hchain h]

/-! Ancestors -/

theorem isAncestor_iff : t.isAncestor j i = true ↔ j ∈ t.chain i := by
  simp [isAncestor]

/-- A way down: what holds of a class and passes to its children holds of all its
descendants. -/
theorem Linked.descend {motive : Nat → Prop} (h : t.Linked) (hi : i < t.classes.length)
    (hj : j ∈ t.chain i) (base : motive j)
    (step : ∀ k c p, t.class? k = some c → c.parent = some p → j ∈ t.chain p → motive p →
      motive k) : motive i := by
  have hanc := h.ancestry hi
  generalize hl : t.chain i = l at hanc hj
  induction hanc with
  | root => simpa [List.mem_singleton.1 hj] using base
  | @step id p l hstep rest ih =>
      rcases List.mem_cons.1 hj with rfl | hmem
      · exact base
      · have hp := h.closed id p hstep
        have hchain : t.chain p = l := (h.ancestry hp).unique rest
        obtain ⟨c, hc, hparent⟩ := Option.bind_eq_some_iff.1 hstep
        exact step id c p hc hparent (hchain ▸ hmem) (ih hp hchain hmem)

/-- A way up: what holds of a class if it holds of its parent holds of all. -/
theorem Linked.ascend {motive : Nat → Prop} (h : t.Linked)
    (step : ∀ k c, t.class? k = some c → (∀ p, c.parent = some p → motive p) → motive k)
    (hi : i < t.classes.length) : motive i := by
  have hanc := h.ancestry hi
  generalize t.chain i = l at hanc
  induction hanc with
  | @root id hroot =>
      obtain ⟨c, hc⟩ := class?_isSome hi
      refine step id c hc fun p hp => ?_
      simp [hc, hp] at hroot
  | @step id p l hstep _ ih =>
      obtain ⟨c, hc, hparent⟩ := Option.bind_eq_some_iff.1 hstep
      refine step id c hc fun q hq => ?_
      obtain rfl : q = p := by simpa [hq] using hparent
      exact ih (h.closed id q hstep)

/-- Generic classes have no descendants but themselves. -/
theorem Linked.eq_of_generic (h : t.Linked) (hi : i < t.classes.length) (hj : j ∈ t.chain i)
    (hc : t.class? j = some c) (hgeneric : c.isGeneric = true) : i = j := by
  refine h.descend (motive := (· = j)) hi hj rfl fun k d p hk hp _ hpj => ?_
  subst hpj
  have hplain := h.parent_plain (i := k) (by simp [hk, hp]) hc
  simp [hgeneric] at hplain

/-- The ancestors of an ancestor come later in no sorted order. -/
theorem Linked.order_ancestors (h : t.Linked) :
    t.order.Pairwise fun a b => b ∉ t.chain a := by
  have hnodup : t.order.Nodup := h.order_perm.nodup_iff.2 List.nodup_range
  have hmem : ∀ a ∈ t.order, a < t.classes.length := fun a ha =>
    List.mem_range.1 (h.order_perm.mem_iff.1 ha)
  refine (hnodup.and h.order_sorted).imp_of_mem fun {a b} ha hb hab hba => ?_
  obtain ⟨hne, hle⟩ := hab
  obtain ⟨l, hl, hsuffix⟩ := (h.ancestry (hmem a ha)).exists_suffix hba
  rw [hl.unique (h.ancestry (hmem b hb))] at hsuffix
  have heq : t.chain b = t.chain a := hsuffix.eq_of_length (Nat.le_antisymm hsuffix.length_le hle)
  have hb' := h.ancestry (hmem b hb)
  have ha' := h.ancestry (hmem a ha)
  rw [heq] at hb'
  generalize t.chain a = l at ha' hb'
  cases ha' <;> cases hb' <;> exact hne rfl

/-! Overriding -/

/-- Every own method has the signature of the method it overrides. -/
def Overrides (t : Table) : Prop :=
  ∀ {i c p}, t.class? i = some c → c.parent = some p → ∀ m ∈ c.methods, ∀ inherited,
    t.lookupMethod p m.name = some inherited → inherited.sig.identical m.sig = true

theorem method?_mem {m : Method} (h : c.method? name = some m) :
    m ∈ c.methods ∧ m.name = name :=
  ⟨List.mem_of_find?_eq_some h, by simpa using List.find?_some h⟩

/-- A descendant has every method of its ancestors, with an identical signature. -/
theorem lookupMethod_of_isAncestor (h : t.Linked) (ho : t.Overrides)
    (hi : i < t.classes.length) (hj : t.isAncestor j i = true) {m : Method}
    (hm : t.lookupMethod j name = some m) :
    ∃ m', t.lookupMethod i name = some m' ∧ m.sig.identical m'.sig = true := by
  refine h.descend (motive := fun k => ∃ m', t.lookupMethod k name = some m' ∧
    m.sig.identical m'.sig = true) hi (isAncestor_iff.1 hj)
    ⟨m, hm, Signature.identical_refl _⟩ fun k c p hk hp _ ih => ?_
  obtain ⟨m', hm', hid⟩ := ih
  rw [lookupMethod_of_class h hk, hp, Option.bind_some]
  cases hown : c.method? name with
  | none => exact ⟨m', by simp [hm'], hid⟩
  | some own =>
      obtain ⟨hmem, hname⟩ := method?_mem hown
      subst hname
      exact ⟨own, rfl, Signature.identical_trans hid (ho hk hp own hmem m' hm')⟩

end ClassLang.Table
