import ClassLang.Proofs.Check.Collect
import ClassLang.Proofs.Table.Cycle

/-!
What linking makes of the declarations that were registered before it, some of which may have been
refused. The parents that classes name decide everything: linking succeeds if each of them is a
registered class that is not generic and no class is its own ancestor, and then the chains, the
order and the children are those of the parents. Otherwise the errors are those of the parents that
cannot be found and of the cycles, each cycle once.
-/

namespace ClassLang

namespace Table

/-- Registers declarations one after the other. One that is refused leaves the table as it is. -/
def registerAll (t : Table) : List Decl → Table
  | [] => t
  | d :: rest =>
    match t.register d with
    | .ok u => u.registerAll rest
    | .error _ => t.registerAll rest

/-- The checker registers declarations in this way. -/
theorem registerAll_eq (t : Table) (decls : List Decl) (s : Check.Session) :
    ((Check.register t decls).run s).1 = t.registerAll decls := by
  induction decls generalizing t s with
  | nil => rfl
  | cons d rest ih =>
      unfold Check.register registerAll
      cases t.register d with
      | ok u => exact ih u s
      | error e =>
          dsimp only
          rw [Check.Watch.Ensures.run_bind]
          exact ih t _

/-- The table knows exactly the declarations that were not refused. -/
theorem exists_registers {t : Table} {before : List Decl} (h : Check.Registers t before)
    (decls : List Decl) :
    ∃ kept, kept.Sublist decls ∧ Check.Registers (t.registerAll decls) (before ++ kept) := by
  induction decls generalizing t before with
  | nil => exact ⟨[], .slnil, by simpa [registerAll] using h⟩
  | cons d rest ih =>
      unfold registerAll
      split
      next u hu =>
        obtain ⟨kept, hsub, hkept⟩ := ih (h.register hu)
        exact ⟨d :: kept, hsub.cons_cons d, by simpa using hkept⟩
      next =>
        obtain ⟨kept, hsub, hkept⟩ := ih h
        exact ⟨kept, hsub.cons d, hkept⟩

theorem classes_declare {t u : Table} {id : Ident} {sym : Symbol} (h : t.declare id sym = .ok u) :
    u.classes = t.classes := by
  unfold declare at h
  split at h
  · cases h
  · split at h
    · rw [← Except.ok.inj h]
    · cases h

/-- A class that is registered has no children yet. -/
theorem children_register {t u : Table} {d : Decl} (hd : t.register d = .ok u)
    (h : ∀ c ∈ t.classes, c.children = []) : ∀ c ∈ u.classes, c.children = [] := by
  cases d with
  | cls d =>
      simp only [register, registerClass] at hd
      cases hdecl : t.declare d.name (.cls d.name) with
      | error e => simp [hdecl, bind, Except.bind] at hd
      | ok t' =>
          simp only [hdecl, bind, Except.bind, pure, Except.pure, Except.ok.injEq] at hd
          subst hd
          intro c hc
          rcases List.mem_append.1 hc with hc | hc
          · exact h c hc
          · rw [List.mem_singleton.1 hc]
  | bound d =>
      simp only [register, registerBound] at hd
      cases hdecl : t.declare d.name (.bound d.name) with
      | error e => simp [hdecl, bind, Except.bind] at hd
      | ok t' =>
          simp only [hdecl, bind, Except.bind, pure, Except.pure, Except.ok.injEq] at hd
          subst hd
          rwa [classes_declare hdecl]
  | func d => rwa [classes_declare hd]
  | const d => rwa [classes_declare hd]

theorem children_registerAll {t : Table} (h : ∀ c ∈ t.classes, c.children = [])
    (decls : List Decl) : ∀ c ∈ (t.registerAll decls).classes, c.children = [] := by
  induction decls generalizing t with
  | nil => exact h
  | cons d rest ih =>
      unfold registerAll
      split
      next u hu => exact ih (children_register hu h)
      next => exact ih h

/-- A class is found under its name. -/
theorem Registered.classNamed?_name {t : Table} (h : t.Registered) {c : ClassInfo}
    (hc : c ∈ t.classes) : t.classNamed? c.name = some c := by
  cases hfind : t.classNamed? c.name with
  | none =>
      have hnone := List.find?_eq_none.1 hfind c hc
      simp at hnone
  | some d =>
      have hname : d.name = c.name := by simpa using List.find?_some hfind
      rw [List.inj_on_of_nodup_map h.names (List.mem_of_find?_eq_some hfind) hc hname]

/-! The parents that classes name -/

/-- Class number `i` names class number `j` as its parent, and `j` is not generic. -/
def Extends (t : Table) (i j : Nat) : Prop :=
  ∃ c p name, t.class? i = some c ∧ c.decl.parent = some name ∧ t.class? j = some p ∧
    p.name = name.text ∧ p.isGeneric = false

/-- Why the class `c` cannot have the parent it names: there is no class of that name, or it is
generic. -/
def parentError? (t : Table) (c : ClassInfo) : Option Diagnostic :=
  c.decl.parent.bind fun name =>
    match t.classNamed? name.text with
    | some p =>
      if p.isGeneric then
        some ⟨.typeMismatch, name.pos, s!"class {c.name} cannot extend generic class {p.name}"⟩
      else none
    | none =>
      if name.text ∈ t.unit.names ∨ name.text ∈ predeclared.names then
        some ⟨.unknownType, name.pos, s!"{name.text} is not a class"⟩
      else some ⟨.unknownType, name.pos, s!"undefined: {name.text}"⟩

end Table

namespace Check.Registers

open Table (Extends parentError?)

variable {t : Table} {decls : List Decl}

/-- What a name of the unit stands for. -/
theorem lookup_of_mem (h : Registers t decls) {d : Decl} (hd : d ∈ decls) :
    Scope.lookup [t.unit, predeclared] d.name.text = some d.symbol := by
  have hentry : (d.name.text, d.symbol) ∈ t.unit.entries := by
    rw [h.entries]
    exact List.mem_map.2 ⟨d, hd, rfl⟩
  rw [Scope.lookup, List.findSome?_cons]
  cases hfind : t.unit.find? d.name.text with
  | none => exact absurd (List.mem_map.2 ⟨_, hentry, rfl⟩) (find?_eq_none_iff.1 hfind)
  | some sym =>
      have hnodup : (t.unit.entries.map (·.1)).Nodup := by
        simpa [h.entries, Function.comp_def] using h.nodup
      have heq := List.inj_on_of_nodup_map hnodup (find?_mem hfind) hentry rfl
      exact congrArg some (Prod.mk.inj heq).2

theorem lookup_isSome (t : Table) (name : String) :
    (Scope.lookup [t.unit, predeclared] name).isSome = true ↔
      name ∈ t.unit.names ∨ name ∈ predeclared.names := by
  rw [Scope.lookup, List.findSome?_isSome_iff]
  have hfind : ∀ s : Scope Symbol, (s.find? name).isSome = true ↔ name ∈ s.names := by
    intro s
    rw [← not_iff_not, Bool.not_eq_true, Option.isSome_eq_false_iff, Option.isNone_iff_eq_none]
    exact find?_eq_none_iff
  simp [hfind]

/-- A name stands for a class exactly if a class was registered under it. -/
theorem lookup_cls (h : Registers t decls) (name : String) :
    (∃ id, Scope.lookup [t.unit, predeclared] name = some (.cls id)) ↔
      ∃ c ∈ t.classes, c.name = name := by
  have hclass : (∃ c ∈ t.classes, c.name = name) ↔ ∃ d, .cls d ∈ decls ∧ d.name.text = name := by
    have hdecls : ∀ d, d ∈ t.classes.map (·.decl) ↔ .cls d ∈ decls := by
      intro d
      rw [h.classes, List.mem_filterMap]
      constructor
      · rintro ⟨e, he, heq⟩
        cases e <;> simp [Decl.cls?] at heq
        exact heq ▸ he
      · exact fun hd => ⟨.cls d, hd, rfl⟩
    constructor
    · rintro ⟨c, hc, rfl⟩
      exact ⟨c.decl, (hdecls _).1 (List.mem_map_of_mem hc), rfl⟩
    · rintro ⟨d, hd, rfl⟩
      obtain ⟨c, hc, rfl⟩ := List.mem_map.1 ((hdecls d).2 hd)
      exact ⟨c, hc, rfl⟩
  rw [hclass]
  constructor
  · rintro ⟨id, hlookup⟩
    rcases UnitOf.lookup h.entries hlookup with ⟨d, hd, hname, hsym⟩ | hpre
    · cases d <;> simp [Decl.symbol] at hsym
      exact ⟨_, hd, hname⟩
    · simp [predeclared] at hpre
  · rintro ⟨d, hd, rfl⟩
    exact ⟨d.name, h.lookup_of_mem hd⟩

/-- The class that a name stands for is the one registered under it. -/
theorem resolve_eq (h : Registers t decls) (name : Ident) : t.resolve name =
    match t.classNamed? name.text with
    | some c => .ok c
    | none =>
      .error ⟨.unknownType, name.pos,
        if name.text ∈ t.unit.names ∨ name.text ∈ predeclared.names then
          s!"{name.text} is not a class"
        else s!"undefined: {name.text}"⟩ := by
  have hcls := h.lookup_cls name.text
  have hsome := lookup_isSome t name.text
  have hnone : t.classNamed? name.text = none ↔ ¬ ∃ c ∈ t.classes, c.name = name.text := by
    simp [Table.classNamed?]
  unfold Table.resolve
  split
  next hlookup =>
    rw [hlookup] at hsome hcls
    rw [hnone.2 (by rw [← hcls]; simp)]
    rw [if_neg fun hmem => by simpa using hsome.2 hmem]
  next id hlookup =>
    obtain ⟨c, hc⟩ := Option.ne_none_iff_exists'.1 (fun hno => hnone.1 hno (hcls.1 ⟨id, hlookup⟩))
    rw [hc]
  next sym hother hlookup =>
    rw [hlookup] at hsome
    rw [hnone.2 fun hex => ?_, if_pos (hsome.1 rfl)]
    obtain ⟨id, hid⟩ := hcls.2 hex
    rw [hlookup] at hid
    exact hother id (Option.some.inj hid)

/-- The parent of a class is found, or there is one error about it. -/
theorem resolveParent_eq (h : Registers t decls) {c : ClassInfo} {name : Ident}
    (hname : c.decl.parent = some name) : t.resolveParent c name =
      match parentError? t c with
      | some e => .error e
      | none => .ok (((t.classNamed? name.text).map (·.id)).getD 0) := by
  unfold Table.resolveParent parentError?
  rw [h.resolve_eq, hname]
  cases hfind : t.classNamed? name.text with
  | none =>
      simp only [bind, Except.bind, Option.bind_some, hfind]
      split <;> rfl
  | some p =>
      simp only [bind, Except.bind, Option.bind_some, hfind]
      cases p.isGeneric <;> rfl

/-- The parents that linking finds are those that classes name. -/
theorem isParent_linkParents (h : Registers t decls) {i j : Nat} :
    t.linkParents.1.IsParent i j ↔ t.Extends i j := by
  rw [Table.IsParent, Table.Registered.class?_linkParents]
  constructor
  · intro hp
    cases hc : t.class? i with
    | none => simp [hc] at hp
    | some c =>
        have hnone := (h.class_new hc).2.1
        simp only [hc, Option.map_some, Option.bind_some, Table.withParent] at hp
        split at hp
        next p hres =>
          obtain rfl : p = j := Option.some.inj hp
          cases hname : c.decl.parent with
          | none => simp [hname] at hres
          | some name =>
              rw [hname, Option.map_some, Option.some.injEq] at hres
              obtain ⟨d, hd, hdname, hid, hplain⟩ := Table.resolveParent_ok hres
              exact ⟨c, d, name, hc, hname, hid ▸ h.registered.class?_id hd, hdname, hplain⟩
        next => simp [hnone] at hp
  · rintro ⟨c, p, name, hc, hname, hj, hpname, hplain⟩
    have hfind : t.classNamed? name.text = some p :=
      hpname ▸ h.registered.classNamed?_name (List.mem_of_getElem? hj)
    have herr : parentError? t c = none := by simp [parentError?, hname, hfind, hplain]
    have hres := h.resolveParent_eq hname
    rw [herr, hfind] at hres
    simp [hc, Table.withParent, hname, hres, (h.class_new hj).1]

/-- The errors about parents are one for each class that cannot have its parent. -/
theorem linkParents_errors (h : Registers t decls) :
    t.linkParents.2 = t.classes.filterMap (parentError? t) := by
  simp only [Table.linkParents, List.filterMap_map]
  refine List.filterMap_congr fun c hc => ?_
  simp only [Function.comp]
  cases hname : c.decl.parent with
  | none => simp [parentError?, hname]
  | some name =>
      have hres := h.resolveParent_eq hname
      cases herr : parentError? t c <;> simp [hres, herr]

theorem parentError?_eq_none_iff (h : Registers t decls) {c : ClassInfo} :
    parentError? t c = none ↔ ∀ name, c.decl.parent = some name →
      ∃ p ∈ t.classes, p.name = name.text ∧ p.isGeneric = false := by
  unfold parentError?
  cases c.decl.parent with
  | none => simp
  | some name =>
      simp only [Option.bind_some, Option.some.injEq, forall_eq']
      cases hfind : t.classNamed? name.text with
      | none =>
          have hnone : ∀ p ∈ t.classes, p.name ≠ name.text := by
            simpa [Table.classNamed?] using hfind
          refine iff_of_false (by simp only; split <;> simp) ?_
          rintro ⟨p, hp, hname, _⟩
          exact hnone p hp hname
      | some p =>
          have hmem := List.mem_of_find?_eq_some hfind
          have hname : p.name = name.text := by simpa using List.find?_some hfind
          simp only [ite_eq_right_iff, reduceCtorEq, imp_false, Bool.not_eq_true]
          constructor
          · exact fun hplain => ⟨p, hmem, hname, hplain⟩
          · rintro ⟨q, hq, hqname, hplain⟩
            have hq' := h.registered.classNamed?_name hq
            rw [hqname, hfind, Option.some.injEq] at hq'
            exact hq' ▸ hplain

end Check.Registers

namespace Table

variable {t : Table} {decls : List Decl}

/-- The errors of linking, in some order. -/
theorem linkAll_errors (t : Table) : t.linkAll.2.Perm
    (t.linkParents.2 ++ t.linkParents.1.cycleErrors (t.linkParents.1.classes.map (·.id))) := by
  unfold linkAll
  dsimp only
  split
  next => exact List.mergeSort_perm _ _
  next hnone => simp_all

/-- Without an error, a linked class has its parent and its children. -/
theorem linkAll_classes {u : Table} (h : t.linkAll = (u, [])) :
    u.classes = t.linkParents.1.classes.map fun c =>
      { c with children := c.children ++
          (t.linkParents.1.classes.filter (·.parent = some c.id)).map (·.id) } := by
  unfold linkAll at h
  dsimp only at h
  split at h
  next hsome =>
    have hperm := List.mergeSort_perm (t.linkParents.2 ++
      t.linkParents.1.cycleErrors (t.linkParents.1.classes.map (·.id))) fun a b => a.pos.le b.pos
    have hnil := (Prod.mk.inj h).2
    unfold Diagnostic.sort at hnil
    rw [hnil] at hperm
    simp [hperm.nil_eq.symm] at hsome
  next => rw [← (Prod.mk.inj h).1]

/-- The hierarchy of the linked table `u` is the one that the classes of `t` name: a chain goes up
to a class without a parent, the order lists every class once and behind its ancestors, and the
children of a class are in the order of their registration. -/
structure Hierarchy (t u : Table) : Prop where
  decls : u.classes.map (·.decl) = t.classes.map (·.decl)
  head : ∀ i < t.classes.length, (u.chain i).head? = some i
  up : ∀ i < t.classes.length, (u.chain i).IsChain t.Extends
  root : ∀ i < t.classes.length, ∀ r ∈ (u.chain i).getLast?,
    ∃ c, t.class? r = some c ∧ c.decl.parent = none
  nodup : ∀ i < t.classes.length, (u.chain i).Nodup
  order_perm : u.order.Perm (List.range t.classes.length)
  order_up : u.order.Pairwise fun i j => ¬ Relation.TransGen t.Extends i j
  children : ∀ c ∈ u.classes, c.children.Pairwise (· < ·) ∧
    ∀ j, j ∈ c.children ↔ t.Extends j c.id

namespace Ancestry

variable {id : Nat} {l : List Nat}

theorem head? (h : Ancestry t id l) : l.head? = some id := by cases h <;> rfl

theorem isChain (h : Ancestry t id l) : l.IsChain t.IsParent := by
  induction h with
  | root => exact List.isChain_singleton _
  | step hstep rest ih =>
      cases rest with
      | root => exact List.isChain_pair.2 hstep
      | step => exact List.isChain_cons_cons.2 ⟨hstep, ih⟩

/-- The last class of a chain has no parent. -/
theorem getLast? (h : Ancestry t id l) :
    ∃ r, l.getLast? = some r ∧ (t.class? r).bind (·.parent) = none := by
  induction h with
  | root hroot => exact ⟨_, rfl, hroot⟩
  | step _ rest ih =>
      obtain ⟨r, hr, hroot⟩ := ih
      refine ⟨r, ?_, hroot⟩
      rw [List.getLast?_cons, hr]
      rfl

end Ancestry

theorem Circuit.congr {r r' : Nat → Nat → Prop} (h : ∀ i j, r i j ↔ r' i j) {l : List Nat} :
    Circuit r l ↔ Circuit r' l := by
  rw [show r = r' from funext fun i => funext fun j => propext (h i j)]

/-- Finding the parents leaves the errors of cycles as they are. -/
theorem circuitError_linkParents (t : Table) (l : List Nat) :
    t.linkParents.1.circuitError l = t.circuitError l := by
  have hname : ∀ i, (t.linkParents.1.class? i).map (·.name) = (t.class? i).map (·.name) := by
    intro i
    rw [Registered.class?_linkParents]
    simp [Function.comp_def, ClassInfo.name, Registered.withParent_fields]
  have hpos : ∀ i, (t.linkParents.1.class? i).map (·.pos) = (t.class? i).map (·.pos) := by
    intro i
    rw [Registered.class?_linkParents]
    simp [Function.comp_def, ClassInfo.pos, Registered.withParent_fields]
  unfold circuitError namesOf
  simp only [hname]
  cases l with
  | nil => rfl
  | cons a rest => simp only [List.head?_cons, Option.bind_some, hpos]

theorem children_linkParents (h : ∀ c ∈ t.classes, c.children = []) :
    ∀ c ∈ t.linkParents.1.classes, c.children = [] := by
  intro c hc
  rw [linkParents_classes] at hc
  obtain ⟨d, hd, rfl⟩ := List.mem_map.1 hc
  rw [← h d hd, withParent]
  split <;> rfl

/-- The classes that have class number `p` as their parent. -/
theorem mem_childrenOf (hids : t.classes.map (·.id) = List.range t.classes.length) {p j : Nat} :
    j ∈ (t.classes.filter (·.parent = some p)).map (·.id) ↔ t.IsParent j p := by
  have hid : ∀ (i : Nat) (c : ClassInfo), t.classes[i]? = some c → c.id = i := by
    intro i c hc
    have hget := congrArg (·[i]?) hids
    obtain ⟨hlt, rfl⟩ := List.getElem?_eq_some_iff.1 hc
    simpa [hlt] using hget
  rw [List.mem_map, IsParent, class?]
  constructor
  · rintro ⟨c, hc, rfl⟩
    obtain ⟨hmem, hparent⟩ := List.mem_filter.1 hc
    obtain ⟨i, hi, rfl⟩ := List.mem_iff_getElem.1 hmem
    have hget := List.getElem?_eq_getElem hi
    rw [hid i _ hget, hget]
    simpa using hparent
  · intro hp
    obtain ⟨c, hc, hparent⟩ := Option.bind_eq_some_iff.1 hp
    exact ⟨c, List.mem_filter.2 ⟨List.mem_of_getElem? hc, by simpa using hparent⟩, hid j c hc⟩

/-- A table that was linked without an error has the hierarchy that its classes name. -/
theorem hierarchy_of_linkAll {u : Table} (h : Check.Registers t decls)
    (hchildren : ∀ c ∈ t.classes, c.children = []) (hlink : t.linkAll = (u, [])) :
    t.Hierarchy u := by
  obtain ⟨hlinked, -, -, hlen, hclass⟩ := linkAll_linked h.registered hlink
  have hclasses := linkAll_classes hlink
  have hparent : ∀ i j, u.IsParent i j ↔ t.Extends i j := by
    intro i j
    rw [← h.isParent_linkParents, IsParent, IsParent, class?, class?, hclasses, List.getElem?_map]
    cases t.linkParents.1.classes[i]? <;> simp
  have hrel : u.IsParent = t.Extends := funext fun i => funext fun j => propext (hparent i j)
  have hnoerror : t.linkParents.2 = [] := by
    have hperm := linkAll_errors t
    rw [hlink] at hperm
    exact (List.append_eq_nil_iff.1 hperm.nil_eq.symm).1
  refine ⟨?_, ?_, ?_, ?_, ?_, ?_, ?_, ?_⟩
  · refine List.ext_getElem (by simpa using hlen) fun i hi hi' => ?_
    obtain ⟨d, hd, hdecl, _⟩ := hclass i _ (List.getElem?_eq_getElem (by simpa using hi))
    obtain ⟨_, rfl⟩ := List.getElem?_eq_some_iff.1 hd
    simpa using hdecl
  · intro i hi
    exact (hlinked.ancestry (hlen ▸ hi)).head?
  · intro i hi
    exact hrel ▸ (hlinked.ancestry (hlen ▸ hi)).isChain
  · intro i hi r hr
    obtain ⟨r', hr', hroot⟩ := (hlinked.ancestry (hlen ▸ hi)).getLast?
    obtain rfl : r' = r := Option.some.inj (hr'.symm.trans hr)
    have hlt : r' < t.classes.length := hlen ▸ hlinked.lt_of_mem_chain (hlen ▸ hi)
      (List.mem_of_getLast? hr')
    obtain ⟨c, hc⟩ := class?_isSome hlt
    refine ⟨c, hc, ?_⟩
    by_contra hsome
    obtain ⟨name, hname⟩ := Option.ne_none_iff_exists'.1 hsome
    have herrors := h.linkParents_errors.symm.trans hnoerror
    have hnone := List.filterMap_eq_nil_iff.1 herrors c (List.mem_of_getElem? hc)
    obtain ⟨p, hp, hpname, hplain⟩ := h.parentError?_eq_none_iff.1 hnone name hname
    have hstep : u.IsParent r' p.id := (hparent r' p.id).2
      ⟨c, p, name, hc, hname, h.registered.class?_id hp, hpname, hplain⟩
    rw [IsParent, hroot] at hstep
    cases hstep
  · exact fun i hi => (hlinked.ancestry (hlen ▸ hi)).nodup
  · exact hlen ▸ hlinked.order_perm
  · refine hlinked.order_ancestors.imp_of_mem fun {i j} hi _ hnot hup => hnot ?_
    have hlt : i < u.classes.length := List.mem_range.1 (hlinked.order_perm.mem_iff.1 hi)
    exact List.mem_of_mem_tail ((hlinked.ancestry hlt).mem_tail (hrel ▸ hup))
  · intro c hc
    rw [hclasses] at hc
    obtain ⟨d, hd, rfl⟩ := List.mem_map.1 hc
    have hids := h.registered.ids_linkParents
    simp only [children_linkParents hchildren d hd, List.nil_append]
    refine ⟨?_, fun j => ?_⟩
    · refine List.Pairwise.sublist (List.filter_sublist.map _) ?_
      rw [hids]
      exact List.pairwise_lt_range
    · rw [← h.isParent_linkParents, mem_childrenOf (hids.trans (by simp [linkParents_classes]))]

/-- Linking after any registrations, some of which may have been refused. -/
theorem linking_exact (calls : List Decl) :
    let t := ({} : Table).registerAll calls
    (∃ kept, kept.Sublist calls ∧ Check.Registers t kept) ∧
    (t.linkAll.2 = [] ↔
      (∀ c ∈ t.classes, ∀ name, c.decl.parent = some name →
        ∃ p ∈ t.classes, p.name = name.text ∧ p.isGeneric = false) ∧
      ∀ i, ¬ Relation.TransGen t.Extends i i) ∧
    (t.linkAll.2 = [] → t.Hierarchy t.linkAll.1) ∧
    ∃ circuits : List (List Nat), circuits.Nodup ∧ (∀ l, l ∈ circuits ↔ Circuit t.Extends l) ∧
      t.linkAll.2.Perm (t.classes.filterMap t.parentError? ++ circuits.map t.circuitError) := by
  intro t
  obtain ⟨kept, hsub, hkept⟩ := exists_registers Check.Registers.nil calls
  have hreg : Check.Registers t kept := by simpa using hkept
  have hclosed := hreg.registered.closed_linkParents
  have hrel : t.linkParents.1.IsParent = t.Extends :=
    funext fun i => funext fun j => propext hreg.isParent_linkParents
  have hids : t.linkParents.1.classes.map (·.id) = List.range t.classes.length :=
    hreg.registered.ids_linkParents
  have hlen : t.linkParents.1.classes.length = t.classes.length := by simp [linkParents_classes]
  have herrors := linkAll_errors t
  rw [hreg.linkParents_errors, hids] at herrors
  obtain ⟨circuits, hnodup, hcircuits, heq⟩ := cycleErrors_circuits hclosed
    (List.range t.classes.length) fun i hi => List.mem_range.2 (hlen ▸ hi)
  rw [hrel] at hcircuits
  have hperm : t.linkAll.2.Perm
      (t.classes.filterMap t.parentError? ++ circuits.map t.circuitError) := by
    rw [heq, List.map_congr_left fun l _ => circuitError_linkParents t l] at herrors
    exact herrors
  refine ⟨⟨kept, hsub, hreg⟩, ?_, fun hnil => ?_, circuits, hnodup, hcircuits, hperm⟩
  · have hnil : t.linkAll.2 = [] ↔ t.classes.filterMap t.parentError? = [] ∧ circuits = [] := by
      rw [← List.map_eq_nil_iff (f := t.circuitError), ← List.append_eq_nil_iff]
      exact ⟨fun h => (h ▸ hperm).nil_eq.symm, fun h => (h ▸ hperm).eq_nil⟩
    rw [hnil]
    refine and_congr ?_ ⟨fun hnone i hi => ?_, fun hacyclic => ?_⟩
    · rw [List.filterMap_eq_nil_iff]
      exact forall₂_congr fun c _ => hreg.parentError?_eq_none_iff
    · -- the walk from any class ends at a root, since no error of a cycle was found
      rw [← hrel] at hi
      obtain ⟨p, hp, _⟩ := Relation.TransGen.head'_iff.1 hi
      obtain ⟨c, hc, _⟩ := Option.bind_eq_some_iff.1 hp
      have hlt := class?_eq_some_lt hc
      obtain ⟨path, hwalk⟩ := walkParents_of_cycleErrors (by rw [heq, hnone]; rfl)
        (List.mem_range.2 (hlen ▸ hlt))
      exact (walkParents_ok hclosed hlt hwalk).not_transGen hi
    · refine List.eq_nil_iff_forall_not_mem.2 fun l hl => ?_
      have hround := ((hcircuits l).1 hl).toRound
      obtain ⟨a, ha⟩ := List.exists_mem_of_ne_nil l hround.nonempty
      exact hacyclic a (hround.transGen ha)
  · refine hierarchy_of_linkAll hreg (children_registerAll (by simp) calls) ?_
    rw [← hnil]

end Table

end ClassLang
