import Mathlib
import ClassLang.Layout
import ClassLang.Machine.Action
import ClassLang.Proofs.Check.Unit
import ClassLang.Proofs.Table.Link

/-!
What the layouts of a linked table look like. Classes are laid out ancestors
first, so when a class is reached the layout of its parent is there; every class
has one layout, with all its fields at the places of their numbers.
-/

namespace ClassLang.Layouts

deriving instance DecidableEq for FieldSlot, DispatchEntry, ClassLayout

variable {t : Table} {slots : List String} {c : ClassInfo} {l : ClassLayout}

/-! Slots -/

theorem slot?_eq_some_iff {ls : Layouts} {name : String} {s : Nat} (hnodup : ls.slots.Nodup) :
    ls.slot? name = some s ↔ ls.slots[s]? = some name := by
  unfold slot?
  rw [List.idxOf?_eq_some_iff]
  constructor
  · rintro ⟨hs, heq, _⟩
    rw [List.getElem?_eq_getElem hs, heq]
  · intro hget
    obtain ⟨hs, heq⟩ := List.getElem?_eq_some_iff.1 hget
    refine ⟨hs, heq, fun j hj hj' => ?_⟩
    have hlt : j < ls.slots.length := by omega
    have hsame : ls.slots[j] = ls.slots[s] := by rw [hj', heq]
    have hinj := (List.Nodup.getElem_inj_iff hnodup).1 hsame
    omega

theorem nodup_eraseDups (l : List String) : l.eraseDups.Nodup := by
  induction hn : l.length using Nat.strongRecOn generalizing l with
  | ind n ih =>
      cases l with
      | nil => simp
      | cons a rest =>
          have hlen := List.length_filter_le (fun b => !b == a) rest
          rw [List.eraseDups_cons, List.nodup_cons]
          refine ⟨fun hmem => ?_, ih _ (by simp at hn; omega) _ rfl⟩
          simp [List.mem_eraseDups] at hmem

theorem slots_nodup (t : Table) : (build t).slots.Nodup := nodup_eraseDups _

/-- The names of the methods of classes, as the slots list them. -/
def ownNames (t : Table) : List String :=
  ((t.order.filterMap t.class?).flatMap (·.methods)).map (·.name)

theorem mem_ownNames (ht : t.Linked) {i : Nat} (hi : i < t.classes.length) {name : String}
    {m : Method} (h : t.lookupMethod i name = some m) : name ∈ ownNames t := by
  obtain ⟨c, hc, hm⟩ := List.exists_of_findSome?_eq_some h
  obtain ⟨j, hj, hclass⟩ := List.mem_filterMap.1 hc
  obtain ⟨hmem, hname⟩ := Table.method?_mem hm
  have horder : j ∈ t.order :=
    ht.order_perm.mem_iff.2 (List.mem_range.2 (ht.lt_of_mem_chain hi hj))
  refine List.mem_map.2 ⟨m, ?_, hname⟩
  exact List.mem_flatMap.2 ⟨c, List.mem_filterMap.2 ⟨j, horder, hclass⟩, hmem⟩

/-- The methods of classes come first among the slots. -/
theorem slots_eq_append (t : Table) : ∃ asked,
    (build t).slots = (ownNames t).eraseDups ++ asked := by
  let asked := (t.bounds.flatMap (·.methods)).map (·.name)
  have hslots : (build t).slots = (ownNames t ++ asked).eraseDups := by
    simp [build, methodNames, ownNames, asked]
  exact ⟨_, hslots.trans List.eraseDups_append⟩

/-- Every method that a class can be asked for has a slot. -/
theorem mem_slots_of_lookupMethod (ht : t.Linked) {i : Nat} (hi : i < t.classes.length)
    {name : String} {m : Method} (h : t.lookupMethod i name = some m) :
    name ∈ (build t).slots := by
  obtain ⟨asked, hslots⟩ := slots_eq_append t
  rw [hslots]
  exact List.mem_append_left _ (List.mem_eraseDups.2 (mem_ownNames ht hi h))

/-- There are no more slots of methods of classes than names of such methods. -/
theorem slot_lt_of_lookupMethod (ht : t.Linked) {names : List String}
    (hnames : ∀ c ∈ t.classes, ∀ m ∈ c.methods, m.name ∈ names) {i : Nat}
    (hi : i < t.classes.length) {name : String} {m : Method}
    (h : t.lookupMethod i name = some m) {s : Nat} (hs : (build t).slot? name = some s) :
    s < names.length := by
  have hsub : (ownNames t).eraseDups ⊆ names := by
    intro n hn
    obtain ⟨m', hm', rfl⟩ := List.mem_map.1 (List.mem_eraseDups.1 hn)
    obtain ⟨c, hc, hm'⟩ := List.mem_flatMap.1 hm'
    obtain ⟨j, _, hj⟩ := List.mem_filterMap.1 hc
    exact hnames c (List.mem_of_getElem? hj) m' hm'
  refine Nat.lt_of_lt_of_le ?_ ((nodup_eraseDups _).subperm hsub).length_le
  obtain ⟨asked, hslots⟩ := slots_eq_append t
  have hslot := (slot?_eq_some_iff (slots_nodup t)).1 hs
  have hmem := List.mem_eraseDups.2 (mem_ownNames ht hi h)
  obtain ⟨k, hk, hname⟩ := List.getElem_of_mem hmem
  have hfirst : (build t).slots[k]? = some name := by
    rw [hslots, List.getElem?_append_left hk, List.getElem?_eq_getElem hk, hname]
  obtain ⟨hs', heq⟩ := List.getElem?_eq_some_iff.1 hslot
  obtain ⟨hk', heq'⟩ := List.getElem?_eq_some_iff.1 hfirst
  have hsk : s = k := (List.Nodup.getElem_inj_iff (slots_nodup t)).1 (heq.trans heq'.symm)
  exact hsk ▸ hk

theorem mem_slots_of_bound {b : BoundInfo} (hb : b ∈ t.bounds) {m : Method}
    (hm : m ∈ b.methods) : m.name ∈ (build t).slots :=
  List.mem_eraseDups.2 (List.mem_map.2 ⟨m, List.mem_append_right _
    (List.mem_flatMap.2 ⟨b, hb, hm⟩), rfl⟩)

/-! Classes -/

/-- `l` is the layout of the class `c`. -/
structure IsLayout (t : Table) (slots : List String) (c : ClassInfo) (l : ClassLayout) : Prop where
  id : l.id = c.id
  name : l.name = c.name
  fields : l.fields = (t.flatFields c.id).mapIdx fun i f => ⟨f, i⟩
  dispatch : l.dispatch = dispatchTable t slots c

theorem classLayout_isLayout (ht : t.Linked) {built : List ClassLayout}
    (hc : t.class? c.id = some c)
    (hbuilt : ∀ p, c.parent = some p → ∃ d l, built.find? (·.id = p) = some l ∧
      d.id = p ∧ IsLayout t slots d l) :
    IsLayout t slots c (classLayout t slots built c) := by
  refine ⟨rfl, rfl, ?_, rfl⟩
  cases hp : c.parent with
  | none =>
      rw [Table.flatFields_of_root ht hc hp]
      simp [classLayout, hp]
  | some p =>
      obtain ⟨d, l, hl, rfl, hok⟩ := hbuilt p hp
      rw [Table.flatFields_of_parent ht hc hp, List.mapIdx_append]
      simp [classLayout, hp, hl, hok.fields, Nat.add_comm]

/-- Laying out the classes `rest` behind those that have been laid out. -/
theorem foldl_classLayout (ht : t.Linked) (done : List Nat) {rest : List Nat}
    {built : List ClassLayout}
    (horder : t.order = done ++ rest)
    (hids : built.map (·.id) = done)
    (hbuilt : ∀ l ∈ built, ∃ c ∈ t.classes, IsLayout t slots c l) :
    let all := (rest.filterMap t.class?).foldl
      (fun built c => built ++ [classLayout t slots built c]) built
    all.map (·.id) = t.order ∧ ∀ l ∈ all, ∃ c ∈ t.classes, IsLayout t slots c l := by
  induction rest generalizing done built with
  | nil => exact ⟨by simp [hids, horder], hbuilt⟩
  | cons i rest ih =>
      have hmem : i ∈ t.order := by simp [horder]
      have hi : i < t.classes.length := List.mem_range.1 (ht.order_perm.mem_iff.1 hmem)
      obtain ⟨c, hc⟩ := Table.class?_isSome hi
      obtain rfl : c.id = i := ht.id_eq hc
      rw [List.filterMap_cons_some hc, List.foldl_cons]
      -- The parent is an ancestor, so it cannot come later in the order.
      have hlater : ∀ b ∈ rest, b ∉ t.chain c.id := by
        have hsorted := ht.order_ancestors
        rw [horder, List.pairwise_append, List.pairwise_cons] at hsorted
        exact hsorted.2.1.1
      have hparent : ∀ p, c.parent = some p → p ∈ done := by
        intro p hp
        have hchain := ht.chain_of_parent (i := c.id) (p := p) (by simp [hc, hp])
        have hp' := ht.closed c.id p (by simp [hc, hp])
        have hself := ht.mem_chain_self hp'
        have horder' : p ∈ t.order := ht.order_perm.mem_iff.2 (List.mem_range.2 hp')
        rw [horder, List.mem_append, List.mem_cons] at horder'
        rcases horder' with hdone | rfl | hrest
        · exact hdone
        · have hnodup := (ht.ancestry hi).nodup
          rw [hchain] at hnodup
          exact absurd hself (List.nodup_cons.1 hnodup).1
        · exact absurd (hchain ▸ List.mem_cons_of_mem _ hself) (hlater p hrest)
      have hlayout : IsLayout t slots c (classLayout t slots built c) := by
        refine classLayout_isLayout ht hc fun p hp => ?_
        have hp' := hparent p hp
        rw [← hids] at hp'
        obtain ⟨l, hl, rfl⟩ := List.mem_map.1 hp'
        obtain ⟨l', hl'⟩ := Option.isSome_iff_exists.1
          (List.find?_isSome.2 ⟨l, hl, by simp⟩ : (built.find? (·.id = l.id)).isSome = true)
        obtain ⟨d, _, hok⟩ := hbuilt l' (List.mem_of_find?_eq_some hl')
        have hid : l'.id = l.id := by simpa using List.find?_some hl'
        exact ⟨d, l', hl', by rw [← hok.id, hid], hok⟩
      refine ih (done ++ [c.id]) (by simp [horder]) ?_ ?_
      · simp [hids, classLayout]
      · intro l hl
        rcases List.mem_append.1 hl with hl | hl
        · exact hbuilt l hl
        · obtain rfl := List.mem_singleton.1 hl
          exact ⟨c, List.mem_of_getElem? hc, hlayout⟩

theorem build_classes (ht : t.Linked) : (build t).classes.map (·.id) = t.order ∧
    ∀ l ∈ (build t).classes, ∃ c ∈ t.classes, IsLayout t (build t).slots c l :=
  foldl_classLayout ht [] rfl rfl (by simp)

/-- A class is found under its name, with its layout. -/
theorem named?_build (ht : t.Linked) (hc : c ∈ t.classes) :
    ∃ l, (build t).named? c.name = some l ∧ IsLayout t (build t).slots c l := by
  obtain ⟨hids, hall⟩ := build_classes ht
  have hmem : c.id ∈ (build t).classes.map (·.id) := by
    rw [hids]
    exact ht.order_perm.mem_iff.2 (List.mem_range.2 (Table.class?_eq_some_lt (ht.class?_id hc)))
  obtain ⟨l, hl, hid⟩ := List.mem_map.1 hmem
  obtain ⟨d, hd, hok⟩ := hall l hl
  have hsame : d = c := by
    have hd' := ht.class?_id hd
    rw [← hok.id, hid, ht.class?_id hc] at hd'
    exact (Option.some.inj hd').symm
  subst hsame
  obtain ⟨l', hl'⟩ := Option.isSome_iff_exists.1 (List.find?_isSome.2 ⟨l, hl, by simp [hok.name]⟩ :
    ((build t).classes.find? (·.name = d.name)).isSome = true)
  obtain ⟨d', hd', hok'⟩ := hall l' (List.mem_of_find?_eq_some hl')
  have hname : l'.name = d.name := by simpa using List.find?_some hl'
  have hsame : d' = d := List.inj_on_of_nodup_map ht.names hd' hd (by rw [← hok'.name, hname])
  subst hsame
  exact ⟨l', hl', hok'⟩

end ClassLang.Layouts

/-!
Where fields lie. The fields of a class come first among those of its descendants,
so a field has one place in all objects that have it: the one that is found by name
in any layout, that initializers count off, and that the machine works out from the
offset of an access.
-/

namespace ClassLang

namespace Table

variable {t : Table} {i j : Nat}

/-- A descendant starts with the fields of its ancestors. -/
theorem flatFields_prefix (h : t.Linked) (hi : i < t.classes.length)
    (hj : t.isAncestor j i = true) : t.flatFields j <+: t.flatFields i := by
  refine h.descend (motive := fun k => t.flatFields j <+: t.flatFields k) hi
    (isAncestor_iff.1 hj) (List.prefix_refl _) fun k c p hk hp _ ih => ?_
  rw [flatFields_of_parent h hk hp]
  exact ih.trans (List.prefix_append _ _)

end Table

/-! Offsets -/

namespace FieldSlot

theorem offset_eq (s : FieldSlot) : s.offset = 16 + 8 * s.index := by
  simp only [offset, fieldOffset, headerSize, wordSize]
  omega

end FieldSlot

namespace ClassLayout

theorem size_eq (l : ClassLayout) : l.size = 16 + 8 * l.fields.length := by
  simp only [size, objectSize, fieldOffset, headerSize, wordSize]
  omega

end ClassLayout

/-- The machine counts words from the header, and so finds the number of a field
again in its offset. -/
theorem Machine.fieldIndex_offset {s : FieldSlot} (h : s.offset < 2 ^ 63) :
    fieldIndex (Int64.ofInt s.offset) = s.index := by
  have hlow := s.offset_eq
  have hint : (Int64.ofInt s.offset).toInt = s.offset :=
    Int64.toInt_ofInt_of_le (by omega) h
  have hwords : s.offset - (headerSize : Int) = (wordSize : Int) * s.index := by
    simp only [hlow, headerSize, wordSize]
    omega
  rw [fieldIndex, hint, hwords, Int.mul_tdiv_cancel_left _ (by decide)]

namespace Layouts

variable {t : Table} {slots : List String} {c d : ClassInfo} {l k : ClassLayout}

namespace IsLayout

theorem getElem?_fields (hl : IsLayout t slots c l) (i : Nat) :
    l.fields[i]? = ((t.flatFields c.id)[i]?).map fun f => ⟨f, i⟩ := by
  rw [hl.fields]
  simp

theorem map_field (hl : IsLayout t slots c l) :
    l.fields.map (·.field) = t.flatFields c.id := by
  refine List.ext_getElem? fun i => ?_
  rw [List.getElem?_map, hl.getElem?_fields]
  cases (t.flatFields c.id)[i]? <;> rfl

theorem fields_prefix (ht : t.Linked) (hd : d ∈ t.classes) (hdesc : t.isAncestor c.id d.id = true)
    (hl : IsLayout t slots c l) (hk : IsLayout t slots d k) : l.fields <+: k.fields := by
  obtain ⟨more, hmore⟩ := Table.flatFields_prefix ht
    (Table.class?_eq_some_lt (ht.class?_id hd)) hdesc
  rw [hl.fields, hk.fields, ← hmore, List.mapIdx_append]
  exact List.prefix_append _ _

/-- The field at place `i` is the one that its name leads to. -/
theorem field?_eq (hl : IsLayout t slots c l) (hnodup : ((t.flatFields c.id).map (·.name)).Nodup)
    {s : FieldSlot} (hs : s ∈ l.fields) : l.field? s.field.name = some s := by
  have hnames : (l.fields.map (·.field.name)).Nodup := by
    rw [← hl.map_field, List.map_map] at hnodup
    exact hnodup
  cases hfind : l.field? s.field.name with
  | none =>
      have := List.find?_eq_none.1 hfind s hs
      simp at this
  | some s' =>
      have hmem := List.mem_of_find?_eq_some hfind
      have hname : s'.field.name = s.field.name := by simpa using List.find?_some hfind
      rw [List.inj_on_of_nodup_map hnames hmem hs hname]

/-- A layout and the table agree on what a name stands for. -/
theorem field?_map_field (hwell : t.WellTyped) (hc : c ∈ t.classes) (hl : IsLayout t slots c l)
    (name : String) : (l.field? name).map (·.field) = t.lookupField c.id name := by
  have hi := Table.class?_eq_some_lt (hwell.linked.class?_id hc)
  cases hfind : l.field? name with
  | some s =>
      have hmem : s.field ∈ t.flatFields c.id := by
        rw [← hl.map_field]
        exact List.mem_map_of_mem (List.mem_of_find?_eq_some hfind)
      have hname : s.field.name = name := by simpa using List.find?_some hfind
      rw [Option.map_some, ← hname, hwell.lookupField_eq hi hmem]
  | none =>
      cases hlookup : t.lookupField c.id name with
      | none => rfl
      | some f =>
          obtain ⟨hmem, hname⟩ := Table.lookupField_mem hlookup
          rw [← hl.map_field] at hmem
          obtain ⟨s, hs, rfl⟩ := List.mem_map.1 hmem
          have := List.find?_eq_none.1 hfind s hs
          simp [hname] at this

/-- A field that a class has lies at the place of its number, in the objects of the
class and of all its descendants. -/
theorem exists_place (hwell : t.WellTyped) (hc : c ∈ t.classes) (hd : d ∈ t.classes)
    (hdesc : t.isAncestor c.id d.id = true) (hl : IsLayout t slots c l)
    (hk : IsLayout t slots d k) {name : String} {f : Field}
    (hf : t.lookupField c.id name = some f) : ∃ s : FieldSlot, s.field = f ∧
      l.field? name = some s ∧ k.field? name = some s ∧ k.fields[s.index]? = some s := by
  have hfound := hl.field?_map_field hwell hc name
  rw [hf] at hfound
  obtain ⟨s, hs, rfl⟩ := Option.map_eq_some_iff.1 hfound
  have hname : s.field.name = name := by simpa using List.find?_some hs
  have hmem : s ∈ k.fields :=
    (hl.fields_prefix hwell.linked hd hdesc hk).subset (List.mem_of_find?_eq_some hs)
  have hnodup := hwell.flatFields_nodup (Table.class?_eq_some_lt (hwell.linked.class?_id hd))
  refine ⟨s, rfl, hs, hname ▸ hk.field?_eq hnodup hmem, ?_⟩
  obtain ⟨i, hi⟩ := List.mem_iff_getElem?.1 hmem
  have hplace := hi
  rw [hk.getElem?_fields] at hplace
  obtain ⟨g, _, rfl⟩ := Option.map_eq_some_iff.1 hplace
  exact hi

end IsLayout

end Layouts

/-- Layouts are prefixes: a descendant starts with the fields of its ancestors, every
layout lists the fields of its class and finds them by the names that the table knows
them by, and a field has one offset in all classes that have it. That offset is the
header and one word for each field before, lies inside the object, and leads the
machine back to the number of the field, as long as the size of the object is a
machine word. -/
theorem layouts_are_prefixes {f : File} {limit : Option Nat} {typed : Typed.File}
    (h : f.check limit = .ok typed) (hlimit : limit ≠ some 0) :
    let t := typed.table
    let ls := Layouts.build t
    ∀ c ∈ t.classes, ∃ l, ls.named? c.name = some l ∧
      l.fields.map (·.field) = t.flatFields c.id ∧
      (l.fields.map (·.field.name)).Nodup ∧
      (∀ name, (l.field? name).map (·.field) = t.lookupField c.id name) ∧
      ∀ d ∈ t.classes, t.isAncestor c.id d.id = true → ∃ k, ls.named? d.name = some k ∧
        l.fields <+: k.fields ∧
        ∀ name v, t.lookupField c.id name = some v → ∃ s : FieldSlot, s.field = v ∧
          l.field? name = some s ∧ k.field? name = some s ∧ k.fields[s.index]? = some s ∧
          s.offset = headerSize + 8 * s.index ∧ 16 ≤ s.offset ∧ s.offset + 8 ≤ k.size ∧
          (k.size < 2 ^ 63 → Machine.fieldIndex (Int64.ofInt s.offset) = s.index) ∧
          s.index < k.fields.length := by
  intro t ls c hc
  have hwell : t.WellTyped := File.check_wellTyped h hlimit
  obtain ⟨l, hnamed, hl⟩ := Layouts.named?_build hwell.linked hc
  have hnodup := hwell.flatFields_nodup (Table.class?_eq_some_lt (hwell.linked.class?_id hc))
  refine ⟨l, hnamed, hl.map_field, ?_, hl.field?_map_field hwell hc, fun d hd hdesc => ?_⟩
  · rw [← hl.map_field, List.map_map] at hnodup
    exact hnodup
  · obtain ⟨k, hnamed', hk⟩ := Layouts.named?_build hwell.linked hd
    refine ⟨k, hnamed', hl.fields_prefix hwell.linked hd hdesc hk, fun name v hv => ?_⟩
    obtain ⟨s, hfield, hs, hs', hplace⟩ := hl.exists_place hwell hc hd hdesc hk hv
    have hlt : s.index < k.fields.length := (List.getElem?_eq_some_iff.1 hplace).1
    have hoffset := s.offset_eq
    have hsize := k.size_eq
    refine ⟨s, hfield, hs, hs', hplace, hoffset, by omega, by omega, fun hword => ?_, hlt⟩
    exact Machine.fieldIndex_offset (by omega)

/-- A unit with a class `B` that adds the field `y` to the field `x` of its parent `A`. -/
def extendingUnit : File :=
  let id (s : String) : Ident := ⟨default, s⟩
  let field (s : String) : FieldDecl := ⟨id s, .name (id "int")⟩
  ⟨"unit", default, [.cls ⟨default, id "A", [], none, [field "x"], []⟩,
    .cls ⟨default, id "B", [], some (id "A"), [field "y"], []⟩]⟩

theorem extendingUnit_layouts : ∃ typed, extendingUnit.check none = .ok typed ∧
    typed.table.classes.map (·.name) = ["A", "B"] ∧ typed.table.isAncestor 0 1 = true ∧
    ((Layouts.build typed.table).named? "B").map (·.size) = some 32 ∧
    ∀ c ∈ typed.table.classes, ∀ d ∈ typed.table.classes,
      typed.table.isAncestor c.id d.id = true → ∀ name v,
        typed.table.lookupField c.id name = some v →
          ∃ k s, (Layouts.build typed.table).named? d.name = some k ∧
            k.field? name = some s ∧ s.field = v ∧ s.offset + 8 ≤ k.size := by
  have hcheck : (extendingUnit.check none).toOption.map (fun typed =>
      (typed.table.classes.map (·.name), typed.table.isAncestor 0 1,
        ((Layouts.build typed.table).named? "B").map (·.size))) =
      some (["A", "B"], true, some 32) := by
    decide +kernel
  obtain ⟨typed, hok, hvalues⟩ := File.exists_checked hcheck
  simp only [Prod.mk.injEq] at hvalues
  obtain ⟨hnames, hancestor, hsize⟩ := hvalues
  refine ⟨typed, hok, hnames, hancestor, hsize, fun c hc d hd hdesc name v hv => ?_⟩
  obtain ⟨l, _, _, _, _, hall⟩ := layouts_are_prefixes hok (by simp) c hc
  obtain ⟨k, hk, _, hplaces⟩ := hall d hd hdesc
  obtain ⟨s, hfield, _, hs, _, _, _, hend, _⟩ := hplaces name v hv
  exact ⟨k, s, hk, hs, hfield, hend⟩

end ClassLang
