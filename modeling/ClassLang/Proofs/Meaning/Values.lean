import Mathlib.Logic.Function.Basic
import ClassLang.Machine.Value
import ClassLang.Proofs.Formed.Type
import ClassLang.Proofs.Layout

/-!
When a value has a type, and when a heap is well typed. A type of a value has no type parameters
left. Each object has a type of its own from the moment it is allocated, a class with arguments;
its fields get their values one after the other, and when all have one it is made whole. Whatever
happens later the types stay, fields that have a value keep one, and what is whole stays whole.
-/

namespace ClassLang

deriving instance DecidableEq for Machine.Value

namespace Table

variable {t : Table} {ps qs : List TypeParam} {as : List Ty} {a b c : Ty}

/-! Type arguments -/

/-- What type parameters stand for in a run: types without parameters, each one admitted. -/
structure Ground (t : Table) (ps : List TypeParam) (as : List Ty) : Prop where
  length : as.length = ps.length
  closed : Ty.ScopedAll t.arity [] as
  admits : ∀ e ∈ ps.zip as, t.Admits e.1 e.2

theorem Ground.nil (t : Table) : t.Ground [] [] := ⟨rfl, trivial, by simp⟩

theorem Ground.isReference (h : t.Ground ps as) : ∀ a ∈ as, a.isReference = true := by
  intro a ha
  obtain ⟨p, hp⟩ := Ty.exists_mem_zip h.length ha
  exact (h.admits _ hp).1

/-- What a parameter stands for. -/
theorem Ground.param (h : t.Ground ps as) {p : TypeParam} (hp : p ∈ ps) :
    t.Admits p ((Ty.param p).subst ps as) := by
  obtain ⟨a, _, heq, hmem⟩ := Ty.substParam_mem hp h.length
  rw [Ty.subst, heq]
  exact h.admits _ hmem

/-- A type that is known satisfies the same bounds after type parameters have been filled
in. -/
theorem WellTyped.satisfies_of_scoped (h : t.WellTyped) {k : BoundInfo} (hk : k ∈ t.bounds)
    (hty : a.Scoped t.arity qs) (hg : t.Ground ps as) (hsat : t.missingMethod? a k = none) :
    t.missingMethod? (a.subst ps as) k = none := by
  cases a with
  | param p =>
      rcases Ty.substParam_cases ps as p with heq | hmem
      · simpa [Ty.subst, heq] using hsat
      · exact (hg.admits _ hmem).satisfies hsat
  | inst name args =>
      simp only [Ty.Scoped] at hty
      refine h.satisfies_inst hk (fun c hc => ?_) (fun a ha => ?_) (fun a ha => ?_) hsat
      · simpa [arity, hc] using hty.1.symm
      · exact (Ty.scopedAll_iff.1 hty.2.2 a ha).isMissing
      · exact Ty.isMissing_of_isReference (hg.isReference a ha)
  | _ => exact hsat

end Table

/-- The arguments of an instance, after what is known in a body has been filled in. -/
theorem Typed.Context.Instance.ground {Γ : Typed.Context} {ps : List TypeParam} {targs as : List Ty}
    (h : Γ.Instance ps targs) (ht : Γ.table.WellTyped) (hg : Γ.table.Ground Γ.tparams as) :
    Γ.table.Ground ps (Ty.substAll Γ.tparams as targs) where
  length := by rw [Ty.length_substAll, h.length]
  closed := Ty.ScopedAll.substAll hg.length hg.closed h.known
  admits e he := by
    rw [Ty.substAll_eq_map, List.zip_map_right] at he
    obtain ⟨⟨p, a⟩, hmem, rfl⟩ := List.mem_map.1 he
    obtain ⟨href, hsat⟩ := h.admits _ hmem
    refine ⟨Ty.isReference_subst href hg.isReference, fun b hb => ?_⟩
    obtain ⟨name, _, hname⟩ := Option.bind_eq_some_iff.1 hb
    exact ht.satisfies_of_scoped (List.mem_of_find?_eq_some hname)
      (Ty.scopedAll_iff.1 h.known a (List.of_mem_zip hmem).2) hg (hsat b hb)

namespace Table

variable {t : Table} {ps : List TypeParam} {as : List Ty} {a b c : Ty}

/-! Subtypes -/

theorem Fits.refl (t : Table) (a : Ty) : t.Fits a a := .inl rfl

theorem isAncestor_trans (h : t.Linked) {i j k : Nat} (hi : i < t.classes.length)
    (hij : t.isAncestor j i = true) (hjk : t.isAncestor k j = true) : t.isAncestor k i = true := by
  refine h.descend (motive := fun x => t.isAncestor k x = true) hi (isAncestor_iff.1 hij) hjk
    fun x c p hx hp _ ih => ?_
  rw [isAncestor_iff] at ih ⊢
  rw [h.chain_of_parent (i := x) (p := p) (by simp [hx, hp])]
  exact List.mem_cons_of_mem _ ih

theorem isAncestorName_iff {target name : String} : Check.isAncestorName t target name = true ↔
    ∃ a c, t.classNamed? target = some a ∧ t.classNamed? name = some c ∧
      t.isAncestor a.id c.id = true := by
  unfold Check.isAncestorName
  split
  next a c ha hc => simp [ha, hc]
  next hnone =>
    refine ⟨fun h => absurd h (by simp), ?_⟩
    rintro ⟨a, c, ha, hc, _⟩
    exact absurd hc (hnone a c ha)

theorem Fits.trans (ht : t.Linked) (hab : t.Fits a b) (hbc : t.Fits b c) : t.Fits a c := by
  obtain rfl | ⟨n, ca, rfl, hca, han⟩ := hab
  · exact hbc
  · obtain rfl | ⟨m, cb, rfl, hcb, ham⟩ := hbc
    · exact .inr ⟨n, ca, rfl, hca, han⟩
    · obtain rfl : n = cb := Option.some.inj hcb
      obtain ⟨x, y, hx, hy, hxy⟩ := isAncestorName_iff.1 han
      obtain ⟨z, x', hz, hx', hzx⟩ := isAncestorName_iff.1 ham
      obtain rfl : x = x' := Option.some.inj (hx.symm.trans hx')
      have hlt := class?_eq_some_lt (ht.class?_id (List.mem_of_find?_eq_some hy))
      have hzy := isAncestor_trans ht hlt hxy hzx
      exact .inr ⟨m, ca, rfl, hca, isAncestorName_iff.2 ⟨z, y, hz, hy, hzy⟩⟩

/-- Only class types have subtypes besides themselves. -/
theorem Fits.subst (h : t.Fits a b) (ps : List TypeParam) (as : List Ty) :
    t.Fits (a.subst ps as) (b.subst ps as) := by
  obtain rfl | ⟨n, ca, rfl, hca, hanc⟩ := h
  · exact .inl rfl
  · refine .inr ⟨n, ca, rfl, ?_, hanc⟩
    cases a <;> simp_all [Ty.className?, Ty.subst]

/-- The classes of a type and of one that it fits. -/
theorem Fits.classes (ht : t.Linked) (h : t.Fits a b) {ca cb : ClassInfo}
    (ha : t.classOf? a = some ca) (hb : t.classOf? b = some cb) :
    t.isAncestor cb.id ca.id = true ∧ (a = b ∨ b = .cls cb.name) := by
  obtain rfl | ⟨n, name, rfl, hname, hanc⟩ := h
  · obtain rfl : ca = cb := Option.some.inj (ha.symm.trans hb)
    have hlt := class?_eq_some_lt (ht.class?_id (classOf?_mem ha))
    exact ⟨isAncestor_iff.2 (ht.mem_chain_self hlt), .inl rfl⟩
  · obtain ⟨x, y, hx, hy, hxy⟩ := isAncestorName_iff.1 hanc
    obtain rfl : x = cb := Option.some.inj (hx.symm.trans hb)
    obtain rfl : y = ca := by
      rw [classOf?, hname, Option.bind_some, hy] at ha
      exact Option.some.inj ha
    refine ⟨hxy, .inr ?_⟩
    have hfound : n = x.name := by simpa [eq_comm] using List.find?_some hx
    rw [hfound]

/-- A type that an object can have. -/
structure Owns (t : Table) (c : ClassInfo) (own : Ty) : Prop where
  cls : t.classOf? own = some c
  closed : own.Scoped t.arity []
  ground : t.Ground c.tparams own.args

end Table

namespace Machine

/-! Marks -/

/-- What is known of an object for good: its type, the names of fields that have values, and
whether it is whole. -/
structure Mark where
  type : Ty
  given : List String
  whole : Bool

/-- What is known of the objects of a heap. -/
def Marks := Nat → Option Mark

variable {t : Table} {σ σ' σ'' : Marks} {x : Value} {ty ty' own : Ty} {ref n : Nat} {m m' : Mark}

/-- The mark `m'` says at least what `m` says. -/
structure Mark.Le (m m' : Mark) : Prop where
  type : m'.type = m.type
  given : ∀ name ∈ m.given, name ∈ m'.given
  whole : m.whole = true → m'.whole = true

namespace Marks

/-- What is known in `σ` is known in `σ'`. -/
def Le (σ σ' : Marks) : Prop := ∀ ref m, σ ref = some m → ∃ m', σ' ref = some m' ∧ m.Le m'

/-- Something else is known of one object. -/
def set (σ : Marks) (ref : Nat) (m : Mark) : Marks := Function.update σ ref (some m)

@[simp] theorem set_self (σ : Marks) (ref : Nat) (m : Mark) : σ.set ref m ref = some m :=
  Function.update_self ..

theorem set_of_ne (σ : Marks) (m : Mark) (h : n ≠ ref) : σ.set ref m n = σ n :=
  Function.update_of_ne h ..

theorem Le.refl (σ : Marks) : σ.Le σ := fun _ m h => ⟨m, h, rfl, fun _ => id, id⟩

theorem Le.trans (h : σ.Le σ') (h' : σ'.Le σ'') : σ.Le σ'' := by
  intro ref m hm
  obtain ⟨m', hm', hle⟩ := h ref m hm
  obtain ⟨m'', hm'', hle'⟩ := h' ref m' hm'
  exact ⟨m'', hm'', hle'.type.trans hle.type, fun name hn => hle'.given name (hle.given name hn),
    fun hw => hle'.whole (hle.whole hw)⟩

theorem le_set_of_none (m : Mark) (h : σ ref = none) : σ.Le (σ.set ref m) := by
  intro r m' hm'
  have hne : r ≠ ref := by
    rintro rfl
    rw [h] at hm'
    cases hm'
  exact ⟨m', by rw [set_of_ne σ m hne, hm'], rfl, fun _ => id, id⟩

theorem le_set (h : σ ref = some m) (hle : m.Le m') : σ.Le (σ.set ref m') := by
  intro r k hk
  by_cases hr : r = ref
  · subst hr
    obtain rfl : m = k := Option.some.inj (h.symm.trans hk)
    exact ⟨m', set_self .., hle⟩
  · exact ⟨k, by rw [set_of_ne σ m' hr, hk], rfl, fun _ => id, id⟩

end Marks

/-- An object that has got one more field. -/
def Mark.give (m : Mark) (name : String) : Mark := { m with given := name :: m.given }

/-- An object that is whole. -/
def Mark.finish (m : Mark) : Mark := { m with whole := true }

theorem Mark.le_give (m : Mark) (name : String) : m.Le (m.give name) :=
  ⟨rfl, fun _ => List.mem_cons_of_mem _, id⟩

theorem Mark.le_finish (m : Mark) : m.Le m.finish := ⟨rfl, fun _ => id, fun _ => rfl⟩

/-! Values -/

/-- A value has a type. Only objects that are whole have one. -/
inductive Value.Has (t : Table) (σ : Marks) : Value → Ty → Prop
  | nil : Has t σ .nil .void
  | int (n : Int64) : Has t σ (.int n) .int
  | float (q : Double) : Has t σ (.float q) .float
  | bool (b : Bool) : Has t σ (.bool b) .bool
  | str (s : String) : Has t σ (.str s) .str
  | obj {ref : Nat} {m : Mark} {c : ClassInfo} {ty : Ty} (known : σ ref = some m)
      (whole : m.whole = true) (owns : t.Owns c m.type) (fits : t.Fits m.type ty)
      (cls : ty.className?.isSome = true) : Has t σ (.obj ref) ty

namespace Value.Has

theorem mono (h : x.Has t σ ty) (hle : σ.Le σ') : x.Has t σ' ty := by
  cases h with
  | obj known whole owns fits cls =>
      obtain ⟨m', hm', hle⟩ := hle _ _ known
      exact .obj hm' (hle.whole whole) (hle.type ▸ owns) (hle.type ▸ fits) cls
  | _ => constructor

theorem fits (h : x.Has t σ ty) (ht : t.Linked) (hfits : t.Fits ty ty') : x.Has t σ ty' := by
  obtain rfl | ⟨n, name, rfl, hname, hanc⟩ := hfits
  · exact h
  · cases h with
    | obj known whole owns fits _ =>
        exact .obj known whole owns (fits.trans ht (.inr ⟨n, name, rfl, hname, hanc⟩)) rfl
    | _ => simp [Ty.className?] at hname

/-- A value of a class is an object of that class or of a descendant. -/
theorem exists_mark (h : x.Has t σ ty) (hcls : ty.className?.isSome = true) :
    ∃ ref m c, x = .obj ref ∧ σ ref = some m ∧ m.whole = true ∧ t.Owns c m.type ∧
      t.Fits m.type ty := by
  cases h with
  | obj known whole owns fits _ => exact ⟨_, _, _, rfl, known, whole, owns, fits⟩
  | _ => simp [Ty.className?] at hcls

theorem exists_int (h : x.Has t σ .int) : ∃ n, x = .int n := by
  cases h with
  | int n => exact ⟨n, rfl⟩
  | obj _ _ _ _ cls => simp [Ty.className?] at cls

theorem exists_float (h : x.Has t σ .float) : ∃ q, x = .float q := by
  cases h with
  | float q => exact ⟨q, rfl⟩
  | obj _ _ _ _ cls => simp [Ty.className?] at cls

theorem exists_bool (h : x.Has t σ .bool) : ∃ b, x = .bool b := by
  cases h with
  | bool b => exact ⟨b, rfl⟩
  | obj _ _ _ _ cls => simp [Ty.className?] at cls

theorem exists_str (h : x.Has t σ .str) : ∃ s, x = .str s := by
  cases h with
  | str s => exact ⟨s, rfl⟩
  | obj _ _ _ _ cls => simp [Ty.className?] at cls

end Value.Has

/-! Objects -/

/-- The object `o` of the class `c` is what is known of it. -/
structure Object.Suits (t : Table) (σ : Marks) (c : ClassInfo) (m : Mark) (o : Object) : Prop where
  owns : t.Owns c m.type
  layout : (Layouts.build t).named? c.name = some o.layout
  size : o.fields.size = (t.flatFields c.id).length
  given : ∀ (i : Nat) (f : Field), (t.flatFields c.id)[i]? = some f → f.name ∈ m.given →
    ∃ y : Value, o.fields[i]? = some y ∧ y.Has t σ (f.ty.subst c.tparams m.type.args)
  dispatch : m.whole = true → o.dispatch = some o.layout
  full : m.whole = true → ∀ f ∈ t.flatFields c.id, f.name ∈ m.given

variable {o o' : Object} {c : ClassInfo}

theorem Object.Suits.mono (h : o.Suits t σ c m) (hle : σ.Le σ') : o.Suits t σ' c m where
  owns := h.owns
  layout := h.layout
  size := h.size
  given i f hf hm := by
    obtain ⟨y, hy, hty⟩ := h.given i f hf hm
    exact ⟨y, hy, hty.mono hle⟩
  dispatch := h.dispatch
  full := h.full

theorem Object.Suits.cls_unique {d : ClassInfo} (h : o.Suits t σ c m)
    (hd : t.classOf? m.type = some d) : d = c :=
  Option.some.inj (hd.symm.trans h.owns.cls)

/-! Heaps -/

/-- What is known of the objects of a heap holds. -/
structure HeapOk (t : Table) (σ : Marks) (heap : Array Object) : Prop where
  objects : ∀ (ref : Nat) (o : Object), heap[ref]? = some o →
    ∃ c m, σ ref = some m ∧ o.Suits t σ c m
  known : ∀ (ref : Nat) (m : Mark), σ ref = some m → ref < heap.size

namespace HeapOk

variable {i : Nat} {heap : Array Object}

/-- The object that is known under a number. -/
theorem exists_object (h : HeapOk t σ heap) (hm : σ ref = some m) :
    ∃ o c, heap[ref]? = some o ∧ o.Suits t σ c m := by
  have hget := Array.getElem?_eq_getElem (h.known ref m hm)
  obtain ⟨c, m', hm', hsuits⟩ := h.objects ref _ hget
  obtain rfl : m = m' := Option.some.inj (hm.symm.trans hm')
  exact ⟨_, c, hget, hsuits⟩

theorem suits (h : HeapOk t σ heap) (hm : σ ref = some m) (ho : heap[ref]? = some o) :
    ∃ c, o.Suits t σ c m := by
  obtain ⟨c, m', hm', hsuits⟩ := h.objects ref o ho
  obtain rfl : m = m' := Option.some.inj (hm.symm.trans hm')
  exact ⟨c, hsuits⟩

theorem fresh (h : HeapOk t σ heap) : σ heap.size = none := by
  cases hsome : σ heap.size with
  | none => rfl
  | some m => exact absurd (h.known _ _ hsome) (Nat.lt_irrefl _)

/-- An object is put behind the others. -/
theorem push (h : HeapOk t σ heap) (ho : o.Suits t (σ.set heap.size m) c m) :
    HeapOk t (σ.set heap.size m) (heap.push o) := by
  refine ⟨fun r p hp => ?_, fun r k hk => ?_⟩
  · rw [Array.getElem?_push] at hp
    split at hp
    next heq =>
      obtain rfl := Option.some.inj hp
      rw [heq]
      exact ⟨c, m, Marks.set_self .., ho⟩
    next hne =>
      obtain ⟨d, k, hk, hsuits⟩ := h.objects r p hp
      exact ⟨d, k, by rw [Marks.set_of_ne σ m hne, hk],
        hsuits.mono (Marks.le_set_of_none m h.fresh)⟩
  · rw [Array.size_push]
    by_cases hr : r = heap.size
    · omega
    · rw [Marks.set_of_ne σ m hr] at hk
      exact Nat.lt_succ_of_lt (h.known r k hk)

/-- An object is changed, and at least as much is known of it as before. -/
theorem change (h : HeapOk t σ heap) (hm : σ ref = some m) (hle : m.Le m') {f : Object → Object}
    (ho : ∀ o c, o.Suits t σ c m → (f o).Suits t (σ.set ref m') c m') :
    HeapOk t (σ.set ref m') (heap.modify ref f) := by
  refine ⟨fun r p hp => ?_, fun r k hk => ?_⟩
  · rw [Array.getElem?_modify] at hp
    split at hp
    next heq =>
      subst heq
      obtain ⟨o, ho', rfl⟩ := Option.map_eq_some_iff.1 hp
      obtain ⟨c, hsuits⟩ := h.suits hm ho'
      exact ⟨c, m', Marks.set_self .., ho o c hsuits⟩
    next hne =>
      obtain ⟨d, k, hk, hsuits⟩ := h.objects r p hp
      exact ⟨d, k, by rw [Marks.set_of_ne σ m' (Ne.symm hne), hk],
        hsuits.mono (Marks.le_set hm hle)⟩
  · rw [Array.size_modify]
    by_cases hr : r = ref
    · exact hr ▸ h.known ref m hm
    · rw [Marks.set_of_ne σ m' hr] at hk
      exact h.known r k hk

/-- A field gets a value of its type. -/
theorem setField (ht : t.WellTyped) (h : HeapOk t σ heap) (hm : σ ref = some m)
    (hc : t.classOf? m.type = some c) {f : Field} (hf : (t.flatFields c.id)[i]? = some f)
    (hx : x.Has t σ (f.ty.subst c.tparams m.type.args)) :
    HeapOk t (σ.set ref (m.give f.name))
      (heap.modify ref fun o => { o with fields := o.fields.setIfInBounds i x }) := by
  refine h.change hm (m.le_give f.name) fun o d hsuits => ?_
  obtain rfl := hsuits.cls_unique hc
  have hle := Marks.le_set hm (m.le_give f.name)
  refine ⟨hsuits.owns, hsuits.layout, by simpa using hsuits.size, fun j g hg hname => ?_,
    hsuits.dispatch, fun hw g hg => List.mem_cons_of_mem _ (hsuits.full hw g hg)⟩
  dsimp only
  rw [Array.getElem?_setIfInBounds]
  by_cases hij : i = j
  · subst hij
    obtain rfl : f = g := Option.some.inj (hf.symm.trans hg)
    have hlt : i < o.fields.size := hsuits.size ▸ (List.getElem?_eq_some_iff.1 hf).1
    exact ⟨x, by simp [hlt], hx.mono hle⟩
  · rw [if_neg hij]
    have hne : g.name ≠ f.name := by
      intro heq
      have hlt := Table.class?_eq_some_lt (ht.linked.class?_id (Table.classOf?_mem hc))
      have hi : i < ((t.flatFields c.id).map (·.name)).length := by
        simpa using (List.getElem?_eq_some_iff.1 hf).1
      refine hij ((List.getElem?_inj hi (ht.flatFields_nodup hlt)).1 ?_)
      rw [List.getElem?_map, List.getElem?_map, hf, hg, Option.map_some, Option.map_some, heq]
    have hgiven : g.name ∈ m.given := (List.mem_cons.1 hname).resolve_left hne
    obtain ⟨y, hy, hty⟩ := hsuits.given j g hg hgiven
    exact ⟨y, hy, hty.mono hle⟩

/-- An object whose fields all have values becomes whole. -/
theorem setDispatch (h : HeapOk t σ heap) (hm : σ ref = some m) {l : ClassLayout}
    (hc : t.classOf? m.type = some c) (hl : (Layouts.build t).named? c.name = some l)
    (hfull : ∀ f ∈ t.flatFields c.id, f.name ∈ m.given) :
    HeapOk t (σ.set ref m.finish) (heap.modify ref fun o => { o with dispatch := some l }) := by
  refine h.change hm m.le_finish fun o d hsuits => ?_
  obtain rfl := hsuits.cls_unique hc
  have hsuits' := hsuits.mono (Marks.le_set hm m.le_finish)
  refine ⟨hsuits.owns, hsuits.layout, hsuits.size, hsuits'.given, fun _ => ?_, fun _ => hfull⟩
  exact hl.symm.trans hsuits.layout

end HeapOk

end Machine

end ClassLang
