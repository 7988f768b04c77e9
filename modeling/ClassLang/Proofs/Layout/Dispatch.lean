import ClassLang.Proofs.Check.Unit
import ClassLang.Proofs.Layout

/-!
Dispatch tables are total and type-correct. The table of a class leads from the slot
of a method to what a lookup by name finds, and since overriding keeps signatures,
whoever calls a method through an ancestor or a bound finds one of the type it
expects.
-/

namespace ClassLang

namespace Layouts

variable {t : Table} {slots : List String} {c : ClassInfo} {l : ClassLayout}

/-! One table -/

/-- The table of a class before its empty end is cut off. -/
def fullTable (t : Table) (slots : List String) (c : ClassInfo) : List DispatchEntry :=
  slots.mapIdx fun slot name => ⟨slot, name, t.lookupMethod c.id name⟩

theorem fullTable_getElem? (s : Nat) : (fullTable t slots c)[s]? =
    (slots[s]?).map fun name => ⟨s, name, t.lookupMethod c.id name⟩ := by
  simp [fullTable]

/-- What is cut off has no methods. -/
theorem fullTable_eq_append (t : Table) (slots : List String) (c : ClassInfo) : ∃ cut, fullTable t slots c = dispatchTable t slots c ++ cut ∧
    ∀ e ∈ cut, e.impl = none := by
  refine ⟨((fullTable t slots c).reverse.takeWhile (·.impl.isNone)).reverse, ?_, fun e he => ?_⟩
  · change _ = ((fullTable t slots c).reverse.dropWhile (·.impl.isNone)).reverse ++ _
    rw [← List.reverse_append, List.takeWhile_append_dropWhile, List.reverse_reverse]
  · have hall := List.all_eq_true.1 (List.all_takeWhile (p := fun e => e.impl.isNone)
      (l := (fullTable t slots c).reverse)) e (List.mem_reverse.1 he)
    simpa using hall

theorem dispatchTable_entry {s : Nat} {e : DispatchEntry}
    (h : (dispatchTable t slots c)[s]? = some e) : e.slot = s ∧ slots[s]? = some e.name := by
  obtain ⟨cut, hcut, _⟩ := fullTable_eq_append t slots c
  have hlt := (List.getElem?_eq_some_iff.1 h).1
  have hfull : (fullTable t slots c)[s]? = some e := by
    rw [hcut, List.getElem?_append_left hlt, h]
  rw [fullTable_getElem?] at hfull
  obtain ⟨name, hname, rfl⟩ := Option.map_eq_some_iff.1 hfull
  exact ⟨rfl, hname⟩

theorem dispatchTable_impl (t : Table) (slots : List String) (c : ClassInfo) (s : Nat) : ((dispatchTable t slots c)[s]?).bind (·.impl) =
    (slots[s]?).bind (t.lookupMethod c.id) := by
  obtain ⟨cut, hcut, hempty⟩ := fullTable_eq_append t slots c
  have hfull : ((fullTable t slots c)[s]?).bind (·.impl) =
      (slots[s]?).bind (t.lookupMethod c.id) := by
    rw [fullTable_getElem?]
    cases slots[s]? <;> rfl
  rw [← hfull, hcut]
  by_cases hlt : s < (dispatchTable t slots c).length
  · rw [List.getElem?_append_left hlt]
  · have hge : (dispatchTable t slots c).length ≤ s := by omega
    rw [List.getElem?_append_right hge, List.getElem?_eq_none_iff.2 hge]
    cases hget : cut[s - (dispatchTable t slots c).length]? with
    | none => rfl
    | some e => exact (hempty e (List.mem_of_getElem? hget)).symm

/-! All tables of a unit -/

/-- The slot of a method leads to what a lookup of the method finds. -/
theorem method?_slot? (ht : t.Linked) (hc : c ∈ t.classes)
    (hl : IsLayout t (build t).slots c l) (name : String) :
    ((build t).slot? name).bind (fun s => l.method? s) = t.lookupMethod c.id name := by
  have hi := Table.class?_eq_some_lt (ht.class?_id hc)
  cases hslot : (build t).slot? name with
  | none =>
      cases hm : t.lookupMethod c.id name with
      | none => rfl
      | some m =>
          have hmem := mem_slots_of_lookupMethod ht hi hm
          exact absurd hmem (List.idxOf?_eq_none_iff.1 hslot)
  | some s =>
      have hget := (slot?_eq_some_iff (slots_nodup t)).1 hslot
      have himpl := dispatchTable_impl t (build t).slots c s
      rw [hget, Option.bind_some, ← hl.dispatch] at himpl
      rw [← himpl, Option.bind_some, ClassLayout.method?, if_neg (by omega), Int.toNat_natCast]

/-- A class that has a method has an entry for it. -/
theorem exists_entry (ht : t.Linked) (hc : c ∈ t.classes) {name : String} {m : Method}
    (hm : t.lookupMethod c.id name = some m) : ∃ l s, (build t).named? c.name = some l ∧
      (build t).slot? name = some s ∧ l.method? s = some m := by
  obtain ⟨l, hnamed, hl⟩ := named?_build ht hc
  have hentry := method?_slot? ht hc hl name
  rw [hm] at hentry
  obtain ⟨s, hslot, hmethod⟩ := Option.bind_eq_some_iff.1 hentry
  exact ⟨l, s, hnamed, hslot, hmethod⟩

end Layouts

namespace Table

variable {t : Table} {c d : ClassInfo}

/-- A method of a type, as the class of the type has it. -/
theorem methodSignature?_of_classOf? {ty : Ty} (hc : t.classOf? ty = some c) {name : String}
    {sig : Signature} (h : t.methodSignature? ty name = some sig) :
    ∃ m, t.lookupMethod c.id name = some m ∧
      (sig = m.sig.subst c.tparams ty.args ∨ ty.args = [] ∧ sig = m.sig) := by
  cases ty with
  | cls n =>
      have hc : t.classNamed? n = some c := hc
      simp only [methodSignature?, hc] at h
      cases hm : t.lookupMethod c.id name with
      | none => simp [hm] at h
      | some m => exact ⟨m, rfl, .inr ⟨rfl, by simpa [hm] using h.symm⟩⟩
  | inst n args =>
      have hc : t.classNamed? n = some c := hc
      simp only [methodSignature?, hc] at h
      cases hm : t.lookupMethod c.id name with
      | none => simp [hm] at h
      | some m => exact ⟨m, rfl, .inl (by simpa [hm, Ty.args] using h.symm)⟩
  | _ => simp [classOf?, Ty.className?] at hc

/-- A type without arguments leaves a signature as it is. -/
theorem subst_no_args_identical {ar : String → Option Nat} {Δ : List TypeParam} {sig : Signature}
    (h : sig.Scoped ar Δ) (ps : List TypeParam) : (sig.subst ps []).identical sig = true := by
  rw [Signature.identical_iff, Signature.paramTypes_subst]
  have hid : Ty.subst ps [] = id := funext (Ty.subst_no_args ps)
  have hresult : (sig.result.subst ps []).Scoped ar Δ := by
    rw [hid]
    exact h.2
  rw [Signature.result_subst hresult, hid]
  simp

/-- A type that satisfies a bound has its methods in every class that descends from
it. -/
theorem WellTyped.descendant_satisfies (h : t.WellTyped) {ty : Ty} {b : BoundInfo}
    (hc : t.classOf? ty = some c) (hb : t.missingMethod? ty b = none) (hd : d ∈ t.classes)
    (hdesc : t.isAncestor c.id d.id = true) {m : Method} (hm : m ∈ b.methods) :
    ∃ e, t.lookupMethod d.id m.name = some e ∧
      (e.sig.subst c.tparams ty.args).identical m.sig = true := by
  have hclass := h.linked.class?_id (classOf?_mem hc)
  have hi := class?_eq_some_lt (h.linked.class?_id hd)
  have hsat := List.find?_eq_none.1 hb m hm
  cases hsig : t.methodSignature? ty m.name with
  | none => simp [hsig] at hsat
  | some sig =>
      have hid : sig.identical m.sig = true := by simpa [hsig] using hsat
      obtain ⟨own, hown, hseen⟩ := methodSignature?_of_classOf? hc hsig
      obtain ⟨_, hscoped, _⟩ := h.lookupMethod_scoped hclass hown
      have hsubst : (own.sig.subst c.tparams ty.args).identical m.sig = true := by
        rcases hseen with rfl | ⟨hargs, rfl⟩
        · exact hid
        · rw [hargs]
          exact Signature.identical_trans (subst_no_args_identical hscoped _) hid
      cases hgeneric : c.isGeneric with
      | true =>
          have heq := h.linked.eq_of_generic hi (isAncestor_iff.1 hdesc) hclass hgeneric
          rw [heq]
          exact ⟨own, hown, hsubst⟩
      | false =>
          obtain ⟨e, he, hid'⟩ := lookupMethod_of_isAncestor h.linked h.overrides hi hdesc hown
          have hnil : c.tparams = [] := by simpa [ClassInfo.isGeneric] using hgeneric
          rw [hnil, Signature.subst_nil] at hsubst
          refine ⟨e, he, ?_⟩
          rw [hnil, Signature.subst_nil]
          exact Signature.identical_trans (Signature.identical_symm hid') hsubst

end Table

/-- Dispatch tables are total and type-correct: names have slots of their own, the
entry at the slot of a method is the method that a lookup finds, and it has the
signature that any ancestor of the class, or any bound that such an ancestor satisfies,
promises for it. -/
theorem dispatch_total_and_typed {f : File} {limit : Option Nat} {typed : Typed.File}
    (h : f.check limit = .ok typed) (hlimit : limit ≠ some 0) :
    let t := typed.table
    let ls := Layouts.build t
    (∀ m n s, ls.slot? m = some s → ls.slot? n = some s → m = n) ∧
    (∀ d ∈ t.classes, ∃ l, ls.named? d.name = some l ∧ l.id = d.id ∧
      (∀ (s : Nat) (e : DispatchEntry), l.dispatch[s]? = some e → e.slot = s ∧ ls.slots[s]? = some e.name) ∧
      ∀ m, (ls.slot? m).bind (fun s => l.method? s) = t.lookupMethod d.id m) ∧
    (∀ c ∈ t.classes, ∀ d ∈ t.classes, t.isAncestor c.id d.id = true →
      ∀ name m, t.lookupMethod c.id name = some m →
        ∃ l s e, ls.named? d.name = some l ∧ ls.slot? name = some s ∧ l.method? s = some e ∧
          e.sig.identical m.sig = true) ∧
    (∀ ty c b, t.classOf? ty = some c → t.missingMethod? ty b = none →
      ∀ d ∈ t.classes, t.isAncestor c.id d.id = true → ∀ m ∈ b.methods,
        ∃ l s e, ls.named? d.name = some l ∧ ls.slot? m.name = some s ∧ l.method? s = some e ∧
          (e.sig.subst c.tparams ty.args).identical m.sig = true) := by
  intro t ls
  have hwell : t.WellTyped := File.check_wellTyped h hlimit
  have hlinked := hwell.linked
  refine ⟨fun m n s hm hn => ?_, fun d hd => ?_, fun c hc d hd hdesc name m hm => ?_,
    fun ty c b hc hb d hd hdesc m hm => ?_⟩
  · rw [Layouts.slot?_eq_some_iff (Layouts.slots_nodup t)] at hm hn
    exact Option.some.inj (hm.symm.trans hn)
  · obtain ⟨l, hnamed, hl⟩ := Layouts.named?_build hlinked hd
    refine ⟨l, hnamed, hl.id, fun s e he => ?_, Layouts.method?_slot? hlinked hd hl⟩
    rw [hl.dispatch] at he
    exact Layouts.dispatchTable_entry he
  · have hi := Table.class?_eq_some_lt (hlinked.class?_id hd)
    obtain ⟨e, he, hid⟩ :=
      Table.lookupMethod_of_isAncestor hlinked hwell.overrides hi hdesc hm
    obtain ⟨l, s, hnamed, hslot, hentry⟩ := Layouts.exists_entry hlinked hd he
    exact ⟨l, s, e, hnamed, hslot, hentry, Signature.identical_symm hid⟩
  · obtain ⟨e, he, hid⟩ := hwell.descendant_satisfies hc hb hd hdesc hm
    obtain ⟨l, s, hnamed, hslot, hentry⟩ := Layouts.exists_entry hlinked hd he
    exact ⟨l, s, e, hnamed, hslot, hentry, hid⟩

/-- A unit with a class `B` that overrides the method `m` of its parent `A`. -/
def overridingUnit : File :=
  let id (s : String) : Ident := ⟨default, s⟩
  let m : FuncDecl :=
    ⟨default, id "m", some (id "this"), [], [], none, some (.mk default [] default), false⟩
  ⟨"unit", default, [.cls ⟨default, id "A", [], none, [], [m]⟩,
    .cls ⟨default, id "B", [], some (id "A"), [], [m]⟩]⟩

theorem overridingUnit_dispatch : ∃ typed, overridingUnit.check none = .ok typed ∧
    typed.table.classes.length = 2 ∧ ∀ d ∈ typed.table.classes,
      ∃ l, (Layouts.build typed.table).named? d.name = some l ∧ l.id = d.id := by
  have hcheck : ((overridingUnit.check none).toOption.map (·.table.classes.length)) = some 2 := by
    decide +kernel
  obtain ⟨typed, hok, hlength⟩ := File.exists_checked hcheck
  refine ⟨typed, hok, hlength, fun d hd => ?_⟩
  obtain ⟨l, hnamed, hid, _⟩ := (dispatch_total_and_typed hok (by simp)).2.1 d hd
  exact ⟨l, hnamed, hid⟩

end ClassLang
