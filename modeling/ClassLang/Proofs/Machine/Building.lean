import Mathlib
import ClassLang.Proofs.Layout
import ClassLang.Proofs.Machine.Yields

/-!
What initializers build. An object is allocated with empty fields, the values of the elements are
stored one by one at the places of their fields, and last the object gets its dispatch table. If
the values have no side effects, the object that is built does not depend on the order of the
elements.
-/

namespace ClassLang

namespace Machine

open Graph (Instr Op Spot ExprCode FillCode)

namespace Object

/-- The object of a class whose fields have the values that `val` gives their names. -/
def built (l : ClassLayout) (val : String → Value) : Object where
  layout := l
  dispatch := some l
  fields := (l.fields.map fun s => val s.field.name).toArray

/-- The object `o` after the values of the fields called `names` have been stored into it. -/
def filled (l : ClassLayout) (val : String → Value) (o : Object) (names : List String) : Object :=
  names.foldl (fun o name => { o with
    fields := o.fields.setIfInBounds (((l.field? name).map (·.index)).getD 0) (val name) }) o

variable {l : ClassLayout} {val : String → Value} {o : Object} {names : List String} {i : Nat}

theorem filled_layout (l : ClassLayout) (val : String → Value) (o : Object) (names : List String) :
    (o.filled l val names).layout = o.layout ∧ (o.filled l val names).fields.size = o.fields.size := by
  induction names generalizing o with
  | nil => exact ⟨rfl, rfl⟩
  | cons name rest ih => exact ⟨(ih _).1, (ih _).2.trans (by simp)⟩

/-- A field has the value that was stored last at its place. -/
theorem filled_field {x : Value} (hi : i < o.fields.size)
    (hval : ∀ name ∈ names, ((l.field? name).map (·.index)).getD 0 = i → val name = x)
    (hx : o.fields[i]? = some x ∨ ∃ name ∈ names, ((l.field? name).map (·.index)).getD 0 = i) :
    (o.filled l val names).fields[i]? = some x := by
  induction names generalizing o with
  | nil => simpa [filled] using hx
  | cons name rest ih =>
      obtain ⟨hname, hrest⟩ := List.forall_mem_cons.1 hval
      refine ih (by simpa using hi) hrest ?_
      by_cases hplace : ((l.field? name).map (·.index)).getD 0 = i
      · left
        simp [hplace, hi, hname hplace]
      · rcases hx with hx | ⟨name', hmem, hplace'⟩
        · left
          rw [Array.getElem?_setIfInBounds_ne hplace]
          exact hx
        · rcases List.mem_cons.1 hmem with rfl | hmem
          · exact absurd hplace' hplace
          · exact .inr ⟨name', hmem, hplace'⟩

end Object

/-- The fields of a layout are numbered, have names of their own, and lie within a machine word. -/
structure Sized (l : ClassLayout) : Prop where
  numbered : ∀ (i : Nat) s, l.fields[i]? = some s → s.index = i
  named : ∀ s ∈ l.fields, l.field? s.field.name = some s
  word : l.size < 2 ^ 63

namespace Sized

variable {l : ClassLayout} {s : FieldSlot} {name : String}

theorem getElem?_index (h : Sized l) (hs : s ∈ l.fields) : l.fields[s.index]? = some s := by
  obtain ⟨i, hi⟩ := List.mem_iff_getElem?.1 hs
  rw [h.numbered i s hi, hi]

theorem index_lt (h : Sized l) (hs : l.field? name = some s) : s.index < l.fields.length :=
  (List.getElem?_eq_some_iff.1 (h.getElem?_index (List.mem_of_find?_eq_some hs))).1

/-- The machine finds a field at its offset. -/
theorem fieldAt (h : Sized l) (hs : l.field? name = some s) {o : Object} {x : Value}
    (hx : o.fields[s.index]? = some x) : fieldAt o (Int64.ofInt s.offset) = .ok (s.index, x) := by
  have hindex : fieldIndex (Int64.ofInt s.offset) = s.index := by
    have hlt := h.index_lt hs
    have hoffset := s.offset_eq
    have hsize := l.size_eq
    have hword := h.word
    exact fieldIndex_offset (by omega)
  unfold Machine.fieldAt
  rw [hindex, if_neg (by omega), Int.toNat_natCast, hx]

end Sized

namespace Object

variable {l : ClassLayout} {val : String → Value} {o : Object}

/-- Each field of a built object lies at its offset. -/
theorem fieldAt_built (hl : Sized l) (val : String → Value) {name : String} {s : FieldSlot}
    (hs : l.field? name = some s) :
    fieldAt (built l val) (Int64.ofInt s.offset) = .ok (s.index, val name) := by
  have hname : s.field.name = name := by simpa using List.find?_some hs
  refine hl.fieldAt hs ?_
  simp [built, hl.getElem?_index (List.mem_of_find?_eq_some hs), hname]

/-- An object that has been given all its fields is built. -/
theorem filled_eq_built (hl : Sized l) {names : List String}
    (hnames : names.Perm (l.fields.map (·.field.name))) (hlayout : o.layout = l)
    (hsize : o.fields.size = l.fields.length) :
    ({ o.filled l val names with dispatch := some l } : Object) = built l val := by
  obtain ⟨hkept, hcount⟩ := filled_layout l val o names
  have hfields : (o.filled l val names).fields = (built l val).fields := by
    refine Array.ext_getElem? fun i => ?_
    cases hs : l.fields[i]? with
    | none =>
        have hle : l.fields.length ≤ i := List.getElem?_eq_none_iff.1 hs
        rw [Array.getElem?_eq_none (by omega), Array.getElem?_eq_none (by simpa [built] using hle)]
    | some s =>
        have hmem := List.mem_of_getElem? hs
        obtain ⟨hlt, -⟩ := List.getElem?_eq_some_iff.1 hs
        have hbuilt : (built l val).fields[i]? = some (val s.field.name) := by simp [built, hs]
        rw [hbuilt]
        refine filled_field (hsize ▸ hlt) (fun name hname hplace => ?_) (.inr ⟨s.field.name,
          hnames.mem_iff.2 (List.mem_map_of_mem hmem), by
            rw [hl.named s hmem, Option.map_some, Option.getD_some, hl.numbered i s hs]⟩)
        obtain ⟨s', hmem', rfl⟩ := List.mem_map.1 (hnames.mem_iff.1 hname)
        rw [hl.named s' hmem', Option.map_some, Option.getD_some] at hplace
        have hsame := hl.getElem?_index hmem'
        rw [hplace, hs] at hsame
        rw [Option.some.inj hsame]
  unfold built at hfields ⊢
  dsimp only at hfields ⊢
  rw [hfields, hkept, hlayout]

end Object

/-! Running an initializer -/

theorem modify_push (heap : Array Object) (o : Object) (change : Object → Object) :
    (heap.push o).modify heap.size change = heap.push (change o) := by
  refine Array.ext_getElem? fun i => ?_
  rw [Array.getElem?_modify, Array.getElem?_push, Array.getElem?_push]
  by_cases hi : i = heap.size
  · simp [hi]
  · simp [hi, Ne.symm hi]

theorem getElem?_push_of_some {heap : Array Object} {ref : Nat} {o : Object}
    (h : heap[ref]? = some o) (o' : Object) : (heap.push o')[ref]? = some o := by
  obtain ⟨hlt, -⟩ := Array.getElem?_eq_some_iff.1 h
  rw [Array.getElem?_push, if_neg (Nat.ne_of_lt hlt), h]

variable {c : Scene} {s : State} {f : Frame} {l : ClassLayout} {val : String → Value} {o : Object}
  {ls : Layouts} {heap : Array Object} {obj : Nat}

/-- The values of the elements are stored into the object. -/
theorem steps_fill {t : Graph.Builder} (ht : t.Finished) (hl : Sized l)
    (hheap : ∀ (ref : Nat) o, c.machine.heap[ref]? = some o → heap[ref]? = some o)
    {elems : List (Ident × Typed.Expr)} {p q : Spot} (hcode : FillCode ls t l obj elems p q)
    (hyields : ∀ e ∈ elems, c.Yields ls e.2 (val e.1.text)) (hc : c.In t s f)
    (hf : f.Stands t.func p) (hobj : obj < p.count) (hvalue : f.value obj = .obj heap.size)
    (hobject : s.machine.heap = heap.push o) (hsize : o.fields.size = l.fields.length) :
    ∃ f', s.Steps ((s.modifyHeap fun _ =>
        heap.push (o.filled l val (elems.map (·.1.text)))).withTop f' c.rest) ∧
      f'.Stands t.func q ∧ f.Keeps p.count f' ∧ f'.slots = f.slots := by
  induction elems generalizing p s f o with
  | nil =>
      cases hcode
      refine ⟨f, ?_, hf, .refl _ f, rfl⟩
      have hsame : (s.modifyHeap fun _ => heap.push o).withTop f c.rest = s := by
        rw [State.modifyHeap, ← hobject]
        exact State.withTop_self hc.stack
      exact hsame ▸ .refl
  | cons e rest ih =>
      obtain ⟨key, x⟩ := e
      obtain ⟨hx, hrest⟩ := List.forall_mem_cons.1 hyields
      cases hcode with
      | @cons _ _ _ _ _ _ r _ i slot place first store others =>
          obtain ⟨hle, -⟩ := first.count_le
          have hold : obj < r.count := Nat.lt_of_lt_of_le hobj hle
          obtain ⟨f₁, hsteps, hf₁, hkeeps, hslots, hi⟩ := hx ht first s f hc hf
          obtain ⟨y, hy⟩ : ∃ y, o.fields[slot.index]? = some y :=
            ⟨_, Array.getElem?_eq_getElem (hsize ▸ hl.index_lt place)⟩
          have hobj₁ : f₁.value obj = .obj heap.size := (hkeeps.values _ hobj).trans hvalue
          have hgiven := Frame.Keeps.given r.count f₁ .nil
            ((t.func.body r.block).drop r.next.index)
          have haction : action f₁ (s.withTop f₁ c.rest).machine.heap
              (r.instr .storeField none [obj, i] key.pos (Int64.ofInt slot.offset)
                (some (.text key.text))) = .ok (.setField heap.size slot.index (val key.text)) := by
            have hheap₁ : (s.withTop f₁ c.rest).machine.heap[heap.size]? = some o := by
              rw [show (s.withTop f₁ c.rest).machine.heap = heap.push o from hobject]
              simp
            simp [action, Spot.instr, Frame.object, Frame.operand, hobj₁, hi, hheap₁,
              hl.fieldAt place hy, Bind.bind, Except.bind, Pure.pure, Except.pure]
          have hstored : (s.modifyHeap (·.modify heap.size fun o => { o with
              fields := o.fields.setIfInBounds slot.index (val key.text) })) =
              s.modifyHeap fun _ => heap.push (o.filled l val [key.text]) := by
            rw [State.modifyHeap, State.modifyHeap, hobject, modify_push]
            simp [Object.filled, place]
          have hstore := State.next_heap (s := s.withTop f₁ c.rest) rfl hf₁ store haction rfl
          rw [show ∀ change, (s.withTop f₁ c.rest).modifyHeap change =
            (s.modifyHeap change).withTop f₁ c.rest from fun _ => rfl, hstored] at hstore
          have hmachine : (s.modifyHeap fun _ => heap.push (o.filled l val [key.text])).machine =
              { c.machine with heap := heap.push (o.filled l val [key.text]) } := by
            rw [State.modifyHeap, hc.machine]
          obtain ⟨f', hsteps', hf', hkeeps', hslots'⟩ := ih others hrest
            (s := (s.modifyHeap fun _ => heap.push (o.filled l val [key.text])).withTop
              (f₁.given r.count .nil ((t.func.body r.block).drop r.next.index)) c.rest)
            (o := o.filled l val [key.text])
            ⟨rfl, hslots ▸ hc.vars, hc.budget, hmachine, fun ref o' ho' =>
              getElem?_push_of_some (hheap ref o' ho') _⟩
            (hf₁.given .nil r.count) (Nat.lt_succ_of_lt hold) (hobj₁ ▸ hgiven.values _ hold) rfl
            ((Object.filled_layout _ _ o _).2.trans hsize)
          refine ⟨f', (hsteps.tail hstore).trans hsteps', hf', ?_, hslots'.trans hslots⟩
          exact (hkeeps.trans (hgiven.narrow hle)).trans (hkeeps'.narrow (Nat.le_succ_of_le hle))

/-- In the scene `c` the initializer `e` builds the object `o` behind all others, and has no other
effects. -/
def Scene.Builds (c : Scene) (ls : Layouts) (e : Typed.Expr) (o : Object) : Prop :=
  ∀ ⦃t p i q⦄, Graph.Builder.Finished t → ExprCode ls t e p i q → ∀ s f, c.In t s f →
    f.Stands t.func p → ∃ f', s.Steps ((s.modifyHeap (·.push o)).withTop f' c.rest) ∧
      f'.Stands t.func q ∧ f.Keeps p.count f' ∧ f'.slots = f.slots ∧
      f'.value i = .obj s.machine.heap.size

/-- An initializer builds the object whose fields have the values of its elements. -/
theorem builds_init {cls : Ident} {sym : Symbol} {ty : Ty} {fields : List Field}
    {elems : List (Ident × Typed.Expr)} (hl : Sized l) (hlayout : ls.named? cls.text = some l)
    (hkeys : (elems.map (·.1.text)).Perm (l.fields.map (·.field.name)))
    (hyields : ∀ e ∈ elems, c.Yields ls e.2 (val e.1.text)) :
    c.Builds ls (.init cls sym ty fields elems) (.built l val) := by
  intro t p i q ht hcode s f hc hf
  cases hcode with
  | @init _ _ _ _ _ _ r _ layout alloc fill dispatch =>
      obtain rfl := Option.some.inj (hlayout.symm.trans layout)
      obtain ⟨o, ho⟩ : ∃ o : Object, o =
        { layout := l, fields := Array.replicate l.fields.length .nil } := ⟨_, rfl⟩
      obtain ⟨full, hfull⟩ : ∃ full, o.filled l val (elems.map (·.1.text)) = full := ⟨_, rfl⟩
      have hbuilt : ({ full with dispatch := some l } : Object) = .built l val := by
        rw [← hfull]
        exact Object.filled_eq_built hl hkeys (by rw [ho]) (by simp [ho])
      have halloc : action f s.machine.heap
          (p.instr .alloc (some ty) [] cls.pos (Int64.ofInt l.size) (some (.layout l))) =
            .ok (.allocate o) := by
        rw [ho]
        rfl
      have hfirst := State.next_heap (x := .obj s.machine.heap.size) hc.stack hf alloc halloc rfl
      have hmachine : (s.modifyHeap (·.push o)).machine =
          { c.machine with heap := s.machine.heap.push o } := by
        rw [State.modifyHeap, hc.machine]
      obtain ⟨f₁, hsteps, hf₁, hkeeps, hslots⟩ := steps_fill ht hl hc.heap fill hyields
        (s := (s.modifyHeap (·.push o)).withTop
          (f.given p.count (.obj s.machine.heap.size) ((t.func.body p.block).drop p.next.index)) c.rest)
        ⟨rfl, hc.vars, hc.budget, hmachine, fun ref o' ho' =>
          getElem?_push_of_some (hc.heap ref o' ho') _⟩
        (hf.given _ p.count) (Nat.lt_succ_self _) (hf.value_given alloc _ _) rfl (by simp [ho])
      have hobj : f₁.value p.count = .obj s.machine.heap.size :=
        (hkeeps.values _ (Nat.lt_succ_self _)).trans (hf.value_given alloc _ _)
      rw [hfull] at hsteps
      have hdispatch : action f₁ (s.machine.heap.push full)
          (r.instr .setDispatch none [p.count] Pos.none 0 (some (.layout l))) =
            .ok (.setDispatch s.machine.heap.size l) := by
        simp [action, Spot.instr, Frame.object, Frame.operand, hobj, carriedLayout, Instr.layout?,
          Bind.bind, Except.bind, Pure.pure, Except.pure]
      have hlast := State.next_heap (s := (s.modifyHeap fun _ => s.machine.heap.push full).withTop f₁
        c.rest) rfl hf₁ dispatch hdispatch rfl
      rw [show ∀ heap change, ((s.modifyHeap fun _ => heap).withTop f₁ c.rest).modifyHeap change =
        (s.modifyHeap fun _ => change heap).withTop f₁ c.rest from fun _ _ => rfl, modify_push,
        hbuilt] at hlast
      have hgiven := Frame.Keeps.given r.count f₁ .nil ((t.func.body r.block).drop r.next.index)
      have hle := fill.count_le
      refine ⟨_, (hsteps.head hfirst).tail hlast, hf₁.given .nil r.count, ?_, hslots, ?_⟩
      · exact (((Frame.Keeps.given p.count f _ _).trans (hkeeps.narrow (Nat.le_succ _))).trans
          (hgiven.narrow (Nat.le_of_succ_le hle)))
      · rw [hgiven.values _ hle, hobj]

end Machine

end ClassLang
