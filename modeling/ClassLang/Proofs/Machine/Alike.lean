import Mathlib.Data.List.Forall2
import Mathlib.Logic.Relator
import Mathlib.Order.Basic
import ClassLang.Proofs.Machine.Step

/-!
Machines that cannot be told apart. Their heaps may hold different objects at different
places; what counts is which objects correspond to each other. Every step of two machines that
are alike has the same outcome, up to the objects that it makes.
-/

namespace ClassLang.Machine

open ClassLang.Graph (Instr Op Callee)

/-! Corresponding objects -/

/-- Which objects of two heaps correspond to each other. -/
structure Pairing where
  pairs : Nat → Nat → Prop
  unique : Relator.BiUnique pairs

namespace Pairing

instance : Preorder Pairing := Preorder.lift pairs

/-- No objects correspond to each other. -/
def empty : Pairing := ⟨fun _ _ => False, fun _ _ _ h => h.elim, fun _ _ _ h => h.elim⟩

/-- Two more objects correspond to each other, which so far have been on their own. -/
def extend (ρ : Pairing) (a b : Nat) (left : ∀ c, ¬ ρ.pairs a c) (right : ∀ c, ¬ ρ.pairs c b) :
    Pairing where
  pairs i j := ρ.pairs i j ∨ i = a ∧ j = b
  unique := by
    constructor
    · rintro i j k (h | ⟨rfl, rfl⟩) (h' | ⟨rfl, hk⟩)
      · exact ρ.unique.1 h h'
      · exact absurd (hk ▸ h) (right i)
      · exact absurd h' (right j)
      · rfl
    · rintro i j k (h | ⟨rfl, rfl⟩) (h' | ⟨hi, rfl⟩)
      · exact ρ.unique.2 h h'
      · exact absurd (hi ▸ h) (left j)
      · exact absurd h' (left k)
      · rfl

variable {ρ : Pairing} {a b : Nat} {left : ∀ c, ¬ ρ.pairs a c} {right : ∀ c, ¬ ρ.pairs c b}

theorem le_extend : ρ ≤ ρ.extend a b left right := fun _ _ h => Or.inl h

theorem extend_pairs : (ρ.extend a b left right).pairs a b := Or.inr ⟨rfl, rfl⟩

end Pairing

/-- What two machines have in common of the values that their host functions keep. More pairs
of objects do not change it. -/
structure Keeping where
  holds : Pairing → List Value → List Value → Prop
  mono : ∀ {ρ ρ' : Pairing} {kept kept' : List Value}, ρ ≤ ρ' → holds ρ kept kept' →
    holds ρ' kept kept'

/-! Values and arrays -/

/-- Values that are the same, or objects that correspond to each other. -/
inductive Value.Alike (ρ : Pairing) : Value → Value → Prop
  | obj {a b : Nat} (pair : ρ.pairs a b) : Alike ρ (.obj a) (.obj b)
  | plain {x : Value} (plain : ∀ a, x ≠ .obj a) : Alike ρ x x

/-- Lists of values that are alike one by one. -/
abbrev Values.Alike (ρ : Pairing) : List Value → List Value → Prop := List.Forall₂ (Value.Alike ρ)

theorem Option.Rel.imp {α β : Type} {R S : α → β → Prop} {x : Option α} {y : Option β}
    (h : Option.Rel R x y) (hle : ∀ a b, R a b → S a b) : Option.Rel S x y := by
  cases h with
  | some h => exact .some (hle _ _ h)
  | none => exact .none

/-- Arrays of the same size with related elements. -/
def Pointwise {α β : Type} (R : α → β → Prop) (xs : Array α) (ys : Array β) : Prop :=
  ∀ i : Nat, Option.Rel R xs[i]? ys[i]?

namespace Pointwise

variable {α β : Type} {R S : α → β → Prop} {xs : Array α} {ys : Array β} {x : α} {y : β}

theorem imp (h : Pointwise R xs ys) (hle : ∀ x y, R x y → S x y) : Pointwise S xs ys :=
  fun i => Option.Rel.imp (h i) hle

theorem lt_iff (h : Pointwise R xs ys) (i : Nat) : i < xs.size ↔ i < ys.size := by
  have hi := h i
  by_cases hx : i < xs.size
  · by_cases hy : i < ys.size
    · simp [hx, hy]
    · simp only [Array.getElem?_eq_getElem hx, Array.getElem?_eq_none (Nat.not_lt.1 hy)] at hi
      cases hi
  · by_cases hy : i < ys.size
    · simp only [Array.getElem?_eq_none (Nat.not_lt.1 hx), Array.getElem?_eq_getElem hy] at hi
      cases hi
    · simp [hx, hy]

theorem replicate (n : Nat) (h : R x y) : Pointwise R (.replicate n x) (.replicate n y) := by
  intro i
  by_cases hi : i < n
  · simpa [hi] using Option.Rel.some h
  · simp [hi]

theorem set (h : Pointwise R xs ys) (i : Nat) (hxy : R x y) :
    Pointwise R (xs.setIfInBounds i x) (ys.setIfInBounds i y) := by
  intro j
  rw [Array.getElem?_setIfInBounds, Array.getElem?_setIfInBounds]
  by_cases hij : i = j
  · by_cases hi : i < xs.size
    · simpa [hij ▸ hi, hij, (h.lt_iff j).1 (hij ▸ hi)] using Option.Rel.some hxy
    · simp [hij ▸ hi, hij, mt (h.lt_iff j).2 (hij ▸ hi)]
  · simpa [hij] using h j

theorem getD (h : Pointwise R xs ys) (hxy : R x y) (i : Nat) : R (xs.getD i x) (ys.getD i y) := by
  have hi := h i
  rw [Array.getD_eq_getD_getElem?, Array.getD_eq_getD_getElem?]
  generalize xs[i]? = a at hi
  generalize ys[i]? = b at hi
  cases hi with
  | some h => exact h
  | none => exact hxy

end Pointwise

/-- Objects of the same class with fields that are alike. -/
structure Object.Alike (ρ : Pairing) (o o' : Object) : Prop where
  layout : o.layout = o'.layout
  dispatch : o.dispatch = o'.dispatch
  fields : Pointwise (Value.Alike ρ) o.fields o'.fields

/-- Objects that correspond to each other are alike. -/
def Heap.Alike (ρ : Pairing) (heap heap' : Array Object) : Prop :=
  ∀ a b, ρ.pairs a b → ∃ o o', heap[a]? = some o ∧ heap'[b]? = some o' ∧ o.Alike ρ o'

/-- Outcomes of two computations: related results or the same failure. -/
inductive Result.Alike {α β : Type} (R : α → β → Prop) : Except Failure α → Except Failure β → Prop
  | ok {a : α} {b : β} (rel : R a b) : Alike R (.ok a) (.ok b)
  | error (e : Failure) : Alike R (.error e) (.error e)

theorem Result.Alike.bind {α β γ δ : Type} {R : α → β → Prop} {S : γ → δ → Prop}
    {x : Except Failure α} {y : Except Failure β} {k : α → Except Failure γ}
    {k' : β → Except Failure δ} (h : Alike R x y) (hk : ∀ a b, R a b → Alike S (k a) (k' b)) :
    Alike S (x >>= k) (y >>= k') := by
  cases h with
  | ok rel => exact hk _ _ rel
  | error e => exact .error e

/-! Host functions -/

/-- Replies that cannot be told apart: the same requests with values that are alike, and
whatever is alike is answered to, what follows is alike again. -/
inductive Reply.Alike (K : Keeping) : Pairing → Reply → Reply → Prop
  | value {ρ : Pairing} {x y : Value} (value : x.Alike ρ y) : Alike K ρ (.value x) (.value y)
  | fail {ρ : Pairing} (text : String) : Alike K ρ (.fail text) (.fail text)
  | pass {ρ : Pairing} : Alike K ρ .pass .pass
  | crash {ρ : Pairing} : Alike K ρ .crash .crash
  | print {ρ : Pairing} {text : String} {r r' : Reply} (next : Alike K ρ r r') :
      Alike K ρ (.print text r) (.print text r')
  | look {ρ : Pairing} {a b : Nat} {r r' : Object → Reply} (pair : ρ.pairs a b)
      (next : ∀ o o', Object.Alike ρ o o' → Alike K ρ (r o) (r' o')) :
      Alike K ρ (.look a r) (.look b r')
  | change {ρ : Pairing} {a b : Nat} {o o' : Object} {r r' : Reply} (pair : ρ.pairs a b)
      (object : o.Alike ρ o') (next : Alike K ρ r r') :
      Alike K ρ (.change a o r) (.change b o' r')
  | create {ρ : Pairing} {o o' : Object} {r r' : Nat → Reply} (object : o.Alike ρ o')
      (next : ∀ ρ' a b, ρ ≤ ρ' → ρ'.pairs a b → Alike K ρ' (r a) (r' b)) :
      Alike K ρ (.create o r) (.create o' r')
  | kept {ρ : Pairing} {r r' : List Value → Reply}
      (next : ∀ xs xs', K.holds ρ xs xs' → Alike K ρ (r xs) (r' xs')) :
      Alike K ρ (.kept r) (.kept r')
  | keep {ρ : Pairing} {xs xs' : List Value} {r r' : Reply} (memory : K.holds ρ xs xs')
      (next : Alike K ρ r r') : Alike K ρ (.keep xs r) (.keep xs' r')
  | bind {ρ : Pairing} {name : String} {k k' : List Value → Reply} {r r' : Reply}
      (respond : ∀ ρ' xs xs', ρ ≤ ρ' → Values.Alike ρ' xs xs' → Alike K ρ' (k xs) (k' xs'))
      (next : Alike K ρ r r') : Alike K ρ (.bind name k r) (.bind name k' r')
  | call {ρ : Pairing} {fn : Graph.Func} {xs xs' : List Value} {own : Option Budget}
      {r r' : Except Failure Value → Reply} (args : Values.Alike ρ xs xs')
      (next : ∀ ρ' x x', ρ ≤ ρ' → Result.Alike (Value.Alike ρ') x x' →
        Alike K ρ' (r x) (r' x')) :
      Alike K ρ (.call fn xs own r) (.call fn xs' own r')

/-- Host functions that reply alike, now and when more objects correspond to each other. -/
def Host.Alike (K : Keeping) (ρ : Pairing) (h h' : Host) : Prop :=
  ∀ ρ' args args', ρ ≤ ρ' → Values.Alike ρ' args args' →
    Reply.Alike K ρ' (h.respond args) (h'.respond args')

/-- Host functions that wait for calls with outcomes that are alike. -/
structure Waiting.Alike (K : Keeping) (ρ : Pairing) (w w' : Waiting) : Prop where
  budget : w.budget = w'.budget
  next : ∀ ρ' r r', ρ ≤ ρ' → Result.Alike (Value.Alike ρ') r r' →
    Reply.Alike K ρ' (w.next r) (w'.next r')

/-! Machines and states -/

/-- Machines that cannot be told apart by what they are asked from outside, as long as it only
has to do with objects that correspond to each other. -/
structure Alike (K : Keeping) (ρ : Pairing) (m m' : ClassLang.Machine) : Prop where
  program : m.program = m'.program
  maxDepth : m.maxDepth = m'.maxDepth
  heap : Heap.Alike ρ m.heap m'.heap
  hosts : ∀ name, Option.Rel (Host.Alike K ρ) (m.hosts.lookup name) (m'.hosts.lookup name)
  memory : K.holds ρ m.memory m'.memory

/-- Activations of one function that are at the same place and have values that are alike. -/
structure Frame.Alike (K : Keeping) (ρ : Pairing) (f f' : Frame) : Prop where
  fn : f.fn = f'.fn
  args : Values.Alike ρ f.args f'.args
  values : Pointwise (Option.Rel (Value.Alike ρ)) f.values f'.values
  slots : Pointwise (Option.Rel (Value.Alike ρ)) f.slots f'.slots
  block : f.block = f'.block
  origin : f.origin = f'.origin
  todo : f.todo = f'.todo
  outer : Option.Rel (Waiting.Alike K ρ) f.outer f'.outer

/-- States of runs that cannot be told apart. -/
structure State.Alike (K : Keeping) (ρ : Pairing) (s s' : State) : Prop where
  machine : Machine.Alike K ρ s.machine s'.machine
  budget : s.budget = s'.budget
  out : s.out = s'.out
  stack : List.Forall₂ (Frame.Alike K ρ) s.stack s'.stack
  depth : s.depth = s'.depth

/-- Steps that lead to states that are alike. More objects may correspond to each other then. -/
inductive Step.Alike (K : Keeping) (ρ : Pairing) : Step → Step → Prop
  | next {ρ' : Pairing} {s s' : State} (le : ρ ≤ ρ') (state : s.Alike K ρ' s') :
      Alike K ρ (.next s) (.next s')
  | done {ρ' : Pairing} {s s' : State} {r r' : Except Failure Value} (le : ρ ≤ ρ')
      (state : s.Alike K ρ' s') (result : Result.Alike (Value.Alike ρ') r r') :
      Alike K ρ (.done s r) (.done s' r')

variable {K : Keeping} {ρ ρ' : Pairing}

/-! More pairs -/

section

variable (hle : ρ ≤ ρ')

include hle

theorem Value.Alike.mono {x y : Value} (h : x.Alike ρ y) : x.Alike ρ' y := by
  cases h with
  | obj pair => exact .obj (hle _ _ pair)
  | plain plain => exact .plain plain

theorem Values.Alike.mono {xs ys : List Value} (h : Values.Alike ρ xs ys) : Values.Alike ρ' xs ys :=
  h.imp fun _ _ => Value.Alike.mono hle

theorem Object.Alike.mono {o o' : Object} (h : o.Alike ρ o') : o.Alike ρ' o' :=
  ⟨h.layout, h.dispatch, h.fields.imp fun _ _ => Value.Alike.mono hle⟩

theorem Host.Alike.mono {h h' : Host} (hh : h.Alike K ρ h') : h.Alike K ρ' h' :=
  fun ρ'' args args' hle' => hh ρ'' args args' (hle.trans hle')

theorem Waiting.Alike.mono {w w' : Waiting} (h : w.Alike K ρ w') : w.Alike K ρ' w' :=
  ⟨h.budget, fun ρ'' r r' hle' => h.next ρ'' r r' (hle.trans hle')⟩

theorem Frame.Alike.mono {f f' : Frame} (h : f.Alike K ρ f') : f.Alike K ρ' f' where
  fn := h.fn
  args := h.args.mono hle
  values := h.values.imp fun _ _ hx => Option.Rel.imp hx fun _ _ => Value.Alike.mono hle
  slots := h.slots.imp fun _ _ hx => Option.Rel.imp hx fun _ _ => Value.Alike.mono hle
  block := h.block
  origin := h.origin
  todo := h.todo
  outer := Option.Rel.imp h.outer fun _ _ => Waiting.Alike.mono hle

end

/-! Heaps -/

namespace Heap.Alike

variable {heap heap' : Array Object} {a b : Nat} {o o' : Object}

/-- An object that takes the place of another keeps heaps alike. -/
theorem set (h : Heap.Alike ρ heap heap') (hpair : ρ.pairs a b) (ho : o.Alike ρ o') :
    Heap.Alike ρ (heap.setIfInBounds a o) (heap'.setIfInBounds b o') := by
  intro i j hij
  obtain ⟨p, p', hp, hp', hpp⟩ := h i j hij
  rw [Array.getElem?_setIfInBounds, Array.getElem?_setIfInBounds]
  by_cases hi : a = i
  · subst hi
    obtain rfl := ρ.unique.2 hpair hij
    rw [if_pos rfl, if_pos rfl, if_pos (Array.getElem?_eq_some_iff.1 hp).1,
      if_pos (Array.getElem?_eq_some_iff.1 hp').1]
    exact ⟨o, o', rfl, rfl, ho⟩
  · have hj : b ≠ j := fun hj => hi (ρ.unique.1 (hj ▸ hpair) hij)
    rw [if_neg hi, if_neg hj]
    exact ⟨p, p', hp, hp', hpp⟩

/-- A change of two objects that correspond to each other keeps heaps alike. -/
theorem modify (h : Heap.Alike ρ heap heap') (hpair : ρ.pairs a b) {k k' : Object → Object}
    (hk : ∀ o o', o.Alike ρ o' → (k o).Alike ρ (k' o')) :
    Heap.Alike ρ (heap.modify a k) (heap'.modify b k') := by
  intro i j hij
  obtain ⟨p, p', hp, hp', hpp⟩ := h i j hij
  rw [Array.getElem?_modify, Array.getElem?_modify, hp, hp']
  by_cases hi : a = i
  · subst hi
    obtain rfl := ρ.unique.2 hpair hij
    rw [if_pos rfl, if_pos rfl]
    exact ⟨_, _, rfl, rfl, hk _ _ hpp⟩
  · have hj : b ≠ j := fun hj => hi (ρ.unique.1 (hj ▸ hpair) hij)
    rw [if_neg hi, if_neg hj]
    exact ⟨p, p', rfl, rfl, hpp⟩

/-- Two new objects that are alike correspond to each other. -/
theorem push (h : Heap.Alike ρ heap heap') (ho : o.Alike ρ o') : ∃ ρ', ρ ≤ ρ' ∧
    ρ'.pairs heap.size heap'.size ∧ Heap.Alike ρ' (heap.push o) (heap'.push o') := by
  have hleft : ∀ c, ¬ ρ.pairs heap.size c := by
    intro c hc
    obtain ⟨p, _, hp, _, _⟩ := h _ c hc
    simp at hp
  have hright : ∀ c, ¬ ρ.pairs c heap'.size := by
    intro c hc
    obtain ⟨_, p, _, hp, _⟩ := h c _ hc
    simp at hp
  refine ⟨ρ.extend heap.size heap'.size hleft hright, Pairing.le_extend, Pairing.extend_pairs, ?_⟩
  rintro i j (hij | ⟨rfl, rfl⟩)
  · obtain ⟨p, p', hp, hp', hpp⟩ := h i j hij
    have hi := (Array.getElem?_eq_some_iff.1 hp).1
    have hj := (Array.getElem?_eq_some_iff.1 hp').1
    refine ⟨p, p', ?_, ?_, hpp.mono Pairing.le_extend⟩
    · rw [Array.getElem?_push, if_neg (Nat.ne_of_lt hi), hp]
    · rw [Array.getElem?_push, if_neg (Nat.ne_of_lt hj), hp']
  · exact ⟨o, o', Array.getElem?_push_size, Array.getElem?_push_size, ho.mono Pairing.le_extend⟩

end Heap.Alike

/-! Instructions -/

/-- Actions of one kind on values that are alike. -/
inductive Action.Alike (ρ : Pairing) : Action → Action → Prop
  | give {x y : Value} (value : x.Alike ρ y) : Alike ρ (.give x) (.give y)
  | newSlot : Alike ρ .newSlot .newSlot
  | store {a : Nat} {x y : Value} (value : x.Alike ρ y) : Alike ρ (.store a x) (.store a y)
  | allocate {o o' : Object} (object : o.Alike ρ o') : Alike ρ (.allocate o) (.allocate o')
  | setField {a b i : Nat} {x y : Value} (pair : ρ.pairs a b) (value : x.Alike ρ y) :
      Alike ρ (.setField a i x) (.setField b i y)
  | setDispatch {a b : Nat} {l : ClassLayout} (pair : ρ.pairs a b) :
      Alike ρ (.setDispatch a l) (.setDispatch b l)
  | call {target : Callee} {xs ys : List Value} (args : Values.Alike ρ xs ys) :
      Alike ρ (.call target xs) (.call target ys)

theorem Values.Alike.getElem? {xs ys : List Value} (h : Values.Alike ρ xs ys) (i : Nat) :
    Option.Rel (Value.Alike ρ) xs[i]? ys[i]? := by
  induction h generalizing i with
  | nil => exact .none
  | cons hxy _ ih =>
      cases i with
      | zero => exact .some hxy
      | succ i => exact ih i

/-- Objects are the same exactly where those that correspond to them are. -/
theorem Value.Alike.same {x x' y y' : Value} (hx : x.Alike ρ x') (hy : y.Alike ρ y') :
    x.same y = x'.same y' := by
  cases hx with
  | @obj a b hab =>
      cases hy with
      | @obj c d hcd =>
          have hiff : a = c ↔ b = d := by
            constructor
            · rintro rfl
              exact ρ.unique.2 hab hcd
            · rintro rfl
              exact ρ.unique.1 hab hcd
          simp [Value.same, hiff]
      | plain plain =>
          cases y <;> first | rfl | exact absurd rfl (plain _)
  | plain plain =>
      cases hy with
      | obj _ => cases x <;> first | rfl | exact absurd rfl (plain _)
      | plain _ => rfl

namespace Frame.Alike

variable {f f' : Frame} {heap heap' : Array Object}

theorem value (h : f.Alike K ρ f') (i : Nat) : (f.value i).Alike ρ (f'.value i) := by
  have hi := h.values.getD (.none) i
  unfold Frame.value
  generalize f.values.getD i none = x at hi
  generalize f'.values.getD i none = y at hi
  cases hi with
  | some h => exact h
  | none => exact .plain (by simp)

theorem operand (h : f.Alike K ρ f') (v : Instr) (i : Nat) :
    Result.Alike (Value.Alike ρ) (f.operand v i) (f'.operand v i) := by
  unfold Frame.operand
  split
  · exact .ok (h.value _)
  · exact .ok (.plain (by simp))
  · exact .error _

theorem operands (h : f.Alike K ρ f') (args : List (Option Nat)) :
    Values.Alike ρ (f.operands args) (f'.operands args) := by
  unfold Frame.operands
  rw [Values.Alike, List.forall₂_map_left_iff, List.forall₂_map_right_iff, List.forall₂_same]
  intro a _
  cases a with
  | none => exact .plain (by simp)
  | some a => exact h.value a

theorem fail {α β : Type} {R : α → β → Prop} (h : f.Alike K ρ f') (v : Instr) (cause : Cause) :
    Result.Alike R (f.fail v cause) (f'.fail v cause) := by
  unfold Frame.fail
  rw [h.fn]
  exact .error _

theorem slot (h : f.Alike K ρ f') (v : Instr) :
    Result.Alike (fun x y => x.1 = y.1 ∧ x.2.Alike ρ y.2) (f.slot v) (f'.slot v) := by
  unfold Frame.slot
  split
  · rename_i a _ _
    have ha := h.slots.getD .none a
    generalize f.slots.getD a none = x at ha
    generalize f'.slots.getD a none = y at ha
    cases ha with
    | some h => exact .ok ⟨rfl, h⟩
    | none => exact .error _
  · exact .error _

theorem object (h : f.Alike K ρ f') (hheap : Heap.Alike ρ heap heap') (v : Instr) :
    Result.Alike (fun x y => ρ.pairs x.1 y.1 ∧ x.2.Alike ρ y.2) (f.object heap v)
      (f'.object heap' v) := by
  refine (h.operand v 0).bind fun x y hxy => ?_
  cases hxy with
  | @obj a b pair =>
      obtain ⟨o, o', ho, ho', hoo⟩ := hheap a b pair
      dsimp only
      rw [ho, ho']
      exact .ok ⟨pair, hoo⟩
  | plain plain =>
      cases x <;> first | exact absurd rfl (plain _) | exact .error _

theorem argument (h : f.Alike K ρ f') (v : Instr) :
    Result.Alike (Value.Alike ρ) (Machine.argument f v) (Machine.argument f' v) := by
  unfold Machine.argument
  rw [h.fn]
  generalize v.number.toInt + (if f'.fn.isMethod then 1 else 0) = i
  dsimp only
  split
  · exact h.fail v _
  · have hi := h.args.getElem? i.toNat
    generalize f.args[i.toNat]? = x at hi
    generalize f'.args[i.toNat]? = y at hi
    cases hi with
    | some h => exact .ok h
    | none => exact h.fail v _

end Frame.Alike

theorem fieldAt_alike {o o' : Object} (h : o.Alike ρ o') (offset : Int64) :
    Result.Alike (fun x y => x.1 = y.1 ∧ x.2.Alike ρ y.2) (fieldAt o offset)
      (fieldAt o' offset) := by
  unfold fieldAt
  dsimp only
  split
  · exact .error _
  · have hi := h.fields (fieldIndex offset).toNat
    generalize o.fields[(fieldIndex offset).toNat]? = x at hi
    generalize o'.fields[(fieldIndex offset).toNat]? = y at hi
    cases hi with
    | some h => exact .ok ⟨rfl, h⟩
    | none => exact .error _

theorem carriedLayout_alike (v : Instr) : Result.Alike Eq (carriedLayout v) (carriedLayout v) := by
  unfold carriedLayout
  split
  · exact .ok rfl
  · exact .error _

section

variable {f f' : Frame} {heap heap' : Array Object} (h : f.Alike K ρ f') (v : Instr)

include h

theorem intOp_alike (x y : Int64) :
    Result.Alike (Value.Alike ρ) (intOp f v x y) (intOp f' v x y) := by
  unfold intOp
  split
  case h_4 | h_5 =>
    split
    · exact h.fail v _
    · exact .ok (.plain (by simp))
  all_goals exact .ok (.plain (by simp))

omit h in
theorem floatOp_alike (op : Op) (x y : Double) : (floatOp op x y).Alike ρ (floatOp op x y) := by
  refine .plain fun a => ?_
  unfold floatOp
  split <;> simp

theorem binary_alike {x x' y y' : Value} (hx : x.Alike ρ x') (hy : y.Alike ρ y') :
    Result.Alike (Value.Alike ρ) (binary f v x y) (binary f' v x' y') := by
  have hsame := hx.same hy
  unfold binary
  split
  case h_10 | h_11 =>
    rw [hsame]
    exact .ok (.plain (by simp))
  case h_24 => exact .error _
  all_goals
    cases hx with
    | obj _ => exact .error _
    | plain _ =>
        cases hy with
        | obj _ => cases x <;> exact .error _
        | plain _ =>
            split
            · first
              | exact intOp_alike h v _ _
              | exact .ok (floatOp_alike _ _ _)
              | exact .ok (.plain (by simp))
            · exact .error _

omit h in
theorem unary_alike {x x' : Value} (hx : x.Alike ρ x') :
    Result.Alike (Value.Alike ρ) (unary v x) (unary v x') := by
  cases hx with
  | obj _ =>
      unfold unary
      split
      · simp_all
      · simp_all
      · simp_all
      · split
        · simp_all
        · simp_all
        · simp_all
        · exact .error _
  | plain _ =>
      unfold unary
      split <;> first | exact .error _ | exact .ok (.plain (by simp))

variable (hheap : Heap.Alike ρ heap heap')

include hheap

/-- An instruction does the same where all that it reads is alike. -/
theorem action_alike : Result.Alike (Action.Alike ρ) (action f heap v) (action f' heap' v) := by
  unfold action
  split
  case h_1 | h_2 | h_3 | h_4 => exact .ok (.give (.plain (by simp)))
  case h_5 => exact (h.argument v).bind fun _ _ hx => .ok (.give hx)
  case h_6 => exact .ok .newSlot
  case h_7 => exact (h.slot v).bind fun _ _ hx => .ok (.give hx.2)
  case h_8 =>
    refine (h.operand v 1).bind fun x y hx => (h.slot v).bind fun a b hab => ?_
    obtain ⟨a, _⟩ := a
    obtain ⟨b, _⟩ := b
    obtain rfl : a = b := hab.1
    exact .ok (.store hx)
  case h_9 | h_10 | h_11 =>
    exact (h.operand v 0).bind fun _ _ hx => (unary_alike v hx).bind fun _ _ hy => .ok (.give hy)
  case h_12 =>
    refine (carriedLayout_alike v).bind fun l l' hl => ?_
    subst hl
    exact .ok (.allocate ⟨rfl, rfl, .replicate _ (.plain (by simp))⟩)
  case h_13 =>
    exact (h.object hheap v).bind fun _ _ ho => (fieldAt_alike ho.2 _).bind fun _ _ hx =>
      .ok (.give hx.2)
  case h_14 =>
    refine (h.object hheap v).bind fun _ _ ho => (h.operand v 1).bind fun x y hx =>
      (fieldAt_alike ho.2 _).bind fun i j hij => ?_
    obtain ⟨i, _⟩ := i
    obtain ⟨j, _⟩ := j
    obtain rfl : i = j := hij.1
    exact .ok (.setField ho.1 hx)
  case h_15 =>
    refine (h.object hheap v).bind fun _ _ ho => (carriedLayout_alike v).bind fun l l' hl => ?_
    subst hl
    exact .ok (.setDispatch ho.1)
  case h_16 =>
    split
    · exact .ok (.call (h.operands _))
    · exact .error _
  case h_17 =>
    refine (h.object hheap v).bind fun ⟨_, o⟩ ⟨_, o'⟩ ho => ?_
    dsimp only
    rw [← show o.dispatch = o'.dispatch from ho.2.dispatch]
    split
    · exact .ok (.give (.plain (by simp)))
    · rw [show o.text = o'.text by simp only [Object.text, show o.layout = o'.layout from ho.2.layout]]
      exact h.fail v _
  case h_18 =>
    refine (h.operand v 0).bind fun x y hx => ?_
    cases hx with
    | obj _ => exact .error _
    | plain _ =>
        split
        · split
          · exact .ok (.give (.plain (by simp)))
          · exact h.fail v _
        · exact .error _
  case h_19 =>
    refine (h.operand v 0).bind fun x y hx => ?_
    cases hx with
    | obj _ => exact .error _
    | plain _ =>
        split
        · exact .ok (.call (h.operands _))
        · exact .error _
  case h_20 =>
    split
    · exact (h.operand v 0).bind fun _ _ hx => (h.operand v 1).bind fun _ _ hy =>
        (binary_alike h v hx hy).bind fun _ _ hz => .ok (.give hz)
    · exact .error _

end

/-! Steps -/

theorem Step.Alike.below {x y : Step} (hle : ρ ≤ ρ') (h : Step.Alike K ρ' x y) :
    Step.Alike K ρ x y := by
  cases h with
  | next le state => exact .next (hle.trans le) state
  | done le state result => exact .done (hle.trans le) state result

theorem lookup_filter {hosts : List (String × Host)} {name n : String} (hn : n ≠ name) :
    (hosts.filter (·.1 ≠ name)).lookup n = hosts.lookup n := by
  induction hosts with
  | nil => rfl
  | cons h hosts ih =>
      obtain ⟨k, host⟩ := h
      by_cases hk : k = name
      · have hnk : (n == k) = false := by simp [hk, hn]
        simp only [List.filter_cons, List.lookup_cons, hnk]
        simpa [hk] using ih
      · rw [List.filter_cons_of_pos (by simpa using hk), List.lookup_cons, List.lookup_cons, ih]

theorem lookup_bind (m : ClassLang.Machine) (name n : String) (host : Host) :
    (m.bind name host).hosts.lookup n = if n = name then some host else m.hosts.lookup n := by
  unfold Machine.bind
  split
  next hn => simp [hn]
  next hn =>
    rw [List.lookup_cons, show (n == name) = false by simp [hn]]
    exact lookup_filter hn

namespace Frame.Alike

variable {f f' : Frame} {x y : Value}

theorem given (h : f.Alike K ρ f') (v : Nat) (hx : x.Alike ρ y) (todo : List Nat) :
    (f.given v x todo).Alike K ρ (f'.given v y todo) :=
  { h with
    values := h.values.set v (.some hx)
    todo := rfl }

theorem stored (h : f.Alike K ρ f') (a : Nat) (hx : x.Alike ρ y) :
    (f.stored a x).Alike K ρ (f'.stored a y) :=
  { h with slots := h.slots.set a (.some hx) }

theorem start {args args' : List Value} {w w' : Option Waiting} (fn : Graph.Func)
    (hargs : Values.Alike ρ args args') (hw : Option.Rel (Waiting.Alike K ρ) w w') :
    (Frame.start fn args w).Alike K ρ (Frame.start fn args' w') where
  fn := rfl
  args := hargs
  values := .replicate _ .none
  slots := .replicate _ .none
  block := rfl
  origin := rfl
  todo := rfl
  outer := hw

theorem holds (h : f.Alike K ρ f') (c : Option Nat) : State.holds f c = State.holds f' c := by
  cases c with
  | none => rfl
  | some c =>
      have hc := h.value c
      unfold State.holds
      simp only [Option.map_some]
      generalize f.value c = x at hc
      generalize f'.value c = y at hc
      cases hc <;> rfl

theorem edgeValues (h : f.Alike K ρ f') (b : Graph.Block) (vs : List Nat) :
    Result.Alike (List.Forall₂ fun x y => x.1 = y.1 ∧ x.2.Alike ρ y.2) (State.edgeValues f b vs)
      (State.edgeValues f' b vs) := by
  induction vs with
  | nil => exact .ok .nil
  | cons i vs ih =>
      unfold State.edgeValues
      rw [← h.fn, ← h.origin]
      split
      · exact .ok .nil
      · split
        · split
          · exact h.fail _ _
          · exact (h.operand _ _).bind fun x y hxy => ih.bind fun xs ys hxs =>
              .ok (.cons ⟨rfl, hxy⟩ hxs)
        · exact .ok .nil

theorem entered {b : Graph.Block} {xs ys : List (Nat × Value)} (h : f.Alike K ρ f')
    (hxs : List.Forall₂ (fun x y => x.1 = y.1 ∧ x.2.Alike ρ y.2) xs ys) :
    (f.entered b xs).Alike K ρ (f'.entered b ys) := by
  have hvalues : ∀ {vs ws : Array (Option Value)}, Pointwise (Option.Rel (Value.Alike ρ)) vs ws →
      Pointwise (Option.Rel (Value.Alike ρ))
        (xs.foldl (fun vs p => vs.setIfInBounds p.1 (some p.2)) vs)
        (ys.foldl (fun vs p => vs.setIfInBounds p.1 (some p.2)) ws) := by
    induction hxs with
    | nil => exact id
    | cons hxy _ ih =>
        intro vs ws hvs
        rw [List.foldl_cons, List.foldl_cons]
        rw [← hxy.1]
        exact ih (hvs.set _ (.some hxy.2))
  exact { h with
    values := hvalues h.values
    todo := by rw [Frame.entered, Frame.entered, h.fn] }

end Frame.Alike

namespace State.Alike

variable {s t : State} {x y : Value} {f g : Frame} {rest rest' : List Frame}

theorem fail (h : s.Alike K ρ t) (e : Failure) : Step.Alike K ρ (s.fail e) (t.fail e) :=
  .done le_rfl h (.error e)

theorem withTop (h : s.Alike K ρ t) (hf : f.Alike K ρ g)
    (hrest : List.Forall₂ (Frame.Alike K ρ) rest rest') :
    (s.withTop f rest).Alike K ρ (t.withTop g rest') :=
  { h with stack := .cons hf hrest }

/-- More objects may correspond to each other if the heaps are alike then. -/
theorem grow (h : s.Alike K ρ t) (hle : ρ ≤ ρ') {k k' : Array Object → Array Object}
    (hheap : Heap.Alike ρ' (k s.machine.heap) (k' t.machine.heap)) :
    (s.modifyHeap k).Alike K ρ' (t.modifyHeap k') where
  machine := {
    program := h.machine.program
    maxDepth := h.machine.maxDepth
    heap := hheap
    hosts := fun name => Option.Rel.imp (h.machine.hosts name) fun _ _ => Host.Alike.mono hle
    memory := K.mono hle h.machine.memory }
  budget := h.budget
  out := h.out
  stack := h.stack.imp fun _ _ => Frame.Alike.mono hle
  depth := h.depth

theorem deliver (h : s.Alike K ρ t) (hx : x.Alike ρ y) :
    Step.Alike K ρ (s.deliver x) (t.deliver y) := by
  have hstack := h.stack
  cases hs : s.stack with
  | nil =>
      rw [hs, List.forall₂_nil_left_iff] at hstack
      unfold State.deliver
      rw [hs, hstack]
      exact .done le_rfl h (.ok hx)
  | cons f rest =>
      rw [hs, List.forall₂_cons_left_iff] at hstack
      obtain ⟨g, rest', hf, hrest, ht⟩ := hstack
      unfold State.deliver
      rw [hs, ht]
      dsimp only
      rw [← hf.todo]
      split
      · exact .next le_rfl (h.withTop (hf.given _ hx _) hrest)
      · exact h.fail _

theorem tooDeep (h : s.Alike K ρ t) (fn : Graph.Func) : s.tooDeep fn = t.tooDeep fn := by
  unfold State.tooDeep
  rw [h.machine.maxDepth]

theorem started {args args' : List Value} {w w' : Option Waiting} (h : s.Alike K ρ t)
    (fn : Graph.Func) (hargs : Values.Alike ρ args args')
    (hw : Option.Rel (Waiting.Alike K ρ) w w') :
    (s.started fn args w).Alike K ρ (t.started fn args' w') :=
  { h with
    depth := congrArg (· + 1) h.depth
    stack := .cons (.start fn hargs hw) h.stack }

theorem push {args args' : List Value} {w w' : Option Waiting} (h : s.Alike K ρ t)
    (fn : Graph.Func) (hargs : Values.Alike ρ args args')
    (hw : Option.Rel (Waiting.Alike K ρ) w w') :
    Step.Alike K ρ (s.push fn args w) (t.push fn args' w') := by
  rw [push_eq, push_eq, ← h.depth, ← h.machine.maxDepth, ← h.tooDeep]
  split
  · exact h.fail _
  · exact .next le_rfl (h.started fn hargs hw)

theorem answer {r r' : Reply} (hr : Reply.Alike K ρ r r') (h : s.Alike K ρ t)
    (last : Option Failure) : Step.Alike K ρ (s.answer last r) (t.answer last r') := by
  induction hr generalizing s t last with
  | value hx => exact h.deliver hx
  | fail _ | pass | crash => exact h.fail _
  | @print ρ text _ _ _ ih =>
      have hprinted : State.Alike K ρ { s with out := s.out ++ text } { t with out := t.out ++ text } :=
        { h with out := congrArg (· ++ text) h.out }
      exact ih hprinted last
  | look pair _ ih =>
      obtain ⟨o, o', ho, ho', hoo⟩ := h.machine.heap _ _ pair
      unfold State.answer
      rw [ho, ho']
      exact ih o o' hoo h last
  | change pair object _ ih => exact ih (h.grow le_rfl (h.machine.heap.set pair object)) last
  | create object _ ih =>
      obtain ⟨ρ', hle, hpair, hheap⟩ := h.machine.heap.push object
      exact (ih ρ' _ _ hle hpair (h.grow hle hheap) last).below hle
  | kept _ ih => exact ih _ _ h.machine.memory h last
  | @keep ρ xs xs' _ _ memory _ ih =>
      have hkept : State.Alike K ρ { s with machine := { s.machine with memory := xs } }
          { t with machine := { t.machine with memory := xs' } } :=
        { h with machine := { h.machine with memory := memory } }
      exact ih hkept last
  | @bind ρ name k k' _ _ respond _ _ ih =>
      have hhosts : ∀ n, Option.Rel (Host.Alike K ρ) ((s.machine.bind name ⟨k⟩).hosts.lookup n)
          ((t.machine.bind name ⟨k'⟩).hosts.lookup n) := by
        intro n
        rw [lookup_bind, lookup_bind]
        split
        · exact .some respond
        · exact h.machine.hosts n
      have hbound : State.Alike K ρ { s with machine := s.machine.bind name ⟨k⟩ }
          { t with machine := t.machine.bind name ⟨k'⟩ } :=
        { h with machine := { h.machine with hosts := hhosts } }
      exact ih hbound last
  | @call ρ fn xs xs' own r r' args next ih =>
      unfold State.answer
      rw [← h.tooDeep]
      by_cases hfull : (s.machine.maxDepth : Int) ≤ s.depth
      · have hfull' : (t.machine.maxDepth : Int) ≤ t.depth := by rwa [← h.depth, ← h.machine.maxDepth]
        rw [if_pos hfull, if_pos hfull']
        exact ih _ _ _ le_rfl (.error _) h _
      · have hroom : ¬ (t.machine.maxDepth : Int) ≤ t.depth := by rwa [← h.depth, ← h.machine.maxDepth]
        rw [if_neg hfull, if_neg hroom]
        have hgranted : State.Alike K ρ { s with budget := own.getD s.budget }
            { t with budget := own.getD t.budget } :=
          { h with budget := congrArg (own.getD ·) h.budget }
        have hwaiting : Waiting.Alike K ρ ⟨own.map fun _ => s.budget, r⟩
            ⟨own.map fun _ => t.budget, r'⟩ := ⟨by rw [h.budget], next⟩
        exact .next le_rfl (hgranted.started fn args (.some hwaiting))

theorem callHost {args args' : List Value} (h : s.Alike K ρ t) (name : String)
    (hargs : Values.Alike ρ args args') :
    Step.Alike K ρ (s.callHost name args) (t.callHost name args') := by
  have hhost := h.machine.hosts name
  unfold State.callHost
  generalize s.machine.hosts.lookup name = host at hhost
  generalize t.machine.hosts.lookup name = host' at hhost
  cases hhost with
  | none => exact h.fail _
  | some halike => exact answer (halike ρ _ _ le_rfl hargs) h none

theorem call {args args' : List Value} (h : s.Alike K ρ t) (target : Callee)
    (hargs : Values.Alike ρ args args') :
    Step.Alike K ρ (s.call target args) (t.call target args') := by
  cases target with
  | host name | strayHost name => exact h.callHost name hargs
  | strayFunc name => exact h.fail _
  | func ref =>
      unfold State.call
      rw [← h.machine.program]
      dsimp only
      split
      · exact h.push _ hargs .none
      · exact h.fail _

theorem perform {a a' : Action} (h : s.Alike K ρ t) (hf : f.Alike K ρ g)
    (hrest : List.Forall₂ (Frame.Alike K ρ) rest rest') (v : Nat) (ha : Action.Alike ρ a a') :
    Step.Alike K ρ (s.perform f rest v a) (t.perform g rest' v a') := by
  have hnil : Value.nil.Alike ρ .nil := .plain (by simp)
  cases ha with
  | give value => exact h.deliver value
  | newSlot => exact (h.withTop (hf.stored v hnil) hrest).deliver hnil
  | store value => exact (h.withTop (hf.stored _ value) hrest).deliver hnil
  | allocate object =>
      obtain ⟨ρ', hle, hpair, hheap⟩ := h.machine.heap.push object
      exact ((h.grow hle hheap).deliver (.obj hpair)).below hle
  | setField pair value =>
      refine (h.grow le_rfl (h.machine.heap.modify pair fun o o' ho => ?_)).deliver hnil
      exact { ho with fields := ho.fields.set _ value }
  | setDispatch pair =>
      refine (h.grow le_rfl (h.machine.heap.modify pair fun o o' ho => ?_)).deliver hnil
      exact { ho with dispatch := rfl }
  | call args => exact h.call _ args

theorem enterBlock (h : s.Alike K ρ t) (hf : f.Alike K ρ g)
    (hrest : List.Forall₂ (Frame.Alike K ρ) rest rest') :
    Step.Alike K ρ (s.enterBlock f rest) (t.enterBlock g rest') := by
  have hcharged : s.charged.Alike K ρ t.charged := { h with budget := by simp [charged, h.budget] }
  have hblock : g.block.bind g.fn.block? = f.block.bind f.fn.block? := by rw [hf.block, hf.fn]
  unfold State.enterBlock
  rw [hblock]
  by_cases hbudget : s.budget = some 0
  · rw [if_pos hbudget, if_pos (h.budget ▸ hbudget)]
    exact h.fail _
  · rw [if_neg hbudget, if_neg (h.budget ▸ hbudget)]
    dsimp only
    split
    · exact hcharged.fail _
    next b _ =>
      have hedge := hf.edgeValues b b.values
      generalize State.edgeValues f b b.values = xs at hedge
      generalize State.edgeValues g b b.values = ys at hedge
      cases hedge with
      | error e => exact hcharged.fail e
      | ok hxs =>
          exact .next le_rfl (hcharged.withTop (hf.entered hxs) hrest)

theorem jump (h : s.Alike K ρ t) (hf : f.Alike K ρ g)
    (hrest : List.Forall₂ (Frame.Alike K ρ) rest rest') (b : Option Nat) :
    Step.Alike K ρ (s.jump f rest b) (t.jump g rest' b) := by
  cases b with
  | none => exact h.fail _
  | some b =>
      refine .next le_rfl (h.withTop ?_ hrest)
      exact { hf with block := rfl, origin := hf.block, todo := rfl }

theorem left (h : s.Alike K ρ t) (hrest : List.Forall₂ (Frame.Alike K ρ) rest rest')
    (budget : Option Budget) : (s.left rest budget).Alike K ρ (t.left rest' budget) :=
  { h with
    stack := hrest
    depth := congrArg (· - 1) h.depth
    budget := congrArg (budget.getD ·) h.budget }

theorem returnTo (h : s.Alike K ρ t) (hrest : List.Forall₂ (Frame.Alike K ρ) rest rest')
    {w w' : Option Waiting} (hw : Option.Rel (Waiting.Alike K ρ) w w') (hx : x.Alike ρ y) :
    Step.Alike K ρ (s.returnTo rest w x) (t.returnTo rest' w' y) := by
  cases hw with
  | none => exact (h.left hrest none).deliver hx
  | some hw =>
      unfold State.returnTo
      dsimp only
      rw [← hw.budget]
      exact answer (hw.next ρ _ _ le_rfl (.ok hx)) (h.left hrest _) none

theorem leaveBlock (h : s.Alike K ρ t) (hf : f.Alike K ρ g)
    (hrest : List.Forall₂ (Frame.Alike K ρ) rest rest') :
    Step.Alike K ρ (s.leaveBlock f rest) (t.leaveBlock g rest') := by
  have hblock : g.block.bind g.fn.block? = f.block.bind f.fn.block? := by rw [hf.block, hf.fn]
  unfold State.leaveBlock
  rw [hblock]
  split
  · exact h.fail _
  next b _ =>
    split
    · exact h.jump hf hrest _
    · split
      · exact h.fail _
      next c _ _ =>
        rw [← hf.holds c]
        exact h.jump hf hrest _
    · refine h.returnTo hrest hf.outer ?_
      split
      · exact hf.value _
      · exact .plain (by simp)
    · exact h.fail _

theorem step (h : s.Alike K ρ t) : Step.Alike K ρ s.step t.step := by
  have hstack := h.stack
  cases hs : s.stack with
  | nil =>
      rw [hs, List.forall₂_nil_left_iff] at hstack
      unfold State.step
      rw [hs, hstack]
      exact .done le_rfl h (.ok (.plain (by simp)))
  | cons f rest =>
      rw [hs, List.forall₂_cons_left_iff] at hstack
      obtain ⟨g, rest', hf, hrest, ht⟩ := hstack
      unfold State.step
      rw [hs, ht]
      dsimp only
      rw [← hf.todo, ← hf.fn]
      split
      · exact h.enterBlock hf hrest
      · exact h.leaveBlock hf hrest
      · split
        · exact h.fail _
        next v _ _ _ x _ =>
          have haction := action_alike hf x h.machine.heap
          generalize action f s.machine.heap x = a at haction
          generalize action g t.machine.heap x = a' at haction
          cases haction with
          | error e => exact h.fail e
          | ok ha => exact h.perform hf hrest v ha

theorem unwind (h : s.Alike K ρ t) (hrest : List.Forall₂ (Frame.Alike K ρ) rest rest')
    (e : Failure) : Step.Alike K ρ (State.unwind rest e s) (State.unwind rest' e t) := by
  induction rest generalizing s t ρ rest' e with
  | nil =>
      rw [List.forall₂_nil_left_iff] at hrest
      rw [hrest]
      exact h.fail e
  | cons f rest ih =>
      rw [List.forall₂_cons_left_iff] at hrest
      obtain ⟨g, rest', hf, hrest, rfl⟩ := hrest
      have houter := hf.outer
      unfold State.unwind
      generalize f.outer = w at houter
      generalize g.outer = w' at houter
      cases houter with
      | none => exact ih (h.left hrest none) hrest e
      | @some w w' hw =>
          have hanswer := answer (hw.next ρ _ _ le_rfl (.error e)) (h.left hrest w.budget) (some e)
          dsimp only
          rw [← hw.budget]
          generalize State.answer _ (some e) (w.next (.error e)) = x at hanswer
          generalize State.answer _ (some e) (w'.next (.error e)) = y at hanswer
          cases hanswer with
          | next le state => exact .next le state
          | done le state result =>
              cases result with
              | ok hx => exact .done le state (.ok hx)
              | error e' =>
                  exact (ih state (hrest.imp fun _ _ => Frame.Alike.mono le) e').below le

theorem advance (h : s.Alike K ρ t) : Step.Alike K ρ s.advance t.advance := by
  have hstep := h.step
  unfold State.advance
  generalize s.step = x at hstep
  generalize t.step = y at hstep
  cases hstep with
  | next le state => exact .next le state
  | done le state result =>
      cases result with
      | ok hx => exact .done le state (.ok hx)
      | error e => exact (state.unwind state.stack e).below le

/-- Runs from states that are alike print the same and end alike, after the same number of
steps. -/
theorem run (h : s.Alike K ρ t) (fuel : Nat) :
    Option.Rel (fun x y => ∃ ρ', ρ ≤ ρ' ∧ x.1.Alike K ρ' y.1 ∧
      Result.Alike (Value.Alike ρ') x.2 y.2) (s.run fuel) (t.run fuel) := by
  induction fuel generalizing s t ρ with
  | zero => exact .none
  | succ fuel ih =>
      have hadvance := h.advance
      unfold State.run
      generalize s.advance = x at hadvance
      generalize t.advance = y at hadvance
      cases hadvance with
      | done le state result => exact .some ⟨_, le, state, result⟩
      | next le state =>
          refine Option.Rel.imp (ih state) fun x y => ?_
          rintro ⟨ρ'', hle, hrest⟩
          exact ⟨ρ'', le.trans hle, hrest⟩

end State.Alike

/-- Outcomes of a run that cannot be told apart. -/
structure Run.Alike (K : Keeping) (ρ : Pairing) (r r' : Run) : Prop where
  machine : Machine.Alike K ρ r.machine r'.machine
  out : r.out = r'.out
  result : Result.Alike (Value.Alike ρ) r.result r'.result

/-- Machines that are alike answer a call alike. -/
theorem Alike.callWithin {m m' : ClassLang.Machine} (h : Machine.Alike K ρ m m') {args args' : List Value}
    (hargs : Values.Alike ρ args args') (depth : Int) (fuel : Nat) (budget : Budget)
    (fn : Graph.Func) :
    Option.Rel (fun x y => x.1 = y.1 ∧ ∃ ρ', ρ ≤ ρ' ∧ x.2.Alike K ρ' y.2)
      (m.callWithin depth fuel budget fn args) (m'.callWithin depth fuel budget fn args') := by
  have hstart : State.Alike K ρ { machine := m, budget, depth } { machine := m', budget, depth } :=
    ⟨h, rfl, rfl, .nil, rfl⟩
  have hpush := hstart.push fn hargs .none
  unfold Machine.callWithin
  dsimp only
  generalize State.push _ fn args none = x at hpush
  generalize State.push _ fn args' none = y at hpush
  cases hpush with
  | done le state result => exact .some ⟨state.depth, _, le, state.machine, state.out, result⟩
  | @next ρ' s s' le state =>
      have hrun := state.run fuel
      dsimp only
      generalize s.run fuel = r at hrun
      generalize s'.run fuel = r' at hrun
      cases hrun with
      | none => exact .none
      | some h =>
          obtain ⟨ρ'', hle, hlast, hresult⟩ := h
          exact .some ⟨hlast.depth, ρ'', le.trans hle, hlast.machine, hlast.out, hresult⟩

end ClassLang.Machine
