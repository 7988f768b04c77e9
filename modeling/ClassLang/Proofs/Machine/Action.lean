import ClassLang.Machine.Action

/-!
What single instructions do: which kind of action belongs to which operation, in which
ways an instruction fails, and which operands it reads.
-/

namespace ClassLang.Machine

open ClassLang.Graph (Instr Op Callee)

/-! Outcomes -/

/-- A computation that fails only in ways `Q` and gives only results `P`. -/
def Ends {α : Type} (m : Except Failure α) (Q : Failure → Prop) (P : α → Prop) : Prop :=
  match m with
  | .ok a => P a
  | .error e => Q e

namespace Ends

variable {α β : Type} {m : Except Failure α} {Q : Failure → Prop} {P R : α → Prop}

theorem bind {g : α → Except Failure β} {P : β → Prop} (h : Ends m Q R)
    (hg : ∀ a, R a → Ends (g a) Q P) : Ends (m >>= g) Q P := by
  cases m with
  | error e => exact h
  | ok a => exact hg a h

theorem mono {R : Failure → Prop} (h : Ends m Q P) (hQR : ∀ e, Q e → R e) : Ends m R P := by
  cases m with
  | error e => exact hQR e h
  | ok a => exact h

theorem ok {a : α} (h : Ends m Q P) (hm : m = .ok a) : P a := by
  rw [hm] at h
  exact h

theorem error {e : Failure} (h : Ends m Q P) (hm : m = .error e) : Q e := by
  rw [hm] at h
  exact h

end Ends

/-! Failures -/

/-- The ways in which instruction `v` can fail by itself. -/
inductive Fails (f : Frame) (v : Instr) : Failure → Prop
  | crash (c : Crash) : Fails f v (.crash c)
  | divideByZero : Fails f v (.runtime f.fn.name v.pos .divideByZero)
  | missingArgument (name : String) : Fails f v (.runtime f.fn.name v.pos (.missingArgument name))
  | noDispatch (object : String) : Fails f v (.runtime f.fn.name v.pos (.noDispatch object))
  | noMethod (cls name : String) (slot : Int64) :
      Fails f v (.runtime f.fn.name v.pos (.noMethod cls name slot))

/-- The kind of action that belongs to an operation. -/
def Action.Fits (op : Op) : Action → Prop
  | .give _ => op ≠ .alloca ∧ op ≠ .store
  | .newSlot => op = .alloca
  | .store .. => op = .store
  | .allocate _ => op = .alloc
  | .setField .. => op = .storeField
  | .setDispatch .. => op = .setDispatch
  | .call .. => op.isCall = true

section

variable (f : Frame) (heap : Array Object) (v : Instr)

theorem operand_ends (i : Nat) : Ends (f.operand v i) (Fails f v) fun _ => True := by
  unfold Frame.operand
  split
  · trivial
  · trivial
  · exact .crash .fault

theorem slot_ends : Ends (f.slot v) (Fails f v) fun _ => True := by
  unfold Frame.slot
  split
  · split
    · trivial
    · exact .crash .fault
  · exact .crash .fault

theorem object_ends : Ends (f.object heap v) (Fails f v) fun _ => True := by
  refine (operand_ends f v 0).bind fun x _ => ?_
  split
  · split
    · trivial
    · exact .crash .fault
  · exact .crash _

theorem argument_ends : Ends (argument f v) (Fails f v) fun _ => True := by
  unfold argument
  generalize v.number.toInt + (if f.fn.isMethod then 1 else 0) = i
  dsimp only
  split
  · exact .missingArgument _
  · split
    · trivial
    · exact .missingArgument _

theorem carriedLayout_ends : Ends (carriedLayout v) (Fails f v) fun _ => True := by
  unfold carriedLayout
  split
  · trivial
  · exact .crash .fault

theorem fieldAt_ends (o : Object) (offset : Int64) :
    Ends (fieldAt o offset) (Fails f v) fun _ => True := by
  unfold fieldAt
  dsimp only
  split
  · exact .crash .fault
  · split
    · trivial
    · exact .crash .fault

theorem intOp_ends (x y : Int64) : Ends (intOp f v x y) (Fails f v) fun _ => True := by
  unfold intOp
  split <;> try trivial
  all_goals
    split
    · exact .divideByZero
    · trivial

theorem binary_ends (x y : Value) : Ends (binary f v x y) (Fails f v) fun _ => True := by
  unfold binary
  split <;> first
    | trivial
    | exact Fails.crash _
    | split
      · first
        | exact intOp_ends f v _ _
        | trivial
      · exact Fails.crash _

theorem unary_ends (x : Value) : Ends (unary v x) (Fails f v) fun _ => True := by
  unfold unary
  split <;> first | trivial | exact .crash .fault

/-- Every instruction acts as its operation asks, or fails in one of few ways. -/
theorem action_ends : Ends (action f heap v) (Fails f v) (Action.Fits v.op) := by
  unfold action
  split
  case h_1 hop | h_2 hop | h_3 hop | h_4 hop =>
    rw [hop]
    exact ⟨by simp, by simp⟩
  case h_5 hop =>
    exact (argument_ends f v).bind fun _ _ => ⟨by simp [hop], by simp [hop]⟩
  case h_6 hop => exact hop
  case h_7 hop => exact (slot_ends f v).bind fun _ _ => ⟨by simp [hop], by simp [hop]⟩
  case h_8 hop => exact (operand_ends f v 1).bind fun _ _ => (slot_ends f v).bind fun _ _ => hop
  case h_9 hop | h_10 hop | h_11 hop =>
    exact (operand_ends f v 0).bind fun x _ => (unary_ends f v x).bind fun _ _ =>
      ⟨by simp [hop], by simp [hop]⟩
  case h_12 hop => exact (carriedLayout_ends f v).bind fun _ _ => hop
  case h_13 hop =>
    exact (object_ends f heap v).bind fun _ _ => (fieldAt_ends f v _ _).bind fun _ _ =>
      ⟨by simp [hop], by simp [hop]⟩
  case h_14 hop =>
    exact (object_ends f heap v).bind fun _ _ => (operand_ends f v 1).bind fun _ _ =>
      (fieldAt_ends f v _ _).bind fun _ _ => hop
  case h_15 hop =>
    exact (object_ends f heap v).bind fun _ _ => (carriedLayout_ends f v).bind fun _ _ => hop
  case h_16 hop =>
    rw [hop]
    split
    · rfl
    · exact .crash .fault
  case h_17 hop =>
    refine (object_ends f heap v).bind fun ⟨_, o⟩ _ => ?_
    dsimp only
    split
    · exact ⟨by simp [hop], by simp [hop]⟩
    · exact .noDispatch _
  case h_18 hop =>
    refine (operand_ends f v 0).bind fun _ _ => ?_
    split
    · split
      · exact ⟨by simp [hop], by simp [hop]⟩
      · exact .noMethod _ _ _
    · exact .crash .fault
  case h_19 hop =>
    refine (operand_ends f v 0).bind fun _ _ => ?_
    split
    · simp only [Ends, pure, Except.pure, Action.Fits, hop]
      rfl
    · exact .crash .fault
  case h_20 hslot _ hstore _ _ _ _ _ _ _ _ _ _ _ =>
    split
    · exact (operand_ends f v 0).bind fun x _ => (operand_ends f v 1).bind fun y _ =>
        (binary_ends f v x y).bind fun _ _ => ⟨hslot, hstore⟩
    · exact .crash _

/-- A value is stored into the slot that the first operand names. -/
theorem head?_of_store {a : Nat} {x : Value} (h : action f heap v = .ok (.store a x)) :
    v.args.head? = some (some a) := by
  have hop : v.op = .store := (action_ends f heap v).ok h
  have hslot : Ends (f.slot v) (fun _ => True) fun s => v.args.head? = some (some s.1) := by
    unfold Frame.slot
    split
    next hargs =>
      split
      · simp [Ends, hargs]
      · trivial
    next => trivial
  have hends : Ends (action f heap v) (fun _ => True) fun
      | .store b _ => v.args.head? = some (some b)
      | _ => True := by
    unfold action
    simp only [hop]
    exact ((operand_ends f v 1).mono fun _ _ => trivial).bind fun _ _ => hslot.bind fun _ hs => hs
  exact hends.ok h

end

/-! Operands -/

/-- The numbers of the operands that an instruction with `n` operands reads. -/
def reads (op : Op) (n : Nat) : List Nat :=
  match op with
  | .const64 | .constFloat | .constBool | .constString | .arg | .alloca | .alloc => []
  | .neg64 | .negF64 | .not | .load | .loadField | .setDispatch | .dispatchTable
  | .dispatchEntry => [0]
  | .callDirect => List.range n
  | .callIndirect => List.range (max 1 n)
  | _ => [0, 1]

theorem operands_congr {f f' : Frame} {args : List (Option Nat)}
    (h : ∀ a, some a ∈ args → f'.value a = f.value a) : f'.operands args = f.operands args := by
  refine List.map_congr_left fun arg harg => ?_
  cases arg with
  | none => rfl
  | some a => exact h a harg

/-- What an instruction does depends on no other operands. -/
theorem action_congr {f f' : Frame} (heap : Array Object) {v : Instr} (hfn : f'.fn = f.fn)
    (hargs : f'.args = f.args) (hslots : f'.slots = f.slots)
    (hreads : ∀ i ∈ reads v.op v.args.length, ∀ a, v.args[i]? = some (some a) →
      f'.value a = f.value a) : action f' heap v = action f heap v := by
  have hoperand : ∀ i ∈ reads v.op v.args.length, f'.operand v i = f.operand v i := by
    intro i hi
    unfold Frame.operand
    cases harg : v.args[i]? with
    | none => rfl
    | some arg =>
        cases arg with
        | none => rfl
        | some a => exact congrArg _ (hreads i hi a harg)
  have hall : (∀ i < v.args.length, i ∈ reads v.op v.args.length) → ∀ a, some a ∈ v.args →
      f'.value a = f.value a := by
    intro hrange a ha
    obtain ⟨i, hi, harg⟩ := List.getElem_of_mem ha
    exact hreads i (hrange i hi) a (by rw [List.getElem?_eq_getElem hi, harg])
  have hfail : ∀ (α : Type) (c : Cause), (f'.fail v c : Except Failure α) = f.fail v c := by
    intro α c
    unfold Frame.fail
    rw [hfn]
  have hslot : f'.slot v = f.slot v := by
    unfold Frame.slot
    rw [hslots]
  have hargument : argument f' v = argument f v := by
    unfold argument
    simp only [hfn, hargs, hfail]
  have hbinary : ∀ x y, binary f' v x y = binary f v x y := by
    intro x y
    have hint : ∀ a b, intOp f' v a b = intOp f v a b := by
      intro a b
      unfold intOp
      simp only [hfail]
    unfold binary
    simp only [hint]
  have hobject : 0 ∈ reads v.op v.args.length → f'.object heap v = f.object heap v := by
    intro h0
    unfold Frame.object
    rw [hoperand 0 h0]
  unfold action
  split <;> rename_i hop <;> try simp only [hop, reads] at hoperand hobject hall
  case h_1 | h_2 | h_3 | h_4 | h_6 | h_12 => rfl
  case h_5 => rw [hargument]
  case h_7 => rw [hslot]
  case h_8 => rw [hoperand 1 (by simp), hslot]
  case h_9 | h_10 | h_11 => rw [hoperand 0 (by simp)]
  case h_13 => rw [hobject (by simp)]
  case h_14 => rw [hobject (by simp), hoperand 1 (by simp)]
  case h_15 => rw [hobject (by simp)]
  case h_16 => rw [operands_congr (hall (by simp))]
  case h_17 => simp only [hobject (by simp), hfail]
  case h_18 => simp only [hoperand 0 (by simp), hfail]
  case h_19 =>
    have htail : f'.operands v.args.tail = f.operands v.args.tail :=
      operands_congr fun a ha => hall (fun i hi => List.mem_range.2 (by omega)) a
        (List.mem_of_mem_tail ha)
    rw [hoperand 0 (List.mem_range.2 (by omega)), htail]
  case h_20 => simp only [hoperand 0 (by simp), hoperand 1 (by simp), hbinary]

end ClassLang.Machine
