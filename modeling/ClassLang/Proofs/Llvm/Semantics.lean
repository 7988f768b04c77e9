import ClassLang.Machine.Value
import ClassLang.Proofs.Llvm.Rules
import ClassLang.Proofs.Llvm.Steps
import ClassLang.Text.Utf8

/-!
What the instructions of a function mean, as far as they compute with numbers, truth values and
the texts of the module. Integers are bit vectors and wrap around. A division by zero, and one
whose result does not fit, is undefined; so is what follows a call that does not return. Memory,
phis and calls of functions of the program are left out.
-/

namespace ClassLang.Llvm

/-- What an operand stands for. A text is given by the bytes of its constant, with the zero at
its end. -/
inductive Datum where
  | bool (b : Bool)
  | int32 (n : BitVec 32)
  | int64 (n : BitVec 64)
  | double (x : Double)
  | text (bytes : List UInt8)

namespace Datum

/-- The type of an operand that stands for something. -/
def type : Datum → Ty
  | .bool _ => .i1
  | .int32 _ => .i32
  | .int64 _ => .i64
  | .double _ => .double
  | .text _ => .bytes

/-- The bytes of a text as its constant holds them. -/
def ofString (s : String) : Datum := .text (Utf8.encode s ++ [0])

/-- What a value of the language becomes in a module. Objects are not described here. -/
def ofValue? : Machine.Value → Option Datum
  | .int n => some (.int64 n.toBitVec)
  | .bool b => some (.bool b)
  | .float x => some (.double x)
  | .str s => some (ofString s)
  | _ => none

end Datum

/-- The bytes of a text as functions of the library see them: those in front of the first
zero. -/
def upToZero (bytes : List UInt8) : List UInt8 := bytes.takeWhile (· ≠ 0)

/-- How the library compares two texts. -/
abbrev Comparison := List UInt8 → List UInt8 → BitVec 32

/-- A comparison gives zero for two texts exactly if they are equal up to their first zeros. -/
structure Comparison.Exact (strcmp : Comparison) : Prop where
  zero_iff : ∀ a b, strcmp a b = 0 ↔ upToZero a = upToZero b

/-- An activation of a function: its parameters, the results of instructions so far, and the
texts of the module. -/
structure Frame where
  params : Nat → Option Datum
  results : Nat → Option Datum
  texts : String → Option (List UInt8)

namespace Frame

/-- The activation in which instruction `n` has the result `d`. -/
def give (f : Frame) (n : Nat) (d : Option Datum) : Frame :=
  { f with results := fun k => if k = n then d else f.results k }

/-- What an operand stands for. -/
def eval (f : Frame) : Operand → Option Datum
  | .int 1 n => some (.bool (n % 2 ≠ 0))
  | .int 32 n => some (.int32 (BitVec.ofInt 32 n))
  | .int 64 n => some (.int64 (BitVec.ofInt 64 n))
  | .bool b => some (.bool b)
  | .double x => some (.double x)
  | .param i _ => f.params i
  | .result n _ => f.results n
  | .firstByte name _ => (f.texts name).map .text
  | .int _ _ | .null _ | .global .. | .cast .. => none

/-- The text constants that have been defined are those of the module. -/
def Knows (f : Frame) (literals : List String) : Prop :=
  ∀ i s, literals[i]? = some s → f.texts (literalSymbol i) = some (Utf8.encode s ++ [0])

end Frame

/-! Instructions -/

/-- What an instruction does: it gives a result, it is undefined, or it ends the program with a
message. Others are not described here. -/
inductive Effect where
  | give (d : Option Datum)
  | undefined
  | abort (message : List UInt8)
  | other

/-- The least word. Its quotient by minus one is not a word. -/
def overflows (x y : BitVec 64) : Bool := x = BitVec.intMin 64 && y = -1

/-- An operation on two words. -/
def BinaryOp.onWords (op : BinaryOp) (x y : BitVec 64) : Effect :=
  match op with
  | .add => .give (some (.int64 (x + y)))
  | .sub => .give (some (.int64 (x - y)))
  | .mul => .give (some (.int64 (x * y)))
  | .sdiv => if y = 0 || overflows x y then .undefined else .give (some (.int64 (x.sdiv y)))
  | .srem => if y = 0 || overflows x y then .undefined else .give (some (.int64 (x.srem y)))
  | .xor => .give (some (.int64 (x ^^^ y)))
  | .fadd | .fsub | .fmul | .fdiv => .other

/-- An operation on two floating-point numbers. -/
def BinaryOp.onDoubles (op : BinaryOp) (x y : Double) : Effect :=
  match op with
  | .fadd => .give (some (.double (x.add y)))
  | .fsub => .give (some (.double (x.sub y)))
  | .fmul => .give (some (.double (x.mul y)))
  | .fdiv => .give (some (.double (x.div y)))
  | .add | .sub | .mul | .sdiv | .srem | .xor => .other

/-- Whether a comparison of integers holds. -/
def IntPred.holds {width : Nat} (pred : IntPred) (x y : BitVec width) : Bool :=
  match pred with
  | .eq => x = y
  | .ne => x ≠ y
  | .slt => x.slt y
  | .sle => x.sle y
  | .sgt => y.slt x
  | .sge => y.sle x

/-- Whether a comparison of floating-point numbers holds. None holds of numbers that are not
ordered. -/
def FloatPred.holds (pred : FloatPred) (x y : Double) : Bool :=
  match x.compare? y, pred with
  | none, _ => false
  | some order, .oeq => order = .eq
  | some order, .one => order ≠ .eq
  | some order, .olt => order = .lt
  | some order, .ole => order ≠ .gt
  | some order, .ogt => order = .gt
  | some order, .oge => order ≠ .lt

/-- What a call of a function of the library does. -/
def libraryCall (strcmp : Comparison) (name : String) (args : List (Option Datum)) : Effect :=
  match args with
  | [some (.text message)] => if name = abort.name then .abort (upToZero message) else .other
  | [some (.text a), some (.text b)] =>
    if name = compareTexts.name then .give (some (.int32 (strcmp a b))) else .other
  | _ => .other

/-- What an instruction does. -/
def Instr.effect (strcmp : Comparison) (f : Frame) : Instr → Effect
  | .binary op x y =>
    match f.eval x, f.eval y with
    | some (.int64 x), some (.int64 y) => op.onWords x y
    | some (.double x), some (.double y) => op.onDoubles x y
    | some (.bool x), some (.bool y) => if op = .xor then .give (some (.bool (x ^^ y))) else .other
    | _, _ => .other
  | .fneg x =>
    match f.eval x with
    | some (.double x) => .give (some (.double x.neg))
    | _ => .other
  | .icmp pred x y =>
    match f.eval x, f.eval y with
    | some (.bool x), some (.bool y) =>
      .give (some (.bool (pred.holds (BitVec.ofBool x) (BitVec.ofBool y))))
    | some (.int32 x), some (.int32 y) => .give (some (.bool (pred.holds x y)))
    | some (.int64 x), some (.int64 y) => .give (some (.bool (pred.holds x y)))
    | _, _ => .other
  | .fcmp pred x y =>
    match f.eval x, f.eval y with
    | some (.double x), some (.double y) => .give (some (.bool (pred.holds x y)))
    | _, _ => .other
  | .select cond x y =>
    match f.eval cond with
    | some (.bool b) => .give (if b then f.eval x else f.eval y)
    | _ => .other
  | .call (.global name _) args => libraryCall strcmp name (args.map f.eval)
  | .alloca _ | .load .. | .store .. | .phi .. | .element .. | .bitcast .. | .call .. => .other

/-! Running -/

/-- A place in a function that is running. -/
structure Config where
  block : Nat
  line : Nat
  frame : Frame

/-- What happens at a place. -/
inductive Move where
  | next (c : Config)
  | undefined
  | abort (message : List UInt8)
  | ret (d : Option Datum)
  | other

/-- What happens at a place of a function. -/
def Config.move (strcmp : Comparison) (body : Body) (c : Config) : Move :=
  match body.line? c.block c.line with
  | some l =>
    match l.instr.effect strcmp c.frame with
    | .give d => .next ⟨c.block, c.line + 1, c.frame.give l.number d⟩
    | .undefined => .undefined
    | .abort message => .abort message
    | .other => .other
  | none =>
    match body.terminator? c.block with
    | some (.jump b) => .next ⟨b, 0, c.frame⟩
    | some (.branch x yes no) =>
      match c.frame.eval x with
      | some (.bool b) => .next ⟨if b then yes else no, 0, c.frame⟩
      | _ => .other
    | some (.ret x) => .ret (x.bind c.frame.eval)
    | some .unreachable => .undefined
    | none => .other

/-- How a run that is watched up to a place comes to an end. -/
inductive End where
  | arrives (f : Frame)
  | undefined
  | aborts (message : List UInt8)
  | other

/-- The run from `c` on ends in one of these ways, at the latest at instruction `stop.2` of
block `stop.1`. -/
inductive Ends (strcmp : Comparison) (body : Body) (stop : Nat × Nat) : Config → End → Prop
  | arrives {f : Frame} : Ends strcmp body stop ⟨stop.1, stop.2, f⟩ (.arrives f)
  | next {c c' : Config} {e : End} (before : (c.block, c.line) ≠ stop)
    (move : c.move strcmp body = .next c') (rest : Ends strcmp body stop c' e) :
    Ends strcmp body stop c e
  | undefined {c : Config} (before : (c.block, c.line) ≠ stop)
    (move : c.move strcmp body = .undefined) : Ends strcmp body stop c .undefined
  | aborts {c : Config} {message : List UInt8} (before : (c.block, c.line) ≠ stop)
    (move : c.move strcmp body = .abort message) : Ends strcmp body stop c (.aborts message)
  | ret {c : Config} {d : Option Datum} (before : (c.block, c.line) ≠ stop)
    (move : c.move strcmp body = .ret d) : Ends strcmp body stop c .other
  | other {c : Config} (before : (c.block, c.line) ≠ stop)
    (move : c.move strcmp body = .other) : Ends strcmp body stop c .other

namespace Ends

variable {strcmp : Comparison} {body : Body} {stop : Nat × Nat} {c : Config} {e e' : End}

/-- A run ends in one way only. -/
theorem unique (h : Ends strcmp body stop c e) (h' : Ends strcmp body stop c e') : e = e' := by
  induction h with
  | arrives =>
      cases h' with
      | arrives => rfl
      | _ before => exact absurd rfl before
  | next before move _ ih =>
      cases h' with
      | arrives => exact absurd rfl before
      | next _ move' rest' =>
          rw [move] at move'
          obtain rfl := Move.next.inj move'
          exact ih rest'
      | _ _ move' => cases move.symm.trans move'
  | _ before move =>
      cases h' with
      | arrives => exact absurd rfl before
      | _ _ move' => cases move.symm.trans move' <;> rfl

/-- The way in which a run ends is the only one. -/
theorem iff_eq (h : Ends strcmp body stop c e) : Ends strcmp body stop c e' ↔ e' = e :=
  ⟨fun h' => h'.unique h, fun heq => heq ▸ h⟩

end Ends

end ClassLang.Llvm

/-!
Running instructions that were written one after the other. Each of them gets a number that no
operand refers to yet, so the results there are stay what they are.
-/

namespace ClassLang.Llvm

variable {s : Writer} {f f' : Frame} {k n : Nat} {x : Operand} {d : Option Datum} {i : Instr}
  {strcmp : Comparison}

namespace Frame

/-- Whether an operand only refers to results of instructions before number `n`. -/
def Older (x : Operand) (n : Nat) : Prop := ∀ m ∈ x.line?, m < n

/-- A new result does not change what older operands stand for. -/
theorem eval_give (h : Older x n) (hn : n ≤ k) : (f.give k d).eval x = f.eval x := by
  unfold eval
  split
  case h_7 m type =>
    have hlt : m < n := h m rfl
    simp [give, Nat.ne_of_lt (Nat.lt_of_lt_of_le hlt hn)]
  all_goals rfl

/-- An activation in which only results from number `n` on are new. -/
structure Grows (f f' : Frame) (n : Nat) : Prop where
  eval : ∀ x, Older x n → f'.eval x = f.eval x
  texts : f'.texts = f.texts

theorem Grows.refl (f : Frame) (n : Nat) : f.Grows f n := ⟨fun _ _ => rfl, rfl⟩

theorem Grows.give (h : f.Grows f' n) (hn : n ≤ k) (d : Option Datum) : f.Grows (f'.give k d) n :=
  ⟨fun x hx => (eval_give hx hn).trans (h.eval x hx), h.texts⟩

theorem Older.mono {m : Nat} (h : Older x n) (hnm : n ≤ m) : Older x m :=
  fun k hk => Nat.lt_of_lt_of_le (h k hk) hnm

theorem Grows.trans {g : Frame} {m : Nat} (h : f.Grows f' n) (h' : f'.Grows g m) (hnm : n ≤ m) :
    f.Grows g n :=
  ⟨fun x hx => (h'.eval x (hx.mono hnm)).trans (h.eval x hx), h'.texts.trans h.texts⟩

theorem older_result {m : Nat} (h : m < n) (type : Ty) : Older (.result m type) n := by
  intro k hk
  obtain rfl := Option.some.inj hk
  exact h

theorem eval_given (f : Frame) (n : Nat) (d : Option Datum) (type : Ty) :
    (f.give n d).eval (.result n type) = d := by
  simp [eval, give]

theorem eval_other {m : Nat} (h : m ≠ n) (f : Frame) (d : Option Datum) (type : Ty) :
    (f.give n d).eval (.result m type) = f.eval (.result m type) := by
  simp [eval, give, h]

theorem eval_word (f : Frame) (m : Int) : f.eval (.word m) = some (.int64 (BitVec.ofInt 64 m)) := rfl

/-- The activation behind the instructions `is`, the first of which has the number `n`. It is
missing if one of them does not give a result. -/
def through (strcmp : Comparison) (f : Frame) (n : Nat) : List Instr → Option Frame
  | [] => some f
  | i :: is =>
    match i.effect strcmp f with
    | .give d => (f.give n d).through strcmp (n + 1) is
    | _ => none

theorem through_cons {is : List Instr} (h : i.effect strcmp f = .give d) :
    f.through strcmp n (i :: is) = (f.give n d).through strcmp (n + 1) is := by
  rw [through, h]

end Frame

namespace Body

/-- The instructions `is` stand in block `k` from place `j` on, with numbers from `n` on. -/
def Has (body : Body) (k j n : Nat) (is : List Instr) : Prop :=
  ∀ m i, is[m]? = some i → body.line? k (j + m) = some ⟨n + m, i⟩

variable {body : Body} {j : Nat} {is : List Instr}

theorem Has.cons (h : body.line? k j = some ⟨n, i⟩) (hrest : body.Has k (j + 1) (n + 1) is) :
    body.Has k j n (i :: is) := by
  intro m i' hi
  cases m with
  | zero => simpa [← Option.some.inj hi] using h
  | succ m => simpa [Nat.add_left_comm, Nat.add_comm] using hrest m i' hi

theorem Has.head (h : body.Has k j n (i :: is)) : body.line? k j = some ⟨n, i⟩ := h 0 i rfl

theorem Has.tail (h : body.Has k j n (i :: is)) : body.Has k (j + 1) (n + 1) is := by
  intro m i' hi
  simpa [Nat.add_left_comm, Nat.add_comm] using h (m + 1) i' hi

end Body

namespace Writer

/-- The state with more instructions in the current block. -/
def emits (s : Writer) (is : List Instr) : Writer := is.foldl emitted s

theorem emits_cons (s : Writer) (i : Instr) (is : List Instr) :
    s.emits (i :: is) = (s.emitted i).emits is := rfl

@[simp] theorem current_emits (s : Writer) (is : List Instr) : (s.emits is).current = s.current := by
  induction is generalizing s with
  | nil => rfl
  | cons i is ih => rw [emits_cons, ih, current_emitted]

@[simp] theorem terminator?_emits (s : Writer) (is : List Instr) :
    (s.emits is).body.terminator? k = s.body.terminator? k := by
  induction is generalizing s with
  | nil => rfl
  | cons i is ih => rw [emits_cons, ih, terminator?_emitted]

@[simp] theorem literals_emits (s : Writer) (is : List Instr) :
    (s.emits is).literals = s.literals := by
  induction is generalizing s with
  | nil => rfl
  | cons i is ih => rw [emits_cons, ih]; rfl

theorem count_emitted (h : s.current < s.blocks.size) (i : Instr) :
    (s.emitted i).body.count k = s.body.count k + if k = s.current then 1 else 0 := by
  unfold Body.count
  rw [getElem?_emitted]
  by_cases hk : k = s.current
  · subst hk
    obtain ⟨b, hb⟩ := exists_current h
    simp [hb]
  · simp [hk]

theorem count_emits (h : s.current < s.blocks.size) (is : List Instr) :
    (s.emits is).body.count s.current = s.body.count s.current + is.length := by
  induction is generalizing s with
  | nil => rfl
  | cons i is ih =>
      have hnext := ih (s := s.emitted i) (by simpa using h)
      rw [current_emitted, count_emitted h, if_pos rfl] at hnext
      rw [emits_cons, hnext, List.length_cons]
      omega

/-- Other places stay as they are. -/
theorem line?_emits_of_lt (h : s.current < s.blocks.size) (is : List Instr) {j : Nat}
    (hj : k ≠ s.current ∨ j < s.body.count k) :
    (s.emits is).body.line? k j = s.body.line? k j := by
  induction is generalizing s with
  | nil => rfl
  | cons i is ih =>
      rw [emits_cons, ih (s := s.emitted i) (by simpa using h), line?_emitted h, if_neg]
      · rintro ⟨rfl, rfl⟩
        rcases hj with hk | hlt
        · exact hk rfl
        · exact Nat.lt_irrefl _ hlt
      · rw [current_emitted, count_emitted h]
        exact hj.imp_right fun hlt => Nat.lt_add_right _ hlt

/-- The instructions that are written stand where they are written to. -/
theorem has_emits (h : s.current < s.blocks.size) (is : List Instr) :
    (s.emits is).body.Has s.current (s.body.count s.current) s.next is := by
  induction is generalizing s with
  | nil => exact nofun
  | cons i is ih =>
      have hsize : (s.emitted i).current < (s.emitted i).blocks.size := by simpa using h
      have hcount : (s.emitted i).body.count s.current = s.body.count s.current + 1 := by
        rw [count_emitted h, if_pos rfl]
      have hrest := ih hsize
      rw [current_emitted, hcount] at hrest
      refine .cons ?_ hrest
      rw [emits_cons, line?_emits_of_lt hsize is (Or.inr (by simp [hcount])), line?_emitted h,
        if_pos ⟨rfl, rfl⟩]

end Writer

/-! Running through a block -/

theorem Config.move_give {body : Body} {j m : Nat} (hline : body.line? k j = some ⟨m, i⟩)
    (heffect : i.effect strcmp f = .give d) :
    Config.move strcmp body ⟨k, j, f⟩ = .next ⟨k, j + 1, f.give m d⟩ := by
  simp only [Config.move, hline, heffect]

theorem Config.move_abort {body : Body} {j m : Nat} {message : List UInt8}
    (hline : body.line? k j = some ⟨m, i⟩) (heffect : i.effect strcmp f = .abort message) :
    Config.move strcmp body ⟨k, j, f⟩ = .abort message := by
  simp only [Config.move, hline, heffect]

/-- A call that ends the program. -/
theorem effect_abort {name : String} {bytes : List UInt8} (h : f.texts name = some bytes)
    (length : Nat) : (Instr.call abort.address [.firstByte name length]).effect strcmp f =
      .abort (upToZero bytes) := by
  have hargs : [Operand.firstByte name length].map f.eval = [some (.text bytes)] := by
    rw [List.map_singleton, Frame.eval, h, Option.map_some]
  change libraryCall strcmp abort.name _ = _
  rw [hargs, libraryCall, if_pos rfl]

/-- Instructions that give results are run one after the other. -/
theorem Ends.straight {body : Body} {stop : Nat × Nat} {e : End} {is : List Instr} {j : Nat}
    (hlines : body.Has k j n is) (hstop : ∀ m < is.length, (k, j + m) ≠ stop)
    (hthrough : f.through strcmp n is = some f')
    (rest : Ends strcmp body stop ⟨k, j + is.length, f'⟩ e) :
    Ends strcmp body stop ⟨k, j, f⟩ e := by
  induction is generalizing f n j with
  | nil =>
      obtain rfl := Option.some.inj hthrough
      exact rest
  | cons i is ih =>
      unfold Frame.through at hthrough
      split at hthrough
      next d heffect =>
        refine .next (hstop 0 (by simp)) (Config.move_give hlines.head heffect)
          (ih hlines.tail (fun m hm => ?_) hthrough ?_)
        · rw [Nat.add_assoc, Nat.add_comm 1 m]
          exact hstop (m + 1) (by simpa using hm)
        · rw [Nat.add_assoc, Nat.add_comm 1]
          exact rest
      next => cases hthrough

/-- Instructions that were written to the current block are run to their end. -/
theorem emits_ends {is : List Instr} {g : Frame} (hcur : s.current < s.blocks.size)
    (hthrough : f.through strcmp s.next is = some g) :
    Ends strcmp (s.emits is).body
      ((s.emits is).current, (s.emits is).body.count (s.emits is).current)
      ⟨s.current, s.body.count s.current, f⟩ (.arrives g) := by
  rw [Writer.current_emits, Writer.count_emits hcur]
  refine .straight (Writer.has_emits hcur is) (fun m hm h => ?_) hthrough .arrives
  have hlt := (Prod.mk.inj h).2
  omega

/-! Operands -/

/-- The operand `arg` of the graph has been written, and it stands for `d`. -/
structure Supplies (s : Writer) (f : Frame) (arg : Option Nat) (d : Datum) (x : Operand) :
    Prop where
  stored : ∃ i, arg = some i ∧ s.results[i]? = some (some x)
  type : x.type = d.type
  eval : f.eval x = some d
  older : Frame.Older x s.next

theorem argument_run {c : Context} {v : Graph.Instr} {arg : Option Nat} {e : Datum}
    (hv : v.args[n]? = some arg) (h : Supplies s f arg e x) :
    (Write.argument c v n).run s = .ok (x, s) := by
  obtain ⟨i, rfl, hi⟩ := h.stored
  unfold Write.argument
  rw [hv]
  exact operand_stored c hi

end ClassLang.Llvm
