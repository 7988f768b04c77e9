import ClassLang.Proofs.Formed.Stmt
import ClassLang.Proofs.Llvm.Expr

/-!
Running statements keeps to the types of LLVM. A variable has one slot, whose type is that of
the variable, since no two variables of a function are declared at the same place.
-/

namespace ClassLang.Graph.Build

open Llvm (Env GraphTyped InstrTyped Carries resultType?)
open Typed (FactsFormed)

variable {e : Env} {ps : List Pos} {s s' : Builder} {t : Ty} {vars vars' : List Var}
  {ls : Layouts} {Γ : Typed.Context} {type : Llvm.Ty}

/-- A new slot hides no other one. -/
theorem keeps_newSlot {v : Var} {type : Llvm.Ty} (htype : Llvm.Ty.ofTy? v.ty = some type)
    (hvalue : type.isValue = true) (hs : Slots vars s) (hfresh : ∀ w ∈ vars, w.pos ≠ v.pos) :
    Keeps e [v.pos] s (newSlot v) fun i s' => Slots (v :: vars) s' ∧ Reserves s' i v.ty := by
  have hgrows : Grows [v.pos] s (s.slotted v) := by
    refine ⟨fun i w hw => Func.instr?_inserted_of hw _ _ _, fun p hp => ?_⟩
    have hne : (p == v.pos) = false := beq_eq_false_iff_ne.2 fun heq => hp (by simp [heq])
    exact (List.lookup_cons ..).trans (by rw [hne])
  have hslot : Reserves (s.slotted v) s.func.instrs.size v.ty :=
    ⟨_, (Func.instr?_inserted ..).trans (if_pos rfl), rfl, rfl⟩
  refine .of_run (s.slotted v) (run_newSlot v s) (fun h => h.inserted _ _ ?_) hgrows
    ⟨List.forall_mem_cons.2 ⟨⟨_, List.lookup_cons_self, hslot⟩, ?_⟩, hslot⟩
  · refine .alloca rfl hvalue ?_
    simp [resultType?, htype]
  · exact hs.grow hgrows fun w hw hmem => hfresh w hw (List.mem_singleton.1 hmem)

/-- A variable gets a slot with a value of its type. -/
theorem keeps_bindVar {v : Var} {i : Nat} {pos : Pos} (htype : Llvm.Ty.ofTy? v.ty = some type)
    (hvalue : type.isValue = true) (hs : Slots vars s) (hfresh : ∀ w ∈ vars, w.pos ≠ v.pos)
    (hi : Carries s.func (some i) type) :
    Keeps e [v.pos] s (Lower.bindVar v i pos) fun _ s' => Slots (v :: vars) s' := by
  refine (keeps_newSlot htype hvalue hs hfresh).seq fun slot s₁ h₁ ⟨hs, hslot⟩ => ?_
  refine Keeps.mono (Keeps.imp (Keeps.store hslot htype hvalue (hi.mono h₁.instrs))
    fun _ s₂ h₂ _ => ?_) (List.nil_subset _)
  exact hs.keep h₂

theorem keeps_rejoin (done : Nat) : Keeps e ps s (Lower.rejoin done) fun _ _ => True := by
  refine .look ?_
  split
  · exact (Keeps.removeBlock done).seq fun _ _ _ _ => .enter none
  · exact .enter _

theorem keeps_increment {slot : Nat} (hslot : Reserves s slot .int) :
    Keeps e ps s (Lower.increment slot) fun _ _ => True := by
  have hload : Keeps e ps s (emit .load (some .int) [slot] Pos.none) fun i s' => Holds s' i .int :=
    .load hslot rfl rfl
  refine hload.seq fun i s₁ h₁ hi => ?_
  have hone : Keeps e ps s₁ (emitWith .const64 (some .int) [] Pos.none 1 none)
      fun i s' => Holds s' i .int := .operation rfl (by simp) .nil rfl
  refine hone.seq fun one s₂ h₂ hone => ?_
  have hsum : Keeps e ps s₂ (emit .add64 (some .int) [i, one] Pos.none)
      fun i s' => Holds s' i .int :=
    .operation rfl (by simp) (.cons ((hi.grow h₂).carries rfl) (.cons (hone.carries rfl) .nil)) rfl
  refine hsum.seq fun next s₃ h₃ hnext => ?_
  exact .store (((hslot.grow h₁).grow h₂).grow h₃) rfl rfl (hnext.carries rfl)

theorem factsFormed_unparen {T : Table} {x : Typed.Expr} (h : FactsFormed T x.facts) :
    FactsFormed T x.unparen.facts := by
  induction x using Typed.Expr.unparen.induct with
  | case1 pos x ih =>
      rw [Typed.Expr.facts, Typed.factsFormed_cons] at h
      exact ih h.2
  | case2 x hne =>
      rw [Typed.Expr.unparen]
      · exact h
      · exact hne

theorem keeps_assign {x y : Typed.Expr} (he : e.Covers Γ) (hΓ : Γ.Sound) (hx : x.Ok Γ vars)
    (hvariable : x.isVariable = true) (hy : y.Ok Γ vars) (hfits : Γ.table.Fits y.ty x.ty)
    (hxfacts : FactsFormed Γ.table x.facts) (hyfacts : FactsFormed Γ.table y.facts)
    (hs : Slots vars s) :
    Keeps e [] s (Lower.assign (Layouts.build Γ.table) x y) fun _ _ => True := by
  have hok := hx.unparen
  have hfacts := factsFormed_unparen hxfacts
  have hlowers := lowers_expr he hΓ hy hyfacts
  rw [← x.ty_unparen] at hfits
  unfold Lower.assign
  obtain ⟨id, v, hvar⟩ | ⟨z, sel, f, ty, hfield⟩ := unparen_of_isVariable hvariable
  · rw [hvar] at hok hfits ⊢
    cases hok with
    | var found known value =>
        obtain ⟨type, htype⟩ := Llvm.Ty.exists_ofTy? known
        have hvalue := Llvm.Ty.isValue_ofTy? htype known value
        refine (Keeps.slotOf (List.mem_of_find?_eq_some found) hs).seq fun slot s₁ h₁ hslot => ?_
        refine (hlowers s₁ (hs.keep h₁)).seq fun i s₂ h₂ hi => ?_
        exact .store (hslot.grow h₂) htype hvalue
          (hi.carries ((Llvm.Ty.ofTy?_of_fits hfits).trans htype))
  · rw [hfield] at hok hfacts hfits ⊢
    cases hok with
    | field receiver cls found =>
        simp only [Typed.Expr.facts, Typed.factsFormed_cons, Typed.factsFormed_append] at hfacts
        obtain ⟨_, hz, _⟩ := hfacts
        obtain ⟨name, hname, _⟩ := Option.bind_eq_some_iff.1 cls
        obtain ⟨type, htype, hvalue⟩ := exists_fieldType hΓ (Table.classOf?_mem cls) found
          ((Typed.Expr.ty_formed hz).args_reference cls)
        refine (lowers_expr he hΓ receiver hz s hs).seq fun obj s₁ h₁ hobj => ?_
        refine (hlowers s₁ (hs.keep h₁)).seq fun i s₂ h₂ hi => ?_
        refine keeps_fieldOffset.seq fun offset s₃ h₃ _ => ?_
        refine keeps_storeField hvalue ?_ ?_
        · exact ((hobj.grow h₂).grow h₃).carries (Llvm.Ty.ofTy?_of_className? hname)
        · exact (hi.grow h₃).carries ((Llvm.Ty.ofTy?_of_fits hfits).trans htype)

/-- What is in sight behind a statement was in sight before it or is declared in it. -/
theorem mem_or_binders {result : Ty} {st : Typed.Stmt} (h : st.Ok Γ result vars vars') :
    ∀ v ∈ vars', v ∈ vars ∨ v.pos ∈ st.binders := by
  cases h with
  | bind =>
      intro v hv
      rcases List.mem_cons.1 hv with rfl | hv
      · exact Or.inr (List.mem_singleton_self _)
      · exact Or.inl hv
  | _ => exact fun v hv => Or.inl hv

variable {result : Ty}

/-- The slots that there are stay where they are. -/
theorem Keeps.framed {m : Build Unit} (h : Keeps e ps s m fun _ _ => True) (hs : Slots vars s)
    (hfresh : ∀ v ∈ vars, v.pos ∉ ps) : Keeps e ps s m fun _ s' => Slots vars s' :=
  h.imp fun _ _ hgrows _ => hs.grow hgrows hfresh

mutual

/-- Running a well typed statement keeps to the types. -/
theorem keeps_stmt {st : Typed.Stmt} {vars vars' : List Var} {s : Builder} (he : e.Covers Γ) (hΓ : Γ.Sound)
    (hresult : Llvm.Ty.ofTy? result = some e.head.result) (h : st.Ok Γ result vars vars')
    (hfacts : FactsFormed Γ.table st.facts) (hnodup : st.binders.Nodup)
    (hfresh : ∀ v ∈ vars, v.pos ∉ st.binders) (hs : Slots vars s) :
    Keeps e st.binders s (Lower.stmt (Layouts.build Γ.table) st) fun _ s' => Slots vars' s' := by
  cases h with
  | empty =>
      rw [Lower.stmt]
      exact .pure hs
  | expr ok _ =>
      rw [Lower.stmt]
      rw [Typed.Stmt.facts] at hfacts
      exact .framed (((lowers_expr he hΓ ok hfacts s hs).discard.trivial).mono
        (List.nil_subset _)) hs hfresh
  | bind ok known value fits =>
      rw [Lower.stmt]
      rw [Typed.Stmt.facts, Typed.factsFormed_append] at hfacts
      rw [Typed.Stmt.binders] at hfresh ⊢
      obtain ⟨type, htype⟩ := Llvm.Ty.exists_ofTy? known
      refine (lowers_expr he hΓ ok hfacts.2 s hs).bind (List.nil_subset _) fun i s₁ h₁ hi => ?_
      refine keeps_bindVar htype (Llvm.Ty.isValue_ofTy? htype known value) (hs.keep h₁)
        (fun w hw heq => hfresh w hw (List.mem_singleton.2 heq)) ?_
      exact hi.carries ((Llvm.Ty.ofTy?_of_fits fits).trans htype)
  | assign left assignable right fits =>
      rw [Lower.stmt]
      rw [Typed.Stmt.facts, Typed.factsFormed_append] at hfacts
      exact .framed (keeps_assign he hΓ left assignable right fits hfacts.1 hfacts.2 hs) hs hfresh
  | block body =>
      rw [Lower.stmt, Lower.block]
      rw [Typed.Stmt.facts, Typed.Block.facts] at hfacts
      rw [Typed.Stmt.binders, Typed.Block.binders] at hnodup hfresh ⊢
      exact .framed (keeps_stmts he hΓ hresult body hfacts hnodup hfresh hs) hs hfresh
  | ifThen ok bool body =>
      rw [Lower.stmt, Lower.block]
      rw [Typed.Stmt.facts, Typed.Block.facts, Typed.factsFormed_append, Typed.factsFormed_append]
        at hfacts
      rw [Typed.Stmt.binders, Typed.Block.binders] at hnodup hfresh ⊢
      refine .framed ?_ hs hfresh
      refine (lowers_expr he hΓ ok hfacts.1.1 s hs).bind (List.nil_subset _) fun c s₁ h₁ hc => ?_
      rw [bool] at hc
      refine Keeps.newBlock.seq fun yes s₂ h₂ _ => Keeps.newBlock.seq fun done s₃ h₃ _ => ?_
      refine (Keeps.branch ((hc.grow h₂).grow h₃) yes done).seq fun _ s₄ h₄ _ =>
        (Keeps.enter _).seq fun _ s₅ h₅ _ => ?_
      have hs := (hs.keep h₁).grow (((h₂.trans h₃).trans h₄).trans h₅) hfresh
      exact (keeps_stmts he hΓ hresult body hfacts.1.2 hnodup hfresh hs).seq fun _ _ _ _ =>
        (Keeps.jump done).seq fun _ _ _ _ => keeps_rejoin done
  | ifElse ok bool body alternative =>
      rw [Lower.stmt, Lower.block]
      rw [Typed.Stmt.facts, Typed.Block.facts, Typed.factsFormed_append, Typed.factsFormed_append]
        at hfacts
      rw [Typed.Stmt.binders, Typed.Block.binders] at hnodup hfresh ⊢
      obtain ⟨hnodup₁, hnodup₂, _⟩ := List.nodup_append.1 hnodup
      refine .framed ?_ hs hfresh
      refine (lowers_expr he hΓ ok hfacts.1.1 s hs).bind (List.nil_subset _) fun c s₁ h₁ hc => ?_
      rw [bool] at hc
      refine Keeps.newBlock.seq fun yes s₂ h₂ _ => Keeps.newBlock.seq fun done s₃ h₃ _ =>
        Keeps.newBlock.seq fun no s₄ h₄ _ => ?_
      refine (Keeps.branch (((hc.grow h₂).grow h₃).grow h₄) yes no).seq fun _ s₅ h₅ _ =>
        (Keeps.enter _).seq fun _ s₆ h₆ _ => ?_
      have hs := (hs.keep h₁).grow ((((h₂.trans h₃).trans h₄).trans h₅).trans h₆) hfresh
      have hbody := keeps_stmts he hΓ hresult body hfacts.1.2 hnodup₁
        (fun v hv hmem => hfresh v hv (List.mem_append_left _ hmem)) hs
      refine (hbody.mono (List.subset_append_left _ _)).seq fun _ s₇ h₇ _ =>
        (Keeps.jump done).seq fun _ s₈ h₈ _ => (Keeps.enter _).seq fun _ s₉ h₉ _ => ?_
      have hs := hs.grow ((h₇.trans h₈).trans h₉) hfresh
      have hother := keeps_stmt he hΓ hresult alternative hfacts.2 hnodup₂
        (fun v hv hmem => hfresh v hv (List.mem_append_right _ hmem)) hs
      exact (hother.mono (List.subset_append_right _ _)).seq fun _ _ _ _ =>
        (Keeps.jump done).seq fun _ _ _ _ => keeps_rejoin done
  | whileLoop ok bool body =>
      rw [Lower.stmt, Lower.block]
      rw [Typed.Stmt.facts, Typed.Block.facts, Typed.factsFormed_append] at hfacts
      rw [Typed.Stmt.binders, Typed.Block.binders] at hnodup hfresh ⊢
      refine .framed ?_ hs hfresh
      refine Keeps.newBlock.seq fun header s₁ h₁ _ => Keeps.newBlock.seq fun inside s₂ h₂ _ =>
        Keeps.newBlock.seq fun done s₃ h₃ _ => (Keeps.jump header).seq fun _ s₄ h₄ _ =>
        (Keeps.enter _).seq fun _ s₅ h₅ _ => ?_
      have hs := hs.grow ((((h₁.trans h₂).trans h₃).trans h₄).trans h₅) hfresh
      refine (lowers_expr he hΓ ok hfacts.1 s₅ hs).bind (List.nil_subset _) fun c s₆ h₆ hc => ?_
      rw [bool] at hc
      refine (Keeps.branch hc inside done).seq fun _ s₇ h₇ _ =>
        (Keeps.enter _).seq fun _ s₈ h₈ _ => ?_
      have hs := (hs.keep h₆).grow (h₇.trans h₈) hfresh
      exact (keeps_stmts he hΓ hresult body hfacts.2 hnodup hfresh hs).seq fun _ _ _ _ =>
        (Keeps.jump header).seq fun _ _ _ _ => .enter _
  | @forLoop _ _ pos start v low high b lowOk lowInt highOk highInt int body =>
      rw [Lower.stmt, Lower.block]
      simp only [Typed.Stmt.facts, Typed.Block.facts, Typed.factsFormed_append] at hfacts
      rw [Typed.Stmt.binders, Typed.Block.binders] at hnodup hfresh ⊢
      obtain ⟨⟨⟨_, hlow⟩, hhigh⟩, hbody⟩ := hfacts
      obtain ⟨hvar, hnodup⟩ := List.nodup_cons.1 hnodup
      refine .framed ?_ hs hfresh
      refine (lowers_expr he hΓ lowOk hlow s hs).bind (List.nil_subset _) fun first s₁ h₁ hfirst => ?_
      have hs := hs.keep h₁
      refine (lowers_expr he hΓ highOk hhigh s₁ hs).bind (List.nil_subset _)
        fun last s₂ h₂ hlast => ?_
      have hs := hs.keep h₂
      rw [lowInt] at hfirst
      rw [highInt] at hlast
      have htype : Llvm.Ty.ofTy? v.ty = some .i64 := by rw [int]; rfl
      refine (keeps_bindVar htype rfl hs
        (fun w hw heq => hfresh w hw (by rw [heq]; exact List.mem_cons_self))
        ((hfirst.grow h₂).carries rfl)).bind (by simp) fun _ s₃ h₃ hs => ?_
      have hlast := hlast.grow h₃
      have hfresh : ∀ w ∈ v :: vars, w.pos ∉ Typed.bindersAll b :=
        List.forall_mem_cons.2 ⟨hvar, fun w hw hmem => hfresh w hw (List.mem_cons_of_mem _ hmem)⟩
      refine Keeps.mono (?_ : Keeps e (Typed.bindersAll b) s₃ _ _) (List.subset_cons_self _ _)
      refine (Keeps.slotOf List.mem_cons_self hs).seq fun slot s₄ h₄ hslot => ?_
      rw [int] at hslot
      refine Keeps.newBlock.seq fun header s₅ h₅ _ => Keeps.newBlock.seq fun inside s₆ h₆ _ =>
        Keeps.newBlock.seq fun done s₇ h₇ _ => (Keeps.jump header).seq fun _ s₈ h₈ _ =>
        (Keeps.enter _).seq fun _ s₉ h₉ _ => ?_
      have hgrows := ((((h₄.trans h₅).trans h₆).trans h₇).trans h₈).trans h₉
      have hslot := hslot.grow ((((h₅.trans h₆).trans h₇).trans h₈).trans h₉)
      have hload : Keeps e (Typed.bindersAll b) s₉ (emit .load (some .int) [slot] Pos.none)
          fun i s' => Holds s' i .int := .load hslot rfl rfl
      refine hload.seq fun i s₁₀ h₁₀ hi => ?_
      have hbound : Keeps e (Typed.bindersAll b) s₁₀ (emit .leq64 (some .bool) [i, last] Pos.none)
          fun i s' => Holds s' i .bool :=
        .operation rfl (by simp) (.cons (hi.carries rfl)
          (.cons ((hlast.grow (hgrows.trans h₁₀)).carries rfl) .nil)) rfl
      refine hbound.seq fun c s₁₁ h₁₁ hc => (Keeps.branch hc inside done).seq fun _ s₁₂ h₁₂ _ =>
        (Keeps.enter _).seq fun _ s₁₃ h₁₃ _ => ?_
      have hrest := ((h₁₀.trans h₁₁).trans h₁₂).trans h₁₃
      refine (keeps_stmts he hΓ hresult body hbody hnodup hfresh
        (hs.grow (hgrows.trans hrest) hfresh)).seq fun _ s₁₄ h₁₄ _ => .look ?_
      have hslot := (hslot.grow hrest).grow h₁₄
      split
      · exact (keeps_increment hslot).seq fun _ _ _ _ => (Keeps.jump header).seq fun _ _ _ _ =>
          .enter _
      · exact .enter _
  | ret void =>
      rw [Lower.stmt]
      exact .framed ((Keeps.ret (by simp)).seq fun _ _ _ _ => .enter none) hs hfresh
  | retValue ok value fits =>
      rw [Lower.stmt]
      rw [Typed.Stmt.facts] at hfacts
      refine .framed ?_ hs hfresh
      refine (lowers_expr he hΓ ok hfacts s hs).bind (List.nil_subset _) fun i s₁ h₁ hi => ?_
      refine (Keeps.ret fun j hj => ?_).seq fun _ _ _ _ => .enter none
      obtain rfl : i = j := Option.some.inj hj
      exact hi.carries ((Llvm.Ty.ofTy?_of_fits fits).trans hresult)

/-- Running well typed statements keeps to the types. -/
theorem keeps_stmts {b : List Typed.Stmt} {vars vars' : List Var} {s : Builder} (he : e.Covers Γ) (hΓ : Γ.Sound)
    (hresult : Llvm.Ty.ofTy? result = some e.head.result)
    (h : Typed.StmtsOk Γ result vars b vars')
    (hfacts : FactsFormed Γ.table (Typed.Stmt.factsOf b)) (hnodup : (Typed.bindersAll b).Nodup)
    (hfresh : ∀ v ∈ vars, v.pos ∉ Typed.bindersAll b) (hs : Slots vars s) :
    Keeps e (Typed.bindersAll b) s (Lower.stmts (Layouts.build Γ.table) b) fun _ _ => True := by
  cases h with
  | nil =>
      rw [Lower.stmts]
      exact .pure True.intro
  | cons first rest_ok =>
      rw [Typed.Stmt.factsOf, Typed.factsFormed_append] at hfacts
      rw [Typed.bindersAll] at hnodup hfresh ⊢
      obtain ⟨hnodup₁, hnodup₂, hdisjoint⟩ := List.nodup_append.1 hnodup
      rw [Lower.stmts]
      refine .look ?_
      split
      next =>
        have hfirst := keeps_stmt he hΓ hresult first hfacts.1 hnodup₁
          (fun v hv hmem => hfresh v hv (List.mem_append_left _ hmem)) hs
        refine hfirst.bind (List.subset_append_left _ _) fun _ s₁ h₁ hs => ?_
        refine (keeps_stmts he hΓ hresult rest_ok hfacts.2 hnodup₂ (fun v hv hmem => ?_) hs).mono
          (List.subset_append_right _ _)
        obtain hv | hv := mem_or_binders first v hv
        · exact hfresh v hv (List.mem_append_right _ hmem)
        · exact hdisjoint _ hv _ hmem rfl
      next => exact .pure True.intro

end

end ClassLang.Graph.Build

/-!
The graph of a function keeps to the types of LLVM. Its arguments have the types that the
declaration of the function gives them, the receiver first.
-/

namespace ClassLang.Graph

open Llvm (Env GraphTyped InstrTyped Carries resultType?)
open Typed (FactsFormed)

namespace Build

variable {e : Env} {ps : List Pos} {s : Builder} {vars : List Var} {Γ : Typed.Context}

/-- The parameter `p` of a declaration takes the values of the variable `v`. -/
def Takes (v : Var) (p : Llvm.Param) : Prop :=
  Llvm.Ty.ofTy? v.ty = some p.type ∧ p.type.isValue = true

/-- An argument is stored into a slot of its own. -/
theorem keeps_parameter {v : Var} {index : Int64} {i : Nat} {p : Llvm.Param}
    (hplace : index.toInt + (if e.method then 1 else 0) = i) (hp : e.head.params[i]? = some p)
    (htakes : Takes v p) (hs : Slots vars s) (hfresh : ∀ w ∈ vars, w.pos ≠ v.pos) :
    Keeps e [v.pos] s (Lower.parameter v index) fun _ s' => Slots (v :: vars) s' := by
  obtain ⟨htype, hvalue⟩ := htakes
  have harg : Keeps e [] s (emitAt 0 .arg (some v.ty) [] v.pos index (some (.text v.name)))
      fun i s' => Holds s' i v.ty := by
    refine (Keeps.emitAt 0 fun id block => ?_).value (fun _ _ => rfl) (fun _ _ => rfl) htype fun _ _ => htype
    exact .arg rfl hplace hp htype
  refine harg.bind (List.nil_subset _) fun k s₁ h₁ hk => ?_
  refine (keeps_newSlot htype hvalue (hs.keep h₁) hfresh).seq fun slot s₂ h₂ ⟨hs, hslot⟩ => ?_
  have hstore : Keeps e [] s₂ (discard (emitAt 0 .store none [slot, k] Pos.none 0 none))
      fun _ _ => True := by
    refine ((Keeps.emitAt 0 fun id block => ?_).trivial.discard).trivial
    exact .store rfl hvalue (.cons (hslot.carries htype) (.cons ((hk.grow h₂).carries htype) .nil))
  exact (hstore.imp fun _ s₃ h₃ _ => hs.keep h₃).mono (List.nil_subset _)

/-- All arguments are stored into slots. The parameters of the declaration from place `k` on
take them. -/
theorem keeps_parameters {l : List Var} {n k : Nat} (hplace : n + (if e.method then 1 else 0) = k)
    (hlimit : n + l.length ≤ 2 ^ 63) (htakes : List.Forall₂ Takes l (e.head.params.drop k))
    (hs : Slots vars s) (hnodup : (l.map (·.pos)).Nodup)
    (hfresh : ∀ w ∈ vars, w.pos ∉ l.map (·.pos)) :
    Keeps e (l.map (·.pos)) s (Lower.parameters n l) fun _ s' => Slots (l ++ vars) s' := by
  induction l generalizing n k vars s with
  | nil =>
      rw [Lower.parameters]
      exact .pure hs
  | cons v rest ih =>
      rw [Lower.parameters]
      rw [List.map_cons] at hnodup hfresh ⊢
      obtain ⟨hvar, hnodup⟩ := List.nodup_cons.1 hnodup
      obtain ⟨p, ps, hp, hrest, hdrop⟩ := List.forall₂_cons_left_iff.1 htakes
      have hget : e.head.params[k]? = some p := by
        rw [← List.head?_drop, hdrop, List.head?_cons]
      have htail : e.head.params.drop (k + 1) = ps := by
        rw [← List.tail_drop, hdrop, List.tail_cons]
      have hindex : (Int64.ofNat n).toInt + (if e.method then 1 else 0) = (k : Int) := by
        rw [← hplace, Int64.toInt_ofNat_of_lt (by simp at hlimit; omega)]
        split <;> simp
      have hfirst : Keeps e [v.pos] s (Lower.parameter v (Int64.ofNat n))
          fun _ s' => Slots (v :: vars) s' :=
        keeps_parameter hindex hget hp hs fun w hw heq =>
          hfresh w hw (by rw [heq]; exact List.mem_cons_self)
      refine hfirst.bind (by simp) fun _ s₁ h₁ hs => ?_
      refine Keeps.mono ((ih (n := n + 1) (k := k + 1) (by omega) (by simp at hlimit; omega)
        (by rwa [htail]) hs hnodup (List.forall_mem_cons.2 ⟨hvar, fun w hw hmem =>
          hfresh w hw (List.mem_cons_of_mem _ hmem)⟩)).imp fun _ s₂ _ hs w hw => ?_)
        (List.subset_cons_self _ _)
      exact hs w (by simpa [or_left_comm] using hw)

/-- The declaration of a function has the types of its signature, behind that of the receiver. -/
structure Declares (e : Env) (g : Typed.Func) : Prop where
  method : e.method = g.header.recv.isSome
  receiver : ∀ v ∈ g.header.recv, Llvm.Ty.ofTy? v.ty = some .bytes
  types : ∃ params, g.header.sig.Erases params e.head.result ∧
    e.head.params.map (·.type) = (if e.method then [.bytes] else []) ++ params

/-- The parameters of a declaration take the parameters of its function. -/
theorem takes_params {g : Typed.Func} (hg : g.Ok Γ) (h : Declares e g) :
    List.Forall₂ Takes (g.header.params.map (·.1))
      (e.head.params.drop (if e.method then 1 else 0)) := by
  obtain ⟨params, herases, htypes⟩ := h.types
  have hdrop : (e.head.params.drop (if e.method then 1 else 0)).map (·.type) = params := by
    rw [List.map_drop, htypes]
    cases e.method <;> rfl
  have hown : (g.header.params.map (·.1)).map (fun v => Llvm.Ty.ofTy? v.ty) = params.map some := by
    rw [← herases.params, Signature.paramTypes, hg.params]
    simp [Function.comp_def]
  have hvalues : ∀ v ∈ g.header.params.map (·.1), v.ty.Scoped Γ.table.arity Γ.tparams ∧
      v.ty.isVoid = false := fun v hv =>
    hg.types v (List.mem_reverse.2 (List.mem_append_right _ hv))
  rw [← hdrop] at hown
  generalize e.head.params.drop (if e.method then 1 else 0) = declared at hown
  generalize g.header.params.map (·.1) = own at hown hvalues
  induction own generalizing declared with
  | nil =>
      obtain rfl : declared = [] := by simpa using hown.symm
      exact .nil
  | cons v rest ih =>
      cases declared with
      | nil => simp at hown
      | cons p declared =>
          obtain ⟨hv, hrest⟩ := List.cons.inj hown
          obtain ⟨⟨hscoped, hvoid⟩, hvalues⟩ := List.forall_mem_cons.1 hvalues
          exact .cons ⟨hv, Llvm.Ty.isValue_ofTy? hv hscoped hvoid⟩ (ih declared hrest hvalues)

theorem keeps_finish : Keeps e ps s finish fun _ _ => True := by
  unfold finish
  refine .look ?_
  cases s.current with
  | none => exact .pure trivial
  | some b =>
      refine .look ?_
      split
      · exact .ret (by simp)
      · exact .pure trivial

/-- The construction of a well typed function keeps to the types. -/
theorem keeps_funcBody {g : Typed.Func} {body : Typed.Block} (he : e.Covers Γ) (hΓ : Γ.Sound)
    (hg : g.Ok Γ) (hbody : g.body = some body) (hfacts : FactsFormed Γ.table body.facts)
    (hnodup : g.binders.Nodup) (hlimit : g.header.params.length ≤ 2 ^ 63) (h : Declares e g) :
    Keeps e g.binders s (Lower.funcBody (Layouts.build Γ.table) g body) fun _ _ => True := by
  obtain ⟨stmts⟩ := body
  obtain ⟨vars', hok⟩ := hg.body _ hbody
  obtain ⟨params, herases, htypes⟩ := h.types
  have hbinders : g.binders = g.header.recv.toList.map (·.pos) ++
      ((g.header.params.map (·.1)).map (·.pos) ++ Typed.bindersAll stmts) := by
    simp [Typed.Func.binders, hbody, Typed.Block.binders, Function.comp_def]
  rw [hbinders] at hnodup ⊢
  obtain ⟨hrecv, hnodup, hapart⟩ := List.nodup_append.1 hnodup
  obtain ⟨hparams, hnodup, hapart'⟩ := List.nodup_append.1 hnodup
  have hends : ∀ s', Slots (g.header.params.map (·.1) ++ g.header.recv.toList) s' →
      Keeps e (Typed.bindersAll stmts) s' (do
        Lower.block (Layouts.build Γ.table) (.mk stmts)
        finish) fun _ _ => True := by
    intro s' hs
    rw [Lower.block]
    refine (keeps_stmts he hΓ herases.result hok hfacts hnodup (fun v hv hmem => ?_)
      fun v hv => hs v ?_).seq fun _ s₁ _ _ => keeps_finish
    · rcases List.mem_append.1 (List.mem_reverse.1 hv) with hv | hv
      · exact hapart _ (List.mem_map_of_mem hv) _ (List.mem_append_right _ hmem) rfl
      · exact hapart' _ (List.mem_map_of_mem hv) _ hmem rfl
    · rw [List.mem_append, or_comm, ← List.mem_append]
      exact List.mem_reverse.1 hv
  have hrest : ∀ s', Slots g.header.recv.toList s' →
      Keeps e ((g.header.params.map (·.1)).map (·.pos) ++ Typed.bindersAll stmts) s' (do
        Lower.parameters 0 (g.header.params.map (·.1))
        Lower.block (Layouts.build Γ.table) (.mk stmts)
        finish) fun _ _ => True := by
    intro s' hs
    refine (keeps_parameters (n := 0) rfl (by simpa using hlimit) (by simpa using takes_params hg h)
      hs hparams fun w hw hmem => ?_).bind (List.subset_append_left _ _) fun _ s₁ _ hs => ?_
    · exact hapart _ (List.mem_map_of_mem hw) _ (List.mem_append_left _ hmem) rfl
    · exact (hends s₁ hs).mono (List.subset_append_right _ _)
  unfold Lower.funcBody
  cases hr : g.header.recv with
  | none =>
      rw [hr] at hrest
      dsimp only
      split
      · exact (Keeps.fault _).seq fun _ s₁ _ _ => hrest s₁ (by simp [Slots])
      · exact hrest s (by simp [Slots])
  | some v =>
      rw [hr] at hrest
      have hmethod : e.method = true := by rw [h.method, hr]; rfl
      have hlength := congrArg List.length htypes
      rw [hmethod] at htypes
      have htakes : ∃ p, e.head.params[0]? = some p ∧ Takes v p := by
        cases hheads : e.head.params with
        | nil => simp [hheads] at htypes
        | cons p rest =>
            have hp : p.type = .bytes := by simpa [hheads] using (congrArg List.head? htypes)
            exact ⟨p, rfl, by rw [hp]; exact h.receiver v hr, by rw [hp]; rfl⟩
      obtain ⟨p, hp, htakes⟩ := htakes
      have hfirst : Keeps e [v.pos] s (Lower.parameter v (-1)) fun _ s' => Slots [v] s' :=
        keeps_parameter (by rw [hmethod]; decide) hp htakes (by simp [Slots]) (by simp)
      exact hfirst.bind (by simp) fun _ s₁ _ hs =>
        (hrest s₁ hs).mono (List.subset_append_right _ _)

end Build

namespace Func

/-- The graph of a well typed function has operands of the right types. -/
theorem ofTyped_typed {e : Env} {Γ : Typed.Context} {g : Typed.Func} {body : Typed.Block}
    (he : e.Covers Γ) (hΓ : Γ.Sound) (hg : g.Ok Γ) (hbody : g.body = some body)
    (hfacts : FactsFormed Γ.table body.facts) (hnodup : g.binders.Nodup)
    (hlimit : g.header.params.length ≤ 2 ^ 63) (h : Build.Declares e g) :
    GraphTyped e (ofTyped (Layouts.build Γ.table) g body) := by
  have hstart : GraphTyped e
      (Builder.start g.ref.text g.ref g.header.sig (g.header.recv.map (·.ty))).func := by
    have hempty : (Builder.start g.ref.text g.ref g.header.sig
        (g.header.recv.map (·.ty))).func.Empty := ⟨rfl, rfl, rfl, rfl⟩
    have hplain : ∀ b x, (Builder.start g.ref.text g.ref g.header.sig
        (g.header.recv.map (·.ty))).func.block? b = some x → x.kind = .plain := by
      intro b x hx
      rw [hempty.block?] at hx
      split at hx
      · obtain rfl := Option.some.inj hx
        rfl
      · cases hx
    refine ⟨fun i v hv => ?_, fun b x hx hkind => ?_, fun b x hx hkind => ?_⟩
    · rw [hempty.instr?] at hv
      cases hv
    · rw [hplain b x hx] at hkind
      cases hkind
    · rw [hplain b x hx] at hkind
      cases hkind
  exact (Build.keeps_funcBody he hΓ hg hbody hfacts hnodup hlimit h hstart).1

end Func

end ClassLang.Graph
