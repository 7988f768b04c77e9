import Mathlib
import ClassLang.Compile
import ClassLang.Proofs.Check.Limit
import ClassLang.Proofs.Tree.Encoded

/-!
A unit checked with a limit on errors and without one. The limit cuts off what is reported, and the
unit fails with it exactly if it fails without.
-/

namespace ClassLang

namespace Check

variable {n : Nat} {env : Env} {consts : ConstSource}

/-! Collecting -/

theorem register_limited (t : Table) (decls : List Decl) : Limited n (register t decls) := by
  induction decls generalizing t with
  | nil => exact .pure
  | cons d rest ih =>
      unfold register
      split
      · exact ih _
      · exact (Limited.reportAll _).bind fun _ => ih t

theorem allClassParams_limited (t : Table) (list : List ClassInfo) :
    Limited n (allClassParams t list) := by
  induction list generalizing t with
  | nil => exact .pure
  | cons c rest ih =>
      exact ((typeParams_limited _ _).bind fun _ => .pure).bind fun _ => (ih _).bind fun _ => .pure

theorem boundMethods_limited (b : String) (t : Table) (list : List FuncDecl) :
    Limited n (boundMethods b t list) := by
  induction list generalizing t with
  | nil => exact .pure
  | cons d rest ih =>
      unfold boundMethods
      dsimp only
      split
      · exact Limited.report.bind fun _ => ih t
      split
      · exact Limited.report.bind fun _ => ih t
      · exact header_limited.bind fun _ => (ih _).bind fun _ => .pure

theorem allBounds_limited (t : Table) (list : List BoundInfo) : Limited n (allBounds t list) := by
  induction list generalizing t with
  | nil => exact .pure
  | cons b rest ih =>
      exact (boundMethods_limited _ _ _).bind fun _ => (ih _).bind fun _ => .pure

theorem classFields_limited (id : Nat) (scope : Scope Symbol) (t : Table) (list : List FieldDecl) :
    Limited n (classFields id scope t list) := by
  induction list generalizing t with
  | nil => exact .pure
  | cons d rest ih =>
      unfold classFields
      refine varType_limited.bind fun _ => ?_
      split
      · exact ih t
      split
      · exact Limited.report.bind fun _ => ih t
      · exact (ih _).bind fun _ => .pure

theorem overrides_limited {t : Table} {c : ClassInfo} {m : Method} :
    Limited n (overrides t c m) := by
  unfold overrides
  split
  · exact .pure
  split
  · exact .report
  · exact .pure

theorem classMethods_limited (id : Nat) (scope : Scope Symbol) (t : Table) (list : List FuncDecl) :
    Limited n (classMethods id scope t list) := by
  induction list generalizing t with
  | nil => exact .pure
  | cons d rest ih =>
      unfold classMethods
      split
      · exact .pure
      split
      · exact Limited.report.bind fun _ => ih t
      · exact header_limited.bind fun _ => overrides_limited.bind fun _ => (ih _).bind fun _ => .pure

theorem allMembers_limited (t : Table) (ms : List Members) (ids : List Nat) :
    Limited n (allMembers t ms ids) := by
  induction ids generalizing t ms with
  | nil => exact .pure
  | cons id rest ih =>
      unfold allMembers
      split
      · exact ih t ms
      refine Limited.bind ?_ fun _ => ih _ _
      unfold classMembers
      split
      · exact .pure
      · exact (classFields_limited _ _ _ _).bind fun _ =>
          (classMethods_limited _ _ _ _).bind fun _ => .pure

theorem signatures_limited (t : Table) (list : List FuncDecl) : Limited n (signatures t list) := by
  induction list with
  | nil => exact .pure
  | cons d rest ih =>
      unfold signatures
      dsimp only
      split
      · exact Limited.report.bind fun _ => header_limited.bind fun _ => ih.bind fun _ => .pure
      · exact header_limited.bind fun _ => ih.bind fun _ => .pure

theorem settle_limited (t : Table) (ds : List Duty) : Limited n (settle t ds) := by
  induction ds with
  | nil => exact .pure
  | cons d rest ih => exact satisfies_limited.discard.bind fun _ => ih

/-! Constants -/

theorem constDecl_limited (hconsts : ∀ c, Limited n (consts c)) {d : ConstDecl} :
    Limited n (constDecl env consts d) := by
  unfold constDecl
  refine varType_limited.bind fun _ => ?_
  dsimp only
  split
  · exact .fail
  refine (operand_limited hconsts _).bind fun _ => ?_
  split
  · split
    · exact .fail
    · refine assignable_limited.bind fun _ => ?_
      split <;> exact .pure
  · exact .pure

theorem constant_limited (decls : List ConstDecl) (fuel : Nat) (name : String) :
    Limited n (constant env decls fuel name) := by
  induction fuel generalizing name with
  | zero => exact .pure
  | succ fuel ih =>
      unfold constant
      refine Limited.get (fun s => ?_) fun u s h => by simp only [h.2]
      split
      · exact .pure
      · exact .fail
      · exact Limited.keep.bind fun _ => (constDecl_limited ih).bind fun _ =>
          Limited.keep.bind fun _ => .pure
      · exact .pure

theorem foldAll_limited (decls list : List ConstDecl) : Limited n (foldAll env decls list) := by
  induction list with
  | nil => exact .pure
  | cons d rest ih => exact (constant_limited _ _ _).discard.bind fun _ => ih

theorem folded_limited {name : String} : Limited n (folded name) := by
  unfold folded
  refine Limited.get (fun s => ?_) fun u s h => by simp only [h.2]
  split <;> exact .pure

theorem foldedValue_limited (name : String) : Limited n (foldedValue name) :=
  folded_limited.bind fun _ => .pure

/-! Bodies -/

theorem funcBody_limited {p : Prepared} : Limited n (funcBody env p) := by
  unfold funcBody
  split
  · exact .pure
  · exact (body_limited foldedValue_limited).bind fun _ => .pure

theorem funcBodies_limited (s : Scope Symbol) (ps : List Prepared) :
    Limited n (funcBodies env s ps) := by
  induction ps generalizing s with
  | nil => exact .pure
  | cons p rest ih =>
      unfold funcBodies
      refine funcBody_limited.bind fun _ => (ih _).bind fun _ => ?_
      dsimp only
      split <;> exact .pure

theorem declaration_limited {c : Collected} {scopes : Scopes} (d : Decl) :
    Limited n (declaration env c scopes d) := by
  cases d with
  | cls d =>
      unfold declaration
      dsimp only
      split
      · exact .pure
      · exact ((funcBodies_limited _ _).bind fun _ => .pure).bind fun _ => .pure
  | bound d => exact .pure
  | func d =>
      unfold declaration
      dsimp only
      split
      · exact .pure
      · exact funcBody_limited.bind fun _ => .pure
  | const d => exact folded_limited.bind fun _ => .pure

theorem declarations_limited {c : Collected} (scopes : Scopes) (list : List Decl) :
    Limited n (declarations env c scopes list) := by
  induction list generalizing scopes with
  | nil => exact .pure
  | cons d rest ih =>
      unfold declarations
      refine Limited.full.bind fun _ => ?_
      split
      · exact .pure
      refine (declaration_limited d).bind fun _ => (ih _).bind fun _ => ?_
      dsimp only
      split <;> exact .pure

/-! The whole unit -/

theorem link_limited (hn : 0 < n) {decls : List Decl} : Limited n (link decls) := by
  unfold link
  refine (register_limited _ _).bind fun _ => (Limited.failed hn).bind fun _ => ?_
  split
  · exact .pure
  · exact (Limited.reportAll _).bind fun _ => .pure

theorem collect_limited (hn : 0 < n) {f : File} {t : Table} : Limited n (collect f t) := by
  unfold collect
  refine (allClassParams_limited _ _).bind fun _ => (allBounds_limited _ _).bind fun _ =>
    (allMembers_limited _ _ _).bind fun _ => (signatures_limited _ _).bind fun _ => ?_
  refine Limited.get (fun s => ?_) fun u s h => by simp only [h.1]
  refine (settle_limited _ _).bind fun _ => (Limited.failed hn).bind fun _ => ?_
  split <;> exact .pure

theorem finish_limited {f : File} {c : Collected} : Limited n (finish f c) := by
  unfold finish
  refine (foldAll_limited _ _).bind fun _ => (declarations_limited _ _).bind fun _ => ?_
  dsimp only
  split <;> exact .pure

theorem unit_limited (hn : 0 < n) (f : File) : Limited n (unit f) := by
  unfold unit
  refine (link_limited hn).bind fun _ => ?_
  split
  · exact .pure
  refine (collect_limited hn).bind fun _ => ?_
  split
  · exact .pure
  · exact finish_limited

end Check

/-! The order of errors -/

namespace Pos

instance : Std.TransCmp Pos.compare :=
  inferInstanceAs (Std.TransCmp (compareLex (compareOn file) (compareLex (compareOn line)
    (compareOn col))))

theorem le_trans {p q r : Pos} (h : p.le q = true) (h' : q.le r = true) : p.le r = true :=
  Std.TransCmp.isLE_trans h h'

theorem le_total (p q : Pos) : (p.le q || q.le p) = true := by
  have hswap : q.compare p = (p.compare q).swap := Std.OrientedCmp.eq_swap
  rw [le, le, hswap]
  cases p.compare q <;> rfl

theorem le_refl (p : Pos) : p.le p = true := by
  have hself : p.compare p = .eq := Std.ReflCmp.compare_self
  rw [le, hself]
  rfl

end Pos

namespace Diagnostic

/-- `es` are the errors `ds` in the order of their places, and those of one place in the order in
which they come in `ds`. -/
structure Sorts (ds es : List Diagnostic) : Prop where
  perm : es.Perm ds
  ordered : es.Pairwise fun d e => d.pos.le e.pos = true
  stable : ∀ pos, es.filter (·.pos = pos) = ds.filter (·.pos = pos)

theorem sorts_sort (ds : List Diagnostic) : Sorts ds (sort ds) := by
  have htrans : ∀ d e f : Diagnostic, d.pos.le e.pos = true → e.pos.le f.pos = true →
      d.pos.le f.pos = true := fun _ _ _ => Pos.le_trans
  have htotal : ∀ d e : Diagnostic, (d.pos.le e.pos || e.pos.le d.pos) = true :=
    fun d e => Pos.le_total d.pos e.pos
  have hperm : (sort ds).Perm ds := List.mergeSort_perm _ _
  refine ⟨hperm, List.pairwise_mergeSort htrans htotal ds, fun pos => ?_⟩
  have hplace : (ds.filter (·.pos = pos)).Pairwise fun d e => d.pos.le e.pos = true := by
    refine List.pairwise_of_forall_mem_list fun d hd e he => ?_
    have hd : d.pos = pos := by simpa using (List.mem_filter.1 hd).2
    have he : e.pos = pos := by simpa using (List.mem_filter.1 he).2
    rw [hd, he]
    exact Pos.le_refl pos
  have hsub : (ds.filter (·.pos = pos)).Sublist (sort ds) :=
    List.sublist_mergeSort htrans htotal hplace List.filter_sublist
  have hsub' := hsub.filter (·.pos = pos)
  rw [List.filter_filter] at hsub'
  simp only [Bool.and_self] at hsub'
  exact (hsub'.eq_of_length (hperm.filter _).length_eq.symm).symm

end Diagnostic

/-! The limit -/

namespace File

variable {f : File} {limit : Option Nat}

/-- The errors that are reported while a unit is checked, in the order in which they are found. -/
def reports (f : File) (limit : Option Nat) : List Diagnostic :=
  ((Check.unit f).run { errors := { limit } }).2.errors.found

theorem check_error {es : List Diagnostic} (h : f.check limit = .error es) :
    es = f.reports limit := by
  unfold check at h
  split at h
  next r s hrun =>
    rw [reports, hrun]
    split at h
    · cases h
    · exact (Except.error.inj h).symm

theorem check_ok_iff : (∃ t, f.check limit = .ok t) ↔
    ((Check.unit f).run { errors := { limit } }).1.isSome = true ∧ f.reports limit = [] := by
  unfold check reports
  generalize (Check.unit f).run { errors := { limit } } = r
  obtain ⟨result, s⟩ := r
  cases result <;> cases hfound : s.errors.found <;> simp [hfound]

theorem exists_error_iff : (∃ es, f.check limit = .error es) ↔ ¬ ∃ t, f.check limit = .ok t := by
  cases f.check limit <;> simp

/-- What a run with a limit and a run without one have to do with each other. -/
theorem run_cuts (f : File) {n : Nat} (hn : 0 < n) :
    f.reports (some n) = (f.reports none).take n ∧
      (f.reports (some n) = [] →
        ((Check.unit f).run { errors := { limit := some n } }).1 =
          ((Check.unit f).run { errors := { limit := none } }).1) := by
  obtain ⟨hcuts, hresult⟩ := (Check.unit_limited hn f).cuts { errors := { limit := none } }
    { errors := { limit := some n } } ⟨.start n, fun _ => ⟨rfl, rfl⟩⟩
  refine ⟨hcuts.errors.found, fun hnil => hresult (Bool.eq_false_iff.2 fun hfull => ?_)⟩
  have hlength := hcuts.errors.full.1 hfull
  have htake := hcuts.errors.found.symm.trans hnil
  rw [List.take_eq_nil_iff] at htake
  rcases htake with hzero | hnone
  · omega
  · rw [hnone] at hlength
    exact absurd hlength (Nat.not_lt_zero _)

end File

/-- The limit on errors only cuts off. With a limit of at least one error, the errors reported are
the first ones of those reported without a limit, and the unit fails exactly if it fails without.
The errors it fails with are those reported, and the compilation returns them in the order of their
places, those of one place in the order in which they were reported. -/
theorem error_limit_only_truncates (f : File) {n : Nat} (hn : 1 ≤ n) :
    f.reports (some n) = (f.reports none).take n ∧
    ((∃ es, f.check (some n) = .error es) ↔ ∃ es, f.check none = .error es) ∧
    ∀ (o : CompileOptions) (es : List Diagnostic), f.check o.errorLimit = .error es →
      ∃ sorted, (checkPhase o f).2 = some (.invalid sorted) ∧
        Diagnostic.Sorts (f.reports o.errorLimit) sorted := by
  obtain ⟨hreports, hresult⟩ := f.run_cuts hn
  refine ⟨hreports, ?_, fun o es h => ⟨Diagnostic.sort es, ?_, ?_⟩⟩
  · rw [File.exists_error_iff, File.exists_error_iff, File.check_ok_iff, File.check_ok_iff]
    have hnil : f.reports (some n) = [] ↔ f.reports none = [] := by
      rw [hreports, List.take_eq_nil_iff]
      exact ⟨fun h => h.resolve_left (by omega), Or.inr⟩
    refine not_congr ⟨fun ⟨hsome, hnone⟩ => ?_, fun ⟨hsome, hnone⟩ => ?_⟩
    · exact ⟨hresult hnone ▸ hsome, hnil.1 hnone⟩
    · exact ⟨hresult (hnil.2 hnone) ▸ hsome, hnil.2 hnone⟩
  · simp only [checkPhase, h]
  · rw [File.check_error h]
    exact Diagnostic.sorts_sort _

/-- A unit with three errors, of which the last one is found first. -/
def faultyUnit : File :=
  (parseFile "t" "fun f(){a();b();}const c:int=true;".toUTF8.toList).file

theorem faultyUnit_cut : 1 ≤ 2 ∧
    (faultyUnit.reports none).map (·.pos.col) = [30, 9, 13] ∧
    (faultyUnit.reports (some 2)).map (·.pos.col) = [30, 9] ∧
    ∃ es sorted, faultyUnit.check (some 2) = .error es ∧
      (checkPhase { errorLimit := some 2 } faultyUnit).2 = some (.invalid sorted) ∧
      Diagnostic.Sorts (faultyUnit.reports (some 2)) sorted := by
  have hfound : (faultyUnit.reports none).map (·.pos.col) = [30, 9, 13] := by
    rw [faultyUnit, parseFile_ofList]
    decide +kernel
  obtain ⟨hreports, hfails, hsorted⟩ := error_limit_only_truncates faultyUnit (n := 2) (by decide)
  have hnone : ∃ es, faultyUnit.check none = .error es := by
    rw [File.exists_error_iff, File.check_ok_iff]
    rintro ⟨_, hnil⟩
    simp [hnil] at hfound
  obtain ⟨es, hes⟩ := hfails.2 hnone
  obtain ⟨sorted, hphase, hsorts⟩ := hsorted { errorLimit := some 2 } es hes
  exact ⟨by decide, hfound, by rw [hreports, List.map_take, hfound]; rfl, es, sorted, hes, hphase,
    hsorts⟩

end ClassLang
