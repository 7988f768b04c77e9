import ClassLang.Proofs.Check.Generic

/-!
What checking an initializer finds. Its elements are taken from left to right. A key that is no
field of the class, or that was given before, is an error of its own; the fields that are never given
are one error together. An initializer is accepted if its keys are the fields of its class, in any
order, and each value can be assigned to the field that it is given for.
-/

namespace ClassLang

namespace Check

variable {α β : Type} {env : Env} {consts : ConstSource}

/-! Errors by their kind -/

/-- `m` reports errors of which `P` holds, and no others. -/
def Adds (P : Diagnostic → Prop) (m : Check α) : Prop :=
  ∀ s, ∃ ds : List Diagnostic, (m.run s).2.errors = ds.foldl Collector.add s.errors ∧ ∀ d ∈ ds, P d

namespace Adds

variable {P : Diagnostic → Prop} {m : Check α}

theorem pure {a : α} : Adds P (Pure.pure a) := fun _ => ⟨[], rfl, by simp⟩

theorem bind {f : α → Check β} (hm : Adds P m) (hf : ∀ a, Adds P (f a)) : Adds P (m >>= f) := by
  intro s
  obtain ⟨ds, hds, hall⟩ := hm s
  obtain ⟨ds', hds', hall'⟩ := hf (m.run s).1 (m.run s).2
  refine ⟨ds ++ ds', ?_, List.forall_mem_append.2 ⟨hall, hall'⟩⟩
  rw [Watch.Ensures.run_bind, hds', hds, List.foldl_append]

theorem report {kind : ErrorKind} {pos : Pos} {message : String} (h : P ⟨kind, pos, message⟩) :
    Adds P (Check.report kind pos message) :=
  fun _ => ⟨[⟨kind, pos, message⟩], rfl, by simpa using h⟩

theorem fail {kind : ErrorKind} {pos : Pos} {message : String} (h : P ⟨kind, pos, message⟩) :
    Adds P (Check.fail kind pos message : Check (Option α)) :=
  (report h).bind fun _ => .pure

theorem putOff {d : Duty} : Adds P (modify fun s => { s with duties := s.duties ++ [d] }) :=
  fun _ => ⟨[], rfl, by simp⟩

end Adds

/-- An error that names no field of an initializer. -/
def NotIncomplete (d : Diagnostic) : Prop := d.kind ≠ .incompleteInitializer

theorem typeArgs_adds {pos : Pos} {list : List (TypeParam × Ty)} :
    Adds NotIncomplete (typeArgs env pos list) := by
  induction list with
  | nil => exact .pure
  | cons e rest ih =>
      obtain ⟨p, arg⟩ := e
      have hone : Adds NotIncomplete (typeArg env pos p arg) := by
        unfold typeArg
        split
        · exact (Adds.report (by simp [NotIncomplete])).bind fun _ => .pure
        split
        · exact .pure
        split
        · exact (Adds.putOff).bind fun _ => .pure
        unfold satisfies
        split
        · exact .pure
        split
        · exact .pure
        split
        all_goals exact (Adds.report (by simp [NotIncomplete])).bind fun _ => .pure
      exact hone.bind fun _ => ih.bind fun _ => .pure

theorem infer_adds {pos : Pos} {what : String} {ps : List TypeParam} {types : List Ty}
    {xs : List Operand} : Adds NotIncomplete (infer env pos what ps types xs) := by
  unfold infer
  split
  · exact .fail (by simp [NotIncomplete])
  split
  · exact .fail (by simp [NotIncomplete])
  refine (typeArgs_adds).bind fun ok => ?_
  split
  all_goals exact .pure

theorem assignableAll_adds {table : Table} {list : List (Operand × Ty × String)} :
    Adds NotIncomplete (assignableAll table list) := by
  induction list with
  | nil => exact .pure
  | cons e rest ih =>
      obtain ⟨x, target, purpose⟩ := e
      have hvalue : Adds NotIncomplete (hasValue x) := by
        unfold hasValue
        split
        · exact (Adds.report (by simp [NotIncomplete])).bind fun _ => .pure
        · exact .pure
      have hone : Adds NotIncomplete (assignable table x target purpose) := by
        unfold assignable
        refine hvalue.bind fun _ => ?_
        split
        · exact .pure
        split
        · exact .pure
        split
        · exact .pure
        dsimp only
        split
        · split
          · exact .pure
          · exact (Adds.report (by simp [NotIncomplete])).bind fun _ => .pure
        · exact (Adds.report (by simp [NotIncomplete])).bind fun _ => .pure
      exact hone.bind fun _ => ih.bind fun _ => .pure

/-! Elements -/

/-- A session in which more errors have been found. -/
def Session.reporting (s : Session) (ds : List Diagnostic) : Session :=
  { s with errors := ds.foldl Collector.add s.errors }

/-- The error for the key of an element, if the elements before it have the keys `earlier`. -/
def keyError? (cls : String) (fields : List Field) (earlier : List String) (key : Ident) :
    Option Diagnostic :=
  if key.text ∉ fields.map (·.name) then
    some ⟨.unknownInitializerField, key.pos,
      s!"unknown field {key.text} in {cls} initializer"⟩
  else if key.text ∈ earlier then
    some ⟨.duplicateInitializerField, key.pos,
      s!"duplicate field {key.text} in {cls} initializer"⟩
  else none

/-- The error for an expression that has no value. -/
def valueError? (x : Operand) : Option Diagnostic :=
  if x.ty.isVoid then some ⟨.typeMismatch, x.pos, s!"{x.text} (no value) used as value"⟩ else none

/-- The errors for an element besides those in its value `x`. The value of an element with a good
key is used. -/
def elementErrors (cls : String) (fields : List Field) (earlier : List String) (key : Ident)
    (x : Option Operand) : List Diagnostic :=
  match keyError? cls fields earlier key with
  | some d => [d]
  | none => (x.bind valueError?).toList

/-- The elements of an initializer are checked one after the other, from `s` to `s'`: first the value,
and then the key. The values become `xs`, and the keys before them are `earlier`. -/
inductive ChecksElements (env : Env) (consts : ConstSource) (cls : String) (fields : List Field) :
    List String → List (Ident × Expr) → Session → List (Option Operand) → Session → Prop
  | nil {earlier : List String} {s : Session} : ChecksElements env consts cls fields earlier [] s [] s
  | cons {earlier : List String} {key : Ident} {e : Expr} {rest : List (Ident × Expr)}
      {s s₁ s₂ : Session} {x : Option Operand} {xs : List (Option Operand)}
      (value : (operand env consts e).run s = (x, s₁))
      (others : ChecksElements env consts cls fields (earlier ++ [key.text]) rest
        (s₁.reporting (elementErrors cls fields earlier key x)) xs s₂) :
      ChecksElements env consts cls fields earlier ((key, e) :: rest) s (x :: xs) s₂

theorem ChecksElements.length {cls : String} {fields : List Field} {earlier : List String}
    {elems : List (Ident × Expr)} {s s' : Session} {xs : List (Option Operand)}
    (h : ChecksElements env consts cls fields earlier elems s xs s') : xs.length = elems.length := by
  induction h with
  | nil => rfl
  | cons _ _ ih => simp [ih]

/-- What is known of a filling that has taken the elements `done`. -/
structure Filling.Took (fields : List Field) (done : List (Ident × Option Operand))
    (filling : Filling) : Prop where
  given : ∀ name, filling.given.any (·.1 = name) = true ↔
    name ∈ fields.map (·.name) ∧ name ∈ done.map (·.1.text)
  ok : filling.ok = true ↔ (done.map (·.1.text)).Nodup ∧
    (∀ e ∈ done, e.1.text ∈ fields.map (·.name)) ∧
    ∀ e ∈ done, ∃ x, e.2 = some x ∧ x.ty.isVoid = false
  values : filling.ok = true →
    filling.given.map (fun e => (e.1, some e.2)) = done.map fun e => (e.1.text, e.2)

theorem Filling.took_nil (fields : List Field) : Filling.Took fields [] {} where
  given := by simp
  ok := by simp
  values := by simp

theorem run_hasValue (x : Operand) (s : Session) :
    (hasValue x).run s = (!x.ty.isVoid, s.reporting (valueError? x).toList) := by
  unfold hasValue valueError?
  cases x.ty.isVoid <;> rfl

/-- One more element is taken. -/
theorem run_fillField (cls : String) {fields : List Field} {done : List (Ident × Option Operand)}
    {filling : Filling} (h : filling.Took fields done) (key : Ident) (x : Option Operand)
    (s : Session) : ∃ filling' : Filling,
      (fillField cls fields filling key x).run s =
        (filling', s.reporting (elementErrors cls fields (done.map (·.1.text)) key x)) ∧
      filling'.Took fields (done ++ [(key, x)]) := by
  have hany : fields.any (·.name = key.text) = true ↔ key.text ∈ fields.map (·.name) := by
    simp [List.any_eq_true]
  unfold fillField elementErrors keyError?
  by_cases hknown : key.text ∈ fields.map (·.name)
  case neg =>
    rw [if_pos hknown, if_pos (by simpa [hany] using hknown)]
    refine ⟨{ filling with ok := false }, rfl, ⟨fun name => ?_, ?_, by simp⟩⟩
    · rw [h.given]
      by_cases hname : name = key.text
      · subst hname
        simp only [hknown, false_and]
      · simp [hname]
    · simp only [Bool.false_eq_true, false_iff]
      exact fun hall => hknown (hall.2.1 (key, x) (by simp))
  rw [if_neg (not_not.2 hknown), if_neg (by simpa using hany.2 hknown)]
  by_cases hearlier : key.text ∈ done.map (·.1.text)
  · rw [if_pos hearlier, if_pos ((h.given _).2 ⟨hknown, hearlier⟩)]
    refine ⟨{ filling with ok := false }, rfl, ⟨fun name => ?_, ?_, by simp⟩⟩
    · rw [h.given, List.map_append, List.mem_append]
      refine and_congr_right fun _ => ⟨.inl, ?_⟩
      rintro (hdone | hlast)
      · exact hdone
      · obtain rfl : name = key.text := by simpa using hlast
        exact hearlier
    · simp only [Bool.false_eq_true, false_iff]
      intro hall
      rw [List.map_append, List.nodup_append] at hall
      exact hall.1.2.2 _ hearlier key.text (by simp) rfl
  · rw [if_neg hearlier, if_neg fun hall => hearlier ((h.given _).1 hall).2]
    have hgiven : ∀ (y : Operand) (name : String),
        (filling.given ++ [(key.text, y)]).any (·.1 = name) = true ↔
          name ∈ fields.map (·.name) ∧ name ∈ (done ++ [(key, x)]).map (·.1.text) := by
      intro y name
      rw [List.any_append, Bool.or_eq_true, h.given, List.map_append, List.mem_append]
      by_cases hname : key.text = name
      · subst hname
        simp only [hknown, hearlier, List.any_cons, List.any_nil, decide_true]
        simp
      · simp [hname, Ne.symm hname]
    cases x with
    | none =>
        refine ⟨_, rfl, ⟨hgiven _, ?_, by simp⟩⟩
        simp only [Bool.false_eq_true, false_iff]
        intro hall
        obtain ⟨_, hx, _⟩ := hall.2.2 (key, none) (by simp)
        cases hx
    | some y =>
        refine ⟨{ given := filling.given ++ [(key.text, y)], ok := filling.ok && !y.ty.isVoid },
          ?_, ⟨hgiven y, ?_, fun hok => ?_⟩⟩
        · dsimp only
          rw [Watch.Ensures.run_bind, run_hasValue]
          rfl
        · rw [Bool.and_eq_true, h.ok, List.map_append, List.nodup_append]
          simp only [List.forall_mem_append, List.map_cons, List.map_nil]
          have hfresh : ∀ a ∈ done.map (·.1.text), ∀ b ∈ [key.text], a ≠ b := by
            rintro a ha b hb rfl
            exact hearlier (List.mem_singleton.1 hb ▸ ha)
          constructor
          · rintro ⟨⟨hnodup, hall, hvalues⟩, hy⟩
            exact ⟨⟨hnodup, by simp, hfresh⟩, ⟨hall, by simpa using hknown⟩, hvalues,
              by simpa using hy⟩
          · rintro ⟨⟨hnodup, _, _⟩, ⟨hall, _⟩, hvalues, hy⟩
            exact ⟨⟨hnodup, hall, hvalues⟩, by simpa using hy⟩
        · have hfilling : filling.ok = true := by simp_all
          simp [h.values hfilling]

/-- All elements are taken. -/
theorem run_elements (env : Env) (consts : ConstSource) (cls : String) (fields : List Field)
    (elems : List (Ident × Expr)) {done : List (Ident × Option Operand)} {filling : Filling} (h : filling.Took fields done)
    (s : Session) : ∃ (filling' : Filling) (xs : List (Option Operand)) (s' : Session),
      (elements env consts cls fields filling elems).run s =
        ((filling', ((elems.map (·.1)).zip xs).flatMap fun e =>
          e.2.toList.map fun x => (e.1, x.expr)), s') ∧
      ChecksElements env consts cls fields (done.map (·.1.text)) elems s xs s' ∧
      filling'.Took fields (done ++ (elems.map (·.1)).zip xs) := by
  induction elems generalizing done filling s with
  | nil =>
      unfold elements
      exact ⟨filling, [], s, rfl, .nil, by simpa using h⟩
  | cons e rest ih =>
      obtain ⟨key, value⟩ := e
      obtain ⟨⟨x, s₁⟩, hvalue⟩ : ∃ r, (operand env consts value).run s = r := ⟨_, rfl⟩
      obtain ⟨filling₁, hfill, htook⟩ := run_fillField cls h key x s₁
      obtain ⟨filling₂, xs, s₂, helems, hchecks, htook'⟩ := ih htook
        (s₁.reporting (elementErrors cls fields (done.map (·.1.text)) key x))
      refine ⟨filling₂, x :: xs, s₂, ?_, .cons hvalue ?_, ?_⟩
      · unfold elements
        rw [Watch.Ensures.run_bind, hvalue]
        dsimp only
        rw [Watch.Ensures.run_bind, hfill]
        dsimp only
        rw [Watch.Ensures.run_bind, helems]
        rfl
      · simpa using hchecks
      · simpa using htook'

/-! Initializers -/

/-- The fields of the class `k` that no element gives, in their order. -/
def neverGiven (t : Table) (k : ClassInfo) (elems : List (Ident × Expr)) : List Field :=
  (t.flatFields k.id).filter fun f => f.name ∉ elems.map (·.1.text)

/-- The error for fields that are never given. -/
def incompleteError (cls : Ident) (k : ClassInfo) (missing : List Field) : Diagnostic :=
  let names := ", ".intercalate (missing.map (·.name))
  ⟨.incompleteInitializer, cls.pos, s!"{k.name} initializer is missing {names}"⟩

/-- The elements give each field of the class `k` one value, which can be assigned to it. The type
parameters of the class stand for `targs`. -/
structure GivesFields (t : Table) (k : ClassInfo) (targs : List Ty)
    (elems : List (Ident × Operand)) : Prop where
  keys : (elems.map (·.1.text)).Perm ((t.flatFields k.id).map (·.name))
  fits : ∀ e ∈ elems, ∀ f ∈ t.flatFields k.id, f.name = e.1.text →
    Assignable t e.2.ty (f.ty.subst k.tparams targs)

/-- The initializer with given elements, once they have been checked. -/
def initOf (t : Table) (cls id : Ident) (k : ClassInfo) (targs : List Ty)
    (elems : List (Ident × Operand)) : Typed.Expr :=
  .init cls (.cls id) (if k.isGeneric then .inst k.name targs else .cls k.name)
    (t.flatFields k.id) (elems.map fun e => (e.1, e.2.expr))

/-- How the check of an initializer ends. Its elements have been checked, their values are `xs`, and
the session is `s`. -/
structure ChecksInitializer (t : Table) (cls id : Ident) (k : ClassInfo)
    (elems : List (Ident × Expr)) (xs : List (Option Operand)) (s : Session)
    (out : Option Typed.Expr × Session) : Prop where
  /-- The fields that are never given are one error. -/
  incomplete : neverGiven t k elems ≠ [] →
    out = (none, s.reporting [incompleteError cls k (neverGiven t k elems)])
  /-- There is no such error if there are no such fields. -/
  complete : neverGiven t k elems = [] →
    ∃ ds : List Diagnostic, out.2.errors = (s.reporting ds).errors ∧ ∀ d ∈ ds, NotIncomplete d
  /-- What is accepted gives each field a value. -/
  sound : ∀ e, out.1 = some e → ∃ ys targs, xs = ys.map some ∧
    targs.length = k.tparams.length ∧ GivesFields t k targs ((elems.map (·.1)).zip ys) ∧
      e = initOf t cls id k targs ((elems.map (·.1)).zip ys)
  /-- What gives each field of a class without type parameters a value is accepted. -/
  accepts : k.isGeneric = false → ∀ ys, xs = ys.map some →
    GivesFields t k [] ((elems.map (·.1)).zip ys) →
      out = (some (initOf t cls id k [] ((elems.map (·.1)).zip ys)), s)

theorem filterMap_of_mem_zip {γ δ : Type} {g : γ → Option δ} {l : List γ}
    (h : ∀ a ∈ l, (g a).isSome = true) {a : γ} {b : δ} (hab : (a, b) ∈ l.zip (l.filterMap g)) :
    g a = some b := by
  induction l with
  | nil => cases hab
  | cons c rest ih =>
      obtain ⟨d, hd⟩ := Option.isSome_iff_exists.1 (h c (by simp))
      rw [List.filterMap_cons_some hd, List.zip_cons_cons] at hab
      rcases List.mem_cons.1 hab with heq | hab
      · obtain ⟨rfl, rfl⟩ := Prod.mk.inj heq
        exact hd
      · exact ih (fun a ha => h a (List.mem_cons_of_mem _ ha)) hab

theorem zip_some_texts (keys : List Ident) (ys : List Operand) :
    (keys.zip (ys.map some)).map (·.1.text) = (keys.zip ys).map (·.1.text) := by
  rw [List.zip_map_right, List.map_map]
  rfl

namespace Filling.Took

variable {fields : List Field} {keys : List Ident} {ys : List Operand} {filling : Filling}

/-- The elements of a filling in which all is well. -/
theorem filled (h : filling.Took fields (keys.zip (ys.map some))) (hok : filling.ok = true) :
    Filled fields filling (keys.zip ys) := by
  obtain ⟨hnodup, hknown, _⟩ := h.ok.1 hok
  refine ⟨?_, zip_some_texts keys ys ▸ hnodup, fun e he => ?_⟩
  · have hvalues := h.values hok
    rw [List.zip_map_right, List.map_map] at hvalues
    have hsome : Function.Injective fun e : String × Operand => (e.1, some e.2) := by
      rintro ⟨a, b⟩ ⟨c, d⟩ heq
      simpa using heq
    refine hsome.list_map (hvalues.trans ?_)
    rw [List.map_map]
    rfl
  · refine hknown (e.1, some e.2) ?_
    rw [List.zip_map_right]
    exact List.mem_map.2 ⟨e, he, rfl⟩

/-- All is well if each field has a value. -/
theorem ok_of_gives {t : Table} {k : ClassInfo} {targs : List Ty}
    (h : filling.Took (t.flatFields k.id) (keys.zip (ys.map some)))
    (hnodup : ((t.flatFields k.id).map (·.name)).Nodup)
    (hgives : GivesFields t k targs (keys.zip ys)) : filling.ok = true := by
  have hkeys := zip_some_texts keys ys
  refine h.ok.2 ⟨hkeys ▸ hgives.keys.nodup_iff.2 hnodup, fun e he => ?_, fun e he => ?_⟩
  · exact hgives.keys.subset (hkeys ▸ List.mem_map_of_mem he)
  · rw [List.zip_map_right] at he
    obtain ⟨p, hp, rfl⟩ := List.mem_map.1 he
    obtain ⟨fd, hfd, hname⟩ := List.mem_map.1 (hgives.keys.subset (List.mem_map_of_mem hp))
    exact ⟨p.2, rfl, (hgives.fits p hp fd hfd hname).1⟩

end Filling.Took

section

variable {f : File} {c : Collected} {cls id : Ident} {name : String} {k : ClassInfo}
  {filling : Filling} {elems : List (Ident × Expr)} {xs : List (Option Operand)}
  {es : List (Ident × Operand)}

/-- The keys of elements that have been paired with their values. -/
theorem zip_texts {γ : Type} {ys : List γ} (hlen : ys.length = elems.length) :
    ((elems.map (·.1)).zip ys).map (·.1.text) = elems.map (·.1.text) := by
  calc ((elems.map (·.1)).zip ys).map (·.1.text)
      = (((elems.map (·.1)).zip ys).map Prod.fst).map Ident.text := List.map_map.symm
    _ = elems.map (·.1.text) := by
      rw [List.map_fst_zip (by simp [hlen]), List.map_map]
      rfl

theorem missing_eq (h : filling.Took (c.table.flatFields k.id) ((elems.map (·.1)).zip xs))
    (hlen : xs.length = elems.length) :
    ((c.table.flatFields k.id).filter fun f => !filling.given.any (·.1 = f.name)) =
      neverGiven c.table k elems := by
  have hkeys := zip_texts hlen
  refine List.filter_congr fun fd hfd => ?_
  have hgiven := h.given fd.name
  rw [hkeys] at hgiven
  have hmem : fd.name ∈ (c.table.flatFields k.id).map (·.name) := List.mem_map_of_mem hfd
  by_cases hkey : fd.name ∈ elems.map (·.1.text)
  · simp [hgiven.2 ⟨hmem, hkey⟩, hkey]
  · simp [Bool.eq_false_iff.2 fun hany => hkey (hgiven.1 hany).2, hkey]

/-- The fields of a class have names of their own. -/
theorem CollectedOk.flatFields_nodup (hc : CollectedOk f c) (hk : c.table.classNamed? name = some k) :
    ((c.table.flatFields k.id).map (·.name)).Nodup := by
  have hid := hc.linkedTo.linked.class?_id (List.mem_of_find?_eq_some hk)
  exact hc.wellTyped.flatFields_nodup (Table.class?_eq_some_lt hid)

theorem GivesFields.neverGiven_eq_nil {t : Table} {targs : List Ty} {ys : List Operand}
    (h : GivesFields t k targs ((elems.map (·.1)).zip ys)) (hxs : xs = ys.map some)
    (hlen : xs.length = elems.length) : neverGiven t k elems = [] := by
  have hkeys : ((elems.map (·.1)).zip ys).map (·.1.text) = elems.map (·.1.text) :=
    zip_texts (by simpa [hxs] using hlen)
  refine List.filter_eq_nil_iff.2 fun fd hfd => ?_
  have hmem := h.keys.symm.subset (List.mem_map_of_mem hfd)
  rw [hkeys] at hmem
  simpa using hmem

/-- If all is well, and no field is missing, each field has been given its value. -/
theorem exists_values (hc : CollectedOk f c) (hk : c.table.classNamed? name = some k)
    (h : filling.Took (c.table.flatFields k.id) ((elems.map (·.1)).zip xs))
    (hlen : xs.length = elems.length) (hok : filling.ok = true)
    (hmissing : neverGiven c.table k elems = []) : ∃ ys, xs = ys.map some ∧
      Filled (c.table.flatFields k.id) filling ((elems.map (·.1)).zip ys) ∧
      (∀ fd ∈ c.table.flatFields k.id, (filling.given.lookup fd.name).isSome = true) ∧
      (((elems.map (·.1)).zip ys).map (·.1.text)).Perm
        ((c.table.flatFields k.id).map (·.name)) := by
  have hsome : ∀ x ∈ xs, x.isSome = true := by
    intro x hx
    have hle : xs.length ≤ (elems.map (·.1)).length := by simp [hlen]
    rw [← List.map_snd_zip hle] at hx
    obtain ⟨e, he, rfl⟩ := List.mem_map.1 hx
    obtain ⟨y, hy, _⟩ := (h.ok.1 hok).2.2 e he
    simp [hy]
  generalize hys : xs.filterMap id = ys
  obtain rfl : xs = ys.map some := hys ▸ eq_map_some hsome
  have hfilled := h.filled hok
  have hcomplete : ∀ fd ∈ c.table.flatFields k.id,
      (filling.given.lookup fd.name).isSome = true := by
    intro fd hfd
    refine lookup_isSome_of_any ?_
    have hnot := List.filter_eq_nil_iff.1 ((missing_eq h hlen).trans hmissing) fd hfd
    simpa using hnot
  exact ⟨ys, rfl, hfilled, hcomplete, hfilled.perm (hc.flatFields_nodup hk) hcomplete⟩

/-- The operands for fields that all have been given. -/
theorem mem_operands (hfilled : Filled (c.table.flatFields k.id) filling es)
    (hcomplete : ∀ fd ∈ c.table.flatFields k.id, (filling.given.lookup fd.name).isSome = true)
    {fd : Field} {x : Operand} :
    (fd, x) ∈ (c.table.flatFields k.id).zip
        ((c.table.flatFields k.id).filterMap fun fd => filling.given.lookup fd.name) ↔
      fd ∈ c.table.flatFields k.id ∧ ∃ e ∈ es, fd.name = e.1.text ∧ x = e.2 := by
  constructor
  · intro hmem
    obtain ⟨e, he, hname, hx⟩ := hfilled.mem_of_lookup (filterMap_of_mem_zip hcomplete hmem)
    exact ⟨(List.of_mem_zip hmem).1, e, he, hname.symm, hx.symm⟩
  · rintro ⟨hfd, e, he, hname, rfl⟩
    exact mem_zip_filterMap hcomplete hfd (by rw [hname]; exact hfilled.lookup he)

/-- The values of a filling, each with the type of its field. -/
def assigned (t : Table) (k : ClassInfo) (targs : List Ty) (filling : Filling) :
    List (Operand × Ty × String) :=
  let fields := t.flatFields k.id
  (fields.zip (fields.filterMap fun fd => filling.given.lookup fd.name)).map fun (fd, x) =>
    (x, fd.ty.subst k.tparams targs, s!"field {fd.name} of {k.name}")

/-- What follows once the type arguments are known: each value is assigned to its field. -/
def settled (env : Env) (cls id : Ident) (k : ClassInfo) (filling : Filling)
    (values : List (Ident × Typed.Expr)) : Option (List Ty) → Check (Option Typed.Expr)
  | none => return none
  | some targs => do
      let fits ← assignableAll env.table (assigned env.table k targs filling)
      if fits then
        let ty := if k.isGeneric then Ty.inst k.name targs else .cls k.name
        return some (.init cls (.cls id) ty (env.table.flatFields k.id) values)
      else
        return none

theorem initialized_eq {values : List (Ident × Typed.Expr)}
    (hmissing : ((env.table.flatFields k.id).filter fun fd =>
      !filling.given.any (·.1 = fd.name)) = []) (hok : filling.ok = true) :
    initialized env cls (.cls id) k filling values =
      if k.isGeneric then
        infer env cls.pos k.name k.tparams ((env.table.flatFields k.id).map (·.ty))
          ((env.table.flatFields k.id).filterMap fun fd => filling.given.lookup fd.name) >>=
            settled env cls id k filling values
      else settled env cls id k filling values (some []) := by
  unfold initialized
  dsimp only
  rw [hmissing, hok, if_neg (by simp), if_neg (by simp)]
  split
  next hgeneric =>
    refine congrArg (infer _ _ _ _ _ _ >>= ·) (funext fun solved => ?_)
    cases solved with
    | none => rfl
    | some targs =>
        unfold settled
        rw [hgeneric]
        rfl
  next hgeneric =>
    unfold settled
    rw [Bool.not_eq_true] at hgeneric
    rw [hgeneric]
    rfl

theorem settled_adds {values : List (Ident × Typed.Expr)} {solved : Option (List Ty)} :
    Adds NotIncomplete (settled env cls id k filling values solved) := by
  cases solved with
  | none => exact .pure
  | some targs =>
      refine (assignableAll_adds).bind fun fits => ?_
      split
      all_goals exact .pure

/-- The values that are assigned are those of the elements. -/
theorem forall_mem_assigned {targs : List Ty}
    (hfilled : Filled (c.table.flatFields k.id) filling es)
    (hcomplete : ∀ fd ∈ c.table.flatFields k.id, (filling.given.lookup fd.name).isSome = true)
    {P : Operand → Ty → Prop} :
    (∀ e ∈ assigned c.table k targs filling, P e.1 e.2.1) ↔
      ∀ e ∈ es, ∀ fd ∈ c.table.flatFields k.id, fd.name = e.1.text →
        P e.2 (fd.ty.subst k.tparams targs) := by
  unfold assigned
  dsimp only
  rw [List.forall_mem_map]
  constructor
  · intro h e he fd hfd hname
    exact h (fd, e.2) ((mem_operands hfilled hcomplete).2 ⟨hfd, e, he, hname, rfl⟩)
  · rintro h ⟨fd, x⟩ hmem
    obtain ⟨hfd, e, he, hname, rfl⟩ := (mem_operands hfilled hcomplete).1 hmem
    exact h e he fd hfd hname

/-- The values of operands, each of which has been found. -/
theorem flatMap_zip_some (keys : List Ident) (ys : List Operand) :
    ((keys.zip (ys.map some)).flatMap fun e => e.2.toList.map fun x => (e.1, x.expr)) =
      (keys.zip ys).map fun e => (e.1, e.2.expr) := by
  rw [List.zip_map_right]
  induction keys.zip ys with
  | nil => rfl
  | cons e rest ih => simp [ih]

/-- What passes gives each field a value. -/
theorem settling_gives (henv : Inside c env)
    (hfilled : Filled (c.table.flatFields k.id) filling es)
    (hcomplete : ∀ fd ∈ c.table.flatFields k.id, (filling.given.lookup fd.name).isSome = true)
    (hperm : (es.map (·.1.text)).Perm ((c.table.flatFields k.id).map (·.name))) :
    Gives (if k.isGeneric then
        infer env cls.pos k.name k.tparams ((env.table.flatFields k.id).map (·.ty))
          ((env.table.flatFields k.id).filterMap fun fd => filling.given.lookup fd.name) >>=
            settled env cls id k filling (es.map fun e => (e.1, e.2.expr))
      else settled env cls id k filling (es.map fun e => (e.1, e.2.expr)) (some [])) fun r =>
    ∀ e, r = some e → ∃ targs, targs.length = k.tparams.length ∧ GivesFields c.table k targs es ∧
      e = initOf c.table cls id k targs es := by
  have hsettled : ∀ targs, targs.length = k.tparams.length →
      Gives (settled env cls id k filling (es.map fun e => (e.1, e.2.expr)) (some targs)) fun r =>
      ∀ e, r = some e → ∃ targs, targs.length = k.tparams.length ∧ GivesFields c.table k targs es ∧
        e = initOf c.table cls id k targs es := by
    intro targs htargs
    unfold settled
    dsimp only
    rw [henv.table]
    refine assignableAll_gives.bind fun fits hfits => ?_
    split
    next htrue =>
      refine .pure fun e he => ⟨targs, htargs, ⟨hperm, ?_⟩, (Option.some.inj he).symm⟩
      exact (forall_mem_assigned hfilled hcomplete (P := fun x ty =>
        Assignable c.table x.ty ty)).1 (hfits htrue)
    next => exact .pure (by simp)
  split
  next =>
    refine (infer_gives henv.collected _ _ _ _ _).bind fun solved hsolved => ?_
    cases solved with
    | none => exact .pure (by simp)
    | some targs => exact hsettled targs (hsolved targs rfl).1
  next hplain =>
    have hparams : k.tparams = [] := by simpa [ClassInfo.isGeneric] using hplain
    exact hsettled [] (by rw [hparams]; rfl)

theorem initialized_checks (cls id : Ident) (hc : CollectedOk f c) (henv : Inside c env)
    (hk : c.table.classNamed? name = some k)
    (h : filling.Took (c.table.flatFields k.id) ((elems.map (·.1)).zip xs))
    (hlen : xs.length = elems.length) (s : Session) :
    ChecksInitializer c.table cls id k elems xs s ((initialized env cls (.cls id) k filling
      (((elems.map (·.1)).zip xs).flatMap fun e => e.2.toList.map fun x => (e.1, x.expr))).run s) := by
  have hmissing := missing_eq h hlen
  rw [← henv.table] at hmissing
  by_cases hnone : neverGiven c.table k elems = []
  case neg =>
    unfold initialized
    dsimp only
    rw [hmissing, henv.table, if_pos (by simpa using hnone)]
    exact ⟨fun _ => rfl, fun hnil => absurd hnil hnone, fun e he => (nomatch he),
      fun _ ys hys hgives => absurd (hgives.neverGiven_eq_nil hys hlen) hnone⟩
  rw [henv.table, hnone] at hmissing
  cases hok : filling.ok with
  | false =>
      unfold initialized
      dsimp only
      rw [henv.table, hmissing, hok, if_neg (by simp), if_pos (by simp)]
      refine ⟨fun hne => absurd hnone hne, fun _ => ⟨[], rfl, by simp⟩, fun e he => (nomatch he), ?_⟩
      rintro _ ys rfl hgives
      exact absurd (h.ok_of_gives (hc.flatFields_nodup hk) hgives) (by simp [hok])
  | true =>
      obtain ⟨ys, rfl, hfilled, hcomplete, hperm⟩ := exists_values hc hk h hlen hok hnone
      rw [← henv.table] at hmissing
      rw [initialized_eq hmissing hok, flatMap_zip_some]
      refine ⟨fun hne => absurd hnone hne, fun _ => ?_, fun e he => ?_, ?_⟩
      · refine (?_ : Adds NotIncomplete _) s
        split
        · exact (infer_adds).bind fun solved => settled_adds
        · exact settled_adds
      · obtain ⟨targs, htargs, hfields, rfl⟩ := settling_gives henv hfilled hcomplete hperm s e he
        exact ⟨ys, targs, rfl, htargs, hfields, rfl⟩
      · rintro hplain ys' hys hfields
        obtain rfl : ys = ys' := List.map_injective_iff.2 (fun _ _ => Option.some.inj) hys
        rw [if_neg (by simp [hplain])]
        unfold settled
        dsimp only
        rw [henv.table, Watch.Ensures.run_bind, run_assignableAll]
        · rfl
        · refine (forall_mem_assigned hfilled hcomplete (P := fun x ty =>
            Assignable c.table x.ty ty ∧ ty.isInvalid = false)).2 fun e he fd hfd hname => ?_
          refine ⟨hfields.fits e he fd hfd hname, ?_⟩
          rw [Ty.subst_no_args]
          exact (hc.classNamed? hk).2 fd hfd

end

end Check

end ClassLang
