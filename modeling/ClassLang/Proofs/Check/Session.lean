import ClassLang.Check.Session

/-!
How checker steps are reasoned about. A session is clean as long as no error was
reported, and no step makes it clean again; so what a step promises for a clean
end may be used together with what every later step promises. The same goes for
bounds that are put off: what all of them satisfy in the end, those put off so far do.
-/

namespace ClassLang

namespace Collector

/-- No error was found. -/
def Clean (c : Collector) : Prop := c.kept = [] ∧ c.full = false

theorem limit_add (c : Collector) (d : Diagnostic) : (c.add d).limit = c.limit := by
  unfold add
  split <;> rfl

theorem not_clean_add (c : Collector) (d : Diagnostic) : ¬ (c.add d).Clean := by
  intro h
  unfold add at h
  split at h
  · simpa using h.2
  · simpa using h.1

theorem not_clean_foldl_add (ds : List Diagnostic) {c : Collector} (h : ¬ c.Clean) :
    ¬ (ds.foldl add c).Clean := by
  induction ds generalizing c with
  | nil => exact h
  | cons d rest ih => exact ih (not_clean_add c d)

/-- Adding errors leaves a collector clean only if there are none. -/
theorem clean_foldl_add {ds : List Diagnostic} {c : Collector} (h : (ds.foldl add c).Clean) :
    ds = [] ∧ c.Clean := by
  cases ds with
  | nil => exact ⟨rfl, h⟩
  | cons d rest => exact absurd h (not_clean_foldl_add rest (not_clean_add c d))

theorem Clean.failed {c : Collector} (h : c.Clean) : c.failed = false := by
  simp [Collector.failed, h.1]

/-- `c'` comes from `c` by adding errors. -/
def Follows (c c' : Collector) : Prop := ∃ ds : List Diagnostic, c' = ds.foldl add c

namespace Follows

variable {c c' c'' : Collector}

theorem refl (c : Collector) : Follows c c := ⟨[], rfl⟩

theorem trans (h : Follows c c') (h' : Follows c' c'') : Follows c c'' := by
  obtain ⟨ds, rfl⟩ := h
  obtain ⟨ds', rfl⟩ := h'
  exact ⟨ds ++ ds', List.foldl_append.symm⟩

theorem clean (h : Follows c c') (hclean : c'.Clean) : c.Clean := by
  obtain ⟨ds, rfl⟩ := h
  exact (clean_foldl_add hclean).2

theorem limit (h : Follows c c') : c'.limit = c.limit := by
  obtain ⟨ds, rfl⟩ := h
  induction ds generalizing c with
  | nil => rfl
  | cons d rest ih => rw [List.foldl_cons, ih, limit_add]

end Follows

/-- The first error is kept, unless none is to be kept at all. -/
theorem kept_add_ne_nil {c : Collector} (hlimit : c.limit ≠ some 0) (d : Diagnostic) :
    (c.add d).kept ≠ [] := by
  unfold add
  split
  next hfull =>
    intro hnil
    have hkept : c.kept = [] := hnil
    unfold atLimit size at hfull
    cases hl : c.limit with
    | none => simp [hl] at hfull
    | some n =>
        rw [hl] at hlimit
        simp [hl, hkept] at hfull
        exact hlimit (by rw [hfull])
  next => simp

/-- Where nothing is kept, nothing was added. -/
theorem Follows.eq_of_kept {c c' : Collector} (h : Follows c c') (hlimit : c.limit ≠ some 0)
    (hkept : c'.kept = []) : c' = c := by
  obtain ⟨ds, rfl⟩ := h
  rcases List.eq_nil_or_concat ds with rfl | ⟨ds, d, rfl⟩
  · rfl
  · rw [List.concat_eq_append, List.foldl_append, List.foldl_cons, List.foldl_nil] at hkept
    have hlimit' : (ds.foldl add c).limit ≠ some 0 := by
      rw [Follows.limit ⟨ds, rfl⟩]
      exact hlimit
    exact absurd hkept (kept_add_ne_nil hlimit' d)

end Collector

namespace Constant

/-- A constant that a variable of the type can hold. -/
def Fits : Constant → Ty → Prop
  | .int n, .int => minInt ≤ n ∧ n ≤ maxInt
  | .float _, .float => True
  | .bool _, .bool => True
  | .str _, .str => True
  | _, _ => False

end Constant

namespace Check

variable {α β : Type}

/-- What is watched while the checker runs: what holds of every bound that was put off,
once all is done, and what holds of the constants that have been looked at so far. -/
structure Watch where
  duty : Duty → Prop := fun _ => True
  consts : List (String × Folding) → Prop

namespace Session

/-- No error was reported. -/
def Clean (s : Session) : Prop := s.errors.Clean

/-- No error was reported, and what was put off is as `w` asks. -/
def Upheld (w : Watch) (s : Session) : Prop := s.Clean ∧ ∀ d ∈ s.duties, w.duty d

/-- The constants looked at so far are as `w` asks. -/
def Valid (w : Watch) (s : Session) : Prop := w.consts s.consts

end Session

/-- `m` only adds errors, and takes neither an error nor a bound that was put off back. From a valid
session in which `P` holds, when `m` ends in one that is upheld, the session is valid again and the
result satisfies `Q`. -/
def Watch.Ensures (w : Watch) (m : Check α) (P : Prop) (Q : α → Prop) : Prop :=
  ∀ s : Session, s.errors.Follows (m.run s).2.errors ∧ ((m.run s).2.Upheld w →
    s.Upheld w ∧ (s.Valid w → P → (m.run s).2.Valid w ∧ Q (m.run s).1))

/-- Every constant folded so far is as `K` says. -/
def Watch.each (K : Typed.Const → Prop) : Watch :=
  { consts := fun list => ∀ name c, (name, Folding.done (some c)) ∈ list → K c }

/-- Every constant folded so far has a value of its type. -/
def Watch.values : Watch := .each fun c => c.value.Fits c.type.ty

/-- What a step promises about values: that those of constants have their types. -/
abbrev Ensures (m : Check α) (P : Prop) (Q : α → Prop) : Prop := Watch.values.Ensures m P Q

namespace Watch.Ensures

variable {w : Watch} {P P' : Prop} {Q Q' : α → Prop} {R : β → Prop}

theorem run_bind (m : Check α) (f : α → Check β) (s : Session) :
    (m >>= f).run s = (f (m.run s).1).run (m.run s).2 := rfl

theorem pure {a : α} (h : P → Q a) : w.Ensures (Pure.pure a) P Q := by
  intro s
  exact ⟨.refl _, fun hend => ⟨hend, fun hvalid hp => ⟨hvalid, h hp⟩⟩⟩

theorem bind {m : Check α} {f : α → Check β} (hm : w.Ensures m P Q)
    (hf : ∀ a, w.Ensures (f a) (P ∧ Q a) R) : w.Ensures (m >>= f) P R := by
  intro s
  rw [run_bind]
  obtain ⟨hadds, hfirst⟩ := hm s
  obtain ⟨hadds', hrest⟩ := hf (m.run s).1 (m.run s).2
  refine ⟨hadds.trans hadds', fun hend => ?_⟩
  obtain ⟨hmid, hrest⟩ := hrest hend
  obtain ⟨hstart, hfirst⟩ := hfirst hmid
  refine ⟨hstart, fun hvalid hp => ?_⟩
  obtain ⟨hvalid', hq⟩ := hfirst hvalid hp
  exact hrest hvalid' ⟨hp, hq⟩

theorem imp {m : Check α} (hm : w.Ensures m P Q) (hp : P' → P)
    (hq : P' → ∀ a, Q a → Q' a) : w.Ensures m P' Q' := by
  intro s
  obtain ⟨hadds, hrest⟩ := hm s
  refine ⟨hadds, fun hend => ⟨(hrest hend).1, fun hvalid hp' => ?_⟩⟩
  obtain ⟨hvalid', hqa⟩ := (hrest hend).2 hvalid (hp hp')
  exact ⟨hvalid', hq hp' _ hqa⟩

theorem and {m : Check α} (hm : w.Ensures m P Q) (hm' : w.Ensures m P Q') :
    w.Ensures m P fun a => Q a ∧ Q' a := by
  intro s
  refine ⟨(hm s).1, fun hend => ⟨((hm s).2 hend).1, fun hvalid hp => ?_⟩⟩
  obtain ⟨hvalid', hq⟩ := ((hm s).2 hend).2 hvalid hp
  exact ⟨hvalid', hq, (((hm' s).2 hend).2 hvalid hp).2⟩

/-- A further promise that rests on a further condition. -/
theorem under {H : Prop} {m : Check α} (hm : w.Ensures m P Q) (hm' : w.Ensures m (P ∧ H) Q') :
    w.Ensures m P fun a => Q a ∧ (H → Q' a) := by
  intro s
  refine ⟨(hm s).1, fun hend => ⟨((hm s).2 hend).1, fun hvalid hp => ?_⟩⟩
  obtain ⟨hvalid', hq⟩ := ((hm s).2 hend).2 hvalid hp
  exact ⟨hvalid', hq, fun hH => (((hm' s).2 hend).2 hvalid ⟨hp, hH⟩).2⟩

/-- Promises under a condition that does not hold are empty. -/
theorem vacuous {m : Check α} (hm : w.Ensures m P' Q') (hp : ¬ P) : w.Ensures m P Q :=
  hm.imp (fun h => (hp h).elim) fun h => (hp h).elim

/-- What the condition tells about a parameter may be used. -/
theorem of_eq {γ : Type} {x y : γ} {P : γ → Prop} {Q : γ → α → Prop} {m : Check α}
    (heq : P y → x = y) (hm : w.Ensures m (P x) (Q x)) : w.Ensures m (P y) (Q y) :=
  hm.imp (fun h => heq h ▸ h) fun h _ hq => heq h ▸ hq

/-- What the condition says to exist may be named, if one instance leads on. -/
theorem of_exists {γ : Type} [Inhabited γ] {P : Prop} {S : γ → Prop} {m : Check α}
    (hm : ∀ x, w.Ensures m (P ∧ S x) Q) : w.Ensures m (P ∧ ∃ x, S x) Q := by
  intro s
  refine ⟨(hm default s).1, fun hend => ⟨((hm default s).2 hend).1, fun hvalid hp => ?_⟩⟩
  obtain ⟨hp, x, hx⟩ := hp
  exact ((hm x s).2 hend).2 hvalid ⟨hp, hx⟩

theorem map {m : Check α} {g : α → β} (hm : w.Ensures m P fun a => R (g a)) :
    w.Ensures (g <$> m) P R := hm

/-- A step that reports an error promises anything. -/
theorem report {kind : ErrorKind} {pos : Pos} {message : String} {Q : Unit → Prop} :
    w.Ensures (report kind pos message) P Q := by
  intro s
  exact ⟨⟨[_], rfl⟩,
    fun hend => absurd hend.1 (Collector.not_clean_add s.errors _)⟩

theorem fail {kind : ErrorKind} {pos : Pos} {message : String} {Q : Option α → Prop} :
    w.Ensures (fail kind pos message) P Q :=
  (report (Q := fun _ => False)).bind fun _ => .pure fun h => h.2.elim

/-- What follows a report does not matter, as long as it takes no error back. -/
theorem report_bind {kind : ErrorKind} {pos : Pos} {message : String} {f : Unit → Check β}
    (hf : w.Ensures (f ()) False R) : w.Ensures (Check.report kind pos message >>= f) P R :=
  (report (Q := fun _ => False)).bind fun _ => hf.imp (fun h => h.2) fun h => h.2.elim

/-- After an error that is reported under the condition `c`, `c` does not hold. -/
theorem report_if {c : Prop} [Decidable c] {kind : ErrorKind} {pos : Pos} {message : String}
    {m : Check β} (hm : w.Ensures m (P ∧ ¬ c) R) :
    w.Ensures (if c then Check.report kind pos message >>= fun _ => m else m) P R := by
  split
  next => exact report_bind (hm.imp False.elim fun h => h.elim)
  next hc => exact hm.imp (fun hp => ⟨hp, hc⟩) fun _ _ h => h

/-- Two ways to a result that is used in one way. -/
theorem ite_bind {c : Prop} [Decidable c] {m m' : Check α} {f : α → Check β}
    (hm : c → w.Ensures m P Q) (hm' : ¬ c → w.Ensures m' P Q)
    (hf : ∀ a, w.Ensures (f a) (P ∧ Q a) R) :
    w.Ensures (if c then m >>= f else m' >>= f) P R := by
  split
  next hc => exact (hm hc).bind hf
  next hc => exact (hm' hc).bind hf

theorem reportAll {ds : List Diagnostic} :
    w.Ensures (reportAll ds) P fun _ => ds = [] := by
  intro s
  refine ⟨⟨ds, rfl⟩, fun hend => ?_⟩
  obtain ⟨hds, hstart⟩ := Collector.clean_foldl_add hend.1
  exact ⟨⟨hstart, hend.2⟩, fun hvalid _ => ⟨hvalid, hds⟩⟩

theorem failed : w.Ensures failed P fun b => b = false := by
  intro s
  exact ⟨.refl _, fun hend => ⟨hend, fun hvalid _ => ⟨hvalid, Collector.Clean.failed hend.1⟩⟩⟩

theorem full : w.Ensures full P fun b => b = false := by
  intro s
  exact ⟨.refl _, fun hend => ⟨hend, fun hvalid _ => ⟨hvalid, hend.1.2⟩⟩⟩

theorem get : w.Ensures (MonadState.get : Check Session) P (Session.Valid w) := by
  intro s
  exact ⟨.refl _, fun hend => ⟨hend, fun hvalid _ => ⟨hvalid, hvalid⟩⟩⟩

theorem discard {m : Check α} {Q : Unit → Prop} (hm : w.Ensures m P fun _ => Q ()) :
    w.Ensures (discard m) P Q := hm

theorem follows {m : Check α} (h : w.Ensures m P Q) (s : Session) :
    s.errors.Follows (m.run s).2.errors := (h s).1

/-- What a step promises at a clean end, where no bound that is put off is watched. -/
theorem run_clean {consts : List (String × Folding) → Prop} {m : Check α}
    (h : Ensures { consts } m P Q) {s : Session} (hclean : (m.run s).2.Clean)
    (hvalid : s.Valid { consts }) (hp : P) : (m.run s).2.Valid { consts } ∧ Q (m.run s).1 :=
  ((h s).2 ⟨hclean, fun _ _ => trivial⟩).2 hvalid hp

/-- The same for a step that follows one of which only the end is known. -/
theorem run_bind_clean {consts : List (String × Folding) → Prop} {m : Check α} {f : α → Check β}
    {s : Session} (hf : Ensures { consts } (f (m.run s).1) True R)
    (hmid : (m.run s).2.Clean → (m.run s).2.Valid { consts })
    (hclean : ((m >>= f).run s).2.Clean) : R ((m >>= f).run s).1 := by
  rw [run_bind] at hclean ⊢
  exact (hf.run_clean hclean (hmid ((hf.follows _).clean hclean)) trivial).2

end Watch.Ensures

/-! Results -/

/-- Whatever the session is, what `m` gives has the property `Q`. -/
def Gives (m : Check α) (Q : α → Prop) : Prop := ∀ s, Q (m.run s).1

namespace Gives

variable {Q R : α → Prop}

theorem pure {a : α} (h : Q a) : Gives (pure a) Q := fun _ => h

theorem bind {m : Check α} {f : α → Check β} {R : β → Prop} (hm : Gives m Q)
    (hf : ∀ a, Q a → Gives (f a) R) : Gives (m >>= f) R :=
  fun s => hf _ (hm s) _

theorem trivial (m : Check α) : Gives m fun _ => True := fun _ => True.intro

theorem report_bind {kind : ErrorKind} {pos : Pos} {message : String} {f : Unit → Check β}
    {R : β → Prop} (hf : Gives (f ()) R) : Gives (Check.report kind pos message >>= f) R :=
  fun _ => hf _

theorem fail {kind : ErrorKind} {pos : Pos} {message : String} {Q : α → Prop} :
    Gives (Check.fail kind pos message) fun r => ∀ a, r = some a → Q a :=
  fun _ _ h => by cases h

theorem imp {m : Check α} (h : Gives m Q) (himp : ∀ a, Q a → R a) : Gives m R :=
  fun s => himp _ (h s)

end Gives

theorem Watch.Ensures.gives {w : Watch} {P : Prop} {m : Check α} {Q R : α → Prop}
    (h : w.Ensures m P Q) (hgives : Gives m R) : w.Ensures m P fun a => Q a ∧ R a := by
  intro s
  refine ⟨(h s).1, fun hend => ⟨((h s).2 hend).1, fun hvalid hp => ?_⟩⟩
  obtain ⟨hvalid', hq⟩ := ((h s).2 hend).2 hvalid hp
  exact ⟨hvalid', hq, hgives s⟩

end Check

end ClassLang
