import ClassLang.Proofs.Check.Unit

/-!
Units that are collected. What is checked behind the declarations of a unit is checked only if
those were collected without an error.
-/

namespace ClassLang

namespace Check

variable {f : File} {c : Collected}

/-- Links and collects a unit. -/
def collection (f : File) : Check (Option Collected) := do
  match ← link f.decls with
  | none => return none
  | some t => collect f t

/-- A unit is collected before it is finished. -/
theorem unit_eq (f : File) : unit f = collection f >>= fun found =>
    match found with
    | none => return none
    | some c => finish f c := by
  funext s
  unfold unit collection
  change StateT.run _ s = StateT.run _ s
  rw [Watch.Ensures.run_bind, Watch.Ensures.run_bind, Watch.Ensures.run_bind]
  generalize (link f.decls).run s = r
  obtain ⟨table, s⟩ := r
  cases table <;> rfl

/-- `m` gives a result only if no error was reported until its end. -/
def GivesClean {α : Type} (m : Check (Option α)) : Prop :=
  ∀ s a, (m.run s).1 = some a → (m.run s).2.errors.failed = false

theorem GivesClean.bind {α β : Type} {m : Check α} {g : α → Check (Option β)}
    (hg : ∀ a, GivesClean (g a)) : GivesClean (m >>= g) := fun _ => hg _ _

theorem GivesClean.of_failed {α : Type} (a : α) :
    GivesClean (do if ← failed then return none else return some a) := by
  intro s b h
  rw [Watch.Ensures.run_bind] at h ⊢
  have hrun : failed.run s = (s.errors.failed, s) := rfl
  rw [hrun] at h ⊢
  cases hfailed : s.errors.failed with
  | true =>
      rw [hfailed] at h
      cases h
  | false => exact hfailed

theorem collect_givesClean (f : File) (t : Table) : GivesClean (collect f t) := by
  unfold collect
  exact .bind fun _ => .bind fun _ => .bind fun _ => .bind fun _ => .bind fun _ => .bind fun _ =>
    .of_failed _

/-- A unit that is collected is collected without an error, and no constant is looked at. -/
theorem collection_ok {limit : Option Nat} {s' : Session} (hlimit : limit ≠ some 0)
    (h : (collection f).run { errors := { limit } } = (some c, s')) :
    s'.errors = { limit } ∧ s'.consts = [] ∧ CollectedOk f c := by
  unfold collection at h
  rw [Watch.Ensures.run_bind] at h
  have hlink := link_ensures (w := { consts := (· = []) }) (P := True) f.decls
    { errors := { limit } }
  generalize (link f.decls).run { errors := { limit } } = r at h hlink
  obtain ⟨table, s₁⟩ := r
  cases table with
  | none => cases h
  | some table =>
      dsimp only at h hlink
      have hcollect := collect_ensures (w := { consts := (· = []) }) (t := table) (f := f) s₁
      have hfailed := collect_givesClean f table s₁ c (by rw [h])
      rw [h] at hcollect hfailed
      have herrors : s'.errors = { limit } :=
        (hlink.1.trans hcollect.1).eq_of_kept hlimit (by simpa [Collector.failed] using hfailed)
      have hend : s'.Clean := by
        rw [Session.Clean, herrors]
        exact ⟨rfl, rfl⟩
      obtain ⟨hmiddle, hok⟩ := hcollect.2 (Passed.upheld_iff.2 hend)
      obtain ⟨hvalid, table', heq, hlinked⟩ := (hlink.2 hmiddle).2 rfl trivial
      cases heq
      obtain ⟨hunfolded, c', heq, hc⟩ := hok hvalid hlinked
      cases heq
      exact ⟨herrors, hunfolded, hc⟩

/-- Without an error a unit is collected. -/
theorem collection_ensures {w : Watch} {P : Prop} (f : File) :
    w.Ensures (collection f) P fun r => ∃ c, r = some c ∧ CollectedOk f c := by
  unfold collection
  refine (link_ensures f.decls).bind fun r => ?_
  split
  next => exact .pure fun h => by simp at h
  next t =>
    refine collect_ensures.imp (fun h => ?_) fun _ _ h => h
    obtain ⟨_, t', heq, hlinked⟩ := h
    cases heq
    exact hlinked

end Check

namespace File

/-- What is collected of a unit whose declarations are without an error. -/
def collected? (f : File) (limit : Option Nat) : Option Check.Collected :=
  ((Check.collection f).run { errors := { limit } }).1

theorem collected?_ok {f : File} {limit : Option Nat} {c : Check.Collected}
    (h : f.collected? limit = some c) (hlimit : limit ≠ some 0) : Check.CollectedOk f c :=
  (Check.collection_ok hlimit (Prod.ext h rfl)).2.2

end File

end ClassLang
