import ClassLang.Proofs.Check.Unit
import ClassLang.Proofs.Tree.Names

/-!
A text that parses and passes the checker is well typed as a whole.
-/

namespace ClassLang

namespace Check

variable {t : Table} {funcs : List (String × Bool × Signature)} {d : Decl} {k : Typed.Decl}
  {ds : List Decl} {ks : List Typed.Decl}

/-- Lists of entries with the same keys agree if each entry of one is found in the other. -/
theorem eq_of_lookup {α : Type} : ∀ {l l' : List (String × α)}, l.map (·.1) = l'.map (·.1) →
    (l'.map (·.1)).Nodup → (∀ e ∈ l, l'.lookup e.1 = some e.2) → l = l'
  | [], [], _, _, _ => rfl
  | (a, x) :: l, (b, y) :: l', hkeys, hnodup, hall => by
      obtain ⟨rfl, hrest⟩ : a = b ∧ l.map (·.1) = l'.map (·.1) := by simpa using hkeys
      obtain ⟨hfresh, hnodup⟩ := List.nodup_cons.1 hnodup
      have hhead := hall (a, x) List.mem_cons_self
      obtain rfl : y = x := by simpa using hhead
      refine congrArg _ (eq_of_lookup hrest hnodup fun e he => ?_)
      have hne : e.1 ≠ a := by
        rintro rfl
        have hmem : e.1 ∈ l.map (·.1) := List.mem_map_of_mem he
        exact hfresh (hrest ▸ hmem)
      have hlookup := hall e (List.mem_cons_of_mem _ he)
      rwa [List.lookup_cons, beq_eq_false_iff_ne.2 hne] at hlookup

theorem forall₂_partner {α β : Type} {R : α → β → Prop} {l : List α} {l' : List β}
    (h : List.Forall₂ R l l') {a : α} (ha : a ∈ l) : ∃ b ∈ l', R a b := by
  induction h with
  | nil => cases ha
  | cons hfirst _ ih =>
      rcases List.mem_cons.1 ha with rfl | ha
      · exact ⟨_, List.mem_cons_self, hfirst⟩
      · obtain ⟨b, hb, hR⟩ := ih ha
        exact ⟨b, List.mem_cons_of_mem _ hb, hR⟩

/-! The functions of a checked unit -/

/-- A checked function of a unit stands for one of its functions. -/
theorem DeclFaithful.of_func (h : List.Forall₂ (DeclFaithful t funcs) ds ks) {g : Typed.Func}
    (hg : .func g ∈ ks) : .func g.decl ∈ ds ∧ DeclFaithful t funcs (.func g.decl) (.func g) := by
  obtain ⟨d, hd, hfaithful⟩ := forall₂_partner h.flip hg
  cases d with
  | func d =>
      obtain rfl := hfaithful.1
      exact ⟨hd, hfaithful⟩
  | _ => exact hfaithful.elim

/-- A checked class of a unit stands for one of its classes. -/
theorem DeclFaithful.of_class (h : List.Forall₂ (DeclFaithful t funcs) ds ks) {k : Typed.Class}
    (hk : .cls k ∈ ks) : ∃ d, .cls d ∈ ds ∧ DeclFaithful t funcs (.cls d) (.cls k) := by
  obtain ⟨d, hd, hfaithful⟩ := forall₂_partner h.flip hk
  cases d with
  | cls d => exact ⟨d, hd, hfaithful⟩
  | _ => exact hfaithful.elim

/-- Every class of a unit has its checked class. -/
theorem DeclFaithful.class_of (h : List.Forall₂ (DeclFaithful t funcs) ds ks) {d : ClassDecl}
    (hd : .cls d ∈ ds) : ∃ k, .cls k ∈ ks ∧ DeclFaithful t funcs (.cls d) (.cls k) := by
  obtain ⟨k, hk, hfaithful⟩ := forall₂_partner h hd
  cases k with
  | cls k => exact ⟨k, hk, hfaithful⟩
  | _ => exact hfaithful.elim

theorem DeclFaithful.funcs_decl (h : List.Forall₂ (DeclFaithful t funcs) ds ks) (name : String)
    (scope : Scope Symbol) (pos : Pos) :
    (Typed.File.funcs ⟨name, ks, t, scope⟩).map (·.decl) = File.funcs ⟨name, pos, ds⟩ := by
  unfold Typed.File.funcs File.funcs
  induction h with
  | nil => rfl
  | @cons d k ds ks hfirst hrest ih =>
      cases d <;> cases k <;>
        first
        | exact hfirst.elim
        | simpa using ih
        | simpa [hfirst.1] using ih

/-- The first part of the name of a function: that of a method is its class. -/
def refHead : FuncRef → String
  | .func name => name
  | .method cls _ => cls

theorem refs_methods (ht : t.WellTyped) {c : ClassInfo} (hc : c ∈ t.classes)
    {gs : List Typed.Func} {Γ : Typed.Context} {own : Ty}
    (h : List.Forall₂ (MethodFaithful Γ own) c.methods gs) :
    (gs.map (·.ref)).Nodup ∧ ∀ r ∈ gs.map (·.ref), refHead r = c.name := by
  have hrefs : gs.map (·.ref) = c.methods.map (·.ref) := by
    refine (List.forall₂_iff_get.1 h) |> fun ⟨hlen, hget⟩ => List.ext_getElem (by simp [hlen]) ?_
    intro i hi hi'
    simp only [List.getElem_map]
    exact (hget i (by simpa using hi') (by simpa using hi)).ref
  rw [hrefs]
  constructor
  · refine List.Nodup.of_map (fun r => match r with | .func n => n | .method _ n => n) ?_
    rw [List.map_map]
    exact ht.method_names c hc
  · intro r hr
    obtain ⟨m, hm, rfl⟩ := List.mem_map.1 hr
    exact ht.method_owner c hc m hm

theorem refs_nodup (ht : t.WellTyped) (h : List.Forall₂ (DeclFaithful t funcs) ds ks)
    (hnames : (ds.map (·.name.text)).Nodup) (name : String) (scope : Scope Symbol) :
    ((Typed.File.bodies ⟨name, ks, t, scope⟩).map (·.ref)).Nodup ∧
      ∀ r ∈ (Typed.File.bodies ⟨name, ks, t, scope⟩).map (·.ref),
        refHead r ∈ ds.map (·.name.text) := by
  unfold Typed.File.bodies
  induction h with
  | nil => simp
  | @cons d k ds ks hfirst hrest ih =>
      obtain ⟨hfresh, hnames⟩ := List.nodup_cons.1 hnames
      obtain ⟨hnodup, hheads⟩ := ih hnames
      -- what the first declaration adds has the name of that declaration
      have hown : ∀ gs : List Typed.Func, (gs.map (·.ref)).Nodup →
          (∀ r ∈ gs.map (·.ref), refHead r = d.name.text) → 
          ((gs ++ Typed.File.bodies ⟨name, ks, t, scope⟩).map (·.ref)).Nodup ∧
            ∀ r ∈ (gs ++ Typed.File.bodies ⟨name, ks, t, scope⟩).map (·.ref),
              refHead r ∈ (d :: ds).map (·.name.text) := by
        intro gs hgs hhead
        rw [List.map_append]
        refine ⟨List.nodup_append.2 ⟨hgs, hnodup, ?_⟩, fun r hr => ?_⟩
        · rintro a ha b hb rfl
          have hmem := hheads a hb
          rw [hhead a ha] at hmem
          exact hfresh hmem
        · rcases List.mem_append.1 hr with hr | hr
          · rw [hhead r hr]
            exact List.mem_cons_self
          · exact List.mem_cons_of_mem _ (hheads r hr)
      rw [List.flatMap_cons]
      cases d <;> cases k <;> try exact hfirst.elim
      case cls.cls d k =>
        obtain ⟨c, hc, rfl, _, hmethods⟩ := hfirst
        obtain ⟨hgs, hhead⟩ := refs_methods ht hc hmethods
        exact hown k.methods hgs hhead
      case func.func d g =>
        obtain ⟨rfl, href, _⟩ := hfirst
        dsimp only
        split
        · exact hown [] (by simp) (by simp)
        · exact hown [g] (by simp) (by simp [href, refHead, Decl.name])
      all_goals exact hown [] (by simp) (by simp)

end Check

namespace Typed.File

variable {u : Typed.File}

theorem mem_funcs {g : Typed.Func} : g ∈ u.funcs ↔ .func g ∈ u.decls := by
  unfold funcs
  rw [List.mem_filterMap]
  constructor
  · rintro ⟨k, hk, heq⟩
    cases k <;> simp only [Option.some.injEq, reduceCtorEq] at heq
    exact heq ▸ hk
  · exact fun hg => ⟨_, hg, rfl⟩

theorem mem_bodies {g : Typed.Func} : g ∈ u.bodies ↔
    (.func g ∈ u.decls ∧ g.decl.host = false) ∨ ∃ k, .cls k ∈ u.decls ∧ g ∈ k.methods := by
  unfold bodies
  rw [List.mem_flatMap]
  constructor
  · rintro ⟨k, hk, hg⟩
    cases k with
    | func g' =>
        cases hhost : g'.decl.host <;> simp [hhost] at hg
        subst hg
        exact Or.inl ⟨hk, hhost⟩
    | cls k => exact Or.inr ⟨k, hk, hg⟩
    | _ => cases hg
  · rintro (⟨hg, hhost⟩ | ⟨k, hk, hg⟩)
    · exact ⟨_, hg, by simp [hhost]⟩
    · exact ⟨_, hk, hg⟩

end Typed.File

namespace File

variable {f : File} {limit : Option Nat} {u : Typed.File}

theorem mem_functions_func {d : FuncDecl} (h : .func d ∈ f.decls) : d ∈ f.functions :=
  List.mem_flatMap.2 ⟨_, h, List.mem_singleton.2 rfl⟩

theorem mem_functions_method {d : ClassDecl} (h : .cls d ∈ f.decls) {m : FuncDecl}
    (hm : m ∈ d.methods) : m ∈ f.functions := List.mem_flatMap.2 ⟨_, h, hm⟩

theorem binders_sublist {d : FuncDecl} (hd : d ∈ f.functions) : d.binders.Sublist f.places := by
  obtain ⟨decl, hdecl, hd⟩ := List.mem_flatMap.1 hd
  have hown : decl.places.Sublist f.places :=
    List.sublist_flatten_of_mem (List.mem_map_of_mem hdecl)
  have hfunc : d.places.Sublist decl.places := by
    cases decl with
    | func d' =>
        obtain rfl := List.mem_singleton.1 hd
        exact List.Sublist.refl _
    | cls k =>
        have hmethod : d.places.Sublist (k.methods.flatMap FuncDecl.places) :=
          List.sublist_flatten_of_mem (List.mem_map_of_mem hd)
        exact hmethod.trans (List.sublist_append_right _ _)
    | _ => cases hd
  exact (List.sublist_cons_self _ _).trans (hfunc.trans hown)

/-- The checked functions of a unit are those that were collected. -/
theorem signatures_eq {c : Check.Collected} (hc : Check.CollectedOk f c)
    (hdecls : List.Forall₂ (Check.DeclFaithful u.table (Check.CollectedOk.signatures c))
      f.decls u.decls) : u.signatures = Check.CollectedOk.signatures c := by
  have hfuncs : u.funcs.map (·.decl) = f.funcs :=
    Check.DeclFaithful.funcs_decl hdecls u.name u.scope f.pos
  refine Check.eq_of_lookup ?_ ?_ ?_
  · have hleft : u.signatures.map (·.1) = (u.funcs.map (·.decl)).map (·.name.text) := by
      simp [Typed.File.signatures]
    have hright : (Check.CollectedOk.signatures c).map (·.1) = f.funcs.map (·.name.text) := by
      rw [← hc.funcs.decls]
      simp [Check.CollectedOk.signatures]
    rw [hleft, hright, hfuncs]
  · simpa [Check.CollectedOk.signatures, Function.comp_def] using hc.funcs_nodup
  · intro e he
    obtain ⟨g, hg, rfl⟩ := List.mem_map.1 he
    exact (Check.DeclFaithful.of_func hdecls (Typed.File.mem_funcs.1 hg)).2.2.2.2.2.1

theorem func_shaped (hshaped : ∀ d ∈ f.decls, d.Shaped) {d : FuncDecl} (hd : d ∈ f.functions) :
    d.Shaped := by
  obtain ⟨decl, hdecl, hd⟩ := List.mem_flatMap.1 hd
  have hown := hshaped decl hdecl
  cases decl with
  | func d' =>
      obtain rfl := List.mem_singleton.1 hd
      exact hown.1
  | cls k => exact (hown d hd).1
  | _ => cases hd

/-- A checked method of a class implements the method of the table. -/
theorem implements_of_faithful {c : Check.Collected} (hsig : u.signatures =
      Check.CollectedOk.signatures c) {info : ClassInfo} {m : Method} {g : Typed.Func}
    (hg : Check.MethodFaithful ⟨u.table, Check.CollectedOk.signatures c, info.tparams⟩
      (Check.selfType info) m g) (hrecv : g.decl.recv.isSome = true) : u.Implements info m g where
  ref := hg.ref
  sig := hg.sig
  recv := by
    obtain ⟨id, hid⟩ := Option.isSome_iff_exists.1 hrecv
    exact ⟨_, by rw [hg.recv, hid]; rfl, rfl⟩
  ok := by
    unfold Typed.File.context
    rw [hsig]
    exact hg.ok

theorem class_decl_mem {c : Check.Collected} (hc : Check.CollectedOk f c) {info : ClassInfo}
    (hinfo : info ∈ c.table.classes) : .cls info.decl ∈ f.decls := by
  have hmem : info.decl ∈ f.decls.filterMap Decl.cls? := by
    rw [← hc.linkedTo.classes]
    exact List.mem_map_of_mem hinfo
  obtain ⟨d, hd, heq⟩ := List.mem_filterMap.1 hmem
  cases d with
  | cls d =>
      obtain rfl : d = info.decl := by simpa [Decl.cls?] using heq
      exact hd
  | _ => simp [Decl.cls?] at heq

/-- The methods of the classes in the table are those that the unit declares. -/
theorem method_name_mem {c : Check.Collected} (hc : Check.CollectedOk f c) :
    ∀ k ∈ c.table.classes, ∀ m ∈ k.methods, m.name ∈ f.functions.map (·.name.text) := by
  intro k hk m hm
  obtain ⟨id, hid⟩ := List.mem_iff_getElem?.1 hk
  obtain ⟨ms, _, _, hclasses⟩ := hc.members
  obtain ⟨info, members, _, hok⟩ := hclasses id (Table.class?_eq_some_lt hid)
  obtain rfl : info = k := Option.some.inj (hok.class?.symm.trans hid)
  rw [hok.methods] at hm
  obtain ⟨p, hp, rfl⟩ := List.mem_map.1 hm
  have hdecl : p.decl ∈ info.decl.methods := hok.method_decls.decls ▸ List.mem_map_of_mem hp
  exact List.mem_map.2 ⟨p.decl, mem_functions_method (class_decl_mem hc hk) hdecl, rfl⟩

theorem length_functions_le (f : File) : f.functions.length ≤ f.places.length := by
  unfold functions places
  induction f.decls with
  | nil => exact Nat.le_refl _
  | cons d rest ih =>
      have hown : d.functions.length ≤ d.places.length := by
        cases d with
        | func d => simp [Decl.functions, Decl.places, FuncDecl.places]
        | cls d =>
            have hmethods : d.methods.length ≤ (d.methods.flatMap FuncDecl.places).length := by
              induction d.methods with
              | nil => exact Nat.le_refl _
              | cons m ms ihm =>
                  simp only [List.flatMap_cons, List.length_append, List.length_cons,
                    FuncDecl.places]
                  omega
            simp only [Decl.functions, Decl.places, ClassDecl.places, List.length_append]
            omega
        | _ => simp [Decl.functions]
      simp only [List.flatMap_cons, List.length_append]
      omega

/-- The bodies of a unit that passes are those of functions that it declares. -/
theorem check_bodies (hshaped : ∀ d ∈ f.decls, d.Shaped) (h : f.check limit = .ok u)
    (hlimit : limit ≠ some 0) :
    ∀ g ∈ u.bodies, g.decl ∈ f.functions ∧ g.decl.host = false ∧ Check.Located g := by
  obtain ⟨c, hc, htable, hdecls⟩ := check_finish h hlimit
  rw [← htable] at hdecls
  replace hdecls := hdecls fun d hd => (func_shaped hshaped hd).body
  intro g hg
  obtain ⟨hg, hhost⟩ | ⟨k, hk, hg⟩ := Typed.File.mem_bodies.1 hg
  · obtain ⟨hd, _, _, _, _, _, _, hlocated⟩ := Check.DeclFaithful.of_func hdecls hg
    exact ⟨mem_functions_func hd, hhost, hlocated⟩
  · obtain ⟨d, hd, info, _, _, hdecl, hmethods⟩ := Check.DeclFaithful.of_class hdecls hk
    have hmem : g.decl ∈ d.methods := hdecl ▸ List.mem_map_of_mem hg
    obtain ⟨m, _, hfaithful⟩ := Check.forall₂_partner hmethods.flip hg
    exact ⟨mem_functions_method hd hmem, (hshaped _ hd g.decl hmem).2.2, hfaithful.located⟩

/-- A unit whose tree is as that of a text and that passes is well typed as a whole. -/
theorem check_ok (hplaces : f.places.Nodup) (hshaped : ∀ d ∈ f.decls, d.Shaped)
    (h : f.check limit = .ok u) (hlimit : limit ≠ some 0) : u.Ok := by
  obtain ⟨c, hc, htable, hdecls⟩ := check_finish h hlimit
  rw [← htable] at hdecls
  replace hdecls := hdecls fun d hd => (func_shaped hshaped hd).body
  have ht : u.table.WellTyped := htable ▸ hc.wellTyped
  have hsig := signatures_eq hc hdecls
  have hcontext : ∀ Δ, u.context Δ = ⟨u.table, Check.CollectedOk.signatures c, Δ⟩ := by
    intro Δ
    rw [Typed.File.context, hsig]
  have hmethod : ∀ {k : Typed.Class}, .cls k ∈ u.decls → ∀ g ∈ k.methods,
      g.decl ∈ f.functions ∧ g.decl.recv.isSome = true ∧ g.decl.host = false := by
    intro k hk g hg
    obtain ⟨d, hd, _, _, _, hmethods, _⟩ := Check.DeclFaithful.of_class hdecls hk
    have hmem : g.decl ∈ d.methods := hmethods ▸ List.mem_map_of_mem hg
    exact ⟨mem_functions_method hd hmem, (hshaped _ hd g.decl hmem).2⟩
  have hbody := check_bodies hshaped h hlimit
  refine
    { sound := ?_
      refs := (Check.refs_nodup ht hdecls hc.linkedTo.nodup u.name u.scope).1
      names := ?_
      funcs := ?_
      free := ?_
      methods := ?_
      bodies := ?_
      bodied := ?_
      binders := ?_ }
  · rw [hcontext, htable]
    exact hc.sound
  · have hkeys := congrArg (List.map (·.1)) hsig
    simp only [Typed.File.signatures, Check.CollectedOk.signatures, List.map_map,
      Function.comp_def] at hkeys
    rw [hkeys]
    exact hc.funcs_nodup
  · intro g hg
    obtain ⟨_, _, href, hrecv, hhost, _, hok, _⟩ :=
      Check.DeclFaithful.of_func hdecls (Typed.File.mem_funcs.1 hg)
    exact ⟨href, hrecv, hhost, by rw [hcontext]; exact hok⟩
  · intro g hg
    exact (hshaped _ (Check.DeclFaithful.of_func hdecls (Typed.File.mem_funcs.1 hg)).1).2
  · intro info hinfo m hm
    have hd : .cls info.decl ∈ f.decls := class_decl_mem hc (htable ▸ hinfo)
    obtain ⟨k, hk, info', hinfo', hdecl, _, hmethods⟩ := Check.DeclFaithful.class_of hdecls hd
    obtain rfl : info' = info := by
      have hname : info'.name = info.name := congrArg (·.name.text) hdecl
      have hfound := ht.linked.classNamed?_name hinfo'
      rw [hname, ht.linked.classNamed?_name hinfo] at hfound
      exact (Option.some.inj hfound).symm
    obtain ⟨g, hg, hfaithful⟩ := Check.forall₂_partner hmethods hm
    exact ⟨g, Typed.File.mem_bodies.2 (Or.inr ⟨k, hk, hg⟩),
      implements_of_faithful hsig hfaithful (hmethod hk g hg).2.1⟩
  · intro g hg
    obtain ⟨hg, _⟩ | ⟨k, hk, hg⟩ := Typed.File.mem_bodies.1 hg
    · exact Or.inl (Typed.File.mem_funcs.2 hg)
    · obtain ⟨d, _, info, hinfo, _, _, hmethods⟩ := Check.DeclFaithful.of_class hdecls hk
      obtain ⟨m, hm, hfaithful⟩ := Check.forall₂_partner hmethods.flip hg
      exact Or.inr ⟨info, hinfo, m, hm,
        implements_of_faithful hsig hfaithful (hmethod hk g hg).2.1⟩
  · intro g hg
    obtain ⟨hmem, hhost, hlocated⟩ := hbody g hg
    rw [hlocated.stands.isSome_eq]
    exact (func_shaped hshaped hmem).bodied hhost
  · intro g hg
    obtain ⟨hmem, _, hlocated⟩ := hbody g hg
    exact hplaces.sublist (hlocated.binders.trans (binders_sublist hmem))

end File

/-- The classes of a text have fewer different methods than the text has bytes. -/
theorem checked_method_names {name : String} {bytes : List UInt8} {limit : Option Nat}
    {u : Typed.File} (hparse : (parseFile name bytes).reports = [])
    (hcheck : (parseFile name bytes).file.check limit = .ok u) (hlimit : limit ≠ some 0) :
    ∃ names : List String, names.length ≤ bytes.length ∧
      ∀ k ∈ u.table.classes, ∀ m ∈ k.methods, m.name ∈ names := by
  obtain ⟨c, hc, htable, _⟩ := File.check_finish hcheck hlimit
  refine ⟨_, ?_, htable ▸ File.method_name_mem hc⟩
  rw [List.length_map]
  exact Nat.le_trans (File.length_functions_le _) (parseFile_clean hparse).2.1

/-- The functions, classes and methods of a text have names that are spelled as such. -/
theorem checked_names {name : String} {bytes : List UInt8} {limit : Option Nat}
    {u : Typed.File} (hparse : (parseFile name bytes).reports = [])
    (hcheck : (parseFile name bytes).file.check limit = .ok u) (hlimit : limit ≠ some 0) :
    (∀ g ∈ u.funcs, Scan.IsName g.decl.name.text) ∧
      ∀ c ∈ u.table.classes, Scan.IsName c.name ∧ ∀ m ∈ c.methods, Scan.IsName m.name := by
  obtain ⟨c, hc, htable, hdecls⟩ := File.check_finish hcheck hlimit
  have hshaped := (parseFile_clean hparse).2.2
  replace hdecls := hdecls fun d hd => (File.func_shaped hshaped hd).body
  have hnames := parseFile_names hparse
  refine ⟨fun g hg => ?_, fun k hk => ⟨?_, fun m hm => ?_⟩⟩
  · have hd := (Check.DeclFaithful.of_func hdecls (Typed.File.mem_funcs.1 hg)).1
    exact hnames _ hd _ List.mem_cons_self
  · exact hnames _ (File.class_decl_mem hc (htable ▸ hk)) _ List.mem_cons_self
  · obtain ⟨d, hd, hname⟩ := List.mem_map.1 (File.method_name_mem hc k (htable ▸ hk) m hm)
    obtain ⟨decl, hdecl, hmem⟩ := List.mem_flatMap.1 hd
    rw [← hname]
    exact hnames _ hdecl _ (List.mem_cons_of_mem _ (List.mem_map_of_mem hmem))

/-- A text is accepted if a run of the parser and the checker yields a value of a checked unit. -/
theorem Parsed.exists_checked {α : Type} {r : Parsed} {limit : Option Nat}
    {value : Typed.File → α} {reports : List SyntaxError} {a : α}
    (h : (r.reports, (r.file.check limit).toOption.map value) = (reports, some a)) :
    r.reports = reports ∧ ∃ u, r.file.check limit = .ok u ∧ value u = a := by
  obtain ⟨hreports, hvalue⟩ := Prod.mk.inj h
  exact ⟨hreports, File.exists_checked hvalue⟩

/-- A text that parses and passes the checker is well typed as a whole. -/
theorem checked_ok {name : String} {bytes : List UInt8} {limit : Option Nat} {u : Typed.File}
    (hparse : (parseFile name bytes).reports = [])
    (hcheck : (parseFile name bytes).file.check limit = .ok u) (hlimit : limit ≠ some 0) :
    u.Ok := by
  obtain ⟨hplaces, _, hshaped⟩ := parseFile_clean hparse
  exact File.check_ok hplaces hshaped hcheck hlimit

/-- The functions of a text have fewer variables than the text has bytes. -/
theorem checked_binders_le {name : String} {bytes : List UInt8} {limit : Option Nat}
    {u : Typed.File} (hparse : (parseFile name bytes).reports = [])
    (hcheck : (parseFile name bytes).file.check limit = .ok u) (hlimit : limit ≠ some 0) :
    ∀ g ∈ u.bodies, g.binders.length ≤ bytes.length := by
  intro g hg
  obtain ⟨_, hlength, hshaped⟩ := parseFile_clean hparse
  obtain ⟨hmem, _, hlocated⟩ := File.check_bodies hshaped hcheck hlimit g hg
  exact Nat.le_trans (hlocated.binders.trans (File.binders_sublist hmem)).length_le hlength

end ClassLang
