import Mathlib
import ClassLang.Proofs.Llvm.Labels
import ClassLang.Proofs.Llvm.Symbols

/-!
The names inside a function of a module. Parameters and labels share them. They differ, except
where a parameter in the text has the name of the receiver of its method, or that of a block.
-/

namespace ClassLang

/-- The parameters of a function are named in the text, and differ. -/
theorem checked_param_names {name : String} {bytes : List UInt8} {limit : Option Nat}
    {u : Typed.File} (hparse : (parseFile name bytes).reports = [])
    (hcheck : (parseFile name bytes).file.check limit = .ok u) (hlimit : limit ≠ some 0) :
    ∀ g, g ∈ u.funcs ∨ g ∈ u.bodies → (g.header.sig.params.map (·.name)).Nodup ∧
      ∀ x ∈ g.header.sig.params.map (·.name), Scan.IsName x := by
  obtain ⟨c, hc, htable, hdecls⟩ := File.check_finish hcheck hlimit
  have hshaped := (parseFile_clean hparse).2.2
  rw [← htable] at hdecls
  replace hdecls := hdecls fun d hd => (File.func_shaped hshaped hd).body
  have hok := checked_ok hparse hcheck hlimit
  intro g hg
  obtain ⟨Γ, hsig, hmem, hlocated⟩ : ∃ Γ, g.Ok Γ ∧
      g.decl ∈ (parseFile name bytes).file.functions ∧ Check.Located g := by
    rcases hg with hg | hg
    · obtain ⟨hd, _, _, _, _, _, hsig, hlocated⟩ :=
        Check.DeclFaithful.of_func hdecls (Typed.File.mem_funcs.1 hg)
      exact ⟨_, hsig, File.mem_functions_func hd, hlocated⟩
    · obtain ⟨hmem, _, hlocated⟩ := File.check_bodies hshaped hcheck hlimit g hg
      obtain ⟨_, hsig, _⟩ := Graph.Func.exists_context hok hg
      exact ⟨_, hsig, hmem, hlocated⟩
  have hnames : g.header.sig.params.map (·.name) = g.header.params.map (·.1.name) := by
    rw [hsig.params, List.map_map]
    rfl
  rw [hnames]
  constructor
  · have hdistinct := hlocated.distinct
    rw [Typed.Header.vars, List.map_reverse, List.nodup_reverse, List.map_append,
      List.map_map] at hdistinct
    exact (List.nodup_append.1 hdistinct).2.1
  · rw [hlocated.names]
    intro x hx
    obtain ⟨p, hp, rfl⟩ := List.mem_map.1 hx
    exact parseFile_param_names hparse _ hmem p hp

namespace Llvm

open ClassLang.Graph (Program)

/-- The names inside a function: those of its parameters, and the labels of its blocks. -/
def Func.localNames (f : Func) : List String := f.params.map (·.name) ++ f.blocks.map (·.label)

/-- The name of the receiver of a method. -/
def receiverName : String := "self"

/-- A parameter in the text has a name that its function needs for something else: that of the
receiver, or the label of a block. -/
inductive TakesName (f : Graph.Func) : Prop
  | receiver {sig : Signature} {p : ClassLang.Param} (method : f.isMethod = true)
      (sig_eq : f.sig = some sig) (param : p ∈ sig.params) (name : p.name = receiverName)
  | label {sig : Signature} {p : ClassLang.Param} {b : Nat} (sig_eq : f.sig = some sig)
      (param : p ∈ sig.params) (block : b ∈ f.order) (name : p.name = f.blockLabel b)

theorem mapM_inv {α β ε : Type} {f : α → Except ε β} {l : List α} {ys : List β}
    (h : l.mapM f = .ok ys) : List.Forall₂ (fun x y => f x = .ok y) l ys := by
  induction l generalizing ys with
  | nil =>
      obtain rfl := Except.ok.inj h
      exact .nil
  | cons x l ih =>
      rw [List.mapM_cons] at h
      cases hx : f x with
      | error e =>
          rw [hx] at h
          cases h
      | ok y =>
          cases hl : l.mapM f with
          | error e =>
              rw [hx, hl] at h
              cases h
          | ok rest =>
              rw [hx, hl] at h
              obtain rfl := Except.ok.inj h
              exact .cons hx (ih hl)

/-- A declaration has the parameters of its signature, behind the receiver of a method. -/
theorem declare_names {name : String} {sig : Option Signature} {method : Bool} {head : Func}
    (h : declare name sig method = .ok head) : ∃ s, sig = some s ∧ head.params.map (·.name) =
      (if method then [receiverName] else []) ++ s.params.map (·.name) := by
  unfold declare at h
  cases sig with
  | none => cases h
  | some s =>
      dsimp only [Bind.bind, Except.bind] at h
      split at h
      · cases h
      · split at h
        · cases h
        next params hparams =>
          refine ⟨s, rfl, ?_⟩
          obtain rfl := Except.ok.inj h
          have hnames : s.params.map (·.name) = params.map (·.name) := by
            refine map_eq_of_forall₂ ((mapM_inv hparams).imp fun p q hq => ?_)
            split at hq
            · cases hq
            · obtain rfl := Except.ok.inj hq
              rfl
          cases method <;> simp [hnames, receiverName]

section

variable {u : Typed.File} {d : Declared} {literals : List String} {f : Graph.Func} {func : Func}
  {w : Writer} {sig : Signature}

theorem receiverName_ne_text (l : LabelForm) : receiverName ≠ l.text := by
  intro h
  have hname : Scan.IsName receiverName := Scan.isName_ofList (by decide)
  obtain ⟨i, rfl⟩ := LabelForm.exists_block_of_isName (l := l) (h ▸ hname)
  have hlist := congrArg String.toList h
  rw [LabelForm.toList_block, receiverName] at hlist
  simp at hlist

/-- The names inside a function differ exactly if no parameter takes the name of something
else. -/
theorem Emitted.localNames_nodup_iff (h : Emitted u d literals f func w) (hsig : f.sig = some sig)
    (hnodup : (sig.params.map (·.name)).Nodup)
    (hnamed : ∀ x ∈ sig.params.map (·.name), Scan.IsName x) :
    func.localNames.Nodup ↔ ¬ TakesName f := by
  obtain ⟨n, hlabels, hforms⟩ := h.labels_eq
  obtain ⟨head, before, dom, s, _, hdeclare, hsound, _, rfl, _⟩ := h.exists_run
  obtain ⟨sig', hsig', hparams⟩ := declare_names hdeclare
  obtain rfl : sig = sig' := Option.some.inj (hsig.symm.trans hsig')
  have hblock : ∀ {b : Nat}, b ∈ f.order → f.blockLabel b = (LabelForm.block b).text ∧
      LabelForm.block b ∈ labelForms f n := by
    intro b hb
    refine ⟨blockLabel_of_wired hsound.good.wired hb, List.mem_append_left _ ?_⟩
    exact List.mem_map_of_mem (hsound.mem_order.2 hb)
  rw [Func.localNames, hlabels, hparams]
  constructor
  · rintro hall htakes
    obtain ⟨hfirst, _, hapart⟩ := List.nodup_append.1 hall
    cases htakes with
    | @receiver sig' p hmethod hsig' hp hname =>
        obtain rfl : sig = sig' := Option.some.inj (hsig.symm.trans hsig')
        rw [hmethod, if_pos rfl] at hfirst
        exact (List.nodup_append.1 hfirst).2.2 _ (List.mem_singleton_self _) _
          (List.mem_map_of_mem hp) hname.symm
    | @label sig' p b hsig' hp hb hname =>
        obtain rfl : sig = sig' := Option.some.inj (hsig.symm.trans hsig')
        obtain ⟨hlabel, hmem⟩ := hblock hb
        exact hapart _ (List.mem_append_right _ (List.mem_map_of_mem hp)) _
          (List.mem_map_of_mem hmem) (hname.trans hlabel)
  · intro htakes
    refine List.nodup_append.2 ⟨List.nodup_append.2 ⟨by split <;> simp, hnodup, ?_⟩,
      hforms.map fun _ _ => LabelForm.text_inj, ?_⟩
    · rintro x hx _ hp rfl
      split at hx
      next hmethod =>
        obtain ⟨p, hp, hname⟩ := List.mem_map.1 hp
        exact htakes (.receiver hmethod hsig hp (hname.trans (List.mem_singleton.1 hx)))
      next => exact List.not_mem_nil hx
    · rintro x hx _ hl rfl
      obtain ⟨l, hl, htext⟩ := List.mem_map.1 hl
      rcases List.mem_append.1 hx with hx | hx
      · split at hx
        · exact receiverName_ne_text l ((List.mem_singleton.1 hx).symm.trans htext.symm)
        · exact List.not_mem_nil hx
      · obtain ⟨p, hp, hname⟩ := List.mem_map.1 hx
        obtain ⟨b, rfl⟩ := LabelForm.exists_block_of_isName (htext ▸ hnamed _ hx)
        have hb : b ∈ f.order := by
          rcases List.mem_append.1 hl with hb | hb
          · obtain ⟨_, hmem, heq⟩ := List.mem_map.1 hb
            obtain rfl := LabelForm.block.inj heq
            exact hsound.mem_order.1 hmem
          · exact absurd hb LabelForm.block_notMem_divisions
        refine htakes (.label hsig hp hb ?_)
        rw [(hblock hb).1, hname, htext]

/-- What is defined elsewhere has parameters with different names. -/
theorem Builds.declared_nodup {m : Module} {funcs : List Func} (h : Builds u d literals m funcs)
    (hnames : ∀ g ∈ u.funcs, (g.header.sig.params.map (·.name)).Nodup) :
    ∀ g ∈ supportFuncs ++ [compareTexts] ++ d.hosts, g.localNames.Nodup := by
  intro g hg
  rw [Func.localNames, h.blocks_of_declared g hg, List.map_nil, List.append_nil]
  rcases List.mem_append.1 hg with hg | hg
  · have hall : ∀ g ∈ supportFuncs ++ [compareTexts], (g.params.map (·.name)).Nodup := by decide
    exact hall g hg
  · obtain ⟨host, hhost, hdeclare⟩ := Check.forall₂_partner h.lists.hosts.flip hg
    obtain ⟨s, hs, hparams⟩ := declare_names hdeclare
    obtain ⟨x, hx, rfl⟩ := List.mem_map.1 hhost
    obtain rfl := Option.some.inj hs
    rw [hparams]
    exact hnames x (List.mem_filter.1 hx).1

end

/-- The names inside the functions of a module are different exactly if the text does not give
a parameter the name of the receiver of its method or of a block. Its functions stand behind
those that are defined elsewhere. -/
theorem local_names_nodup_iff {name : String} {bytes : List UInt8} {limit : Option Nat}
    {typed : Typed.File} (hparse : (parseFile name bytes).reports = [])
    (hcheck : (parseFile name bytes).file.check limit = .ok typed) (hlimit : limit ≠ some 0)
    (hlength : bytes.length < 2 ^ 63) (source : String) :
    ∃ m declared funcs,
      emit (Program.ofTyped typed (Layouts.build typed.table)) source = .ok m ∧
      m.funcs = declared ++ funcs ∧
      (∀ g ∈ declared, g.blocks = [] ∧ g.localNames.Nodup) ∧
      List.Forall₂ (fun f func => func.localNames.Nodup ↔ ¬ TakesName f)
        (Program.ofTyped typed (Layouts.build typed.table)).funcs funcs := by
  have hripe := checked_ripe hparse hcheck hlimit hlength
  obtain ⟨m, d, literals, funcs, hemit, hbuilds⟩ := exists_module hripe source
  have hnames := checked_param_names hparse hcheck hlimit
  have hdeclared := hbuilds.declared_nodup fun g hg => (hnames g (Or.inl hg)).1
  refine ⟨m, _, funcs, hemit, hbuilds.code,
    fun g hg => ⟨hbuilds.blocks_of_declared g hg, hdeclared g hg⟩, ?_⟩
  have hsigs : ∀ f ∈ (Program.ofTyped typed (Layouts.build typed.table)).funcs,
      ∃ g ∈ typed.bodies, f.sig = some g.header.sig := by
    intro f hf
    obtain ⟨g, hg, heq⟩ := List.mem_filterMap.1 hf
    obtain ⟨body, hbody, rfl⟩ := Option.map_eq_some_iff.1 heq
    exact ⟨g, hg, (Graph.Func.ofTyped_head hripe.ok hg hbody).2.2.1⟩
  refine ((List.forall₂_and_left _ _).2 ⟨hsigs, hbuilds.emitted⟩).imp ?_
  rintro f func ⟨⟨g, hg, hsig⟩, w, hemitted⟩
  obtain ⟨hnodup, hnamed⟩ := hnames g (Or.inr hg)
  exact hemitted.localNames_nodup_iff hsig hnodup hnamed

/-- A text with a function that divides. -/
def divideText : List UInt8 := "fun f(a:int,b:int):int{return a/b;}".toUTF8.toList

theorem divideText_names : ∃ typed m,
    (parseFile "t.kya" divideText).reports = [] ∧
    (parseFile "t.kya" divideText).file.check none = .ok typed ∧
    emit (Program.ofTyped typed (Layouts.build typed.table)) "t.kya" = .ok m ∧
    m.funcs.map Func.localNames = [["p0", "p1"], ["p0"], ["a", "b"],
      ["a", "b", "b0", "divzero.1", "divok.1"]] ∧
    ∀ f ∈ (Program.ofTyped typed (Layouts.build typed.table)).funcs, ¬ TakesName f := by
  have hrun : (textModule? divideText).map (fun m => m.funcs.map Func.localNames) =
      some [["p0", "p1"], ["p0"], ["a", "b"], ["a", "b", "b0", "divzero.1", "divok.1"]] := by
    rw [textModule?, divideText, parseFile_ofList]
    decide +kernel
  have hlength : divideText.length < 2 ^ 63 := by decide +kernel
  obtain ⟨m, hmodule, hlocals⟩ := Option.map_eq_some_iff.1 hrun
  obtain ⟨typed, hparse, hcheck, hemit⟩ := textModule?_inv hmodule
  obtain ⟨m', declared, funcs, hemit', hfuncs, _, hall⟩ :=
    local_names_nodup_iff hparse hcheck (by simp) hlength "t.kya"
  obtain rfl : m = m' := Except.ok.inj (hemit.symm.trans hemit')
  have hdistinct : ∀ func ∈ m.funcs, func.localNames.Nodup := by
    have hlists : ∀ names ∈ m.funcs.map Func.localNames, names.Nodup := by
      rw [hlocals]
      decide
    exact fun func hfunc => hlists _ (List.mem_map_of_mem hfunc)
  refine ⟨typed, m, hparse, hcheck, hemit, hlocals, fun f hf => ?_⟩
  obtain ⟨func, hfunc, hiff⟩ := Check.forall₂_partner hall hf
  exact hiff.1 (hdistinct func (hfuncs ▸ List.mem_append_right _ hfunc))

/-- A text with a function whose parameter has the name of its first block. -/
def blockParamText : List UInt8 := "fun f(b0:int){}".toUTF8.toList

theorem blockParamText_clashes : ∃ typed m,
    (parseFile "t.kya" blockParamText).reports = [] ∧
    (parseFile "t.kya" blockParamText).file.check none = .ok typed ∧
    emit (Program.ofTyped typed (Layouts.build typed.table)) "t.kya" = .ok m ∧
    ∃ func ∈ m.funcs, ¬ func.localNames.Nodup := by
  have hrun : (textModule? blockParamText).map (fun m => m.funcs.map Func.localNames) =
      some [["p0", "p1"], ["p0"], ["a", "b"], ["b0", "b0"]] := by
    rw [textModule?, blockParamText, parseFile_ofList]
    decide +kernel
  obtain ⟨m, hmodule, hlocals⟩ := Option.map_eq_some_iff.1 hrun
  obtain ⟨typed, hparse, hcheck, hemit⟩ := textModule?_inv hmodule
  have hmem : ["b0", "b0"] ∈ m.funcs.map Func.localNames := by
    rw [hlocals]
    decide
  obtain ⟨func, hfunc, hnames⟩ := List.mem_map.1 hmem
  refine ⟨typed, m, hparse, hcheck, hemit, func, hfunc, ?_⟩
  rw [hnames]
  decide

end Llvm

end ClassLang
