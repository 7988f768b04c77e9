import ClassLang.Proofs.Llvm.Declared
import ClassLang.Proofs.Tree.Encoded
import Mathlib

/-!
The symbols of a module. Those of functions, methods and constants are made from the names in
the text. They differ for different things, except where the text uses a name that the module
needs for something else.
-/

namespace ClassLang.Llvm

open ClassLang.Graph (Program)

/-- The symbols that a module declares or defines. -/
def Module.symbols (m : Module) : List String := m.funcs.map (·.name) ++ m.globals.map (·.name)

/-- What a symbol is made from: a name, a name and the one it belongs to, or the number of a
text. -/
inductive SymbolForm where
  | plain (name : String)
  | member (owner name : String)
  | literal (i : Nat)
  deriving DecidableEq

namespace SymbolForm

/-- The symbol of a given form. -/
def text : SymbolForm → String
  | .plain name => name
  | .member owner name => owner ++ "." ++ name
  | .literal i => literalSymbol i

/-- The parts of a symbol are spelled as names. -/
def Named : SymbolForm → Prop
  | .plain name => Scan.IsName name
  | .member owner name => Scan.IsName owner ∧ Scan.IsName name
  | .literal _ => True

theorem toList_member (owner name : String) :
    (member owner name).text.toList = owner.toList ++ '.' :: name.toList := by
  simp [text]

theorem toList_literal (i : Nat) :
    (literal i).text.toList = '.' :: ('s' :: 't' :: 'r' :: '.' :: (toString i).toList) := by
  simp [text, literalSymbol]

/-- Different forms give different symbols. -/
theorem text_inj {s s' : SymbolForm} (hs : s.Named) (hs' : s'.Named) (h : s.text = s'.text) :
    s = s' := by
  have hplain : ∀ {name : String} {s : SymbolForm}, Scan.IsName name → name = s.text →
      s = .plain name := by
    intro name s hname h
    have hdot := hname.dot_notMem
    cases s with
    | plain other => exact congrArg plain h.symm
    | member owner other =>
        rw [h, toList_member] at hdot
        simp at hdot
    | literal i =>
        rw [h, toList_literal] at hdot
        simp at hdot
  have hmember : ∀ {owner name : String} {i : Nat}, Scan.IsName owner →
      (member owner name).text ≠ (literal i).text := by
    intro owner name i howner h
    have hlist := congrArg String.toList h
    rw [toList_member, toList_literal] at hlist
    cases hchars : owner.toList with
    | nil => exact howner.ne_nil hchars
    | cons c cs =>
        rw [hchars] at hlist
        obtain ⟨rfl, _⟩ := List.cons.inj hlist
        exact howner.dot_notMem (by simp [hchars])
  cases s with
  | plain name => exact (hplain hs h).symm
  | member owner name =>
      cases s' with
      | plain other => exact hplain hs' h.symm
      | member owner' name' =>
          have hlist := congrArg String.toList h
          rw [toList_member, toList_member,
            List.append_cons_inj_of_notMem hs.1.dot_notMem hs.2.dot_notMem] at hlist
          rw [String.toList_inj.1 hlist.1, String.toList_inj.1 hlist.2.2]
      | literal i => exact absurd h (hmember hs.1)
  | literal i =>
      cases s' with
      | plain other => exact hplain hs' h.symm
      | member owner' name' => exact absurd h.symm (hmember hs'.1)
      | literal j =>
          have hlist := congrArg String.toList h
          simp only [toList_literal, List.cons.injEq, true_and] at hlist
          rw [Nat.repr_injective (String.toList_inj.1 hlist)]

end SymbolForm

/-! The symbols of a unit -/

/-- The symbol of a function with a given name. -/
def linkName (name : String) : String :=
  if name = Program.entryPoint then mainSymbol else name

theorem linkName_of_ne {name : String} (h : name ≠ Program.entryPoint) : linkName name = name :=
  if_neg h

/-- Two functions have one symbol only if one of them is the function where a program starts,
and the other one has the name that this one gets. -/
theorem linkName_inj {a b : String} (h : linkName a = linkName b) : a = b ∨
    (a = Program.entryPoint ∧ b = mainSymbol) ∨ (b = Program.entryPoint ∧ a = mainSymbol) := by
  unfold linkName at h
  by_cases ha : a = Program.entryPoint
  · by_cases hb : b = Program.entryPoint
    · exact Or.inl (ha.trans hb.symm)
    · rw [if_pos ha, if_neg hb] at h
      exact Or.inr (Or.inl ⟨ha, h.symm⟩)
  · by_cases hb : b = Program.entryPoint
    · rw [if_neg ha, if_pos hb] at h
      exact Or.inr (Or.inr ⟨hb, h⟩)
    · rw [if_neg ha, if_neg hb] at h
      exact Or.inl h

/-- The form of the symbol of a function or method. -/
def bodyForm (g : Typed.Func) : SymbolForm :=
  match g.ref with
  | .func name => .plain (linkName name)
  | .method cls name => .member cls name

/-- The forms of the symbols of the constants of a class. -/
def constantForms (l : ClassLayout) : List SymbolForm :=
  [.member "desc" l.name, .member "dispatch" l.name]

/-- The forms of all symbols of a unit with `n` texts. -/
def symbolForms (u : Typed.File) (n : Nat) : List SymbolForm :=
  ((supportFuncs ++ [compareTexts]).map fun f => SymbolForm.plain f.name) ++
    u.hosts.map (fun g => SymbolForm.plain g.decl.name.text) ++ u.bodies.map bodyForm ++
    (Layouts.build u.table).classes.flatMap constantForms ++ (List.range n).map .literal

variable {u : Typed.File} {d : Declared} {literals : List String} {m : Module}
  {funcs : List Func}

theorem map_eq_of_forall₂ {α β γ : Type} {p : α → γ} {q : β → γ} {l : List α} {l' : List β}
    (h : List.Forall₂ (fun a b => p a = q b) l l') : l.map p = l'.map q := by
  rw [← List.forall₂_eq_eq_eq, List.forall₂_map_left_iff, List.forall₂_map_right_iff]
  exact h

/-- The symbol of a function that a graph was made of. -/
theorem symbol_ofTyped (hu : u.Ok) {g : Typed.Func} (hg : g ∈ u.bodies) {body : Typed.Block}
    (hbody : g.body = some body) :
    symbol (Graph.Func.ofTyped (Layouts.build u.table) g body) = (bodyForm g).text := by
  obtain ⟨hname, _, _, hmethod⟩ := Graph.Func.ofTyped_head hu hg hbody
  rw [symbol, hname, hmethod]
  rcases hu.bodies g hg with hfunc | ⟨c, _, k, _, himplements⟩
  · obtain ⟨href, hrecv, _⟩ := hu.funcs g hfunc
    rw [hrecv, bodyForm, href]
    by_cases hmain : g.decl.name.text = Program.entryPoint
    · simp [FuncRef.text, SymbolForm.text, linkName, hmain]
    · simp [FuncRef.text, SymbolForm.text, linkName, hmain]
  · obtain ⟨v, hv, _⟩ := himplements.recv
    rw [hv, bodyForm, himplements.ref]
    rfl

/-- The symbols of a module are those of its unit. -/
theorem Builds.symbols_eq (h : Builds u d literals m funcs) (hu : u.Ok) :
    m.symbols = (symbolForms u literals.length).map SymbolForm.text := by
  have hhosts : d.hosts.map (·.name) = u.hosts.map fun g => g.decl.name.text := by
    have hnames : (Program.ofTyped u (Layouts.build u.table)).hosts.map (·.name) =
        d.hosts.map (·.name) := by
      refine map_eq_of_forall₂ (h.lists.hosts.imp fun host head hdeclared => ?_)
      obtain ⟨_, _, rfl⟩ := declare_inv hdeclared
      rfl
    rw [← hnames, Program.ofTyped, List.map_map]
    rfl
  have hfuncs : funcs.map (·.name) = u.bodies.map fun g => (bodyForm g).text := by
    rw [← Program.funcs_map hu fun g hg body hbody => symbol_ofTyped hu hg hbody]
    refine (map_eq_of_forall₂ (h.emitted.imp fun f func hemitted => ?_)).symm
    obtain ⟨w, ⟨head, _, _, _, _, hdeclared, _, _, rfl, _⟩, _⟩ := hemitted
    obtain ⟨_, _, rfl⟩ := declare_inv hdeclared
    rfl
  have htexts : (textGlobals literals).map (·.name) =
      (List.range literals.length).map literalSymbol := by
    simp only [textGlobals, List.mapIdx_eq_zipIdx_map, List.map_map, List.range_eq_range',
      ← List.zipIdx_map_snd]
    rfl
  have hclasses : ∀ l, (classGlobals d l).map (·.name) =
      (constantForms l).map SymbolForm.text := by
    intro l
    simp [classGlobals, constantForms, SymbolForm.text, descriptorSymbol, dispatchSymbol]
  rw [Module.symbols, h.code, h.constants, symbolForms]
  simp only [List.map_append, hhosts, hfuncs, htexts, List.map_map, List.map_flatMap, hclasses,
    ← List.append_assoc]
  rfl

/-! Clashes -/

/-- A unit uses a name that its module needs for something else: the name of a function of the
library, the one that the function where a program starts gets, or the name of a constant of a
class. -/
inductive Clashes (u : Typed.File) : Prop
  | library {g : Typed.Func} (func : g ∈ u.funcs)
      (name : g.decl.name.text ∈ (supportFuncs ++ [compareTexts]).map (·.name))
  | entry {g g' : Typed.Func} (func : g ∈ u.funcs) (body : g.decl.host = false)
      (name : g.decl.name.text = Program.entryPoint) (func' : g' ∈ u.funcs)
      (name' : g'.decl.name.text = mainSymbol)
  | constant {c c' : ClassInfo} {k : Method} (cls : c ∈ u.table.classes)
      (name : c.name = "desc" ∨ c.name = "dispatch") (method : k ∈ c.methods)
      (cls' : c' ∈ u.table.classes) (name' : k.name = c'.name)

/-- What is declared in a unit has names that are spelled as such, and no host function has a
body. -/
structure Spelled (u : Typed.File) : Prop where
  funcs : ∀ g ∈ u.funcs, Scan.IsName g.decl.name.text
  classes : ∀ c ∈ u.table.classes, Scan.IsName c.name ∧ ∀ k ∈ c.methods, Scan.IsName k.name
  bodies : ∀ g ∈ u.bodies, g.decl.host = false

/-- What has a body is a function or a method. -/
inductive BodyForm (u : Typed.File) (g : Typed.Func) : Prop
  | func (func : g ∈ u.funcs) (ref : g.ref = .func g.decl.name.text)
      (form : bodyForm g = .plain (linkName g.decl.name.text))
  | method {c : ClassInfo} {k : Method} (cls : c ∈ u.table.classes) (method : k ∈ c.methods)
      (ref : g.ref = .method c.name k.name) (form : bodyForm g = .member c.name k.name)

theorem body_form (hu : u.Ok) {g : Typed.Func} (hg : g ∈ u.bodies) : BodyForm u g := by
  rcases hu.bodies g hg with hfunc | ⟨c, hc, k, hk, himplements⟩
  · have href := (hu.funcs g hfunc).1
    exact .func hfunc href (by rw [bodyForm, href])
  · have howner : k.owner = c.name := hu.sound.table.method_owner c hc k hk
    have href : g.ref = .method c.name k.name := by rw [himplements.ref, Method.ref, howner]
    exact .method hc hk href (by rw [bodyForm, href])

theorem named_of_mem (hu : u.Ok) (hs : Spelled u) {n : Nat} :
    ∀ x ∈ symbolForms u n, x.Named := by
  have hlibrary : ∀ f ∈ supportFuncs ++ [compareTexts], Scan.IsName f.name := by
    intro f hf
    simp only [supportFuncs, List.cons_append, List.nil_append, List.mem_cons,
      List.not_mem_nil, or_false] at hf
    rcases hf with rfl | rfl | rfl <;> exact Scan.isName_ofList (by decide)
  have hmain : Scan.IsName mainSymbol := Scan.isName_ofList (by decide)
  intro x hx
  simp only [symbolForms, List.mem_append, List.mem_map, List.mem_flatMap] at hx
  rcases hx with (((⟨f, hf, rfl⟩ | ⟨g, hg, rfl⟩) | ⟨g, hg, rfl⟩) | ⟨l, hl, hx⟩) | ⟨i, _, rfl⟩
  · exact hlibrary f (List.mem_append.2 hf)
  · exact hs.funcs g (List.mem_filter.1 hg).1
  · cases body_form hu hg with
    | func hfunc _ hform =>
        rw [hform]
        change Scan.IsName (linkName _)
        unfold linkName
        split
        · exact hmain
        · exact hs.funcs g hfunc
    | method hc hk _ hform =>
        rw [hform]
        exact ⟨(hs.classes _ hc).1, (hs.classes _ hc).2 _ hk⟩
  · obtain ⟨c, hc, hlayout⟩ := (Layouts.build_classes hu.sound.table.linked).2 l hl
    have hname : Scan.IsName l.name := hlayout.name ▸ (hs.classes c hc).1
    simp only [constantForms, List.mem_cons, List.not_mem_nil, or_false] at hx
    rcases hx with rfl | rfl
    · exact ⟨Scan.isName_ofList (by decide), hname⟩
    · exact ⟨Scan.isName_ofList (by decide), hname⟩
  · exact trivial

/-! Where there is no clash -/

section

variable (hu : u.Ok)

include hu

theorem hosts_nodup : (u.hosts.map fun g => SymbolForm.plain g.decl.name.text).Nodup := by
  have hnames : (u.hosts.map (·.decl.name.text)).Nodup :=
    hu.names.sublist ((List.filter_sublist).map _)
  rw [← Function.comp_def SymbolForm.plain, ← List.map_map]
  exact hnames.map fun _ _ => SymbolForm.plain.inj

theorem classes_nodup : ((Layouts.build u.table).classes.map (·.name)).Nodup := by
  have hlinked : u.table.Linked := hu.sound.table.linked
  obtain ⟨hids, hall⟩ := Layouts.build_classes hlinked
  have hnodup : ((Layouts.build u.table).classes.map (·.id)).Nodup := by
    rw [hids]
    exact hlinked.order_perm.nodup_iff.2 List.nodup_range
  refine List.Nodup.map_on (fun l hl l' hl' heq => ?_) (hnodup.of_map _)
  obtain ⟨c, hc, hlayout⟩ := hall l hl
  obtain ⟨c', hc', hlayout'⟩ := hall l' hl'
  have hname : c.name = c'.name := by rw [← hlayout.name, heq, hlayout'.name]
  have hfound := hlinked.classNamed?_name hc
  rw [hname, hlinked.classNamed?_name hc'] at hfound
  obtain rfl := Option.some.inj hfound
  exact List.inj_on_of_nodup_map hnodup hl hl' (hlayout.id.trans hlayout'.id.symm)

theorem constants_nodup :
    ((Layouts.build u.table).classes.flatMap constantForms).Nodup := by
  refine List.nodup_flatMap.2 ⟨fun l _ => by simp [constantForms], ?_⟩
  refine (List.pairwise_map.1 (classes_nodup hu)).imp fun {l l'} hne => ?_
  simp [Function.onFun, constantForms, hne.symm]

theorem bodies_nodup (hs : Spelled u) (hclash : ¬ Clashes u) : (u.bodies.map bodyForm).Nodup := by
  have hentry : ∀ g ∈ u.bodies, ∀ g' : Typed.Func, g ∈ u.funcs → g' ∈ u.funcs →
      g.decl.name.text = Program.entryPoint → g'.decl.name.text ≠ mainSymbol :=
    fun g hg _ hfunc hfunc' hname hname' =>
      hclash (.entry hfunc (hs.bodies g hg) hname hfunc' hname')
  refine List.Nodup.map_on (fun g hg g' hg' heq => ?_) (hu.refs.of_map _)
  refine List.inj_on_of_nodup_map hu.refs hg hg' ?_
  cases body_form hu hg with
  | func hfunc href hform =>
      cases body_form hu hg' with
      | func hfunc' href' hform' =>
          rw [hform, hform'] at heq
          rcases linkName_inj (SymbolForm.plain.inj heq) with hname | ⟨hname, hname'⟩ |
            ⟨hname, hname'⟩
          · rw [href, href', hname]
          · exact absurd hname' (hentry g hg g' hfunc hfunc' hname)
          · exact absurd hname' (hentry g' hg' g hfunc' hfunc hname)
      | method _ _ _ hform' =>
          rw [hform, hform'] at heq
          cases heq
  | method _ _ href hform =>
      cases body_form hu hg' with
      | func _ _ hform' =>
          rw [hform, hform'] at heq
          cases heq
      | method _ _ href' hform' =>
          rw [hform, hform'] at heq
          obtain ⟨howner, hname⟩ := SymbolForm.member.inj heq
          rw [href, href', howner, hname]

/-- The symbols of the constants of classes are made like those of methods of a class `desc` or
`dispatch`. -/
theorem constant_cases {x : SymbolForm}
    (hx : x ∈ (Layouts.build u.table).classes.flatMap constantForms) :
    ∃ c ∈ u.table.classes, ∃ owner, x = .member owner c.name ∧
      (owner = "desc" ∨ owner = "dispatch") := by
  obtain ⟨l, hl, hx⟩ := List.mem_flatMap.1 hx
  obtain ⟨c, hc, hlayout⟩ := (Layouts.build_classes hu.sound.table.linked).2 l hl
  simp only [constantForms, hlayout.name, List.mem_cons, List.not_mem_nil, or_false] at hx
  rcases hx with rfl | rfl
  · exact ⟨c, hc, _, rfl, Or.inl rfl⟩
  · exact ⟨c, hc, _, rfl, Or.inr rfl⟩

theorem symbolForms_nodup (hs : Spelled u) (hclash : ¬ Clashes u) (n : Nat) :
    (symbolForms u n).Nodup := by
  have hlibrary : ((supportFuncs ++ [compareTexts]).map fun f =>
      SymbolForm.plain f.name).Nodup := by decide
  have htexts : ((List.range n).map SymbolForm.literal).Nodup :=
    List.nodup_range.map fun _ _ => SymbolForm.literal.inj
  rw [symbolForms, List.nodup_append, List.nodup_append, List.nodup_append, List.nodup_append]
  refine ⟨⟨⟨⟨hlibrary, hosts_nodup hu, ?_⟩, bodies_nodup hu hs hclash, ?_⟩,
    constants_nodup hu, ?_⟩, htexts, ?_⟩
  · rintro x hx y hy rfl
    obtain ⟨f, hf, rfl⟩ := List.mem_map.1 hx
    obtain ⟨g, hg, heq⟩ := List.mem_map.1 hy
    refine hclash (.library (List.mem_filter.1 hg).1 ?_)
    rw [SymbolForm.plain.inj heq]
    exact List.mem_map_of_mem hf
  · rintro x hx y hy rfl
    obtain ⟨g, hg, rfl⟩ := List.mem_map.1 hy
    cases body_form hu hg with
    | func hfunc _ hform =>
        rw [hform] at hx
        by_cases hmain : g.decl.name.text = Program.entryPoint
        · rw [hmain, linkName, if_pos rfl] at hx
          rcases List.mem_append.1 hx with hx | hx
          · obtain ⟨f, hf, heq⟩ := List.mem_map.1 hx
            have hne : ∀ f ∈ supportFuncs ++ [compareTexts], f.name ≠ mainSymbol := by decide
            exact hne f hf (SymbolForm.plain.inj heq)
          · obtain ⟨g', hg', heq⟩ := List.mem_map.1 hx
            exact hclash (.entry hfunc (hs.bodies g hg) hmain (List.mem_filter.1 hg').1
              (SymbolForm.plain.inj heq))
        · rw [linkName_of_ne hmain] at hx
          rcases List.mem_append.1 hx with hx | hx
          · obtain ⟨f, hf, heq⟩ := List.mem_map.1 hx
            refine hclash (.library hfunc ?_)
            rw [← SymbolForm.plain.inj heq]
            exact List.mem_map_of_mem hf
          · obtain ⟨g', hg', heq⟩ := List.mem_map.1 hx
            obtain ⟨hfunc', hhost⟩ := List.mem_filter.1 hg'
            obtain rfl : g' = g :=
              List.inj_on_of_nodup_map hu.names hfunc' hfunc (SymbolForm.plain.inj heq)
            rw [hs.bodies g' hg] at hhost
            cases hhost
    | method _ _ _ hform =>
        rw [hform] at hx
        simp at hx
  · rintro x hx y hy rfl
    obtain ⟨c, hc, owner, rfl, howner⟩ := constant_cases hu hy
    simp only [List.mem_append, List.mem_map, reduceCtorEq, and_false, exists_false,
      false_or] at hx
    obtain ⟨g, hg, heq⟩ := hx
    cases body_form hu hg with
    | func _ _ hform =>
        rw [hform] at heq
        cases heq
    | method hc' hk _ hform =>
        rw [hform] at heq
        obtain ⟨rfl, hname⟩ := SymbolForm.member.inj heq
        exact hclash (.constant hc' howner hk hc hname)
  · rintro x hx y hy rfl
    obtain ⟨i, _, rfl⟩ := List.mem_map.1 hy
    simp only [List.mem_append, List.mem_map, reduceCtorEq, and_false, exists_false,
      false_or] at hx
    rcases hx with ⟨g, hg, heq⟩ | hx
    · cases body_form hu hg with
      | func _ _ hform =>
          rw [hform] at heq
          cases heq
      | method _ _ _ hform =>
          rw [hform] at heq
          cases heq
    · obtain ⟨_, _, _, heq, _⟩ := constant_cases hu hx
      cases heq

/-- A function of the text that is no host function has a body, and the symbol of its name. -/
theorem mem_bodies_of_func {g : Typed.Func} (hfunc : g ∈ u.funcs) (hhost : g.decl.host = false) :
    g ∈ u.bodies ∧ bodyForm g = .plain (linkName g.decl.name.text) := by
  refine ⟨Typed.File.mem_bodies.2 (Or.inl ⟨Typed.File.mem_funcs.1 hfunc, hhost⟩), ?_⟩
  rw [bodyForm, (hu.funcs g hfunc).1]

/-- A clash gives two things one symbol. -/
theorem Clashes.not_nodup (h : Clashes u) (n : Nat) : ¬ (symbolForms u n).Nodup := by
  intro hnodup
  rw [symbolForms] at hnodup
  obtain ⟨hnodup, _⟩ := List.nodup_append.1 hnodup
  obtain ⟨hnodup, _, hconstants⟩ := List.nodup_append.1 hnodup
  obtain ⟨hnodup, hbodies, hfuncs⟩ := List.nodup_append.1 hnodup
  obtain ⟨_, _, hhosts⟩ := List.nodup_append.1 hnodup
  cases h with
  | @library g hfunc hname =>
      obtain ⟨f, hf, heq⟩ := List.mem_map.1 hname
      have hlibrary := List.mem_map_of_mem (f := fun f : Func => SymbolForm.plain f.name) hf
      cases hhost : g.decl.host with
      | true =>
          refine hhosts _ hlibrary _ (List.mem_map_of_mem (List.mem_filter.2 ⟨hfunc, hhost⟩)) ?_
          exact congrArg SymbolForm.plain heq
      | false =>
          obtain ⟨hg, hform⟩ := mem_bodies_of_func hu hfunc hhost
          have hne : ∀ f ∈ supportFuncs ++ [compareTexts], f.name ≠ Program.entryPoint := by decide
          refine hfuncs _ (List.mem_append_left _ hlibrary) _ (List.mem_map_of_mem hg) ?_
          rw [hform, ← heq, linkName_of_ne (hne f hf)]
  | @entry g g' hfunc hbody hname hfunc' hname' =>
      obtain ⟨hg, hform⟩ := mem_bodies_of_func hu hfunc hbody
      rw [hname, linkName, if_pos rfl] at hform
      cases hhost : g'.decl.host with
      | true =>
          have hmem := List.mem_map_of_mem
            (f := fun g : Typed.Func => SymbolForm.plain g.decl.name.text)
            (List.mem_filter.2 ⟨hfunc', hhost⟩ : g' ∈ u.hosts)
          refine hfuncs _ (List.mem_append_right _ hmem) _ (List.mem_map_of_mem hg) ?_
          rw [hform, hname']
      | false =>
          obtain ⟨hg', hform'⟩ := mem_bodies_of_func hu hfunc' hhost
          rw [hname', linkName_of_ne (by decide)] at hform'
          obtain rfl := List.inj_on_of_nodup_map hbodies hg hg' (hform.trans hform'.symm)
          rw [hname] at hname'
          exact absurd hname' (by decide)
  | @constant c c' k hc howner hk hc' hname =>
      obtain ⟨g, hg, himplements⟩ := hu.methods c hc k hk
      have hform : bodyForm g = .member c.name k.name := by
        have howner : k.owner = c.name := hu.sound.table.method_owner c hc k hk
        rw [bodyForm, himplements.ref, Method.ref, howner]
      obtain ⟨l, hl, hlayout⟩ := Layouts.named?_build hu.sound.table.linked hc'
      have hmem : SymbolForm.member c.name c'.name ∈
          (Layouts.build u.table).classes.flatMap constantForms := by
        refine List.mem_flatMap.2 ⟨l, List.mem_of_find?_eq_some hl, ?_⟩
        rw [constantForms, hlayout.name]
        rcases howner with howner | howner <;> simp [howner]
      refine hconstants _ (List.mem_append_right _ (List.mem_map_of_mem hg)) _ hmem ?_
      rw [hform, hname]

end

/-- The symbols of a module are different exactly if the text does not use a name that the
module needs for something else. -/
theorem module_symbols_nodup_iff {name : String} {bytes : List UInt8} {limit : Option Nat}
    {typed : Typed.File} (hparse : (parseFile name bytes).reports = [])
    (hcheck : (parseFile name bytes).file.check limit = .ok typed) (hlimit : limit ≠ some 0)
    (hlength : bytes.length < 2 ^ 63) (source : String) :
    ∃ m, emit (Program.ofTyped typed (Layouts.build typed.table)) source = .ok m ∧
      (m.symbols.Nodup ↔ ¬ Clashes typed) := by
  have hripe := checked_ripe hparse hcheck hlimit hlength
  obtain ⟨m, d, literals, funcs, hemit, hbuilds⟩ := exists_module hripe source
  obtain ⟨hfuncs, hclasses⟩ := checked_names hparse hcheck hlimit
  have hspelled : Spelled typed := by
    refine ⟨hfuncs, hclasses, fun g hg => ?_⟩
    exact (File.check_bodies (parseFile_clean hparse).2.2 hcheck hlimit g hg).2.1
  refine ⟨m, hemit, ?_⟩
  rw [hbuilds.symbols_eq hripe.ok]
  constructor
  · intro hnodup hclash
    exact hclash.not_nodup hripe.ok _ (hnodup.of_map _)
  · intro hclash
    refine List.Nodup.map_on (fun x hx y hy => ?_)
      (symbolForms_nodup hripe.ok hspelled hclash literals.length)
    exact SymbolForm.text_inj (named_of_mem hripe.ok hspelled x hx)
      (named_of_mem hripe.ok hspelled y hy)

/-- The module of a text that is accepted. -/
def textModule? (bytes : List UInt8) : Option Module :=
  let parsed := parseFile "t.kya" bytes
  if parsed.reports = [] then
    (parsed.file.check none).toOption.bind fun typed =>
      (emit (Program.ofTyped typed (Layouts.build typed.table)) "t.kya").toOption
  else none

theorem textModule?_inv {bytes : List UInt8} {m : Module} (h : textModule? bytes = some m) :
    ∃ typed, (parseFile "t.kya" bytes).reports = [] ∧
      (parseFile "t.kya" bytes).file.check none = .ok typed ∧
      emit (Program.ofTyped typed (Layouts.build typed.table)) "t.kya" = .ok m := by
  have hok : ∀ {ε α : Type} {x : Except ε α} {a : α}, x.toOption = some a → x = .ok a := by
    rintro ε α (e | b) a h
    · cases h
    · exact congrArg _ (Option.some.inj h)
  unfold textModule? at h
  dsimp only at h
  split at h
  case isTrue hparse =>
      obtain ⟨typed, hchecked, hemit⟩ := Option.bind_eq_some_iff.1 h
      exact ⟨typed, hparse, hok hchecked, hok hemit⟩
  case isFalse => cases h

/-- A text with a class, a method and the function where a program starts. -/
def symbolText : List UInt8 := "class A{fun m(self){}}fun main(){}".toUTF8.toList

theorem symbolText_distinct : ∃ typed m,
    (parseFile "t.kya" symbolText).reports = [] ∧
    (parseFile "t.kya" symbolText).file.check none = .ok typed ∧
    symbolText.length < 2 ^ 63 ∧
    emit (Program.ofTyped typed (Layouts.build typed.table)) "t.kya" = .ok m ∧
    m.symbols.Nodup ∧ ¬ Clashes typed := by
  have hrun : (textModule? symbolText).map Module.symbols = some ["rt_alloc", "rt_panic",
      "strcmp", "A.m", "kyanite_main", "desc.A", "dispatch.A"] := by
    rw [textModule?, symbolText, parseFile_ofList]
    decide +kernel
  have hlength : symbolText.length < 2 ^ 63 := by decide +kernel
  obtain ⟨m, hmodule, hsymbols⟩ := Option.map_eq_some_iff.1 hrun
  obtain ⟨typed, hparse, hcheck, hemit⟩ := textModule?_inv hmodule
  obtain ⟨m', hemit', hiff⟩ := module_symbols_nodup_iff hparse hcheck (by simp) hlength "t.kya"
  obtain rfl : m = m' := Except.ok.inj (hemit.symm.trans hemit')
  have hnodup : m.symbols.Nodup := by
    rw [hsymbols]
    decide
  exact ⟨typed, m, hparse, hcheck, hlength, hemit, hnodup, hiff.1 hnodup⟩

/-- A text with a function that has the symbol of the one where a program starts. -/
def twoStartsText : List UInt8 := "fun main(){}fun kyanite_main(){}".toUTF8.toList

theorem twoStartsText_clashes : ∃ typed m,
    (parseFile "t.kya" twoStartsText).reports = [] ∧
    (parseFile "t.kya" twoStartsText).file.check none = .ok typed ∧
    emit (Program.ofTyped typed (Layouts.build typed.table)) "t.kya" = .ok m ∧
    ¬ m.symbols.Nodup := by
  have hrun : (textModule? twoStartsText).map Module.symbols =
      some ["rt_alloc", "rt_panic", "strcmp", "kyanite_main", "kyanite_main"] := by
    rw [textModule?, twoStartsText, parseFile_ofList]
    decide +kernel
  obtain ⟨m, hmodule, hsymbols⟩ := Option.map_eq_some_iff.1 hrun
  obtain ⟨typed, hparse, hcheck, hemit⟩ := textModule?_inv hmodule
  refine ⟨typed, m, hparse, hcheck, hemit, ?_⟩
  rw [hsymbols]
  decide

end ClassLang.Llvm
