import ClassLang.Proofs.Tree.Parse
import ClassLang.Proofs.Tree.Sound

/-!
The names in a text. A text that is parsed without a report has no lexical fault either, so
its tree is that of a derivation, and each of its names is spelled as names are.
-/

namespace ClassLang

open Grammar (Derivation Terminal)

/-! Lexical faults are reported -/

namespace Parser

/-- What was read on the way to a parser that has reported nothing has no fault. It ends with
the current lexeme, unless the text is at its end. -/
theorem Steps.exists_read {p q : Parser} (h : p.Steps q) (hq : q.Clean) :
    ∃ read, p.rest = read ++ q.rest ∧ (∀ l ∈ read, l.faults = []) ∧
      (q.rest = [] ∨ (p.current :: read).getLast? = some q.current) := by
  induction h with
  | refl => exact ⟨[], rfl, by simp, Or.inr rfl⟩
  | fault _ _ _ => exact absurd hq (Parse.not_clean_fault _ _)
  | @move q l rest _ hrest hfaults ih =>
      obtain ⟨read, hread, hnone, _⟩ := ih hq
      refine ⟨read ++ [l], by simp [hread, hrest], fun x hx => ?_,
        Or.inr (by rw [← List.cons_append, List.getLast?_concat])⟩
      rcases List.mem_append.1 hx with hx | hx
      · exact hnone x hx
      · rw [List.mem_singleton.1 hx]
        exact hfaults hq
  | @stop q _ hrest ih =>
      obtain ⟨read, hread, hnone, _⟩ := ih hq
      exact ⟨read, hread, hnone, Or.inl hrest⟩

end Parser

namespace Parse

/-- Declarations are read up to the end of the text. -/
theorem decls_end {fuel : Nat} {p q : Parser} {ds : List Decl}
    (hrun : (decls fuel).run p = some (ds, q)) (hq : q.Clean) : q.current.token = .eof := by
  induction fuel generalizing p ds with
  | zero => exact (run_failure.1 hrun).elim
  | succ fuel ih =>
      obtain ⟨stop, p₁, haborted, hrun⟩ := run_bind.1 hrun
      obtain ⟨rfl, rfl⟩ := run_aborted.1 haborted
      obtain ⟨t, p₂, htoken, hrun⟩ := run_bind.1 hrun
      obtain ⟨rfl, rfl⟩ := run_token.1 htoken
      split at hrun
      next hstop =>
        obtain ⟨_, rfl⟩ := run_pure.1 hrun
        simpa [hq.2] using hstop
      next =>
        obtain ⟨_, p₃, _, hrun⟩ := run_bind.1 hrun
        obtain ⟨d, p₄, _, hrun⟩ := run_bind.1 hrun
        obtain ⟨_, p₅, _, hrun⟩ := run_bind.1 hrun
        obtain ⟨_, p₆, _, hrun⟩ := run_bind.1 hrun
        split at hrun
        · obtain ⟨_, p₇, _, hrun⟩ := run_bind.1 hrun
          obtain ⟨rest, p₈, hrest, hrun⟩ := run_bind.1 hrun
          obtain ⟨_, rfl⟩ := run_pure.1 hrun
          exact ih hrest
        · obtain ⟨rest, p₈, hrest, hrun⟩ := run_bind.1 hrun
          obtain ⟨_, rfl⟩ := run_pure.1 hrun
          exact ih hrest

/-- A parser that has read a text without a report has met no lexical fault. -/
theorem faults_nil {fuel : Nat} {name : String} {bytes : List UInt8} {ds : List Decl}
    {q : Parser} (hrun : (decls fuel).run (start (lexemes name bytes)) = some (ds, q))
    (hq : q.Clean) : ∀ l ∈ lexemes name bytes, l.faults = [] := by
  obtain ⟨ws, e, hls, he, hws, _⟩ := exists_lexemes name bytes
  obtain ⟨first, rest, hcons⟩ : ∃ first rest, lexemes name bytes = first :: rest :=
    List.exists_cons_of_ne_nil (by simp [hls])
  have hsteps := (follows_decls (Nat.le_refl fuel)).steps hrun
  have hstart := hsteps.clean hq
  obtain ⟨read, hread, hnone, hlast⟩ := hsteps.exists_read hq
  have hend := decls_end hrun hq
  rw [hcons] at hstart hread hlast
  have hfirst : first.faults = [] := clean_foldl_fault hstart
  obtain ⟨hcurrent, hrest⟩ : (start (first :: rest)).current = first ∧
      (start (first :: rest)).rest = rest := by
    simp [start, advance]
  rw [hrest] at hread
  rw [hcurrent] at hlast
  have hnil : q.rest = [] := by
    cases hmore : q.rest with
    | nil => rfl
    | cons x more =>
        -- the end of the text is the last lexeme
        rw [hmore] at hread hlast
        obtain ⟨last, hlast⟩ := List.getLast?_eq_some_iff.1 (hlast.resolve_left (by simp))
        have hall : ws ++ [e] = last ++ q.current :: x :: more := by
          rw [← hls, hcons, hread, ← List.cons_append, hlast, List.append_assoc,
            List.singleton_append]
        have hmem : q.current ∈ ws := by
          rw [← ws.dropLast_concat, hall]
          simp
        exact absurd hend (hws _ hmem)
  rw [hcons, hread, hnil, List.append_nil]
  exact List.forall_mem_cons.2 ⟨hfirst, hnone⟩

end Parse

/-- The tree of a text that is parsed without a report is that of a derivation. -/
theorem exists_derivation_of_clean {name : String} {bytes : List UInt8}
    (h : (parseFile name bytes).reports = []) :
    ∃ d : Derivation, d.yield = Lexeme.word (lexemes name bytes) ∧
      (parseFile name bytes).file.bare = d.tree name := by
  obtain ⟨ds, q, hparse, hruns⟩ := exists_parseFile_run name bytes
  have hrun := hruns _ (Nat.le_refl _)
  rw [hparse] at h ⊢
  obtain ⟨faults, hreported⟩ := Parse.reported_decls hrun
  have hq := hreported.clean h
  have hsees := Parse.start_sees (text_lexemes (Parse.faults_nil hrun hq))
  obtain ⟨_, hsound⟩ := Parse.yields_decls _ _ _ _ hrun hq
  obtain ⟨_, _, gs, hgs, hword⟩ := hsound _ hsees
  refine ⟨⟨gs⟩, hword.symm, ?_⟩
  rw [Parsed.ofRun, File.bare, hgs, Derivation.tree]

/-! The spelling of names -/

namespace Scan

/-- How names are spelled: a letter, and then letters and digits. -/
def IsName (s : String) : Prop :=
  s.toList.head?.any isLetter = true ∧ s.toList.all (fun c => isLetter c || isDigit c) = true

instance (s : String) : Decidable (IsName s) := inferInstanceAs (Decidable (_ ∧ _))

theorem isName_ofList {cs : List Char} (h : cs.head?.any isLetter = true ∧
    cs.all (fun c => isLetter c || isDigit c) = true) : IsName (String.ofList cs) := by
  rwa [IsName, String.toList_ofList]

theorem IsName.dot_notMem {s : String} (h : IsName s) : '.' ∉ s.toList := by
  intro hmem
  have hdot : (isLetter '.' || isDigit '.') = false := by decide
  rw [List.all_eq_true.1 h.2 _ hmem] at hdot
  cases hdot

theorem IsName.ne_nil {s : String} (h : IsName s) : s.toList ≠ [] := by
  intro hnil
  have hhead := h.1
  rw [hnil] at hhead
  cases hhead

theorem symbol_ne_name {eof : Pos} {g : Glyph} {rest : List Glyph} {k : LitKind} {text : String} :
    (symbol eof g rest).kind ≠ .lexeme .name k text := by
  have hdouble : ∀ c d, double c d ≠ some .name := by
    intro c d
    unfold double
    split <;> simp
  have hsingle : ∀ c, single c ≠ some .name := by
    intro c
    unfold single
    split <;> simp
  intro h
  unfold symbol operator at h
  dsimp only at h
  split at h
  · cases h
  · split at h
    next token htoken =>
      obtain ⟨d, _, htoken⟩ := Option.bind_eq_some_iff.1 htoken
      cases h
      exact hdouble _ _ htoken
    next =>
      split at h
      · cases h
      · split at h
        · cases h
        · split at h
          next htoken =>
            cases h
            exact hsingle _ htoken
          next => cases h

/-- A name starts with a letter and goes on with letters and digits. -/
theorem isName_of_first {eof : Pos} {g : Glyph} {rest : List Glyph} {k : LitKind}
    {text : String} (h : (first eof g rest).kind = .lexeme .name k text) : IsName text := by
  unfold first at h
  split at h
  · cases h
  · split at h
    next hletter =>
      obtain ⟨_, _, rfl⟩ := Kind.lexeme.inj h
      constructor
      · simp [spelling, hletter]
      · refine List.all_eq_true.2 fun c hc => ?_
        obtain ⟨x, hx, rfl⟩ := List.mem_map.1 ((by simpa [spelling] using hc) :
          c ∈ (g :: run (fun c => isLetter c || isDigit c) rest).map (·.char))
        rcases List.mem_cons.1 hx with rfl | hx
        · rw [hletter, Bool.true_or]
        · exact List.all_eq_true.1 List.all_takeWhile x hx
    next =>
      split at h
      · split at h
        · split at h <;> cases h
        · cases h
      · split at h
        · cases h
        · exact absurd h symbol_ne_name

theorem isName_of_mem {gs : List Glyph} {eof : Pos} {pending : List LexError} {skip : Nat}
    {l : Lexeme} (hl : l ∈ lexemesFrom eof pending gs skip) (hname : l.token = .name) :
    IsName l.text := by
  induction gs generalizing eof pending skip with
  | nil =>
      rw [lexemesFrom, List.mem_singleton] at hl
      subst hl
      cases hname
  | cons g rest ih =>
      cases skip with
      | succ skip => exact ih hl
      | zero =>
          simp only [lexemesFrom] at hl
          split at hl
          next token kind text hkind =>
            rcases List.mem_cons.1 hl with rfl | hl
            · dsimp only at hname
              subst hname
              exact isName_of_first hkind
            · exact ih hl
          next => exact ih hl

end Scan

theorem Lexeme.mem_of_name_mem_word {ls : List Lexeme} {text : String}
    (h : Terminal.name text ∈ word ls) : ∃ l ∈ ls, l.token = .name ∧ l.text = text := by
  obtain ⟨l, hl, hterminal⟩ := List.mem_map.1 h
  have htoken : l.token = .name := by rw [← token_terminal, hterminal]; rfl
  refine ⟨l, (List.mem_filter.1 hl).1, htoken, ?_⟩
  rw [terminal_of_name htoken] at hterminal
  exact Terminal.name.inj hterminal

/-- The names that a declaration brings in: its own, and those of its functions or methods. -/
def Decl.names (d : Decl) : List String := d.name.text :: d.functions.map (·.name.text)

theorem Decl.names_bare (d : Decl) : d.bare.names = d.names := by
  cases d <;> simp [names, bare, Decl.name, functions, Ident.bare, FuncDecl.bare]

/-- The names that a declaration brings in are among its terminals. -/
theorem Grammar.Decl.name_mem_yield (d : Grammar.Decl) {x : String} (hx : x ∈ d.tree.names) :
    Terminal.name x ∈ d.yield := by
  have hheader : ∀ {member : Bool} (h : Header member), Terminal.name h.name ∈ h.yield := by
    intro member h
    simp [Header.yield]
  cases d with
  | cls name tparams parent fields methods =>
      simp only [ClassLang.Decl.names, tree, ClassLang.Decl.name, ClassLang.Decl.functions,
        List.map_map, List.mem_cons, List.mem_map, Grammar.ident] at hx
      rcases hx with rfl | ⟨m, hm, rfl⟩
      · simp [yield]
      · have hname : Terminal.name m.header.name ∈ m.yield :=
          List.mem_append_left _ (hheader m.header)
        simp only [yield, List.mem_cons, List.mem_append, List.mem_flatMap]
        exact Or.inr (Or.inr (Or.inr (Or.inr (Or.inr (Or.inr (Or.inl ⟨m, hm, hname⟩))))))
  | bound name methods =>
      obtain rfl : x = name := by
        simpa [ClassLang.Decl.names, tree, ClassLang.Decl.name, ClassLang.Decl.functions,
          Grammar.ident] using hx
      simp [yield]
  | func f =>
      obtain rfl : x = f.header.name := by
        simpa [ClassLang.Decl.names, tree, ClassLang.Decl.name, ClassLang.Decl.functions,
          Grammar.ident, Func.tree, Header.tree] using hx
      exact List.mem_append_left _ (hheader f.header)
  | host h semi =>
      obtain rfl : x = h.name := by
        simpa [ClassLang.Decl.names, tree, ClassLang.Decl.name, ClassLang.Decl.functions,
          Grammar.ident, Header.tree] using hx
      exact List.mem_cons_of_mem _ (List.mem_append_left _ (hheader h))
  | const name type value =>
      obtain rfl : x = name := by
        simpa [ClassLang.Decl.names, tree, ClassLang.Decl.name, ClassLang.Decl.functions,
          Grammar.ident] using hx
      simp [yield]

theorem Decl.functions_bare (d : Decl) : d.bare.functions = d.functions.map FuncDecl.bare := by
  cases d <;> simp [bare, functions]

/-- The parts of a list yield what the list yields. -/
theorem Grammar.Items.mem_yield {α : Type} {f : α → List Terminal} {items : Items α} {x : α}
    {t : Terminal} (hx : x ∈ items.toList) (ht : t ∈ f x) : t ∈ items.yield f := by
  induction items with
  | none => exact absurd hx List.not_mem_nil
  | last y =>
      obtain rfl := List.mem_singleton.1 hx
      exact ht
  | more y rest ih =>
      rcases List.mem_cons.1 hx with rfl | hx
      · exact List.mem_append_left _ ht
      · exact List.mem_append_right _ (List.mem_cons_of_mem _ (ih hx))

/-- The functions of a declaration have headers that are among its terminals. -/
theorem Grammar.Decl.exists_header (d : Grammar.Decl) {f : FuncDecl}
    (hf : f ∈ d.tree.functions) : ∃ (member : Bool) (h : Header member),
      f.params = h.params.fields ∧ ∀ t ∈ h.yield, t ∈ d.yield := by
  cases d with
  | cls name tparams parent fields methods =>
      obtain ⟨m, hm, rfl⟩ := List.mem_map.1 hf
      refine ⟨true, m.header, rfl, fun t ht => ?_⟩
      have hmem : t ∈ methods.flatMap Func.yield :=
        List.mem_flatMap.2 ⟨m, hm, List.mem_append_left _ ht⟩
      simp only [yield, List.mem_cons, List.mem_append]
      exact Or.inr (Or.inr (Or.inr (Or.inr (Or.inr (Or.inr (Or.inl hmem))))))
  | bound name methods => exact absurd hf List.not_mem_nil
  | func f =>
      obtain rfl := List.mem_singleton.1 hf
      exact ⟨false, f.header, rfl, fun t ht => List.mem_append_left _ ht⟩
  | host h semi =>
      obtain rfl := List.mem_singleton.1 hf
      exact ⟨false, h, rfl, fun t ht => List.mem_cons_of_mem _ (List.mem_append_left _ ht)⟩
  | const name type value => exact absurd hf List.not_mem_nil

/-- The names of parameters are among the terminals of a header. -/
theorem Grammar.Header.param_mem_yield {member : Bool} (h : Header member) {p : FieldDecl}
    (hp : p ∈ h.params.fields) : Terminal.name p.name.text ∈ h.yield := by
  have hfield : ∀ {ps : Items Field}, p ∈ ps.toList.map Field.tree →
      Terminal.name p.name.text ∈ ps.yield Field.yield := by
    intro ps hp
    obtain ⟨x, hx, rfl⟩ := List.mem_map.1 hp
    refine Items.mem_yield hx ?_
    exact List.mem_cons_self
  have hmem : Terminal.name p.name.text ∈ h.params.yield := by
    cases hparams : h.params with
    | plain ps =>
        rw [hparams] at hp
        exact hfield hp
    | receiver self =>
        rw [hparams] at hp
        exact absurd hp List.not_mem_nil
    | receiverWith self ps =>
        rw [hparams] at hp
        exact List.mem_cons_of_mem _ (List.mem_cons_of_mem _ (hfield hp))
  simp [Header.yield, hmem]

section

variable {name : String} {bytes : List UInt8} (h : (parseFile name bytes).reports = [])

include h

/-- The declarations of a text are those of a derivation, whose names are spelled as such. -/
theorem exists_grammar_decl : ∀ d ∈ (parseFile name bytes).file.decls,
    ∃ g : Grammar.Decl, g.tree = d.bare ∧ ∀ x, Terminal.name x ∈ g.yield → Scan.IsName x := by
  intro d hd
  obtain ⟨derivation, hyield, htree⟩ := exists_derivation_of_clean h
  have hbare : d.bare ∈ derivation.decls.map Grammar.Decl.tree := by
    have hdecls : (parseFile name bytes).file.decls.map Decl.bare =
        derivation.decls.map Grammar.Decl.tree := congrArg File.decls htree
    rw [← hdecls]
    exact List.mem_map_of_mem hd
  obtain ⟨g, hg, heq⟩ := List.mem_map.1 hbare
  refine ⟨g, heq, fun x hx => ?_⟩
  have hmem : Terminal.name x ∈ Lexeme.word (lexemes name bytes) := by
    rw [← hyield]
    exact List.mem_flatMap.2 ⟨g, hg, hx⟩
  obtain ⟨l, hl, htoken, rfl⟩ := Lexeme.mem_of_name_mem_word hmem
  exact Scan.isName_of_mem hl htoken

/-- What is declared in a text has names that are spelled as such. -/
theorem parseFile_names : ∀ d ∈ (parseFile name bytes).file.decls, ∀ x ∈ d.names,
    Scan.IsName x := by
  intro d hd x hx
  obtain ⟨g, heq, hnames⟩ := exists_grammar_decl h d hd
  rw [← Decl.names_bare, ← heq] at hx
  exact hnames x (g.name_mem_yield hx)

/-- The parameters of the functions of a text have names that are spelled as such. -/
theorem parseFile_param_names : ∀ f ∈ (parseFile name bytes).file.functions, ∀ p ∈ f.params,
    Scan.IsName p.name.text := by
  intro f hf p hp
  obtain ⟨d, hd, hf⟩ := List.mem_flatMap.1 hf
  obtain ⟨g, heq, hnames⟩ := exists_grammar_decl h d hd
  have hbare : f.bare ∈ g.tree.functions := by
    rw [heq, Decl.functions_bare]
    exact List.mem_map_of_mem hf
  obtain ⟨_, header, hparams, hsub⟩ := g.exists_header hbare
  have hmem : p.bare ∈ header.params.fields := by
    rw [← hparams]
    exact List.mem_map_of_mem hp
  have hname : p.name.text = p.bare.name.text := rfl
  rw [hname]
  exact hnames _ (hsub _ (header.param_mem_yield hmem))

end

end ClassLang
