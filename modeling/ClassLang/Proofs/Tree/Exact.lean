import Mathlib
import ClassLang.Proofs.Tree.Encoded
import ClassLang.Proofs.Tree.Sound
import ClassLang.Proofs.Tree.Complete
import ClassLang.Proofs.Tree.Unique

/-!
The parser reads its grammar: no more, since what it reads without a report has a
derivation, and no less, since what has one is read without a report. The tree it returns
is that of the derivation, so a text has only one.
-/

namespace ClassLang

open Grammar (Derivation)

namespace Parse

variable {ls : List Lexeme} {fuel : Nat} {ds : List Decl} {q : Parser}

/-- A run without a report has read the terminals of a derivation. -/
theorem exists_derivation (hls : Lexeme.Text ls)
    (hrun : (decls fuel).run (start ls) = some (ds, q)) (hq : q.Clean) :
    ∃ d : Derivation, d.yield = Lexeme.word ls := by
  obtain ⟨_, hsound⟩ := yields_decls fuel _ _ _ hrun hq
  obtain ⟨_, _, gs, _, hword⟩ := hsound _ (start_sees hls)
  exact ⟨⟨gs⟩, hword.symm⟩

/-- A run on the terminals of a derivation ends without a report, with its tree. -/
theorem derivation_read (name : String) (hls : Lexeme.Text ls)
    (hrun : (decls fuel).run (start ls) = some (ds, q)) {d : Derivation}
    (hd : d.yield = Lexeme.word ls) :
    q.Clean ∧ (Parsed.ofRun name (start ls) ds q).file.bare = d.tree name := by
  have hstart : (start ls).Sees d.yield := hd ▸ start_sees hls
  obtain ⟨hq, hds⟩ := takes_decls d.decls fuel _ _ _ hstart hrun
  refine ⟨hq.clean, ?_⟩
  rw [Parsed.ofRun, File.bare, hds, Derivation.tree]

end Parse

/-- On a text without a lexical fault the parser reports nothing exactly if the text has a
derivation. It has only one then, and the parser returns the tree of this one, positions
aside. -/
theorem parsing_accepts_grammar {name : String} {bytes : List UInt8}
    (hscan : ∀ l ∈ lexemes name bytes, l.faults = []) :
    ((parseFile name bytes).reports = [] ↔
      ∃ d : Derivation, d.yield = Lexeme.word (lexemes name bytes)) ∧
    ((parseFile name bytes).first = none ↔ (parseFile name bytes).reports = []) ∧
    ∀ d : Derivation, d.yield = Lexeme.word (lexemes name bytes) →
      (parseFile name bytes).file.bare = d.tree name ∧
      ∀ d' : Derivation, d'.yield = Lexeme.word (lexemes name bytes) → d' = d := by
  have htext := text_lexemes hscan
  obtain ⟨ds, q, hparse, hrun⟩ := exists_parseFile_run name bytes
  have hrun := hrun _ (Nat.le_refl _)
  obtain ⟨faults, hreported⟩ := Parse.reported_decls hrun
  have htree : ∀ d : Derivation, d.yield = Lexeme.word (lexemes name bytes) →
      (parseFile name bytes).file.bare = d.tree name :=
    fun d hd => hparse ▸ (Parse.derivation_read name htext hrun hd).2
  refine ⟨⟨fun hreports => ?_, fun ⟨d, hd⟩ => ?_⟩, ?_, fun d hd => ⟨htree d hd, fun d' hd' => ?_⟩⟩
  · rw [hparse] at hreports
    exact Parse.exists_derivation htext hrun (hreported.clean hreports)
  · rw [hparse, Parsed.ofRun, (Parse.derivation_read name htext hrun hd).1.1,
      List.reverse_nil]
  · rw [hparse, Parsed.ofRun, hreported.first_reports]
    exact List.head?_eq_none_iff
  · exact Derivation.eq_of_tree_eq ((htree d' hd').symm.trans (htree d hd)) (hd'.trans hd.symm)

/-- A text with a comma behind the last part of each list, brackets with nothing in them, and
operators of two levels. -/
def commaText : List UInt8 :=
  "extern fun p(x:Int,)class A<>{n:Int,fun m(self,):Int{return self.n-1- -2*3;}}".toUTF8.toList

/-- The derivation of `commaText`. -/
def commaDerivation : Derivation where
  decls :=
    [.host ⟨"p", none, .plain (.more ⟨"x", .name "Int"⟩ .none), none⟩ false,
      .cls "A" (some .none) none (.more ⟨"n", .name "Int"⟩ .none)
        [⟨⟨"m", none, .receiverWith "self" .none, some (.name "Int")⟩,
          .mk [.ret (some difference)]⟩]]
where
  number (text : String) : Grammar.Unary := .primary (.operand (.literal .int text))
  field : Grammar.Unary := .primary (.select (.operand (.name "self")) "n")
  product : Grammar.Binary 1 :=
    .op .mul rfl (.lift (.unary (.op .neg (number "2")))) (.unary (number "3"))
  difference : Grammar.Expr := .lift (.lift (.lift (.lift (.op .sub rfl
    (.op .sub rfl (.lift (.lift (.unary field))) (.lift (.unary (number "1")))) product))))

theorem commaText_accepted : (∀ l ∈ lexemes "t" commaText, l.faults = []) ∧
    commaDerivation.yield = Lexeme.word (lexemes "t" commaText) ∧
    (parseFile "t" commaText).reports = [] ∧
    (parseFile "t" commaText).file.bare = commaDerivation.tree "t" := by
  have hlexemes : (fun ls : List Lexeme => (ls.all fun l => l.faults.isEmpty, Lexeme.word ls))
      (lexemes "t" commaText) = (true, commaDerivation.yield) := by
    rw [commaText, lexemes_encode, String.toList_ofList]
    decide +kernel
  obtain ⟨hfaults, hword⟩ := Prod.mk.inj hlexemes
  have hscan : ∀ l ∈ lexemes "t" commaText, l.faults = [] := by
    intro l hl
    simpa using List.all_eq_true.1 hfaults l hl
  obtain ⟨haccepts, _, htree⟩ := parsing_accepts_grammar hscan
  exact ⟨hscan, hword.symm, haccepts.2 ⟨_, hword.symm⟩, (htree _ hword.symm).1⟩

end ClassLang
