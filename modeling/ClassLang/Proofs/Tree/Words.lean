import ClassLang.Proofs.Token.Places
import ClassLang.Proofs.Tree.Ends
import ClassLang.Proofs.Tree.Follow

/-!
Texts as words of the grammar. A lexeme is a terminal, the end of the text is none; a
parser that has reported nothing so far sees the word that is left to read.
-/

namespace ClassLang

open Grammar (Terminal headToken)

namespace Lexeme

/-- What a lexeme is to the grammar. -/
def terminal (l : Lexeme) : Terminal :=
  match l.token with
  | .name => .name l.text
  | .literal => .literal l.kind l.text
  | t => .mark t

/-- The word that lexemes spell. -/
def word (ls : List Lexeme) : List Terminal :=
  (ls.filter fun l => l.token ≠ .eof).map terminal

theorem token_terminal (l : Lexeme) : l.terminal.token = l.token := by
  unfold terminal
  split
  next h => exact h.symm
  next h => exact h.symm
  next => rfl

theorem terminal_of_name {l : Lexeme} (h : l.token = .name) : l.terminal = .name l.text := by
  simp [terminal, h]

theorem terminal_of_literal {l : Lexeme} (h : l.token = .literal) :
    l.terminal = .literal l.kind l.text := by
  simp [terminal, h]

theorem word_cons {l : Lexeme} {ls : List Lexeme} (h : l.token ≠ .eof) :
    word (l :: ls) = l.terminal :: word ls := by
  simp [word, h]

theorem word_eof {l : Lexeme} (h : l.token = .eof) : word [l] = [] := by
  simp [word, h]

/-- Lexemes of a text, or of the rest of one, without a fault: the last and no other is the
end of the text, and they start at different places. -/
structure Text (ls : List Lexeme) : Prop where
  faults : ∀ l ∈ ls, l.faults = []
  nodup : (ls.map (·.pos)).Nodup
  ends : ∃ (ws : List Lexeme) (e : Lexeme), ls = ws ++ [e] ∧ e.token = .eof ∧ ∀ l ∈ ws, l.token ≠ .eof

namespace Text

variable {l : Lexeme} {ls : List Lexeme}

theorem tail (h : Text (l :: ls)) (hl : l.token ≠ .eof) : Text ls := by
  obtain ⟨ws, e, hls, he, hws⟩ := h.ends
  cases ws with
  | nil =>
      obtain ⟨rfl, rfl⟩ : l = e ∧ ls = [] := by simpa using hls
      exact absurd he hl
  | cons w ws =>
      obtain ⟨rfl, rfl⟩ : l = w ∧ ls = ws ++ [e] := by simpa using hls
      exact ⟨fun x hx => h.faults x (List.mem_cons_of_mem _ hx), (List.nodup_cons.1 h.nodup).2,
        ws, e, rfl, he, fun x hx => hws x (List.mem_cons_of_mem _ hx)⟩

theorem ne_nil (h : Text ls) : ls ≠ [] := by
  obtain ⟨ws, e, rfl, _⟩ := h.ends
  simp

theorem eq_nil (h : Text (l :: ls)) (hl : l.token = .eof) : ls = [] := by
  obtain ⟨ws, e, hls, _, hws⟩ := h.ends
  cases ws with
  | nil => exact (by simpa using hls : l = e ∧ ls = []).2
  | cons w ws =>
      obtain ⟨rfl, _⟩ : l = w ∧ ls = ws ++ [e] := by simpa using hls
      exact absurd hl (hws l List.mem_cons_self)

theorem length_word (h : Text ls) : ls.length = (word ls).length + 1 := by
  obtain ⟨ws, e, rfl, he, hws⟩ := h.ends
  have hkeep : ws.filter (fun l => l.token ≠ .eof) = ws :=
    List.filter_eq_self.2 fun l hl => by simpa using hws l hl
  rw [word, List.filter_append, hkeep]
  simp [he]

end Text

end Lexeme

/-- The lexemes of a text without a lexical fault. -/
theorem text_lexemes {name : String} {bytes : List UInt8}
    (h : ∀ l ∈ lexemes name bytes, l.faults = []) : Lexeme.Text (lexemes name bytes) := by
  obtain ⟨ws, e, hls, he, hws, hnodup, _⟩ := exists_lexemes name bytes
  exact ⟨h, hnodup, ws, e, hls, he, hws⟩

namespace Parser

/-- Nothing was reported, and `w` is the word that is left to read. -/
structure Sees (p : Parser) (w : List Terminal) : Prop where
  clean : p.Clean
  text : Lexeme.Text (p.current :: p.rest)
  word : Lexeme.word (p.current :: p.rest) = w

namespace Sees

variable {p q : Parser} {w r : List Terminal} {t : Terminal}

theorem token_ne_eof (h : p.Sees (t :: w)) : p.current.token ≠ .eof := by
  intro heof
  have hword := h.word
  rw [h.text.eq_nil heof, Lexeme.word_eof heof] at hword
  cases hword

theorem current (h : p.Sees (t :: w)) : p.current.terminal = t := by
  have hword := h.word
  rw [Lexeme.word_cons h.token_ne_eof] at hword
  exact (List.cons.inj hword).1

theorem rest (h : p.Sees (t :: w)) : Lexeme.word p.rest = w := by
  have hword := h.word
  rw [Lexeme.word_cons h.token_ne_eof] at hword
  exact (List.cons.inj hword).2

theorem token (h : p.Sees w) : p.current.token = headToken w := by
  cases w with
  | nil =>
      refine Decidable.byContradiction fun hne => ?_
      have hword := h.word
      rw [Lexeme.word_cons hne] at hword
      cases hword
  | cons t w => rw [headToken, ← h.current, Lexeme.token_terminal]

theorem length (h : p.Sees w) : p.rest.length = w.length := by
  have hlength := h.text.length_word
  rw [h.word, List.length_cons] at hlength
  omega

/-- One terminal has been read. -/
theorem advance (h : p.Sees (t :: w)) : (Parse.advance p).Sees w := by
  have htext := h.text.tail h.token_ne_eof
  obtain ⟨l, rest, hrest⟩ := List.exists_cons_of_ne_nil htext.ne_nil
  have hfaults : l.faults = [] := htext.faults l (by simp [hrest])
  have hadvance : Parse.advance p = { p with current := l, rest } := by
    simp [Parse.advance, hrest, hfaults]
  rw [hadvance]
  exact ⟨h.clean, hrest ▸ htext, by rw [← h.rest, hrest]⟩

theorem eq_name_cons (h : p.Sees w) (hname : p.current.token = .name) :
    w = .name p.current.text :: w.tail := by
  cases w with
  | nil => exact absurd (hname.symm.trans h.token) (by simp [headToken])
  | cons t w => rw [← h.current, Lexeme.terminal_of_name hname, List.tail_cons]

theorem eq_literal_cons (h : p.Sees w) (hliteral : p.current.token = .literal) :
    w = .literal p.current.kind p.current.text :: w.tail := by
  cases w with
  | nil => exact absurd (hliteral.symm.trans h.token) (by simp [headToken])
  | cons t w => rw [← h.current, Lexeme.terminal_of_literal hliteral, List.tail_cons]

/-- The current lexeme is the name that comes first. -/
theorem text_eq {text : String} (h : p.Sees (.name text :: w)) : p.current.text = text := by
  obtain ⟨htext, _⟩ := List.cons.inj (h.eq_name_cons h.token)
  exact (Terminal.name.inj htext).symm

/-- The current lexeme is the literal that comes first. -/
theorem literal_eq {kind : LitKind} {text : String} (h : p.Sees (.literal kind text :: w)) :
    p.current.kind = kind ∧ p.current.text = text := by
  obtain ⟨hliteral, _⟩ := List.cons.inj (h.eq_literal_cons h.token)
  obtain ⟨hkind, htext⟩ := Terminal.literal.inj hliteral
  exact ⟨hkind.symm, htext.symm⟩

end Sees

/-- Behind the first lexeme that was read, the current lexeme is one of those that were left. -/
theorem Steps.pos_mem {p q : Parser} (h : p.Steps q) (hlt : q.rest.length < p.rest.length) :
    q.current.pos ∈ p.rest.map (·.pos) := by
  have hmem : q.rest <:+ p.rest ∧
      (q.rest.length < p.rest.length → q.current.pos ∈ p.rest.map (·.pos)) := by
    clear hlt
    induction h with
    | refl => exact ⟨List.suffix_refl _, fun hlt => absurd hlt (Nat.lt_irrefl _)⟩
    | @fault q e _ _ ih =>
        rw [Parse.rest_fault]
        refine ⟨ih.1, fun hlt => ?_⟩
        rw [(past_fault q e).place (by rw [Parse.rest_fault])]
        exact ih.2 hlt
    | @move q l rest _ hrest _ ih =>
        rw [hrest] at ih
        refine ⟨(List.suffix_cons l rest).trans ih.1, fun _ => ?_⟩
        exact List.mem_map_of_mem (ih.1.mem List.mem_cons_self)
    | stop _ _ ih => exact ih
  exact hmem.2 hlt

/-- A parser that has read something is at another place. -/
theorem Sees.pos_ne {p q : Parser} {w r : List Terminal} (hp : p.Sees w) (hq : q.Sees r)
    (hsteps : p.Steps q) (hlt : r.length < w.length) : q.current.pos ≠ p.current.pos := by
  intro heq
  have hmem := hsteps.pos_mem (by rw [hp.length, hq.length]; exact hlt)
  rw [heq] at hmem
  exact (List.nodup_cons.1 hp.text.nodup).1 hmem

end Parser

/-- The parser at the start of a text without a lexical fault. -/
theorem Parse.start_sees {ls : List Lexeme} (h : Lexeme.Text ls) :
    (start ls).Sees (Lexeme.word ls) := by
  obtain ⟨l, rest, rfl⟩ := List.exists_cons_of_ne_nil h.ne_nil
  have hfaults : l.faults = [] := h.faults l List.mem_cons_self
  have hstart : start (l :: rest) = { current := l, rest } := by
    simp [start, advance, hfaults]
  rw [hstart]
  exact ⟨⟨rfl, rfl⟩, h, rfl⟩

end ClassLang
