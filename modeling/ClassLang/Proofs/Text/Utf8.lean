import ClassLang.Text.Utf8

/-!
Encoding before decoding. The bytes of a text decode to its characters, none of
them damaged.
-/

namespace ClassLang.Utf8

/-! The bytes of a text -/

theorem toList_loop (bs : ByteArray) (i : Nat) (r : List UInt8) :
    ByteArray.toList.loop bs i r = r.reverse ++ bs.data.toList.drop i := by
  have hsize : bs.data.toList.length = bs.size := rfl
  induction hn : bs.size - i generalizing i r with
  | zero =>
      rw [ByteArray.toList.loop, if_neg (by omega), List.drop_eq_nil_of_le (by omega),
        List.append_nil]
  | succ n ih =>
      have hi : i < bs.data.toList.length := by omega
      have hget : bs.get! i = bs.data.toList[i] := getElem!_pos bs.data i hi
      rw [ByteArray.toList.loop, if_pos (by omega), ih (i + 1) _ (by omega),
        List.drop_eq_getElem_cons hi, hget, List.reverse_cons, List.append_assoc]
      rfl

theorem encode_eq (s : String) : encode s = s.toList.flatMap String.utf8EncodeChar := by
  rw [encode, ByteArray.toList, toList_loop, String.toUTF8, ← String.utf8Encode_toList,
    List.utf8Encode, List.toList_data_toByteArray]
  rfl

/-! The bytes of one character -/

theorem toNat_ofNat_of_lt {n : Nat} (h : n < 256) : (UInt8.ofNat n).toNat = n :=
  Nat.mod_eq_of_lt h

theorem decodeFirst_one {a : UInt8} {n : Nat} (h : n ≤ 0x7F) (ha : a.toNat = n)
    (rest : List UInt8) : decodeFirst a rest = some (n, 0) := by
  simp only [decodeFirst, ha]
  rw [if_pos (by omega)]

theorem decodeFirst_two {a b : UInt8} {n : Nat} (h : 0x7F < n) (h' : n ≤ 0x7FF)
    (ha : a.toNat = n / 64 % 32 + 192) (hb : b.toNat = n % 64 + 128) (rest : List UInt8) :
    decodeFirst a (b :: rest) = some (n, 1) := by
  simp only [decodeFirst, within, payload, ha, hb, Bool.and_eq_true, decide_eq_true_eq]
  rw [if_neg (by omega), if_pos (by omega), if_pos (by omega)]
  congr 2
  omega

/-- The second byte of three is in its range since no character is a surrogate. -/
theorem decodeFirst_three {a b c : UInt8} {n : Nat} (h : 0x7FF < n) (h' : n ≤ 0xFFFF)
    (hvalid : n < 0xD800 ∨ 0xDFFF < n) (ha : a.toNat = n / 4096 % 16 + 224)
    (hb : b.toNat = n / 64 % 64 + 128) (hc : c.toNat = n % 64 + 128) (rest : List UInt8) :
    decodeFirst a (b :: c :: rest) = some (n, 2) := by
  simp only [decodeFirst, within, payload, ha, hb, hc, Bool.and_eq_true, decide_eq_true_eq]
  rw [if_neg (by omega), if_neg (by omega), if_pos (by omega),
    if_pos (by split <;> split <;> omega)]
  congr 2
  omega

theorem decodeFirst_four {a b c d : UInt8} {n : Nat} (h : 0xFFFF < n) (h' : n < 0x110000)
    (ha : a.toNat = n / 262144 % 8 + 240) (hb : b.toNat = n / 4096 % 64 + 128)
    (hc : c.toNat = n / 64 % 64 + 128) (hd : d.toNat = n % 64 + 128) (rest : List UInt8) :
    decodeFirst a (b :: c :: d :: rest) = some (n, 3) := by
  simp only [decodeFirst, within, payload, ha, hb, hc, hd, Bool.and_eq_true, decide_eq_true_eq]
  rw [if_neg (by omega), if_neg (by omega), if_neg (by omega), if_pos (by omega),
    if_pos (by split <;> split <;> omega)]
  congr 2
  omega

theorem decodeFirst_utf8EncodeChar (c : Char) (rest : List UInt8) :
    ∃ lead more, String.utf8EncodeChar c = lead :: more ∧
      decodeFirst lead (more ++ rest) = some (c.toNat, more.length) := by
  have hvalid : c.toNat < 0xD800 ∨ (0xDFFF < c.toNat ∧ c.toNat < 0x110000) := c.valid
  simp only [String.utf8EncodeChar, show c.val.toNat = c.toNat from rfl]
  split
  · exact ⟨_, _, rfl, decodeFirst_one ‹_› (toNat_ofNat_of_lt (by omega)) rest⟩
  · split
    · exact ⟨_, _, rfl, decodeFirst_two (by omega) ‹_› (toNat_ofNat_of_lt (by omega))
        (toNat_ofNat_of_lt (by omega)) rest⟩
    · split
      · exact ⟨_, _, rfl, decodeFirst_three (by omega) ‹_› (by omega)
          (toNat_ofNat_of_lt (by omega)) (toNat_ofNat_of_lt (by omega))
          (toNat_ofNat_of_lt (by omega)) rest⟩
      · exact ⟨_, _, rfl, decodeFirst_four (by omega) (by omega)
          (toNat_ofNat_of_lt (by omega)) (toNat_ofNat_of_lt (by omega))
          (toNat_ofNat_of_lt (by omega)) (toNat_ofNat_of_lt (by omega)) rest⟩

/-! The pieces of a text -/

theorem piecesFrom_append (skipped rest : List UInt8) :
    piecesFrom (skipped ++ rest) skipped.length = piecesFrom rest 0 := by
  induction skipped with
  | nil => rfl
  | cons b skipped ih => exact ih

theorem piecesFrom_utf8EncodeChar (c : Char) (rest : List UInt8) :
    piecesFrom (String.utf8EncodeChar c ++ rest) 0 = .char c :: piecesFrom rest 0 := by
  obtain ⟨lead, more, hbytes, hfirst⟩ := decodeFirst_utf8EncodeChar c rest
  rw [hbytes, List.cons_append, piecesFrom, hfirst]
  simp only [Char.ofNat_toNat, piecesFrom_append]

/-- The bytes of a text are well-formed throughout and stand for its characters. -/
theorem runes_encode (s : String) : runes (encode s) = s.toList.map fun c => ⟨c, true⟩ := by
  rw [encode_eq, runes, pieces]
  induction s.toList with
  | nil => rfl
  | cons c cs ih =>
      rw [List.flatMap_cons, piecesFrom_utf8EncodeChar, List.map_cons, ih]
      rfl

theorem decode_encode (s : String) : decode (encode s) = s := by
  rw [decode, runes_encode, List.map_map]
  exact (congrArg String.ofList (List.map_id s.toList)).trans String.ofList_toList

end ClassLang.Utf8

/-!
What decoding does with every text. The bytes are cut into pieces: the encoding of a character
is one piece wherever it comes next, and a byte with which no encoding starts is a piece of its
own. There is only one way to cut a text like this.
-/

namespace ClassLang.Utf8

/-- The bytes of a piece. -/
def Piece.bytes : Piece → List UInt8
  | .char c => String.utf8EncodeChar c
  | .byte b => [b]

/-- The character that shows a piece. -/
def Piece.shown (p : Piece) : Char := p.rune.char

/-- A text that is cut into pieces. A byte is damaged if no character is encoded there. -/
inductive Cut : List UInt8 → List Piece → Prop
  | nil : Cut [] []
  | char {c : Char} {rest : List UInt8} {ps : List Piece} (others : Cut rest ps) :
    Cut (String.utf8EncodeChar c ++ rest) (.char c :: ps)
  | byte {b : UInt8} {rest : List UInt8} {ps : List Piece}
    (damaged : ∀ c : Char, ¬String.utf8EncodeChar c <+: b :: rest) (others : Cut rest ps) :
    Cut (b :: rest) (.byte b :: ps)

namespace Cut

variable {bytes : List UInt8} {ps qs : List Piece}

/-- No byte is left out or used twice. -/
theorem flatMap_bytes (h : Cut bytes ps) : ps.flatMap Piece.bytes = bytes := by
  induction h with
  | nil => rfl
  | char _ ih => rw [List.flatMap_cons, ih]; rfl
  | byte _ _ ih => rw [List.flatMap_cons, ih]; rfl

theorem length_le (h : Cut bytes ps) : ps.length ≤ bytes.length := by
  induction h with
  | nil => exact Nat.le_refl _
  | @char c _ _ _ ih =>
      have hpos := c.utf8Size_pos
      simp only [List.length_cons, List.length_append, String.length_utf8EncodeChar]
      omega
  | byte _ _ ih => exact Nat.succ_le_succ ih

end Cut

/-! What the first byte starts -/

section

variable {lead a b d : UInt8} {rest : List UInt8} {n k : Nat}

theorem exists_char (h : n < 0xD800 ∨ (0xDFFF < n ∧ n < 0x110000)) : ∃ c : Char, c.val.toNat = n :=
  ⟨Char.ofNatAux n h, rfl⟩

theorem ofNat_eq {b : UInt8} (h : b.toNat = n) : UInt8.ofNat n = b := by
  rw [← h, UInt8.ofNat_toNat]

theorem encode_one (h : lead.toNat < 0x80) :
    ∃ c : Char, c.toNat = lead.toNat ∧ String.utf8EncodeChar c = [lead] := by
  obtain ⟨c, hc⟩ := exists_char (n := lead.toNat) (by omega)
  refine ⟨c, hc, ?_⟩
  simp only [String.utf8EncodeChar, hc]
  rw [if_pos (by omega), ofNat_eq rfl]

theorem encode_two (hlead : 0xC2 ≤ lead.toNat ∧ lead.toNat ≤ 0xDF)
    (ha : 0x80 ≤ a.toNat ∧ a.toNat ≤ 0xBF) (hn : n = (lead.toNat - 0xC0) * 64 + a.toNat % 64) :
    ∃ c : Char, c.toNat = n ∧ String.utf8EncodeChar c = [lead, a] := by
  obtain ⟨c, hc⟩ := exists_char (n := n) (by omega)
  refine ⟨c, hc, ?_⟩
  simp only [String.utf8EncodeChar, hc]
  rw [if_neg (by omega), if_pos (by omega), ofNat_eq (b := lead) (by omega),
    ofNat_eq (b := a) (by omega)]

theorem encode_three (hlead : 0xE0 ≤ lead.toNat ∧ lead.toNat ≤ 0xEF)
    (hlow : (if lead.toNat = 0xE0 then 0xA0 else 0x80) ≤ a.toNat)
    (hhigh : a.toNat ≤ if lead.toNat = 0xED then 0x9F else 0xBF)
    (hb : 0x80 ≤ b.toNat ∧ b.toNat ≤ 0xBF)
    (hn : n = ((lead.toNat - 0xE0) * 64 + a.toNat % 64) * 64 + b.toNat % 64) :
    ∃ c : Char, c.toNat = n ∧ String.utf8EncodeChar c = [lead, a, b] := by
  have ha : 0x80 ≤ a.toNat ∧ a.toNat ≤ 0xBF := by split at hlow <;> split at hhigh <;> omega
  have hlong : 0x800 ≤ n := by split at hlow <;> omega
  have hvalid : n < 0xD800 ∨ 0xDFFF < n := by split at hhigh <;> omega
  obtain ⟨c, hc⟩ := exists_char (n := n) (by omega)
  refine ⟨c, hc, ?_⟩
  simp only [String.utf8EncodeChar, hc]
  rw [if_neg (by omega), if_neg (by omega), if_pos (by omega), ofNat_eq (b := lead) (by omega),
    ofNat_eq (b := a) (by omega), ofNat_eq (b := b) (by omega)]

theorem encode_four (hlead : 0xF0 ≤ lead.toNat ∧ lead.toNat ≤ 0xF4)
    (hlow : (if lead.toNat = 0xF0 then 0x90 else 0x80) ≤ a.toNat)
    (hhigh : a.toNat ≤ if lead.toNat = 0xF4 then 0x8F else 0xBF)
    (hb : 0x80 ≤ b.toNat ∧ b.toNat ≤ 0xBF) (hd : 0x80 ≤ d.toNat ∧ d.toNat ≤ 0xBF)
    (hn : n = (((lead.toNat - 0xF0) * 64 + a.toNat % 64) * 64 + b.toNat % 64) * 64 +
      d.toNat % 64) :
    ∃ c : Char, c.toNat = n ∧ String.utf8EncodeChar c = [lead, a, b, d] := by
  have ha : 0x80 ≤ a.toNat ∧ a.toNat ≤ 0xBF := by split at hlow <;> split at hhigh <;> omega
  have hlong : 0x10000 ≤ n := by split at hlow <;> omega
  have hshort : n < 0x110000 := by split at hhigh <;> omega
  obtain ⟨c, hc⟩ := exists_char (n := n) (by omega)
  refine ⟨c, hc, ?_⟩
  simp only [String.utf8EncodeChar, hc]
  rw [if_neg (by omega), if_neg (by omega), if_neg (by omega), ofNat_eq (b := lead) (by omega),
    ofNat_eq (b := a) (by omega), ofNat_eq (b := b) (by omega), ofNat_eq (b := d) (by omega)]

/-- What is decoded is the encoding of a character. -/
theorem encode_of_decodeFirst (h : decodeFirst lead rest = some (n, k)) : ∃ c : Char,
    c.toNat = n ∧ String.utf8EncodeChar c = lead :: rest.take k ∧ k ≤ rest.length := by
  unfold decodeFirst at h
  simp only [within, payload, Bool.and_eq_true, decide_eq_true_eq] at h
  -- the bounds of the second byte stay closed while the cases are taken
  generalize hlow₃ : (if lead.toNat = 0xE0 then 0xA0 else 0x80) = low₃ at h
  generalize hhigh₃ : (if lead.toNat = 0xED then 0x9F else 0xBF) = high₃ at h
  generalize hlow₄ : (if lead.toNat = 0xF0 then 0x90 else 0x80) = low₄ at h
  generalize hhigh₄ : (if lead.toNat = 0xF4 then 0x8F else 0xBF) = high₄ at h
  split at h
  next hone =>
    obtain ⟨rfl, rfl⟩ := Prod.mk.inj (Option.some.inj h)
    obtain ⟨c, hc, hbytes⟩ := encode_one hone
    exact ⟨c, hc, hbytes, Nat.zero_le _⟩
  split at h
  next hlead =>
    split at h
    case h_2 => cases h
    split at h
    case isFalse => cases h
    next a more ha =>
      obtain ⟨hn, rfl⟩ := Prod.mk.inj (Option.some.inj h)
      obtain ⟨c, hc, hbytes⟩ := encode_two hlead ha hn.symm
      exact ⟨c, hc, hbytes, by simp⟩
  split at h
  next hlead =>
    split at h
    case h_2 => cases h
    split at h
    case isFalse => cases h
    next a b more hab =>
      obtain ⟨hn, rfl⟩ := Prod.mk.inj (Option.some.inj h)
      obtain ⟨c, hc, hbytes⟩ :=
        encode_three hlead (hlow₃ ▸ hab.1.1) (hhigh₃ ▸ hab.1.2) hab.2 hn.symm
      exact ⟨c, hc, hbytes, by simp⟩
  split at h
  next hlead =>
    split at h
    case h_2 => cases h
    split at h
    case isFalse => cases h
    next a b d more habd =>
      obtain ⟨hn, rfl⟩ := Prod.mk.inj (Option.some.inj h)
      obtain ⟨c, hc, hbytes⟩ :=
        encode_four hlead (hlow₄ ▸ habd.1.1.1) (hhigh₄ ▸ habd.1.1.2) habd.1.2 habd.2 hn.symm
      exact ⟨c, hc, hbytes, by simp⟩
  cases h

/-- A byte is damaged if nothing is decoded there. -/
theorem damaged_iff : (∀ c : Char, ¬String.utf8EncodeChar c <+: lead :: rest) ↔
    decodeFirst lead rest = none := by
  constructor
  · intro hdamaged
    cases hfirst : decodeFirst lead rest with
    | none => rfl
    | some r =>
        obtain ⟨c, _, hc, _⟩ := encode_of_decodeFirst (n := r.1) (k := r.2) hfirst
        refine absurd ?_ (hdamaged c)
        rw [hc]
        exact List.cons_prefix_cons.2 ⟨rfl, List.take_prefix _ _⟩
  · rintro hnone c ⟨more, hmore⟩
    obtain ⟨lead', others, hbytes, hfirst⟩ := decodeFirst_utf8EncodeChar c more
    rw [hbytes, List.cons_append] at hmore
    obtain ⟨rfl, rfl⟩ := List.cons.inj hmore
    rw [hnone] at hfirst
    cases hfirst

end

/-! The pieces of a text -/

theorem piecesFrom_drop (bytes : List UInt8) (n : Nat) :
    piecesFrom bytes n = piecesFrom (bytes.drop n) 0 := by
  induction bytes generalizing n with
  | nil => simp [piecesFrom]
  | cons b bytes ih =>
      cases n with
      | zero => rfl
      | succ n => exact ih n

/-- The pieces of a text are the ones into which it is cut. -/
theorem cut_pieces (bytes : List UInt8) : Cut bytes (pieces bytes) := by
  unfold pieces
  induction hn : bytes.length using Nat.strongRecOn generalizing bytes with
  | ind n ih =>
  cases bytes with
  | nil => exact .nil
  | cons lead rest =>
      unfold piecesFrom
      cases hfirst : decodeFirst lead rest with
      | none => exact .byte (damaged_iff.2 hfirst) (ih _ (by simp [← hn]) rest rfl)
      | some r =>
          obtain ⟨c, hc, hbytes, _⟩ := encode_of_decodeFirst (n := r.1) (k := r.2) hfirst
          dsimp only
          have hlt : (rest.drop r.2).length < n := by
            rw [← hn, List.length_drop, List.length_cons]
            omega
          have hothers := Cut.char (c := c) (ih _ hlt (rest.drop r.2) rfl)
          rw [piecesFrom_drop, ← hc, Char.ofNat_toNat]
          rwa [hbytes, List.cons_append, List.take_append_drop] at hothers

/-- A text can be cut in one way only. -/
theorem Cut.unique {bytes : List UInt8} {ps qs : List Piece} (h : Cut bytes ps) (h' : Cut bytes qs) :
    ps = qs := by
  induction h generalizing qs with
  | nil =>
      generalize hnil : ([] : List UInt8) = bytes at h'
      cases h' with
      | nil => rfl
      | char _ => exact absurd (List.append_eq_nil_iff.1 hnil.symm).1 String.utf8EncodeChar_ne_nil
      | byte _ _ => cases hnil
  | @char c rest ps _ ih =>
      obtain ⟨lead, more, hbytes, hfirst⟩ := decodeFirst_utf8EncodeChar c rest
      generalize heq : String.utf8EncodeChar c ++ rest = bytes at h'
      cases h' with
      | nil => exact absurd (List.append_eq_nil_iff.1 heq).1 String.utf8EncodeChar_ne_nil
      | @char d rest' _ others =>
          obtain ⟨lead', more', hbytes', hfirst'⟩ := decodeFirst_utf8EncodeChar d rest'
          rw [hbytes, hbytes', List.cons_append, List.cons_append] at heq
          obtain ⟨rfl, hmore⟩ := List.cons.inj heq
          rw [hmore, hfirst'] at hfirst
          obtain ⟨hchar, hlength⟩ := Prod.mk.inj (Option.some.inj hfirst)
          obtain rfl : d = c := by rw [← Char.ofNat_toNat d, hchar, Char.ofNat_toNat]
          obtain ⟨_, rfl⟩ := List.append_inj hmore hlength.symm
          rw [ih others]
      | byte damaged _ => exact absurd (heq ▸ List.prefix_append _ rest) (damaged c)
  | @byte b rest ps damaged _ ih =>
      generalize heq : b :: rest = bytes at h'
      cases h' with
      | nil => cases heq
      | char _ => exact absurd (heq ▸ List.prefix_append _ _) (damaged _)
      | byte _ others =>
          obtain ⟨rfl, rfl⟩ := List.cons.inj heq
          rw [ih others]

end ClassLang.Utf8
