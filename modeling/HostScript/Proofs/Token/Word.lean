import Mathlib
import HostScript.Proofs.Token.Gap
import HostScript.Proofs.Token.Numeral
import HostScript.Text.Blank

/-!
# Words

The written forms of tokens. `IsLexeme kind text` says which texts a class of tokens has, and `Stops kind text next` that a token
ends in front of a character. The reader of tokens reads a written form back whatever follows it, if it stops there
(`readToken_lexeme`), and everything that it reads is one (`readToken_ok`).
-/

namespace HostScript.Lexer

/-- A token as it is written, with its quotes. -/
def lexemeChars (kind : TokenKind) (text : List Char) : List Char :=
  match Token.delimiter? kind with
  | some quote => quote :: text ++ [quote]
  | none => text

/-- The characters between double quotes: no quote without a backslash in front of it, no backslash alone at the end, and no
control character without a backslash in front of it. -/
def isStringBody : List Char → Bool
  | [] => true
  | '"' :: _ => false
  | '\\' :: [] => false
  | '\\' :: _ :: rest => isStringBody rest
  | c :: rest => decide (0x20 ≤ c.toNat) && isStringBody rest

/-- The texts of a class of tokens. -/
def IsLexeme (kind : TokenKind) (text : List Char) : Prop :=
  match kind with
  | .symbol => (∃ c d, text = [c, d] ∧ (c, d) ∈ pairedSymbols) ∨ ∃ c, text = [c] ∧ c ∈ singleSymbols
  | .ident => ∃ c rest, text = c :: rest ∧ isIdentStart c ∧ ∀ d ∈ rest, isIdentPart d
  | .number => IsNumeral text
  | .rawString => '\x60' ∉ text
  | .string => isStringBody text ∧ ∃ value, Json.unquote (String.ofList ('"' :: text ++ ['"'])) = .ok value

/-- A token ends in front of a character, or at the end of the text. -/
def Stops (kind : TokenKind) (text : List Char) (next : Option Char) : Prop :=
  match kind with
  | .symbol => ∀ c d, text = [c] → next = some d → (c, d) ∉ pairedSymbols
  | .ident => ∀ d, next = some d → isIdentPart d = false
  | .number => ∀ d, next = some d → extendsNumber d = false
  | .rawString | .string => True

/-- What is read of a token at a position. -/
def pieceOf (kind : TokenKind) (pos : Position) (text rest : List Char) : Piece :=
  match kind with
  | .string =>
    let inside := pos.passBytes ['"']
    let after := inside.passBytes text
    ⟨.string, ⟨pos.line, inside.column, inside.offset, after.offset⟩, text, rest, after.passBytes ['"']⟩
  | .rawString =>
    let inside := pos.pass '\x60' 1
    let after := text.foldl Position.passRaw inside
    ⟨.rawString, ⟨pos.line, inside.column, inside.offset, after.offset⟩, text, rest, after.pass '\x60' 1⟩
  | kind => plainPiece kind pos text rest

/-! ## Strings -/

/-- The content of a string is read up to the quote that ends it. -/
theorem splitString_exact {body : List Char} (h : isStringBody body) (opening : Position) (read rest : List Char) :
    splitString opening read (body ++ '"' :: rest) = .ok (read.reverse ++ body, rest) := by
  fun_induction isStringBody body generalizing read with
  | case1 => simp [splitString]
  | case2 => nomatch h
  | case3 => nomatch h
  | case4 c body ih =>
    rw [List.cons_append, List.cons_append, splitString, ih h]
    simp
  | case5 c body hquote hend hescape ih =>
    obtain ⟨hc, hbody⟩ := (Bool.and_eq_true _ _).mp h
    have hslash : c ≠ '\\' := by
      rintro rfl
      cases body with
      | nil => exact hend rfl rfl
      | cons d body => exact hescape d body rfl rfl
    rw [List.cons_append, splitString]
    · rw [if_neg (Nat.not_lt.mpr (of_decide_eq_true hc)), ih hbody]
      simp
    · exact hquote
    · exact fun h _ => hslash h
    · exact fun _ _ h _ => hslash h

/-- What has been read of a string is a content as a string may have it, and a quote stands behind it. -/
theorem splitString_ok {opening : Position} {read text body rest : List Char}
    (h : splitString opening read text = .ok (body, rest)) :
    ∃ inside, body = read.reverse ++ inside ∧ text = inside ++ '"' :: rest ∧ isStringBody inside := by
  fun_induction splitString opening read text with
  | case1 => contradiction
  | case2 =>
    obtain ⟨rfl, rfl⟩ := Prod.mk.inj (Except.ok.inj h)
    exact ⟨[], (List.append_nil _).symm, rfl, rfl⟩
  | case3 => contradiction
  | case4 read c text ih =>
    obtain ⟨inside, hbody, rfl, hinside⟩ := ih h
    refine ⟨'\\' :: c :: inside, ?_, rfl, hinside⟩
    rw [hbody]
    simp
  | case5 => contradiction
  | case6 read c text hquote hend hescape hc ih =>
    obtain ⟨inside, hbody, rfl, hinside⟩ := ih h
    refine ⟨c :: inside, ?_, rfl, ?_⟩
    · rw [hbody]
      simp
    · rw [isStringBody]
      · simp only [hinside, Bool.and_true, decide_eq_true_eq]
        omega
      · exact hquote
      · intro hslash
        cases inside with
        | nil => exact fun _ => hescape '"' rest hslash rfl
        | cons d inside => exact fun hnil => absurd hnil (List.cons_ne_nil d inside)
      · exact fun d more hslash heq => hescape d (more ++ '"' :: rest) hslash (by rw [heq, List.cons_append])

/-! ## Tokens -/

/-- The first character of a written form: it ends a gap, and the reader of tokens goes by it. -/
def opensWord (c : Char) : Bool := c == '"' || c == '\x60' || c.isDigit || isIdentStart c || singleSymbols.contains c ||
  pairedSymbols.any fun pair => pair.1 == c

/-- A character that opens a word ends a gap. -/
theorem opensWord_gap {c : Char} (h : opensWord c) : gapNext false c none = none ∧ c ≠ '\r' := by
  constructor
  · unfold gapNext
    have hnl : c ≠ '\n' := by
      rintro rfl
      nomatch h
    have hspace : c ≠ ' ' := by
      rintro rfl
      nomatch h
    have htab : c ≠ '\t' := by
      rintro rfl
      nomatch h
    have hhash : c ≠ '#' := by
      rintro rfl
      nomatch h
    simp [hnl, hspace, htab, hhash]
  · rintro rfl
    nomatch h

/-- A character that begins a symbol begins nothing else. -/
theorem symbol_start {c : Char} (h : c ∈ singleSymbols ∨ ∃ d, (c, d) ∈ pairedSymbols) :
    c ≠ '"' ∧ c ≠ '\x60' ∧ c.isDigit = false ∧ isIdentStart c = false ∧ opensWord c := by
  rcases h with h | ⟨d, h⟩
  · revert c
    apply forall_mem_of_all
    decide
  · have h' : c ∈ pairedSymbols.map Prod.fst := List.mem_map.mpr ⟨(c, d), h, rfl⟩
    clear h
    revert c
    apply forall_mem_of_all
    decide

/-- A token that begins with a digit is a number. -/
theorem readToken_digit {c : Char} (h : c.isDigit) (pos : Position) (rest : List Char) :
    readToken pos c rest = readNumber pos (c :: rest) := by
  have hquote : c ≠ '"' := by
    rintro rfl
    nomatch h
  have htick : c ≠ '\x60' := by
    rintro rfl
    nomatch h
  unfold readToken
  rw [if_neg (by simpa using hquote), if_neg (by simpa using htick), if_pos h]

/-- No name begins with a digit. -/
theorem isIdentStart_digit {c : Char} (h : isIdentStart c) : c.isDigit = false := by
  simp only [isIdentStart, Char.isAlpha, Char.isUpper, Char.isLower, Bool.or_eq_true, Bool.and_eq_true, decide_eq_true_eq,
    beq_iff_eq, ge_iff_le, UInt32.le_iff_toNat_le] at h
  rw [← Bool.not_eq_true]
  intro hdigit
  simp only [Char.isDigit, Bool.and_eq_true, decide_eq_true_eq, ge_iff_le, UInt32.le_iff_toNat_le] at hdigit
  change 48 ≤ c.val.toNat ∧ c.val.toNat ≤ 57 at hdigit
  rcases h with (h | h) | rfl
  · change 65 ≤ c.val.toNat ∧ _ at h
    omega
  · change 97 ≤ c.val.toNat ∧ _ at h
    omega
  · exact absurd hdigit (by decide)

/-- A token that begins as a name does is a name, as long as its characters go on. -/
theorem readToken_ident {c : Char} (h : isIdentStart c) (pos : Position) (rest : List Char) :
    readToken pos c rest = .ok (plainPiece .ident pos (c :: rest.takeWhile isIdentPart) (rest.dropWhile isIdentPart)) := by
  have hquote : c ≠ '"' := by
    rintro rfl
    nomatch h
  have htick : c ≠ '\x60' := by
    rintro rfl
    nomatch h
  unfold readToken
  rw [if_neg (by simpa using hquote), if_neg (by simpa using htick), if_neg (by simp [isIdentStart_digit h]), if_pos h]

/-- Two characters that make a symbol together are one token. -/
theorem readToken_paired {c d : Char} (h : (c, d) ∈ pairedSymbols) (pos : Position) (rest : List Char) :
    readToken pos c (d :: rest) = .ok (plainPiece .symbol pos [c, d] rest) := by
  obtain ⟨hquote, htick, hdigit, hident, -⟩ := symbol_start (.inr ⟨d, h⟩)
  unfold readToken
  rw [if_neg (by simpa using hquote), if_neg (by simpa using htick), if_neg (by simp [hdigit]), if_neg (by simp [hident])]
  dsimp only
  rw [if_pos h]

/-- A symbol of one character is read alone, unless the next character belongs to it. -/
theorem readToken_single {c : Char} {rest : List Char} (h : c ∈ singleSymbols)
    (hrest : ∀ d, rest.head? = some d → (c, d) ∉ pairedSymbols) (pos : Position) :
    readToken pos c rest = .ok (plainPiece .symbol pos [c] rest) := by
  obtain ⟨hquote, htick, hdigit, hident, -⟩ := symbol_start (.inl h)
  unfold readToken
  rw [if_neg (by simpa using hquote), if_neg (by simpa using htick), if_neg (by simp [hdigit]), if_neg (by simp [hident])]
  cases rest with
  | nil => rw [if_pos h]
  | cons d rest =>
    dsimp only
    rw [if_neg (hrest d rfl), if_pos h]

/-- A numeral is read to its end if what stands behind it does not go on with it. -/
theorem readNumber_exact {text rest : List Char} (h : IsNumeral text)
    (hrest : ∀ d, rest.head? = some d → extendsNumber d = false) (pos : Position) :
    readNumber pos (text ++ rest) = .ok (plainPiece .number pos text rest) := by
  obtain ⟨n, hn⟩ := Option.isSome_iff_exists.mp h.value
  unfold readNumber
  rw [splitNumber_exact h hrest]
  dsimp only
  rw [if_neg, hn]
  cases rest with
  | nil => simp
  | cons d rest => simp [hrest d rfl]

/-- A string that can be decoded is read to the quote that ends it. -/
theorem readString_exact {text : List Char} (h : isStringBody text) {value : String}
    (hvalue : Json.unquote (String.ofList ('"' :: text ++ ['"'])) = .ok value) (pos : Position) (rest : List Char) :
    readString pos (text ++ '"' :: rest) = .ok (pieceOf .string pos text rest) := by
  unfold readString
  rw [splitString_exact h]
  simp only [List.reverse_nil, List.nil_append, bind, Except.bind, hvalue]
  rfl

/-- A raw string is read to the next backtick. -/
theorem readRawString_exact {text : List Char} (h : '\x60' ∉ text) (pos : Position) (rest : List Char) :
    readRawString pos (text ++ '\x60' :: rest) = .ok (pieceOf .rawString pos text rest) := by
  have hin : ∀ c ∈ text, (c != '\x60') = true := by
    intro c hc
    rw [bne_iff_ne]
    rintro rfl
    exact h hc
  have hstop : ∀ d, ('\x60' :: rest).head? = some d → (d != '\x60') = false := by
    intro d hd
    obtain rfl := Option.some.inj hd
    rfl
  unfold readRawString
  rw [takeWhile_exact hin hstop, dropWhile_exact hin hstop]
  rfl

/-- A written form is read back, if it stops in front of what follows. -/
theorem readToken_lexeme {kind : TokenKind} {text rest : List Char} (h : IsLexeme kind text) (hstops : Stops kind text rest.head?) :
    ∃ c more, lexemeChars kind text = c :: more ∧ opensWord c ∧
      ∀ pos, readToken pos c (more ++ rest) = .ok (pieceOf kind pos text rest) := by
  cases kind with
  | symbol =>
    rcases h with ⟨c, d, rfl, hpair⟩ | ⟨c, rfl, hsingle⟩
    · exact ⟨c, [d], rfl, (symbol_start (.inr ⟨d, hpair⟩)).2.2.2.2, fun pos => readToken_paired hpair pos rest⟩
    · exact ⟨c, [], rfl, (symbol_start (.inl hsingle)).2.2.2.2, readToken_single hsingle fun d => hstops c d rfl⟩
  | ident =>
    obtain ⟨c, more, rfl, hc, hmore⟩ := h
    refine ⟨c, more, rfl, by simp [opensWord, hc], fun pos => ?_⟩
    rw [readToken_ident hc, takeWhile_exact hmore hstops, dropWhile_exact hmore hstops]
    rfl
  | number =>
    obtain ⟨whole, fraction, exponent, htext, hw, -, -⟩ := h.parts
    obtain ⟨c, more, rfl, hdigits⟩ := hw.cons
    have hc : c.isDigit := hdigits c List.mem_cons_self
    refine ⟨c, more ++ fraction ++ exponent, ?_, by simp [opensWord, hc], fun pos => ?_⟩
    · rw [lexemeChars, htext]
      rfl
    · rw [readToken_digit hc, ← List.cons_append, ← List.cons_append, ← List.cons_append, ← htext, readNumber_exact h hstops]
      rfl
  | rawString =>
    refine ⟨'\x60', text ++ ['\x60'], rfl, rfl, fun pos => ?_⟩
    rw [List.append_assoc]
    exact readRawString_exact h pos rest
  | string =>
    obtain ⟨hbody, value, hvalue⟩ := h
    refine ⟨'"', text ++ ['"'], rfl, rfl, fun pos => ?_⟩
    rw [List.append_assoc]
    exact readString_exact hbody hvalue pos rest

/-- A piece that was read from a text at a position. -/
structure ReadAt (pos : Position) (text : List Char) (piece : Piece) : Prop where
  lexeme : IsLexeme piece.kind piece.text
  text_eq : text = lexemeChars piece.kind piece.text ++ piece.rest
  stops : Stops piece.kind piece.text piece.rest.head?
  eq_pieceOf : piece = pieceOf piece.kind pos piece.text piece.rest

/-- What is read as a number is a numeral that stands at the front of the text. -/
theorem readNumber_ok {pos : Position} {c : Char} {rest : List Char} {piece : Piece} (hc : c.isDigit)
    (h : readNumber pos (c :: rest) = .ok piece) : ReadAt pos (c :: rest) piece := by
  obtain ⟨literal, after, hsplit, htext, hnumeral⟩ := splitNumber_ok rest hc
  unfold readNumber at h
  rw [hsplit] at h
  dsimp only at h
  split at h
  · nomatch h
  · rename_i hstops
    split at h
    · rename_i n hn
      obtain rfl := Except.ok.inj h
      refine ⟨hnumeral (by rw [hn]; rfl), htext, fun d hd => ?_, rfl⟩
      have hd : after.head? = some d := hd
      rw [hd] at hstops
      simpa using hstops
    · nomatch h

/-- What is read as a string stands at the front of the text, between quotes. -/
theorem readString_ok {pos : Position} {text : List Char} {piece : Piece} (h : readString pos text = .ok piece) :
    ReadAt pos ('"' :: text) piece := by
  unfold readString at h
  rcases hsplit : splitString pos [] text with e | ⟨body, rest⟩
  · simp only [hsplit, bind, Except.bind] at h
    nomatch h
  · simp only [hsplit, bind, Except.bind] at h
    obtain ⟨inside, hbody, rfl, hinside⟩ := splitString_ok hsplit
    obtain rfl : body = inside := hbody
    split at h
    · rename_i value hvalue
      obtain rfl := Except.ok.inj h
      refine ⟨⟨hinside, value, hvalue⟩, ?_, trivial, rfl⟩
      simp [lexemeChars, Token.delimiter?]
    · nomatch h

/-- What is read as a raw string stands at the front of the text, between backticks. -/
theorem readRawString_ok {pos : Position} {text : List Char} {piece : Piece} (h : readRawString pos text = .ok piece) :
    ReadAt pos ('\x60' :: text) piece := by
  unfold readRawString at h
  dsimp only at h
  split at h
  · nomatch h
  · rename_i quote rest hdrop
    have hquote : quote = '\x60' := by
      have hhead : (text.dropWhile (· != '\x60')).head? = some quote := by rw [hdrop]; rfl
      simpa using head_dropWhile quote hhead
    obtain rfl := Except.ok.inj h
    subst hquote
    refine ⟨fun hmem => ?_, ?_, trivial, rfl⟩
    · have := List.mem_takeWhile_imp hmem
      nomatch this
    · have htext := List.takeWhile_append_dropWhile (p := (· != '\x60')) (l := text)
      rw [hdrop] at htext
      simp [lexemeChars, Token.delimiter?, htext]

/-- Everything that is read is a written form, and stops in front of what follows. -/
theorem readToken_ok {pos : Position} {c : Char} {rest : List Char} {piece : Piece} (h : readToken pos c rest = .ok piece) :
    ReadAt pos (c :: rest) piece := by
  unfold readToken at h
  split at h
  · rename_i hc
    obtain rfl := beq_iff_eq.mp hc
    exact readString_ok h
  · split at h
    · rename_i hc
      obtain rfl := beq_iff_eq.mp hc
      exact readRawString_ok h
    · split at h
      · rename_i hc
        exact readNumber_ok hc h
      · split at h
        · rename_i hc
          obtain rfl := Except.ok.inj h
          refine ⟨⟨c, _, rfl, hc, fun d hd => List.mem_takeWhile_imp hd⟩, ?_, fun d hd => head_dropWhile d hd, rfl⟩
          exact congrArg (c :: ·) List.takeWhile_append_dropWhile.symm
        · split at h
          · rename_i d after
            split at h
            · rename_i hpair
              obtain rfl := Except.ok.inj h
              refine ⟨.inl ⟨c, d, rfl, hpair⟩, rfl, fun c' d' heq => ?_, rfl⟩
              nomatch (List.cons.inj heq).2
            · rename_i hpair
              split at h
              · rename_i hsingle
                obtain rfl := Except.ok.inj h
                refine ⟨.inr ⟨c, rfl, hsingle⟩, rfl, fun c' d' heq hd => ?_, rfl⟩
                obtain rfl := (List.cons.inj heq).1
                obtain rfl := Option.some.inj hd
                exact hpair
              · nomatch h
          · split at h
            · rename_i hsingle
              obtain rfl := Except.ok.inj h
              exact ⟨.inr ⟨c, rfl, hsingle⟩, rfl, nofun, rfl⟩
            · nomatch h

/-! ## The ends of written forms -/

/-- A letter, a digit or an underscore is not blank. -/
theorem isAlphanum_not_blank {c : Char} (h : c.isAlphanum ∨ c = '_') : Text.isBlank c = false := by
  rcases h with h | rfl
  · simp only [Char.isAlphanum, Char.isAlpha, Char.isUpper, Char.isLower, Char.isDigit, Bool.or_eq_true, Bool.and_eq_true,
      decide_eq_true_eq, ge_iff_le, UInt32.le_iff_toNat_le] at h
    change ((65 ≤ c.toNat ∧ c.toNat ≤ 90) ∨ (97 ≤ c.toNat ∧ c.toNat ≤ 122)) ∨ (48 ≤ c.toNat ∧ c.toNat ≤ 57) at h
    simp only [Text.isBlank, Text.blankRanges, List.any_cons, List.any_nil, Bool.or_eq_false_iff, Bool.and_eq_false_iff,
      decide_eq_false_iff_not, Bool.or_false]
    omega
  · decide

/-- A digit is not blank. -/
theorem isDigit_not_blank {c : Char} (h : c.isDigit) : Text.isBlank c = false :=
  isAlphanum_not_blank (.inl (by simp [Char.isAlphanum, h]))

/-- No character of a name is blank. -/
theorem isIdentPart_not_blank {c : Char} (h : isIdentPart c) : Text.isBlank c = false :=
  isAlphanum_not_blank (by simpa [isIdentPart] using h)

/-- A numeral consists of digits and marks. -/
theorem IsNumeral.mem {text : List Char} (h : IsNumeral text) : ∀ c ∈ text, c.isDigit ∨ c ∈ ['.', 'e', 'E', '+', '-'] := by
  obtain ⟨whole, fraction, exponent, rfl, hw, hf, he⟩ := h.parts
  obtain ⟨-, -, -, hdigits⟩ := hw.cons
  intro c hc
  rcases List.mem_append.mp hc with hc | hc
  · rcases List.mem_append.mp hc with hc | hc
    · exact .inl (hdigits c hc)
    · cases hf with
      | none => nomatch hc
      | digits _ hds =>
        rcases List.mem_cons.mp hc with rfl | hc
        · exact .inr (by decide)
        · exact .inl (hds c hc)
  · cases he with
    | none => nomatch hc
    | digits hm hs _ hds =>
      rcases List.mem_append.mp hc with hc | hc
      · refine .inr ?_
        rcases List.mem_cons.mp hc with rfl | hc
        · rcases hm with rfl | rfl <;> decide
        · rcases hs with rfl | rfl | rfl
          · nomatch hc
          · obtain rfl := List.mem_singleton.mp hc
            decide
          · obtain rfl := List.mem_singleton.mp hc
            decide
      · exact .inl (hds c hc)

/-- No character of a numeral is blank. -/
theorem IsNumeral.not_blank {text : List Char} (h : IsNumeral text) : ∀ c ∈ text, Text.isBlank c = false := by
  intro c hc
  rcases h.mem c hc with hdigit | hmark
  · exact isDigit_not_blank hdigit
  · have hmarks : ∀ mark ∈ ['.', 'e', 'E', '+', '-'], Text.isBlank mark = false := forall_mem_of_all (by decide)
    exact hmarks c hmark

/-- No character of a symbol is blank. -/
theorem symbol_not_blank {c : Char} (h : c ∈ singleSymbols ∨ c = '&' ∨ c = '|') : Text.isBlank c = false := by
  rcases h with h | rfl | rfl
  · revert c
    apply forall_mem_of_all
    decide
  · decide
  · decide

/-- No blank begins a written form. -/
theorem opensWord_not_blank {c : Char} (h : opensWord c) : Text.isBlank c = false := by
  unfold opensWord at h
  simp only [Bool.or_eq_true] at h
  rcases h with ((((h | h) | h) | h) | h) | h
  · obtain rfl := beq_iff_eq.mp h
    decide
  · obtain rfl := beq_iff_eq.mp h
    decide
  · exact isDigit_not_blank h
  · refine isAlphanum_not_blank ?_
    rcases (Bool.or_eq_true _ _).mp h with h | h
    · exact .inl (by simp [Char.isAlphanum, h])
    · exact .inr (beq_iff_eq.mp h)
  · exact symbol_not_blank (.inl (List.contains_iff_mem.mp h))
  · obtain ⟨pair, hpair, hc⟩ := List.any_eq_true.mp h
    obtain rfl := beq_iff_eq.mp hc
    revert pair
    decide

/-- No blank ends a written form. -/
theorem IsLexeme.last {kind : TokenKind} {text : List Char} (h : IsLexeme kind text) :
    ∃ front c, lexemeChars kind text = front ++ [c] ∧ Text.isBlank c = false := by
  have hplain : ∀ c rest, (∀ d ∈ c :: rest, Text.isBlank d = false) →
      ∃ front d, c :: rest = front ++ [d] ∧ Text.isBlank d = false := fun c rest hall =>
    ⟨_, _, (List.dropLast_concat_getLast (List.cons_ne_nil c rest)).symm, hall _ (List.getLast_mem _)⟩
  cases kind with
  | symbol =>
    rcases h with ⟨c, d, rfl, hpair⟩ | ⟨c, rfl, hsingle⟩
    · refine ⟨[c], d, rfl, ?_⟩
      have hd : d ∈ pairedSymbols.map Prod.snd := List.mem_map.mpr ⟨(c, d), hpair, rfl⟩
      clear hpair hplain
      revert d
      apply forall_mem_of_all
      decide
    · exact ⟨[], c, rfl, symbol_not_blank (.inl hsingle)⟩
  | ident =>
    obtain ⟨c, rest, rfl, hc, hrest⟩ := h
    refine hplain c rest (List.forall_mem_cons.mpr ⟨opensWord_not_blank (by simp [opensWord, hc]), fun d hd => ?_⟩)
    exact isIdentPart_not_blank (hrest d hd)
  | number =>
    obtain ⟨whole, fraction, exponent, htext, hw, -, -⟩ := h.parts
    obtain ⟨c, more, rfl, -⟩ := hw.cons
    have hall := IsNumeral.not_blank h
    rw [htext] at hall
    rw [lexemeChars, htext]
    exact hplain c (more ++ fraction ++ exponent) hall
  | rawString => exact ⟨'\x60' :: text, '\x60', rfl, by decide⟩
  | string => exact ⟨'"' :: text, '"', rfl, by decide⟩

end HostScript.Lexer
