import Mathlib
import HostScript.Dialect.Indexed
import HostScript.Proofs.Dialect.Written
import HostScript.Proofs.Token.Place

/-!
# Where the tokens and lines of a source stand

Offsets count the bytes of the text that has been read. So the slice between the offsets of a token is its text, the one between its
extents is its written form, and the one from a token to the next is the gap between them (`holds_scan`); the slice of a line is the line
(`lineIndent_scan`).
-/

namespace HostScript

/-! ## Bytes -/

@[simp] theorem byteLength_nil : byteLength [] = 0 := rfl

@[simp] theorem byteLength_cons (c : Char) (text : List Char) : byteLength (c :: text) = c.utf8Size + byteLength text := rfl

/-- The length of two texts in bytes. -/
@[simp] theorem byteLength_append (text more : List Char) : byteLength (text ++ more) = byteLength text + byteLength more := by
  induction text with
  | nil => exact (Nat.zero_add _).symm
  | cons c text ih => rw [List.cons_append, byteLength_cons, byteLength_cons, ih, Nat.add_assoc]

/-- A text that is turned around is as long. -/
theorem byteLength_reverse (text : List Char) : byteLength text.reverse = byteLength text := by
  induction text with
  | nil => rfl
  | cons c text ih =>
    rw [List.reverse_cons, byteLength_append, ih, byteLength_cons, byteLength_cons, byteLength_nil]
    omega

namespace Dialect.Indexed

/-- The bytes of a character in front of a text are dropped with it. -/
theorem dropBytes_cons (c : Char) (n : Nat) (rest : List Char) : dropBytes? (c.utf8Size + n) (c :: rest) = dropBytes? n rest := by
  obtain ⟨m, hm⟩ : ∃ m, c.utf8Size + n = m + 1 := ⟨c.utf8Size + n - 1, by have := c.utf8Size_pos; omega⟩
  rw [hm, dropBytes?, if_pos (by omega), show m + 1 - c.utf8Size = n by omega]

theorem takeBytes_cons (c : Char) (n : Nat) (rest : List Char) :
    takeBytes? (c.utf8Size + n) (c :: rest) = (takeBytes? n rest).map (c :: ·) := by
  obtain ⟨m, hm⟩ : ∃ m, c.utf8Size + n = m + 1 := ⟨c.utf8Size + n - 1, by have := c.utf8Size_pos; omega⟩
  rw [hm, takeBytes?, if_pos (by omega), show m + 1 - c.utf8Size = n by omega]

/-- The bytes of a text in front of another can be dropped. -/
theorem dropBytes_append (front rest : List Char) : dropBytes? (byteLength front) (front ++ rest) = some rest := by
  induction front with
  | nil => cases rest <;> rfl
  | cons c front ih => rw [byteLength_cons, List.cons_append, dropBytes_cons, ih]

/-- The bytes of a text in front of another can be taken. -/
theorem takeBytes_append (part rest : List Char) : takeBytes? (byteLength part) (part ++ rest) = some part := by
  induction part with
  | nil => cases rest <;> rfl
  | cons c part ih => rw [byteLength_cons, List.cons_append, takeBytes_cons, ih, Option.map_some]

/-- A part of a text is the slice between the bytes in front of it and those up to its end. -/
theorem slice_part (front rest : List Char) {text part : List Char} {start stop : Nat} (htext : text = front ++ (part ++ rest))
    (hstart : start = byteLength front) (hstop : stop = byteLength front + byteLength part) :
    slice text start stop = .ok (String.ofList part) := by
  subst htext hstart hstop
  unfold slice
  rw [dropBytes_append, Option.bind_some, Nat.add_sub_cancel_left, takeBytes_append]
  exact if_pos (Nat.le_add_right _ _)

/-- What can be dropped is a front of the text of as many bytes. -/
theorem dropBytes_some {n : Nat} {text rest : List Char} (h : dropBytes? n text = some rest) :
    ∃ front, text = front ++ rest ∧ n = byteLength front := by
  fun_induction dropBytes? n text with
  | case1 text =>
    cases h
    exact ⟨[], rfl, rfl⟩
  | case2 => nomatch h
  | case3 n c text hc ih =>
    obtain ⟨front, rfl, hn⟩ := ih h
    exact ⟨c :: front, rfl, by rw [byteLength_cons]; omega⟩
  | case4 => nomatch h

/-- What can be taken is a front of the text of as many bytes. -/
theorem takeBytes_some {n : Nat} {text part : List Char} (h : takeBytes? n text = some part) :
    ∃ rest, text = part ++ rest ∧ n = byteLength part := by
  fun_induction takeBytes? n text generalizing part with
  | case1 text =>
    cases h
    exact ⟨text, rfl, rfl⟩
  | case2 => nomatch h
  | case3 n c text hc ih =>
    obtain ⟨part, hpart, rfl⟩ := Option.map_eq_some_iff.mp h
    obtain ⟨rest, rfl, hn⟩ := ih hpart
    exact ⟨rest, rfl, by rw [byteLength_cons]; omega⟩
  | case4 => nomatch h

/-- A slice is the part of the text between its ends. -/
theorem slice_ok {text : List Char} {start stop : Nat} {part : String} (h : slice text start stop = .ok part) :
    ∃ front rest, text = front ++ (part.toList ++ rest) ∧ start = byteLength front ∧ stop = byteLength front + byteLength part.toList := by
  unfold slice at h
  split at h
  case h_1 chars hchars =>
    split at h
    case isTrue hle =>
      cases h
      obtain ⟨rest, hdrop, htake⟩ := Option.bind_eq_some_iff.mp hchars
      obtain ⟨front, rfl, rfl⟩ := dropBytes_some hdrop
      obtain ⟨rest, rfl, hlength⟩ := takeBytes_some htake
      rw [String.toList_ofList]
      exact ⟨front, rest, rfl, rfl, by omega⟩
    case isFalse => nomatch h
  case h_2 => nomatch h

end Dialect.Indexed

/-! ## Tokens -/

namespace Lexer

/-- Reading a gap goes on by its bytes. -/
theorem passGap_bytes (comment : Bool) (pos : Position) (gap : List Char) :
    (passGap comment pos gap).offset = pos.offset + byteLength gap := by
  induction gap generalizing comment pos with
  | nil => rfl
  | cons c gap ih =>
    have hmove : (gapMove comment c pos).offset = pos.offset + c.utf8Size := by
      unfold gapMove
      split
      · rename_i hnewline
        rw [beq_iff_eq.mp hnewline]
        rfl
      · rfl
    rw [passGap, ih, hmove, byteLength_cons, Nat.add_assoc]

/-- Reading a raw string goes on by its bytes. -/
theorem passRaw_bytes (text : List Char) (pos : Position) :
    (text.foldl Position.passRaw pos).offset = pos.offset + byteLength text := by
  induction text generalizing pos with
  | nil => rfl
  | cons c text ih =>
    have hmove : (pos.passRaw c).offset = pos.offset + c.utf8Size := by
      unfold Position.passRaw
      split
      · rename_i hnewline
        rw [beq_iff_eq.mp hnewline]
        rfl
      · rfl
    rw [List.foldl_cons, ih, hmove, byteLength_cons, Nat.add_assoc]

/-- The quote of a class of tokens in front of a text. -/
def openingQuote (kind : TokenKind) : List Char := (Token.delimiter? kind).toList

/-- A token is written between its quotes, if it has any. -/
theorem lexemeChars_eq (kind : TokenKind) (text : List Char) :
    lexemeChars kind text = openingQuote kind ++ (text ++ openingQuote kind) := by
  cases kind <;> simp [lexemeChars, openingQuote, Token.delimiter?]

/-- The text of a token stands behind its opening quote, and reading goes on behind its closing one. -/
theorem pieceOf_bytes (kind : TokenKind) (pos : Position) (text : List Char) :
    (pieceOf kind pos text []).span.start = pos.offset + byteLength (openingQuote kind) ∧
      (pieceOf kind pos text []).span.stop = pos.offset + byteLength (openingQuote kind) + byteLength text ∧
      (pieceOf kind pos text []).after.offset = pos.offset + byteLength (lexemeChars kind text) := by
  rw [lexemeChars_eq, byteLength_append, byteLength_append]
  cases kind with
  | rawString =>
    have hraw : (text.foldl Position.passRaw (pos.pass '\x60' 1)).offset = pos.offset + 1 + byteLength text := passRaw_bytes _ _
    refine ⟨rfl, hraw, ?_⟩
    change (text.foldl Position.passRaw (pos.pass '\x60' 1)).offset + 1 = _
    rw [hraw, Nat.add_assoc, Nat.add_assoc]
    rfl
  | string =>
    refine ⟨rfl, rfl, ?_⟩
    change pos.offset + 1 + byteLength text + 1 = _
    rw [Nat.add_assoc, Nat.add_assoc]
    rfl
  | symbol | ident | number =>
    refine ⟨rfl, rfl, ?_⟩
    change pos.offset + byteLength text = pos.offset + (0 + (byteLength text + 0))
    omega

/-- Reading goes on behind a word by the bytes of its written form. -/
theorem Word.after_bytes (w : Word) (pos : Position) : (w.after pos).offset = pos.offset + byteLength w.chars := by
  rw [Word.chars, byteLength_append, ← Nat.add_assoc, ← passGap_bytes false]
  exact (pieceOf_bytes w.kind _ w.text).2.2

/-- Reading goes on behind words by the bytes that they write. -/
theorem passWords_bytes (words : List Word) (pos : Position) :
    (passWords pos words).offset = pos.offset + byteLength (written words) := by
  induction words generalizing pos with
  | nil => rfl
  | cons w words ih =>
    have hrest : (passWords pos (w :: words)).offset = (passWords (w.after pos) words).offset := rfl
    rw [hrest, ih, w.after_bytes, written_cons, byteLength_append, Nat.add_assoc]

/-- The extent of a token reaches from the end of its gap to where reading goes on. -/
theorem Word.token_extent (w : Word) (pos : Position) :
    (w.token pos).extentStart = pos.offset + byteLength w.gap ∧ (w.token pos).extentStop = (w.after pos).offset ∧
      (Dialect.Indexed.Mark.ofToken (w.token pos)).extent = .ok ((w.token pos).extentStart, (w.token pos).extentStop) := by
  obtain ⟨gap, kind, text⟩ := w
  obtain ⟨hstart, hstop, hafter⟩ := pieceOf_bytes kind (passGap false pos gap) text
  rw [passGap_bytes] at hstart hstop hafter
  rw [lexemeChars_eq, byteLength_append, byteLength_append] at hafter
  have hspan : (Word.token ⟨gap, kind, text⟩ pos).span = (pieceOf kind (passGap false pos gap) text []).span := rfl
  have hnext : (Word.after ⟨gap, kind, text⟩ pos).offset = (pieceOf kind (passGap false pos gap) text []).after.offset := rfl
  have hkind : (Word.token ⟨gap, kind, text⟩ pos).kind = kind := rfl
  unfold Token.extentStart Token.extentStop Dialect.Indexed.Mark.extent Dialect.Indexed.Mark.ofToken
  rw [hspan, hnext, hkind, hstart, hstop, hafter]
  cases hquote : Token.delimiter? kind with
  | none =>
    have hopening : byteLength (openingQuote kind) = 0 := by rw [openingQuote, hquote]; rfl
    rw [hopening]
    refine ⟨rfl, ?_, rfl⟩
    simp only [Option.isSome_none, Bool.false_eq_true, if_false]
    omega
  | some quote =>
    have hopening : byteLength (openingQuote kind) = 1 := by
      rw [openingQuote, hquote]
      cases kind <;> cases hquote <;> rfl
    rw [hopening]
    have hminus : Dialect.Indexed.minus (pos.offset + byteLength gap + 1) 1 = .ok (pos.offset + byteLength gap) :=
      if_pos (Nat.le_add_left _ _)
    simp only [Option.isSome_some, if_true, hminus]
    exact ⟨rfl, by omega, rfl⟩

end Lexer

namespace Dialect.Indexed

open Lexer (Word written placed passWords lexemeChars openingQuote)

/-- The tables hold tokens: their marks, their texts, their written forms and the gaps between them. -/
structure Table.Records (t : Table) (tokens : List Token) : Prop where
  marks : t.marks = tokens.map .ofToken
  text : ∀ token ∈ tokens, textOf t (.ofToken token) = .ok token.text
  extent : ∀ token ∈ tokens, (Mark.ofToken token).extent = .ok (token.extentStart, token.extentStop)
  lexeme : ∀ token ∈ tokens, slice t.contents token.extentStart token.extentStop = .ok token.lexeme
  gap : ∀ (index : Nat) (previous token : Token), tokens[index]? = some previous → tokens[index + 1]? = some token →
    slice t.contents previous.extentStop token.extentStart = .ok token.gap

variable {contents rest : List Char}

/-- The slices of one word. -/
theorem slices_word {front : List Char} {w : Word} {pos : Position} (htext : contents = front ++ (w.chars ++ rest))
    (hpos : pos.offset = byteLength front) :
    slice contents (w.token pos).span.start (w.token pos).span.stop = .ok (w.token pos).text ∧
      slice contents (w.token pos).extentStart (w.token pos).extentStop = .ok (w.token pos).lexeme ∧
      slice contents pos.offset (w.token pos).extentStart = .ok (w.token pos).gap := by
  obtain ⟨hstart, hstop, -⟩ := Lexer.pieceOf_bytes w.kind (Lexer.passGap false pos w.gap) w.text
  obtain ⟨hfirst, hlast, -⟩ := w.token_extent pos
  have hbytes := w.after_bytes pos
  rw [Lexer.passGap_bytes] at hstart hstop
  have hspan : (w.token pos).span = (Lexer.pieceOf w.kind (Lexer.passGap false pos w.gap) w.text []).span := rfl
  rw [Word.chars] at htext hbytes
  refine ⟨?_, ?_, ?_⟩
  · rw [Lexer.lexemeChars_eq] at htext
    rw [hspan]
    refine slice_part (front ++ (w.gap ++ openingQuote w.kind)) (openingQuote w.kind ++ rest) ?_ ?_ ?_
    · simpa only [List.append_assoc] using htext
    · rw [hstart, hpos, byteLength_append, byteLength_append, Nat.add_assoc]
    · rw [hstop, hpos, byteLength_append, byteLength_append, ← Nat.add_assoc]
  · have hlexeme : (w.token pos).lexeme = String.ofList (lexemeChars w.kind w.text) := by
      rw [← String.ofList_toList (s := (w.token pos).lexeme), lexeme_toList, Word.token, String.toList_ofList]
    rw [hlexeme]
    refine slice_part (front ++ w.gap) rest ?_ ?_ ?_
    · simpa only [List.append_assoc] using htext
    · rw [hfirst, hpos, byteLength_append]
    · rw [hlast, hbytes, hpos, byteLength_append, byteLength_append, ← Nat.add_assoc]
  · refine slice_part front (lexemeChars w.kind w.text ++ rest) ?_ hpos ?_
    · simpa only [List.append_assoc] using htext
    · rw [hfirst, hpos]

/-- The slices of the words of a text. -/
theorem slices_words (front : List Char) (words : List Word) (pos : Position) (htext : contents = front ++ (written words ++ rest))
    (hpos : pos.offset = byteLength front) :
    (∀ token ∈ placed pos words, slice contents token.span.start token.span.stop = .ok token.text ∧
      (Mark.ofToken token).extent = .ok (token.extentStart, token.extentStop) ∧
      slice contents token.extentStart token.extentStop = .ok token.lexeme) ∧
    ∀ (index : Nat) (previous token : Token), (placed pos words)[index]? = some previous → (placed pos words)[index + 1]? = some token →
      slice contents previous.extentStop token.extentStart = .ok token.gap := by
  induction words generalizing pos front with
  | nil => exact ⟨List.forall_mem_nil _, nofun⟩
  | cons w words ih =>
    have hfirst : contents = front ++ (w.chars ++ (written words ++ rest)) := by rw [htext, Lexer.written_cons, List.append_assoc]
    have hbehind : contents = (front ++ w.chars) ++ (written words ++ rest) := by rw [hfirst, List.append_assoc]
    have hafter : (w.after pos).offset = byteLength (front ++ w.chars) := by rw [w.after_bytes, hpos, byteLength_append]
    obtain ⟨htokens, hgaps⟩ := ih (front ++ w.chars) (w.after pos) hbehind hafter
    obtain ⟨hspan, hlexeme, -⟩ := slices_word hfirst hpos
    obtain ⟨-, hlast, hextent⟩ := w.token_extent pos
    refine ⟨List.forall_mem_cons.mpr ⟨⟨hspan, hextent, hlexeme⟩, htokens⟩, ?_⟩
    intro index previous token hprevious htoken
    cases index with
    | succ index => exact hgaps index previous token hprevious htoken
    | zero =>
      cases words with
      | nil => contradiction
      | cons w' words =>
        obtain rfl := Option.some.inj hprevious
        obtain rfl := Option.some.inj htoken
        rw [Lexer.written_cons, List.append_assoc (w'.chars)] at hbehind
        rw [hlast]
        exact (slices_word hbehind hafter).2.2

/-- The tables of a source hold the tokens of the source. -/
theorem records_scan (source : Source) : (Table.ofSource source).Records source.scan.tokens := by
  obtain ⟨words, left, htext, -, htokens, -⟩ := Lexer.scanFrom_ok .origin source.text.toList
  have htokens : source.scan.tokens = placed .origin words := htokens
  obtain ⟨hslices, hgaps⟩ := slices_words [] words .origin htext rfl
  exact {
    marks := rfl
    text := fun token h => (hslices token (htokens ▸ h)).1
    extent := fun token h => (hslices token (htokens ▸ h)).2.1
    lexeme := fun token h => (hslices token (htokens ▸ h)).2.2
    gap := fun index previous token hprevious htoken => hgaps index previous token (htokens ▸ hprevious) (htokens ▸ htoken) }

end Dialect.Indexed

/-! ## Lines -/

namespace Dialect.Indexed

/-- The slices of the lines of a text, from a line on whose beginning has been read. -/
theorem slices_lines {contents : List Char} (front begun rest : List Char) (htext : contents = front ++ (begun.reverse ++ rest)) :
    ∀ line ∈ linesFrom (byteLength front) (byteLength front + byteLength begun) begun rest,
      slice contents line.start line.stop = .ok (String.ofList line.text) := by
  have hline : ∀ {front begun rest : List Char}, contents = front ++ (begun.reverse ++ rest) →
      slice contents (Line.ofReversed (byteLength front) begun).start (Line.ofReversed (byteLength front) begun).stop =
        .ok (String.ofList (Line.ofReversed (byteLength front) begun).text) := by
    intro front begun rest htext
    unfold Line.ofReversed
    split
    · rename_i before
      rw [List.reverse_cons, List.append_assoc] at htext
      exact slice_part _ _ htext rfl rfl
    · exact slice_part _ _ htext rfl rfl
  induction rest generalizing front begun with
  | nil => exact List.forall_mem_singleton.mpr (hline htext)
  | cons c rest ih =>
    rw [linesFrom]
    split
    · rename_i hnewline
      refine List.forall_mem_cons.mpr ⟨hline htext, ?_⟩
      have hfront : byteLength (front ++ (begun.reverse ++ [c])) = byteLength front + byteLength begun + c.utf8Size := by
        simp only [byteLength_append, byteLength_reverse, byteLength_cons, byteLength_nil]
        omega
      have hnext := ih (front ++ (begun.reverse ++ [c])) [] (by rw [htext]; simp)
      rw [hfront] at hnext
      exact hnext
    · have hnext := ih front (c :: begun) (by rw [htext]; simp)
      rw [byteLength_cons, Nat.add_comm c.utf8Size, ← Nat.add_assoc] at hnext
      exact hnext

/-- The indentation of a line is read off its slice. -/
theorem lineIndent_scan (source : Source) (number : Nat) :
    lineIndent (Table.ofSource source) number = .ok (source.lineIndent number) := by
  have hslices := slices_lines [] [] source.text.toList rfl
  have hentry : (Table.ofSource source).lines[number - 1]? = (source.lines[number - 1]?).map fun line => (line.start, line.stop) :=
    List.getElem?_map
  unfold lineIndent Source.lineIndent
  rw [hentry]
  cases hline : source.lines[number - 1]? with
  | none => rfl
  | some line =>
    have hslice : slice (Table.ofSource source).contents line.start line.stop = .ok (String.ofList line.text) :=
      hslices line (List.mem_of_getElem? hline)
    simp only [Option.map_some, hslice, bind, Except.bind, String.toList_ofList]
    rfl

end Dialect.Indexed

end HostScript
