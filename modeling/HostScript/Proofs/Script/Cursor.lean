import Mathlib
import HostScript.Proofs.Script.Ending
import HostScript.Proofs.Script.Yield

/-!
# Going on over tokens

A reader of the grammar looks at the first of the tokens that are left and goes on over some of them (`Takes`). This is said once for each
of the small readers from which the others are made: what they look at, which token they pass, and what they give for it. The tokens are
those of a text (`Lexed`), so a token that is spelled like a symbol or a word is that symbol or word.
-/

namespace HostScript.Script

open Lexer (IsLexeme isIdentStart singleSymbols pairedSymbols)

/-! ## Tokens of a text -/

/-- All tokens of a row are tokens of a text. -/
def Lexed (row : List Token) : Prop := ∀ t ∈ row, IsLexeme t.kind t.text.toList

/-- What is left of a row of tokens of a text. -/
theorem Lexed.suffix {row rest : List Token} (h : Lexed row) (hrest : rest <:+ row) : Lexed rest := fun t ht => h t (hrest.subset ht)

/-- The first token of a row is one of a text. -/
theorem Lexed.head {token : Token} {rest : List Token} (h : Lexed (token :: rest)) : IsLexeme token.kind token.text.toList :=
  h token List.mem_cons_self

/-- The tokens behind the first one are those of a text. -/
theorem Lexed.tail {token : Token} {rest : List Token} (h : Lexed (token :: rest)) : Lexed rest := h.suffix (List.suffix_cons _ _)

/-- The tokens of a source are tokens of a text. -/
theorem scan_lexed (source : Source) : Lexed source.scan.tokens := by
  obtain ⟨words, left, -, hfits, htokens, -⟩ := Lexer.scanFrom_ok .origin source.text.toList
  have htokens : source.scan.tokens = Lexer.placed .origin words := htokens
  rw [htokens]
  exact Lexer.isLexeme_placed hfits .origin

/-! ## The classes of tokens -/

/-- A text begins as symbols do. -/
def beginsAsSymbol (text : String) : Bool := text.toList.head?.any fun c => !isIdentStart c && !c.isDigit

/-- A text begins as words do. -/
def beginsAsWord (text : String) : Bool := text.toList.head?.any isIdentStart

/-- Whether a text begins as symbols do is told by its first character. -/
theorem beginsAsSymbol_cons {text : String} {c : Char} {rest : List Char} (h : text.toList = c :: rest) :
    beginsAsSymbol text = (!isIdentStart c && !c.isDigit) := by
  rw [beginsAsSymbol, h]
  rfl

/-- Whether a text begins as words do is told by its first character. -/
theorem beginsAsWord_cons {text : String} {c : Char} {rest : List Char} (h : text.toList = c :: rest) :
    beginsAsWord text = isIdentStart c := by
  rw [beginsAsWord, h]
  rfl

/-- A text that begins as symbols do is not empty. -/
theorem beginsAsSymbol_ne {text : String} (h : beginsAsSymbol text) : text ≠ "" := by
  rintro rfl
  nomatch h

/-- A text that begins as words do is not empty. -/
theorem beginsAsWord_ne {text : String} (h : beginsAsWord text) : text ≠ "" := by
  rintro rfl
  nomatch h

/-- The first character of a number is a digit. -/
theorem isNumeral_head {text : List Char} (h : Lexer.IsNumeral text) : ∃ c rest, text = c :: rest ∧ c.isDigit := by
  obtain ⟨⟨whole, fraction, exponent, rfl, hwhole, -⟩, -⟩ := h
  obtain ⟨c, rest, rfl, hdigits⟩ := hwhole.cons
  exact ⟨c, _, rfl, hdigits c List.mem_cons_self⟩

section

variable {token : Token} {text : String}

/-- A token of a text that is spelled like a symbol is that symbol: strings are spelled as nothing, and words and numbers begin
otherwise. -/
theorem isSymbol_of_spelling (h : IsLexeme token.kind token.text.toList) (hspelled : token.spelling = text)
    (htext : beginsAsSymbol text) : token.isSymbol text := by
  obtain ⟨kind, span, written, gap⟩ := token
  unfold Token.spelling at hspelled
  cases kind with
  | symbol =>
    obtain rfl : written = text := hspelled
    exact Bool.and_eq_true_iff.mpr ⟨rfl, beq_self_eq_true _⟩
  | string => exact absurd hspelled.symm (beginsAsSymbol_ne htext)
  | rawString => exact absurd hspelled.symm (beginsAsSymbol_ne htext)
  | ident =>
    obtain rfl : written = text := hspelled
    obtain ⟨c, rest, hwritten, hc, -⟩ : ∃ c rest, written.toList = c :: rest ∧ isIdentStart c ∧ _ := h
    rw [beginsAsSymbol_cons hwritten, hc] at htext
    contradiction
  | number =>
    obtain rfl : written = text := hspelled
    obtain ⟨c, rest, hwritten, hc⟩ := isNumeral_head h
    have hwritten : written.toList = c :: rest := hwritten
    rw [beginsAsSymbol_cons hwritten, hc, Bool.not_true, Bool.and_false] at htext
    contradiction

/-- A token of a text that is spelled like a word is that word. -/
theorem isIdent_of_spelling (h : IsLexeme token.kind token.text.toList) (hspelled : token.spelling = text)
    (htext : beginsAsWord text) : token.isIdent text := by
  have hsymbols : ∀ c ∈ singleSymbols, isIdentStart c = false := Lexer.forall_mem_of_all (by decide)
  have hpairs : ∀ pair ∈ pairedSymbols, isIdentStart pair.1 = false := Lexer.forall_mem_of_all (by decide)
  obtain ⟨kind, span, written, gap⟩ := token
  unfold Token.spelling at hspelled
  cases kind with
  | ident =>
    obtain rfl : written = text := hspelled
    exact Bool.and_eq_true_iff.mpr ⟨rfl, beq_self_eq_true _⟩
  | string => exact absurd hspelled.symm (beginsAsWord_ne htext)
  | rawString => exact absurd hspelled.symm (beginsAsWord_ne htext)
  | symbol =>
    obtain rfl : written = text := hspelled
    rcases h with ⟨c, d, hwritten, hpair⟩ | ⟨c, hwritten, hsingle⟩
    · have hwritten : written.toList = [c, d] := hwritten
      rw [beginsAsWord_cons hwritten] at htext
      exact absurd ((hpairs _ hpair).symm.trans htext) Bool.false_ne_true
    · have hwritten : written.toList = [c] := hwritten
      rw [beginsAsWord_cons hwritten] at htext
      exact absurd ((hsymbols _ hsingle).symm.trans htext) Bool.false_ne_true
  | number =>
    obtain rfl : written = text := hspelled
    obtain ⟨c, rest, hwritten, hc⟩ := isNumeral_head h
    have hwritten : written.toList = c :: rest := hwritten
    rw [beginsAsWord_cons hwritten] at htext
    rw [Lexer.isIdentStart_digit htext] at hc
    exact absurd hc Bool.false_ne_true

end

/-! ## Operators -/

/-- The operators of a level are those of that precedence. -/
theorem operator?_eq_some {k : Nat} {symbol : String} {op : BinaryOp} (h : Parser.operator? k symbol = some op) :
    k = op.level ∧ symbol = op.symbol := by
  unfold Parser.operator? at h
  split at h <;> first | exact Option.some.inj h ▸ ⟨rfl, rfl⟩ | nomatch h

/-- The symbol of a unary operator is that operator. -/
theorem unaryOp?_symbol {token : Token} {op : UnaryOp} (h : token.isSymbol op.symbol) : unaryOp? token = some op := by
  simp only [Token.isSymbol, Bool.and_eq_true, beq_iff_eq] at h
  cases op <;> simp [unaryOp?, Token.isSymbol, h, UnaryOp.symbol]

/-- A binary operator begins as symbols do. -/
theorem beginsAsSymbol_operator (op : BinaryOp) : beginsAsSymbol op.symbol := by
  rcases op with op | op | op <;> cases op <;> decide

/-! ## Spans of rows -/

/-- What follows a row does not change its first span. -/
theorem firstSpan_append {row : List Token} (h : row ≠ []) (rest : List Token) : firstSpan (row ++ rest) = firstSpan row := by
  obtain ⟨token, row, rfl⟩ := List.exists_cons_of_ne_nil h
  rfl

/-- What stands in front of a row does not change its last span. -/
theorem lastSpan_append (front : List Token) {row : List Token} (h : row ≠ []) : lastSpan (front ++ row) = lastSpan row := by
  rw [lastSpan, List.getLast?_append_of_ne_nil front h]
  rfl

namespace Parser

variable {α β : Type} {cursor between next : Cursor} {row more : List Token}

/-! ## Looking at the cursor -/

/-- What follows a result that is there already. -/
theorem pure_bind_run (a : α) (f : α → Parser β) (cursor : Cursor) : ((pure a : Parser α) >>= f) cursor = f a cursor := rfl

/-- A choice between readers is a choice between what they do. -/
theorem ite_run (c : Prop) [Decidable c] (p q : Parser α) (cursor : Cursor) :
    (if c then p else q) cursor = if c then p cursor else q cursor := by
  split <;> rfl

/-- What follows the span of the current token. -/
theorem span_bind (f : Span → Parser β) (cursor : Cursor) : (span >>= f) cursor = f (currentSpan cursor) cursor := rfl

/-- What follows a look at the current token. -/
theorem token?_bind (f : Option Token → Parser β) (cursor : Cursor) : (token? >>= f) cursor = f cursor.rest.head? cursor := rfl

/-- What follows a span up to the token read last. -/
theorem cover_bind (reported : Span) (start : Nat) (f : Span → Parser β) (cursor : Cursor) :
    (cover reported start >>= f) cursor = f { reported with start := start, stop := cursor.stop } cursor := rfl

/-- What follows the fuel for the tokens that are left. -/
theorem fuel_bind (f : Nat → Parser β) (cursor : Cursor) : (fuel >>= f) cursor = f (16 * (cursor.rest.length + 1)) cursor := rfl

/-- What follows the question whether the text is at its end. -/
theorem atEnd_bind (f : Bool → Parser β) (cursor : Cursor) : (atEnd >>= f) cursor = f cursor.rest.isEmpty cursor := by
  have h : cursor.rest.head?.isNone = cursor.rest.isEmpty := by cases cursor.rest <;> rfl
  rw [← h]
  rfl

/-- What follows the question for a symbol. -/
theorem atSymbol_bind (symbol : String) (f : Bool → Parser β) (cursor : Cursor) :
    (atSymbol symbol >>= f) cursor = f (Script.atSymbol symbol cursor.rest) cursor := rfl

/-- What follows the question for a word. -/
theorem atWord_bind (word : String) (f : Bool → Parser β) (cursor : Cursor) :
    (atWord word >>= f) cursor = f (Script.atWord word cursor.rest) cursor := rfl

/-- What follows the spelling of the current token. -/
theorem text_bind (f : String → Parser β) (cursor : Cursor) : (text >>= f) cursor = f (spelling cursor.rest) cursor := by
  obtain ⟨rest, ending, stop⟩ := cursor
  cases rest with
  | nil => rfl
  | cons token rest =>
    have h : text ⟨token :: rest, ending, stop⟩ = .ok (token.spelling, ⟨token :: rest, ending, stop⟩) := by
      unfold text Token.spelling
      rw [token?_bind]
      dsimp only [List.head?_cons]
      split <;> rfl
    rw [show (text >>= f) ⟨token :: rest, ending, stop⟩ = (text ⟨token :: rest, ending, stop⟩ >>= fun read => f read.1 read.2) from rfl, h]
    rfl

section

variable {cursor : Cursor} {found other : Parser α} {result : Except ParseFault (α × Cursor)}

/-- A reader that looks for a word goes on in one of two ways. -/
theorem atWord_cases {word : String} (h : (do if ← atWord word then found else other : Parser α) cursor = result) :
    Script.atWord word cursor.rest ∧ found cursor = result ∨ ¬Script.atWord word cursor.rest ∧ other cursor = result := by
  rw [atWord_bind, ite_run] at h
  by_cases hat : Script.atWord word cursor.rest
  · exact .inl ⟨hat, by rwa [if_pos hat] at h⟩
  · exact .inr ⟨hat, by rwa [if_neg hat] at h⟩

/-- A reader that looks for a symbol goes on in one of two ways. -/
theorem atSymbol_cases {symbol : String} (h : (do if ← atSymbol symbol then found else other : Parser α) cursor = result) :
    Script.atSymbol symbol cursor.rest ∧ found cursor = result ∨ ¬Script.atSymbol symbol cursor.rest ∧ other cursor = result := by
  rw [atSymbol_bind, ite_run] at h
  by_cases hat : Script.atSymbol symbol cursor.rest
  · exact .inl ⟨hat, by rwa [if_pos hat] at h⟩
  · exact .inr ⟨hat, by rwa [if_neg hat] at h⟩

end

/-! ## The first token of a row -/

/-- A row that begins with a symbol. -/
theorem cons_of_atSymbol {symbol : String} {row : List Token} (h : Script.atSymbol symbol row) :
    ∃ token rest, row = token :: rest ∧ token.isSymbol symbol := by
  cases row with
  | nil => cases h
  | cons token rest => exact ⟨token, rest, rfl, h⟩

/-- A row that begins with a word. -/
theorem cons_of_atWord {word : String} {row : List Token} (h : Script.atWord word row) :
    ∃ token rest, row = token :: rest ∧ token.isIdent word := by
  cases row with
  | nil => cases h
  | cons token rest => exact ⟨token, rest, rfl, h⟩

/-- A row whose first token is spelled in the given way. -/
theorem cons_of_spelling {text : String} {row : List Token} (htext : text ≠ "") (h : spelling row = text) :
    ∃ token rest, row = token :: rest ∧ token.spelling = text := by
  cases row with
  | nil => exact absurd h.symm htext
  | cons token rest => exact ⟨token, rest, rfl, h⟩

/-! ## Going on over tokens -/

/-- Reading goes on over a row of tokens. -/
structure Takes (cursor : Cursor) (row : List Token) (next : Cursor) : Prop where
  rest : cursor.rest = row ++ next.rest
  stop : next.stop = (row.getLast?.map fun token => token.span.stop).getD cursor.stop

namespace Takes

/-- Nothing is gone over. -/
theorem refl (cursor : Cursor) : Takes cursor [] cursor := ⟨rfl, rfl⟩

/-- One row is gone over behind the other. -/
theorem trans (h : Takes cursor row between) (h' : Takes between more next) : Takes cursor (row ++ more) next where
  rest := by rw [h.rest, h'.rest, List.append_assoc]
  stop := by
    rw [h'.stop, h.stop, List.getLast?_append]
    cases more.getLast? <;> rfl

/-- What is left behind a row are tokens of a text. -/
theorem lexed (h : Takes cursor row next) (hlexed : Lexed cursor.rest) : Lexed next.rest :=
  hlexed.suffix ⟨row, h.rest.symm⟩

/-- What is gone over are tokens of a text. -/
theorem lexed_row (h : Takes cursor row next) (hlexed : Lexed cursor.rest) : Lexed row := fun t ht =>
  hlexed t (h.rest ▸ List.mem_append_left _ ht)

/-- The current token is the first one of the row. -/
theorem currentSpan (h : Takes cursor row next) (hrow : row ≠ []) : Parser.currentSpan cursor = firstSpan row := by
  obtain ⟨token, row, rfl⟩ := List.exists_cons_of_ne_nil hrow
  have hrest := h.rest
  unfold Parser.currentSpan
  rw [hrest]
  rfl

/-- The token read last is the last one of the row. -/
theorem lastStop (h : Takes cursor row next) (hrow : row ≠ []) : next.stop = (lastSpan row).stop := by
  rw [h.stop, lastSpan, List.getLast?_eq_some_getLast hrow]
  rfl

/-- The span of all that is read. -/
theorem whole (h : Takes cursor row next) (hrow : row ≠ []) :
    ({ Parser.currentSpan cursor with start := (Parser.currentSpan cursor).start, stop := next.stop } : Span) = wholeSpan row := by
  rw [h.currentSpan hrow, h.lastStop hrow]
  rfl

/-- The span of all that is read together with a row in front of it. -/
theorem behind {front : List Token} (h : Takes cursor row next) (hrow : row ≠ []) (hfront : front ≠ []) :
    ({ Parser.currentSpan cursor with start := (firstSpan front).start, stop := next.stop } : Span) =
      spanAt (firstSpan row) (front ++ row) := by
  rw [h.currentSpan hrow, h.lastStop hrow, spanAt, firstSpan_append hfront, lastSpan_append front hrow]

end Takes

/-! ## The small readers -/

/-- What fails accepts nothing. -/
theorem fail_ne_ok {problem : ParseProblem} {a : α} (h : fail problem cursor = .ok (a, next)) : False := by cases h

/-- Going on to the next token passes the current one. -/
theorem advance_takes {token : Token} {rest : List Token} (hc : cursor.rest = token :: rest) (h : advance cursor = .ok ((), next)) :
    Takes cursor [token] next := by
  unfold advance at h
  dsimp only at h
  cases hcheck : checkEnding ⟨cursor.rest.tail, cursor.ending, (currentSpan cursor).stop⟩ with
  | error fault =>
    rw [hcheck] at h
    nomatch h
  | ok _ =>
    rw [hcheck] at h
    obtain ⟨-, rfl⟩ := Prod.mk.inj (Except.ok.inj h)
    refine ⟨by rw [hc]; rfl, ?_⟩
    unfold currentSpan
    rw [hc]
    rfl

/-- A name that is read is the current token, which is passed. -/
theorem ident_takes {name : Ident} (h : ident cursor = .ok (name, next)) :
    ∃ token, name? token = some name ∧ Takes cursor [token] next := by
  unfold ident at h
  rw [token?_bind] at h
  cases hc : cursor.rest with
  | nil =>
    rw [hc] at h
    exact (fail_ne_ok h).elim
  | cons token rest =>
    rw [hc] at h
    obtain ⟨kind, span, text, gap⟩ := token
    cases kind with
    | ident =>
      dsimp only [List.head?_cons] at h
      rw [ite_run] at h
      split at h
      · exact (fail_ne_ok h).elim
      · rename_i hkeyword
        obtain ⟨_, between, hadvance, h⟩ := bind_ok h
        obtain ⟨rfl, rfl⟩ := Prod.mk.inj (Except.ok.inj h)
        exact ⟨⟨.ident, span, text, gap⟩, if_pos ⟨rfl, hkeyword⟩, advance_takes hc hadvance⟩
    | _ => exact (fail_ne_ok h).elim

/-- A literal, constant or variable that is read is the current token, which is passed. -/
theorem atom_takes {e : Expr} (h : atom cursor = .ok (e, next)) : ∃ token, atom? token = some e ∧ Takes cursor [token] next := by
  unfold atom at h
  rw [token?_bind] at h
  cases hc : cursor.rest with
  | nil =>
    rw [hc] at h
    exact (fail_ne_ok h).elim
  | cons token rest =>
    -- In every case that succeeds the token is passed, and the expression is made of it alone.
    have literal : ∀ e', (do advance; return e' : Parser Expr) cursor = .ok (e, next) → Takes cursor [token] next ∧ e' = e := by
      intro e' h
      obtain ⟨_, between, hadvance, h⟩ := bind_ok h
      obtain ⟨rfl, rfl⟩ := Prod.mk.inj (Except.ok.inj h)
      exact ⟨advance_takes hc hadvance, rfl⟩
    rw [hc] at h
    dsimp only [List.head?_cons] at h
    refine ⟨token, ?_⟩
    unfold atom?
    cases hkind : token.kind with
    | number =>
      rw [hkind] at h
      dsimp only at h ⊢
      cases hn : Number.ofText? token.text with
      | some n =>
        rw [hn] at h
        obtain ⟨htakes, rfl⟩ := literal _ h
        exact ⟨rfl, htakes⟩
      | none =>
        rw [hn] at h
        nomatch h
    | string =>
      rw [hkind] at h
      dsimp only at h ⊢
      cases htext : Json.unquote token.lexeme with
      | ok text =>
        rw [htext] at h
        obtain ⟨htakes, rfl⟩ := literal _ h
        exact ⟨rfl, htakes⟩
      | error e =>
        rw [htext] at h
        nomatch h
    | rawString =>
      rw [hkind] at h
      obtain ⟨htakes, rfl⟩ := literal _ h
      exact ⟨rfl, htakes⟩
    | ident =>
      rw [hkind] at h
      dsimp only at h ⊢
      rw [ite_run, ite_run, ite_run] at h
      split at h
      · obtain ⟨htakes, rfl⟩ := literal _ h
        exact ⟨if_pos ‹_›, htakes⟩
      rw [if_neg ‹_›]
      split at h
      · obtain ⟨htakes, rfl⟩ := literal _ h
        exact ⟨if_pos ‹_›, htakes⟩
      rw [if_neg ‹_›]
      split at h
      · obtain ⟨htakes, rfl⟩ := literal _ h
        exact ⟨if_pos ‹_›, htakes⟩
      rw [if_neg ‹_›]
      obtain ⟨name, between, hident, h⟩ := bind_ok h
      obtain ⟨rfl, rfl⟩ := Prod.mk.inj (Except.ok.inj h)
      obtain ⟨token', hname, htakes⟩ := ident_takes hident
      obtain rfl : token = token' := (List.cons.inj (hc.symm.trans htakes.rest)).1
      exact ⟨by rw [hname]; rfl, htakes⟩
    | symbol =>
      rw [hkind] at h
      exact (fail_ne_ok h).elim

variable {f : Unit → Parser β} {b : β}

/-- A symbol that is found is passed. -/
theorem atSymbol_takes {symbol : String} (hat : Script.atSymbol symbol cursor.rest) (h : (advance >>= f) cursor = .ok (b, next)) :
    ∃ token between, token.isSymbol symbol ∧ Takes cursor [token] between ∧ f () between = .ok (b, next) := by
  obtain ⟨token, rest, hc, hsymbol⟩ := cons_of_atSymbol hat
  obtain ⟨_, between, hadvance, h⟩ := bind_ok h
  exact ⟨token, between, hsymbol, advance_takes hc hadvance, h⟩

/-- A word that is found is passed. -/
theorem atWord_takes {word : String} (hat : Script.atWord word cursor.rest) (h : (advance >>= f) cursor = .ok (b, next)) :
    ∃ token between, token.isIdent word ∧ Takes cursor [token] between ∧ f () between = .ok (b, next) := by
  obtain ⟨token, rest, hc, hword⟩ := cons_of_atWord hat
  obtain ⟨_, between, hadvance, h⟩ := bind_ok h
  exact ⟨token, between, hword, advance_takes hc hadvance, h⟩

/-- A symbol that is recognized by its spelling is passed. -/
theorem spelling_takes (hlexed : Lexed cursor.rest) {symbol : String} (hspelled : spelling cursor.rest = symbol)
    (hsymbol : beginsAsSymbol symbol) (h : (advance >>= f) cursor = .ok (b, next)) :
    ∃ token between, token.isSymbol symbol ∧ Takes cursor [token] between ∧ f () between = .ok (b, next) := by
  obtain ⟨token, rest, hc, hspelled⟩ := cons_of_spelling (beginsAsSymbol_ne hsymbol) hspelled
  obtain ⟨_, between, hadvance, h⟩ := bind_ok h
  rw [hc] at hlexed
  exact ⟨token, between, isSymbol_of_spelling hlexed.head hspelled hsymbol, advance_takes hc hadvance, h⟩

/-- A symbol or a word that is asked for is passed. -/
theorem expect_passes {expected context : String} (hexpected : expected ≠ "") (h : (expect expected context >>= f) cursor = .ok (b, next)) :
    ∃ token between, token.spelling = expected ∧ Takes cursor [token] between ∧ f () between = .ok (b, next) := by
  obtain ⟨_, between, hexpect, h⟩ := bind_ok h
  unfold expect at hexpect
  rw [text_bind, ite_run] at hexpect
  split at hexpect
  · obtain ⟨token, rest, hc, hspelled⟩ := cons_of_spelling hexpected (eq_of_beq ‹_›)
    exact ⟨token, between, hspelled, advance_takes hc hexpect, h⟩
  · exact (fail_ne_ok hexpect).elim

/-- A symbol that is asked for is passed. -/
theorem expect_takes (hlexed : Lexed cursor.rest) {symbol context : String} (hsymbol : beginsAsSymbol symbol)
    (h : (expect symbol context >>= f) cursor = .ok (b, next)) :
    ∃ token between, token.isSymbol symbol ∧ Takes cursor [token] between ∧ f () between = .ok (b, next) := by
  obtain ⟨token, between, hspelled, htakes, h⟩ := expect_passes (beginsAsSymbol_ne hsymbol) h
  exact ⟨token, between, isSymbol_of_spelling (htakes.lexed_row hlexed).head hspelled hsymbol, htakes, h⟩

/-- A word that is asked for is passed. -/
theorem expect_takes_word (hlexed : Lexed cursor.rest) {word context : String} (hword : beginsAsWord word)
    (h : (expect word context >>= f) cursor = .ok (b, next)) :
    ∃ token between, token.isIdent word ∧ Takes cursor [token] between ∧ f () between = .ok (b, next) := by
  obtain ⟨token, between, hspelled, htakes, h⟩ := expect_passes (beginsAsWord_ne hword) h
  exact ⟨token, between, isIdent_of_spelling (htakes.lexed_row hlexed).head hspelled hword, htakes, h⟩

/-- In front of the closing symbol there is no part to read, otherwise there are a first one and those behind it. -/
theorem upTo_cases {closing : String} {first : Parser α} {more : List α → Parser (List α)} {parts : List α}
    (h : upTo closing first more cursor = .ok (parts, next)) :
    spelling cursor.rest = closing ∧ parts = [] ∧ next = cursor ∨
      spelling cursor.rest ≠ closing ∧
        ∃ part between, first cursor = .ok (part, between) ∧ more [part] between = .ok (parts, next) := by
  unfold upTo at h
  rw [text_bind, ite_run] at h
  split at h
  · obtain ⟨rfl, rfl⟩ := Prod.mk.inj (Except.ok.inj h)
    exact .inl ⟨eq_of_beq ‹_›, rfl, rfl⟩
  · rename_i hfilled
    obtain ⟨part, between, hfirst, h⟩ := bind_ok h
    exact .inr ⟨fun hclosed => hfilled (beq_iff_eq.mpr hclosed), part, between, hfirst, h⟩

/-! ## Runs -/

/-- What is read from a source is read from its tokens. -/
theorem run_ok {α : Type} {p : Parser α} {source : Source} {result : α × Cursor} (h : run p source = .ok result) :
    p ⟨source.scan.tokens, source.scan.ending, 0⟩ = .ok result := by
  unfold run at h
  cases hcheck : checkEnding ⟨source.scan.tokens, source.scan.ending, 0⟩ with
  | error fault =>
    simp only [hcheck, bind, Except.bind] at h
    nomatch h
  | ok _ =>
    simp only [hcheck, bind, Except.bind] at h
    exact h

end Parser

end HostScript.Script
