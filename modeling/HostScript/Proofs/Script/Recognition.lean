import Mathlib
import HostScript.Proofs.Dialect.Printed
import HostScript.Proofs.Script.Reading

/-!
# What belongs to the grammar is read

A row of tokens that is an expression of the grammar is accepted by the reader of expressions, whatever follows it, and so is every
row of the same shapes; the trees agree up to their spans (`Reads.accepted`). The fuel that a reader needs grows with the length of
the row, because every turn of the grammar reads a token (`Reads.shorter`).
-/

namespace HostScript.Script

open Dialect (shapes shapeOf)

/-! ## Rows of the same shapes -/

/-- The spelling of a token is a matter of its shape. -/
theorem spelling_congr {token token' : Token} (h : shapeOf token = shapeOf token') : token.spelling = token'.spelling := by
  simp only [shapeOf, Dialect.Shape.mk.injEq] at h
  simp only [Token.spelling, h]

/-- Which symbol a token is, is a matter of its shape. -/
theorem isSymbol_congr {token token' : Token} (h : shapeOf token = shapeOf token') (symbol : String) :
    token.isSymbol symbol = token'.isSymbol symbol := by
  simp only [shapeOf, Dialect.Shape.mk.injEq] at h
  simp only [Token.isSymbol, h]

/-- Which word a token is, is a matter of its shape. -/
theorem isIdent_congr {token token' : Token} (h : shapeOf token = shapeOf token') (word : String) :
    token.isIdent word = token'.isIdent word := by
  simp only [shapeOf, Dialect.Shape.mk.injEq] at h
  simp only [Token.isIdent, h]

/-- Tokens of one shape are the same name, up to its span. -/
theorem name?_congr {token token' : Token} (h : shapeOf token = shapeOf token') :
    (name? token).map Ident.bare = (name? token').map Ident.bare := by
  simp only [shapeOf, Dialect.Shape.mk.injEq] at h
  simp only [name?, h]
  split <;> rfl

/-- Tokens of one shape have the same extent in the text. -/
theorem lexeme_congr {token token' : Token} (h : shapeOf token = shapeOf token') : token.lexeme = token'.lexeme := by
  simp only [shapeOf, Dialect.Shape.mk.injEq] at h
  simp only [Token.lexeme, h]

/-- Tokens of one shape are the same literal, constant or variable, up to its span. -/
theorem atom?_congr {token token' : Token} (h : shapeOf token = shapeOf token') :
    (atom? token).map Expr.bare = (atom? token').map Expr.bare := by
  have hname := name?_congr h
  have hlexeme := lexeme_congr h
  simp only [shapeOf, Dialect.Shape.mk.injEq] at h
  obtain ⟨hkind, htext⟩ := h
  unfold atom?
  rw [← hkind]
  cases token.kind with
  | number =>
    dsimp only
    rw [htext]
    cases Number.ofText? token'.text <;> rfl
  | string =>
    dsimp only
    rw [hlexeme]
    cases (Json.unquote token'.lexeme).toOption <;> rfl
  | rawString =>
    dsimp only
    rw [htext]
    rfl
  | ident =>
    have hvar : ∀ name : Option Ident, ((name.map fun name => Expr.var name.span name.name).map Expr.bare) =
        ((name.map Ident.bare).map fun name => Expr.var name.span name.name) := by
      intro name
      cases name <;> rfl
    dsimp only
    rw [htext]
    split
    · rfl
    split
    · rfl
    split
    · rfl
    rw [hvar, hvar, hname]
  | symbol => rfl

/-- Rows of the same shapes begin alike. -/
theorem head_congr {α : Type} {f : Token → α} {row row' : List Token} (h : shapes row = shapes row')
    (hf : ∀ {token token'}, shapeOf token = shapeOf token' → f token = f token') : row.head?.map f = row'.head?.map f := by
  cases row with
  | nil =>
    cases row' with
    | nil => rfl
    | cons _ _ => cases h
  | cons token row =>
    cases row' with
    | nil => cases h
    | cons token' row' => exact congrArg some (hf (List.cons.inj h).1)

/-- Rows of the same shapes are spelled alike at their first tokens. -/
theorem spelling_row_congr {row row' : List Token} (h : shapes row = shapes row') : spelling row = spelling row' := by
  unfold spelling
  rw [head_congr h spelling_congr]

/-- Rows of the same shapes begin with the same symbols. -/
theorem atSymbol_congr {row row' : List Token} (h : shapes row = shapes row') (symbol : String) :
    atSymbol symbol row = atSymbol symbol row' := by
  have hhead := head_congr (f := (·.isSymbol symbol)) h fun h => isSymbol_congr h symbol
  unfold atSymbol
  cases row <;> cases row' <;> simp_all

/-- Rows of the same shapes begin with the same words. -/
theorem atWord_congr {row row' : List Token} (h : shapes row = shapes row') (word : String) : atWord word row = atWord word row' := by
  have hhead := head_congr (f := (·.isIdent word)) h fun h => isIdent_congr h word
  unfold atWord
  cases row <;> cases row' <;> simp_all

/-! ## Readers that succeed -/

namespace Parser

variable {α β : Type} {cursor next : Cursor} {row rest : List Token} {token : Token}

/-- A text that is cut into tokens up to its end has no fault behind them. -/
theorem checkEnding_complete (h : ∃ gap here, cursor.ending = .complete gap here) : checkEnding cursor = .ok () := by
  obtain ⟨gap, here, hending⟩ := h
  unfold checkEnding
  rw [hending]
  cases cursor.rest <;> rfl

/-- The tokens that are left have the shapes of a row, and the text is cut into tokens up to its end. -/
structure At (cursor : Cursor) (row : List Token) : Prop where
  shapes : shapes cursor.rest = shapes row
  whole : ∃ gap here, cursor.ending = .complete gap here

namespace At

/-- The reader sees the first token spelled as that of the row. -/
theorem spelling (h : At cursor row) : Script.spelling cursor.rest = Script.spelling row := spelling_row_congr h.shapes

/-- The reader finds the symbols that the row begins with. -/
theorem atSymbol (h : At cursor row) (symbol : String) : Script.atSymbol symbol cursor.rest = Script.atSymbol symbol row :=
  atSymbol_congr h.shapes symbol

/-- The reader finds the words that the row begins with. -/
theorem atWord (h : At cursor row) (word : String) : Script.atWord word cursor.rest = Script.atWord word row :=
  atWord_congr h.shapes word

/-- As many tokens are left as the row has. -/
theorem length (h : At cursor row) : cursor.rest.length = row.length := by
  simpa [Dialect.shapes] using congrArg List.length h.shapes

/-- The token that is read next. -/
theorem cons (h : At cursor (token :: row)) :
    ∃ token' rest, cursor.rest = token' :: rest ∧ shapeOf token' = shapeOf token ∧ Dialect.shapes rest = Dialect.shapes row := by
  cases hc : cursor.rest with
  | nil =>
    have := h.length
    rw [hc] at this
    cases this
  | cons token' rest =>
    have := h.shapes
    rw [hc] at this
    exact ⟨token', rest, rfl, (List.cons.inj this).1, (List.cons.inj this).2⟩

/-- The first token of the row can be passed. -/
theorem advance (h : At cursor (token :: row)) : ∃ next, Parser.advance cursor = .ok ((), next) ∧ At next row := by
  obtain ⟨token', rest, hc, -, hrest⟩ := h.cons
  have hnext : At ⟨cursor.rest.tail, cursor.ending, (currentSpan cursor).stop⟩ row := ⟨by rw [hc]; exact hrest, h.whole⟩
  refine ⟨_, ?_, hnext⟩
  unfold Parser.advance
  dsimp only
  rw [checkEnding_complete hnext.whole]
  rfl

end At

/-- In front of a symbol, and of no other one. -/
theorem At.atSymbol_pos (h : At cursor (token :: row)) {symbol : String} (hsymbol : token.isSymbol symbol) :
    Script.atSymbol symbol cursor.rest := by
  rw [h.atSymbol]
  exact hsymbol

/-- A symbol is no other one. -/
theorem At.atSymbol_neg (h : At cursor (token :: row)) {symbol other : String} (hsymbol : token.isSymbol symbol)
    (hother : symbol ≠ other) : ¬Script.atSymbol other cursor.rest := by
  rw [h.atSymbol]
  intro hat
  simp only [Script.atSymbol, List.head?_cons, Option.any_some, Token.isSymbol, Bool.and_eq_true, beq_iff_eq] at hat hsymbol
  exact hother (hsymbol.2.symm.trans hat.2)

/-- In front of something that is not the given text. -/
theorem At.not_closed (h : At cursor row) {text : String} (hfilled : Script.spelling row ≠ text) (hlength : 0 < row.length) :
    ¬(Script.spelling cursor.rest == text || cursor.rest.isEmpty) = true := by
  have := h.length
  rw [h.spelling, Bool.or_eq_true, beq_iff_eq, List.isEmpty_iff_length_eq_zero, not_or]
  exact ⟨hfilled, by omega⟩

/-- A sequence whose first reader succeeds goes on behind it. -/
theorem bind_run {p : Parser α} {a : α} (h : p cursor = .ok (a, next)) (f : α → Parser β) : (p >>= f) cursor = f a next := by
  change (p cursor >>= fun read => f read.1 read.2) = _
  rw [h]
  rfl

/-- A sequence that passes a token goes on in front of the rest of the row. -/
theorem At.advance_bind (h : At cursor (token :: row)) (f : Unit → Parser β) :
    ∃ next, (Parser.advance >>= f) cursor = f () next ∧ At next row := by
  obtain ⟨next, hadvance, hnext⟩ := h.advance
  exact ⟨next, bind_run hadvance f, hnext⟩

/-- In front of the closing symbol no part is read. -/
theorem At.upTo_empty (h : At cursor (token :: row)) {closing : String} (hcloses : token.spelling = closing) (first : Parser α)
    (more : List α → Parser (List α)) : Parser.upTo closing first more cursor = .ok ([], cursor) := by
  unfold upTo
  rw [text_bind, ite_run, h.spelling, spelling_cons, if_pos (beq_iff_eq.mpr hcloses)]
  rfl

/-- In front of anything else a first part is read, and those behind it. -/
theorem At.upTo_filled (h : At cursor row) {closing : String} (hfilled : Script.spelling row ≠ closing) {first : Parser α} {part : α}
    (hfirst : first cursor = .ok (part, next)) (more : List α → Parser (List α)) :
    Parser.upTo closing first more cursor = more [part] next := by
  unfold upTo
  rw [text_bind, ite_run, h.spelling, if_neg fun hclosed => hfilled (eq_of_beq hclosed), bind_run hfirst]

/-- A sequence that asks for the symbol or word in front of it goes on behind it. -/
theorem At.expect_bind (h : At cursor (token :: row)) {expected : String} (hspelled : token.spelling = expected) (context : String)
    (f : Unit → Parser β) : ∃ next, (Parser.expect expected context >>= f) cursor = f () next ∧ At next row := by
  obtain ⟨next, hadvance, hnext⟩ := h.advance
  refine ⟨next, bind_run ?_ f, hnext⟩
  unfold expect
  rw [text_bind, h.spelling, ite_run]
  exact (if_pos (beq_iff_eq.mpr hspelled)).trans hadvance

/-- The reader of names accepts a token that is a name. -/
theorem ident_run {name : Ident} (hc : cursor.rest = token :: rest) (hnamed : name? token = some name)
    (hadvance : Parser.advance cursor = .ok ((), next)) : Parser.ident cursor = .ok (name, next) := by
  unfold name? at hnamed
  split at hnamed
  · rename_i hkeyword
    obtain ⟨kind, span, text, gap⟩ := token
    obtain ⟨rfl, hkeyword⟩ := hkeyword
    obtain rfl := Option.some.inj hnamed
    unfold Parser.ident
    rw [token?_bind, hc]
    dsimp only [List.head?_cons]
    rw [ite_run, if_neg hkeyword, bind_run hadvance]
    rfl
  · cases hnamed

/-- In front of a name the reader of names gives that name, up to its span. -/
theorem At.ident (h : At cursor (token :: row)) {name : Ident} (hnamed : name? token = some name) :
    ∃ name' next, Parser.ident cursor = .ok (name', next) ∧ name'.bare = name.bare ∧ At next row := by
  obtain ⟨token', rest, hc, hshape, -⟩ := h.cons
  obtain ⟨next, hadvance, hnext⟩ := h.advance
  have hbare := name?_congr hshape
  rw [hnamed] at hbare
  obtain ⟨name', hnamed', hbare⟩ := Option.map_eq_some_iff.mp hbare
  exact ⟨name', next, ident_run hc hnamed' hadvance, hbare, hnext⟩

/-- In front of an atom the reader of atoms gives that atom, up to its span. -/
theorem At.atom (h : At cursor (token :: row)) {e : Expr} (hatom : atom? token = some e) :
    ∃ e' next, Parser.atom cursor = .ok (e', next) ∧ e'.bare = e.bare ∧ At next row := by
  obtain ⟨token', rest, hc, hshape, -⟩ := h.cons
  obtain ⟨next, hadvance, hnext⟩ := h.advance
  have hbare := atom?_congr hshape
  rw [hatom] at hbare
  obtain ⟨e', he', hbare⟩ := Option.map_eq_some_iff.mp hbare
  refine ⟨e', next, ?_, hbare, hnext⟩
  have literal : ∀ e', (do Parser.advance; return e' : Parser Expr) cursor = .ok (e', next) := fun e' => by rw [bind_run hadvance]; rfl
  unfold Parser.atom
  rw [token?_bind, hc]
  dsimp only [List.head?_cons]
  unfold atom? at he'
  cases hkind : token'.kind with
  | number =>
    rw [hkind] at he'
    obtain ⟨n, hn, rfl⟩ := Option.map_eq_some_iff.mp he'
    dsimp only
    rw [hn]
    exact literal _
  | string =>
    rw [hkind] at he'
    dsimp only at he' ⊢
    cases htext : Json.unquote token'.lexeme with
    | error fault =>
      rw [htext] at he'
      cases he'
    | ok text =>
      rw [htext] at he'
      obtain rfl := Option.some.inj he'
      exact literal _
  | rawString =>
    rw [hkind] at he'
    obtain rfl := Option.some.inj he'
    exact literal _
  | ident =>
    rw [hkind] at he'
    dsimp only at he' ⊢
    rw [ite_run, ite_run, ite_run]
    split at he'
    · obtain rfl := Option.some.inj he'
      rw [if_pos ‹_›]
      exact literal _
    rw [if_neg ‹_›]
    split at he'
    · obtain rfl := Option.some.inj he'
      rw [if_pos ‹_›]
      exact literal _
    rw [if_neg ‹_›]
    split at he'
    · obtain rfl := Option.some.inj he'
      rw [if_pos ‹_›]
      exact literal _
    rw [if_neg ‹_›]
    obtain ⟨name, hname, rfl⟩ := Option.map_eq_some_iff.mp he'
    rw [bind_run (ident_run hc hname hadvance)]
    rfl
  | symbol =>
    rw [hkind] at he'
    cases he'

end Parser

/-! ## Every turn reads a token -/

/-- The number of tokens that a phrase takes at least. -/
def Phrase.least : Phrase → Nat
  | .operators _ _ | .suffixes _ => 0
  | _ => 1

/-- What is left of a row is shorter by the tokens that were read. -/
theorem Reads.shorter {p : Phrase} {row rest : List Token} {e : Expr} (h : Reads p row e rest) :
    rest.length + p.least ≤ row.length := by
  induction h with
  | _ => simp_all only [Phrase.least, List.length_cons] <;> omega

/-! ## Expressions -/

/-- Readers that come to stand in front of a row with the given tree, up to spans. -/
def Gives (read : Except ParseFault (Expr × Cursor)) (e : Expr) (rest : List Token) : Prop :=
  ∃ e' next, read = .ok (e', next) ∧ e'.bare = e.bare ∧ Parser.At next rest

/-- What the reader of a phrase does at a row: with enough fuel, it accepts the phrase and comes to stand behind it. -/
def Accepted : Phrase → List Token → Expr → List Token → Prop
  | .level level, row, e, rest => ∀ fuel cursor, Parser.At cursor row → 16 * row.length + (6 - level) + 3 ≤ fuel →
    Gives (Parser.binary fuel level cursor) e rest
  | .operators level left, row, e, rest => ∀ fuel cursor start left', Parser.At cursor row → 16 * row.length + 1 ≤ fuel →
    left'.bare = left.bare → Gives (Parser.operators fuel level start left' cursor) e rest
  | .unary, row, e, rest => ∀ fuel cursor, Parser.At cursor row → 16 * row.length + 2 ≤ fuel →
    Gives (Parser.unary fuel cursor) e rest
  | .primary, row, e, rest => ∀ fuel cursor, Parser.At cursor row → 16 * row.length + 1 ≤ fuel →
    Gives (Parser.primary fuel cursor) e rest
  | .items, row, e, rest => ∀ fuel cursor seen, Parser.At cursor row → 16 * row.length + 1 ≤ fuel →
    ∃ items next closing, Parser.moreItems fuel seen cursor = .ok (seen.reverse ++ items, next) ∧
      e.bare = .array .nowhere (Expr.bares items) ∧ closing.spelling = "]" ∧ Parser.At next (closing :: rest)
  | .fields, row, e, rest => ∀ fuel cursor seen, Parser.At cursor row → 16 * row.length + 10 ≤ fuel →
    ∃ fields next closing, Parser.moreFields fuel seen cursor = .ok (seen.reverse ++ fields, next) ∧
      e.bare = .object .nowhere (Expr.bareFields fields) ∧ closing.spelling = "\x7d" ∧ Parser.At next (closing :: rest)
  | .key, row, e, rest =>
    (∃ token name, row = token :: rest ∧ name? token = some name ∧ e = .string name.span name.name) ∨
    (row.head?.bind name? = none ∧ ∀ fuel cursor, Parser.At cursor row → 16 * row.length + 9 ≤ fuel →
      Gives (Parser.binary fuel 0 cursor) e rest)
  | .suffixes base, row, e, rest => ∀ fuel cursor start base', Parser.At cursor row → 16 * row.length + 1 ≤ fuel →
    base'.bare = base.bare → Gives (Parser.suffixes fuel start base' cursor) e rest
  | .args callee, row, e, rest => ∀ fuel cursor seen, Parser.At cursor row → 16 * row.length + 1 ≤ fuel →
    ∃ args next closing, Parser.moreArgs fuel seen cursor = .ok (seen.reverse ++ args, next) ∧
      e.bare = .call .nowhere callee.bare (Expr.bares args) ∧ closing.spelling = ")" ∧ Parser.At next (closing :: rest)

namespace Accepted

open HostScript.Script.Parser (At ite_run)

variable {k : Nat} {row between after rest : List Token} {left right first item base callee key value e : Expr} {span : Span}
  {token opening closing : Token}

/-- More fuel than nothing. -/
theorem fuel_succ {least fuel : Nat} (h : least + 1 ≤ fuel) : ∃ fuel', fuel = fuel' + 1 ∧ least ≤ fuel' :=
  ⟨fuel - 1, by omega, by omega⟩

/-- A level is read if its first operand and its operators are. -/
theorem level (binds : k ≤ Parser.tightestLevel) (shorter : between.length + 1 ≤ row.length)
    (operand : Accepted (.level (k + 1)) row left between) (more : Accepted (.operators k left) between e rest) :
    Accepted (.level k) row e rest := by
  intro fuel cursor hat hfuel
  unfold Parser.tightestLevel at binds
  obtain ⟨fuel, rfl, hfuel⟩ := fuel_succ hfuel
  obtain ⟨left', next, hleft, hbare, hnext⟩ := operand fuel cursor hat (by omega)
  rw [Parser.binary, ite_run, if_neg (by unfold Parser.tightestLevel; omega), Parser.span_bind, Parser.bind_run hleft]
  exact more fuel next _ left' hnext (by omega) hbare

/-- Behind the tightest level there are the unary operators. -/
theorem operand (binds : Parser.tightestLevel < k) (operand : Accepted .unary row e rest) : Accepted (.level k) row e rest := by
  intro fuel cursor hat hfuel
  obtain ⟨fuel, rfl, hfuel⟩ := fuel_succ hfuel
  rw [Parser.binary, ite_run, if_pos binds]
  exact operand fuel cursor hat (by omega)

/-- Without an operator of the level nothing more is read. -/
theorem operatorsDone (ends : Parser.operator? k (spelling row) = none) : Accepted (.operators k left) row left row := by
  intro fuel cursor start left' hat hfuel hleft
  obtain ⟨fuel, rfl, -⟩ := fuel_succ hfuel
  rw [Parser.operators, Parser.text_bind, hat.spelling, ends]
  exact ⟨left', cursor, rfl, hleft, hat⟩

/-- An operator is read with its right operand, and then those behind it. -/
theorem operatorsMore {op : BinaryOp} (operator : Parser.operator? k token.spelling = some op)
    (shorter : between.length + 1 ≤ row.length) (operand : Accepted (.level (k + 1)) row right between)
    (more : Accepted (.operators k (.binary span op left right)) between e rest) :
    Accepted (.operators k left) (token :: row) e rest := by
  intro fuel cursor start left' hat hfuel hleft
  rw [List.length_cons] at hfuel
  obtain ⟨fuel, rfl, hfuel⟩ := fuel_succ hfuel
  have hop : Parser.operator? k (spelling cursor.rest) = some op := by rw [hat.spelling]; exact operator
  rw [Parser.operators, Parser.text_bind, hop]
  dsimp only
  rw [Parser.span_bind]
  obtain ⟨afterOp, hrun, hafterOp⟩ := hat.advance_bind _
  rw [hrun]
  obtain ⟨right', next, hright, hbare, hnext⟩ := operand fuel afterOp hafterOp (by omega)
  rw [Parser.bind_run hright, Parser.cover_bind]
  exact more fuel next start _ hnext (by omega) (by simp only [Expr.bare, hleft, hbare])

/-- A unary operator is read with its operand. -/
theorem prefixed {op : UnaryOp} (operator : unaryOp? token = some op) (operand : Accepted .unary row e rest) :
    Accepted .unary (token :: row) (.unary span op e) rest := by
  intro fuel cursor hat hfuel
  rw [List.length_cons] at hfuel
  obtain ⟨fuel, rfl, hfuel⟩ := fuel_succ hfuel
  -- Either symbol is passed, and the operand follows.
  have passed : ∀ op, Gives (Parser.applied op (Parser.unary fuel) cursor) (.unary span op e) rest := by
    intro op
    unfold Parser.applied
    rw [Parser.span_bind]
    obtain ⟨afterOp, hrun, hafterOp⟩ := hat.advance_bind _
    obtain ⟨e', next, hoperand, hbare, hnext⟩ := operand fuel afterOp hafterOp (by omega)
    rw [hrun, Parser.bind_run hoperand]
    exact ⟨_, next, rfl, by simp only [Expr.bare, hbare], hnext⟩
  rw [Parser.unary, Parser.span_bind, Parser.atSymbol_bind, ite_run, hat.atSymbol]
  unfold unaryOp? at operator
  split at operator
  · rename_i hminus
    obtain rfl := Option.some.inj operator
    rw [if_pos (show atSymbol "-" (token :: row) = true from hminus)]
    exact passed .neg
  · rename_i hminus
    rw [if_neg (show ¬atSymbol "-" (token :: row) = true from hminus), Parser.atSymbol_bind, ite_run, hat.atSymbol]
    split at operator
    · rename_i hbang
      obtain rfl := Option.some.inj operator
      rw [if_pos (show atSymbol "!" (token :: row) = true from hbang)]
      exact passed .not
    · cases operator

/-- Without a unary operator an expression with its suffixes is read. -/
theorem suffixed (bare : row.head?.bind unaryOp? = none) (shorter : between.length + 1 ≤ row.length)
    (primary : Accepted .primary row base between) (more : Accepted (.suffixes base) between e rest) : Accepted .unary row e rest := by
  intro fuel cursor hat hfuel
  obtain ⟨fuel, rfl, hfuel⟩ := fuel_succ hfuel
  have hplain : ¬atSymbol "-" row ∧ ¬atSymbol "!" row := by
    cases row with
    | nil => exact ⟨nofun, nofun⟩
    | cons token row =>
      replace bare : unaryOp? token = none := bare
      unfold unaryOp? at bare
      split at bare
      · cases bare
      split at bare
      · cases bare
      · exact ⟨‹_›, ‹_›⟩
  rw [Parser.unary, Parser.span_bind, Parser.atSymbol_bind, ite_run, hat.atSymbol, if_neg hplain.1, Parser.atSymbol_bind, ite_run,
    hat.atSymbol, if_neg hplain.2]
  obtain ⟨base', next, hbase, hbare, hnext⟩ := primary fuel cursor hat (by omega)
  rw [Parser.bind_run hbase]
  exact more fuel next _ base' hnext (by omega) hbare

/-- Two brackets are the array without items. -/
theorem arrayEmpty (opens : opening.isSymbol "[") (closes : closing.spelling = "]") :
    Accepted .primary (opening :: closing :: rest) (.array span []) rest := by
  intro fuel cursor hat hfuel
  obtain ⟨fuel, rfl, -⟩ := fuel_succ hfuel
  rw [Parser.primary, Parser.span_bind, Parser.atSymbol_bind, ite_run, if_pos (hat.atSymbol_pos opens)]
  obtain ⟨inside, hrun, hinside⟩ := hat.advance_bind _
  rw [hrun, Parser.bind_run (hinside.upTo_empty closes _ _)]
  obtain ⟨next, hrun, hnext⟩ := hinside.expect_bind closes _ _
  rw [hrun]
  exact ⟨_, next, rfl, rfl, hnext⟩

/-- An array is read if its first item and the others are. -/
theorem array {items : List Expr} (opens : opening.isSymbol "[") (filled : spelling row ≠ "]") (shorter : between.length + 1 ≤ row.length)
    (item : Accepted (.level 0) row first between) (more : Accepted .items between (.array span items) rest) :
    Accepted .primary (opening :: row) (.array span (first :: items)) rest := by
  intro fuel cursor hat hfuel
  rw [List.length_cons] at hfuel
  obtain ⟨fuel, rfl, hfuel⟩ := fuel_succ hfuel
  rw [Parser.primary, Parser.span_bind, Parser.atSymbol_bind, ite_run, if_pos (hat.atSymbol_pos opens)]
  obtain ⟨inside, hrun, hinside⟩ := hat.advance_bind _
  obtain ⟨first', afterFirst, hfirst, hbare, hafterFirst⟩ := item fuel inside hinside (by omega)
  obtain ⟨items', afterItems, closing, hitems, hbares, hcloses, hafterItems⟩ := more fuel afterFirst [first'] hafterFirst (by omega)
  rw [hrun, Parser.bind_run ((hinside.upTo_filled filled hfirst _).trans hitems)]
  obtain ⟨next, hrun, hnext⟩ := hafterItems.expect_bind hcloses _ _
  rw [hrun]
  simp only [Expr.bare, Expr.array.injEq, true_and] at hbares
  exact ⟨_, next, rfl, by simp [Expr.bare, Expr.bares, hbare, hbares], hnext⟩

/-- An object is read if its fields are. -/
theorem object {fields : List (Span × Expr × Expr)} (opens : opening.isSymbol "\x7b")
    (more : Accepted .fields row (.object span fields) rest) : Accepted .primary (opening :: row) (.object span fields) rest := by
  intro fuel cursor hat hfuel
  rw [List.length_cons] at hfuel
  obtain ⟨fuel, rfl, hfuel⟩ := fuel_succ hfuel
  rw [Parser.primary, Parser.span_bind, Parser.atSymbol_bind, ite_run, if_neg (hat.atSymbol_neg opens (by decide)),
    Parser.atSymbol_bind, ite_run, if_pos (hat.atSymbol_pos opens)]
  obtain ⟨inside, hrun, hinside⟩ := hat.advance_bind _
  rw [hrun]
  obtain ⟨fields', afterFields, closing, hfields, hbares, hcloses, hafterFields⟩ := more fuel inside [] hinside (by omega)
  rw [Parser.bind_run hfields]
  obtain ⟨next, hrun, hnext⟩ := hafterFields.expect_bind hcloses _ _
  rw [hrun]
  exact ⟨_, next, rfl, hbares.symm, hnext⟩

/-- An expression in brackets is read if that in them is. -/
theorem bracketed (opens : opening.isSymbol "(") (inner : Accepted (.level 0) row e (closing :: rest)) (closes : closing.spelling = ")") :
    Accepted .primary (opening :: row) e rest := by
  intro fuel cursor hat hfuel
  rw [List.length_cons] at hfuel
  obtain ⟨fuel, rfl, hfuel⟩ := fuel_succ hfuel
  rw [Parser.primary, Parser.span_bind, Parser.atSymbol_bind, ite_run, if_neg (hat.atSymbol_neg opens (by decide)),
    Parser.atSymbol_bind, ite_run, if_neg (hat.atSymbol_neg opens (by decide)), Parser.atSymbol_bind, ite_run,
    if_pos (hat.atSymbol_pos opens)]
  obtain ⟨inside, hrun, hinside⟩ := hat.advance_bind _
  rw [hrun]
  obtain ⟨e', afterInner, hinner, hbare, hafterInner⟩ := inner fuel inside hinside (by omega)
  rw [Parser.bind_run hinner]
  obtain ⟨next, hrun, hnext⟩ := hafterInner.expect_bind closes _ _
  rw [hrun]
  exact ⟨e', next, rfl, hbare, hnext⟩

/-- An atom is read by passing its token. -/
theorem atom (isAtom : atom? token = some e) : Accepted .primary (token :: rest) e rest := by
  intro fuel cursor hat hfuel
  obtain ⟨fuel, rfl, -⟩ := fuel_succ hfuel
  have hplain : ∀ symbol, ¬Script.atSymbol symbol cursor.rest := by
    intro symbol hsymbol
    rw [hat.atSymbol] at hsymbol
    simp only [Script.atSymbol, List.head?_cons, Option.any_some, Token.isSymbol, Bool.and_eq_true, beq_iff_eq] at hsymbol
    unfold atom? at isAtom
    rw [hsymbol.1] at isAtom
    cases isAtom
  rw [Parser.primary, Parser.span_bind, Parser.atSymbol_bind, ite_run, if_neg (hplain _), Parser.atSymbol_bind, ite_run,
    if_neg (hplain _), Parser.atSymbol_bind, ite_run, if_neg (hplain _)]
  exact hat.atom isAtom

/-- In front of the closing bracket there are no other items. -/
theorem itemsDone (closes : closing.spelling = "]") : Accepted .items (closing :: rest) (.array span []) rest := by
  intro fuel cursor seen hat hfuel
  obtain ⟨fuel, rfl, -⟩ := fuel_succ hfuel
  have hcomma : (spelling (closing :: rest) != ",") = true := by simp [spelling, closes]
  rw [Parser.moreItems, Parser.text_bind, ite_run, hat.spelling, if_pos hcomma]
  exact ⟨[], cursor, closing, by rw [List.append_nil]; rfl, rfl, closes, hat⟩

/-- A comma may stand in front of the closing bracket. -/
theorem itemsComma (separates : opening.spelling = ",") (closes : closing.spelling = "]") :
    Accepted .items (opening :: closing :: rest) (.array span []) rest := by
  intro fuel cursor seen hat hfuel
  obtain ⟨fuel, rfl, -⟩ := fuel_succ hfuel
  have hcomma : ¬(spelling (opening :: closing :: rest) != ",") = true := by simp [spelling, separates]
  rw [Parser.moreItems, Parser.text_bind, ite_run, hat.spelling, if_neg hcomma]
  obtain ⟨next, hrun, hnext⟩ := hat.advance_bind _
  rw [hrun, Parser.text_bind, Parser.atEnd_bind, ite_run, hnext.spelling, if_pos (by simp [spelling, closes])]
  exact ⟨[], next, closing, by rw [List.append_nil]; rfl, rfl, closes, hnext⟩

/-- A comma and an item are read in front of the other items. -/
theorem itemsMore {items : List Expr} (separates : opening.spelling = ",") (filled : spelling row ≠ "]")
    (shorter : between.length + 1 ≤ row.length) (one : Accepted (.level 0) row item between)
    (more : Accepted .items between (.array span items) rest) : Accepted .items (opening :: row) (.array span (item :: items)) rest := by
  intro fuel cursor seen hat hfuel
  rw [List.length_cons] at hfuel
  obtain ⟨fuel, rfl, hfuel⟩ := fuel_succ hfuel
  have hcomma : ¬(spelling (opening :: row) != ",") = true := by simp [spelling, separates]
  rw [Parser.moreItems, Parser.text_bind, ite_run, hat.spelling, if_neg hcomma]
  obtain ⟨inside, hrun, hinside⟩ := hat.advance_bind _
  rw [hrun, Parser.text_bind, Parser.atEnd_bind, ite_run, if_neg (hinside.not_closed filled (by omega))]
  obtain ⟨item', afterItem, hitem, hbare, hafterItem⟩ := one fuel inside hinside (by omega)
  rw [Parser.bind_run hitem]
  obtain ⟨items', next, closing, hitems, hbares, hcloses, hnext⟩ := more fuel afterItem (item' :: seen) hafterItem (by omega)
  simp only [Expr.bare, Expr.array.injEq, true_and] at hbares
  exact ⟨item' :: items', next, closing, by rw [hitems]; simp, by simp [Expr.bare, Expr.bares, hbare, hbares], hcloses, hnext⟩

/-- In front of the closing brace there are no fields. -/
theorem fieldsDone (closes : closing.spelling = "\x7d") : Accepted .fields (closing :: rest) (.object span []) rest := by
  intro fuel cursor seen hat hfuel
  obtain ⟨fuel, rfl, -⟩ := fuel_succ hfuel
  rw [Parser.moreFields, Parser.text_bind, Parser.atEnd_bind, ite_run, hat.spelling, if_pos (by simp [spelling, closes])]
  exact ⟨[], cursor, closing, by rw [List.append_nil]; rfl, rfl, closes, hat⟩

/-- The key of a field is read, whether it is a name or an expression. -/
theorem fieldKey {fuel : Nat} {cursor : Cursor} (hat : At cursor row) (hfuel : 16 * row.length + 9 ≤ fuel)
    (named : Accepted .key row key after) : Gives (Parser.fieldKey (Parser.binary fuel 0) cursor) key after := by
  unfold Parser.fieldKey
  rw [Parser.token?_bind]
  obtain ⟨token, name, rfl, hname, rfl⟩ | ⟨hcomputed, hexpr⟩ := named
  · obtain ⟨token', left, hc, hshape, -⟩ := hat.cons
    obtain ⟨afterKey, hadvance, hafterKey⟩ := hat.advance
    have hbare := name?_congr hshape
    rw [hname] at hbare
    obtain ⟨name', hname', hbare⟩ := Option.map_eq_some_iff.mp hbare
    unfold name? at hname'
    split at hname'
    · rename_i hkeyword
      obtain ⟨kind, span, text, gap⟩ := token'
      obtain ⟨rfl, hkeyword⟩ := hkeyword
      obtain rfl := Option.some.inj hname'
      rw [hc]
      dsimp only [List.head?_cons]
      rw [ite_run, if_neg hkeyword, Parser.bind_run hadvance]
      refine ⟨_, afterKey, rfl, ?_, hafterKey⟩
      simpa only [Expr.bare, Expr.string.injEq, true_and, Ident.bare, Ident.mk.injEq] using hbare
    · cases hname'
  · have hkey := hexpr fuel cursor hat hfuel
    cases hc : cursor.rest with
    | nil => exact hkey
    | cons token' left =>
      have hnone : name? token' = none := by
        have := head_congr (f := fun token => (name? token).map Ident.bare) hat.shapes name?_congr
        rw [hc] at this
        cases row with
        | nil => cases this
        | cons token row =>
          replace hcomputed : name? token = none := hcomputed
          have : (name? token').map Ident.bare = (name? token).map Ident.bare := Option.some.inj this
          rw [hcomputed] at this
          exact Option.map_eq_none_iff.mp this
      obtain ⟨kind, span, text, gap⟩ := token'
      cases kind with
      | ident =>
        dsimp only [List.head?_cons]
        have hkeyword : Parser.keywords.contains text = true := by
          by_contra hkeyword
          unfold name? at hnone
          rw [if_pos ⟨rfl, hkeyword⟩] at hnone
          cases hnone
        rw [ite_run, if_pos hkeyword]
        exact hkey
      | _ => exact hkey

/-- What follows the key of a field is read behind the key. -/
theorem field {fuel : Nat} {cursor : Cursor} (seen : List (Span × Expr × Expr)) (hat : At cursor row)
    (hfuel : 16 * row.length + 9 ≤ fuel) (filled : spelling row ≠ "\x7d") (shorter : after.length + 1 ≤ row.length)
    (named : Accepted .key row key after) :
    ∃ (reported : Span) (key' : Expr) (afterKey : Cursor), key'.bare = key.bare ∧ At afterKey after ∧
      Parser.moreFields (fuel + 1) seen cursor =
        Parser.fieldsBehind (Parser.binary fuel 0) (Parser.moreFields fuel) reported key' seen afterKey := by
  have hopen := hat.not_closed filled (by omega)
  obtain ⟨key', afterKey, hkey, hbare, hafterKey⟩ := fieldKey hat hfuel named
  rw [Parser.moreFields, Parser.text_bind, Parser.atEnd_bind, ite_run, if_neg hopen, Parser.span_bind, Parser.bind_run hkey]
  exact ⟨_, key', afterKey, hbare, hafterKey, rfl⟩

/-- The last field is read up to the closing brace. -/
theorem fieldsLast {colon : Token} {fieldSpan : Span} (filled : spelling row ≠ "\x7d")
    (shorter : between.length + 2 ≤ row.length) (named : Accepted .key row key (colon :: between)) (separates : colon.spelling = ":")
    (valued : Accepted (.level 0) between value (closing :: rest)) (closes : closing.spelling = "\x7d") :
    Accepted .fields row (.object span [(fieldSpan, key, value)]) rest := by
  intro fuel cursor seen hat hfuel
  obtain ⟨fuel, rfl, hfuel⟩ := fuel_succ hfuel
  obtain ⟨reported, key', afterKey, hkey, hafterKey, hrun⟩ := field seen hat (by omega) filled (by rw [List.length_cons]; omega) named
  rw [hrun]
  unfold Parser.fieldsBehind
  obtain ⟨afterColon, hrun, hafterColon⟩ := hafterKey.expect_bind separates _ _
  obtain ⟨value', next, hvalue, hbare, hnext⟩ := valued fuel afterColon hafterColon (by omega)
  rw [hrun, Parser.bind_run hvalue, Parser.cover_bind, Parser.text_bind, ite_run, hnext.spelling, spelling_cons,
    if_neg (by rw [closes]; decide)]
  refine ⟨[({ reported with stop := next.stop }, key', value')], next, closing, ?_, ?_, closes, hnext⟩
  · rw [List.reverse_cons]
    rfl
  · simp only [Expr.bare, Expr.bareFields, hkey, hbare]

/-- A field and the comma behind it are read in front of the other fields. -/
theorem fieldsMore {colon comma : Token} {fields : List (Span × Expr × Expr)} {fieldSpan : Span} (filled : spelling row ≠ "\x7d")
    (shorterKey : between.length + 2 ≤ row.length) (shorter : after.length + 2 ≤ between.length)
    (named : Accepted .key row key (colon :: between)) (separates : colon.spelling = ":")
    (valued : Accepted (.level 0) between value (comma :: after)) (follows : comma.spelling = ",")
    (more : Accepted .fields after (.object span fields) rest) :
    Accepted .fields row (.object span ((fieldSpan, key, value) :: fields)) rest := by
  intro fuel cursor seen hat hfuel
  obtain ⟨fuel, rfl, hfuel⟩ := fuel_succ hfuel
  obtain ⟨reported, key', afterKey, hkey, hafterKey, hrun⟩ := field seen hat (by omega) filled (by rw [List.length_cons]; omega) named
  rw [hrun]
  unfold Parser.fieldsBehind
  obtain ⟨afterColon, hrun, hafterColon⟩ := hafterKey.expect_bind separates _ _
  obtain ⟨value', afterValue, hvalue, hbare, hafterValue⟩ := valued fuel afterColon hafterColon (by omega)
  rw [hrun, Parser.bind_run hvalue, Parser.cover_bind, Parser.text_bind, ite_run, hafterValue.spelling, spelling_cons,
    if_pos (beq_iff_eq.mpr follows)]
  obtain ⟨afterComma, hrun, hafterComma⟩ := hafterValue.advance_bind _
  rw [hrun]
  obtain ⟨fields', next, closing, hfields, hbares, hcloses, hnext⟩ := more fuel afterComma _ hafterComma (by omega)
  rw [hfields, List.reverse_cons, List.append_assoc]
  simp only [Expr.bare, Expr.object.injEq, true_and] at hbares
  refine ⟨_ :: fields', next, closing, rfl, ?_, hcloses, hnext⟩
  simp only [Expr.bare, Expr.bareFields, hkey, hbare, hbares]

/-- Without a suffix the expression is what has been read. -/
theorem suffixesDone (ends : ¬atSuffix row) : Accepted (.suffixes base) row base row := by
  intro fuel cursor start base' hat hfuel hbase
  obtain ⟨fuel, rfl, -⟩ := fuel_succ hfuel
  simp only [atSuffix, Bool.or_eq_true, not_or] at ends
  rw [Parser.suffixes, Parser.span_bind, Parser.atSymbol_bind, ite_run, hat.atSymbol, if_neg ends.1.1, Parser.atSymbol_bind, ite_run,
    hat.atSymbol, if_neg ends.1.2, Parser.atSymbol_bind, ite_run, hat.atSymbol, if_neg ends.2]
  exact ⟨base', cursor, rfl, hbase, hat⟩

/-- A member is read behind a dot, and then the suffixes behind it. -/
theorem member {field : Ident} (opens : opening.isSymbol ".") (named : name? token = some field)
    (more : Accepted (.suffixes (.member span base field)) row e rest) : Accepted (.suffixes base) (opening :: token :: row) e rest := by
  intro fuel cursor start base' hat hfuel hbase
  rw [List.length_cons, List.length_cons] at hfuel
  obtain ⟨fuel, rfl, hfuel⟩ := fuel_succ hfuel
  rw [Parser.suffixes, Parser.span_bind, Parser.atSymbol_bind, ite_run, if_pos (hat.atSymbol_pos opens)]
  obtain ⟨afterDot, hrun, hafterDot⟩ := hat.advance_bind _
  obtain ⟨field', next, hfield, hbare, hnext⟩ := hafterDot.ident named
  rw [hrun, Parser.bind_run hfield, Parser.cover_bind]
  exact more fuel next start _ hnext (by omega) (by simp only [Expr.bare, hbase, hbare])

/-- An index is read between its brackets, and then the suffixes behind it. -/
theorem index (opens : opening.isSymbol "[") (shorter : between.length + 2 ≤ row.length)
    (inner : Accepted (.level 0) row key (closing :: between)) (closes : closing.spelling = "]")
    (more : Accepted (.suffixes (.index span base key)) between e rest) : Accepted (.suffixes base) (opening :: row) e rest := by
  intro fuel cursor start base' hat hfuel hbase
  rw [List.length_cons] at hfuel
  obtain ⟨fuel, rfl, hfuel⟩ := fuel_succ hfuel
  rw [Parser.suffixes, Parser.span_bind, Parser.atSymbol_bind, ite_run, if_neg (hat.atSymbol_neg opens (by decide)),
    Parser.atSymbol_bind, ite_run, if_pos (hat.atSymbol_pos opens)]
  obtain ⟨inside, hrun, hinside⟩ := hat.advance_bind _
  obtain ⟨key', afterKey, hkey, hbare, hafterKey⟩ := inner fuel inside hinside (by omega)
  rw [hrun, Parser.bind_run hkey]
  obtain ⟨next, hrun, hnext⟩ := hafterKey.expect_bind closes _ _
  rw [hrun, Parser.cover_bind]
  exact more fuel next start _ hnext (by omega) (by simp only [Expr.bare, hbase, hbare])

/-- A call without arguments is read, and then the suffixes behind it. -/
theorem callEmpty (opens : opening.isSymbol "(") (closes : closing.spelling = ")")
    (more : Accepted (.suffixes (.call span base [])) row e rest) : Accepted (.suffixes base) (opening :: closing :: row) e rest := by
  intro fuel cursor start base' hat hfuel hbase
  rw [List.length_cons, List.length_cons] at hfuel
  obtain ⟨fuel, rfl, hfuel⟩ := fuel_succ hfuel
  rw [Parser.suffixes, Parser.span_bind, Parser.atSymbol_bind, ite_run, if_neg (hat.atSymbol_neg opens (by decide)),
    Parser.atSymbol_bind, ite_run, if_neg (hat.atSymbol_neg opens (by decide)), Parser.atSymbol_bind, ite_run,
    if_pos (hat.atSymbol_pos opens)]
  obtain ⟨inside, hrun, hinside⟩ := hat.advance_bind _
  rw [hrun, Parser.bind_run (hinside.upTo_empty closes _ _)]
  obtain ⟨next, hrun, hnext⟩ := hinside.expect_bind closes _ _
  rw [hrun, Parser.cover_bind]
  exact more fuel next start _ hnext (by omega) (by simp only [Expr.bare, hbase])

/-- A call is read if its first argument and the others are, and then the suffixes behind it. -/
theorem call {args : List Expr} (opens : opening.isSymbol "(") (filled : spelling row ≠ ")")
    (shorter : between.length + 1 ≤ row.length) (shorter' : after.length + 1 ≤ between.length)
    (arg : Accepted (.level 0) row first between) (others : Accepted (.args base) between (.call span base args) after)
    (more : Accepted (.suffixes (.call span base (first :: args))) after e rest) : Accepted (.suffixes base) (opening :: row) e rest := by
  intro fuel cursor start base' hat hfuel hbase
  rw [List.length_cons] at hfuel
  obtain ⟨fuel, rfl, hfuel⟩ := fuel_succ hfuel
  rw [Parser.suffixes, Parser.span_bind, Parser.atSymbol_bind, ite_run, if_neg (hat.atSymbol_neg opens (by decide)),
    Parser.atSymbol_bind, ite_run, if_neg (hat.atSymbol_neg opens (by decide)), Parser.atSymbol_bind, ite_run,
    if_pos (hat.atSymbol_pos opens)]
  obtain ⟨inside, hrun, hinside⟩ := hat.advance_bind _
  obtain ⟨first', afterFirst, hfirst, hbare, hafterFirst⟩ := arg fuel inside hinside (by omega)
  obtain ⟨args', afterArgs, closing, hargs, hbares, hcloses, hafterArgs⟩ := others fuel afterFirst [first'] hafterFirst (by omega)
  rw [hrun, Parser.bind_run ((hinside.upTo_filled filled hfirst _).trans hargs)]
  obtain ⟨next, hrun, hnext⟩ := hafterArgs.expect_bind hcloses _ _
  rw [hrun, Parser.cover_bind]
  simp only [Expr.bare, Expr.call.injEq, true_and] at hbares
  exact more fuel next start _ hnext (by omega) (by simp [Expr.bare, Expr.bares, hbase, hbare, hbares])

/-- In front of the closing bracket there are no other arguments. -/
theorem argsDone (closes : closing.spelling = ")") : Accepted (.args callee) (closing :: rest) (.call span callee []) rest := by
  intro fuel cursor seen hat hfuel
  obtain ⟨fuel, rfl, -⟩ := fuel_succ hfuel
  have hcomma : (spelling (closing :: rest) != ",") = true := by simp [spelling_cons, closes]
  rw [Parser.moreArgs, Parser.text_bind, ite_run, hat.spelling, if_pos hcomma]
  exact ⟨[], cursor, closing, by rw [List.append_nil]; rfl, rfl, closes, hat⟩

/-- A comma and an argument are read in front of the other arguments. -/
theorem argsMore {args : List Expr} (separates : opening.spelling = ",") (shorter : between.length + 1 ≤ row.length)
    (one : Accepted (.level 0) row item between) (more : Accepted (.args callee) between (.call span callee args) rest) :
    Accepted (.args callee) (opening :: row) (.call span callee (item :: args)) rest := by
  intro fuel cursor seen hat hfuel
  rw [List.length_cons] at hfuel
  obtain ⟨fuel, rfl, hfuel⟩ := fuel_succ hfuel
  have hcomma : ¬(spelling (opening :: row) != ",") = true := by simp [spelling_cons, separates]
  rw [Parser.moreArgs, Parser.text_bind, ite_run, hat.spelling, if_neg hcomma]
  obtain ⟨inside, hrun, hinside⟩ := hat.advance_bind _
  obtain ⟨item', afterItem, hitem, hbare, hafterItem⟩ := one fuel inside hinside (by omega)
  rw [hrun, Parser.bind_run hitem]
  obtain ⟨args', next, closing, hargs, hbares, hcloses, hnext⟩ := more fuel afterItem (item' :: seen) hafterItem (by omega)
  simp only [Expr.bare, Expr.call.injEq, true_and] at hbares
  exact ⟨item' :: args', next, closing, by rw [hargs]; simp, by simp [Expr.bare, Expr.bares, hbare, hbares], hcloses, hnext⟩

end Accepted

/-- Every phrase of the grammar is accepted by its reader. -/
theorem Reads.accepted {p : Phrase} {row rest : List Token} {e : Expr} (h : Reads p row e rest) : Accepted p row e rest := by
  induction h with
  | level binds operand _ ihOperand ihMore => exact .level binds operand.shorter ihOperand ihMore
  | operand binds _ ih => exact .operand binds ih
  | operatorsDone ends => exact .operatorsDone ends
  | operatorsMore operator operand _ ihOperand ihMore => exact .operatorsMore operator operand.shorter ihOperand ihMore
  | prefixed operator _ ih => exact .prefixed operator ih
  | suffixed bare primary _ ihPrimary ihMore => exact .suffixed bare primary.shorter ihPrimary ihMore
  | arrayEmpty opens closes => exact .arrayEmpty opens closes
  | array opens filled item _ ihItem ihMore => exact .array opens filled item.shorter ihItem ihMore
  | object opens _ ih => exact .object opens ih
  | bracketed opens _ closes ih => exact .bracketed opens ih closes
  | atom atom => exact .atom atom
  | itemsDone closes => exact .itemsDone closes
  | itemsComma separates closes => exact .itemsComma separates closes
  | itemsMore separates filled first _ ihFirst ihMore => exact .itemsMore separates filled first.shorter ihFirst ihMore
  | fieldsDone closes => exact .fieldsDone closes
  | fieldsLast filled named separates valued closes ihNamed ihValued =>
    exact .fieldsLast filled named.shorter ihNamed separates ihValued closes
  | fieldsMore filled named separates valued follows _ ihNamed ihValued ihMore =>
    exact .fieldsMore filled named.shorter valued.shorter ihNamed separates ihValued follows ihMore
  | keyName named => exact .inl ⟨_, _, rfl, named, rfl⟩
  | keyExpr computed _ ih => exact .inr ⟨computed, ih⟩
  | suffixesDone ends => exact .suffixesDone ends
  | member opens named _ ih => exact .member opens named ih
  | index opens inner closes _ ihInner ihMore => exact .index opens inner.shorter ihInner closes ihMore
  | callEmpty opens closes _ ih => exact .callEmpty opens closes ih
  | call opens filled arg others _ ihArg ihOthers ihMore => exact .call opens filled arg.shorter others.shorter ihArg ihOthers ihMore
  | argsDone closes => exact .argsDone closes
  | argsMore separates first _ ihFirst ihMore => exact .argsMore separates first.shorter ihFirst ihMore

/-- An expression of the grammar is accepted. -/
theorem Reads.expr {row rest : List Token} {e : Expr} (h : Reads (.level 0) row e rest) {cursor : Cursor} (hat : Parser.At cursor row) :
    Gives (Parser.expr cursor) e rest := by
  unfold Parser.expr
  rw [Parser.fuel_bind, hat.length]
  exact h.accepted _ cursor hat (by omega)

end HostScript.Script
