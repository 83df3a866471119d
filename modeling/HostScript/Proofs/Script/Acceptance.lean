import Mathlib
import HostScript.Proofs.Script.Recognition

/-!
# What belongs to the grammar is accepted

A row of tokens that is a statement of the grammar is accepted by the reader of statements, with a tree that is the same up to spans
(`ReadsStmt.accepted`). A text whose tokens are a script of the grammar is accepted as a script (`ReadsModule.ofSource`).
-/

namespace HostScript.Script

open HostScript.Script.Parser (At ite_run)
open HostScript.Dialect (shapes)

variable {row between after rest : List Token} {token word closing brace : Token} {cursor : Cursor} {fuel : Nat} {span : Span}
  {cond value target : Expr} {body : Block} {name : Ident}

/-! ## Every turn reads a token -/

/-- The parameters behind the first one take a token at least. -/
theorem ReadsParams.shorter {params : List Ident} (h : ReadsParams row params rest) : rest.length + 1 ≤ row.length := by
  induction h with
  | done _ => exact Nat.le_refl _
  | more _ _ _ ih => exact Nat.le_succ_of_le (Nat.le_succ_of_le ih)

/-- The parameters of a function take a token at least. -/
theorem ReadsParamList.shorter {params : List Ident} (h : ReadsParamList row params rest) : rest.length + 1 ≤ row.length := by
  cases h with
  | empty _ => exact Nat.le_refl _
  | names _ _ others => exact Nat.le_succ_of_le others.shorter

/-- A condition takes its brackets and a token between them. -/
theorem ReadsCondition.shorter (h : ReadsCondition row cond rest) : rest.length + 3 ≤ row.length := by
  obtain ⟨-, inner, -⟩ := h
  have := inner.shorter
  simp only [Phrase.least, List.length_cons] at this ⊢
  omega

/-- What is left of a row is shorter than the row. -/
theorem ReadsStmt.shorter {p : Passage} {s : Stmt} (h : ReadsStmt p row s rest) : rest.length + 1 ≤ row.length := by
  induction h with
  | let_ _ _ _ valued _ | return_ _ valued _ _ | expr _ valued _ =>
    have := valued.shorter
    simp only [Phrase.least, List.length_cons] at this ⊢
    omega
  | assign _ targeted _ _ valued _ =>
    have := targeted.shorter
    have := valued.shorter
    simp only [Phrase.least, List.length_cons] at *
    omega
  | function _ _ _ listed _ _ ih =>
    have := listed.shorter
    simp only [List.length_cons] at *
    omega
  | if_ _ asked _ _ _ ih | while_ _ asked _ _ ih =>
    have := asked.shorter
    simp only [List.length_cons] at *
    omega
  | ifElse _ asked _ _ _ _ _ _ ih ih' | ifElseIf _ asked _ _ _ _ _ ih ih' =>
    have := asked.shorter
    simp only [List.length_cons] at *
    omega
  | returnNothing | break_ | continue_ => exact Nat.le_succ _
  | bodyDone => exact Nat.le_refl _
  | block _ _ ih => exact Nat.le_succ_of_le ih
  | bodyMore _ _ _ ih ih' => omega

/-! ## Parts of statements -/

/-- What follows an expression that belongs to the grammar. -/
theorem Reads.expr_bind {β : Type} {e : Expr} (h : Reads (.level 0) row e rest) (hat : At cursor row) (f : Expr → Parser β) :
    ∃ e' next, (Parser.expr >>= f) cursor = f e' next ∧ e'.bare = e.bare ∧ At next rest := by
  obtain ⟨e', next, hrun, hbare, hnext⟩ := h.expr hat
  exact ⟨e', next, Parser.bind_run hrun f, hbare, hnext⟩

/-- A condition of the grammar is accepted. -/
theorem ReadsCondition.accepted (h : ReadsCondition row cond rest) (hat : At cursor row) (word : String) :
    ∃ cond' next, Parser.condition word cursor = .ok (cond', next) ∧ cond'.bare = cond.bare ∧ At next rest := by
  obtain ⟨opens, inner, closes⟩ := h
  unfold Parser.condition
  obtain ⟨inside, hrun, hinside⟩ := hat.expect_bind opens _ _
  rw [hrun]
  obtain ⟨cond', afterCond, hrun, hbare, hafterCond⟩ := inner.expr_bind hinside _
  rw [hrun]
  obtain ⟨next, hrun, hnext⟩ := hafterCond.expect_bind closes _ _
  rw [hrun]
  exact ⟨cond', next, rfl, hbare, hnext⟩

/-- The parameters behind the first one of a function are accepted. -/
theorem ReadsParams.accepted {params : List Ident} (h : ReadsParams row params rest) (hat : At cursor row) (seen : List Ident)
    (fuel : Nat) (hfuel : row.length + 1 ≤ fuel) :
    ∃ params' next closing, Parser.moreParams fuel seen cursor = .ok (seen.reverse ++ params', next) ∧
      params'.map Ident.bare = params.map Ident.bare ∧ closing.spelling = ")" ∧ At next (closing :: rest) := by
  induction h generalizing cursor seen fuel with
  | @done closing rest closes =>
    obtain ⟨fuel, rfl, -⟩ := Accepted.fuel_succ hfuel
    have hcomma : (spelling (closing :: rest) != ",") = true := by simp [spelling_cons, closes]
    rw [Parser.moreParams, Parser.text_bind, ite_run, hat.spelling, if_pos hcomma]
    exact ⟨[], cursor, closing, by rw [List.append_nil]; rfl, rfl, closes, hat⟩
  | @more comma token row rest param params separates named _ ih =>
    rw [List.length_cons, List.length_cons] at hfuel
    obtain ⟨fuel, rfl, hfuel⟩ := Accepted.fuel_succ hfuel
    have hcomma : ¬(spelling (comma :: token :: row) != ",") = true := by simp [spelling_cons, separates]
    rw [Parser.moreParams, Parser.text_bind, ite_run, hat.spelling, if_neg hcomma]
    obtain ⟨afterComma, hrun, hafterComma⟩ := hat.advance_bind _
    obtain ⟨param', afterParam, hparam, hbare, hafterParam⟩ := hafterComma.ident named
    rw [hrun, Parser.bind_run hparam]
    obtain ⟨params', next, closing, hparams, hbares, hcloses, hnext⟩ := ih hafterParam (param' :: seen) fuel (by omega)
    exact ⟨param' :: params', next, closing, by rw [hparams]; simp, by rw [List.map_cons, List.map_cons, hbare, hbares], hcloses, hnext⟩

/-- The parameters of a function are read, however many there are. -/
theorem ReadsParamList.accepted {params : List Ident} (h : ReadsParamList row params rest) (hat : At cursor row) (fuel : Nat)
    (hfuel : row.length + 1 ≤ fuel) :
    ∃ params' next closing, Parser.upTo ")" Parser.ident (Parser.moreParams fuel) cursor = .ok (params', next) ∧
      params'.map Ident.bare = params.map Ident.bare ∧ closing.spelling = ")" ∧ At next (closing :: rest) := by
  cases h with
  | @empty closing _ closes => exact ⟨[], cursor, closing, hat.upTo_empty closes _ _, rfl, closes, hat⟩
  | @names token row _ param params filled named others =>
    rw [List.length_cons] at hfuel
    obtain ⟨param', afterParam, hparam, hbare, hafterParam⟩ := hat.ident named
    obtain ⟨params', next, closing, hparams, hbares, hcloses, hnext⟩ := others.accepted hafterParam [param'] fuel (by omega)
    exact ⟨param' :: params', next, closing, (hat.upTo_filled filled hparam _).trans hparams, by simp [hbare, hbares], hcloses, hnext⟩

/-- Readers that come to stand in front of a row with the given statement, up to spans. -/
def GivesStmt (read : Except ParseFault (Stmt × Cursor)) (s : Stmt) (rest : List Token) : Prop :=
  ∃ s' next, read = .ok (s', next) ∧ s'.bare = s.bare ∧ At next rest

/-- What the readers of statements and of blocks do at a row: with enough fuel, they accept it and come to stand behind it. -/
def AcceptedStmt : Passage → List Token → Stmt → List Token → Prop
  | .stmt, row, s, rest => ∀ fuel cursor, At cursor row → 16 * row.length + 2 ≤ fuel → GivesStmt (Parser.stmt fuel cursor) s rest
  | .body, row, s, rest => ∀ fuel cursor opening seen, At cursor row → 16 * row.length + 3 ≤ fuel →
    ∃ stmts next, Parser.blockStmts fuel opening seen cursor = .ok (seen.reverse ++ stmts, next) ∧
      s.bare = .block (.mk .nowhere (Stmt.bares stmts)) ∧ At next rest

/-- A block is read if the rest of it is, behind its brace. -/
theorem AcceptedStmt.braced (bodied : AcceptedStmt .body row (.block body) rest) (hbrace : brace.spelling = "\x7b")
    (hat : At cursor (brace :: row)) (fuel : Nat) (hfuel : 16 * row.length + 4 ≤ fuel) :
    ∃ body' next, Parser.block fuel cursor = .ok (body', next) ∧ body'.bare = body.bare ∧ At next rest := by
  obtain ⟨fuel, rfl, hfuel⟩ := Accepted.fuel_succ hfuel
  rw [Parser.block, Parser.span_bind]
  obtain ⟨inside, hrun, hinside⟩ := hat.expect_bind hbrace _ _
  obtain ⟨stmts, next, hstmts, hbares, hnext⟩ := bodied fuel inside (Parser.currentSpan cursor) [] hinside (by omega)
  rw [hrun, Parser.bind_run hstmts]
  simp only [Stmt.bare, Stmt.block.injEq] at hbares
  exact ⟨_, next, rfl, hbares.symm, hnext⟩

/-! ## Statements -/

/-- In front of a word, and of no other one. -/
theorem Parser.At.atWord_pos (h : At cursor (token :: row)) {word : String} (hword : token.isIdent word) :
    Script.atWord word cursor.rest := by
  rw [h.atWord]
  exact hword

/-- A word is no other one. -/
theorem Parser.At.atWord_neg (h : At cursor (token :: row)) {word other : String} (hword : token.isIdent word)
    (hother : word ≠ other) : ¬Script.atWord other cursor.rest := by
  rw [h.atWord]
  intro hat
  simp only [Script.atWord, List.head?_cons, Option.any_some, Token.isIdent, Bool.and_eq_true, beq_iff_eq] at hat hword
  exact hother (hword.2.symm.trans hat.2)

/-- In front of a symbol there is no word. -/
theorem Parser.At.atWord_symbol (h : At cursor (token :: row)) {symbol : String} (hsymbol : token.isSymbol symbol) (word : String) :
    ¬Script.atWord word cursor.rest := by
  rw [h.atWord]
  intro hat
  simp only [Script.atWord, List.head?_cons, Option.any_some, Token.isIdent, Token.isSymbol, Bool.and_eq_true, beq_iff_eq] at hat hsymbol
  rw [hsymbol.1] at hat
  cases hat.1

namespace AcceptedStmt

/-- A `let` statement is accepted. -/
theorem let_ {equals : Token} (begins : word.isIdent "let") (named : name? token = some name) (assigns : equals.spelling = "=")
    (valued : Reads (.level 0) row value (closing :: rest)) (closes : closing.spelling = ";") :
    AcceptedStmt .stmt (word :: token :: equals :: row) (.let_ span name value) rest := by
  intro fuel cursor hat hfuel
  obtain ⟨fuel, rfl, -⟩ := Accepted.fuel_succ hfuel
  rw [Parser.stmt, Parser.atWord_bind, ite_run, if_pos (hat.atWord_pos begins)]
  unfold Parser.letStmt
  rw [Parser.span_bind]
  obtain ⟨afterWord, hrun, hafterWord⟩ := hat.advance_bind _
  obtain ⟨name', afterName, hname, hbare, hafterName⟩ := hafterWord.ident named
  rw [hrun, Parser.bind_run hname]
  obtain ⟨afterEquals, hrun, hafterEquals⟩ := hafterName.expect_bind assigns _ _
  rw [hrun]
  obtain ⟨value', afterValue, hrun, hbare', hafterValue⟩ := valued.expr_bind hafterEquals _
  rw [hrun]
  obtain ⟨next, hrun, hnext⟩ := hafterValue.expect_bind closes _ _
  rw [hrun]
  exact ⟨_, next, rfl, by simp only [Stmt.bare, hbare, hbare'], hnext⟩

/-- A function is accepted if its body is. -/
theorem function {opening : Token} {params : List Ident} (begins : word.isIdent "function") (named : name? token = some name)
    (opens : opening.spelling = "(") (listed : ReadsParamList row params (brace :: between)) (braced : brace.spelling = "\x7b")
    (bodied : AcceptedStmt .body between (.block body) rest) :
    AcceptedStmt .stmt (word :: token :: opening :: row) (.function span name params body) rest := by
  intro fuel cursor hat hfuel
  have hshorter := listed.shorter
  simp only [List.length_cons] at hfuel hshorter
  obtain ⟨fuel, rfl, hfuel⟩ := Accepted.fuel_succ hfuel
  rw [Parser.stmt, Parser.atWord_bind, ite_run, if_neg (hat.atWord_neg begins (by decide)), Parser.atWord_bind,
    ite_run, if_pos (hat.atWord_pos begins)]
  unfold Parser.functionStmt
  rw [Parser.span_bind]
  obtain ⟨afterWord, hrun, hafterWord⟩ := hat.advance_bind _
  obtain ⟨name', afterName, hname, hbare, hafterName⟩ := hafterWord.ident named
  rw [hrun, Parser.bind_run hname]
  obtain ⟨inside, hrun, hinside⟩ := hafterName.expect_bind opens _ _
  obtain ⟨params', afterParams, closing, hparams, hbares, hcloses, hafterParams⟩ := listed.accepted hinside fuel (by omega)
  rw [hrun, Parser.bind_run hparams]
  obtain ⟨afterClosing, hrun, hafterClosing⟩ := hafterParams.expect_bind hcloses _ _
  obtain ⟨body', next, hbody, hbare', hnext⟩ := bodied.braced braced hafterClosing fuel (by omega)
  rw [hrun, Parser.bind_run hbody]
  exact ⟨_, next, rfl, by simp only [Stmt.bare, hbare, hbares, hbare'], hnext⟩

/-- At the word `if` a statement is what the reader of conditionals gives. -/
theorem conditional_of_stmt {s : Stmt} {next : Cursor} (hat : atWord "if" cursor.rest)
    (h : Parser.stmt (fuel + 1) cursor = .ok (s, next)) : ∃ span cond body otherwise, s = .if_ span cond body otherwise ∧
      Parser.conditional fuel cursor = .ok ((span, cond, body, otherwise), next) := by
  obtain ⟨token, row, hc, htoken⟩ := Parser.cons_of_atWord hat
  have hother : ∀ word, "if" ≠ word → ¬atWord word cursor.rest := by
    intro word hword hat'
    rw [hc] at hat'
    simp only [atWord, List.head?_cons, Option.any_some, Token.isIdent, Bool.and_eq_true, beq_iff_eq] at hat' htoken
    exact hword (htoken.2.symm.trans hat'.2)
  rw [Parser.stmt, Parser.atWord_bind, ite_run, if_neg (hother _ (by decide)), Parser.atWord_bind, ite_run,
    if_neg (hother _ (by decide)), Parser.atWord_bind, ite_run, if_pos hat] at h
  obtain ⟨⟨span, cond, body, otherwise⟩, after, hconditional, h⟩ := Parser.bind_ok h
  obtain ⟨rfl, rfl⟩ := Prod.mk.inj (Except.ok.inj h)
  exact ⟨span, cond, body, otherwise, rfl, hconditional⟩

/-- An `if` is read if what follows its first block is. -/
theorem conditional {otherwise : Otherwise} (begins : word.isIdent "if") (asked : ReadsCondition row cond (brace :: between))
    (braced : brace.spelling = "\x7b") (bodied : AcceptedStmt .body between (.block body) after)
    (shorter : after.length + 1 ≤ between.length)
    (h : ∀ (fuel : Nat) (afterBody : Cursor), At afterBody after → 16 * after.length + 5 ≤ fuel → ∃ otherwise' next,
      Parser.otherwise (Parser.conditional fuel) (Parser.block fuel) afterBody = .ok (otherwise', next) ∧
        otherwise'.bare = otherwise.bare ∧ At next rest) :
    AcceptedStmt .stmt (word :: row) (.if_ span cond body otherwise) rest := by
  intro fuel cursor hat hfuel
  have hshorter := asked.shorter
  simp only [List.length_cons] at hfuel hshorter
  obtain ⟨fuel, rfl⟩ : ∃ fuel', fuel = fuel' + 2 := ⟨fuel - 2, by omega⟩
  rw [Parser.stmt, Parser.atWord_bind, ite_run, if_neg (hat.atWord_neg begins (by decide)), Parser.atWord_bind,
    ite_run, if_neg (hat.atWord_neg begins (by decide)), Parser.atWord_bind, ite_run, if_pos (hat.atWord_pos begins)]
  obtain ⟨span', cond', body', otherwise', next, hconditional, hbares, hnext⟩ : ∃ span' cond' body' otherwise' next,
      Parser.conditional (fuel + 1) cursor = .ok ((span', cond', body', otherwise'), next) ∧
        (Stmt.if_ span' cond' body' otherwise').bare = (Stmt.if_ span cond body otherwise).bare ∧ At next rest := by
    rw [Parser.conditional, Parser.span_bind]
    obtain ⟨afterWord, hrun, hafterWord⟩ := hat.advance_bind _
    obtain ⟨cond', afterCond, hcond, hbare, hafterCond⟩ := asked.accepted hafterWord "if"
    obtain ⟨body', afterBody, hbody, hbare', hafterBody⟩ := bodied.braced braced hafterCond fuel (by omega)
    obtain ⟨otherwise', next, hotherwise, hbare'', hnext⟩ := h fuel afterBody hafterBody (by omega)
    rw [hrun, Parser.bind_run hcond, Parser.bind_run hbody, Parser.bind_run hotherwise]
    exact ⟨_, cond', body', otherwise', next, rfl, by simp only [Stmt.bare, hbare, hbare', hbare''], hnext⟩
  rw [Parser.bind_run hconditional]
  exact ⟨_, next, rfl, hbares, hnext⟩

/-- An `if` is accepted if its block is. -/
theorem if_ (begins : word.isIdent "if") (asked : ReadsCondition row cond (brace :: between)) (braced : brace.spelling = "\x7b")
    (shorter : rest.length + 1 ≤ between.length) (bodied : AcceptedStmt .body between (.block body) rest) (ends : ¬atWord "else" rest) :
    AcceptedStmt .stmt (word :: row) (.if_ span cond body .nothing) rest := by
  refine conditional begins asked braced bodied shorter fun fuel afterBody hafterBody _ => ?_
  unfold Parser.otherwise
  rw [Parser.atWord_bind, ite_run, hafterBody.atWord, if_neg ends]
  exact ⟨.nothing, afterBody, rfl, rfl, hafterBody⟩

/-- An `if` with another block is accepted if both blocks are. -/
theorem ifElse {orElse brace' : Token} {more : List Token} {alternate : Block} (begins : word.isIdent "if")
    (asked : ReadsCondition row cond (brace :: between)) (braced : brace.spelling = "\x7b")
    (shorter : more.length + 3 ≤ between.length) (bodied : AcceptedStmt .body between (.block body) (orElse :: brace' :: more))
    (goesOn : orElse.isIdent "else") (ends : ¬brace'.isIdent "if") (braced' : brace'.spelling = "\x7b")
    (bodied' : AcceptedStmt .body more (.block alternate) rest) :
    AcceptedStmt .stmt (word :: row) (.if_ span cond body (.block alternate)) rest := by
  refine conditional begins asked braced bodied shorter fun fuel afterBody hafterBody hfuel => ?_
  unfold Parser.otherwise
  rw [Parser.atWord_bind, ite_run, if_pos (hafterBody.atWord_pos goesOn)]
  obtain ⟨afterElse, hrun, hafterElse⟩ := hafterBody.advance_bind _
  rw [hrun, Parser.atWord_bind, ite_run, hafterElse.atWord,
    if_neg (show ¬atWord "if" (brace' :: more) = true from ends)]
  simp only [List.length_cons] at hfuel
  obtain ⟨alternate', next, hblock, hbare, hnext⟩ := bodied'.braced braced' hafterElse fuel (by omega)
  rw [Parser.bind_run hblock]
  exact ⟨.block alternate', next, rfl, by simp only [Otherwise.bare, hbare], hnext⟩

/-- An `if` with another `if` behind `else` is accepted if both are. -/
theorem ifElseIf {orElse : Token} {more : List Token} {cond' : Expr} {body' : Block} {otherwise : Otherwise} {span' : Span}
    (begins : word.isIdent "if") (asked : ReadsCondition row cond (brace :: between)) (braced : brace.spelling = "\x7b")
    (shorter : more.length + 2 ≤ between.length) (bodied : AcceptedStmt .body between (.block body) (orElse :: more))
    (goesOn : orElse.isIdent "else") (again : atWord "if" more)
    (alternate : AcceptedStmt .stmt more (.if_ span' cond' body' otherwise) rest) :
    AcceptedStmt .stmt (word :: row) (.if_ span cond body (.elseIf span' cond' body' otherwise)) rest := by
  refine conditional begins asked braced bodied shorter fun fuel afterBody hafterBody hfuel => ?_
  unfold Parser.otherwise
  rw [Parser.atWord_bind, ite_run, if_pos (hafterBody.atWord_pos goesOn)]
  obtain ⟨afterElse, hrun, hafterElse⟩ := hafterBody.advance_bind _
  rw [hrun, Parser.atWord_bind, ite_run, if_pos (by rw [hafterElse.atWord]; exact again)]
  simp only [List.length_cons] at hfuel
  obtain ⟨s, next, hstmt, hbare, hnext⟩ := alternate (fuel + 1) afterElse hafterElse (by omega)
  obtain ⟨span'', cond'', body'', otherwise', rfl, hconditional⟩ :=
    conditional_of_stmt (by rw [hafterElse.atWord]; exact again) hstmt
  rw [Parser.bind_run hconditional]
  simp only [Stmt.bare, Stmt.if_.injEq, true_and] at hbare
  exact ⟨.elseIf span'' cond'' body'' otherwise', next, rfl, by simp only [Otherwise.bare, hbare], hnext⟩

/-- A loop is accepted if its body is. -/
theorem while_ (begins : word.isIdent "while") (asked : ReadsCondition row cond (brace :: between)) (braced : brace.spelling = "\x7b")
    (bodied : AcceptedStmt .body between (.block body) rest) : AcceptedStmt .stmt (word :: row) (.while_ span cond body) rest := by
  intro fuel cursor hat hfuel
  have hshorter := asked.shorter
  simp only [List.length_cons] at hfuel hshorter
  obtain ⟨fuel, rfl, -⟩ := Accepted.fuel_succ hfuel
  rw [Parser.stmt, Parser.atWord_bind, ite_run, if_neg (hat.atWord_neg begins (by decide)), Parser.atWord_bind,
    ite_run, if_neg (hat.atWord_neg begins (by decide)), Parser.atWord_bind, ite_run, if_neg (hat.atWord_neg begins (by decide)),
    Parser.atWord_bind, ite_run, if_pos (hat.atWord_pos begins)]
  unfold Parser.whileStmt
  rw [Parser.span_bind]
  obtain ⟨afterWord, hrun, hafterWord⟩ := hat.advance_bind _
  obtain ⟨cond', afterCond, hcond, hbare, hafterCond⟩ := asked.accepted hafterWord "while"
  obtain ⟨body', next, hbody, hbare', hnext⟩ := bodied.braced braced hafterCond fuel (by omega)
  rw [hrun, Parser.bind_run hcond, Parser.bind_run hbody]
  exact ⟨_, next, rfl, by simp only [Stmt.bare, hbare, hbare'], hnext⟩

/-- At the word `return` a statement is what the reader of returns gives. -/
theorem stmt_return (hat : At cursor (word :: row)) (begins : word.isIdent "return") :
    Parser.stmt (fuel + 1) cursor = Parser.returnStmt cursor := by
  rw [Parser.stmt, Parser.atWord_bind, ite_run, if_neg (hat.atWord_neg begins (by decide)), Parser.atWord_bind,
    ite_run, if_neg (hat.atWord_neg begins (by decide)), Parser.atWord_bind, ite_run, if_neg (hat.atWord_neg begins (by decide)),
    Parser.atWord_bind, ite_run, if_neg (hat.atWord_neg begins (by decide)), Parser.atWord_bind, ite_run,
    if_pos (hat.atWord_pos begins)]

/-- A `return` without a value is accepted. -/
theorem returnNothing (begins : word.isIdent "return") (closes : closing.isSymbol ";") :
    AcceptedStmt .stmt (word :: closing :: rest) (.return_ span none) rest := by
  intro fuel cursor hat hfuel
  obtain ⟨fuel, rfl, -⟩ := Accepted.fuel_succ hfuel
  rw [stmt_return hat begins]
  unfold Parser.returnStmt
  rw [Parser.span_bind]
  obtain ⟨afterWord, hrun, hafterWord⟩ := hat.advance_bind _
  rw [hrun, Parser.atSymbol_bind]
  dsimp only
  rw [ite_run, if_pos (hafterWord.atSymbol_pos closes), Parser.pure_bind_run]
  obtain ⟨next, hrun, hnext⟩ := hafterWord.expect_bind (spelling_of_isSymbol closes) _ _
  rw [hrun]
  exact ⟨_, next, rfl, rfl, hnext⟩

/-- A `return` with a value is accepted. -/
theorem return_ (begins : word.isIdent "return") (valued : Reads (.level 0) row value (closing :: rest))
    (closes : closing.spelling = ";") (filled : ¬atSymbol ";" row) :
    AcceptedStmt .stmt (word :: row) (.return_ span (some value)) rest := by
  intro fuel cursor hat hfuel
  obtain ⟨fuel, rfl, -⟩ := Accepted.fuel_succ hfuel
  rw [stmt_return hat begins]
  unfold Parser.returnStmt
  rw [Parser.span_bind]
  obtain ⟨afterWord, hrun, hafterWord⟩ := hat.advance_bind _
  rw [hrun, Parser.atSymbol_bind, hafterWord.atSymbol]
  dsimp only
  rw [ite_run, if_neg filled]
  obtain ⟨value', afterValue, hrun, hbare, hafterValue⟩ := valued.expr_bind hafterWord _
  rw [hrun, Parser.pure_bind_run]
  obtain ⟨next, hrun, hnext⟩ := hafterValue.expect_bind closes _ _
  rw [hrun]
  exact ⟨_, next, rfl, by simp only [Stmt.bare, Option.map_some, hbare], hnext⟩

/-- A statement of one word is accepted up to its semicolon. -/
theorem loopControl (make : Span → Stmt) (hat : At cursor (word :: closing :: rest)) (closes : closing.spelling = ";") :
    ∃ span next, Parser.loopControl make cursor = .ok (make span, next) ∧ At next rest := by
  unfold Parser.loopControl
  rw [Parser.span_bind]
  obtain ⟨afterWord, hrun, hafterWord⟩ := hat.advance_bind _
  rw [hrun]
  obtain ⟨next, hrun, hnext⟩ := hafterWord.expect_bind closes _ _
  rw [hrun]
  exact ⟨_, next, rfl, hnext⟩

/-- A `break` is accepted. -/
theorem break_ (begins : word.isIdent "break") (closes : closing.spelling = ";") :
    AcceptedStmt .stmt (word :: closing :: rest) (.break_ span) rest := by
  intro fuel cursor hat hfuel
  obtain ⟨fuel, rfl, -⟩ := Accepted.fuel_succ hfuel
  rw [Parser.stmt, Parser.atWord_bind, ite_run, if_neg (hat.atWord_neg begins (by decide)), Parser.atWord_bind,
    ite_run, if_neg (hat.atWord_neg begins (by decide)), Parser.atWord_bind, ite_run, if_neg (hat.atWord_neg begins (by decide)),
    Parser.atWord_bind, ite_run, if_neg (hat.atWord_neg begins (by decide)), Parser.atWord_bind, ite_run,
    if_neg (hat.atWord_neg begins (by decide)), Parser.atWord_bind, ite_run, if_pos (hat.atWord_pos begins)]
  obtain ⟨span', next, hrun, hnext⟩ := loopControl .break_ hat closes
  exact ⟨_, next, hrun, rfl, hnext⟩

/-- A `continue` is accepted. -/
theorem continue_ (begins : word.isIdent "continue") (closes : closing.spelling = ";") :
    AcceptedStmt .stmt (word :: closing :: rest) (.continue_ span) rest := by
  intro fuel cursor hat hfuel
  obtain ⟨fuel, rfl, -⟩ := Accepted.fuel_succ hfuel
  rw [Parser.stmt, Parser.atWord_bind, ite_run, if_neg (hat.atWord_neg begins (by decide)), Parser.atWord_bind,
    ite_run, if_neg (hat.atWord_neg begins (by decide)), Parser.atWord_bind, ite_run, if_neg (hat.atWord_neg begins (by decide)),
    Parser.atWord_bind, ite_run, if_neg (hat.atWord_neg begins (by decide)), Parser.atWord_bind, ite_run,
    if_neg (hat.atWord_neg begins (by decide)), Parser.atWord_bind, ite_run, if_neg (hat.atWord_neg begins (by decide)),
    Parser.atWord_bind, ite_run, if_pos (hat.atWord_pos begins)]
  obtain ⟨span', next, hrun, hnext⟩ := loopControl .continue_ hat closes
  exact ⟨_, next, hrun, rfl, hnext⟩

/-- Where no word begins a statement, the reader of statements tries the symbols. -/
theorem stmt_wordless
    (h : ∀ word ∈ ["let", "function", "if", "while", "return", "break", "continue", "else"], ¬atWord word cursor.rest) :
    Parser.stmt (fuel + 1) cursor = (do
      if ← Parser.atSymbol "\x7b" then return .block (← Parser.block fuel)
      else if ← Parser.atSymbol "\x7d" then Parser.fail .unbalancedBrace
      else Parser.assignOrExpr : Parser Stmt) cursor := by
  rw [Parser.stmt, Parser.atWord_bind, ite_run, if_neg (h _ (by decide)), Parser.atWord_bind, ite_run,
    if_neg (h _ (by decide)), Parser.atWord_bind, ite_run, if_neg (h _ (by decide)), Parser.atWord_bind, ite_run,
    if_neg (h _ (by decide)), Parser.atWord_bind, ite_run, if_neg (h _ (by decide)), Parser.atWord_bind, ite_run,
    if_neg (h _ (by decide)), Parser.atWord_bind, ite_run, if_neg (h _ (by decide)), Parser.atWord_bind, ite_run,
    if_neg (h _ (by decide))]

/-- A block that stands as a statement is accepted if the rest of it is. -/
theorem block (opens : brace.isSymbol "\x7b") (bodied : AcceptedStmt .body row (.block body) rest) :
    AcceptedStmt .stmt (brace :: row) (.block body) rest := by
  intro fuel cursor hat hfuel
  simp only [List.length_cons] at hfuel
  obtain ⟨fuel, rfl, hfuel⟩ := Accepted.fuel_succ hfuel
  rw [stmt_wordless fun word _ => hat.atWord_symbol opens word, Parser.atSymbol_bind, ite_run, if_pos (hat.atSymbol_pos opens)]
  obtain ⟨body', next, hbody, hbare, hnext⟩ := bodied.braced (spelling_of_isSymbol opens) hat fuel (by omega)
  rw [Parser.bind_run hbody]
  exact ⟨_, next, rfl, by simp only [Stmt.bare, hbare], hnext⟩

/-- Where nothing else begins, an assignment or an expression is read. -/
theorem stmt_plain (hat : At cursor row) (plain : ¬opensStatement row) : Parser.stmt (fuel + 1) cursor = Parser.assignOrExpr cursor := by
  simp only [opensStatement, Bool.or_eq_true, List.any_eq_true, not_or, not_exists, not_and] at plain
  obtain ⟨⟨hwords, hopen⟩, hclose⟩ := plain
  rw [stmt_wordless fun word hword => by rw [hat.atWord]; exact hwords word hword, Parser.atSymbol_bind, ite_run, hat.atSymbol,
    if_neg hopen, Parser.atSymbol_bind, ite_run, hat.atSymbol, if_neg hclose]

/-- Whether an expression can be assigned to does not depend on its spans. -/
theorem isTarget_bare (e : Expr) : e.bare.isTarget = e.isTarget := by cases e <;> rfl

/-- An assignment is accepted. -/
theorem assign {equals : Token} (plain : ¬opensStatement row) (targeted : Reads (.level 0) row target (equals :: between))
    (assigns : equals.isSymbol "=") (assignable : target.isTarget) (valued : Reads (.level 0) between value (closing :: rest))
    (closes : closing.spelling = ";") : AcceptedStmt .stmt row (.assign span target value) rest := by
  intro fuel cursor hat hfuel
  obtain ⟨fuel, rfl, -⟩ := Accepted.fuel_succ hfuel
  rw [stmt_plain hat plain]
  unfold Parser.assignOrExpr
  rw [Parser.span_bind]
  obtain ⟨target', afterTarget, hrun, hbare, hafterTarget⟩ := targeted.expr_bind hat _
  have htarget : ¬(!target'.isTarget) = true := by
    rw [← isTarget_bare, hbare, isTarget_bare, assignable]
    decide
  rw [hrun, Parser.atSymbol_bind, ite_run, if_pos (hafterTarget.atSymbol_pos assigns)]
  dsimp only
  rw [ite_run, if_neg htarget]
  obtain ⟨afterEquals, hrun, hafterEquals⟩ := hafterTarget.advance_bind _
  rw [hrun]
  obtain ⟨value', afterValue, hrun, hbare', hafterValue⟩ := valued.expr_bind hafterEquals _
  rw [hrun]
  obtain ⟨next, hrun, hnext⟩ := hafterValue.expect_bind closes _ _
  rw [hrun]
  exact ⟨_, next, rfl, by simp only [Stmt.bare, hbare, hbare'], hnext⟩

/-- An expression that stands as a statement is accepted. -/
theorem expr (plain : ¬opensStatement row) (valued : Reads (.level 0) row value (closing :: rest)) (closes : closing.spelling = ";") :
    AcceptedStmt .stmt row (.expr span value) rest := by
  intro fuel cursor hat hfuel
  obtain ⟨fuel, rfl, -⟩ := Accepted.fuel_succ hfuel
  rw [stmt_plain hat plain]
  unfold Parser.assignOrExpr
  rw [Parser.span_bind]
  obtain ⟨value', afterValue, hrun, hbare, hafterValue⟩ := valued.expr_bind hat _
  have hequals : ¬atSymbol "=" (closing :: rest) := by
    intro h
    exact absurd (closes.symm.trans (spelling_of_isSymbol h)) (by decide)
  rw [hrun, Parser.atSymbol_bind, ite_run, hafterValue.atSymbol, if_neg hequals]
  obtain ⟨next, hrun, hnext⟩ := hafterValue.expect_bind closes _ _
  rw [hrun]
  exact ⟨_, next, rfl, by simp only [Stmt.bare, hbare], hnext⟩

/-- In front of its closing brace a block has no statements. -/
theorem bodyDone (closes : closing.isSymbol "\x7d") : AcceptedStmt .body (closing :: rest) (.block (.mk span [])) rest := by
  intro fuel cursor opening seen hat hfuel
  obtain ⟨fuel, rfl, -⟩ := Accepted.fuel_succ hfuel
  rw [Parser.blockStmts, Parser.atSymbol_bind, ite_run, if_pos (hat.atSymbol_pos closes)]
  obtain ⟨next, hrun, hnext⟩ := hat.advance_bind _
  rw [hrun]
  exact ⟨[], next, by rw [List.append_nil]; rfl, rfl, hnext⟩

/-- A statement of a block is accepted in front of the others. -/
theorem bodyMore {s : Stmt} {stmts : List Stmt} (filled : ¬atSymbol "\x7d" row) (shorter : between.length + 1 ≤ row.length)
    (first : AcceptedStmt .stmt row s between) (more : AcceptedStmt .body between (.block (.mk span stmts)) rest) :
    AcceptedStmt .body row (.block (.mk span (s :: stmts))) rest := by
  intro fuel cursor opening seen hat hfuel
  obtain ⟨fuel, rfl, hfuel⟩ := Accepted.fuel_succ hfuel
  have hopen : ¬cursor.rest.isEmpty = true := by
    rw [List.isEmpty_iff_length_eq_zero, hat.length]
    omega
  rw [Parser.blockStmts, Parser.atSymbol_bind, ite_run, hat.atSymbol, if_neg filled, Parser.atEnd_bind, ite_run, if_neg hopen]
  obtain ⟨s', afterStmt, hstmt, hbare, hafterStmt⟩ := first fuel cursor hat (by omega)
  rw [Parser.bind_run hstmt]
  obtain ⟨stmts', next, hstmts, hbares, hnext⟩ := more fuel afterStmt opening (s' :: seen) hafterStmt (by omega)
  rw [hstmts, List.reverse_cons, List.append_assoc]
  simp only [Stmt.bare, Block.bare, Stmt.block.injEq, Block.mk.injEq, true_and] at hbares
  exact ⟨s' :: stmts', next, rfl, by simp only [Stmt.bare, Block.bare, Stmt.bares, hbare, hbares], hnext⟩

end AcceptedStmt

/-- Every statement of the grammar is accepted. -/
theorem ReadsStmt.accepted {p : Passage} {s : Stmt} (h : ReadsStmt p row s rest) : AcceptedStmt p row s rest := by
  induction h with
  | let_ begins named assigns valued closes => exact .let_ begins named assigns valued closes
  | function begins named opens listed braced _ ih => exact .function begins named opens listed braced ih
  | if_ begins asked braced bodied ends ih => exact .if_ begins asked braced bodied.shorter ih ends
  | ifElse begins asked braced bodied goesOn ends braced' _ ih ih' =>
    exact .ifElse begins asked braced bodied.shorter ih goesOn ends braced' ih'
  | ifElseIf begins asked braced bodied goesOn again _ ih ih' =>
    exact .ifElseIf begins asked braced bodied.shorter ih goesOn again ih'
  | while_ begins asked braced _ ih => exact .while_ begins asked braced ih
  | returnNothing begins closes => exact .returnNothing begins closes
  | return_ begins valued closes filled => exact .return_ begins valued closes filled
  | break_ begins closes => exact .break_ begins closes
  | continue_ begins closes => exact .continue_ begins closes
  | block opens _ ih => exact .block opens ih
  | assign plain targeted assigns assignable valued closes => exact .assign plain targeted assigns assignable valued closes
  | expr plain valued closes => exact .expr plain valued closes
  | bodyDone closes => exact .bodyDone closes
  | bodyMore filled first _ ihFirst ihMore => exact .bodyMore filled first.shorter ihFirst ihMore

/-! ## Scripts -/

/-- Statements up to the end of the text are accepted, whatever has been read in front of them. -/
theorem ReadsStmts.accepted {stmts : List Stmt} (h : ReadsStmts row stmts) (hat : At cursor row) (seen : List Stmt) (fuel : Nat)
    (hfuel : 16 * row.length + 3 ≤ fuel) :
    ∃ stmts' next, Parser.stmtsToEnd fuel seen cursor = .ok (seen.reverse ++ stmts', next) ∧ Stmt.bares stmts' = Stmt.bares stmts := by
  induction h generalizing cursor seen fuel with
  | done =>
    obtain ⟨fuel, rfl, -⟩ := Accepted.fuel_succ hfuel
    have hend : cursor.rest.isEmpty = true := by
      rw [List.isEmpty_iff_length_eq_zero, hat.length]
      rfl
    rw [Parser.stmtsToEnd, Parser.atEnd_bind, ite_run, if_pos hend]
    exact ⟨[], cursor, by rw [List.append_nil]; rfl, rfl⟩
  | more first _ ih =>
    have hshorter := first.shorter
    obtain ⟨fuel, rfl, hfuel⟩ := Accepted.fuel_succ hfuel
    have hopen : ¬cursor.rest.isEmpty = true := by
      rw [List.isEmpty_iff_length_eq_zero, hat.length]
      omega
    rw [Parser.stmtsToEnd, Parser.atEnd_bind, ite_run, if_neg hopen]
    obtain ⟨s', afterStmt, hstmt, hbare, hafterStmt⟩ := first.accepted fuel cursor hat (by omega)
    rw [Parser.bind_run hstmt]
    obtain ⟨stmts', next, hstmts, hbares⟩ := ih hafterStmt (s' :: seen) fuel (by omega)
    rw [hstmts, List.reverse_cons, List.append_assoc]
    exact ⟨s' :: stmts', next, rfl, by simp only [Stmt.bares, hbare, hbares]⟩

/-- Where no host is imported, nothing is read. -/
theorem hostImport_none (hat : At cursor row) (plain : ¬atWord "use" row) : Parser.hostImport cursor = .ok (none, cursor) := by
  unfold Parser.hostImport
  rw [Parser.atWord_bind, ite_run, hat.atWord, if_pos (by simpa using plain)]
  rfl

/-- The import of the host is accepted. -/
theorem hostImport_some {use host as_ : Token} (hat : At cursor (use :: host :: as_ :: token :: closing :: row))
    (begins : use.isIdent "use") (imports : host.isIdent "host") (renames : as_.spelling = "as") (named : name? token = some name)
    (closes : closing.spelling = ";") :
    ∃ span name' next, Parser.hostImport cursor = .ok (some ⟨span, name'⟩, next) ∧ name'.bare = name.bare ∧ At next row := by
  have himports : ¬(!atWord "use" cursor.rest) = true := by simpa using hat.atWord_pos begins
  unfold Parser.hostImport
  rw [Parser.atWord_bind, ite_run, if_neg himports, Parser.span_bind]
  obtain ⟨afterUse, hrun, hafterUse⟩ := hat.advance_bind _
  have hknown : ¬(!atWord "host" afterUse.rest) = true := by simpa using hafterUse.atWord_pos imports
  rw [hrun, Parser.atWord_bind]
  dsimp only
  rw [ite_run, if_neg hknown]
  obtain ⟨afterHost, hrun, hafterHost⟩ := hafterUse.advance_bind _
  rw [hrun]
  obtain ⟨afterAs, hrun, hafterAs⟩ := hafterHost.expect_bind renames _ _
  rw [hrun]
  obtain ⟨name', afterName, hname, hbare, hafterName⟩ := hafterAs.ident named
  rw [Parser.bind_run hname]
  obtain ⟨next, hrun, hnext⟩ := hafterName.expect_bind closes _ _
  rw [hrun]
  exact ⟨_, name', next, rfl, hbare, hnext⟩

/-- Every script of the grammar is accepted. -/
theorem ReadsModule.accepted {m : Module} (h : ReadsModule row m) (hat : At cursor row) :
    ∃ m' next, Parser.module cursor = .ok (m', next) ∧ m'.bare = m.bare := by
  unfold Parser.module
  cases h with
  | plain plain body =>
    obtain ⟨stmts', next, hstmts, hbares⟩ := body.accepted hat [] (16 * (row.length + 1)) (by omega)
    rw [Parser.bind_run (hostImport_none hat plain), Parser.fuel_bind, hat.length, Parser.bind_run hstmts]
    exact ⟨_, next, rfl, by simp [Module.bare, hbares]⟩
  | hosted begins imports renames named closes body =>
    obtain ⟨span, name', afterImport, himport, hbare, hafterImport⟩ := hostImport_some hat begins imports renames named closes
    obtain ⟨stmts', next, hstmts, hbares⟩ := body.accepted hafterImport [] (16 * (afterImport.rest.length + 1))
      (by rw [hafterImport.length]; omega)
    rw [Parser.bind_run himport, Parser.fuel_bind, Parser.bind_run hstmts]
    exact ⟨_, next, rfl, by simp [Module.bare, hbare, hbares]⟩

/-- A text that is cut into tokens up to its end, and whose tokens have the shapes of a script of the grammar, is accepted. -/
theorem ReadsModule.ofSource {m : Module} (h : ReadsModule row m) {source : Source} (hshapes : shapes source.scan.tokens = shapes row)
    (hending : ∃ gap here, source.scan.ending = .complete gap here) : ∃ m', Module.ofSource source = .ok m' ∧ m'.bare = m.bare := by
  have hat : At ⟨source.scan.tokens, source.scan.ending, 0⟩ row := ⟨hshapes, hending⟩
  obtain ⟨m', next, hrun, hbare⟩ := h.accepted hat
  refine ⟨m', ?_, hbare⟩
  unfold Module.ofSource Parser.run
  simp only [Parser.checkEnding_complete hat.whole, bind, Except.bind, hrun]
  rfl

end HostScript.Script
