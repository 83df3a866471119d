import Mathlib
import HostScript.Proofs.Dialect.Slices
import HostScript.Proofs.Script.Reading

/-!
# Scripts that are read

Whatever a reader of statements accepts is a statement of the grammar, and its tree yields the tokens that it goes on over (`ReadStmt`).
An accepted script is therefore read as the tree that it is parsed to (`Module.ofSource_reads`), and its tokens, from the first to the last,
are those of this tree (`Module.ofSource_tokens`).
-/

namespace HostScript.Script

namespace Parser

variable {α β : Type} {cursor between next : Cursor} {row more : List Token} {fuel : Nat}

/-! ## What is read -/

/-- A statement is read: the reader goes on over its tokens, and the tree yields them. -/
def ReadStmt (cursor : Cursor) (s : Stmt) (next : Cursor) : Prop :=
  ∃ row, Takes cursor row next ∧ s.Yields row ∧ ReadsStmt .stmt cursor.rest s next.rest

/-- A block is read, with the braces around it. -/
def ReadBlock (cursor : Cursor) (body : Block) (next : Cursor) : Prop :=
  ∃ row, Takes cursor row next ∧ Stmt.Yields (.block body) row ∧
    ∃ brace rest, cursor.rest = brace :: rest ∧ brace.isSymbol "\x7b" ∧ ReadsStmt .body rest (.block body) next.rest

/-- Behind its brace, the statements of a block that is read belong to the grammar. -/
theorem ReadBlock.brace {body : Block} (h : ReadBlock cursor body next) :
    ∃ brace rest, cursor.rest = brace :: rest ∧ brace.spelling = "\x7b" ∧ ReadsStmt .body rest (.block body) next.rest := by
  obtain ⟨row, -, -, brace, rest, hc, hbrace, hreads⟩ := h
  exact ⟨brace, rest, hc, spelling_of_isSymbol hbrace, hreads⟩

/-! ## Statements without blocks -/

/-- The parameters behind the first one of a function. -/
theorem moreParams_reads {seen params : List Ident} (parts : List (Ident × Token)) (hlexed : Lexed cursor.rest)
    (hseen : seen.reverse = parts.map Prod.fst) (hnamed : ∀ p ∈ parts, name? p.2 = some p.1) (hfilled : parts ≠ [])
    (hrow : Separated (parts.map fun p => [p.2]) row) (h : moreParams fuel seen cursor = .ok (params, next)) :
    ∃ (others : List (Ident × Token)) (more : List Token), Takes cursor more next ∧ params = (parts ++ others).map Prod.fst ∧
      (∀ p ∈ parts ++ others, name? p.2 = some p.1) ∧ Separated ((parts ++ others).map fun p => [p.2]) (row ++ more) ∧
      ∀ closing rest, next.rest = closing :: rest → closing.spelling = ")" → ReadsParams cursor.rest (others.map Prod.fst) rest := by
  induction fuel generalizing seen parts row cursor with
  | zero => exact (fail_ne_ok h).elim
  | succ fuel ih =>
    rw [moreParams, text_bind, ite_run] at h
    split at h
    · obtain ⟨rfl, rfl⟩ := Prod.mk.inj (Except.ok.inj h)
      refine ⟨[], [], .refl cursor, by rw [List.append_nil, hseen], by rwa [List.append_nil], by rwa [List.append_nil, List.append_nil],
        fun closing rest hnext hcloses => ?_⟩
      rw [hnext]
      exact .done hcloses
    · rename_i hcomma
      obtain ⟨comma, after, hseparates, hcomma, h⟩ := spelling_takes hlexed (by simpa using hcomma) (by decide) h
      obtain ⟨param, between, hparam, h⟩ := bind_ok h
      obtain ⟨token, hname, hparam⟩ := ident_takes hparam
      have htakes : Takes cursor [comma, token] between := hcomma.trans hparam
      have hseparated : Separated ((parts ++ [(param, token)]).map fun p => [p.2]) (row ++ [comma, token]) := by
        rw [List.map_append]
        exact hrow.concat (fun hnil => hfilled (List.map_eq_nil_iff.mp hnil)) hseparates [token]
      have hseen' : (param :: seen).reverse = (parts ++ [(param, token)]).map Prod.fst := by
        rw [List.reverse_cons, hseen, List.map_append]
        rfl
      obtain ⟨others, more, hmore, hparams, hnamed, hseparated, hreads⟩ := ih _ (htakes.lexed hlexed) hseen'
        (List.forall_mem_append.mpr ⟨hnamed, List.forall_mem_singleton.mpr hname⟩)
        (List.append_ne_nil_of_right_ne_nil _ (List.cons_ne_nil _ _)) hseparated h
      rw [← List.append_cons] at hparams hnamed hseparated
      refine ⟨(param, token) :: others, _, htakes.trans hmore, hparams, hnamed, by rwa [← List.append_assoc],
        fun closing rest hnext hcloses => ?_⟩
      rw [htakes.rest]
      exact .more (spelling_of_isSymbol hseparates) hname (hreads closing rest hnext hcloses)

/-- The parameters of a function, behind its opening bracket. -/
theorem params_read {params : List Ident} (hlexed : Lexed cursor.rest)
    (h : upTo ")" ident (moreParams fuel) cursor = .ok (params, next)) :
    ∃ (parts : List (Ident × Token)) (row : List Token), Takes cursor row next ∧ params = parts.map Prod.fst ∧
      (∀ p ∈ parts, name? p.2 = some p.1) ∧ Separated (parts.map fun p => [p.2]) row ∧
      ∀ closing rest, next.rest = closing :: rest → closing.spelling = ")" → ReadsParamList cursor.rest params rest := by
  obtain ⟨-, rfl, rfl⟩ | ⟨hfilled, first, between, hfirst, h⟩ := upTo_cases h
  · refine ⟨[], [], .refl _, rfl, List.forall_mem_nil _, .nil, fun closing rest hnext hcloses => ?_⟩
    rw [hnext]
    exact .empty hcloses
  · obtain ⟨token, hnamed, hfirst⟩ := ident_takes hfirst
    obtain ⟨others, row, hmore, hparams, hlisted, hseparated, hreads⟩ := moreParams_reads [(first, token)]
      (hfirst.lexed hlexed) rfl (List.forall_mem_singleton.mpr hnamed) (List.cons_ne_nil _ _) (.single [token]) h
    refine ⟨_, token :: row, hfirst.trans hmore, hparams, hlisted, hseparated, fun closing rest hnext hcloses => ?_⟩
    rw [hfirst.rest] at hfilled ⊢
    rw [hparams]
    exact .names hfilled hnamed (hreads closing rest hnext hcloses)

/-- A `let` statement. -/
theorem letStmt_reads {s : Stmt} (hlexed : Lexed cursor.rest) (hat : Script.atWord "let" cursor.rest)
    (h : letStmt cursor = .ok (s, next)) : ReadStmt cursor s next := by
  unfold letStmt at h
  rw [span_bind] at h
  obtain ⟨word, afterWord, hbegins, hword, h⟩ := atWord_takes hat h
  obtain ⟨name, afterName, hname, h⟩ := bind_ok h
  obtain ⟨token, hnamed, hname⟩ := ident_takes hname
  have hname : Takes cursor [word, token] afterName := hword.trans hname
  obtain ⟨equals, afterEquals, hassigns, hequals, h⟩ := expect_takes (hname.lexed hlexed) (by decide) h
  have hequals : Takes cursor [word, token, equals] afterEquals := hname.trans hequals
  obtain ⟨value, row, afterValue, hvalue, hyields, hvalued, hbehind, h⟩ := expr_bind_reads (hequals.lexed hlexed) h
  obtain ⟨closing, after, hcloses, hclosing, h⟩ := expect_takes hbehind (by decide) h
  obtain ⟨rfl, rfl⟩ := Prod.mk.inj (Except.ok.inj h)
  have htakes : Takes cursor (word :: token :: equals :: row ++ [closing]) after := (hequals.trans hvalue).trans hclosing
  rw [htakes.whole (List.cons_ne_nil _ _)]
  refine ⟨_, htakes, .let_ hbegins hnamed hassigns hyields hcloses, ?_⟩
  rw [hclosing.rest] at hvalued
  rw [hequals.rest]
  exact .let_ hbegins hnamed (spelling_of_isSymbol hassigns) hvalued (spelling_of_isSymbol hcloses)

/-- A `return` statement, with a value or without one. -/
theorem returnStmt_reads {s : Stmt} (hlexed : Lexed cursor.rest) (hat : Script.atWord "return" cursor.rest)
    (h : returnStmt cursor = .ok (s, next)) : ReadStmt cursor s next := by
  unfold returnStmt at h
  rw [span_bind] at h
  obtain ⟨word, afterWord, hbegins, hword, h⟩ := atWord_takes hat h
  have hbehind := hword.lexed hlexed
  rw [atSymbol_bind] at h
  dsimp only at h
  rw [ite_run] at h
  split at h
  case isTrue =>
    rw [pure_bind_run] at h
    obtain ⟨closing, after, hcloses, hclosing, h⟩ := expect_takes hbehind (by decide) h
    obtain ⟨rfl, rfl⟩ := Prod.mk.inj (Except.ok.inj h)
    have htakes : Takes cursor [word, closing] after := hword.trans hclosing
    rw [htakes.whole (List.cons_ne_nil _ _)]
    refine ⟨_, htakes, .returnNothing hbegins hcloses, ?_⟩
    rw [htakes.rest]
    exact .returnNothing hbegins hcloses
  case isFalse hfilled =>
    obtain ⟨value, row, afterValue, hvalue, hyields, hvalued, hbehind, h⟩ := expr_bind_reads hbehind h
    rw [pure_bind_run] at h
    obtain ⟨closing, after, hcloses, hclosing, h⟩ := expect_takes hbehind (by decide) h
    obtain ⟨rfl, rfl⟩ := Prod.mk.inj (Except.ok.inj h)
    have htakes : Takes cursor (word :: row ++ [closing]) after := (hword.trans hvalue).trans hclosing
    rw [htakes.whole (List.cons_ne_nil _ _)]
    refine ⟨_, htakes, .return_ hbegins hyields hcloses, ?_⟩
    rw [hclosing.rest] at hvalued
    rw [hword.rest]
    exact .return_ hbegins hvalued (spelling_of_isSymbol hcloses) hfilled

/-- A statement of one word: its span is that of the word and the semicolon. -/
theorem loopControl_takes {make : Span → Stmt} {s : Stmt} {word : String} (hlexed : Lexed cursor.rest)
    (hat : Script.atWord word cursor.rest) (h : loopControl make cursor = .ok (s, next)) :
    ∃ token closing, token.isIdent word ∧ closing.isSymbol ";" ∧ Takes cursor [token, closing] next ∧
      s = make (wholeSpan [token, closing]) := by
  unfold loopControl at h
  rw [span_bind] at h
  obtain ⟨token, afterWord, hbegins, hword, h⟩ := atWord_takes hat h
  obtain ⟨closing, after, hcloses, hclosing, h⟩ := expect_takes (hword.lexed hlexed) (by decide) h
  obtain ⟨rfl, rfl⟩ := Prod.mk.inj (Except.ok.inj h)
  have htakes : Takes cursor [token, closing] after := hword.trans hclosing
  rw [htakes.whole (List.cons_ne_nil _ _)]
  exact ⟨token, closing, hbegins, hcloses, htakes, rfl⟩

/-- An assignment or an expression that stands as a statement. -/
theorem assignOrExpr_reads {s : Stmt} (hlexed : Lexed cursor.rest) (plain : ¬opensStatement cursor.rest)
    (h : assignOrExpr cursor = .ok (s, next)) : ReadStmt cursor s next := by
  unfold assignOrExpr at h
  rw [span_bind] at h
  obtain ⟨target, targetRow, afterTarget, htarget, htargeted, hreads, hbehind, h⟩ := expr_bind_reads hlexed h
  rcases atSymbol_cases h with ⟨hequals, h⟩ | ⟨-, h⟩
  · dsimp only at h
    rw [ite_run] at h
    split at h
    case isTrue =>
      obtain ⟨_, _, hfail, -⟩ := bind_ok h
      nomatch hfail
    case isFalse htargets =>
      obtain ⟨equals, afterEquals, hassigns, hequals, h⟩ := atSymbol_takes hequals h
      obtain ⟨value, row, afterValue, hvalue, hyields, hvalued, hbehind, h⟩ := expr_bind_reads (hequals.lexed hbehind) h
      obtain ⟨closing, after, hcloses, hclosing, h⟩ := expect_takes hbehind (by decide) h
      obtain ⟨rfl, rfl⟩ := Prod.mk.inj (Except.ok.inj h)
      have htakes : Takes cursor (targetRow ++ (equals :: row ++ [closing])) after :=
        htarget.trans ((hequals.trans hvalue).trans hclosing)
      rw [htakes.whole (List.append_ne_nil_of_left_ne_nil htargeted.ne_nil _)]
      rw [hequals.rest] at hreads
      rw [hclosing.rest] at hvalued
      exact ⟨_, htakes, .assign htargeted hassigns hyields hcloses,
        .assign plain hreads hassigns (by simpa using htargets) hvalued (spelling_of_isSymbol hcloses)⟩
  · obtain ⟨closing, after, hcloses, hclosing, h⟩ := expect_takes hbehind (by decide) h
    obtain ⟨rfl, rfl⟩ := Prod.mk.inj (Except.ok.inj h)
    have htakes : Takes cursor (targetRow ++ [closing]) after := htarget.trans hclosing
    rw [htakes.whole (List.append_ne_nil_of_left_ne_nil htargeted.ne_nil _)]
    rw [hclosing.rest] at hreads
    exact ⟨_, htakes, .expr htargeted hcloses, .expr plain hreads (spelling_of_isSymbol hcloses)⟩

/-- A condition between brackets. -/
theorem condition_reads {word : String} {cond : Expr} (hlexed : Lexed cursor.rest) (h : condition word cursor = .ok (cond, next)) :
    ∃ opening closing row, opening.isSymbol "(" ∧ cond.Yields row ∧ closing.isSymbol ")" ∧
      Takes cursor (opening :: row ++ [closing]) next ∧ ReadsCondition cursor.rest cond next.rest := by
  unfold condition at h
  obtain ⟨opening, inside, hopens, hopening, h⟩ := expect_takes hlexed (by decide) h
  obtain ⟨cond, row, afterCond, hcond, hyields, hasked, hbehind, h⟩ := expr_bind_reads (hopening.lexed hlexed) h
  obtain ⟨closing, after, hcloses, hclosing, h⟩ := expect_takes hbehind (by decide) h
  obtain ⟨rfl, rfl⟩ := Prod.mk.inj (Except.ok.inj h)
  refine ⟨opening, closing, row, hopens, hyields, hcloses, (hopening.trans hcond).trans hclosing, ?_⟩
  rw [hclosing.rest] at hasked
  rw [hopening.rest]
  exact .mk (spelling_of_isSymbol hopens) hasked (spelling_of_isSymbol hcloses)

/-! ## Statements with blocks -/

/-- A `function` statement. -/
theorem functionStmt_reads {block : Parser Block} {s : Stmt} (hlexed : Lexed cursor.rest) (hat : Script.atWord "function" cursor.rest)
    (ih : ∀ {cursor next body}, Lexed cursor.rest → block cursor = .ok (body, next) → ReadBlock cursor body next)
    (h : functionStmt fuel block cursor = .ok (s, next)) : ReadStmt cursor s next := by
  unfold functionStmt at h
  rw [span_bind] at h
  obtain ⟨word, afterWord, hbegins, hword, h⟩ := atWord_takes hat h
  obtain ⟨name, afterName, hname, h⟩ := bind_ok h
  obtain ⟨token, hnamed, hname⟩ := ident_takes hname
  have hname : Takes cursor [word, token] afterName := hword.trans hname
  obtain ⟨opening, inside, hopens, hopening, h⟩ := expect_takes (hname.lexed hlexed) (by decide) h
  have hbegun : Takes cursor [word, token, opening] inside := hname.trans hopening
  have hinside := hbegun.lexed hlexed
  obtain ⟨params, afterParams, hparams, h⟩ := bind_ok h
  obtain ⟨parts, row, hrow, rfl, hlisted, hseparated, hreads⟩ := params_read hinside hparams
  obtain ⟨closing, afterClosing, hcloses, hclosing, h⟩ := expect_takes (hrow.lexed hinside) (by decide) h
  obtain ⟨body, after, hbody, h⟩ := bind_ok h
  have hblock := ih ((hrow.trans hclosing).lexed hinside) hbody
  obtain ⟨brace, rest, hbrace, hbraced, hbodied⟩ := hblock.brace
  obtain ⟨bodyRow, hbody, hyields, -⟩ := hblock
  obtain ⟨rfl, rfl⟩ := Prod.mk.inj (Except.ok.inj h)
  have htakes : Takes cursor (word :: token :: opening :: row ++ closing :: bodyRow) after :=
    (hbegun.trans hrow).trans (hclosing.trans hbody)
  rw [htakes.whole (List.cons_ne_nil _ _)]
  refine ⟨_, htakes, .function hbegins hnamed hopens hlisted hseparated hcloses hyields, ?_⟩
  have hparams := hreads closing _ hclosing.rest (spelling_of_isSymbol hcloses)
  rw [hbrace] at hparams
  rw [hbegun.rest]
  exact .function hbegins hnamed (spelling_of_isSymbol hopens) hparams hbraced hbodied

/-- A `while` statement. -/
theorem whileStmt_reads {block : Parser Block} {s : Stmt} (hlexed : Lexed cursor.rest) (hat : Script.atWord "while" cursor.rest)
    (ih : ∀ {cursor next body}, Lexed cursor.rest → block cursor = .ok (body, next) → ReadBlock cursor body next)
    (h : whileStmt block cursor = .ok (s, next)) : ReadStmt cursor s next := by
  unfold whileStmt at h
  rw [span_bind] at h
  obtain ⟨word, afterWord, hbegins, hword, h⟩ := atWord_takes hat h
  obtain ⟨cond, afterCond, hcond, h⟩ := bind_ok h
  obtain ⟨opening, closing, row, hopens, hasked, hcloses, hcond, hreads⟩ := condition_reads (hword.lexed hlexed) hcond
  have hcondition : Takes cursor (conditionRow word opening closing row) afterCond := hword.trans hcond
  obtain ⟨body, after, hbody, h⟩ := bind_ok h
  have hblock := ih (hcondition.lexed hlexed) hbody
  obtain ⟨brace, rest, hbrace, hbraced, hbodied⟩ := hblock.brace
  obtain ⟨bodyRow, hbody, hyields, -⟩ := hblock
  obtain ⟨rfl, rfl⟩ := Prod.mk.inj (Except.ok.inj h)
  have htakes := hcondition.trans hbody
  rw [htakes.whole (List.cons_ne_nil _ _)]
  refine ⟨_, htakes, .while_ hbegins hopens hasked hcloses hyields, ?_⟩
  rw [hbrace] at hreads
  rw [hword.rest]
  exact .while_ hbegins hreads hbraced hbodied

/-- What the readers of blocks and statements accept with the given fuel. -/
structure ReadsStatements (fuel : Nat) : Prop where
  block {cursor next : Cursor} {body : Block} (hlexed : Lexed cursor.rest) (h : block fuel cursor = .ok (body, next)) :
    ReadBlock cursor body next
  blockStmts {opening : Span} {seen stmts : List Stmt} {cursor next : Cursor} (hlexed : Lexed cursor.rest)
    (h : blockStmts fuel opening seen cursor = .ok (stmts, next)) :
    ∃ (parts : List (Stmt × List Token)) (closing : Token), stmts = seen.reverse ++ parts.map Prod.fst ∧ (∀ p ∈ parts, p.1.Yields p.2) ∧
      closing.isSymbol "\x7d" ∧ Takes cursor ((parts.map Prod.snd).flatten ++ [closing]) next ∧
      ∀ span, ReadsStmt .body cursor.rest (.block (.mk span (parts.map Prod.fst))) next.rest
  conditional {cursor next : Cursor} {span : Span} {cond : Expr} {body : Block} {otherwise : Otherwise} (hlexed : Lexed cursor.rest)
    (hat : Script.atWord "if" cursor.rest) (h : conditional fuel cursor = .ok ((span, cond, body, otherwise), next)) :
    ReadStmt cursor (.if_ span cond body otherwise) next
  stmt {cursor next : Cursor} {s : Stmt} (hlexed : Lexed cursor.rest) (h : stmt fuel cursor = .ok (s, next)) : ReadStmt cursor s next

/-- A block with its braces. -/
theorem block_reads (ih : ReadsStatements fuel) {body : Block} (hlexed : Lexed cursor.rest)
    (h : block (fuel + 1) cursor = .ok (body, next)) : ReadBlock cursor body next := by
  rw [block, span_bind] at h
  obtain ⟨opening, inside, hopens, hopening, h⟩ := expect_takes hlexed (by decide) h
  obtain ⟨stmts, after, hstmts, h⟩ := bind_ok h
  obtain ⟨parts, closing, rfl, hyields, hcloses, hstmts, hreads⟩ := ih.blockStmts (hopening.lexed hlexed) hstmts
  obtain ⟨rfl, rfl⟩ := Prod.mk.inj (Except.ok.inj h)
  have htakes : Takes cursor (opening :: (parts.map Prod.snd).flatten ++ [closing]) after := hopening.trans hstmts
  rw [htakes.whole (List.cons_ne_nil _ _)]
  exact ⟨_, htakes, .block hopens hyields hcloses, opening, inside.rest, hopening.rest, hopens, hreads _⟩

/-- The statements of a block and its closing brace. -/
theorem blockStmts_reads (ih : ReadsStatements fuel) {opening : Span} {seen stmts : List Stmt} (hlexed : Lexed cursor.rest)
    (h : blockStmts (fuel + 1) opening seen cursor = .ok (stmts, next)) :
    ∃ (parts : List (Stmt × List Token)) (closing : Token), stmts = seen.reverse ++ parts.map Prod.fst ∧ (∀ p ∈ parts, p.1.Yields p.2) ∧
      closing.isSymbol "\x7d" ∧ Takes cursor ((parts.map Prod.snd).flatten ++ [closing]) next ∧
      ∀ span, ReadsStmt .body cursor.rest (.block (.mk span (parts.map Prod.fst))) next.rest := by
  rw [blockStmts] at h
  rcases atSymbol_cases h with ⟨hat, h⟩ | ⟨hfilled, h⟩
  · obtain ⟨closing, after, hcloses, hclosing, h⟩ := atSymbol_takes hat h
    obtain ⟨rfl, rfl⟩ := Prod.mk.inj (Except.ok.inj h)
    refine ⟨[], closing, (List.append_nil _).symm, List.forall_mem_nil _, hcloses, hclosing, fun span => ?_⟩
    rw [hclosing.rest]
    exact .bodyDone hcloses
  · rw [atEnd_bind, ite_run] at h
    split at h
    · nomatch h
    · obtain ⟨s, between, hs, h⟩ := bind_ok h
      obtain ⟨row, hs, hyields, hfirst⟩ := ih.stmt hlexed hs
      obtain ⟨parts, closing, rfl, hmore, hcloses, hrest, hreads⟩ := ih.blockStmts (hs.lexed hlexed) h
      have htakes := hs.trans hrest
      rw [← List.append_assoc] at htakes
      exact ⟨(s, row) :: parts, closing, by simp, List.forall_mem_cons.mpr ⟨hyields, hmore⟩, hcloses, htakes,
        fun span => .bodyMore hfilled hfirst (hreads span)⟩

/-- What follows the block of an `if`, behind the condition and the block that have been read. -/
theorem otherwise_reads (ih : ReadsStatements fuel) {word brace opening closing : Token} {row bodyRow rest front : List Token} {cond : Expr}
    {body : Block} {orElse : Otherwise} (hlexed : Lexed cursor.rest) (hbegins : word.isIdent "if") (hopens : opening.isSymbol "(")
    (hasked : cond.Yields row) (hcloses : closing.isSymbol ")") (hyields : Stmt.Yields (.block body) bodyRow)
    (hcond : ReadsCondition front cond (brace :: rest)) (hbraced : brace.spelling = "\x7b")
    (hbodied : ReadsStmt .body rest (.block body) cursor.rest)
    (h : otherwise (conditional fuel) (block fuel) cursor = .ok (orElse, next)) :
    ∃ more, Takes cursor more next ∧
      Stmt.Yields (.if_ (wholeSpan (conditionRow word opening closing row ++ (bodyRow ++ more))) cond body orElse)
        (conditionRow word opening closing row ++ (bodyRow ++ more)) ∧
      ∀ span, ReadsStmt .stmt (word :: front) (.if_ span cond body orElse) next.rest := by
  unfold otherwise at h
  rcases atWord_cases h with ⟨helse, h⟩ | ⟨hover, h⟩
  · obtain ⟨word', afterElse, hgoesOn, helse, h⟩ := atWord_takes helse h
    rw [helse.rest] at hbodied
    rcases atWord_cases h with ⟨hagain, h⟩ | ⟨hover, h⟩
    · obtain ⟨⟨span', cond', body', otherwise'⟩, after, hnested, h⟩ := bind_ok h
      obtain ⟨elseRow, hnested, hyields', hreads⟩ := ih.conditional (helse.lexed hlexed) hagain hnested
      obtain ⟨rfl, rfl⟩ := Prod.mk.inj (Except.ok.inj h)
      exact ⟨word' :: elseRow, helse.trans hnested, .ifElseIf hbegins hopens hasked hcloses hyields hgoesOn hyields',
        fun span => .ifElseIf hbegins hcond hbraced hbodied hgoesOn hagain hreads⟩
    · obtain ⟨body', after, hblock, h⟩ := bind_ok h
      have hblock := ih.block (helse.lexed hlexed) hblock
      obtain ⟨brace', rest', hbrace, hbraced', hbodied'⟩ := hblock.brace
      obtain ⟨elseRow, hblock, hyields', -⟩ := hblock
      obtain ⟨rfl, rfl⟩ := Prod.mk.inj (Except.ok.inj h)
      rw [hbrace] at hover hbodied
      exact ⟨word' :: elseRow, helse.trans hblock, .ifElse hbegins hopens hasked hcloses hyields hgoesOn hyields',
        fun span => .ifElse hbegins hcond hbraced hbodied hgoesOn hover hbraced' hbodied'⟩
  · obtain ⟨rfl, rfl⟩ := Prod.mk.inj (Except.ok.inj h)
    refine ⟨[], .refl _, ?_, fun span => .if_ hbegins hcond hbraced hbodied hover⟩
    rw [List.append_nil]
    exact .if_ hbegins hopens hasked hcloses hyields

/-- An `if` with its condition and its blocks. -/
theorem conditional_reads (ih : ReadsStatements fuel) {span : Span} {cond : Expr} {body : Block} {orElse : Otherwise}
    (hlexed : Lexed cursor.rest) (hat : Script.atWord "if" cursor.rest)
    (h : conditional (fuel + 1) cursor = .ok ((span, cond, body, orElse), next)) : ReadStmt cursor (.if_ span cond body orElse) next := by
  rw [conditional, span_bind] at h
  obtain ⟨word, afterWord, hbegins, hword, h⟩ := atWord_takes hat h
  obtain ⟨cond', afterCond, hcond, h⟩ := bind_ok h
  obtain ⟨opening, closing, row, hopens, hasked, hcloses, hcond, hreads⟩ := condition_reads (hword.lexed hlexed) hcond
  have hcondition : Takes cursor (conditionRow word opening closing row) afterCond := hword.trans hcond
  obtain ⟨body', afterBody, hbody, h⟩ := bind_ok h
  have hblock := ih.block (hcondition.lexed hlexed) hbody
  obtain ⟨brace, rest, hbrace, hbraced, hbodied⟩ := hblock.brace
  obtain ⟨bodyRow, hbody, hyields, -⟩ := hblock
  rw [hbrace] at hreads
  obtain ⟨orElse', after, hotherwise, h⟩ := bind_ok h
  obtain ⟨more, hmore, hyields, hreads⟩ := otherwise_reads ih ((hcondition.trans hbody).lexed hlexed) hbegins hopens hasked hcloses
    hyields hreads hbraced hbodied hotherwise
  obtain ⟨hfields, rfl⟩ := Prod.mk.inj (Except.ok.inj h)
  have htakes : Takes cursor (conditionRow word opening closing row ++ (bodyRow ++ more)) after := hcondition.trans (hbody.trans hmore)
  rw [htakes.whole (List.cons_ne_nil _ _)] at hfields
  cases hfields
  refine ⟨_, htakes, hyields, ?_⟩
  rw [hword.rest]
  exact hreads _

/-- A statement, by the word or the symbol with which it begins. -/
theorem stmt_reads (ih : ReadsStatements fuel) {s : Stmt} (hlexed : Lexed cursor.rest) (h : stmt (fuel + 1) cursor = .ok (s, next)) :
    ReadStmt cursor s next := by
  rw [stmt] at h
  rcases atWord_cases h with ⟨hat, h⟩ | ⟨hlet, h⟩
  · exact letStmt_reads hlexed hat h
  rcases atWord_cases h with ⟨hat, h⟩ | ⟨hfunction, h⟩
  · exact functionStmt_reads hlexed hat ih.block h
  rcases atWord_cases h with ⟨hat, h⟩ | ⟨hif, h⟩
  · obtain ⟨⟨span, cond, body, otherwise⟩, after, hconditional, h⟩ := bind_ok h
    obtain ⟨rfl, rfl⟩ := Prod.mk.inj (Except.ok.inj h)
    exact ih.conditional hlexed hat hconditional
  rcases atWord_cases h with ⟨hat, h⟩ | ⟨hwhile, h⟩
  · exact whileStmt_reads hlexed hat ih.block h
  rcases atWord_cases h with ⟨hat, h⟩ | ⟨hreturn, h⟩
  · exact returnStmt_reads hlexed hat h
  rcases atWord_cases h with ⟨hat, h⟩ | ⟨hbreak, h⟩
  · obtain ⟨token, closing, hbegins, hcloses, htakes, rfl⟩ := loopControl_takes hlexed hat h
    refine ⟨_, htakes, .break_ hbegins hcloses, ?_⟩
    rw [htakes.rest]
    exact .break_ hbegins (spelling_of_isSymbol hcloses)
  rcases atWord_cases h with ⟨hat, h⟩ | ⟨hcontinue, h⟩
  · obtain ⟨token, closing, hbegins, hcloses, htakes, rfl⟩ := loopControl_takes hlexed hat h
    refine ⟨_, htakes, .continue_ hbegins hcloses, ?_⟩
    rw [htakes.rest]
    exact .continue_ hbegins (spelling_of_isSymbol hcloses)
  rcases atWord_cases h with ⟨-, h⟩ | ⟨helse, h⟩
  · exact (fail_ne_ok h).elim
  rcases atSymbol_cases h with ⟨-, h⟩ | ⟨hopen, h⟩
  · obtain ⟨body, after, hbody, h⟩ := bind_ok h
    obtain ⟨rfl, rfl⟩ := Prod.mk.inj (Except.ok.inj h)
    obtain ⟨row, htakes, hyields, brace, rest, hc, hopens, hbodied⟩ := ih.block hlexed hbody
    refine ⟨row, htakes, hyields, ?_⟩
    rw [hc]
    exact .block hopens hbodied
  rcases atSymbol_cases h with ⟨-, h⟩ | ⟨hclose, h⟩
  · exact (fail_ne_ok h).elim
  refine assignOrExpr_reads hlexed ?_ h
  simp [opensStatement, hlet, hfunction, hif, hwhile, hreturn, hbreak, hcontinue, helse, hopen, hclose]

/-- Without fuel no statement is accepted. -/
theorem readsStatements_zero : ReadsStatements 0 where
  block _ h := by rw [block] at h; exact (fail_ne_ok h).elim
  blockStmts _ h := by rw [blockStmts] at h; exact (fail_ne_ok h).elim
  conditional _ _ h := by rw [conditional] at h; exact (fail_ne_ok h).elim
  stmt _ h := by rw [stmt] at h; exact (fail_ne_ok h).elim

/-- The readers of statements meet their specifications, whatever their fuel. -/
theorem readsStatements (fuel : Nat) : ReadsStatements fuel := by
  induction fuel with
  | zero => exact readsStatements_zero
  | succ fuel ih => exact ⟨block_reads ih, blockStmts_reads ih, conditional_reads ih, stmt_reads ih⟩

/-! ## Scripts -/

/-- Statements up to the end of the text. -/
theorem stmtsToEnd_reads {seen stmts : List Stmt} (hlexed : Lexed cursor.rest) (h : stmtsToEnd fuel seen cursor = .ok (stmts, next)) :
    ∃ parts : List (Stmt × List Token), stmts = seen.reverse ++ parts.map Prod.fst ∧ (∀ p ∈ parts, p.1.Yields p.2) ∧
      cursor.rest = (parts.map Prod.snd).flatten ∧ ReadsStmts cursor.rest (parts.map Prod.fst) := by
  induction fuel generalizing seen cursor with
  | zero => exact (fail_ne_ok h).elim
  | succ fuel ih =>
    rw [stmtsToEnd, atEnd_bind, ite_run] at h
    split at h
    case isTrue hend =>
      obtain ⟨rfl, rfl⟩ := Prod.mk.inj (Except.ok.inj h)
      rw [List.isEmpty_iff.mp hend]
      exact ⟨[], (List.append_nil _).symm, List.forall_mem_nil _, rfl, .done⟩
    case isFalse =>
      obtain ⟨s, between, hs, h⟩ := bind_ok h
      obtain ⟨row, hs, hyields, hfirst⟩ := (readsStatements fuel).stmt hlexed hs
      obtain ⟨parts, rfl, hmore, hrest, hreads⟩ := ih (hs.lexed hlexed) h
      refine ⟨(s, row) :: parts, by simp, List.forall_mem_cons.mpr ⟨hyields, hmore⟩, ?_, .more hfirst hreads⟩
      rw [hs.rest, hrest]
      rfl

/-- The import of the host in front of the statements, or nothing. -/
theorem hostImport_reads {host : Option HostImport} (hlexed : Lexed cursor.rest) (h : hostImport cursor = .ok (host, next)) :
    (host = none ∧ next = cursor ∧ ¬Script.atWord "use" cursor.rest) ∨
      ∃ imported row, host = some imported ∧ imported.Yields row ∧ Takes cursor row next ∧
        ∀ stmts, ReadsStmts next.rest stmts → ReadsModule cursor.rest ⟨some imported, stmts⟩ := by
  unfold hostImport at h
  rw [atWord_bind, ite_run] at h
  split at h
  case isTrue hplain =>
    obtain ⟨rfl, rfl⟩ := Prod.mk.inj (Except.ok.inj h)
    exact .inl ⟨rfl, rfl, by simpa using hplain⟩
  case isFalse himports =>
    rw [span_bind] at h
    obtain ⟨use, afterUse, hbegins, huse, h⟩ := atWord_takes (by simpa using himports) h
    rw [atWord_bind] at h
    dsimp only at h
    rw [ite_run] at h
    split at h
    case isTrue =>
      obtain ⟨_, _, hfail, -⟩ := bind_ok h
      exact (fail_ne_ok hfail).elim
    case isFalse hknown =>
      obtain ⟨word, afterWord, himports, hword, h⟩ := atWord_takes (by simpa using hknown) h
      have himport : Takes cursor [use, word] afterWord := huse.trans hword
      obtain ⟨as_, afterAs, hrenames, has, h⟩ := expect_takes_word (himport.lexed hlexed) (by decide) h
      have hrenamed : Takes cursor [use, word, as_] afterAs := himport.trans has
      obtain ⟨name, afterName, hname, h⟩ := bind_ok h
      obtain ⟨token, hnamed, hname⟩ := ident_takes hname
      have hname : Takes cursor [use, word, as_, token] afterName := hrenamed.trans hname
      obtain ⟨closing, after, hcloses, hclosing, h⟩ := expect_takes (hname.lexed hlexed) (by decide) h
      obtain ⟨rfl, rfl⟩ := Prod.mk.inj (Except.ok.inj h)
      have htakes : Takes cursor [use, word, as_, token, closing] after := hname.trans hclosing
      rw [htakes.whole (List.cons_ne_nil _ _)]
      refine .inr ⟨_, _, rfl, .mk hbegins himports hrenames hnamed hcloses, htakes, fun stmts hstmts => ?_⟩
      rw [htakes.rest]
      exact .hosted hbegins himports (spelling_of_isIdent hrenames) hnamed (spelling_of_isSymbol hcloses) hstmts

/-- A script that is accepted belongs to the grammar and yields all tokens. -/
theorem module_reads {m : Module} (hlexed : Lexed cursor.rest) (h : module cursor = .ok (m, next)) :
    ReadsModule cursor.rest m ∧ m.Yields cursor.rest := by
  unfold module at h
  obtain ⟨host, afterHost, hhost, h⟩ := bind_ok h
  rw [fuel_bind] at h
  obtain ⟨stmts, after, hstmts, h⟩ := bind_ok h
  obtain ⟨rfl, rfl⟩ := Prod.mk.inj (Except.ok.inj h)
  obtain ⟨rfl, rfl, hplain⟩ | ⟨imported, row, rfl, himported, htakes, hhosted⟩ := hostImport_reads hlexed hhost
  · obtain ⟨parts, rfl, hyields, hrest, hreads⟩ := stmtsToEnd_reads hlexed hstmts
    refine ⟨.plain hplain hreads, ?_⟩
    rw [hrest]
    exact .plain hyields
  · obtain ⟨parts, rfl, hyields, hrest, hreads⟩ := stmtsToEnd_reads (htakes.lexed hlexed) hstmts
    refine ⟨hhosted _ hreads, ?_⟩
    rw [htakes.rest, hrest]
    exact .hosted himported hyields

end Parser

variable {source : Source} {m : Module}

/-- What the reader of scripts accepts. -/
theorem Module.ofSource_read (h : Module.ofSource source = .ok m) : ReadsModule source.scan.tokens m ∧ m.Yields source.scan.tokens := by
  obtain ⟨⟨m', last⟩, hrun, rfl⟩ : ∃ result, Parser.run Parser.module source = .ok result ∧ result.1 = m := by
    unfold Module.ofSource at h
    cases hrun : Parser.run Parser.module source with
    | error fault =>
      rw [hrun] at h
      nomatch h
    | ok result =>
      rw [hrun] at h
      exact ⟨result, rfl, Except.ok.inj h⟩
  exact Parser.module_reads (scan_lexed source) (Parser.run_ok hrun)

/-- A source that is accepted as a script is read as the tree it is parsed to. -/
theorem Module.ofSource_reads (h : Module.ofSource source = .ok m) : ReadsModule source.scan.tokens m := (Module.ofSource_read h).1

/-- A script that is accepted yields the tokens of its source. -/
theorem Module.ofSource_yields (h : Module.ofSource source = .ok m) : m.Yields source.scan.tokens := (Module.ofSource_read h).2

open Dialect.Indexed (slice) in
/-- A source that is accepted as a script is cut into tokens up to its end. These tokens, each the text at its span, are those that the tree
yields, in their order and without any other. -/
theorem Module.ofSource_tokens {source : Source} {m : Module} (h : Module.ofSource source = .ok m) :
    (∃ gap pos, source.scan.ending = .complete gap pos) ∧ m.Yields source.scan.tokens ∧
      ∀ t ∈ source.scan.tokens, slice source.text.toList t.span.start t.span.stop = .ok t.text := by
  have hcomplete := (Lexer.scanFrom_complete_iff .origin _).mpr (Module.ofSource_lexes h)
  exact ⟨hcomplete, Module.ofSource_yields h, (Dialect.Indexed.records_scan source).text⟩

set_option maxRecDepth 2048 in
/-- Brackets around expressions, commas behind the last item and the last field, and keys that are names. -/
theorem Module.ofSource_tokens_open : ∃ m, Module.ofSource ⟨"case", "a=([1,]+\x7bb:2,\x7d);"⟩ = .ok m ∧
    m.Yields (Source.scan ⟨"case", "a=([1,]+\x7bb:2,\x7d);"⟩).tokens ∧
      (Source.scan ⟨"case", "a=([1,]+\x7bb:2,\x7d);"⟩).tokens.length = 16 := by
  have hparses : (Module.ofSource ⟨"case", "a=([1,]+\x7bb:2,\x7d);"⟩).toOption.isSome := by decide +kernel
  cases h : Module.ofSource ⟨"case", "a=([1,]+\x7bb:2,\x7d);"⟩ with
  | error fault =>
    rw [h] at hparses
    contradiction
  | ok m => exact ⟨m, rfl, (Module.ofSource_tokens h).2.1, by decide +kernel⟩

end HostScript.Script
