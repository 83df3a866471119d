import Mathlib
import HostScript.Proofs.Script.Grammar
import HostScript.Proofs.Script.Printed

/-!
# The tokens of a tree

`Expr.Yields`, `Stmt.Yields` and `Module.Yields` say which rows of tokens a tree is written as, from its first token to its last one, with
every word, operator, bracket and separator. A tree leaves three things open: a complete expression may stand in brackets, a comma may
stand behind the last item of an array or field of an object, and a key that is a string may be written as a name. Nothing else is left
open, and each node has the span of the row that it is written as.
-/

namespace HostScript.Script

/-! ## Spans of rows -/

/-- The span of the first token of a row. -/
def firstSpan (row : List Token) : Span := (row.head?.map Token.span).getD .nowhere

/-- The span of the last token of a row. -/
def lastSpan (row : List Token) : Span := (row.getLast?.map Token.span).getD .nowhere

/-- The span of a row that is reported at the place of another span. -/
def spanAt (reported : Span) (row : List Token) : Span := { reported with start := (firstSpan row).start, stop := (lastSpan row).stop }

/-- The span of a row, reported at its first token. -/
def wholeSpan (row : List Token) : Span := spanAt (firstSpan row) row

/-! ## Rows with commas -/

/-- Rows one after the other, with a comma between every two neighbours. -/
inductive Separated : List (List Token) → List Token → Prop
  | nil : Separated [] []
  | single (row : List Token) : Separated [row] row
  | cons {comma : Token} {row next rest : List Token} {rows : List (List Token)} (separates : comma.isSymbol ",")
    (others : Separated (next :: rows) rest) : Separated (row :: next :: rows) (row ++ comma :: rest)

/-- Rows with commas between them. If there are any, a comma may stand behind the last one. -/
inductive Listed (rows : List (List Token)) : List Token → Prop
  | plain {row : List Token} (separated : Separated rows row) : Listed rows row
  | trailing {comma : Token} {row : List Token} (separated : Separated rows row) (filled : rows ≠ []) (trails : comma.isSymbol ",") :
    Listed rows (row ++ [comma])

/-- One more row behind a comma. -/
theorem Separated.concat {rows : List (List Token)} {row : List Token} (h : Separated rows row) (hfilled : rows ≠ []) {comma : Token}
    (hcomma : comma.isSymbol ",") (last : List Token) : Separated (rows ++ [last]) (row ++ comma :: last) := by
  induction h with
  | nil => exact absurd rfl hfilled
  | single row => exact .cons hcomma (.single last)
  | cons separates others ih =>
    rw [List.append_assoc]
    exact .cons separates (ih (List.cons_ne_nil _ _))

/-- Taking away the commas leaves the rows one after the other. -/
theorem Separated.sublist {rows : List (List Token)} {row : List Token} (h : Separated rows row) : rows.flatten.Sublist row := by
  induction h with
  | nil => exact .slnil
  | single row => simp
  | cons separates others ih =>
    rw [List.flatten_cons]
    exact (List.Sublist.refl _).append (ih.cons _)

theorem Listed.sublist {rows : List (List Token)} {row : List Token} (h : Listed rows row) : rows.flatten.Sublist row := by
  cases h with
  | plain separated => exact separated.sublist
  | trailing separated _ _ => exact separated.sublist.trans (List.sublist_append_left _ _)

/-! ## Expressions -/

/-- A field of an object as it is written. -/
structure FieldPart where
  key : Expr
  keyRow : List Token
  colon : Token
  value : Expr
  valueRow : List Token

namespace FieldPart

/-- The row of a field. -/
def row (p : FieldPart) : List Token := p.keyRow ++ p.colon :: p.valueRow

/-- The field in the tree. -/
def field (p : FieldPart) : Span × Expr × Expr := (wholeSpan p.row, p.key, p.value)

/-- The key is a string that is written as a name. -/
def IsBare (p : FieldPart) : Prop :=
  ∃ token name, p.keyRow = [token] ∧ name? token = some name ∧ p.key = .string name.span name.name

end FieldPart

/-- An expression is written as a row of tokens. -/
inductive Expr.Yields : Expr → List Token → Prop
  | atom {token : Token} {e : Expr} (read : atom? token = some e) : Expr.Yields e [token]
  | array {opening closing : Token} {parts : List (Expr × List Token)} {row : List Token} (opens : opening.isSymbol "[")
    (items : ∀ p ∈ parts, Expr.Yields p.1 p.2) (listed : Listed (parts.map Prod.snd) row) (closes : closing.isSymbol "]") :
    Expr.Yields (.array (wholeSpan (opening :: row ++ [closing])) (parts.map Prod.fst)) (opening :: row ++ [closing])
  | object {opening closing : Token} {parts : List FieldPart} {row : List Token} (opens : opening.isSymbol "\x7b")
    (keys : ∀ p ∈ parts, ¬p.IsBare → Expr.Yields p.key p.keyRow) (colons : ∀ p ∈ parts, p.colon.isSymbol ":")
    (values : ∀ p ∈ parts, Expr.Yields p.value p.valueRow) (listed : Listed (parts.map FieldPart.row) row)
    (closes : closing.isSymbol "\x7d") :
    Expr.Yields (.object (wholeSpan (opening :: row ++ [closing])) (parts.map FieldPart.field)) (opening :: row ++ [closing])
  | call {opening closing : Token} {callee : Expr} {calleeRow row : List Token} {parts : List (Expr × List Token)}
    (called : Expr.Yields callee calleeRow) (opens : opening.isSymbol "(") (args : ∀ p ∈ parts, Expr.Yields p.1 p.2)
    (separated : Separated (parts.map Prod.snd) row) (closes : closing.isSymbol ")") :
    Expr.Yields (.call (spanAt opening.span (calleeRow ++ (opening :: row ++ [closing]))) callee (parts.map Prod.fst))
      (calleeRow ++ (opening :: row ++ [closing]))
  | unary {token : Token} {op : UnaryOp} {operand : Expr} {row : List Token} (operator : token.isSymbol op.symbol)
    (operated : Expr.Yields operand row) : Expr.Yields (.unary (wholeSpan (token :: row)) op operand) (token :: row)
  | member {dot token : Token} {base : Expr} {baseRow : List Token} {field : Ident} (based : Expr.Yields base baseRow)
    (dotted : dot.isSymbol ".") (named : name? token = some field) :
    Expr.Yields (.member (spanAt dot.span (baseRow ++ [dot, token])) base field) (baseRow ++ [dot, token])
  | index {opening closing : Token} {base key : Expr} {baseRow row : List Token} (based : Expr.Yields base baseRow)
    (opens : opening.isSymbol "[") (keyed : Expr.Yields key row) (closes : closing.isSymbol "]") :
    Expr.Yields (.index (spanAt opening.span (baseRow ++ (opening :: row ++ [closing]))) base key)
      (baseRow ++ (opening :: row ++ [closing]))
  | binary {token : Token} {op : BinaryOp} {left right : Expr} {leftRow rightRow : List Token} (first : Expr.Yields left leftRow)
    (operator : token.isSymbol op.symbol) (second : Expr.Yields right rightRow) :
    Expr.Yields (.binary (spanAt token.span (leftRow ++ token :: rightRow)) op left right) (leftRow ++ token :: rightRow)
  /-- Brackets around an expression leave no trace in the tree. -/
  | bracketed {opening closing : Token} {e : Expr} {row : List Token} (opens : opening.isSymbol "(") (inner : Expr.Yields e row)
    (closes : closing.isSymbol ")") : Expr.Yields e (opening :: row ++ [closing])

/-- An expression is written as at least one token. -/
theorem Expr.Yields.ne_nil {e : Expr} {row : List Token} (h : e.Yields row) : row ≠ [] := by
  cases h <;> simp

/-! ## Statements -/

/-- The row of a condition in brackets behind a word. -/
def conditionRow (word opening closing : Token) (row : List Token) : List Token := word :: opening :: row ++ [closing]

/-- A statement is written as a row of tokens. -/
inductive Stmt.Yields : Stmt → List Token → Prop
  | let_ {word token equals closing : Token} {name : Ident} {value : Expr} {row : List Token} (begins : word.isIdent "let")
    (named : name? token = some name) (assigns : equals.isSymbol "=") (valued : value.Yields row) (closes : closing.isSymbol ";") :
    Stmt.Yields (.let_ (wholeSpan (word :: token :: equals :: row ++ [closing])) name value)
      (word :: token :: equals :: row ++ [closing])
  | assign {equals closing : Token} {target value : Expr} {targetRow row : List Token} (targeted : target.Yields targetRow)
    (assigns : equals.isSymbol "=") (valued : value.Yields row) (closes : closing.isSymbol ";") :
    Stmt.Yields (.assign (wholeSpan (targetRow ++ (equals :: row ++ [closing]))) target value)
      (targetRow ++ (equals :: row ++ [closing]))
  | function {word token opening closing : Token} {name : Ident} {params : List (Ident × Token)} {row bodyRow : List Token} {body : Block}
    (begins : word.isIdent "function") (named : name? token = some name) (opens : opening.isSymbol "(")
    (listed : ∀ p ∈ params, name? p.2 = some p.1) (separated : Separated (params.map fun p => [p.2]) row) (closes : closing.isSymbol ")")
    (bodied : Stmt.Yields (.block body) bodyRow) :
    Stmt.Yields (.function (wholeSpan (word :: token :: opening :: row ++ closing :: bodyRow)) name (params.map Prod.fst) body)
      (word :: token :: opening :: row ++ closing :: bodyRow)
  | if_ {word opening closing : Token} {cond : Expr} {row bodyRow : List Token} {body : Block} (begins : word.isIdent "if")
    (opens : opening.isSymbol "(") (asked : cond.Yields row) (closes : closing.isSymbol ")")
    (bodied : Stmt.Yields (.block body) bodyRow) :
    Stmt.Yields (.if_ (wholeSpan (conditionRow word opening closing row ++ bodyRow)) cond body .nothing)
      (conditionRow word opening closing row ++ bodyRow)
  | ifElse {word opening closing orElse : Token} {cond : Expr} {row bodyRow elseRow : List Token} {body alternate : Block}
    (begins : word.isIdent "if") (opens : opening.isSymbol "(") (asked : cond.Yields row) (closes : closing.isSymbol ")")
    (bodied : Stmt.Yields (.block body) bodyRow) (goesOn : orElse.isIdent "else")
    (alternative : Stmt.Yields (.block alternate) elseRow) :
    Stmt.Yields (.if_ (wholeSpan (conditionRow word opening closing row ++ (bodyRow ++ orElse :: elseRow))) cond body (.block alternate))
      (conditionRow word opening closing row ++ (bodyRow ++ orElse :: elseRow))
  | ifElseIf {word opening closing orElse : Token} {cond cond' : Expr} {row bodyRow elseRow : List Token} {body body' : Block}
    {span : Span} {otherwise : Otherwise} (begins : word.isIdent "if") (opens : opening.isSymbol "(") (asked : cond.Yields row)
    (closes : closing.isSymbol ")") (bodied : Stmt.Yields (.block body) bodyRow) (goesOn : orElse.isIdent "else")
    (alternative : Stmt.Yields (.if_ span cond' body' otherwise) elseRow) :
    Stmt.Yields (.if_ (wholeSpan (conditionRow word opening closing row ++ (bodyRow ++ orElse :: elseRow))) cond body
        (.elseIf span cond' body' otherwise))
      (conditionRow word opening closing row ++ (bodyRow ++ orElse :: elseRow))
  | while_ {word opening closing : Token} {cond : Expr} {row bodyRow : List Token} {body : Block} (begins : word.isIdent "while")
    (opens : opening.isSymbol "(") (asked : cond.Yields row) (closes : closing.isSymbol ")")
    (bodied : Stmt.Yields (.block body) bodyRow) :
    Stmt.Yields (.while_ (wholeSpan (conditionRow word opening closing row ++ bodyRow)) cond body)
      (conditionRow word opening closing row ++ bodyRow)
  | return_ {word closing : Token} {value : Expr} {row : List Token} (begins : word.isIdent "return") (valued : value.Yields row)
    (closes : closing.isSymbol ";") :
    Stmt.Yields (.return_ (wholeSpan (word :: row ++ [closing])) (some value)) (word :: row ++ [closing])
  | returnNothing {word closing : Token} (begins : word.isIdent "return") (closes : closing.isSymbol ";") :
    Stmt.Yields (.return_ (wholeSpan [word, closing]) none) [word, closing]
  | break_ {word closing : Token} (begins : word.isIdent "break") (closes : closing.isSymbol ";") :
    Stmt.Yields (.break_ (wholeSpan [word, closing])) [word, closing]
  | continue_ {word closing : Token} (begins : word.isIdent "continue") (closes : closing.isSymbol ";") :
    Stmt.Yields (.continue_ (wholeSpan [word, closing])) [word, closing]
  | block {opening closing : Token} {parts : List (Stmt × List Token)} (opens : opening.isSymbol "\x7b")
    (stmts : ∀ p ∈ parts, Stmt.Yields p.1 p.2) (closes : closing.isSymbol "\x7d") :
    Stmt.Yields (.block (.mk (wholeSpan (opening :: (parts.map Prod.snd).flatten ++ [closing])) (parts.map Prod.fst)))
      (opening :: (parts.map Prod.snd).flatten ++ [closing])
  | expr {closing : Token} {e : Expr} {row : List Token} (expressed : e.Yields row) (closes : closing.isSymbol ";") :
    Stmt.Yields (.expr (wholeSpan (row ++ [closing])) e) (row ++ [closing])

/-- A statement is written as at least one token. -/
theorem Stmt.Yields.ne_nil {s : Stmt} {row : List Token} (h : s.Yields row) : row ≠ [] := by
  cases h <;> simp [conditionRow]

/-- The import of the host is written as a row of tokens. -/
inductive HostImport.Yields : HostImport → List Token → Prop
  | mk {use host as_ token closing : Token} {name : Ident} (begins : use.isIdent "use") (imports : host.isIdent "host")
    (renames : as_.isIdent "as") (named : name? token = some name) (closes : closing.isSymbol ";") :
    HostImport.Yields ⟨wholeSpan [use, host, as_, token, closing], name⟩ [use, host, as_, token, closing]

/-- A script is written as a row of tokens. -/
inductive Module.Yields : Module → List Token → Prop
  | plain {parts : List (Stmt × List Token)} (stmts : ∀ p ∈ parts, p.1.Yields p.2) :
    Module.Yields ⟨none, parts.map Prod.fst⟩ (parts.map Prod.snd).flatten
  | hosted {host : HostImport} {row : List Token} {parts : List (Stmt × List Token)} (imported : host.Yields row)
    (stmts : ∀ p ∈ parts, p.1.Yields p.2) : Module.Yields ⟨some host, parts.map Prod.fst⟩ (row ++ (parts.map Prod.snd).flatten)

end HostScript.Script
