import Mathlib
import HostScript.Proofs.Dialect.Routed
import HostScript.Proofs.Script.Pass
import HostScript.Proofs.Script.Reading

/-!
# Declarations in the tree of an orderly row

If a row that belongs to the grammar is orderly for a pass, its tree is orderly (`Stmt.Orderly`): along the statements of its blocks
every `let` declares a new name, and what is marked and assigned to is a known name (`ReadsStmt.orderly`). An expression takes the
pass back to where it was, for the braces of its objects come in pairs and it declares nothing (`Reads.covers`).
-/

namespace HostScript.Script

open Dialect (Shape shapeOf)
open Lexer (IsLexeme)

/-! ## Trees -/

/-- The variable from which an assignment to an expression starts. -/
def Expr.root? : Expr → Option Ident
  | .var span name => some ⟨span, name⟩
  | .member _ base _ => base.root?
  | .index _ base _ => base.root?
  | _ => none

/-- The name that a statement declares in the block around it. -/
def Stmt.declared? : Stmt → Option String
  | .let_ _ name _ => some name.name
  | .function _ name _ _ => some name.name
  | _ => none

mutual

/-- A statement where some names are known: a `let` declares a new name, an assignment at a marked span is to a known one, and no other
declaration is at a marked span. -/
def Stmt.Orderly (functions : Bool) (marks : List Span) (known : List String) : Stmt → Prop
  | .let_ _ name _ => name.name ∉ known
  | .assign _ target _ => ∀ root, target.root? = some root → root.span ∈ marks → root.name ∈ known
  | .function _ name params body =>
    functions ∧ name.span ∉ marks ∧ (∀ param ∈ params, param.span ∉ marks) ∧
      body.Orderly functions marks (params.map Ident.name ++ name.name :: known)
  | .if_ _ _ body otherwise => body.Orderly functions marks known ∧ otherwise.Orderly functions marks known
  | .while_ _ _ body => body.Orderly functions marks known
  | .block body => body.Orderly functions marks known
  | .return_ _ _ | .break_ _ | .continue_ _ | .expr _ _ => True

/-- The statements of a block. -/
def Block.Orderly (functions : Bool) (marks : List Span) (known : List String) : Block → Prop
  | .mk _ stmts => Stmt.AllOrderly functions marks known stmts

/-- What follows the block of an `if`. -/
def Otherwise.Orderly (functions : Bool) (marks : List Span) (known : List String) : Otherwise → Prop
  | .nothing => True
  | .block body => body.Orderly functions marks known
  | .elseIf _ _ body otherwise => body.Orderly functions marks known ∧ otherwise.Orderly functions marks known

/-- Statements one after the other, each with the names that those before it declare. -/
def Stmt.AllOrderly (functions : Bool) (marks : List Span) (known : List String) : List Stmt → Prop
  | [] => True
  | s :: rest => s.Orderly functions marks known ∧ Stmt.AllOrderly functions marks (s.declared?.toList ++ known) rest

end

/-! ## Tokens -/

variable {token : Token}

/-- A token of a text that is spelled like a symbol is that symbol. -/
theorem shapeOf_spelled {text : String} (h : IsLexeme token.kind token.text.toList) (hspelled : token.spelling = text) (c : Char)
    (htext : text = String.singleton c ∧ c ∈ Lexer.singleSymbols) : shapeOf token = .symbol text := by
  obtain ⟨rfl, hc⟩ := htext
  by_cases hkind : token.kind = .symbol
  · have htext : token.text = String.singleton c := by
      rw [← hspelled, Token.spelling, hkind]
      rfl
    rw [shapeOf, hkind, htext]
    rfl
  · have hshape : (shapeOf token).token.spelling = token.spelling := spelling_congr rfl
    exact absurd (hshape.trans hspelled) (spelling_ne_symbol (s := shapeOf token) h hkind hc)

/-- A token that is a symbol is seen as that symbol. -/
theorem shapeOf_symbol {text : String} (h : token.isSymbol text) : shapeOf token = .symbol text := by
  simp only [Token.isSymbol, Bool.and_eq_true, beq_iff_eq] at h
  rw [shapeOf, h.1, h.2]
  rfl

/-- A token that is a name is seen as that word. -/
theorem shapeOf_word {text : String} (h : token.isIdent text) : shapeOf token = .word text := by
  have hident := Dialect.isIdent_eq h
  rw [shapeOf, hident.1, hident.2]
  rfl

/-- A token is idle if its spelling is. -/
theorem idle_spelled {text : String} (h : token.spelling = text) (htext : text ∉ ["let", "function", "\x7b", "\x7d"]) :
    Idle (shapeOf token) := by
  have hshape : (shapeOf token).token.spelling = text := (spelling_congr rfl).trans h
  intro hidle
  refine htext ?_
  rw [← hshape]
  simp only [List.mem_cons, List.not_mem_nil, or_false] at hidle ⊢
  rcases hidle with heq | heq | heq | heq
  · exact .inl (by rw [heq]; rfl)
  · exact .inr (.inl (by rw [heq]; rfl))
  · exact .inr (.inr (.inl (by rw [heq]; rfl)))
  · exact .inr (.inr (.inr (by rw [heq]; rfl)))

/-- A word is idle unless it declares something. -/
theorem idle_word {text : String} (h : token.isIdent text) (htext : text ∉ ["let", "function"]) : Idle (shapeOf token) := by
  rw [shapeOf_word h]
  simpa [Idle, Shape.word, Shape.symbol] using htext

/-- A name is a word that is not a keyword, with the span and the text of its token. -/
theorem kind_of_name {name : Ident} (h : name? token = some name) :
    token.kind = .ident ∧ token.text ∉ Parser.keywords ∧ name = ⟨token.span, token.text⟩ := by
  unfold name? at h
  split at h
  case isTrue hname =>
    refine ⟨hname.1, ?_, (Option.some.inj h).symm⟩
    simpa using hname.2
  case isFalse => cases h

/-- A name declares nothing and is no brace. -/
theorem idle_name {name : Ident} (h : name? token = some name) : Idle (shapeOf token) := by
  obtain ⟨hkind, htext, -⟩ := kind_of_name h
  have hword : token.isIdent token.text := by simp [Token.isIdent, hkind]
  refine idle_word hword fun hmem => htext ?_
  revert hmem
  simp only [List.mem_cons, List.not_mem_nil, or_false]
  rintro (heq | heq) <;> rw [heq] <;> decide

/-- An expression of one token declares nothing and is no brace. -/
theorem idle_atom {e : Expr} (h : atom? token = some e) : Idle (shapeOf token) := by
  have hword : ∀ text ∈ ["let", "function"], shapeOf token ≠ .word text := by
    intro text htext heq
    have hkind : token.kind = .ident := congrArg Shape.kind heq
    have htoken : token.text = text := congrArg Shape.text heq
    rw [atom?, hkind] at h
    simp only [List.mem_cons, List.not_mem_nil, or_false] at htext
    rcases htext with rfl | rfl
    · simp [htoken, name?, hkind, Parser.keywords] at h
    · simp [htoken, name?, hkind, Parser.keywords] at h
  intro hidle
  simp only [List.mem_cons, List.not_mem_nil, or_false] at hidle
  rcases hidle with heq | heq | heq | heq
  · exact hword "let" (by decide) heq
  · exact hword "function" (by decide) heq
  · exact kind_atom h (congrArg Shape.kind heq)
  · exact kind_atom h (congrArg Shape.kind heq)

/-! ## Rows that declare nothing -/

/-- A row without declarations whose braces come in pairs. -/
inductive Flat : List Token → Prop
  | nil : Flat []
  | idle {token : Token} {rest : List Token} (idle : Idle (shapeOf token)) (others : Flat rest) : Flat (token :: rest)
  | braces {opening closing : Token} {inner rest : List Token} (opens : shapeOf opening = .symbol "\x7b") (between : Flat inner)
      (closes : shapeOf closing = .symbol "\x7d") (others : Flat rest) : Flat (opening :: (inner ++ closing :: rest))

/-- Two flat rows one behind the other are flat. -/
theorem Flat.append {row more : List Token} (h : Flat row) (hmore : Flat more) : Flat (row ++ more) := by
  induction h with
  | nil => exact hmore
  | idle idle _ ih => exact .idle idle ih
  | braces opens between closes _ _ ih =>
    rw [List.cons_append, List.append_assoc, List.cons_append]
    exact .braces opens between closes ih

/-- A row of tokens of which some are marked. -/
def markedRow (marks : List Span) (row : List Token) : List (Shape × Bool) := row.map fun t => (shapeOf t, decide (t.span ∈ marks))

variable {functions : Bool} {marks : List Span} {scopes : List (List String)} {row rest used : List Token}

/-- A row is marked token by token. -/
theorem markedRow_cons (token : Token) (row : List Token) :
    markedRow marks (token :: row) = (shapeOf token, decide (token.span ∈ marks)) :: markedRow marks row := rfl

/-- A pass comes out of a flat row as it has entered it, and what is marked there is known. -/
theorem Flat.passed (h : Flat used) (horder : Orderly functions ⟨.anything, scopes⟩ (markedRow marks (used ++ rest))) :
    (∀ t ∈ used, t.span ∈ marks → t.text ∈ scopes.flatten) ∧ Orderly functions ⟨.anything, scopes⟩ (markedRow marks rest) := by
  induction h generalizing scopes rest with
  | nil => exact ⟨nofun, horder⟩
  | idle idle _ ih =>
    rw [List.cons_append, markedRow_cons, orderly_idle idle, decide_eq_true_iff] at horder
    obtain ⟨hknown, hrest⟩ := ih horder.2
    exact ⟨List.forall_mem_cons.mpr ⟨horder.1, hknown⟩, hrest⟩
  | @braces opening closing inner others opens _ closes _ ihInner ihRest =>
    have htext : ∀ {t : Token} {text : String}, shapeOf t = .symbol text → t.text = text := fun h => congrArg Shape.text h
    rw [List.cons_append, List.append_assoc, List.cons_append, markedRow_cons, opens, orderly_open, decide_eq_true_iff] at horder
    obtain ⟨hinner, hclosing⟩ := ihInner horder.2
    rw [markedRow_cons, closes, orderly_close, decide_eq_true_iff] at hclosing
    obtain ⟨hothers, hrest⟩ := ihRest hclosing.2
    refine ⟨?_, hrest⟩
    simp only [List.mem_cons, List.mem_append]
    rintro t (rfl | ht | rfl | ht)
    · rw [htext opens]
      exact horder.1
    · exact hinner t ht
    · rw [htext closes]
      exact hclosing.1
    · exact hothers t ht

/-! ## Expressions -/

/-- The variable from which an assignment to an expression starts is a token of a row. -/
def RootIn (used : List Token) (e : Expr) : Prop := ∀ root, e.root? = some root → ∃ t ∈ used, t.span = root.span ∧ t.text = root.name

/-- An expression from which no assignment starts asks nothing of a row. -/
theorem RootIn.none {e : Expr} (h : e.root? = none) : RootIn used e := by
  intro root hroot
  rw [h] at hroot
  cases hroot

/-- A root that is in a row is in each larger one. -/
theorem RootIn.mono {e : Expr} {more : List Token} (h : RootIn used e) (hmore : used ⊆ more) : RootIn more e := by
  intro root hroot
  obtain ⟨t, ht, hsame⟩ := h root hroot
  exact ⟨t, hmore ht, hsame⟩

/-- A variable is the token it is read from. -/
theorem rootIn_atom {e : Expr} (h : atom? token = some e) : RootIn [token] e := by
  intro root hroot
  obtain ⟨kind, span, text, gap⟩ := token
  cases kind with
  | symbol => cases h
  | number =>
    obtain ⟨n, -, rfl⟩ := Option.map_eq_some_iff.mp h
    cases hroot
  | string =>
    obtain ⟨value, -, rfl⟩ := Option.map_eq_some_iff.mp h
    cases hroot
  | rawString =>
    cases h
    cases hroot
  | ident =>
    simp only [atom?] at h
    split_ifs at h
    · cases h; cases hroot
    · cases h; cases hroot
    · cases h; cases hroot
    · obtain ⟨name, hname, rfl⟩ := Option.map_eq_some_iff.mp h
      obtain ⟨-, -, rfl⟩ := kind_of_name hname
      cases hroot
      exact ⟨_, List.mem_singleton_self _, rfl, rfl⟩

/-- What a phrase uses of a row: flat tokens, and the closing brace behind the fields of an object. The root of its tree is among them,
or it is that of what stands in front of them. -/
def Phrase.Uses : Phrase → List Token → Expr → Prop
  | .fields, used, _ => ∃ inner closing, used = inner ++ [closing] ∧ Flat inner ∧ shapeOf closing = .symbol "\x7d"
  | .operators _ base, used, e | .suffixes base, used, e => Flat used ∧ ∀ front, RootIn front base → RootIn (front ++ used) e
  | _, used, e => Flat used ∧ RootIn used e

/-- No operator is a word or a brace that a pass heeds. -/
theorem symbol_idle (op : BinaryOp) : op.symbol ∉ ["let", "function", "\x7b", "\x7d"] := by
  rcases op with (_ | _ | _ | _ | _) | (_ | _ | _ | _ | _ | _) | (_ | _) <;> decide

/-- What a phrase reads is a front of the row, flat up to the braces that the phrase closes, and it holds the root of the tree. -/
theorem reads_used {p : Phrase} {e : Expr} (h : Reads p row e rest) (hlexed : Lexed row) : ∃ used, row = used ++ rest ∧ p.Uses used e := by
  induction h with
  | level binds operand more ihOperand ihMore =>
    obtain ⟨used, rfl, hflat, hroot⟩ := ihOperand hlexed
    obtain ⟨used', rfl, hflat', hroot'⟩ := ihMore (hlexed.suffix operand.suffix)
    exact ⟨used ++ used', (List.append_assoc _ _ _).symm, hflat.append hflat', hroot' used hroot⟩
  | operand binds _ ih => exact ih hlexed
  | operatorsDone ends => exact ⟨[], rfl, .nil, fun front hfront => by rwa [List.append_nil]⟩
  | @operatorsMore _ token _ _ _ _ _ _ op _ operator operand more ihOperand ihMore =>
    obtain ⟨used, rfl, hflat, -⟩ := ihOperand hlexed.tail
    obtain ⟨used', rfl, hflat', hroot'⟩ := ihMore (hlexed.tail.suffix operand.suffix)
    have hidle : Idle (shapeOf token) := idle_spelled (operator?_eq_some operator).2 (symbol_idle op)
    refine ⟨token :: (used ++ used'), by simp, .idle hidle (hflat.append hflat'), fun front _ => ?_⟩
    exact (hroot' [] (.none rfl)).mono (by grind)
  | @prefixed token _ _ _ _ _ operator _ ih =>
    obtain ⟨used, rfl, hflat, -⟩ := ih hlexed.tail
    have hidle : Idle (shapeOf token) := by
      rcases spelling_unaryOp operator with hspelled | hspelled
      · exact idle_spelled hspelled (by decide)
      · exact idle_spelled hspelled (by decide)
    exact ⟨token :: used, rfl, .idle hidle hflat, .none rfl⟩
  | suffixed bare primary _ ihPrimary ihMore =>
    obtain ⟨used, rfl, hflat, hroot⟩ := ihPrimary hlexed
    obtain ⟨used', rfl, hflat', hroot'⟩ := ihMore (hlexed.suffix primary.suffix)
    exact ⟨used ++ used', (List.append_assoc _ _ _).symm, hflat.append hflat', hroot' used hroot⟩
  | arrayEmpty opens closes =>
    have hopening := idle_spelled (spelling_of_isSymbol opens) (by decide)
    have hclosing := idle_spelled closes (by decide)
    exact ⟨[_, _], rfl, .idle hopening (.idle hclosing .nil), .none rfl⟩
  | array opens filled item _ ihItem ihMore =>
    obtain ⟨used, rfl, hflat, -⟩ := ihItem hlexed.tail
    obtain ⟨used', rfl, hflat', -⟩ := ihMore (hlexed.tail.suffix item.suffix)
    have hopening := idle_spelled (spelling_of_isSymbol opens) (by decide)
    exact ⟨_ :: (used ++ used'), by simp, .idle hopening (hflat.append hflat'), .none rfl⟩
  -- The brace behind the fields closes the one in front of them, so that the whole is flat.
  | object opens _ ih =>
    obtain ⟨_, rfl, inner, closing, rfl, hflat, hcloses⟩ := ih hlexed.tail
    exact ⟨_ :: (inner ++ [closing]), rfl, .braces (shapeOf_symbol opens) hflat hcloses .nil, .none rfl⟩
  | bracketed opens _ closes ih =>
    obtain ⟨used, rfl, hflat, hroot⟩ := ih hlexed.tail
    have hopening := idle_spelled (spelling_of_isSymbol opens) (by decide)
    have hclosing := idle_spelled closes (by decide)
    exact ⟨_ :: (used ++ [_]), by simp, .idle hopening (hflat.append (.idle hclosing .nil)), hroot.mono (by grind)⟩
  | atom isAtom => exact ⟨[_], rfl, .idle (idle_atom isAtom) .nil, rootIn_atom isAtom⟩
  | itemsDone closes => exact ⟨[_], rfl, .idle (idle_spelled closes (by decide)) .nil, .none rfl⟩
  | itemsComma separates closes =>
    have hcomma := idle_spelled separates (by decide)
    have hclosing := idle_spelled closes (by decide)
    exact ⟨[_, _], rfl, .idle hcomma (.idle hclosing .nil), .none rfl⟩
  | itemsMore separates filled first _ ihFirst ihMore =>
    obtain ⟨used, rfl, hflat, -⟩ := ihFirst hlexed.tail
    obtain ⟨used', rfl, hflat', -⟩ := ihMore (hlexed.tail.suffix first.suffix)
    have hcomma := idle_spelled separates (by decide)
    exact ⟨_ :: (used ++ used'), by simp, .idle hcomma (hflat.append hflat'), .none rfl⟩
  | fieldsDone closes => exact ⟨[_], rfl, [], _, rfl, .nil, shapeOf_spelled hlexed.head closes '\x7d' (by decide)⟩
  | @fieldsLast colon closing _ _ _ _ _ _ _ filled named separates valued closes ihKey ihValue =>
    have hbetween := (hlexed.suffix named.suffix).tail
    obtain ⟨used, rfl, hflat, -⟩ := ihKey hlexed
    obtain ⟨used', rfl, hflat', -⟩ := ihValue hbetween
    have hclosing := shapeOf_spelled (hbetween.suffix valued.suffix).head closes '\x7d' (by decide)
    have hcolon := idle_spelled separates (by decide)
    exact ⟨used ++ colon :: (used' ++ [closing]), by simp, used ++ colon :: used', closing, by simp,
      hflat.append (.idle hcolon hflat'), hclosing⟩
  | @fieldsMore colon comma _ _ _ _ _ _ _ _ _ filled named separates valued follows _ ihKey ihValue ihMore =>
    have hbetween := (hlexed.suffix named.suffix).tail
    have hafter := (hbetween.suffix valued.suffix).tail
    obtain ⟨used, rfl, hflat, -⟩ := ihKey hlexed
    obtain ⟨used', rfl, hflat', -⟩ := ihValue hbetween
    obtain ⟨_, rfl, inner, closing, rfl, hinner, hcloses⟩ := ihMore hafter
    have hcolon := idle_spelled separates (by decide)
    have hcomma := idle_spelled follows (by decide)
    exact ⟨used ++ colon :: (used' ++ comma :: (inner ++ [closing])), by simp, used ++ colon :: (used' ++ comma :: inner), closing, by simp,
      hflat.append (.idle hcolon (hflat'.append (.idle hcomma hinner))), hcloses⟩
  | keyName named => exact ⟨[_], rfl, .idle (idle_name named) .nil, .none rfl⟩
  | keyExpr computed _ ih => exact ih hlexed
  | suffixesDone ends => exact ⟨[], rfl, .nil, fun front hfront => by rwa [List.append_nil]⟩
  | @member dot token _ _ _ _ _ _ opens named _ ih =>
    obtain ⟨used, rfl, hflat, hroot⟩ := ih hlexed.tail.tail
    have hdot := idle_spelled (spelling_of_isSymbol opens) (by decide)
    refine ⟨dot :: token :: used, rfl, .idle hdot (.idle (idle_name named) hflat), fun front hfront => ?_⟩
    exact (hroot front hfront).mono (by grind)
  | @index opening closing _ _ _ _ _ _ _ opens inner closes _ ihInner ihMore =>
    have hbetween := (hlexed.tail.suffix inner.suffix).tail
    obtain ⟨used, rfl, hflat, -⟩ := ihInner hlexed.tail
    obtain ⟨used', rfl, hflat', hroot⟩ := ihMore hbetween
    have hopening := idle_spelled (spelling_of_isSymbol opens) (by decide)
    have hclosing := idle_spelled closes (by decide)
    refine ⟨opening :: (used ++ closing :: used'), by simp, .idle hopening (hflat.append (.idle hclosing hflat')), fun front hfront => ?_⟩
    exact (hroot front hfront).mono (by grind)
  -- Nothing is assigned to a call, so what stands in front of it does not matter for the root.
  | @callEmpty opening closing _ _ _ _ _ opens closes _ ih =>
    obtain ⟨used, rfl, hflat, hroot⟩ := ih hlexed.tail.tail
    have hopening := idle_spelled (spelling_of_isSymbol opens) (by decide)
    have hclosing := idle_spelled closes (by decide)
    refine ⟨opening :: closing :: used, rfl, .idle hopening (.idle hclosing hflat), fun front _ => ?_⟩
    exact (hroot [] (.none rfl)).mono (by grind)
  | @call opening _ _ _ _ _ _ _ _ _ opens filled arg others _ ihArg ihOthers ihMore =>
    have hbetween := hlexed.tail.suffix arg.suffix
    obtain ⟨used, rfl, hflat, -⟩ := ihArg hlexed.tail
    obtain ⟨used', rfl, hflat', -⟩ := ihOthers hbetween
    obtain ⟨used'', rfl, hflat'', hroot⟩ := ihMore (hbetween.suffix others.suffix)
    have hopening := idle_spelled (spelling_of_isSymbol opens) (by decide)
    refine ⟨opening :: (used ++ (used' ++ used'')), by simp, .idle hopening (hflat.append (hflat'.append hflat'')), fun front _ => ?_⟩
    exact (hroot [] (.none rfl)).mono (by grind)
  | argsDone closes => exact ⟨[_], rfl, .idle (idle_spelled closes (by decide)) .nil, .none rfl⟩
  | argsMore separates first _ ihFirst ihMore =>
    obtain ⟨used, rfl, hflat, -⟩ := ihFirst hlexed.tail
    obtain ⟨used', rfl, hflat', -⟩ := ihMore (hlexed.tail.suffix first.suffix)
    have hcomma := idle_spelled separates (by decide)
    exact ⟨_ :: (used ++ used'), by simp, .idle hcomma (hflat.append hflat'), .none rfl⟩

/-! ## Statements -/

/-- A pass that awaits nothing stands in front of a row of tokens of a text, and finds it orderly. -/
structure Ahead (functions : Bool) (marks : List Span) (scopes : List (List String)) (row : List Token) : Prop where
  lexed : Lexed row
  orderly : Orderly functions ⟨.anything, scopes⟩ (markedRow marks row)

namespace Ahead

/-- A token that a pass does not heed is passed over. -/
theorem skip (h : Ahead functions marks scopes (token :: rest)) (hidle : Idle (shapeOf token)) : Ahead functions marks scopes rest :=
  ⟨h.lexed.tail, ((orderly_idle hidle).mp h.orderly).2⟩

/-- An opening brace begins a scope without names. -/
theorem opened (h : Ahead functions marks scopes (token :: rest)) (hopens : shapeOf token = .symbol "\x7b") :
    Ahead functions marks ([] :: scopes) rest := by
  have horder := h.orderly
  rw [markedRow_cons, hopens, orderly_open] at horder
  exact ⟨h.lexed.tail, horder.2⟩

/-- A closing brace ends the innermost scope. -/
theorem closed (h : Ahead functions marks scopes (token :: rest)) (hcloses : shapeOf token = .symbol "\x7d") :
    Ahead functions marks scopes.tail rest := by
  have horder := h.orderly
  rw [markedRow_cons, hcloses, orderly_close] at horder
  exact ⟨h.lexed.tail, horder.2⟩

/-- The brace of a block opens a scope without names. -/
theorem braced (h : Ahead functions marks scopes (token :: rest)) (hbraced : token.spelling = "\x7b") :
    Ahead functions marks ([] :: scopes) rest :=
  h.opened (shapeOf_spelled h.lexed.head hbraced '\x7b' (by decide))

/-- Behind an expression the scopes are the same, and the root of the expression, if it is marked, is a known name. -/
theorem expr {e : Expr} (h : Ahead functions marks scopes row) (hreads : Reads (.level 0) row e rest) :
    (∀ root, e.root? = some root → root.span ∈ marks → root.name ∈ scopes.flatten) ∧ Ahead functions marks scopes rest := by
  obtain ⟨used, rfl, hflat, hroot⟩ := reads_used hreads h.lexed
  obtain ⟨hknown, hrest⟩ := hflat.passed h.orderly
  refine ⟨fun root hr hmarked => ?_, h.lexed.suffix (List.suffix_append _ _), hrest⟩
  obtain ⟨t, ht, hspan, htext⟩ := hroot root hr
  exact htext ▸ hknown t ht (hspan ▸ hmarked)

/-- Behind a condition in brackets the scopes are the same. -/
theorem condition {cond : Expr} (h : Ahead functions marks scopes row) (hreads : ReadsCondition row cond rest) :
    Ahead functions marks scopes rest := by
  obtain ⟨opens, inner, closes⟩ := hreads
  have hinner := (h.skip (idle_spelled opens (by decide))).expr inner
  exact hinner.2.skip (idle_spelled closes (by decide))

end Ahead

/-- Where a pass comes out of a passage. -/
def Passage.leaves : Passage → Stmt → List (List String) → List (List String)
  | .stmt, s, scopes => s.declared?.elim scopes (declareIn · scopes)
  | .body, _, scopes => scopes.tail

/-- The names known behind a statement are those known in front of it and the one it declares. -/
theorem flatten_leaves (s : Stmt) (scopes : List (List String)) :
    (Passage.leaves .stmt s scopes).flatten = s.declared?.toList ++ scopes.flatten := by
  cases h : s.declared? with
  | none => rw [Passage.leaves, h]; rfl
  | some name =>
    rw [Passage.leaves, h]
    exact flatten_declareIn name scopes

/-- A statement declares nothing outside of the innermost scope. -/
theorem tail_leaves (s : Stmt) (scopes : List (List String)) : (Passage.leaves .stmt s scopes).tail = scopes.tail := by
  cases h : s.declared? with
  | none => rw [Passage.leaves, h]; rfl
  | some name =>
    rw [Passage.leaves, h]
    exact tail_declareIn name scopes

/-- A pass collects the parameters of a function. -/
theorem params_orderly {params : List Ident} (h : ReadsParams row params rest) (hlexed : Lexed row) {names : List String}
    (horder : Orderly functions ⟨.params names, scopes⟩ (markedRow marks row)) :
    Lexed rest ∧ (∀ param ∈ params, param.span ∉ marks) ∧
      Orderly functions ⟨.params (names ++ params.map Ident.name), scopes⟩ (markedRow marks rest) := by
  induction h generalizing names with
  | done closes =>
    rw [markedRow_cons, shapeOf_spelled hlexed.head closes ')' (by decide), orderly_between (by decide)] at horder
    exact ⟨hlexed.tail, nofun, by simpa using horder.2⟩
  | more separates named _ ih =>
    obtain ⟨hkind, -, rfl⟩ := kind_of_name named
    rw [markedRow_cons, shapeOf_spelled hlexed.head separates ',' (by decide), orderly_between (by decide), markedRow_cons,
      orderly_param hkind] at horder
    obtain ⟨-, hmarked, horder⟩ := horder
    obtain ⟨hrest, hparams, horder⟩ := ih hlexed.tail.tail horder
    rw [List.append_assoc] at horder
    exact ⟨hrest, List.forall_mem_cons.mpr ⟨of_decide_eq_false hmarked, hparams⟩, horder⟩

/-- Parameters are not marked, and a pass that reads them knows their names at the opening of the body. -/
theorem paramList_orderly {params : List Ident} (h : ReadsParamList row params rest) (hlexed : Lexed row)
    (horder : Orderly functions ⟨.params [], scopes⟩ (markedRow marks row)) :
    Lexed rest ∧ (∀ param ∈ params, param.span ∉ marks) ∧
      Orderly functions ⟨.params (params.map Ident.name), scopes⟩ (markedRow marks rest) := by
  cases h with
  | empty closes =>
    rw [markedRow_cons, shapeOf_spelled hlexed.head closes ')' (by decide), orderly_between (by decide)] at horder
    exact ⟨hlexed.tail, nofun, horder.2⟩
  | names filled named others =>
    obtain ⟨hkind, -, rfl⟩ := kind_of_name named
    rw [markedRow_cons, orderly_param hkind] at horder
    obtain ⟨hmarked, horder⟩ := horder
    obtain ⟨hrest, hparams, horder⟩ := params_orderly others hlexed.tail horder
    exact ⟨hrest, List.forall_mem_cons.mpr ⟨of_decide_eq_false hmarked, hparams⟩, horder⟩

/-- The tree of an orderly row is orderly. -/
theorem stmt_orderly {passage : Passage} {s : Stmt} (h : ReadsStmt passage row s rest) (hahead : Ahead functions marks scopes row) :
    s.Orderly functions marks scopes.flatten ∧ Ahead functions marks (passage.leaves s scopes) rest := by
  induction h generalizing scopes with
  | let_ begins named assigns valued closes =>
    obtain ⟨hkind, -, rfl⟩ := kind_of_name named
    have horder := hahead.orderly
    rw [markedRow_cons, markedRow_cons, shapeOf_word begins, orderly_let hkind] at horder
    have hvalue := (Ahead.skip ⟨hahead.lexed.tail.tail, horder.2.2⟩ (idle_spelled assigns (by decide))).expr valued
    exact ⟨horder.2.1, hvalue.2.skip (idle_spelled closes (by decide))⟩
  | function begins named opens listed braced _ ih =>
    obtain ⟨hkind, -, rfl⟩ := kind_of_name named
    have hlexed := hahead.lexed.tail.tail
    have horder := hahead.orderly
    rw [markedRow_cons, markedRow_cons, shapeOf_word begins, orderly_function hkind] at horder
    obtain ⟨⟨-, hfunctions⟩, hmarked, horder⟩ := horder
    rw [markedRow_cons, shapeOf_spelled hlexed.head opens '(' (by decide), orderly_between (by decide)] at horder
    obtain ⟨hbrace, hparams, horder⟩ := paramList_orderly listed hlexed.tail horder.2
    rw [markedRow_cons, shapeOf_spelled hbrace.head braced '\x7b' (by decide), orderly_body] at horder
    have hbody := ih ⟨hbrace.tail, horder.2⟩
    rw [List.flatten_cons, flatten_declareIn] at hbody
    exact ⟨⟨hfunctions, of_decide_eq_false hmarked, hparams, hbody.1⟩, hbody.2⟩
  | if_ begins asked braced _ ends ih =>
    have hcond := (hahead.skip (idle_word begins (by decide))).condition asked
    have hbody := ih (hcond.braced braced)
    exact ⟨⟨hbody.1, trivial⟩, hbody.2⟩
  | ifElse begins asked braced _ goesOn ends braced' _ ih ih' =>
    have hcond := (hahead.skip (idle_word begins (by decide))).condition asked
    have hbody := ih (hcond.braced braced)
    have halternate := ih' ((hbody.2.skip (idle_word goesOn (by decide))).braced braced')
    exact ⟨⟨hbody.1, halternate.1⟩, halternate.2⟩
  | ifElseIf begins asked braced _ goesOn again _ ih ihAlternate =>
    have hcond := (hahead.skip (idle_word begins (by decide))).condition asked
    have hbody := ih (hcond.braced braced)
    have halternate := ihAlternate (hbody.2.skip (idle_word goesOn (by decide)))
    exact ⟨⟨hbody.1, halternate.1⟩, halternate.2⟩
  | while_ begins asked braced _ ih =>
    have hcond := (hahead.skip (idle_word begins (by decide))).condition asked
    exact ih (hcond.braced braced)
  | returnNothing begins closes =>
    have hword := hahead.skip (idle_word begins (by decide))
    exact ⟨trivial, hword.skip (idle_spelled (spelling_of_isSymbol closes) (by decide))⟩
  | return_ begins valued closes filled =>
    have hvalue := (hahead.skip (idle_word begins (by decide))).expr valued
    exact ⟨trivial, hvalue.2.skip (idle_spelled closes (by decide))⟩
  | break_ begins closes =>
    exact ⟨trivial, (hahead.skip (idle_word begins (by decide))).skip (idle_spelled closes (by decide))⟩
  | continue_ begins closes =>
    exact ⟨trivial, (hahead.skip (idle_word begins (by decide))).skip (idle_spelled closes (by decide))⟩
  | block opens _ ih => exact ih (hahead.opened (shapeOf_symbol opens))
  | assign plain targeted assigns assignable valued closes =>
    obtain ⟨hroot, htarget⟩ := hahead.expr targeted
    have hvalue := (htarget.skip (idle_spelled (spelling_of_isSymbol assigns) (by decide))).expr valued
    exact ⟨hroot, hvalue.2.skip (idle_spelled closes (by decide))⟩
  | expr plain valued closes => exact ⟨trivial, (hahead.expr valued).2.skip (idle_spelled closes (by decide))⟩
  | bodyDone closes => exact ⟨trivial, hahead.closed (shapeOf_symbol closes)⟩
  | @bodyMore _ _ _ s _ _ filled first _ ihFirst ihMore =>
    obtain ⟨hfirst, hbetween⟩ := ihFirst hahead
    obtain ⟨hmore, hrest⟩ := ihMore hbetween
    rw [flatten_leaves] at hmore
    change Ahead functions marks (Passage.leaves .stmt s scopes).tail _ at hrest
    rw [tail_leaves] at hrest
    exact ⟨⟨hfirst, hmore⟩, hrest⟩

/-- The statements of an orderly row are orderly. -/
theorem stmts_orderly {stmts : List Stmt} (h : ReadsStmts row stmts) (hahead : Ahead functions marks scopes row) :
    Stmt.AllOrderly functions marks scopes.flatten stmts := by
  induction h generalizing scopes with
  | done => trivial
  | more first _ ih =>
    obtain ⟨hfirst, hbetween⟩ := stmt_orderly first hahead
    have hothers := ih hbetween
    rw [flatten_leaves] at hothers
    exact ⟨hfirst, hothers⟩

/-- A script whose tokens are orderly has orderly statements. -/
theorem module_orderly {m : Module} (h : ReadsModule row m) (hahead : Ahead functions marks scopes row) :
    Stmt.AllOrderly functions marks scopes.flatten m.stmts := by
  cases h with
  | plain plain body => exact stmts_orderly body hahead
  | hosted begins imports renames named closes body =>
    have hhost := (hahead.skip (idle_word begins (by decide))).skip (idle_word imports (by decide))
    have hname := (hhost.skip (idle_spelled renames (by decide))).skip (idle_name named)
    exact stmts_orderly body (hname.skip (idle_spelled closes (by decide)))

end HostScript.Script
