import Mathlib
import HostScript.Proofs.Script.Acceptance
import HostScript.Proofs.Script.Printed

/-!
# What is printed is read back

The row of a printed tree belongs to the grammar, with the tree that was printed (`Expr.reads_row`, `Stmt.reads_row`). An expression is
read at every level up to its own, whatever follows it, as long as that does not go on with the expression (`Prints`).
-/

namespace HostScript.Script

open HostScript.Dialect (Shape Row)
open HostScript.Lexer (IsLexeme)

/-- The tokens of a row, at no place in particular. -/
def tokensOf (row : Row) : List Token := row.map Shape.token

@[simp] theorem tokensOf_nil : tokensOf [] = [] := rfl

@[simp] theorem tokensOf_cons (s : Shape) (row : Row) : tokensOf (s :: row) = s.token :: tokensOf row := rfl

@[simp] theorem tokensOf_append (row more : Row) : tokensOf (row ++ more) = tokensOf row ++ tokensOf more := List.map_append

/-- The tokens of a row of shapes have these shapes. -/
theorem shapes_tokensOf (row : Row) : Dialect.shapes (tokensOf row) = row := by
  induction row with
  | nil => rfl
  | cons s row ih => exact congrArg (s :: ·) ih

@[simp] theorem isSymbol_symbol (text : String) : (Shape.symbol text).token.isSymbol text = true := by
  simp [Token.isSymbol, Shape.token, Shape.symbol]

@[simp] theorem isIdent_word (text : String) : (Shape.word text).token.isIdent text = true := by
  simp [Token.isIdent, Shape.token, Shape.word]

@[simp] theorem spelling_symbol (text : String) : (Shape.symbol text).token.spelling = text := rfl

@[simp] theorem spelling_word (text : String) : (Shape.word text).token.spelling = text := rfl

/-- The token of a name is that name. -/
theorem name?_word {name : String} (h : IsName name) : name? (Shape.word name).token = some ⟨.nowhere, name⟩ := by
  unfold name?
  exact if_pos ⟨rfl, by simpa [Shape.token, Shape.word] using h.2⟩

/-! ## How rows begin -/

/-- The first token of an expression: no closing bracket, and no keyword but a constant. -/
structure OpensExpr (s : Shape) : Prop where
  symbol : s.kind = .symbol → s.text ∈ ["(", "[", "\x7b", "-", "!"]
  word : s.kind = .ident → s.text ∉ Parser.keywords ∨ s.text ∈ constants
  lexeme : IsLexeme s.kind s.text.toList

/-- A token that is no symbol is spelled like none. -/
theorem spelling_ne_symbol {s : Shape} (h : IsLexeme s.kind s.text.toList) (hkind : s.kind ≠ .symbol) {c : Char}
    (hc : c ∈ Lexer.singleSymbols) : s.token.spelling ≠ String.singleton c := by
  have hplain : ∀ c ∈ Lexer.singleSymbols, Lexer.isIdentStart c = false ∧ c.isDigit = false := Lexer.forall_mem_of_all (by decide)
  obtain ⟨kind, text⟩ := s
  intro hspelled
  unfold Token.spelling at hspelled
  cases kind with
  | symbol => exact hkind rfl
  | string => exact absurd (congrArg String.toList hspelled) (by simp [Shape.token, Token.delimiter?])
  | rawString => exact absurd (congrArg String.toList hspelled) (by simp [Shape.token, Token.delimiter?])
  | ident =>
    obtain rfl : text = String.singleton c := hspelled
    obtain ⟨d, rest, htext, hd, -⟩ := h
    rw [String.toList_singleton] at htext
    obtain ⟨rfl, -⟩ := List.cons.inj htext
    rw [(hplain c hc).1] at hd
    cases hd
  | number =>
    obtain rfl : text = String.singleton c := hspelled
    obtain ⟨⟨whole, fraction, exponent, htext, hwhole, -⟩, -⟩ := h
    obtain ⟨d, rest, rfl, hdigits⟩ := hwhole.cons
    rw [String.toList_singleton, List.cons_append, List.cons_append] at htext
    obtain ⟨rfl, -⟩ := List.cons.inj htext
    have := hdigits c List.mem_cons_self
    rw [(hplain c hc).2] at this
    cases this

/-- An expression does not begin with any other symbol. -/
theorem OpensExpr.spelling_ne {s : Shape} (h : OpensExpr s) {c : Char} (hc : c ∈ Lexer.singleSymbols)
    (hcloses : String.singleton c ∉ ["(", "[", "\x7b", "-", "!"]) : s.token.spelling ≠ String.singleton c := by
  by_cases hkind : s.kind = .symbol
  · have hspelled : s.token.spelling = s.text := by simp [Token.spelling, Shape.token, Token.delimiter?, hkind]
    rw [hspelled]
    intro htext
    exact hcloses (htext ▸ h.symbol hkind)
  · exact spelling_ne_symbol h.lexeme hkind hc

/-- An opening bracket or a unary operator begins an expression and nothing else. -/
theorem opensExpr_symbol {text : String} (h : text ∈ ["(", "[", "\x7b", "-", "!"]) : OpensExpr (.symbol text) where
  symbol _ := h
  word := nofun
  lexeme := by
    simp only [List.mem_cons, List.not_mem_nil, or_false] at h
    refine .inr ?_
    rcases h with rfl | rfl | rfl | rfl | rfl
    · exact ⟨'(', rfl, by decide⟩
    · exact ⟨'[', rfl, by decide⟩
    · exact ⟨'\x7b', rfl, by decide⟩
    · exact ⟨'-', rfl, by decide⟩
    · exact ⟨'!', rfl, by decide⟩

/-- A constant begins an expression and nothing else. -/
theorem opensExpr_constant {text : String} (h : text ∈ constants) : OpensExpr (.word text) where
  symbol := nofun
  word _ := .inr h
  lexeme := by
    simp only [constants, List.mem_cons, List.not_mem_nil, or_false] at h
    rcases h with rfl | rfl | rfl
    · exact ⟨'t', ['r', 'u', 'e'], rfl, by decide, Lexer.forall_mem_of_all (by decide)⟩
    · exact ⟨'f', ['a', 'l', 's', 'e'], rfl, by decide, Lexer.forall_mem_of_all (by decide)⟩
    · exact ⟨'n', ['u', 'l', 'l'], rfl, by decide, Lexer.forall_mem_of_all (by decide)⟩

variable {numeral : Number → String} {literal : Number → Prop}

/-- A row begins as an expression does. -/
def Opens (row : Row) : Prop := ∃ s more, row = s :: more ∧ OpensExpr s

/-- Whatever follows, a row opens an expression. -/
theorem Opens.append {row : Row} (h : Opens row) (more : Row) : Opens (row ++ more) := by
  obtain ⟨s, rest, rfl, hs⟩ := h
  exact ⟨s, rest ++ more, rfl, hs⟩

/-- A row in brackets opens an expression. -/
theorem opens_inBrackets (row : Row) : Opens (inBrackets row) := ⟨_, _, rfl, opensExpr_symbol (by decide)⟩

/-- With or without brackets around it the row of an expression opens one. -/
theorem Opens.guarded {row : Row} (h : Opens row) (level : Nat) (e : Expr) : Opens (guarded level e row) := by
  unfold Script.guarded
  split
  · exact opens_inBrackets row
  · exact h

/-- A row that would be taken for a block opens an expression all the same, in brackets. -/
theorem Opens.shielded {row : Row} (h : Opens row) : Opens (shielded row) := by
  unfold Script.shielded
  split
  · exact opens_inBrackets row
  · exact h

/-- A key opens an expression, with or without brackets. -/
theorem Opens.keyRow {row : Row} (h : Opens row) : Opens (keyRow row) := by
  unfold Script.keyRow
  split
  · exact opens_inBrackets row
  · exact h

/-- How the row of an expression begins. -/
theorem Expr.opens_row (hwrites : Writes numeral literal) : (e : Expr) → e.Printable literal → Opens (e.row numeral)
  | .null _, _ => ⟨_, _, rfl, opensExpr_constant (by decide)⟩
  | .bool _ true, _ => ⟨_, _, rfl, opensExpr_constant (by decide)⟩
  | .bool _ false, _ => ⟨_, _, rfl, opensExpr_constant (by decide)⟩
  | .number _ n, h => ⟨_, _, rfl, nofun, nofun, (hwrites n h).1⟩
  | .string _ text, _ => ⟨_, _, rfl, nofun, nofun, by rw [String.toList_ofList]; exact Json.isLexeme_quoted text⟩
  | .rawString _ _, h => ⟨_, _, rfl, nofun, nofun, h⟩
  | .var _ _, h => ⟨_, _, rfl, nofun, fun _ => .inl h.2, h.1⟩
  | .array _ _, _ => ⟨_, _, rfl, opensExpr_symbol (by decide)⟩
  | .object _ _, _ => ⟨_, _, rfl, opensExpr_symbol (by decide)⟩
  | .unary _ .neg _, _ => ⟨_, _, rfl, opensExpr_symbol (by decide)⟩
  | .unary _ .not _, _ => ⟨_, _, rfl, opensExpr_symbol (by decide)⟩
  | .call _ callee _, h => ((callee.opens_row hwrites h.1).guarded _ _).append _
  | .member _ base _, h => ((base.opens_row hwrites h.1).guarded _ _).append _
  | .index _ base _, h => ((base.opens_row hwrites h.1).guarded _ _).append _
  | .binary _ _ left _, h => ((left.opens_row hwrites h.1).guarded _ _).append _

/-! ## Expressions -/

/-- A row does not go on with an expression of a level. -/
structure Ends (level : Nat) (rest : List Token) : Prop where
  suffix : ¬atSuffix rest
  operator : ∀ k, level ≤ k → Parser.operator? k (spelling rest) = none

/-- What ends the operators of a level ends those of the tighter ones. -/
theorem Ends.mono {k level : Nat} {rest : List Token} (h : Ends k rest) (hk : k ≤ level) : Ends level rest :=
  ⟨h.suffix, fun l hl => h.operator l (hk.trans hl)⟩

/-- The symbol of an operator denotes it on its level. -/
theorem operator?_symbol (op : BinaryOp) : Parser.operator? op.level op.symbol = some op := by
  rcases op with (_ | _ | _ | _ | _) | (_ | _ | _ | _ | _ | _) | (_ | _) <;> rfl

/-- An operator belongs to one level only. -/
theorem operator?_other {k : Nat} {op : BinaryOp} (h : k ≠ op.level) : Parser.operator? k op.symbol = none := by
  by_contra hsome
  obtain ⟨op', hop⟩ := Option.ne_none_iff_exists'.mp hsome
  obtain ⟨rfl, hsymbol⟩ := operator?_eq_some hop
  rcases op with (_ | _ | _ | _ | _) | (_ | _ | _ | _ | _ | _) | (_ | _) <;>
    rcases op' with (_ | _ | _ | _ | _) | (_ | _ | _ | _ | _ | _) | (_ | _) <;> first | exact h rfl | exact absurd hsymbol (by decide)

/-- The symbols behind which no expression goes on. -/
def closers : List String := [")", "]", "\x7d", ",", ":", ";", "="]

/-- No operator closes an expression. -/
theorem symbol_not_closer (op : BinaryOp) : op.symbol ∉ closers := by
  rcases op with (_ | _ | _ | _ | _) | (_ | _ | _ | _ | _ | _) | (_ | _) <;> decide

/-- A symbol that is no suffix ends the suffixes. -/
theorem atSuffix_symbol {text : String} (h : text ∉ [".", "[", "("]) (rest : List Token) :
    ¬atSuffix ((Shape.symbol text).token :: rest) := by
  simp only [List.mem_cons, List.not_mem_nil, or_false, not_or] at h
  simp [atSuffix, atSymbol, Token.isSymbol, Shape.token, Shape.symbol, h]

/-- In front of a closing symbol every expression ends. -/
theorem ends_closer {text : String} (h : text ∈ closers) (rest : List Token) : Ends 0 ((Shape.symbol text).token :: rest) where
  suffix := by
    have hsuffix : ∀ text ∈ closers, text ∉ [".", "[", "("] := by decide
    exact atSuffix_symbol (hsuffix text h) rest
  operator := by
    intro k _
    by_contra hsome
    obtain ⟨op, hop⟩ := Option.ne_none_iff_exists'.mp hsome
    obtain ⟨-, hsymbol⟩ := operator?_eq_some hop
    exact symbol_not_closer op (hsymbol ▸ h)

/-- In front of an operator every tighter expression ends. -/
theorem ends_operator (op : BinaryOp) (rest : List Token) : Ends (op.level + 1) ((Shape.symbol op.symbol).token :: rest) where
  suffix := by
    refine atSuffix_symbol ?_ rest
    rcases op with (_ | _ | _ | _ | _) | (_ | _ | _ | _ | _ | _) | (_ | _) <;> decide
  operator := fun k hk => operator?_other (Nat.ne_of_gt hk)

/-- A row begins with the primary of a tree, and goes on with its members, indexes and calls. -/
def ReadsPostfix (row : List Token) (e : Expr) (rest : List Token) : Prop :=
  ∃ base between, Reads .primary row base between ∧ Reads (.suffixes base) between e rest ∧ row.head?.bind unaryOp? = none

/-- A row is read as a tree at every level up to one, whatever follows it. What follows is given as the rest of a reader: at the
tightest level the members, indexes and calls behind the tree, at the level of an operator the operators behind it. -/
structure Prints (level : Nat) (row : Row) (e : Expr) : Prop where
  suffixes : postfixLevel ≤ level → ∀ {rest r tail}, Reads (.suffixes e) rest r tail → ReadsPostfix (tokensOf row ++ rest) r tail
  unary : unaryLevel ≤ level → ∀ {rest}, ¬atSuffix rest → Reads .unary (tokensOf row ++ rest) e rest
  operators {k : Nat} : k ≤ level → k ≤ Parser.tightestLevel → ∀ {rest r tail}, Ends (k + 1) rest → Reads (.operators k e) rest r tail →
    Reads (.level k) (tokensOf row ++ rest) r tail

namespace Prints

variable {level k : Nat} {row : Row} {e : Expr}

/-- A row is read at a level alone if the tree ends behind it. -/
theorem alone (h : Prints level row e) (hk : k ≤ level) {rest : List Token} (hends : Ends k rest) :
    Reads (.level k) (tokensOf row ++ rest) e rest := by
  rcases Nat.lt_or_ge Parser.tightestLevel k with hlt | hge
  · exact .operand hlt (h.unary (show 6 ≤ level from Nat.le_trans hlt hk) hends.suffix)
  · exact h.operators hk hge (hends.mono (Nat.le_succ k)) (.operatorsDone (hends.operator k (Nat.le_refl k)))

/-- What is printed for a level can stand on every looser one. -/
theorem mono (h : Prints level row e) (hk : k ≤ level) : Prints k row e where
  suffixes hloose := h.suffixes (hloose.trans hk)
  unary hunary := h.unary (hunary.trans hk)
  operators hl := h.operators (hl.trans hk)

/-- What is read alone at a level is an operand at every looser one. -/
theorem descend (h : ∀ {rest}, Ends k rest → Reads (.level k) (tokensOf row ++ rest) e rest) (hk : k ≤ unaryLevel) {l : Nat} (hl : l < k)
    {rest tail : List Token} {r : Expr} (hends : Ends (l + 1) rest) (more : Reads (.operators l e) rest r tail) :
    Reads (.level l) (tokensOf row ++ rest) r tail := by
  induction hd : k - l generalizing l rest r tail with
  | zero => omega
  | succ d ih =>
    refine .level (Nat.le_of_lt_succ (show l < 6 from Nat.lt_of_lt_of_le hl hk)) ?_ more
    rcases Nat.eq_or_lt_of_le hl with rfl | hlt
    · exact h hends
    · exact ih hlt (hends.mono (Nat.le_succ _)) (.operatorsDone (hends.operator _ (Nat.le_refl _))) (by omega)

/-- A row is printed at the level of a binary operator if it is read there with the operators behind it. -/
theorem ofOperators (hk : k ≤ Parser.tightestLevel) (h : ∀ {rest r tail}, Ends (k + 1) rest → Reads (.operators k e) rest r tail →
    Reads (.level k) (tokensOf row ++ rest) r tail) : Prints k row e where
  suffixes hloose := absurd (show 7 ≤ 5 from hloose.trans hk) (by decide)
  unary hunary := absurd (show 6 ≤ 5 from hunary.trans hk) (by decide)
  operators {l} hl _ rest r tail hends more := by
    rcases Nat.eq_or_lt_of_le hl with rfl | hlt
    · exact h hends more
    · refine descend (fun {rest} hends => ?_) (hk.trans (by decide)) hlt hends more
      exact h (hends.mono (Nat.le_succ k)) (.operatorsDone (hends.operator k (Nat.le_refl k)))

/-- What is read in front of anything but a suffix is printed for the level of unary operators. -/
theorem ofUnary (h : ∀ {rest}, ¬atSuffix rest → Reads .unary (tokensOf row ++ rest) e rest) : Prints unaryLevel row e where
  suffixes hloose := absurd (show 7 ≤ 6 from hloose) (by decide)
  unary _ := h
  operators {l} _ htight rest r tail hends more :=
    descend (fun hends => .operand (by decide) (h hends.suffix)) (Nat.le_refl 6) (Nat.lt_succ_of_le htight) hends more

/-- What is read in front of every suffix is printed for the tightest level. -/
theorem ofPostfix (h : ∀ {rest r tail}, Reads (.suffixes e) rest r tail → ReadsPostfix (tokensOf row ++ rest) r tail) :
    Prints postfixLevel row e := by
  have hunary : ∀ {rest}, ¬atSuffix rest → Reads .unary (tokensOf row ++ rest) e rest := by
    intro rest hends
    obtain ⟨base, between, hprimary, hsuffixes, hplain⟩ := h (.suffixesDone hends)
    exact .suffixed hplain hprimary hsuffixes
  refine ⟨fun _ => h, fun _ => hunary, fun _ htight _ _ _ hends more => ?_⟩
  exact (ofUnary hunary).operators (htight.trans (by decide)) htight hends more

/-- In brackets an expression can stand everywhere. -/
theorem bracketed (h : Prints level row e) : Prints postfixLevel (inBrackets row) e := by
  refine ofPostfix fun {rest r tail} more => ⟨e, rest, ?_, more, rfl⟩
  have inner := h.alone (Nat.zero_le level) (ends_closer (show ")" ∈ closers by decide) rest)
  rw [inBrackets, List.cons_append, tokensOf_cons, tokensOf_append, List.cons_append, List.append_assoc]
  exact .bracketed (isSymbol_symbol "(") inner rfl

/-- With brackets where its level asks for them an expression can stand on the given level. -/
theorem guarded {printed : Expr} (h : Prints printed.level row e) (hk : k ≤ postfixLevel) : Prints k (guarded k printed row) e := by
  unfold Script.guarded
  split
  · exact h.bracketed.mono hk
  · exact h.mono (Nat.le_of_not_lt ‹_›)

/-- A row of one token that is read as an atom. -/
theorem ofAtom {s : Shape} (h : atom? s.token = some e) (hsymbol : s.kind ≠ .symbol) : Prints postfixLevel [s] e := by
  refine ofPostfix fun {rest r tail} more => ⟨e, rest, .atom h, more, ?_⟩
  have hplain : ∀ symbol, s.token.isSymbol symbol = false := by
    intro symbol
    simp only [Token.isSymbol, Shape.token, Bool.and_eq_false_iff, beq_eq_false_iff_ne]
    exact .inl hsymbol
  simp [unaryOp?, hplain]

end Prints

/-- In front of more items, or of what closes them, an expression ends. -/
theorem ends_rows (numeral : Number → String) (items : List Expr) {text : String} (h : text ∈ closers) (rest : List Token) :
    Ends 0 (tokensOf (Expr.rows numeral items) ++ (Shape.symbol text).token :: rest) := by
  cases items with
  | nil => exact ends_closer h rest
  | cons e items => exact ends_closer (show "," ∈ closers by decide) _

/-- The fields of an object end an expression in front of them. -/
theorem ends_fieldRows (numeral : Number → String) (fields : List (Span × Expr × Expr)) {text : String} (h : text ∈ closers)
    (rest : List Token) : Ends 0 (tokensOf (Expr.fieldRows numeral fields) ++ (Shape.symbol text).token :: rest) := by
  cases fields with
  | nil => exact ends_closer h rest
  | cons field fields => exact ends_closer (show "," ∈ closers by decide) _

/-- A row that opens an expression is not spelled like a closing symbol. -/
theorem Opens.spelling_ne {row : Row} (h : Opens row) {c : Char} (hc : c ∈ Lexer.singleSymbols)
    (hcloses : String.singleton c ∉ ["(", "[", "\x7b", "-", "!"]) (rest : List Token) :
    spelling (tokensOf row ++ rest) ≠ String.singleton c := by
  obtain ⟨s, more, rfl, hs⟩ := h
  exact hs.spelling_ne hc hcloses

/-- A key that is printed is read as an expression: it does not begin with a name. -/
theorem keyRow_computed {row : Row} (h : Opens row) (rest : List Token) : (tokensOf (keyRow row) ++ rest).head?.bind name? = none := by
  unfold keyRow
  split
  · rfl
  · rename_i hplain
    obtain ⟨s, more, rfl, hs⟩ := h
    change name? s.token = none
    unfold name?
    refine if_neg fun ⟨hkind, hkeyword⟩ => hplain ?_
    have hconstant : s.text ∉ constants := by
      intro hmem
      have hkeywords : ∀ text ∈ constants, text ∈ Parser.keywords := by decide
      exact hkeyword (by simpa [Shape.token] using hkeywords _ hmem)
    simpa [beginsWithName] using ⟨hkind, hconstant⟩

/-- A string between its quotes is the literal of that string. -/
theorem atom?_string (text : String) :
    atom? (Shape.token ⟨.string, String.ofList (Json.quotedBody text)⟩) = some (.string .nowhere text) := by
  have hlexeme : Token.lexeme (Shape.token ⟨.string, String.ofList (Json.quotedBody text)⟩) = Json.quote text := by
    rw [Json.quote_eq]
    apply String.toList_injective
    simp [Token.lexeme, Token.delimiter?, Shape.token]
  simp only [atom?, Shape.token] at hlexeme ⊢
  rw [hlexeme, Json.unquote_quote]
  rfl

/-- A name is the variable of that name. -/
theorem atom?_name {name : String} (h : IsName name) : atom? (Shape.word name).token = some (.var .nowhere name) := by
  have hconstant : ∀ text ∈ constants, name ≠ text := by
    rintro text htext rfl
    have hkeywords : ∀ text ∈ constants, text ∈ Parser.keywords := by decide
    exact h.2 (hkeywords _ htext)
  have htrue := hconstant "true" (by decide)
  have hfalse := hconstant "false" (by decide)
  have hnull := hconstant "null" (by decide)
  have hname := name?_word h
  simp only [atom?, Shape.token, Shape.word, beq_iff_eq, htrue, hfalse, hnull, if_false] at hname ⊢
  rw [hname]
  rfl

/-- A postfix expression is printed with whatever its base is followed by. -/
theorem Prints.behind {level : Nat} {row more : Row} {base e : Expr} (h : Prints level row base) (hlevel : postfixLevel ≤ level)
    (hmore : ∀ {rest r tail}, Reads (.suffixes e) rest r tail → Reads (.suffixes base) (tokensOf more ++ rest) r tail) :
    Prints postfixLevel (row ++ more) e := by
  refine .ofPostfix fun {rest r tail} hrest => ?_
  rw [tokensOf_append, List.append_assoc]
  exact h.suffixes hlevel (hmore hrest)

mutual

/-- The row of an expression is read as the expression, up to its level. -/
theorem Expr.prints_row (hwrites : Writes numeral literal) :
    (e : Expr) → e.Printable literal → Prints e.level (e.row numeral) e.bare
  | .null _, _ => .ofAtom rfl nofun
  | .bool _ true, _ => .ofAtom rfl nofun
  | .bool _ false, _ => .ofAtom rfl nofun
  | .number _ n, h => .ofAtom (by simp [atom?, Shape.token, (hwrites n h).2, Expr.bare]; rfl) nofun
  | .string _ text, _ => .ofAtom (atom?_string text) nofun
  | .rawString _ _, _ => .ofAtom rfl nofun
  | .var _ _, h => .ofAtom (atom?_name h) nofun
  | .array _ [], _ => .ofPostfix fun more => ⟨_, _, .arrayEmpty (isSymbol_symbol "[") rfl, more, rfl⟩
  | .array _ (first :: items), h => by
    refine .ofPostfix fun {rest r tail} more => ⟨_, rest, ?_, more, rfl⟩
    have hitems := Expr.reads_items hwrites items h.2 rest
    have hfirst := (first.prints_row hwrites h.1).alone (Nat.zero_le _) (ends_rows numeral items (show "]" ∈ closers by decide) rest)
    have hfilled := (first.opens_row hwrites h.1).spelling_ne (show ']' ∈ Lexer.singleSymbols by decide) (by decide)
    simp only [Expr.row, Expr.rows, List.tail_cons, List.cons_append, tokensOf_cons, tokensOf_append, List.append_assoc, tokensOf_nil,
      List.nil_append]
    exact .array (isSymbol_symbol "[") (hfilled _) hfirst hitems
  | .object _ fields, h => by
    refine .ofPostfix fun {rest r tail} more => ⟨_, rest, ?_, more, rfl⟩
    have hfields := Expr.reads_fields hwrites fields h rest
    simp only [Expr.row, List.cons_append, tokensOf_cons, tokensOf_append, List.append_assoc, tokensOf_nil, List.nil_append]
    exact .object (isSymbol_symbol "\x7b") hfields
  | .call _ callee [], h =>
    ((callee.prints_row hwrites h.1).guarded (Nat.le_refl _)).behind (Nat.le_refl _) fun more =>
      .callEmpty (isSymbol_symbol "(") rfl more
  | .call _ callee (first :: args), h => by
    refine ((callee.prints_row hwrites h.1).guarded (Nat.le_refl _)).behind (Nat.le_refl _) fun {rest r tail} more => ?_
    have hargs := Expr.reads_args hwrites args h.2.2 callee.bare rest
    have hfirst := (first.prints_row hwrites h.2.1).alone (Nat.zero_le _) (ends_rows numeral args (show ")" ∈ closers by decide) rest)
    have hfilled := (first.opens_row hwrites h.2.1).spelling_ne (show ')' ∈ Lexer.singleSymbols by decide) (by decide)
    simp only [Expr.rows, List.tail_cons, List.cons_append, tokensOf_cons, tokensOf_append, List.append_assoc, tokensOf_nil,
      List.nil_append]
    exact .call (isSymbol_symbol "(") (hfilled _) hfirst hargs more
  | .unary _ op operand, h => by
    have hoperand := (operand.prints_row hwrites h).guarded (show unaryLevel ≤ postfixLevel by decide)
    refine .ofUnary fun {rest} hends => .prefixed ?_ (hoperand.unary (Nat.le_refl _) hends)
    cases op <;> rfl
  | .member _ base field, h =>
    ((base.prints_row hwrites h.1).guarded (Nat.le_refl _)).behind (Nat.le_refl _) fun more =>
      .member (isSymbol_symbol ".") (name?_word h.2) more
  | .index _ base key, h => by
    refine ((base.prints_row hwrites h.1).guarded (Nat.le_refl _)).behind (Nat.le_refl _) fun {rest r tail} more => ?_
    have hkey := (key.prints_row hwrites h.2).alone (Nat.zero_le _) (ends_closer (show "]" ∈ closers by decide) rest)
    simp only [List.cons_append, tokensOf_cons, tokensOf_append, List.append_assoc, tokensOf_nil, List.nil_append]
    exact .index (isSymbol_symbol "[") hkey rfl more
  | .binary _ op left right, h => by
    have htight : op.level ≤ Parser.tightestLevel := by
      rcases op with (_ | _ | _ | _ | _) | (_ | _ | _ | _ | _ | _) | (_ | _) <;> decide
    have hleft := (left.prints_row hwrites h.1).guarded (htight.trans (by decide))
    have hright := (right.prints_row hwrites h.2).guarded (Nat.succ_le_succ htight |>.trans (by decide))
    refine .ofOperators htight fun {rest r tail} hends more => ?_
    simp only [Expr.row, tokensOf_append, List.append_assoc, tokensOf_cons, List.cons_append]
    exact hleft.operators (Nat.le_refl _) htight (ends_operator op _)
      (.operatorsMore (operator?_symbol op) (hright.alone (Nat.le_refl _) hends) more)

/-- The items of an array behind the first one. -/
theorem Expr.reads_items (hwrites : Writes numeral literal) : (items : List Expr) → Expr.AllPrintable literal items →
    (rest : List Token) → Reads .items (tokensOf (Expr.rows numeral items) ++ (Shape.symbol "]").token :: rest)
      (.array .nowhere (Expr.bares items)) rest
  | [], _, _ => .itemsDone rfl
  | e :: items, h, rest => by
    have hfilled := (e.opens_row hwrites h.1).spelling_ne (show ']' ∈ Lexer.singleSymbols by decide) (by decide)
    have hfirst := (e.prints_row hwrites h.1).alone (Nat.zero_le _) (ends_rows numeral items (show "]" ∈ closers by decide) rest)
    simp only [Expr.rows, tokensOf_append, List.append_assoc, tokensOf_cons, List.cons_append]
    exact .itemsMore rfl (hfilled _) hfirst (Expr.reads_items hwrites items h.2 rest)

/-- The arguments of a call behind the first one. -/
theorem Expr.reads_args (hwrites : Writes numeral literal) : (args : List Expr) → Expr.AllPrintable literal args → (callee : Expr) →
    (rest : List Token) → Reads (.args callee) (tokensOf (Expr.rows numeral args) ++ (Shape.symbol ")").token :: rest)
      (.call .nowhere callee (Expr.bares args)) rest
  | [], _, _, _ => .argsDone rfl
  | e :: args, h, callee, rest => by
    have hfirst := (e.prints_row hwrites h.1).alone (Nat.zero_le _) (ends_rows numeral args (show ")" ∈ closers by decide) rest)
    simp only [Expr.rows, tokensOf_append, List.append_assoc, tokensOf_cons, List.cons_append]
    exact .argsMore rfl hfirst (Expr.reads_args hwrites args h.2 callee rest)

/-- The fields of an object. -/
theorem Expr.reads_fields (hwrites : Writes numeral literal) : (fields : List (Span × Expr × Expr)) →
    Expr.FieldsPrintable literal fields → (rest : List Token) →
    Reads .fields (tokensOf (Expr.fieldRows numeral fields).tail ++ (Shape.symbol "\x7d").token :: rest)
      (.object .nowhere (Expr.bareFields fields)) rest
  | [], _, _ => .fieldsDone rfl
  | (_, key, value) :: fields, h, rest => by
    have hopens := key.opens_row hwrites h.1
    have hfilled := hopens.keyRow.spelling_ne (show '\x7d' ∈ Lexer.singleSymbols by decide) (by decide)
    have hkey : ∀ rest, Reads (.level 0) (tokensOf (keyRow (key.row numeral)) ++ (Shape.symbol ":").token :: rest) key.bare
        ((Shape.symbol ":").token :: rest) := by
      intro rest
      have hprints := key.prints_row hwrites h.1
      have hends := ends_closer (show ":" ∈ closers by decide) rest
      unfold keyRow
      split
      · exact hprints.bracketed.alone (Nat.zero_le _) hends
      · exact hprints.alone (Nat.zero_le _) hends
    have hvalue := (value.prints_row hwrites h.2.1).alone (Nat.zero_le _)
      (ends_fieldRows numeral fields (show "\x7d" ∈ closers by decide) rest)
    have hfields := Expr.reads_fields hwrites fields h.2.2 rest
    simp only [Expr.fieldRows, List.tail_cons, tokensOf_append, List.append_assoc, tokensOf_cons, List.cons_append]
    cases fields with
    | nil => exact .fieldsLast (hfilled _) (.keyExpr (keyRow_computed hopens _) (hkey _)) rfl hvalue rfl
    | cons field fields => exact .fieldsMore (hfilled _) (.keyExpr (keyRow_computed hopens _) (hkey _)) rfl hvalue rfl hfields

end

/-- A printed expression is read in front of a closing symbol. -/
theorem Expr.reads_row (hwrites : Writes numeral literal) {e : Expr} (h : e.Printable literal) {text : String} (htext : text ∈ closers)
    (rest : List Token) :
    Reads (.level 0) (tokensOf (e.row numeral) ++ (Shape.symbol text).token :: rest) e.bare ((Shape.symbol text).token :: rest) :=
  (e.prints_row hwrites h).alone (Nat.zero_le _) (ends_closer htext rest)

/-- At the beginning of a statement a printed expression is shielded. -/
theorem Expr.reads_shielded (hwrites : Writes numeral literal) {e : Expr} (h : e.Printable literal) {text : String}
    (htext : text ∈ closers) (rest : List Token) :
    Reads (.level 0) (tokensOf (shielded (e.row numeral)) ++ (Shape.symbol text).token :: rest) e.bare
      ((Shape.symbol text).token :: rest) := by
  have hprints := e.prints_row hwrites h
  have hends := ends_closer htext rest
  unfold shielded
  split
  · exact hprints.bracketed.alone (Nat.zero_le _) hends
  · exact hprints.alone (Nat.zero_le _) hends

/-! ## Statements -/

/-- A condition between brackets. -/
theorem reads_inBrackets (hwrites : Writes numeral literal) {cond : Expr} (h : cond.Printable literal) (rest : List Token) :
    ReadsCondition (tokensOf (inBrackets (cond.row numeral)) ++ rest) cond.bare rest := by
  have hcond := Expr.reads_row hwrites h (show ")" ∈ closers by decide) rest
  simp only [inBrackets, List.cons_append, tokensOf_cons, tokensOf_append, List.append_assoc, tokensOf_nil, List.nil_append]
  exact .mk rfl hcond rfl

/-- The parameters of a function, up to the closing bracket. -/
theorem reads_nameRows {params : List Ident} (h : ∀ param ∈ params, IsName param.name) (rest : List Token) :
    ReadsParams (tokensOf (nameRows params) ++ (Shape.symbol ")").token :: rest) (params.map Ident.bare) rest := by
  induction params with
  | nil => exact .done rfl
  | cons param params ih =>
    exact .more rfl (name?_word (h param List.mem_cons_self)) (ih fun p hp => h p (List.mem_cons_of_mem param hp))

/-- Printed parameters are read up to the closing bracket. -/
theorem reads_params {params : List Ident} (h : ∀ param ∈ params, IsName param.name) (rest : List Token) :
    ReadsParamList (tokensOf (nameRows params).tail ++ (Shape.symbol ")").token :: rest) (params.map Ident.bare) rest := by
  cases params with
  | nil => exact .empty rfl
  | cons param params =>
    have hname := h param List.mem_cons_self
    have hfilled : (Shape.word param.name).token.spelling ≠ ")" :=
      spelling_ne_symbol hname.1 (show TokenKind.ident ≠ .symbol by decide) (show ')' ∈ Lexer.singleSymbols by decide)
    exact .names hfilled (name?_word hname) (reads_nameRows (fun p hp => h p (List.mem_cons_of_mem param hp)) rest)

/-- The first token of a statement: no closing brace, and neither `else` nor `use`. -/
structure OpensStmt (s : Shape) : Prop where
  symbol : s ≠ .symbol "\x7d"
  word : s ≠ .word "else" ∧ s ≠ .word "use"

/-- What begins an expression begins no other statement. -/
theorem OpensExpr.opensStmt {s : Shape} (h : OpensExpr s) : OpensStmt s := by
  have hnames : ∀ text ∈ ["else", "use"], text ∈ Parser.keywords ∧ text ∉ constants := by decide
  have hword : ∀ text ∈ ["else", "use"], s ≠ .word text := by
    rintro text htext rfl
    exact (h.word rfl).elim (absurd (hnames text htext).1) (hnames text htext).2
  refine ⟨?_, hword _ (by decide), hword _ (by decide)⟩
  rintro rfl
  exact absurd (h.symbol rfl) (by decide)

/-- How the row of a statement begins. -/
theorem Stmt.opens_row (hwrites : Writes numeral literal) (s : Stmt) (h : s.Printable literal) :
    ∃ first more, s.row numeral = first :: more ∧ OpensStmt first := by
  have hwords : ∀ text ∈ ["let", "function", "if", "while", "return", "break", "continue"], OpensStmt (.word text) := by
    intro text htext
    have hother : ∀ text ∈ ["let", "function", "if", "while", "return", "break", "continue"], text ≠ "else" ∧ text ≠ "use" := by decide
    obtain ⟨helse, huse⟩ := hother text htext
    exact ⟨by simp [Shape.word, Shape.symbol], fun heq => helse (Shape.mk.inj heq).2, fun heq => huse (Shape.mk.inj heq).2⟩
  cases s with
  | let_ _ name value => exact ⟨_, _, rfl, hwords _ (by decide)⟩
  | function _ _ _ _ => exact ⟨_, _, rfl, hwords _ (by decide)⟩
  | if_ _ _ _ _ => exact ⟨_, _, rfl, hwords _ (by decide)⟩
  | while_ _ _ _ => exact ⟨_, _, rfl, hwords _ (by decide)⟩
  | return_ _ value => cases value <;> exact ⟨_, _, rfl, hwords _ (by decide)⟩
  | break_ _ => exact ⟨_, _, rfl, hwords _ (by decide)⟩
  | continue_ _ => exact ⟨_, _, rfl, hwords _ (by decide)⟩
  | block body =>
    cases body
    exact ⟨_, _, rfl, by decide, by decide, by decide⟩
  | assign _ target value =>
    obtain ⟨first, more, hrow, hopens⟩ :=
      (target.opens_row hwrites h.2.1).shielded.append (.symbol "=" :: value.row numeral ++ [.symbol ";"])
    exact ⟨first, more, hrow, hopens.opensStmt⟩
  | expr _ e =>
    obtain ⟨first, more, hrow, hopens⟩ := (e.opens_row hwrites h).shielded.append [.symbol ";"]
    exact ⟨first, more, hrow, hopens.opensStmt⟩

/-- A shielded row is not taken for any other statement. -/
theorem plain_shielded {row : Row} (h : Opens row) (rest : List Token) : ¬opensStatement (tokensOf (shielded row) ++ rest) := by
  obtain ⟨s, more, hrow, hs, hbrace⟩ : ∃ s more, shielded row = s :: more ∧ OpensExpr s ∧ s ≠ .symbol "\x7b" := by
    unfold shielded
    split
    · exact ⟨_, _, rfl, opensExpr_symbol (by decide), by decide⟩
    · rename_i hplain
      obtain ⟨s, more, rfl, hs⟩ := h
      exact ⟨s, more, rfl, hs, fun heq => hplain (congrArg some heq)⟩
  have hwords : ∀ word ∈ ["let", "function", "if", "while", "return", "break", "continue", "else"], ¬s.token.isIdent word := by
    have hkeywords : ∀ word ∈ ["let", "function", "if", "while", "return", "break", "continue", "else"],
        word ∈ Parser.keywords ∧ word ∉ constants := by decide
    intro word hword hident
    simp only [Token.isIdent, Shape.token, Bool.and_eq_true, beq_iff_eq] at hident
    obtain ⟨hkind, rfl⟩ := hident
    exact (hs.word hkind).elim (absurd (hkeywords _ hword).1) (hkeywords _ hword).2
  have hclose : ¬s.token.isSymbol "\x7d" := by
    intro hsymbol
    simp only [Token.isSymbol, Shape.token, Bool.and_eq_true, beq_iff_eq] at hsymbol
    have := hs.symbol hsymbol.1
    rw [hsymbol.2] at this
    exact absurd this (by decide)
  have hopen : ¬s.token.isSymbol "\x7b" := by
    intro hsymbol
    simp only [Token.isSymbol, Shape.token, Bool.and_eq_true, beq_iff_eq] at hsymbol
    exact hbrace (by cases s; exact congrArg₂ Shape.mk hsymbol.1 hsymbol.2)
  rw [hrow]
  simp only [opensStatement, Bool.or_eq_true, List.any_eq_true, not_or, not_exists, not_and]
  exact ⟨⟨fun word hword => hwords word hword, hopen⟩, hclose⟩

/-- More statements, and the brace behind them, do not go on with an `if`. -/
theorem rows_not_else (hwrites : Writes numeral literal) {stmts : List Stmt} (h : Stmt.AllPrintable literal stmts) {rest : List Token}
    (hrest : ¬atWord "else" rest) : ¬atWord "else" (tokensOf (Stmt.rows numeral stmts) ++ rest) := by
  cases stmts with
  | nil => exact hrest
  | cons s stmts =>
    obtain ⟨first, more, hrow, hopens⟩ := s.opens_row hwrites h.1
    rw [Stmt.rows, hrow]
    intro hat
    simp only [List.cons_append, tokensOf_cons, atWord, List.head?_cons, Option.any_some, Token.isIdent, Shape.token, Bool.and_eq_true,
      beq_iff_eq] at hat
    exact hopens.word.1 (by cases first; exact congrArg₂ Shape.mk hat.1 hat.2)

/-- A block whose row is read, behind its brace. -/
def ReadsBlock (numeral : Number → String) (body : Block) : Prop :=
  ∀ rest, ∃ more, tokensOf (body.row numeral) ++ rest = (Shape.symbol "\x7b").token :: more ∧
    ReadsStmt .body more (.block body.bare) rest

mutual

/-- The row of a statement is read as the statement, if no `else` follows. -/
theorem Stmt.reads_row (hwrites : Writes numeral literal) : (s : Stmt) → s.Printable literal → (rest : List Token) →
    ¬atWord "else" rest → ReadsStmt .stmt (tokensOf (s.row numeral) ++ rest) s.bare rest
  | .let_ _ name value, h, rest, _ => by
    have hvalue := Expr.reads_row hwrites h.2 (show ";" ∈ closers by decide) rest
    simp only [Stmt.row, List.cons_append, tokensOf_cons, tokensOf_append, List.append_assoc, tokensOf_nil, List.nil_append]
    exact .let_ (isIdent_word "let") (name?_word h.1) rfl hvalue rfl
  | .assign _ target value, h, rest, _ => by
    have hvalue := Expr.reads_row hwrites h.2.2 (show ";" ∈ closers by decide) rest
    have htarget := Expr.reads_shielded hwrites h.2.1 (show "=" ∈ closers by decide)
      (tokensOf (value.row numeral) ++ (Shape.symbol ";").token :: rest)
    have hplain := plain_shielded (target.opens_row hwrites h.2.1)
    simp only [Stmt.row, List.cons_append, tokensOf_cons, tokensOf_append, List.append_assoc, tokensOf_nil, List.nil_append]
    exact .assign (hplain _) htarget (isSymbol_symbol "=") ((AcceptedStmt.isTarget_bare target).trans h.1) hvalue rfl
  | .function _ name params body, h, rest, _ => by
    have hparams := reads_params h.2.1 (tokensOf (body.row numeral) ++ rest)
    obtain ⟨more, hbody, hread⟩ := body.reads_row hwrites h.2.2 rest
    rw [hbody] at hparams
    simp only [Stmt.row, List.cons_append, tokensOf_cons, tokensOf_append, List.append_assoc]
    rw [hbody]
    exact .function (isIdent_word "function") (name?_word h.1) rfl hparams rfl hread
  | .if_ _ _ body otherwise, h, rest, hrest =>
    otherwise.reads_row hwrites h.2.2 h.1 (body.reads_row hwrites h.2.1) rest hrest
  | .while_ _ cond body, h, rest, _ => by
    obtain ⟨more, hbody, hread⟩ := body.reads_row hwrites h.2 rest
    have hcond := reads_inBrackets hwrites h.1 (tokensOf (body.row numeral) ++ rest)
    rw [hbody] at hcond
    simp only [Stmt.row, List.cons_append, tokensOf_cons, tokensOf_append, List.append_assoc]
    rw [hbody]
    exact .while_ (isIdent_word "while") hcond rfl hread
  | .return_ _ none, _, rest, _ => .returnNothing (isIdent_word "return") (isSymbol_symbol ";")
  | .return_ _ (some value), h, rest, _ => by
    have hvalue := Expr.reads_row hwrites (h value rfl) (show ";" ∈ closers by decide) rest
    have hfilled := (value.opens_row hwrites (h value rfl)).spelling_ne (show ';' ∈ Lexer.singleSymbols by decide) (by decide)
    simp only [Stmt.row, List.cons_append, tokensOf_cons, tokensOf_append, List.append_assoc, tokensOf_nil, List.nil_append]
    refine .return_ (isIdent_word "return") hvalue rfl fun hat => hfilled ((Shape.symbol ";").token :: rest) ?_
    obtain ⟨token, more, hrow, htoken⟩ := Parser.cons_of_atSymbol hat
    rw [hrow, spelling_cons]
    exact spelling_of_isSymbol htoken
  | .break_ _, _, rest, _ => .break_ (isIdent_word "break") rfl
  | .continue_ _, _, rest, _ => .continue_ (isIdent_word "continue") rfl
  | .block body, h, rest, _ => by
    obtain ⟨more, hbody, hread⟩ := body.reads_row hwrites h rest
    rw [Stmt.row, hbody]
    exact .block (isSymbol_symbol "\x7b") hread
  | .expr _ e, h, rest, _ => by
    have hvalue := Expr.reads_shielded hwrites h (show ";" ∈ closers by decide) rest
    have hplain := plain_shielded (e.opens_row hwrites h)
    simp only [Stmt.row, tokensOf_cons, tokensOf_append, List.append_assoc, tokensOf_nil, List.nil_append, List.cons_append]
    exact .expr (hplain _) hvalue rfl

/-- An `if` is read as it is printed, whatever follows its first block. -/
theorem Otherwise.reads_row (hwrites : Writes numeral literal) : (otherwise : Otherwise) → otherwise.Printable literal →
    {cond : Expr} → cond.Printable literal → {body : Block} → ReadsBlock numeral body → (rest : List Token) → ¬atWord "else" rest →
    ReadsStmt .stmt (tokensOf (.word "if" :: inBrackets (cond.row numeral) ++ (body.row numeral ++ otherwise.row numeral)) ++ rest)
      (.if_ .nowhere cond.bare body.bare otherwise.bare) rest
  | .nothing, _, cond, hcond, body, hbody, rest, hrest => by
    obtain ⟨more, hrow, hread⟩ := hbody rest
    have hcond := reads_inBrackets hwrites hcond (tokensOf (body.row numeral) ++ rest)
    rw [hrow] at hcond
    simp only [Otherwise.row, List.append_nil, List.cons_append, tokensOf_cons, tokensOf_append, List.append_assoc]
    rw [hrow]
    exact .if_ (isIdent_word "if") hcond rfl hread hrest
  | .block alternate, h, cond, hcond, body, hbody, rest, _ => by
    obtain ⟨more', hrow', hread'⟩ := alternate.reads_row hwrites h rest
    obtain ⟨more, hrow, hread⟩ := hbody ((Shape.word "else").token :: (Shape.symbol "\x7b").token :: more')
    have hcond := reads_inBrackets hwrites hcond
      (tokensOf (body.row numeral) ++ (Shape.word "else").token :: (Shape.symbol "\x7b").token :: more')
    rw [hrow] at hcond
    simp only [Otherwise.row, List.cons_append, tokensOf_cons, tokensOf_append, List.append_assoc]
    rw [hrow', hrow]
    exact .ifElse (isIdent_word "if") hcond rfl hread (isIdent_word "else") nofun rfl hread'
  | .elseIf _ cond' body' otherwise, h, cond, hcond, body, hbody, rest, hrest => by
    have halternate := otherwise.reads_row hwrites h.2.2 h.1 (body'.reads_row hwrites h.2.1) rest hrest
    obtain ⟨more, hrow, hread⟩ := hbody ((Shape.word "else").token ::
      (tokensOf (.word "if" :: inBrackets (cond'.row numeral) ++ (body'.row numeral ++ otherwise.row numeral)) ++ rest))
    have hcond := reads_inBrackets hwrites hcond (tokensOf (body.row numeral) ++ (Shape.word "else").token ::
      (tokensOf (.word "if" :: inBrackets (cond'.row numeral) ++ (body'.row numeral ++ otherwise.row numeral)) ++ rest))
    rw [hrow] at hcond
    simp only [Otherwise.row, List.cons_append, tokensOf_cons, tokensOf_append, List.append_assoc] at hrow hcond hread halternate ⊢
    rw [hrow]
    exact .ifElseIf (isIdent_word "if") hcond rfl hread (isIdent_word "else") (isIdent_word "if") halternate

/-- The row of a block is read as the block. -/
theorem Block.reads_row (hwrites : Writes numeral literal) : (body : Block) → body.Printable literal → ReadsBlock numeral body
  | .mk _ stmts, h => by
    intro rest
    refine ⟨_, ?_, Stmt.reads_rows hwrites stmts h rest⟩
    simp only [Block.row, List.cons_append, tokensOf_cons, tokensOf_append, List.append_assoc, tokensOf_nil, List.nil_append]

/-- The rows of statements are read as the statements of a block, up to its closing brace. -/
theorem Stmt.reads_rows (hwrites : Writes numeral literal) : (stmts : List Stmt) → Stmt.AllPrintable literal stmts →
    (rest : List Token) → ReadsStmt .body (tokensOf (Stmt.rows numeral stmts) ++ (Shape.symbol "\x7d").token :: rest)
      (.block (.mk .nowhere (Stmt.bares stmts))) rest
  | [], _, _ => .bodyDone (isSymbol_symbol "\x7d")
  | s :: stmts, h, rest => by
    have hends : ¬atWord "else" ((Shape.symbol "\x7d").token :: rest) := nofun
    have hfirst := s.reads_row hwrites h.1 _ (rows_not_else hwrites h.2 hends)
    have hmore := Stmt.reads_rows hwrites stmts h.2 rest
    obtain ⟨first, more, hrow, hopens⟩ := s.opens_row hwrites h.1
    have hfilled : ¬atSymbol "\x7d" (tokensOf (s.row numeral) ++ (tokensOf (Stmt.rows numeral stmts) ++
        (Shape.symbol "\x7d").token :: rest)) := by
      rw [hrow]
      intro hat
      simp only [List.cons_append, tokensOf_cons, atSymbol, List.head?_cons, Option.any_some, Token.isSymbol, Shape.token,
        Bool.and_eq_true, beq_iff_eq] at hat
      exact hopens.symbol (by cases first; exact congrArg₂ Shape.mk hat.1 hat.2)
    simp only [Stmt.rows, tokensOf_append, List.append_assoc]
    exact .bodyMore hfilled hfirst hmore

end

/-! ## Scripts -/

/-- The rows of statements are read up to the end of a script. -/
theorem Stmt.reads_rows_toEnd (hwrites : Writes numeral literal) (stmts : List Stmt) (h : Stmt.AllPrintable literal stmts) :
    ReadsStmts (tokensOf (Stmt.rows numeral stmts)) (Stmt.bares stmts) := by
  induction stmts with
  | nil => exact .done
  | cons s stmts ih =>
    have hends := rows_not_else hwrites h.2 (show ¬atWord "else" [] by decide)
    rw [List.append_nil] at hends
    rw [Stmt.rows, tokensOf_append]
    exact .more (s.reads_row hwrites h.1 _ hends) (ih h.2)

/-- The row of a script is read as the script. -/
theorem Module.reads_row (hwrites : Writes numeral literal) (m : Module) (h : m.Printable literal) :
    ReadsModule (tokensOf (m.row numeral)) m.bare := by
  obtain ⟨host, stmts⟩ := m
  have hbody := Stmt.reads_rows_toEnd hwrites stmts h.2
  cases host with
  | some host => exact .hosted (isIdent_word "use") (isIdent_word "host") rfl (name?_word (h.1 host rfl)) rfl hbody
  | none =>
    refine .plain (fun hat => ?_) hbody
    change atWord "use" (tokensOf (Stmt.rows numeral stmts)) = true at hat
    cases stmts with
    | nil => cases hat
    | cons s stmts =>
      obtain ⟨first, more, hrow, hopens⟩ := s.opens_row hwrites h.2.1
      rw [Stmt.rows, hrow] at hat
      simp only [List.cons_append, tokensOf_cons, atWord, List.head?_cons, Option.any_some, Token.isIdent, Shape.token, Bool.and_eq_true,
        beq_iff_eq] at hat
      exact hopens.word.2 (by cases first; exact congrArg₂ Shape.mk hat.1 hat.2)

end HostScript.Script
