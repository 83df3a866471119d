import Mathlib
import HostScript.Proofs.Dialect.Emitted
import HostScript.Proofs.Script.Reread

/-!
# References to the exports are routed through the host

Inside an expression the dialect replaces the word `exports` by a member of the host. It looks at tokens, and at one token in front of
the word. For the tree of the expression this means that the variables of that name become members, and nothing else changes
(`expression_routed`): names behind a dot stay as they are, and so do literals. A key that is the bare name is replaced as well, and
then the text is no expression any more (`expression_bareKey`), so the statement leaves such keys out.
-/

namespace HostScript.Script

/-! ## Trees -/

mutual

/-- An expression with its references to `exports` routed through the host. -/
def Expr.routed : Expr → Expr
  | .null span => .null span
  | .bool span value => .bool span value
  | .number span value => .number span value
  | .string span text => .string span text
  | .rawString span text => .rawString span text
  | .var span name => if name = "exports" then .member span (.var span Dialect.hostAlias) ⟨span, name⟩ else .var span name
  | .array span items => .array span (Expr.routedItems items)
  | .object span fields => .object span (Expr.routedFields fields)
  | .call span callee args => .call span callee.routed (Expr.routedItems args)
  | .unary span op operand => .unary span op operand.routed
  | .member span base field => .member span base.routed field
  | .index span base key => .index span base.routed key.routed
  | .binary span op left right => .binary span op left.routed right.routed

/-- Expressions with their references routed. -/
def Expr.routedItems : List Expr → List Expr
  | [] => []
  | e :: rest => e.routed :: Expr.routedItems rest

/-- The fields of an object with their references routed. -/
def Expr.routedFields : List (Span × Expr × Expr) → List (Span × Expr × Expr)
  | [] => []
  | (span, key, value) :: rest => (span, key.routed, value.routed) :: Expr.routedFields rest

end

/-! ## Rows -/

/-- A row of tokens with `exports` routed through the host where it is no member name. -/
def routedRow (afterDot : Bool) : List Token → List Token
  | [] => []
  | token :: rest =>
    if Dialect.isReplaced afterDot token "exports" then
      { token with text := Dialect.hostAlias } :: (Dialect.Shape.symbol ".").token :: token :: routedRow false rest
    else token :: routedRow (token.isSymbol ".") rest

/-- Somewhere in a row the word `exports` stands between an opening brace or a comma and a colon. -/
def namesExports : List Token → Bool
  | opener :: token :: colon :: rest =>
    ((opener.spelling == "\x7b" || opener.spelling == ",") && token.isIdent "exports" && colon.spelling == ":") ||
      namesExports (token :: colon :: rest)
  | _ => false

variable {token : Token} {row rest : List Token}

theorem namesExports_of_cons (h : namesExports (token :: row) = false) : namesExports row = false := by
  match row, h with
  | [], _ => rfl
  | [_], _ => rfl
  | _ :: _ :: _, h => exact ((Bool.or_eq_false_iff.mp h).2)

theorem namesExports_of_suffix (h : namesExports row = false) (hrest : rest <:+ row) : namesExports rest = false := by
  obtain ⟨front, rfl⟩ := hrest
  induction front with
  | nil => exact h
  | cons token front ih => exact ih (namesExports_of_cons h)

/-- A token that is neither the word `exports` nor a dot stays, and what is behind it is no member name. -/
theorem routedRow_kept (hword : token.isIdent "exports" = false) (hdot : token.isSymbol "." = false) (rest : List Token) :
    routedRow false (token :: rest) = token :: routedRow false rest := by
  have hkept : Dialect.isReplaced false token "exports" = false := hword
  rw [routedRow, hkept, hdot]
  rfl

/-- The same for a token of a known spelling. -/
theorem routedRow_spelled {text : String} (h : token.spelling = text) (rest : List Token) (hword : text ≠ "exports") (hdot : text ≠ ".") :
    routedRow false (token :: rest) = token :: routedRow false rest := by
  refine routedRow_kept ?_ ?_ rest
  · rw [← Bool.not_eq_true]
    intro hident
    have htoken := Dialect.isIdent_eq hident
    rw [Token.spelling, htoken.1] at h
    exact hword (h ▸ htoken.2.symm ▸ rfl)
  · rw [← Bool.not_eq_true]
    intro hsymbol
    exact hdot (h ▸ (spelling_of_isSymbol hsymbol).symm ▸ rfl)

/-- A name is no symbol. -/
theorem isSymbol_of_name {name : Ident} (h : name? token = some name) (symbol : String) : token.isSymbol symbol = false := by
  unfold name? at h
  split at h
  case isTrue hname => simp [Token.isSymbol, hname.1]
  case isFalse => cases h

/-- Behind a dot every name stays. -/
theorem routedRow_member {dot : Token} {name : Ident} (hdot : dot.isSymbol ".") (hname : name? token = some name) (rest : List Token) :
    routedRow false (dot :: token :: rest) = dot :: token :: routedRow false rest := by
  have hident : Dialect.isReplaced false dot "exports" = false := by
    simp only [Token.isSymbol, Bool.and_eq_true, beq_iff_eq] at hdot
    simp [Dialect.isReplaced, Token.isIdent, hdot.1]
  have hkept : Dialect.isReplaced true token "exports" = false := rfl
  rw [routedRow, hident, hdot, if_neg Bool.false_ne_true, routedRow, hkept, if_neg Bool.false_ne_true, isSymbol_of_name hname]

/-- A row without the word stays. -/
theorem routedRow_of_none {afterDot : Bool} (h : ∀ t ∈ row, t.isIdent "exports" = false) : routedRow afterDot row = row := by
  induction row generalizing afterDot with
  | nil => rfl
  | cons token rest ih =>
    obtain ⟨htoken, hrest⟩ := List.forall_mem_cons.mp h
    have hkept : ¬Dialect.isReplaced afterDot token "exports" = true := by
      rw [Dialect.isReplaced, htoken, Bool.and_false]
      exact Bool.false_ne_true
    rw [routedRow, if_neg hkept, ih hrest]

/-- The word at the beginning of a row becomes a member of the host. -/
theorem routedRow_exports (htoken : token.isIdent "exports") (h : ∀ t ∈ rest, t.isIdent "exports" = false) :
    routedRow false (token :: rest) =
      { token with text := Dialect.hostAlias } :: (Dialect.Shape.symbol ".").token :: token :: rest := by
  have hreplaced : Dialect.isReplaced false token "exports" = true := htoken
  rw [routedRow, if_pos hreplaced, routedRow_of_none h]

/-- What a row begins with stays, but for the word `exports`, which becomes another word. -/
theorem head_routedRow (row : List Token) : (routedRow false row).head? = row.head? ∨
    ∃ token rest, row = token :: rest ∧ token.isIdent "exports" ∧
      (routedRow false row).head? = some { token with text := Dialect.hostAlias } := by
  cases row with
  | nil => exact .inl rfl
  | cons token rest =>
    by_cases hreplaced : Dialect.isReplaced false token "exports" = true
    · refine .inr ⟨token, rest, rfl, hreplaced, ?_⟩
      rw [routedRow, if_pos hreplaced]
      rfl
    · refine .inl ?_
      rw [routedRow, if_neg hreplaced]
      rfl

/-- A row keeps what it begins with, unless that is a word. -/
theorem spelling_routedRow (row : List Token) : spelling (routedRow false row) = spelling row ∨
    spelling row = "exports" ∧ spelling (routedRow false row) = Dialect.hostAlias := by
  rcases head_routedRow row with hsame | ⟨token, rest, rfl, htoken, hhead⟩
  · exact .inl (by rw [spelling, hsame, spelling])
  · have hident := Dialect.isIdent_eq htoken
    refine .inr ⟨?_, ?_⟩
    · rw [spelling_cons, Token.spelling, hident.1]
      exact hident.2
    · rw [spelling, hhead, Option.map_some, Option.getD_some, Token.spelling, hident.1]
      rfl

theorem spelling_routedRow_ne {text : String} (h : spelling row ≠ text) (htext : text ≠ Dialect.hostAlias) :
    spelling (routedRow false row) ≠ text := by
  rcases spelling_routedRow row with hsame | ⟨-, hhost⟩
  · rwa [hsame]
  · rw [hhost]
    exact htext.symm

theorem operator?_word {level : Nat} {word : String} (h : word = "exports" ∨ word = Dialect.hostAlias) :
    Parser.operator? level word = none := by
  by_contra hsome
  obtain ⟨op, hop⟩ := Option.ne_none_iff_exists'.mp hsome
  obtain ⟨-, hsymbol⟩ := operator?_eq_some hop
  rw [hsymbol] at h
  rcases op with (_ | _ | _ | _ | _) | (_ | _ | _ | _ | _ | _) | (_ | _) <;> exact absurd h (by decide)

theorem operator?_routedRow (level : Nat) (row : List Token) :
    Parser.operator? level (spelling (routedRow false row)) = Parser.operator? level (spelling row) := by
  rcases spelling_routedRow row with hsame | ⟨hword, hhost⟩
  · rw [hsame]
  · rw [hword, hhost, operator?_word (.inl rfl), operator?_word (.inr rfl)]

theorem atSuffix_routedRow (h : ¬atSuffix row) : ¬atSuffix (routedRow false row) := by
  rcases head_routedRow row with hsame | ⟨token, rest, rfl, htoken, hhead⟩
  · unfold atSuffix atSymbol at h ⊢
    rwa [hsame]
  · have hident := Dialect.isIdent_eq htoken
    unfold atSuffix atSymbol
    rw [hhead]
    simp [Token.isSymbol, hident.1]

/-- The word `exports` is a name. -/
theorem name?_exports (h : token.isIdent "exports") : name? token = some ⟨token.span, "exports"⟩ := by
  have hident := Dialect.isIdent_eq h
  rw [name?, hident.1, hident.2]
  rfl

theorem name?_routedRow (h : row.head?.bind name? = none) : (routedRow false row).head?.bind name? = none := by
  rcases head_routedRow row with hsame | ⟨token, rest, rfl, htoken, -⟩
  · rwa [hsame]
  · rw [List.head?_cons, Option.bind_some, name?_exports htoken] at h
    cases h

/-! ## Phrases -/

/-- What is left of a row is its end. -/
theorem Reads.suffix {p : Phrase} {e : Expr} (h : Reads p row e rest) : rest <:+ row := by
  induction h with
  | operand _ _ ih => exact ih
  | operatorsDone _ => exact List.suffix_refl _
  | suffixesDone _ => exact List.suffix_refl _
  | keyExpr _ _ ih => exact ih
  | level _ _ _ ihOperand ihMore => exact ihMore.trans ihOperand
  | operatorsMore _ _ _ ihOperand ihMore => exact (ihMore.trans ihOperand).trans (List.suffix_cons _ _)
  | prefixed _ _ ih => exact ih.trans (List.suffix_cons _ _)
  | suffixed _ _ _ ihPrimary ihMore => exact ihMore.trans ihPrimary
  | arrayEmpty _ _ => exact (List.suffix_cons _ _).trans (List.suffix_cons _ _)
  | array _ _ _ _ ihItem ihMore => exact (ihMore.trans ihItem).trans (List.suffix_cons _ _)
  | object _ _ ih => exact ih.trans (List.suffix_cons _ _)
  | bracketed _ _ _ ih => exact ((List.suffix_cons _ _).trans ih).trans (List.suffix_cons _ _)
  | atom _ => exact List.suffix_cons _ _
  | itemsDone _ => exact List.suffix_cons _ _
  | itemsComma _ _ => exact (List.suffix_cons _ _).trans (List.suffix_cons _ _)
  | itemsMore _ _ _ _ ihFirst ihMore => exact (ihMore.trans ihFirst).trans (List.suffix_cons _ _)
  | fieldsDone _ => exact List.suffix_cons _ _
  | fieldsLast _ _ _ _ _ ihKey ihValue => exact ((List.suffix_cons _ _).trans ihValue).trans ((List.suffix_cons _ _).trans ihKey)
  | fieldsMore _ _ _ _ _ _ ihKey ihValue ihMore =>
    exact ((ihMore.trans (List.suffix_cons _ _)).trans ihValue).trans ((List.suffix_cons _ _).trans ihKey)
  | keyName _ => exact List.suffix_cons _ _
  | member _ _ _ ih => exact (ih.trans (List.suffix_cons _ _)).trans (List.suffix_cons _ _)
  | index _ _ _ _ ihInner ihMore => exact ((ihMore.trans (List.suffix_cons _ _)).trans ihInner).trans (List.suffix_cons _ _)
  | callEmpty _ _ _ ih => exact (ih.trans (List.suffix_cons _ _)).trans (List.suffix_cons _ _)
  | call _ _ _ _ _ ihArg ihOthers ihMore => exact ((ihMore.trans ihOthers).trans ihArg).trans (List.suffix_cons _ _)
  | argsDone _ => exact List.suffix_cons _ _
  | argsMore _ _ _ ihFirst ihMore => exact (ihMore.trans ihFirst).trans (List.suffix_cons _ _)

/-- A phrase names no bare key `exports`. In front of a key stands an opening brace or a comma. -/
def Clear : Phrase → List Token → Prop
  | .fields, row | .key, row => ∃ opener : Token, (opener.spelling = "\x7b" ∨ opener.spelling = ",") ∧ namesExports (opener :: row) = false
  | _, row => namesExports row = false

/-- What a phrase is read as once its row is routed. A variable becomes a member, so a primary takes the members, indexes and calls
behind it along. -/
def Rerouted : Phrase → List Token → Expr → List Token → Prop
  | .primary, row, e, rest =>
    ∀ {r : Expr} {tail : List Token}, Reads (.suffixes e.routed) (routedRow false rest) r tail → ReadsPostfix (routedRow false row) r tail
  | .operators level left, row, e, rest => Reads (.operators level left.routed) (routedRow false row) e.routed (routedRow false rest)
  | .suffixes base, row, e, rest => Reads (.suffixes base.routed) (routedRow false row) e.routed (routedRow false rest)
  | .args callee, row, e, rest => Reads (.args callee.routed) (routedRow false row) e.routed (routedRow false rest)
  | .key, row, e, rest => spelling rest = ":" → Reads .key (routedRow false row) e.routed (routedRow false rest)
  | p, row, e, rest => Reads p (routedRow false row) e.routed (routedRow false rest)

/-- What is read as a primary in front of what follows it. -/
theorem Reads.postfixed {base e : Expr} {between : List Token} (h : Reads .primary row base between)
    (hplain : row.head?.bind unaryOp? = none) (more : Reads (.suffixes base) between e rest) : ReadsPostfix row e rest :=
  ⟨base, between, h, more, hplain⟩

/-- A token spelled like none of them is no unary operator. -/
theorem unaryOp?_spelled {text : String} (h : token.isSymbol text) (hneg : text ≠ "-") (hnot : text ≠ "!") : unaryOp? token = none := by
  simp only [Token.isSymbol, Bool.and_eq_true, beq_iff_eq] at h
  simp [unaryOp?, Token.isSymbol, h, hneg, hnot]

/-- The spelling of a unary operator. -/
theorem spelling_unaryOp {op : UnaryOp} (h : unaryOp? token = some op) : token.spelling = "-" ∨ token.spelling = "!" := by
  unfold unaryOp? at h
  split at h
  case isTrue hneg => exact .inl (spelling_of_isSymbol hneg)
  case isFalse =>
    split at h
    case isTrue hnot => exact .inr (spelling_of_isSymbol hnot)
    case isFalse => cases h

/-- An atom is no symbol. -/
theorem kind_atom {e : Expr} (h : atom? token = some e) : token.kind ≠ .symbol := by
  intro hkind
  rw [atom?, hkind] at h
  cases h

/-- The word `exports` is a variable. -/
theorem atom_exports {e : Expr} (h : atom? token = some e) (hword : token.isIdent "exports") : e = .var token.span "exports" := by
  have hident := Dialect.isIdent_eq hword
  rw [atom?, hident.1] at h
  simp only [hident.2, name?_exports hword] at h
  exact (Option.some.inj h).symm

/-- The variable `exports` becomes the host and a member of it. -/
theorem postfixed_exports {r : Expr} {tail : List Token} (hword : token.isIdent "exports")
    (more : Reads (.suffixes (Expr.var token.span "exports").routed) (routedRow false rest) r tail) :
    ReadsPostfix (routedRow false (token :: rest)) r tail := by
  have hident := Dialect.isIdent_eq hword
  have hhost : atom? { token with text := Dialect.hostAlias } = some (.var token.span Dialect.hostAlias) := by
    rw [atom?, hident.1]
    rfl
  have hplain : unaryOp? { token with text := Dialect.hostAlias } = none := by simp [unaryOp?, Token.isSymbol, hident.1]
  have hreplaced : Dialect.isReplaced false token "exports" = true := hword
  rw [Expr.routed, if_pos rfl] at more
  rw [routedRow, if_pos hreplaced]
  refine (Reads.atom hhost).postfixed hplain (.member ?_ (name?_exports hword) more)
  exact isSymbol_symbol "."

/-- In a row without bare keys `exports` a key is another name. -/
theorem key_kept {token : Token} {rest : List Token}
    (h : ∃ opener : Token, (opener.spelling = "\x7b" ∨ opener.spelling = ",") ∧ namesExports (opener :: token :: rest) = false)
    (hcolon : spelling rest = ":") : token.isIdent "exports" = false := by
  obtain ⟨opener, hopener, hrow⟩ := h
  cases rest with
  | nil => exact absurd hcolon (by decide)
  | cons colon rest =>
    rw [spelling_cons] at hcolon
    have hopens : (opener.spelling == "\x7b" || opener.spelling == ",") = true := by simpa using hopener
    simpa [namesExports, hopens, hcolon] using (Bool.or_eq_false_iff.mp hrow).1

/-- Atoms but the variable `exports` stay as they are. -/
theorem routed_atom {e : Expr} (h : atom? token = some e) (hword : token.isIdent "exports" = false) : e.routed = e := by
  obtain ⟨kind, span, text, gap⟩ := token
  cases kind with
  | symbol => cases h
  | number =>
    obtain ⟨n, -, rfl⟩ := Option.map_eq_some_iff.mp h
    rfl
  | string =>
    obtain ⟨text, -, rfl⟩ := Option.map_eq_some_iff.mp h
    rfl
  | rawString =>
    cases h
    rfl
  | ident =>
    have hne : text ≠ "exports" := by simpa [Token.isIdent] using hword
    simp only [atom?] at h
    split_ifs at h
    · cases h; rfl
    · cases h; rfl
    · cases h; rfl
    · obtain ⟨name, hname, rfl⟩ := Option.map_eq_some_iff.mp h
      unfold name? at hname
      split at hname
      case isTrue =>
        cases hname
        exact if_neg hne
      case isFalse => cases hname

/-- Phrases of a row without bare keys are read in the routed row, and their trees are routed. -/
theorem Reads.rerouted {p : Phrase} {e : Expr} (h : Reads p row e rest) (hclear : Clear p row) : Rerouted p row e rest := by
  induction h with
  | level binds operand _ ihOperand ihMore =>
    exact .level binds (ihOperand hclear) (ihMore (namesExports_of_suffix hclear operand.suffix))
  | operand binds _ ih => exact .operand binds (ih hclear)
  | operatorsDone ends => exact .operatorsDone ((operator?_routedRow _ _).trans ends)
  | operatorsMore operator operand _ ihOperand ihMore =>
    have hrow := namesExports_of_cons hclear
    have hplain : ∀ op : BinaryOp, op.symbol ≠ "exports" ∧ op.symbol ≠ "." := by
      rintro ((_ | _ | _ | _ | _) | (_ | _ | _ | _ | _ | _) | (_ | _)) <;> decide
    show Reads _ _ _ _
    rw [routedRow_spelled (operator?_eq_some operator).2 _ (hplain _).1 (hplain _).2]
    exact .operatorsMore operator (ihOperand hrow) (ihMore (namesExports_of_suffix hrow operand.suffix))
  | prefixed operator _ ih =>
    have hoperand := ih (namesExports_of_cons hclear)
    show Reads _ _ _ _
    rcases spelling_unaryOp operator with hspelled | hspelled
    · rw [routedRow_spelled hspelled _ (by decide) (by decide)]
      exact .prefixed operator hoperand
    · rw [routedRow_spelled hspelled _ (by decide) (by decide)]
      exact .prefixed operator hoperand
  -- The primary may become a member, so it is read anew together with the suffixes behind it.
  | suffixed bare primary _ ihPrimary ihMore =>
    obtain ⟨base, between, hprimary, hmore, hplain⟩ :=
      ihPrimary hclear (ihMore (namesExports_of_suffix hclear primary.suffix))
    exact .suffixed hplain hprimary hmore
  | arrayEmpty opens closes =>
    intro r tail more
    rw [routedRow_spelled (spelling_of_isSymbol opens) _ (by decide) (by decide), routedRow_spelled closes _ (by decide) (by decide)]
    exact (Reads.arrayEmpty opens closes).postfixed (unaryOp?_spelled opens (by decide) (by decide)) more
  | array opens filled item _ ihItem ihMore =>
    intro r tail more
    have hrow := namesExports_of_cons hclear
    rw [routedRow_spelled (spelling_of_isSymbol opens) _ (by decide) (by decide)]
    refine Reads.postfixed ?_ (unaryOp?_spelled opens (by decide) (by decide)) more
    exact .array opens (spelling_routedRow_ne filled (by decide)) (ihItem hrow) (ihMore (namesExports_of_suffix hrow item.suffix))
  | object opens _ ih =>
    intro r tail more
    have hfields := ih ⟨_, .inl (spelling_of_isSymbol opens), hclear⟩
    rw [routedRow_spelled (spelling_of_isSymbol opens) _ (by decide) (by decide)]
    exact (Reads.object opens hfields).postfixed (unaryOp?_spelled opens (by decide) (by decide)) more
  | bracketed opens _ closes ih =>
    intro r tail more
    have hinner : Reads _ _ _ _ := ih (namesExports_of_cons hclear)
    rw [routedRow_spelled closes _ (by decide) (by decide)] at hinner
    rw [routedRow_spelled (spelling_of_isSymbol opens) _ (by decide) (by decide)]
    exact (Reads.bracketed opens hinner closes).postfixed (unaryOp?_spelled opens (by decide) (by decide)) more
  | @atom token _ _ isAtom =>
    intro r tail more
    -- Only here the tree changes: the variable becomes a member of the host.
    by_cases hword : token.isIdent "exports" = true
    · rw [atom_exports isAtom hword] at more
      exact postfixed_exports hword more
    · have hkept := Bool.eq_false_iff.mpr hword
      have hsymbol : ∀ symbol, token.isSymbol symbol = false := fun symbol => by simp [Token.isSymbol, kind_atom isAtom]
      rw [routed_atom isAtom hkept] at more
      rw [routedRow_kept hkept (hsymbol _)]
      exact (Reads.atom isAtom).postfixed (by simp [unaryOp?, hsymbol]) more
  | itemsDone closes =>
    show Reads _ _ _ _
    rw [routedRow_spelled closes _ (by decide) (by decide)]
    exact .itemsDone closes
  | itemsComma separates closes =>
    show Reads _ _ _ _
    rw [routedRow_spelled separates _ (by decide) (by decide), routedRow_spelled closes _ (by decide) (by decide)]
    exact .itemsComma separates closes
  | itemsMore separates filled first _ ihFirst ihMore =>
    have hrow := namesExports_of_cons hclear
    show Reads _ _ _ _
    rw [routedRow_spelled separates _ (by decide) (by decide)]
    exact .itemsMore separates (spelling_routedRow_ne filled (by decide)) (ihFirst hrow) (ihMore (namesExports_of_suffix hrow first.suffix))
  | fieldsDone closes =>
    show Reads _ _ _ _
    rw [routedRow_spelled closes _ (by decide) (by decide)]
    exact .fieldsDone closes
  | fieldsLast filled named separates valued closes ihKey ihValue =>
    obtain ⟨opener, hopener, hrow⟩ := hclear
    have hbetween := namesExports_of_suffix (namesExports_of_cons hrow) named.suffix
    have hkey := ihKey ⟨opener, hopener, hrow⟩ separates
    have hvalue : Reads _ _ _ _ := ihValue (namesExports_of_cons hbetween)
    rw [routedRow_spelled separates _ (by decide) (by decide)] at hkey
    rw [routedRow_spelled closes _ (by decide) (by decide)] at hvalue
    exact .fieldsLast (spelling_routedRow_ne filled (by decide)) hkey separates hvalue closes
  | fieldsMore filled named separates valued follows _ ihKey ihValue ihMore =>
    obtain ⟨opener, hopener, hrow⟩ := hclear
    have hbetween := namesExports_of_suffix (namesExports_of_cons hrow) named.suffix
    have hafter := namesExports_of_suffix (namesExports_of_cons hbetween) valued.suffix
    have hkey := ihKey ⟨opener, hopener, hrow⟩ separates
    have hvalue : Reads _ _ _ _ := ihValue (namesExports_of_cons hbetween)
    rw [routedRow_spelled separates _ (by decide) (by decide)] at hkey
    rw [routedRow_spelled follows _ (by decide) (by decide)] at hvalue
    exact .fieldsMore (spelling_routedRow_ne filled (by decide)) hkey separates hvalue follows (ihMore ⟨_, .inr follows, hafter⟩)
  -- A key that is the word itself is excluded by what the row is clear of.
  | keyName named =>
    intro hcolon
    rw [routedRow_kept (key_kept hclear hcolon) (isSymbol_of_name named _)]
    exact .keyName named
  | keyExpr computed _ ih =>
    intro hcolon
    obtain ⟨opener, -, hrow⟩ := hclear
    exact .keyExpr (name?_routedRow computed) (ih (namesExports_of_cons hrow))
  | suffixesDone ends => exact .suffixesDone (atSuffix_routedRow ends)
  | member opens named _ ih =>
    have hrow := namesExports_of_cons (namesExports_of_cons hclear)
    show Reads _ _ _ _
    rw [routedRow_member opens named]
    exact .member opens named (ih hrow)
  | index opens inner closes _ ihInner ihMore =>
    have hrow := namesExports_of_cons hclear
    have hinner : Reads _ _ _ _ := ihInner hrow
    rw [routedRow_spelled closes _ (by decide) (by decide)] at hinner
    show Reads _ _ _ _
    rw [routedRow_spelled (spelling_of_isSymbol opens) _ (by decide) (by decide)]
    exact .index opens hinner closes (ihMore (namesExports_of_cons (namesExports_of_suffix hrow inner.suffix)))
  | callEmpty opens closes _ ih =>
    have hrow := namesExports_of_cons (namesExports_of_cons hclear)
    show Reads _ _ _ _
    rw [routedRow_spelled (spelling_of_isSymbol opens) _ (by decide) (by decide), routedRow_spelled closes _ (by decide) (by decide)]
    exact .callEmpty opens closes (ih hrow)
  | call opens filled arg others _ ihArg ihOthers ihMore =>
    have hrow := namesExports_of_cons hclear
    have hbetween := namesExports_of_suffix hrow arg.suffix
    show Reads _ _ _ _
    rw [routedRow_spelled (spelling_of_isSymbol opens) _ (by decide) (by decide)]
    exact .call opens (spelling_routedRow_ne filled (by decide)) (ihArg hrow) (ihOthers hbetween)
      (ihMore (namesExports_of_suffix hbetween others.suffix))
  | argsDone closes =>
    show Reads _ _ _ _
    rw [routedRow_spelled closes _ (by decide) (by decide)]
    exact .argsDone closes
  | argsMore separates first _ ihFirst ihMore =>
    have hrow := namesExports_of_cons hclear
    show Reads _ _ _ _
    rw [routedRow_spelled separates _ (by decide) (by decide)]
    exact .argsMore separates (ihFirst hrow) (ihMore (namesExports_of_suffix hrow first.suffix))

/-! ## Texts -/

open Dialect (expressionWords wordShape shapes isReplaced)
open Lexer (Fits Stops placed written scan_written)

/-- Without `ask`, the words of an expression are those of the routed row. -/
theorem expressionWords_routed {first afterDot : Bool} (h : ∀ t ∈ row, t.isIdent "ask" = false) :
    (expressionWords first afterDot row).map wordShape = shapes (routedRow afterDot row) := by
  induction row generalizing first afterDot with
  | nil =>
    rw [expressionWords]
    rfl
  | cons token rest ih =>
    obtain ⟨hask, hrest⟩ := List.forall_mem_cons.mp h
    have hkept : ¬isReplaced afterDot token "ask" = true := by
      rw [isReplaced, hask, Bool.and_false]
      exact Bool.false_ne_true
    by_cases hexports : isReplaced afterDot token "exports" = true
    · have hident := Dialect.isIdent_eq ((Bool.and_eq_true _ _).mp hexports).2
      rw [expressionWords, if_pos hexports, routedRow, if_pos hexports, List.map_cons, List.map_cons, List.map_cons, ih hrest]
      simp [wordShape, Lexer.nameWord, Lexer.symbolWord, shapes, Dialect.shapeOf, Dialect.Shape.symbol, Dialect.Shape.token, hident]
    · rw [expressionWords, if_neg hexports, if_neg hkept, routedRow, if_neg hexports, List.map_cons, ih hrest]
      simp [wordShape, shapes, Dialect.shapeOf]

/-- The text of an expression is cut into the words it was made of. -/
theorem scan_expression {name : String} {row : List Token} (h : Dialect.Legible row) :
    (⟨name, Dialect.expression row⟩ : Source).scan.tokens = placed .origin (expressionWords true false row) ∧
      ∃ gap pos, (⟨name, Dialect.expression row⟩ : Source).scan.ending = .complete gap pos := by
  obtain ⟨next, hrow⟩ := h
  have hfits : Fits (expressionWords true false row) (some '\n') := (Dialect.expressionWords_fits hrow Dialect.closes_newline).1
  have hlast : Fits (expressionWords true false row) none := hfits.mono fun kind text _ => Stops.none kind text
  have htext : (⟨name, Dialect.expression row⟩ : Source).text.toList = written (expressionWords true false row) ++ [] := by
    rw [List.append_nil, Dialect.written_expressionWords, Dialect.expression]
  obtain ⟨htokens, pos, hending⟩ := scan_written htext hlast rfl
  exact ⟨htokens, _, pos, hending⟩

/-- A text whose tokens are those of an expression is read as that expression. -/
theorem Reads.run {e : Expr} (h : Reads (.level 0) row e []) {source : Source} (hshapes : shapes source.scan.tokens = shapes row)
    (hending : ∃ gap pos, source.scan.ending = .complete gap pos) :
    ∃ e' next, Parser.run Parser.expr source = .ok (e', next) ∧ next.rest = [] ∧ e'.bare = e.bare := by
  have hat : Parser.At ⟨source.scan.tokens, source.scan.ending, 0⟩ row := ⟨hshapes, hending⟩
  obtain ⟨e', next, hrun, hbare, hnext⟩ := h.expr hat
  refine ⟨e', next, ?_, List.map_eq_nil_iff.mp hnext.shapes, hbare⟩
  unfold Parser.run
  simp only [Parser.checkEnding_complete hat.whole, bind, Except.bind, hrun]

/-- The text of an expression without `ask` and without bare keys `exports` is an expression again, whose tree is that of the source
with the variables `exports` as members of the host. -/
theorem expression_routed {name : String} {source : Source} {e : Expr} {next : Cursor}
    (hread : Parser.run Parser.expr source = .ok (e, next)) (hwhole : next.rest = [])
    (hask : ∀ t ∈ source.scan.tokens, t.isIdent "ask" = false) (hkeys : namesExports source.scan.tokens = false) :
    ∃ e' next', Parser.run Parser.expr ⟨name, Dialect.expression source.scan.tokens⟩ = .ok (e', next') ∧ next'.rest = [] ∧
      e'.bare = e.routed.bare := by
  have hreads : Reads (.level 0) source.scan.tokens e [] := by
    rw [← hwhole]
    obtain ⟨-, -, -, hreads⟩ := Parser.expr_reads (scan_lexed source) (Parser.run_ok hread)
    exact hreads
  have hrouted : Reads (.level 0) (routedRow false source.scan.tokens) e.routed [] := hreads.rerouted hkeys
  obtain ⟨htokens, hending⟩ := scan_expression (Dialect.scan_legible source)
  refine hrouted.run ?_ hending
  rw [htokens, Dialect.shapes_placed, expressionWords_routed hask]

/-- A text of which a reader leaves nothing is read in full. -/
theorem Parser.run_whole {α : Type} {p : Parser α} {source : Source}
    (h : ((Parser.run p source).map fun result => result.2.rest).toOption = some []) :
    ∃ a next, Parser.run p source = .ok (a, next) ∧ next.rest = [] := by
  cases hrun : Parser.run p source with
  | error fault =>
    rw [hrun] at h
    cases h
  | ok result =>
    rw [hrun] at h
    exact ⟨result.1, result.2, rfl, Option.some.inj h⟩

/-- References, members of that name and strings of that text. -/
def mentions : Source := ⟨"mentions", "exports.exports + f([exports], \x7bname: \"exports\"\x7d)[-exports]"⟩

theorem expression_routed_mentions : ∃ e next, Parser.run Parser.expr mentions = .ok (e, next) ∧ next.rest = [] ∧
    (∀ t ∈ mentions.scan.tokens, t.isIdent "ask" = false) ∧ namesExports mentions.scan.tokens = false ∧
    ∃ e' next', Parser.run Parser.expr ⟨"mentions", Dialect.expression mentions.scan.tokens⟩ = .ok (e', next') ∧ next'.rest = [] ∧
      e'.bare = e.routed.bare := by
  have hleft : ((Parser.run Parser.expr mentions).map fun result => result.2.rest).toOption = some [] := by decide +kernel
  obtain ⟨e, next, hread, hwhole⟩ := Parser.run_whole hleft
  have hask : ∀ t ∈ mentions.scan.tokens, t.isIdent "ask" = false := by decide +kernel
  have hkeys : namesExports mentions.scan.tokens = false := by decide +kernel
  exact ⟨e, next, hread, hwhole, hask, hkeys, expression_routed hread hwhole hask hkeys⟩

/-- An object with the bare key `exports`. -/
def bareKey : Source := ⟨"key", "\x7bexports: 1\x7d"⟩

/-- That key is routed as well, and then the text is no expression any more. -/
theorem expression_bareKey : ∃ e next, Parser.run Parser.expr bareKey = .ok (e, next) ∧ next.rest = [] ∧
    (∀ t ∈ bareKey.scan.tokens, t.isIdent "ask" = false) ∧
    ∀ e' next', Parser.run Parser.expr ⟨"key", Dialect.expression bareKey.scan.tokens⟩ ≠ .ok (e', next') := by
  have hleft : ((Parser.run Parser.expr bareKey).map fun result => result.2.rest).toOption = some [] := by decide +kernel
  have hrefused : (Parser.run Parser.expr ⟨"key", Dialect.expression bareKey.scan.tokens⟩).toOption.isNone := by decide +kernel
  obtain ⟨e, next, hread, hwhole⟩ := Parser.run_whole hleft
  refine ⟨e, next, hread, hwhole, by decide +kernel, fun e' next' hrun => ?_⟩
  rw [hrun] at hrefused
  cases hrefused

end HostScript.Script
