import Mathlib
import HostScript.Dialect.HostText
import HostScript.Proofs.Dialect.Classified
import HostScript.Proofs.Dialect.Grouped
import HostScript.Proofs.Token.Joined

/-!
# Rendered statements are rows of words

Expressions, simple statements and headers are rendered as rows of words, which are given here (`expressionWords`, `simpleWords`,
`openingWords`): whatever is put in the place of `exports` and `ask`, no token runs into the next one. The words of a rendered
statement come from the words of its tokens, which fit because they were read from the source (`Legible`).
-/

namespace HostScript.Dialect

open Lexer

/-- A character in front of which every token stops. -/
def Closes (d : Char) : Prop := ∀ kind text, Stops kind text (some d)

/-- A blank closes every word. -/
theorem closes_blank {d : Char} (h : Text.isBlank d) : Closes d := fun _ _ => Stops.blank h

/-- A symbol closes every word if it is no part of a number and no second half of a pair. -/
theorem closes_symbol {d : Char} (hpart : extendsNumber d = false) (hpair : ∀ pair ∈ pairedSymbols, pair.2 ≠ d) : Closes d := by
  intro kind text
  cases kind with
  | symbol =>
    intro c e _ he hmem
    obtain rfl := Option.some.inj he
    exact hpair _ hmem rfl
  | ident =>
    intro e he
    obtain rfl := Option.some.inj he
    simp only [extendsNumber, Bool.or_eq_false_iff] at hpart
    simp only [isIdentPart, Bool.or_eq_false_iff]
    exact ⟨hpart.2, hpart.1.1⟩
  | number =>
    intro e he
    obtain rfl := Option.some.inj he
    exact hpart
  | rawString => trivial
  | string => trivial

theorem closes_paren : Closes ')' := closes_symbol rfl (by decide)

theorem closes_semicolon : Closes ';' := closes_symbol rfl (by decide)

theorem closes_space : Closes ' ' := closes_blank (by decide)

theorem closes_newline : Closes '\n' := closes_blank (by decide)

/-- A row of tokens as it was read: its words fit, whatever follows them. -/
def Legible (row : List Token) : Prop := ∃ next, Fits (row.map Word.ofToken) next

/-- Both parts of a legible row are legible. -/
theorem Legible.append {row more : List Token} (h : Legible (row ++ more)) : Legible row ∧ Legible more := by
  obtain ⟨next, h⟩ := h
  rw [List.map_append, Fits.append_iff] at h
  exact ⟨⟨_, h.1⟩, ⟨_, h.2⟩⟩

/-- A stretch of a legible row is legible. -/
theorem Legible.stretch {row part : List Token} (h : Legible row) (hpart : part <:+: row) : Legible part := by
  obtain ⟨front, rest, rfl⟩ := hpart
  exact h.append.1.append.2

/-! ## Expressions -/

/-- The words of a row of tokens that is written as an expression. -/
def expressionWords (first afterDot : Bool) (row : List Token) : List Word :=
  match row with
  | [] => []
  | token :: rest =>
    let gap := (if first then "" else token.gap).toList
    if isReplaced afterDot token "exports" then
      nameWord gap hostAlias.toList :: symbolWord [] '.' :: nameWord [] "exports".toList :: expressionWords false false rest
    else if isReplaced afterDot token "ask" then
      nameWord gap hostAlias.toList :: symbolWord [] '.' :: nameWord [] "input".toList :: symbolWord [] '(' ::
        (expressionWords true false (splitOperand 0 rest).1 ++
          symbolWord [] ')' :: expressionWords false false (splitOperand 0 rest).2)
    else ⟨gap, token.kind, token.text.toList⟩ :: expressionWords false (token.isSymbol ".") rest
termination_by row.length
decreasing_by
  · simp
  · have := splitOperand_length 0 rest
    simp only [List.length_cons]
    omega
  · have := splitOperand_length 0 rest
    simp only [List.length_cons]
    omega
  · simp

/-- The written form of a token is that of its word. -/
theorem lexeme_toList (token : Token) : token.lexeme.toList = lexemeChars token.kind token.text.toList := by
  unfold Token.lexeme lexemeChars
  cases Token.delimiter? token.kind <;> simp

/-- The words of an expression are written as its text. -/
theorem written_expressionWords (first afterDot : Bool) (row : List Token) :
    written (expressionWords first afterDot row) = (expressionFrom first afterDot row).toList := by
  fun_induction expressionWords first afterDot row with
  | case1 => rw [expressionFrom]; rfl
  | case2 first afterDot token rest gap hexports ih =>
    rw [expressionFrom]
    simp [gap, hexports, ih, hostAlias]
  | case3 first afterDot token rest gap hexports hask ihOperand ihAfter =>
    rw [expressionFrom]
    simp [gap, hexports, hask, ihOperand, ihAfter, hostAlias]
  | case4 first afterDot token rest gap hexports hask ih =>
    rw [expressionFrom]
    simp [gap, hexports, hask, ih, lexeme_toList, Word.chars]

/-- What stops in front of a letter, a digit or an underscore stops in front of every character that ends no symbol. -/
theorem stops_replaced {kind : TokenKind} {text : List Char} {c d : Char} (hc : isIdentPart c)
    (hpair : ∀ pair ∈ pairedSymbols, pair.2 ≠ d) (h : Stops kind text (some c)) : Stops kind text (some d) := by
  cases kind with
  | symbol =>
    intro e f _ hf hmem
    obtain rfl := Option.some.inj hf
    exact absurd rfl (hpair _ hmem)
  | ident =>
    rw [h c rfl] at hc
    contradiction
  | number =>
    have := h c rfl
    simp only [extendsNumber, Bool.or_eq_false_iff] at this
    simp only [isIdentPart, this.2, this.1.1, Bool.or_self] at hc
    contradiction
  | rawString => trivial
  | string => trivial

/-- A gap in front of a text hides its first character from the token before it. -/
theorem stops_behind {kind : TokenKind} {text gap rest rest' : List Char} {c d : Char} {next next' : Option Char}
    (h : Stops kind text ((gap ++ c :: rest).head?.or next)) (hcd : Stops kind text (some c) → Stops kind text (some d)) :
    Stops kind text ((gap ++ d :: rest').head?.or next') := by
  cases gap with
  | nil => exact hcd h
  | cons e gap => exact h

theorem ident_kp : IsLexeme .ident hostAlias.toList := ⟨'k', ['p'], rfl, rfl, forall_mem_of_all rfl⟩

theorem ident_exports : IsLexeme .ident "exports".toList := ⟨'e', ['x', 'p', 'o', 'r', 't', 's'], rfl, rfl, forall_mem_of_all rfl⟩

theorem ident_input : IsLexeme .ident "input".toList := ⟨'i', ['n', 'p', 'u', 't'], rfl, rfl, forall_mem_of_all rfl⟩

theorem ident_output : IsLexeme .ident "output".toList := ⟨'o', ['u', 't', 'p', 'u', 't'], rfl, rfl, forall_mem_of_all rfl⟩

/-- A member of the host, in front of what does not continue its name. -/
theorem hostMember_fits {gap name : List Char} {words : List Word} {next : Option Char} (h : Fits words next) (hgap : IsGap gap)
    (hname : IsLexeme .ident name) (hstops : Stops .ident name (opening words next)) :
    Fits (nameWord gap hostAlias.toList :: symbolWord [] '.' :: nameWord [] name :: words) next :=
  ((h.name isGap_nil hname hstops).symbol isGap_nil (by decide) (by decide)).name hgap ident_kp (stops_ident rfl)

/-- A token that is a word has the kind and the text of that word. -/
theorem isIdent_eq {token : Token} {word : String} (h : token.isIdent word) : token.kind = .ident ∧ token.text = word := by
  unfold Token.isIdent at h
  rw [Bool.and_eq_true, beq_iff_eq, beq_iff_eq] at h
  exact h

/-- A token that is replaced is a name, behind its gap. -/
theorem isReplaced_eq {afterDot : Bool} {token : Token} {word : String} (h : isReplaced afterDot token word) :
    Word.ofToken token = nameWord token.gap.toList word.toList := by
  unfold isReplaced at h
  obtain ⟨hkind, htext⟩ := isIdent_eq ((Bool.and_eq_true _ _).mp h).2
  rw [Word.ofToken, hkind, htext]
  rfl

/-- The gap in front of a rendered token. -/
theorem isGap_kept {first : Bool} {gap : String} (h : IsGap gap.toList) :
    IsGap (if first = true then "" else gap).toList := by
  split
  · rfl
  · exact h

/-- The words of a rendered row fit in front of a character at which every token stops, and what stops in front of the row stops in
front of the rendered row. -/
theorem expressionWords_fits {first afterDot : Bool} {row : List Token} {next : Option Char}
    (h : Fits (row.map Word.ofToken) next) {d : Char} (hd : Closes d) :
    Fits (expressionWords first afterDot row) (some d) ∧
      (first = false → ∀ kind text, Stops kind text (opening (row.map Word.ofToken) next) →
        Stops kind text (opening (expressionWords first afterDot row) (some d))) := by
  fun_induction expressionWords first afterDot row generalizing next d with
  | case1 first afterDot => exact ⟨trivial, fun _ kind text _ => hd kind text⟩
  | case2 first afterDot token rest gap hexports =>
    rename_i ih
    rw [List.map_cons, isReplaced_eq hexports] at h ⊢
    obtain ⟨hgap, -, hstops, hrest⟩ := h
    obtain ⟨hfits, hhead⟩ := ih hrest hd
    refine ⟨hostMember_fits hfits (isGap_kept hgap) ident_exports (hhead rfl _ _ hstops), fun hfirst kind text hstop => ?_⟩
    have hkept : gap = token.gap.toList := by simp [gap, hfirst]
    rw [hkept]
    rw [opening, written_cons, nameWord_chars, List.append_assoc] at hstop ⊢
    exact stops_behind hstop (stops_replaced rfl (by decide))
  | case3 first afterDot token rest gap hexports hask =>
    rename_i ihOperand ihAfter
    rw [List.map_cons, isReplaced_eq hask] at h ⊢
    obtain ⟨hgap, -, -, hrest⟩ := h
    rw [← splitOperand_append 0 rest, List.map_append, Fits.append_iff] at hrest
    obtain ⟨hoperand, -⟩ := ihOperand hrest.1 closes_paren
    obtain ⟨hafter, -⟩ := ihAfter hrest.2 hd
    have hcall := Fits.append hoperand (hafter.symbol isGap_nil (by decide) (by decide))
    have hopened := hcall.symbol (c := '(') isGap_nil (by decide) (by decide)
    refine ⟨hostMember_fits hopened (isGap_kept hgap) ident_input (stops_ident rfl), fun hfirst kind text hstop => ?_⟩
    have hkept : gap = token.gap.toList := by simp [gap, hfirst]
    rw [hkept]
    rw [opening, written_cons, nameWord_chars, List.append_assoc] at hstop ⊢
    exact stops_behind hstop (stops_replaced rfl (by decide))
  | case4 first afterDot token rest gap hexports hask =>
    rename_i ih
    rw [List.map_cons] at h ⊢
    obtain ⟨hgap, hlexeme, hstops, hrest⟩ := h
    obtain ⟨hfits, hhead⟩ := ih hrest hd
    refine ⟨⟨isGap_kept hgap, hlexeme, hhead rfl _ _ hstops, hfits⟩, fun hfirst kind text hstop => ?_⟩
    have hkept : gap = token.gap.toList := by simp [gap, hfirst]
    obtain ⟨c, more, hchars, -⟩ := Word.lexeme_ne_nil (w := Word.ofToken token) hlexeme
    have hchars : lexemeChars token.kind token.text.toList = c :: more := hchars
    rw [opening, written_cons, Word.chars, List.append_assoc] at hstop ⊢
    change Stops kind text ((token.gap.toList ++ (lexemeChars token.kind token.text.toList ++ _)).head?.or next) at hstop
    change Stops kind text ((gap ++ (lexemeChars token.kind token.text.toList ++ _)).head?.or (some d))
    rw [hchars] at hstop ⊢
    rw [hkept]
    exact stops_behind hstop id

/-- A rendered row in front of words before which every token stops. -/
theorem closed_fits {row : List Token} {d : Char} {words : List Word} {next : Option Char} (h : Fits words next)
    (hrow : Legible row) (hd : Closes d) (hopening : opening words next = some d) :
    Fits (expressionWords true false row ++ words) next := by
  obtain ⟨behind, hrow⟩ := hrow
  exact Fits.append (hopening ▸ (expressionWords_fits hrow hd).1) h

/-! ## Statements -/

/-- A statement whose tokens, of which there are some, were read from a source and are described by its rule. -/
structure Statement.Genuine (s : Statement) : Prop where
  nonempty : s.tokens ≠ []
  legible : Legible s.tokens
  describes : s.rule.Describes s.tokens

/-- A name that a token holds is a name in the rendered text. -/
theorem Legible.ident {token : Token} {rest : List Token} (h : Legible (token :: rest)) (hkind : token.kind = .ident) :
    IsLexeme .ident token.text.toList := by
  obtain ⟨next, h⟩ := h
  rw [← hkind]
  exact h.2.1

/-- What is left of a row without its first tokens and its last one is a stretch of it. -/
theorem infix_drop_dropLast (row : List Token) (n : Nat) : (row.drop n).dropLast <:+: row :=
  (List.dropLast_prefix _).isInfix.trans (List.drop_suffix n row).isInfix

/-- The words of an assignment. -/
def assignmentWords (gap name : List Char) (row : List Token) : List Word :=
  nameWord gap name :: symbolWord [' '] '=' :: gapped [' '] (expressionWords true false row ++ [symbolWord [] ';'])

/-- The words of a call of a member of the host. -/
def hostCallWords (member : List Char) (row : List Token) : List Word :=
  nameWord [] hostAlias.toList :: symbolWord [] '.' :: nameWord [] member :: symbolWord [] '(' ::
    (expressionWords true false row ++ [symbolWord [] ')', symbolWord [] ';'])

/-- The words of a rendered simple statement. -/
def simpleWords (known : List String) (s : Statement) : List Word :=
  match s.rule with
  | .binding =>
    let name := ((s.tokens.head?).map Token.text).getD ""
    if known.contains name then assignmentWords [] name.toList (s.tokens.drop 2).dropLast
    else nameWord [] "let".toList :: assignmentWords [' '] name.toList (s.tokens.drop 2).dropLast
  | .say => hostCallWords "output".toList (s.tokens.drop 1).dropLast
  | .ask => hostCallWords "input".toList (s.tokens.drop 1).dropLast
  | _ =>
    if s.tokens.getLast?.any fun t => t.isSymbol ";" then expressionWords true false s.tokens.dropLast ++ [symbolWord [] ';']
    else expressionWords true false s.tokens

/-- The words of an assignment are written as its text. -/
theorem written_assignmentWords (gap name : List Char) (row : List Token) :
    written (assignmentWords gap name row) = gap ++ (name ++ ' ' :: '=' :: ' ' :: ((expression row).toList ++ [';'])) := by
  unfold assignmentWords expression
  simp [written_gapped, written_expressionWords]

/-- The words of a call to the host are written as its text. -/
theorem written_hostCallWords (member : List Char) (row : List Token) :
    written (hostCallWords member row) = "kp.".toList ++ (member ++ '(' :: ((expression row).toList ++ [')', ';'])) := by
  unfold hostCallWords expression
  simp [written_expressionWords, hostAlias]

/-- The words of a statement without a body are written as its text. -/
theorem written_simpleWords (known : List String) (s : Statement) :
    written (simpleWords known s) = (simpleText known s).toList := by
  unfold simpleWords simpleText
  cases s.rule with
  | binding =>
    dsimp only
    split <;> simp [written_assignmentWords]
  | say => simp [written_hostCallWords, hostAlias]
  | ask => simp [written_hostCallWords, hostAlias]
  | _ =>
    dsimp only
    split <;> simp [written_expressionWords, expression]

/-- An expression with tokens has words. -/
theorem expressionWords_ne_nil {first afterDot : Bool} {row : List Token} (h : row ≠ []) : expressionWords first afterDot row ≠ [] := by
  cases row with
  | nil => exact absurd rfl h
  | cons token rest =>
    rw [expressionWords]
    split
    · simp
    · split <;> simp

/-- A statement with tokens has words. -/
theorem simpleWords_ne_nil (known : List String) {s : Statement} (h : s.tokens ≠ []) : simpleWords known s ≠ [] := by
  unfold simpleWords
  split
  · dsimp only
    split <;> simp [assignmentWords]
  · simp [hostCallWords]
  · simp [hostCallWords]
  · split
    · simp
    · exact expressionWords_ne_nil h

/-- A semicolon fits in front of a line end. -/
theorem fits_semicolon : Fits [symbolWord [] ';'] (some '\n') :=
  (Fits.nil _).symbol isGap_nil (by decide) (by decide)

/-- The words of an assignment fit. -/
theorem assignmentWords_fits {gap name : List Char} {row : List Token} (hgap : IsGap gap) (hname : IsLexeme .ident name)
    (h : Legible row) : Fits (assignmentWords gap name row) (some '\n') := by
  have hvalue := (closed_fits fits_semicolon h closes_semicolon rfl).gapped isGap_space
  have hequals : Fits (symbolWord [' '] '=' :: gapped [' '] (expressionWords true false row ++ [symbolWord [] ';'])) (some '\n') := by
    refine ⟨isGap_space, Or.inr ⟨'=', rfl, by decide⟩, ?_, hvalue⟩
    rw [written_gapped _ (by simp)]
    exact Stops.blank (by decide)
  exact hequals.name hgap hname (stops_ident rfl)

/-- The words of a call of a member of the host fit. -/
theorem hostCallWords_fits {member : List Char} {row : List Token} (hmember : IsLexeme .ident member) (h : Legible row) :
    Fits (hostCallWords member row) (some '\n') := by
  have hclose : Fits [symbolWord [] ')', symbolWord [] ';'] (some '\n') := fits_semicolon.symbol isGap_nil (by decide) (by decide)
  have hcall := (closed_fits hclose h closes_paren rfl).symbol (c := '(') isGap_nil (by decide) (by decide)
  exact hostMember_fits hcall isGap_nil hmember (stops_ident rfl)

/-- The words of a rendered simple statement fit in front of the end of its line. -/
theorem simpleWords_fits (known : List String) {s : Statement} (h : s.Genuine) : Fits (simpleWords known s) (some '\n') := by
  have hinner : ∀ n, Legible (s.tokens.drop n).dropLast := fun n => h.legible.stretch (infix_drop_dropLast s.tokens n)
  unfold simpleWords
  split
  · rename_i hrule
    have hdescribes := h.describes
    rw [hrule] at hdescribes
    obtain ⟨⟨name, equals, value, htokens, hkind, -⟩, -⟩ := hdescribes
    have hname : IsLexeme .ident name.text.toList := Legible.ident (htokens ▸ h.legible) hkind
    have hhead : ((s.tokens.head?).map Token.text).getD "" = name.text := by rw [htokens]; rfl
    rw [hhead]
    dsimp only
    split
    · exact assignmentWords_fits isGap_nil hname (hinner 2)
    · have hlet : IsLexeme .ident "let".toList := ⟨'l', ['e', 't'], rfl, rfl, forall_mem_of_all rfl⟩
      exact (assignmentWords_fits isGap_space hname (hinner 2)).name isGap_nil hlet (stops_ident rfl)
  · exact hostCallWords_fits ident_output (hinner 1)
  · exact hostCallWords_fits ident_input (hinner 1)
  · split
    · exact closed_fits fits_semicolon (hinner 0) closes_semicolon rfl
    · obtain ⟨next, hlegible⟩ := h.legible
      exact (expressionWords_fits hlegible closes_newline).1

/-! ## Headers -/

/-- The tokens of the condition of a header, without brackets around all of it. -/
def conditionTokens (s : Statement) : List Token :=
  let row := (s.tokens.drop 1).dropLast
  if isBracketed row then (row.drop 1).dropLast else row

/-- The condition of a header is the expression of its tokens without the brackets. -/
theorem condition_eq (s : Statement) : condition s = expression (conditionTokens s) := rfl

/-- The words between the name or the keyword of a header and the end of its line. -/
def bracketedWords (gap : List Char) (row : List Token) : List Word :=
  symbolWord gap '(' :: (expressionWords true false row ++ [symbolWord [] ')', symbolWord [' '] '\x7b'])

/-- The words of a rendered header. The header of an alternate closes the block before it. -/
def openingWords (alternate : Bool) (s : Statement) : List Word :=
  let close (words : List Word) : List Word := if alternate then symbolWord [] '\x7d' :: gapped [' '] words else words
  match s.rule with
  | .function =>
    nameWord [] "function".toList :: nameWord [' '] (functionName s).toList :: bracketedWords [] (functionParams s)
  | .if_ => nameWord [] "if".toList :: bracketedWords [' '] (conditionTokens s)
  | .elif => close (nameWord [] "else".toList :: nameWord [' '] "if".toList :: bracketedWords [' '] (conditionTokens s))
  | .else_ => close [nameWord [] "else".toList, symbolWord [' '] '\x7b']
  | .while_ => nameWord [] "while".toList :: bracketedWords [' '] (conditionTokens s)
  | _ => expressionWords true false s.tokens.dropLast ++ [symbolWord [' '] '\x7b']

/-- The words of a condition in brackets are written as its text. -/
theorem written_bracketedWords (gap : List Char) (row : List Token) :
    written (bracketedWords gap row) = gap ++ '(' :: ((expression row).toList ++ ") \x7b".toList) := by
  unfold bracketedWords expression
  simp [written_expressionWords]

/-- The words that open a block are written as their text. -/
theorem written_openingWords (alternate : Bool) (s : Statement) :
    written (openingWords alternate s) = (headerText alternate s).toList := by
  unfold openingWords headerText
  simp only [condition_eq]
  cases s.rule with
  | function => simp [written_bracketedWords]
  | if_ => simp [written_bracketedWords]
  | elif => cases alternate <;> simp [written_bracketedWords]
  | else_ => cases alternate <;> simp
  | while_ => simp [written_bracketedWords]
  | _ => simp [written_expressionWords, expression]

/-- There are words that open a block. -/
theorem openingWords_ne_nil (alternate : Bool) (s : Statement) : openingWords alternate s ≠ [] := by
  unfold openingWords
  dsimp only
  cases alternate <;> split <;> simp

/-- A brace fits in front of a line end. -/
theorem fits_brace : Fits [symbolWord [' '] '\x7b'] (some '\n') :=
  (Fits.nil _).symbol isGap_space (by decide) (by decide)

/-- A condition in brackets fits in front of a line end if its tokens are legible. -/
theorem bracketedWords_fits {gap : List Char} {row : List Token} (hgap : IsGap gap) (h : Legible row) :
    Fits (bracketedWords gap row) (some '\n') := by
  have hclose : Fits [symbolWord [] ')', symbolWord [' '] '\x7b'] (some '\n') := fits_brace.symbol isGap_nil (by decide) (by decide)
  exact (closed_fits hclose h closes_paren rfl).symbol hgap (by decide) (by decide)

theorem ident_if : IsLexeme .ident "if".toList := ⟨'i', ['f'], rfl, rfl, forall_mem_of_all rfl⟩

theorem ident_else : IsLexeme .ident "else".toList := ⟨'e', ['l', 's', 'e'], rfl, rfl, forall_mem_of_all rfl⟩

theorem ident_while : IsLexeme .ident "while".toList := ⟨'w', ['h', 'i', 'l', 'e'], rfl, rfl, forall_mem_of_all rfl⟩

theorem ident_function : IsLexeme .ident "function".toList :=
  ⟨'f', ['u', 'n', 'c', 't', 'i', 'o', 'n'], rfl, rfl, forall_mem_of_all rfl⟩

/-- The tokens of the condition of a legible statement are legible. -/
theorem conditionTokens_legible {s : Statement} (h : Legible s.tokens) : Legible (conditionTokens s) := by
  have hrow : Legible (s.tokens.drop 1).dropLast := h.stretch (infix_drop_dropLast s.tokens 1)
  unfold conditionTokens
  dsimp only
  split
  · exact hrow.stretch (infix_drop_dropLast _ 1)
  · exact hrow

/-- The words of a rendered header fit in front of the end of its line. -/
theorem openingWords_fits (alternate : Bool) {s : Statement} (h : s.Genuine) : Fits (openingWords alternate s) (some '\n') := by
  have hcond : Fits (bracketedWords [' '] (conditionTokens s)) (some '\n') :=
    bracketedWords_fits isGap_space (conditionTokens_legible h.legible)
  have hclose : ∀ words, Fits words (some '\n') →
      Fits (if alternate then symbolWord [] '\x7d' :: gapped [' '] words else words) (some '\n') := by
    intro words hwords
    cases alternate with
    | false => exact hwords
    | true => exact (hwords.gapped isGap_space).symbol isGap_nil (by decide) (by decide)
  unfold openingWords
  dsimp only
  split
  · rename_i hrule
    have hdescribes := h.describes
    rw [hrule] at hdescribes
    obtain ⟨word, name, opening, params, closing, last, htokens, hkind, -⟩ := isFunctionHeader_parts hdescribes.2.1
    have hname : IsLexeme .ident (functionName s).toList := by
      have hrest : name :: opening :: (params ++ [closing]) ++ [last] <:+: s.tokens := by
        rw [htokens]
        exact (List.suffix_cons _ _).isInfix
      have hfunctionName : functionName s = name.text := by
        unfold functionName
        rw [htokens]
        rfl
      rw [hfunctionName]
      exact (h.legible.stretch hrest).ident hkind
    have hparams : Legible (functionParams s) :=
      h.legible.stretch ((List.dropLast_prefix _).isInfix.trans (infix_drop_dropLast s.tokens 3))
    have hcall := (bracketedWords_fits isGap_nil hparams).name isGap_space hname (stops_ident rfl)
    exact hcall.name isGap_nil ident_function (stops_ident rfl)
  · exact hcond.name isGap_nil ident_if (stops_ident rfl)
  · exact hclose _ ((hcond.name isGap_space ident_if (stops_ident rfl)).name isGap_nil ident_else (stops_ident rfl))
  · exact hclose _ (fits_brace.name isGap_nil ident_else (stops_ident rfl))
  · exact hcond.name isGap_nil ident_while (stops_ident rfl)
  · have hrow : Legible s.tokens.dropLast := h.legible.stretch (List.dropLast_prefix _).isInfix
    exact closed_fits fits_brace hrow closes_space rfl

end HostScript.Dialect
