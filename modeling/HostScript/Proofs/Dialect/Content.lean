import Mathlib
import HostScript.Proofs.Dialect.Emitted

/-!
# What rendering keeps

Rendering adds, drops and replaces symbols and the words of `scaffold`, and nothing else: all other tokens, the content of a source,
are found again in the host script, each once and in their order (`render_content`). This holds for every line by itself, so it is
proved for a row of tokens that is written as an expression, for simple statements and headers, and then for the lines together.
-/

namespace HostScript.Dialect

open Lexer

/-- The words that rendering may add, drop or replace. -/
def scaffold : List String :=
  ["use", "host", "as", "kp", "let", "function", "output", "input", "exports", "say", "ask", "fun", "if", "elif", "else", "while"]

/-- What a token of a class says, unless it is a symbol or a word of the scaffold. -/
def carried (kind : TokenKind) (text : String) : Option (TokenKind × String) :=
  match kind with
  | .symbol => none
  | .ident => if scaffold.contains text then none else some (kind, text)
  | .string | .rawString | .number => some (kind, text)

/-- The content of a row of tokens: strings, raw strings, numbers and the names outside the scaffold. -/
def content (tokens : List Token) : List (TokenKind × String) := tokens.filterMap fun t => carried t.kind t.text

/-- The content of words. -/
def wordContent (words : List Word) : List (TokenKind × String) := words.filterMap fun w => carried w.kind (String.ofList w.text)

@[simp] theorem content_nil : content [] = [] := rfl

/-- The content of two rows of tokens. -/
@[simp] theorem content_append (tokens more : List Token) : content (tokens ++ more) = content tokens ++ content more :=
  List.filterMap_append

theorem content_cons (token : Token) (rest : List Token) :
    content (token :: rest) = (carried token.kind token.text).toList ++ content rest := by
  unfold content
  rw [List.filterMap_cons]
  cases carried token.kind token.text <;> rfl

/-- A symbol has no content. -/
theorem content_symbol {token : Token} (h : token.kind = .symbol) (rest : List Token) : content (token :: rest) = content rest := by
  rw [content_cons, h]
  rfl

@[simp] theorem wordContent_nil : wordContent [] = [] := rfl

/-- The content of two rows of words. -/
@[simp] theorem wordContent_append (words more : List Word) : wordContent (words ++ more) = wordContent words ++ wordContent more :=
  List.filterMap_append

theorem wordContent_cons (w : Word) (rest : List Word) :
    wordContent (w :: rest) = (carried w.kind (String.ofList w.text)).toList ++ wordContent rest := by
  unfold wordContent
  rw [List.filterMap_cons]
  cases carried w.kind (String.ofList w.text) <;> rfl

/-- A symbol carries no content. -/
@[simp] theorem wordContent_symbolWord (gap : List Char) (c : Char) (rest : List Word) :
    wordContent (symbolWord gap c :: rest) = wordContent rest := rfl

@[simp] theorem wordContent_nameWord (gap : List Char) (name : String) (rest : List Word) :
    wordContent (nameWord gap name.toList :: rest) = (carried .ident name).toList ++ wordContent rest := by
  rw [wordContent_cons, nameWord, String.ofList_toList]

/-- A gap carries no content. -/
@[simp] theorem wordContent_gapped (gap : List Char) (words : List Word) : wordContent (gapped gap words) = wordContent words := by
  cases words <;> rfl

/-- A word of the scaffold has no content. -/
theorem carried_scaffold {word : String} (h : word ∈ scaffold) : carried .ident word = none :=
  if_pos (List.contains_iff_mem.mpr h)

/-- The content of words is that of the tokens they are made of. -/
theorem wordContent_ofToken (tokens : List Token) : wordContent (tokens.map Word.ofToken) = content tokens := by
  unfold wordContent content
  rw [List.filterMap_map]
  refine List.filterMap_congr fun t _ => ?_
  exact congrArg (carried t.kind) String.ofList_toList

/-- The content of tokens is that of the words they are read from. -/
theorem content_placed (pos : Position) (words : List Word) : content (placed pos words) = wordContent words := by
  rw [← wordContent_ofToken, map_ofToken_placed]

/-! ## The ends of a row -/

/-- The symbol at the end of a row has no content. -/
theorem content_dropLast {tokens : List Token} {text : String} (h : endsIn tokens text) : content tokens.dropLast = content tokens := by
  rcases List.eq_nil_or_concat tokens with rfl | ⟨front, last, rfl⟩
  · rfl
  · rw [List.concat_eq_append] at h ⊢
    have hlast : last.isSymbol text := by
      unfold endsIn at h
      rwa [List.getLast?_concat] at h
    rw [List.dropLast_concat, content_append, content_symbol (isSymbol_kind hlast), content_nil, List.append_nil]

/-- The word at the beginning of a row and the symbol at its end have no content. -/
theorem content_inner {tokens : List Token} {word text : String} (hbegins : beginsWith tokens word) (hends : endsIn tokens text)
    (hword : word ∈ scaffold) : content (tokens.drop 1).dropLast = content tokens := by
  cases tokens with
  | nil => rfl
  | cons first rest =>
    obtain ⟨hkind, htext⟩ : first.kind = .ident ∧ first.text = word := isIdent_eq hbegins
    have hfirst : content (first :: rest) = content rest := by
      rw [content_cons, hkind, htext, carried_scaffold hword]
      rfl
    rw [hfirst, List.drop_one, List.tail_cons]
    cases rest with
    | nil => rfl
    | cons second rest => exact content_dropLast hends

/-- Brackets around a row have no content. -/
theorem content_bracketed {row : List Token} (h : isBracketed row) : content (row.drop 1).dropLast = content row := by
  obtain ⟨opening, inner, closing, rfl, hopening, hclosing⟩ := isBracketed_ends h
  rw [List.drop_one, List.tail_cons, List.dropLast_concat, content_symbol hopening, content_append, content_symbol hclosing,
    content_nil, List.append_nil]

/-! ## Rendered rows and statements -/

/-- A row of tokens that is written as an expression keeps its content. -/
@[simp] theorem wordContent_expressionWords (first afterDot : Bool) (row : List Token) :
    wordContent (expressionWords first afterDot row) = content row := by
  have hword : ∀ {afterDot : Bool} {token : Token} {word : String}, isReplaced afterDot token word → word ∈ scaffold →
      ∀ rest, content (token :: rest) = content rest := by
    intro afterDot token word hreplaced hmem rest
    obtain ⟨hkind, htext⟩ := isIdent_eq ((Bool.and_eq_true _ _).mp hreplaced).2
    rw [content_cons, hkind, htext, carried_scaffold hmem]
    rfl
  have hkp : carried .ident hostAlias = none := carried_scaffold (by decide)
  have hexportsName : carried .ident "exports" = none := carried_scaffold (by decide)
  have hinputName : carried .ident "input" = none := carried_scaffold (by decide)
  fun_induction expressionWords first afterDot row with
  | case1 => rfl
  | case2 first afterDot token rest gap hexports ih =>
    rw [hword hexports (by decide), ← ih]
    simp only [wordContent_nameWord, wordContent_symbolWord, hkp, hexportsName, Option.toList_none, List.nil_append]
  | case3 first afterDot token rest gap hexports hask ihOperand ihAfter =>
    rw [hword hask (by decide), ← splitOperand_append 0 rest, content_append, ← ihOperand, ← ihAfter, splitOperand_append]
    simp only [wordContent_nameWord, wordContent_symbolWord, wordContent_append, hkp, hinputName, Option.toList_none, List.nil_append]
  | case4 first afterDot token rest gap hexports hask ih => rw [wordContent_cons, content_cons, ih, String.ofList_toList]

/-- A call of a member of the host has the content of its arguments. -/
theorem wordContent_hostCallWords {member : String} (h : member ∈ scaffold) (row : List Token) :
    wordContent (hostCallWords member.toList row) = content row := by
  have hkp : carried .ident hostAlias = none := carried_scaffold (by decide)
  unfold hostCallWords
  simp [hkp, carried_scaffold h]

/-- An assignment has the content of its name and its value. -/
theorem wordContent_assignmentWords (gap : List Char) (name : String) (row : List Token) :
    wordContent (assignmentWords gap name.toList row) = (carried .ident name).toList ++ content row := by
  unfold assignmentWords
  simp

/-- A simple statement keeps its content. -/
theorem wordContent_simpleWords (known : List String) {s : Statement} (h : s.Genuine) :
    wordContent (simpleWords known s) = content s.tokens := by
  have hdescribes := h.describes
  unfold simpleWords
  cases hrule : s.rule with
  | binding =>
    rw [hrule] at hdescribes
    obtain ⟨⟨name, equals, value, htokens, hname, hequals⟩, hends⟩ := hdescribes
    have hvalue : content value.dropLast = content value := by
      cases value with
      | nil => rfl
      | cons first value =>
        rw [htokens] at hends
        exact content_dropLast hends
    have hcontent : content s.tokens = (carried .ident name.text).toList ++ content value.dropLast := by
      rw [htokens, content_cons, content_symbol (isSymbol_kind hequals), hname, hvalue]
    have hlet : carried .ident "let" = none := carried_scaffold (by decide)
    rw [hcontent, htokens]
    dsimp only [List.head?_cons, Option.map_some, Option.getD_some, List.drop_succ_cons, List.drop_zero]
    split
    · exact wordContent_assignmentWords [] name.text value.dropLast
    · rw [wordContent_nameWord, hlet]
      exact wordContent_assignmentWords [' '] name.text value.dropLast
  | say =>
    rw [hrule] at hdescribes
    exact (wordContent_hostCallWords (by decide) _).trans (content_inner hdescribes.1 hdescribes.2 (by decide))
  | ask =>
    rw [hrule] at hdescribes
    exact (wordContent_hostCallWords (by decide) _).trans (content_inner hdescribes.1 hdescribes.2 (by decide))
  | _ =>
    dsimp only
    split
    · rename_i hends
      simp [content_dropLast hends]
    · exact wordContent_expressionWords true false s.tokens

/-- What stands between the name or the keyword of a header and the end of its line has the content of the row in it. -/
theorem wordContent_bracketedWords (gap : List Char) (row : List Token) : wordContent (bracketedWords gap row) = content row := by
  unfold bracketedWords
  simp

/-- The condition of a header holds all of its content. -/
theorem content_conditionTokens {s : Statement} {word : String} (hbegins : beginsWith s.tokens word) (hends : endsIn s.tokens ":")
    (hword : word ∈ scaffold) : content (conditionTokens s) = content s.tokens := by
  rw [← content_inner hbegins hends hword]
  unfold conditionTokens
  dsimp only
  split
  · rename_i hbracketed
    exact content_bracketed hbracketed
  · rfl

/-- The header of a block keeps its content. -/
theorem wordContent_openingWords (alternate : Bool) {s : Statement} (h : s.Genuine) (hopens : s.rule.opensBlock) :
    wordContent (openingWords alternate s) = content s.tokens := by
  have hdescribes := h.describes
  have hclose : ∀ words, wordContent (if alternate then symbolWord [] '\x7d' :: gapped [' '] words else words) = wordContent words := by
    intro words
    cases alternate <;> simp
  have hif : carried .ident "if" = none := carried_scaffold (by decide)
  have helse : carried .ident "else" = none := carried_scaffold (by decide)
  have hwhile : carried .ident "while" = none := carried_scaffold (by decide)
  have hfunction : carried .ident "function" = none := carried_scaffold (by decide)
  have hcond : ∀ word, word ∈ scaffold → beginsWith s.tokens word → endsIn s.tokens ":" →
      wordContent (bracketedWords [' '] (conditionTokens s)) = content s.tokens := by
    intro word hword hbegins hends
    rw [wordContent_bracketedWords, content_conditionTokens hbegins hends hword]
  unfold openingWords
  dsimp only
  cases hrule : s.rule with
  | function =>
    rw [hrule] at hdescribes
    obtain ⟨hbegins, hheader, hends⟩ := hdescribes
    obtain ⟨word, name, opening, params, closing, last, htokens, hname, hopening, hclosing⟩ := isFunctionHeader_parts hheader
    have hinner : (s.tokens.drop 1).dropLast = name :: opening :: (params ++ [closing]) := by
      rw [htokens]
      exact List.dropLast_concat
    have hparams : functionParams s = params := by
      have hbehind : (s.tokens.drop 3).dropLast = params ++ [closing] := by
        rw [htokens]
        exact List.dropLast_concat
      rw [functionParams, hbehind, List.dropLast_concat]
    have hfunctionName : functionName s = name.text := by
      unfold functionName
      rw [htokens]
      rfl
    have hcontent : content s.tokens = (carried .ident name.text).toList ++ content params := by
      rw [← content_inner hbegins hends (by decide), hinner, content_cons, hname, content_symbol hopening, content_append,
        content_symbol hclosing, content_nil, List.append_nil]
    dsimp only
    rw [wordContent_nameWord, hfunction, wordContent_nameWord, wordContent_bracketedWords, hcontent, hparams, hfunctionName]
    rfl
  | if_ =>
    rw [hrule] at hdescribes
    rw [wordContent_nameWord, hif]
    exact hcond "if" (by decide) hdescribes.1 hdescribes.2
  | elif =>
    rw [hrule] at hdescribes
    rw [hclose, wordContent_nameWord, helse, wordContent_nameWord, hif]
    exact hcond "elif" (by decide) hdescribes.1 hdescribes.2
  | else_ =>
    rw [hrule] at hdescribes
    obtain ⟨hbegins, hlength, hends⟩ := hdescribes
    obtain ⟨first, last, htokens⟩ := List.length_eq_two.mp hlength
    rw [hclose, wordContent_nameWord, helse, ← content_inner hbegins hends (by decide), htokens]
    rfl
  | while_ =>
    rw [hrule] at hdescribes
    rw [wordContent_nameWord, hwhile]
    exact hcond "while" (by decide) hdescribes.1 hdescribes.2
  | opener =>
    rw [hrule] at hdescribes
    dsimp only
    rw [wordContent_append, wordContent_expressionWords, content_dropLast hdescribes]
    exact List.append_nil _
  | _ =>
    rw [hrule] at hopens
    contradiction

/-! ## Lines and sources -/

/-- The tokens of the statement that a line is made of. -/
def Form.tokens (form : Form) : List Token := (form.statement?.map Statement.tokens).getD []

/-- A line keeps the content of its statement. -/
theorem Form.Genuine.content {form : Form} (h : form.Genuine) : wordContent form.words = content form.tokens := by
  cases form with
  | simple known s => exact wordContent_simpleWords known (h _ rfl).1
  | opening alternate header =>
    obtain ⟨hgenuine, hmark⟩ := h _ rfl
    exact wordContent_openingWords alternate hgenuine (congrArg Prod.fst hmark).symm
  | closing => rfl

/-- A line is cut into tokens up to its end, and they have the content of its statement. -/
theorem Emission.content_scan {e : Emission} (h : e.form.Genuine) (name : String) :
    (∃ gap pos, (⟨name, e.text⟩ : Source).scan.ending = .complete gap pos) ∧
      content (⟨name, e.text⟩ : Source).scan.tokens = content e.form.tokens := by
  have hgap : IsGap (indentation e.depth) := indentation_isGap e.depth
  have hfits : Fits (gapped (indentation e.depth) e.form.words) ([] : List Char).head? :=
    (h.fits.gapped hgap).mono fun kind text _ => Stops.none kind text
  have htext : (⟨name, e.text⟩ : Source).text.toList = written (gapped (indentation e.depth) e.form.words) ++ [] := by
    rw [List.append_nil, written_gapped _ h.words_ne_nil, e.form.written_words]
    exact indentLine_toList e.depth e.form.text
  obtain ⟨htokens, pos, hending⟩ := scan_written htext hfits rfl
  refine ⟨⟨_, pos, hending⟩, ?_⟩
  rw [htokens, content_placed, wordContent_gapped, h.content]

/-- The words of lines have the content of the statements of the lines. -/
theorem wordContent_lineWords {lines : List Emission} (h : ∀ e ∈ lines, e.form.Genuine) :
    wordContent (lineWords lines) = content ((lines.filterMap (·.form.statement?)).flatMap Statement.tokens) := by
  induction lines with
  | nil => rfl
  | cons e lines ih =>
    obtain ⟨he, hlines⟩ := List.forall_mem_cons.mp h
    have hrest : wordContent (lineWords lines) = _ := ih hlines
    have hfirst : lineWords (e :: lines) = e.words ++ lineWords lines := rfl
    rw [hfirst, wordContent_append, hrest, Emission.words, wordContent_gapped, he.content, Form.tokens, List.filterMap_cons]
    cases e.form.statement? with
    | none => rfl
    | some s =>
      rw [List.flatMap_cons, content_append]
      rfl

/-- The import of the host carries no content. -/
theorem wordContent_importWords : wordContent importWords = [] := by decide

/-- The words of a host script have the content of its source. -/
theorem wordContent_scriptWords (source : Source) : wordContent (scriptWords (emissionsOf source)) = content source.scan.tokens := by
  have htokens : (statementsOf source).flatMap Statement.tokens = source.scan.tokens := flatMap_statements _ _
  rw [scriptWords, wordContent_append, wordContent_importWords, List.nil_append, wordContent_gapped,
    wordContent_lineWords fun e he => emissionsOf_genuine he, emissionsOf_statements, htokens]

/-- Rendering loses, duplicates, reorders and makes up nothing. If a source is cut into tokens up to its end, so is its host script.
Every token of the source belongs to one of its statements, every statement is one line of the host script, both in their order, and
every line carries the content of its statement; so the content of the host script is the content of the source. -/
theorem render_content {source : Source} {gap : String} {pos : Position} (h : source.scan.ending = .complete gap pos) :
    (∃ gap' pos', (render source).script.scan.ending = .complete gap' pos') ∧
      (statementsOf source).flatMap Statement.tokens = source.scan.tokens ∧
      (render source).script.text.toList = linesText (hostImportLine :: "" :: (emissionsOf source).map Emission.text) ∧
      (emissionsOf source).filterMap (·.form.statement?) = statementsOf source ∧
      (∀ e ∈ emissionsOf source, (∃ gap' pos', (⟨source.name, e.text⟩ : Source).scan.ending = .complete gap' pos') ∧
        content (⟨source.name, e.text⟩ : Source).scan.tokens = content e.form.tokens) ∧
      content (render source).script.scan.tokens = content source.scan.tokens := by
  obtain ⟨htokens, pos', hending⟩ := render_scan h
  refine ⟨⟨_, pos', hending⟩, flatMap_statements _ _, ?_, emissionsOf_statements source,
    fun e he => Emission.content_scan (emissionsOf_genuine he) source.name, ?_⟩
  · rw [render_text, tailOf_complete h, nodeLines_eq]
    exact congrArg (hostImportLine.toList ++ '\n' :: '\n' :: ·) (List.append_nil _)
  · rw [htokens, content_placed, wordContent_scriptWords]

/-- A prompt inside an output keeps its string, and the name `exports` is written as a member of the host. -/
theorem render_content_prompt :
    (∃ gap pos, (render ⟨"case", "if(x): say ask `a`, 1; else: exports.b = 2;"⟩).script.scan.ending = .complete gap pos) ∧
      content (render ⟨"case", "if(x): say ask `a`, 1; else: exports.b = 2;"⟩).script.scan.tokens =
        [(.ident, "x"), (.rawString, "a"), (.number, "1"), (.ident, "b"), (.number, "2")] := by
  have hsource : (⟨"case", "if(x): say ask `a`, 1; else: exports.b = 2;"⟩ : Source).scan.ending =
      .complete "" ⟨1, 44, 43⟩ := by decide +kernel
  obtain ⟨hcomplete, -, -, -, -, hcontent⟩ := render_content hsource
  refine ⟨hcomplete, hcontent.trans ?_⟩
  decide +kernel

end HostScript.Dialect
