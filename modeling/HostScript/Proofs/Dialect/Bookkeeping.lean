import Mathlib
import HostScript.Proofs.Dialect.Nesting
import HostScript.Proofs.Script.Pass

/-!
# The bookkeeping of names

Rendering keeps account of the names that are declared where a statement stands, to tell a declaration from an assignment. If a source
brings no braces, `let` or `function` of its own, the tokens of its host script are orderly: a pass over them knows the same names at
every line (`render_orderly`).
-/

namespace HostScript.Dialect

open Lexer (Word nameWord symbolWord gapped)
open Script (Idle Orderly Pass declareIn plainRow)

/-! ## The names that are bound -/

/-- The word of a line that is the name of a binding, if the line is one. -/
def Form.nameIndex? : Form → Option Nat
  | .simple known s =>
    if s.rule = .binding then some (if known.contains (((s.tokens.head?).map Token.text).getD "") then 0 else 1) else none
  | .opening _ _ | .closing => none

/-- For each word of a line, whether it is the name of a binding. -/
def Form.marks (form : Form) : List Bool := form.words.mapIdx fun i _ => form.nameIndex? == some i

/-- For each token of the host script that consists of lines, whether it is the name of a binding. -/
def scriptMarks (lines : List Emission) : List Bool := importWords.map (fun _ => false) ++ lines.flatMap (·.form.marks)

/-- Where the names of the bindings of a source stand in its host script. -/
def boundNames (source : Source) : List Span :=
  (((render source).script.scan.tokens.zip (scriptMarks (emissionsOf source))).filter (·.2)).map (·.1.span)

/-- The shapes of the words of a line, with the name of a binding marked. -/
def Form.marked (form : Form) : List (Shape × Bool) := (form.words.map wordShape).zip form.marks

/-- The marked shapes of lines. -/
def markedLines (lines : List Emission) : List (Shape × Bool) := lines.flatMap (·.form.marked)

/-- Where no name is bound no shape is marked. -/
theorem zip_false (words : List Word) : (words.map wordShape).zip (words.mapIdx fun _ _ => false) = plainRow (words.map wordShape) := by
  induction words with
  | nil => rfl
  | cons w words ih =>
    rw [List.mapIdx_cons, List.map_cons, List.zip_cons_cons, ih]
    rfl

/-- A line that is no binding has no marks. -/
theorem Form.marked_plain {form : Form} (h : form.nameIndex? = none) : form.marked = plainRow (form.words.map wordShape) := by
  rw [Form.marked, Form.marks, h]
  exact zip_false form.words

/-- A binding that is an assignment begins with its name. -/
theorem Form.marked_assignment {form : Form} {w : Word} {words : List Word} (h : form.nameIndex? = some 0)
    (hwords : form.words = w :: words) : form.marked = (wordShape w, true) :: plainRow (words.map wordShape) := by
  rw [Form.marked, Form.marks, h, hwords, List.mapIdx_cons, List.map_cons, List.zip_cons_cons, ← zip_false]
  rfl

/-- In a binding that is a declaration the name stands behind a word. -/
theorem Form.marked_declaration {form : Form} {v w : Word} {words : List Word} (h : form.nameIndex? = some 1)
    (hwords : form.words = v :: w :: words) :
    form.marked = (wordShape v, false) :: (wordShape w, true) :: plainRow (words.map wordShape) := by
  rw [Form.marked, Form.marks, h, hwords, List.mapIdx_cons, List.mapIdx_cons, List.map_cons, List.map_cons, List.zip_cons_cons,
    List.zip_cons_cons, ← zip_false]
  rfl

/-! ## Expressions -/

/-- No token of a row opens or closes a block or declares a name. -/
def Undeclaring (row : List Token) : Prop := ∀ t ∈ row, Idle (shapeOf t)

/-- A stretch of a row that declares nothing declares nothing. -/
theorem Undeclaring.stretch {row part : List Token} (h : Undeclaring row) (hpart : part <:+: row) : Undeclaring part :=
  fun t ht => h t (hpart.subset ht)

/-- Rendering a row as an expression brings in nothing that opens or closes a block or declares a name. -/
theorem expressionWords_idle {first afterDot : Bool} {row : List Token} (h : Undeclaring row) :
    ∀ s ∈ (expressionWords first afterDot row).map wordShape, Idle s := by
  have hkp : Idle (wordShape (nameWord [] hostAlias.toList)) := by decide
  have hdot : Idle (wordShape (symbolWord [] '.')) := by decide
  fun_induction expressionWords first afterDot row with
  | case1 => exact List.forall_mem_nil _
  | case2 first afterDot token rest gap hexports ih =>
    simp only [List.map_cons, List.forall_mem_cons]
    exact ⟨hkp, hdot, by decide, ih (List.forall_mem_cons.mp h).2⟩
  | case3 first afterDot token rest gap hexports hask ihOperand ihAfter =>
    have hrest : Undeclaring rest := (List.forall_mem_cons.mp h).2
    rw [← splitOperand_append 0 rest] at hrest
    obtain ⟨hoperand, hafter⟩ := List.forall_mem_append.mp hrest
    simp only [List.map_cons, List.map_append, List.forall_mem_cons, List.forall_mem_append]
    exact ⟨hkp, hdot, by decide, by decide, ihOperand hoperand, by decide, ihAfter hafter⟩
  | case4 first afterDot token rest gap hexports hask ih =>
    obtain ⟨htoken, hrest⟩ := List.forall_mem_cons.mp h
    have hshape : wordShape ⟨gap, token.kind, token.text.toList⟩ = shapeOf token := by simp [wordShape, shapeOf]
    rw [List.map_cons, hshape]
    exact List.forall_mem_cons.mpr ⟨htoken, ih hrest⟩

variable {functions : Bool} {scopes : List (List String)} {rest : List (Shape × Bool)} {row : List Token}

/-- Between the brackets of a function header a pass collects the names, as long as there are only names and commas. -/
theorem expressionWords_params {first afterDot : Bool} (h : Undeclaring row) {names : List String}
    (hrest : Orderly functions ⟨.params (names ++ (row.filter fun t => t.kind == .ident).map Token.text), scopes⟩ rest) :
    Orderly functions ⟨.params names, scopes⟩ (plainRow ((expressionWords first afterDot row).map wordShape) ++ rest) := by
  -- what a replaced word begins with is a name and a dot, and no dot is awaited
  have hreplaced : ∀ names gap words, Orderly functions ⟨.params names, scopes⟩
      (plainRow ((nameWord gap hostAlias.toList :: symbolWord [] '.' :: words).map wordShape) ++ rest) := by
    intro names gap words
    change Orderly _ _ ((Shape.word hostAlias, false) :: (Shape.symbol ".", false) :: _)
    have hdot : Pass.step ⟨.params (names ++ [hostAlias]), scopes⟩ (.symbol ".") = none := by simp [Pass.step, Shape.symbol]
    rw [Script.orderly_param rfl]
    exact ⟨rfl, (Script.orderly_stuck hdot).mpr rfl⟩
  fun_induction expressionWords first afterDot row generalizing names with
  | case1 =>
    rw [List.filter_nil, List.map_nil, List.append_nil] at hrest
    exact hrest
  | case2 first afterDot token rest gap hexports ih => exact hreplaced _ _ _
  | case3 first afterDot token rest gap hexports hask ihOperand ihAfter => exact hreplaced _ _ _
  | case4 first afterDot token row gap hexports hask ih =>
    obtain ⟨htoken, hrow⟩ := List.forall_mem_cons.mp h
    have hshape : wordShape ⟨gap, token.kind, token.text.toList⟩ = shapeOf token := by simp [wordShape, shapeOf]
    rw [List.map_cons, hshape]
    change Orderly _ _ ((shapeOf token, false) :: (plainRow _ ++ rest))
    by_cases hkind : token.kind = .ident
    · rw [Script.orderly_param hkind]
      refine ⟨rfl, ih hrow ?_⟩
      rw [List.filter_cons_of_pos (by simp [hkind]), List.map_cons] at hrest
      rw [List.append_assoc]
      exact hrest
    · rw [List.filter_cons_of_neg (by simp [hkind])] at hrest
      by_cases hbetween : shapeOf token ∈ [Shape.symbol "(", .symbol ")", .symbol ","]
      · rw [Script.orderly_between hbetween]
        exact ⟨rfl, ih hrow hrest⟩
      · have hbrace : shapeOf token ≠ .symbol "\x7b" := by
          intro heq
          rw [heq] at htoken
          exact absurd htoken (by decide)
        have hshapeKind : (shapeOf token).kind ≠ .ident := hkind
        have hstep : Pass.step ⟨.params names, scopes⟩ (shapeOf token) = none := by
          simp only [Pass.step, hshapeKind, hbrace, hbetween, if_false]
        exact (Script.orderly_stuck hstep).mpr rfl

/-! ## Lines -/

/-- A row without marks is one, shape by shape. -/
theorem plainRow_cons (s : Shape) (row : List Shape) : plainRow (s :: row) = (s, false) :: plainRow row := rfl

/-- Two rows without marks. -/
theorem plainRow_append (row more : List Shape) : plainRow (row ++ more) = plainRow row ++ plainRow more := List.map_append

/-- A statement that was read from a source without braces, `let` and `function`, and is the header of a function only where that is
permitted. -/
structure Statement.Undeclaring (functions : Bool) (s : Statement) : Prop where
  genuine : s.Genuine
  tokens : Dialect.Undeclaring s.tokens
  permitted : s.rule = .function → functions

/-- The bookkeeping knows the names of some scopes. -/
def Agrees (known : List String) (scopes : List (List String)) : Prop := ∀ name, name ∈ known ↔ name ∈ scopes.flatten

/-- A name is declared for the bookkeeping as in the innermost scope. -/
theorem Agrees.declareIn {known : List String} (h : Agrees known scopes) (name : String) :
    Agrees (name :: known) (declareIn name scopes) := by
  intro other
  rw [Script.flatten_declareIn, List.mem_cons, List.mem_cons, h other]

/-- A name that is known is not declared once more. -/
theorem Agrees.again {known : List String} (h : Agrees known scopes) {name : String} (hknown : name ∈ known) :
    Agrees (name :: known) scopes := by
  intro other
  rw [← h other, List.mem_cons, or_iff_right_iff_imp]
  rintro rfl
  exact hknown

/-- The words behind the name in a binding. -/
def valueWords (s : Statement) : List Word :=
  symbolWord [' '] '=' :: gapped [' '] (expressionWords true false (s.tokens.drop 2).dropLast ++ [symbolWord [] ';'])

/-- The value of a binding declares nothing. -/
theorem valueWords_idle {s : Statement} (h : Undeclaring s.tokens) : ∀ shape ∈ (valueWords s).map wordShape, Idle shape := by
  have hvalue : Undeclaring (s.tokens.drop 2).dropLast := h.stretch (infix_drop_dropLast _ 2)
  rw [valueWords, List.map_cons, gapped_shapes, List.map_append, List.forall_mem_cons, List.forall_mem_append]
  exact ⟨by decide, expressionWords_idle hvalue, by decide⟩

/-- A binding is an assignment if its name is known, and a declaration otherwise. -/
theorem marked_binding {known : List String} {s : Statement} (hrule : s.rule = .binding) {name : String}
    (hname : s.tokens.head?.map Token.text = some name) :
    (Form.simple known s).marked = (if name ∈ known then [] else [(Shape.word "let", false)]) ++
      (.word name, true) :: plainRow ((valueWords s).map wordShape) := by
  have hshape : ∀ gap, wordShape (nameWord gap name.toList) = .word name := by simp [wordShape, nameWord, Shape.word]
  by_cases hknown : name ∈ known
  · have hform : (Form.simple known s).words = nameWord [] name.toList :: valueWords s := by
      simp only [Form.words, simpleWords, hrule, hname, Option.getD_some, List.contains_iff_mem, hknown, if_true]
      rfl
    have hindex : (Form.simple known s).nameIndex? = some 0 := by
      simp only [Form.nameIndex?, hrule, hname, Option.getD_some, List.contains_iff_mem, hknown, if_true]
    rw [Form.marked_assignment hindex hform, hshape, if_pos hknown]
    rfl
  · have hform : (Form.simple known s).words = nameWord [] "let".toList :: nameWord [' '] name.toList :: valueWords s := by
      simp only [Form.words, simpleWords, hrule, hname, Option.getD_some, List.contains_iff_mem, hknown, if_false]
      rfl
    have hindex : (Form.simple known s).nameIndex? = some 1 := by
      simp only [Form.nameIndex?, hrule, hname, Option.getD_some, List.contains_iff_mem, hknown, if_true, if_false]
    rw [Form.marked_declaration hindex hform, hshape, if_neg hknown]
    rfl

/-- A call to the host declares nothing if its arguments do not. -/
theorem hostCallWords_idle {member : String} (hmember : Idle (.word member)) (h : Undeclaring row) :
    ∀ s ∈ (hostCallWords member.toList row).map wordShape, Idle s := by
  have hshape : wordShape (nameWord [] member.toList) = .word member := by simp [wordShape, nameWord, Shape.word]
  simp only [hostCallWords, List.map_cons, List.map_append, List.forall_mem_cons, List.forall_mem_append, hshape]
  exact ⟨by decide, by decide, hmember, by decide, expressionWords_idle h, by decide⟩

/-- Where a pass stands behind a simple statement, its scopes and the bookkeeping agree again. -/
theorem simple_orderly {known : List String} {s : Statement} (hs : s.Undeclaring functions) (hopens : s.rule.opensBlock = false)
    (hagrees : Agrees known scopes)
    (hrest : ∀ scopes', scopes'.tail = scopes.tail → Agrees ((declaredName? s).toList ++ known) scopes' →
      Orderly functions ⟨.anything, scopes'⟩ rest) :
    Orderly functions ⟨.anything, scopes⟩ ((Form.simple known s).marked ++ rest) := by
  -- a line without marks and declarations leaves everything as it is
  have hplain : s.rule ≠ .binding → (∀ shape ∈ (simpleWords known s).map wordShape, Idle shape) →
      Orderly functions ⟨.anything, scopes⟩ ((Form.simple known s).marked ++ rest) := by
    intro hrule hidle
    have hnone : declaredName? s = none := by
      unfold declaredName?
      cases hs : s.rule <;> rw [hs] at hrule hopens <;> first | rfl | exact absurd rfl hrule | cases hopens
    have hindex : (Form.simple known s).nameIndex? = none := if_neg hrule
    rw [Form.marked_plain hindex]
    refine (Script.orderly_plainRow hidle).mpr (hrest scopes rfl ?_)
    rw [hnone]
    exact hagrees
  have hinner : ∀ n, Undeclaring (s.tokens.drop n).dropLast := fun n => hs.tokens.stretch (infix_drop_dropLast _ n)
  cases hrule : s.rule with
  | binding =>
    have hdescribes := hs.genuine.describes
    rw [hrule] at hdescribes
    obtain ⟨⟨name, equals, value, htokens, hkind, -⟩, -⟩ := hdescribes
    have hname : s.tokens.head?.map Token.text = some name.text := by rw [htokens]; rfl
    have hdeclared : declaredName? s = some name.text := by rw [declaredName?, hrule]; exact hname
    have hidle := valueWords_idle hs.tokens
    rw [hdeclared] at hrest
    rw [marked_binding hrule hname]
    by_cases hknown : name.text ∈ known
    · have hidleName : Idle (.word name.text) := by
        have hfirst := hs.tokens name (by rw [htokens]; exact List.mem_cons_self)
        rwa [shapeOf, hkind] at hfirst
      rw [if_pos hknown]
      refine (Script.orderly_idle hidleName).mpr ⟨fun _ => (hagrees _).mp hknown, (Script.orderly_plainRow hidle).mpr ?_⟩
      exact hrest scopes rfl (hagrees.again hknown)
    · rw [if_neg hknown]
      change Orderly _ _ ((Shape.word "let", false) :: (Shape.word name.text, true) :: (_ ++ rest))
      rw [Script.orderly_let rfl]
      refine ⟨fun h => absurd h Bool.false_ne_true, fun h => hknown ((hagrees _).mpr h), (Script.orderly_plainRow hidle).mpr ?_⟩
      exact hrest _ (Script.tail_declareIn _ _) (hagrees.declareIn _)
  | say =>
    refine hplain (by rw [hrule]; exact Rule.noConfusion) ?_
    rw [simpleWords, hrule]
    exact hostCallWords_idle (by decide) (hinner 1)
  | ask =>
    refine hplain (by rw [hrule]; exact Rule.noConfusion) ?_
    rw [simpleWords, hrule]
    exact hostCallWords_idle (by decide) (hinner 1)
  | verbatim =>
    refine hplain (by rw [hrule]; exact Rule.noConfusion) ?_
    rw [simpleWords, hrule]
    dsimp only
    split
    · rw [List.map_append, List.forall_mem_append]
      exact ⟨expressionWords_idle (hinner 0), by decide⟩
    · exact expressionWords_idle hs.tokens
  | function | if_ | elif | else_ | while_ | opener =>
    rw [hrule] at hopens
    cases hopens

/-- The scopes around the block of a header. -/
def headerScopes (header : Statement) (scopes : List (List String)) : List (List String) :=
  (declaredName? header).elim scopes (declareIn · scopes)

/-- A header that binds no name leaves the scopes alone. -/
theorem headerScopes_plain {header : Statement} (hbinding : header.rule ≠ .binding) (hfunction : header.rule ≠ .function)
    (scopes : List (List String)) : headerScopes header scopes = scopes := by
  unfold headerScopes declaredName?
  split
  · rename_i hrule
    exact absurd hrule hbinding
  · rename_i hrule
    exact absurd hrule hfunction
  · rfl

/-- A header changes nothing outside of the innermost scope. -/
theorem headerScopes_tail (header : Statement) (scopes : List (List String)) : (headerScopes header scopes).tail = scopes.tail := by
  unfold headerScopes
  cases declaredName? header with
  | none => rfl
  | some name => exact Script.tail_declareIn name scopes

/-- The bookkeeping knows the names of the scopes behind a header if it knows those in front of it. -/
theorem Agrees.header {known : List String} (h : Agrees known scopes) (header : Statement) :
    Agrees ((declaredName? header).toList ++ known) (headerScopes header scopes) := by
  unfold headerScopes
  cases declaredName? header with
  | none => exact h
  | some name => exact h.declareIn name

/-- Inside of a body the parameters are known as well. -/
theorem Agrees.body {known : List String} (h : Agrees known scopes) (header : Statement) :
    Agrees (parameterNames header ++ ((declaredName? header).toList ++ known)) (parameterNames header :: headerScopes header scopes) := by
  intro name
  rw [List.flatten_cons, List.mem_append, List.mem_append (t := (headerScopes header scopes).flatten), ← h.header header name]

/-- Brackets and a brace behind idle words open a block. -/
theorem orderly_bracketed (words : List Word) {gap : List Char} (hwords : ∀ s ∈ words.map wordShape, Idle s) (h : Undeclaring row)
    (hrest : Orderly functions ⟨.anything, [] :: scopes⟩ rest) :
    Orderly functions ⟨.anything, scopes⟩ (plainRow ((words ++ bracketedWords gap row).map wordShape) ++ rest) := by
  have hsplit : (words ++ bracketedWords gap row).map wordShape =
      (words.map wordShape ++ .symbol "(" :: (expressionWords true false row).map wordShape ++ [.symbol ")"]) ++ [.symbol "\x7b"] := by
    simp [bracketedWords, symbolWord, wordShape, Shape.symbol]
  have hidle : ∀ s ∈ words.map wordShape ++ .symbol "(" :: (expressionWords true false row).map wordShape ++ [.symbol ")"], Idle s := by
    rw [List.forall_mem_append, List.forall_mem_append, List.forall_mem_cons]
    exact ⟨⟨hwords, by decide, expressionWords_idle h⟩, by decide⟩
  rw [hsplit, plainRow_append, List.append_assoc, Script.orderly_plainRow hidle]
  exact Script.orderly_open.mpr ⟨fun h => absurd h Bool.false_ne_true, hrest⟩

/-- The header of a block opens a scope with its parameters. -/
theorem header_orderly {header : Statement} (hs : header.Undeclaring functions) (hopens : header.rule.opensBlock)
    (hrest : Orderly functions ⟨.anything, parameterNames header :: headerScopes header scopes⟩ rest) :
    Orderly functions ⟨.anything, scopes⟩ ((Form.opening false header).marked ++ rest) := by
  have hcondition : Undeclaring (conditionTokens header) := by
    have hrow : Undeclaring (header.tokens.drop 1).dropLast := hs.tokens.stretch (infix_drop_dropLast _ 1)
    unfold conditionTokens
    dsimp only
    split
    · exact hrow.stretch (infix_drop_dropLast _ 1)
    · exact hrow
  -- all headers but those of functions declare nothing
  have hplain : header.rule ≠ .function → Orderly functions ⟨.anything, [] :: scopes⟩ rest := by
    intro hrule
    have hnames : parameterNames header = [] := if_neg hrule
    have hbinding : header.rule ≠ .binding := by
      intro hbinding
      rw [hbinding] at hopens
      cases hopens
    rwa [hnames, headerScopes_plain hbinding hrule] at hrest
  rw [Form.marked_plain rfl]
  change Orderly _ _ (plainRow ((openingWords false header).map wordShape) ++ rest)
  unfold openingWords
  cases hrule : header.rule with
  | function =>
    have hname : declaredName? header = some (functionName header) := by rw [declaredName?, hrule]
    have hparams : parameterNames header = ((functionParams header).filter fun t => t.kind == .ident).map Token.text := if_pos hrule
    have hscopes : headerScopes header scopes = declareIn (functionName header) scopes := by rw [headerScopes, hname]; rfl
    have htokens : Undeclaring (functionParams header) := by
      refine hs.tokens.stretch ((List.dropLast_prefix _).isInfix.trans (infix_drop_dropLast _ 3))
    have hshapes : (bracketedWords [] (functionParams header)).map wordShape =
        .symbol "(" :: ((expressionWords true false (functionParams header)).map wordShape ++ [.symbol ")", .symbol "\x7b"]) := by
      simp [bracketedWords, symbolWord, wordShape, Shape.symbol]
    have hword : wordShape (nameWord [' '] (functionName header).toList) = .word (functionName header) := by
      simp [wordShape, nameWord, Shape.word]
    rw [hparams, hscopes] at hrest
    dsimp only
    rw [List.map_cons, List.map_cons, hshapes, hword]
    change Orderly _ _ ((Shape.word "function", false) :: (Shape.word (functionName header), false) :: (Shape.symbol "(", false) ::
      (plainRow _ ++ rest))
    rw [Script.orderly_function rfl, Script.orderly_between (by decide), plainRow_append, List.append_assoc]
    refine ⟨⟨fun h => absurd h Bool.false_ne_true, hs.permitted hrule⟩, rfl, rfl, expressionWords_params htokens ?_⟩
    change Orderly _ _ ((Shape.symbol ")", false) :: (Shape.symbol "\x7b", false) :: rest)
    rw [Script.orderly_between (by decide), Script.orderly_body]
    exact ⟨rfl, rfl, hrest⟩
  | if_ =>
    have hrest := hplain (by rw [hrule]; exact Rule.noConfusion)
    exact orderly_bracketed [nameWord [] "if".toList] (by decide) hcondition hrest
  | elif =>
    have hrest := hplain (by rw [hrule]; exact Rule.noConfusion)
    exact orderly_bracketed [nameWord [] "else".toList, nameWord [' '] "if".toList] (by decide) hcondition hrest
  | else_ =>
    have hrest := hplain (by rw [hrule]; exact Rule.noConfusion)
    change Orderly _ _ ((Shape.word "else", false) :: (Shape.symbol "\x7b", false) :: rest)
    rw [Script.orderly_idle (by decide), Script.orderly_open]
    exact ⟨fun h => absurd h Bool.false_ne_true, fun h => absurd h Bool.false_ne_true, hrest⟩
  | while_ =>
    have hrest := hplain (by rw [hrule]; exact Rule.noConfusion)
    exact orderly_bracketed [nameWord [] "while".toList] (by decide) hcondition hrest
  | opener =>
    have hrest := hplain (by rw [hrule]; exact Rule.noConfusion)
    have hwords : Undeclaring header.tokens.dropLast := hs.tokens.stretch (List.dropLast_prefix _).isInfix
    dsimp only
    rw [List.map_append, plainRow_append, List.append_assoc, Script.orderly_plainRow (expressionWords_idle hwords)]
    exact Script.orderly_open.mpr ⟨fun h => absurd h Bool.false_ne_true, hrest⟩
  | binding | say | ask | verbatim =>
    rw [hrule] at hopens
    cases hopens

/-- The header of an alternate closes the block before it first. -/
theorem alternate_orderly {header : Statement} (halternate : header.rule.isAlternate)
    (h : Orderly functions ⟨.anything, scopes.tail⟩ ((Form.opening false header).marked ++ rest)) :
    Orderly functions ⟨.anything, scopes⟩ ((Form.opening true header).marked ++ rest) := by
  have hwords : (Form.opening true header).words = symbolWord [] '\x7d' :: gapped [' '] (Form.opening false header).words := by
    change openingWords true header = symbolWord [] '\x7d' :: gapped [' '] (openingWords false header)
    unfold openingWords
    cases hrule : header.rule with
    | elif | else_ => rfl
    | binding | function | if_ | while_ | say | ask | opener | verbatim =>
      rw [hrule] at halternate
      cases halternate
  rw [Form.marked_plain rfl] at h
  rw [Form.marked_plain rfl, hwords, List.map_cons, gapped_shapes, plainRow_cons, List.cons_append]
  exact Script.orderly_close.mpr ⟨fun h => absurd h Bool.false_ne_true, h⟩

/-! ## Trees -/

/-- The statements of nodes declare nothing but what they bind and the functions that are permitted, and are marked as they should be. -/
def AllUndeclaring (functions : Bool) (marked : List (Bool × Statement)) : Prop :=
  ∀ m ∈ marked, m.2.Undeclaring functions ∧ m = mark m.2

/-- A header in front of marked statements opens a block, and it declares no more than it may. -/
theorem AllUndeclaring.header {header : Statement} {marked : List (Bool × Statement)}
    (h : AllUndeclaring functions ((true, header) :: marked)) :
    header.Undeclaring functions ∧ header.rule.opensBlock ∧ AllUndeclaring functions marked := by
  obtain ⟨⟨hheader, hmark⟩, hrest⟩ := List.forall_mem_cons.mp h
  exact ⟨hheader, (congrArg Prod.fst hmark).symm, hrest⟩

/-- The marked shapes of lines are those of the first and of the rest. -/
theorem markedLines_cons (e : Emission) (lines : List Emission) : markedLines (e :: lines) = e.form.marked ++ markedLines lines := rfl

/-- The marked shapes of two lists of lines. -/
theorem markedLines_append (lines more : List Emission) : markedLines (lines ++ more) = markedLines lines ++ markedLines more :=
  List.flatMap_append

mutual

/-- Behind the lines of nodes a pass stands in the scopes in which it has entered them, with more names in the innermost. -/
theorem emissions_orderly {nodes : List Node} (h : AllUndeclaring functions (listed nodes)) (hcontinued : Continued nodes) (depth : Nat)
    {known : List String} {scopes : List (List String)} {rest : List (Shape × Bool)} (hagrees : Agrees known scopes)
    (hrest : ∀ scopes', scopes'.tail = scopes.tail → Orderly functions ⟨.anything, scopes'⟩ rest) :
    Orderly functions ⟨.anything, scopes⟩ (markedLines (emissions depth known nodes) ++ rest) := by
  cases nodes with
  | nil => exact hrest scopes rfl
  | cons node others =>
    cases node with
    | simple s =>
      obtain ⟨⟨hs, hmark⟩, hothers⟩ := List.forall_mem_cons.mp h
      rw [emissions, markedLines_cons, List.append_assoc]
      refine simple_orderly hs (congrArg Prod.fst hmark).symm hagrees fun scopes' htail hagrees' => ?_
      exact emissions_orderly hothers hcontinued depth hagrees' fun scopes'' htail' => hrest scopes'' (htail'.trans htail)
    | block first alternates =>
      obtain ⟨hbranches, hothers⟩ := List.forall_mem_append.mp h
      obtain ⟨hfirst, halternates⟩ := List.forall_mem_append.mp hbranches
      obtain ⟨hcfirst, hconditional, hcalternates, hcothers⟩ := hcontinued
      rw [emissions]
      simp only [markedLines_append, List.append_assoc]
      have hbehind : Agrees (branchNames first ++ known) (headerScopes first.header scopes) := by
        cases first
        exact hagrees.header _
      have hbetween : alternates ≠ [] → Agrees known (headerScopes first.header scopes) := by
        intro hsome
        have hrule := hconditional.resolve_left hsome
        rw [headerScopes_plain (by rw [hrule]; exact Rule.noConfusion) (by rw [hrule]; exact Rule.noConfusion)]
        exact hagrees
      refine branchEmissions_orderly hfirst hcfirst depth hagrees fun inside hinside => ?_
      refine alternateEmissions_orderly halternates hcalternates depth hbetween hinside fun last hlast => ?_
      change Orderly _ _ ((Shape.symbol "\x7d", false) :: (markedLines _ ++ rest))
      rw [Script.orderly_close, hlast]
      refine ⟨fun h => absurd h Bool.false_ne_true, emissions_orderly hothers hcothers depth hbehind fun scopes' htail => ?_⟩
      exact hrest _ (htail.trans (headerScopes_tail _ _))

/-- Behind the lines of a branch a pass stands inside its block. -/
theorem branchEmissions_orderly {branch : Branch} (h : AllUndeclaring functions (listedBranch branch)) (hcontinued : ContinuedBranch branch)
    (depth : Nat) {known : List String} {scopes : List (List String)} {rest : List (Shape × Bool)} (hagrees : Agrees known scopes)
    (hrest : ∀ scopes', scopes'.tail = headerScopes branch.header scopes → Orderly functions ⟨.anything, scopes'⟩ rest) :
    Orderly functions ⟨.anything, scopes⟩ (markedLines (branchEmissions depth known false branch) ++ rest) := by
  cases branch with
  | mk header body =>
    obtain ⟨hheader, hopens, hbody⟩ := h.header
    rw [branchEmissions, markedLines_cons, List.append_assoc]
    exact header_orderly hheader hopens (emissions_orderly hbody hcontinued (depth + 1) (hagrees.body header) hrest)

/-- So it does behind the lines of alternates, if it stands inside the block before them. -/
theorem alternateEmissions_orderly {branches : List Branch} (h : AllUndeclaring functions (listedAlternates branches))
    (hcontinued : ContinuedAlternates branches) (depth : Nat) {known : List String} {scopes outer : List (List String)}
    {rest : List (Shape × Bool)} (hagrees : branches ≠ [] → Agrees known outer) (houter : scopes.tail = outer)
    (hrest : ∀ scopes', scopes'.tail = outer → Orderly functions ⟨.anything, scopes'⟩ rest) :
    Orderly functions ⟨.anything, scopes⟩ (markedLines (alternateEmissions depth known branches) ++ rest) := by
  cases branches with
  | nil => exact hrest scopes houter
  | cons branch others =>
    cases branch with
    | mk header body =>
      obtain ⟨hbranch, hothers⟩ := List.forall_mem_append.mp h
      obtain ⟨hheader, hopens, hbody⟩ := AllUndeclaring.header hbranch
      obtain ⟨halternate, hcbody, hcothers⟩ := hcontinued
      have hscopes : headerScopes header outer = outer := by
        have halternate : header.rule.isAlternate := halternate
        refine headerScopes_plain (fun hrule => ?_) (fun hrule => ?_) outer
        · rw [hrule] at halternate
          cases halternate
        · rw [hrule] at halternate
          cases halternate
      rw [alternateEmissions, markedLines_append, branchEmissions, markedLines_cons, List.append_assoc, List.append_assoc]
      refine alternate_orderly halternate (header_orderly hheader hopens ?_)
      rw [houter]
      refine emissions_orderly hbody hcbody (depth + 1) ((hagrees (List.cons_ne_nil _ _)).body header) fun scopes' htail => ?_
      exact alternateEmissions_orderly hothers hcothers depth (fun _ => hagrees (List.cons_ne_nil _ _)) (htail.trans hscopes) hrest

end

/-! ## Sources -/

/-- There is a mark for each word of a line. -/
theorem marks_length (form : Form) : form.marks.length = (wordShapes form.words).length := by
  rw [Form.marks, List.length_mapIdx, wordShapes, List.length_map]

/-- The marked shapes of lines are their shapes and their marks. -/
theorem markedLines_eq (lines : List Emission) : markedLines lines = (lineShapes lines).zip (lines.flatMap (·.form.marks)) := by
  induction lines with
  | nil => rfl
  | cons e lines ih =>
    rw [markedLines_cons, ih, lineShapes_cons, List.flatMap_cons, List.zip_append (marks_length e.form).symm]
    rfl

/-- Every token of the host script is marked or not. -/
theorem scriptWords_length (lines : List Emission) : (scriptWords lines).length = (scriptMarks lines).length := by
  have hlines : (lineShapes lines).length = (lines.flatMap (·.form.marks)).length := by
    induction lines with
    | nil => rfl
    | cons e lines ih => rw [lineShapes_cons, List.flatMap_cons, List.length_append, List.length_append, ih, marks_length]
  have hwords : (gapped ['\n'] (lineWords lines)).length = (lineShapes lines).length := by
    rw [lineShapes, wordShapes, ← gapped_shapes ['\n'], List.length_map]
  rw [scriptWords, scriptMarks, List.length_append, List.length_append, List.length_map, hwords, hlines]

/-- The tokens of a host script with their marks: those of the import, and those of the lines. -/
theorem render_marked {source : Source} {gap : String} {pos : Position} (hscan : source.scan.ending = .complete gap pos) :
    (shapes (render source).script.scan.tokens).zip (scriptMarks (emissionsOf source)) =
      plainRow (importWords.map wordShape) ++ markedLines (emissionsOf source) := by
  have hlength : (importWords.map wordShape).length = (importWords.map fun _ => false).length := by rw [List.length_map, List.length_map]
  rw [(render_scan hscan).1, shapes_placed, scriptWords, List.map_append, gapped_shapes, scriptMarks, List.zip_append hlength,
    markedLines_eq]
  rfl

/-- If a source brings no braces, `let` or `function` of its own, the tokens of its host script with the names of its bindings are
orderly. -/
theorem render_orderly {source : Source} {gap : String} {pos : Position} (hscan : source.scan.ending = .complete gap pos)
    (h : Undeclaring source.scan.tokens) (hfunctions : ∀ s ∈ statementsOf source, s.rule = .function → functions) :
    Orderly functions ⟨.anything, []⟩ ((shapes (render source).script.scan.tokens).zip (scriptMarks (emissionsOf source))) := by
  have himport : ∀ s ∈ importWords.map wordShape, Idle s := by decide
  have hlisted : listed (nodesOf source) = (statementsOf source).map mark := listed_blocks (statementsOf source)
  have hundeclaring : AllUndeclaring functions (listed (nodesOf source)) := by
    rw [hlisted]
    intro m hm
    obtain ⟨s, hs, rfl⟩ := List.mem_map.mp hm
    obtain ⟨endsLine, htokens, -⟩ := mem_statements hs
    exact ⟨⟨statementsOf_genuine hs, h.stretch htokens, hfunctions s hs⟩, rfl⟩
  have hlines : Orderly functions ⟨.anything, []⟩ (markedLines (emissionsOf source) ++ []) :=
    emissions_orderly hundeclaring (arrange_continued [] _) 0 (fun _ => Iff.rfl) fun _ _ => trivial
  rw [render_marked hscan, Script.orderly_plainRow himport]
  rwa [List.append_nil] at hlines

/-! ## What is marked -/

/-- The name that a statement binds. -/
def boundName? (s : Statement) : Option String := if s.rule = .binding then s.tokens.head?.map Token.text else none

/-- In a row without marks nothing is marked. -/
theorem filter_plainRow (row : List Shape) : (plainRow row).filter (·.2) = [] := by
  rw [plainRow, List.filter_map, List.map_eq_nil_iff, List.filter_eq_nil_iff]
  exact fun s _ => Bool.false_ne_true

/-- A line is marked at the name that its statement binds, and nowhere else. -/
theorem marked_bound {form : Form} (h : form.Genuine) :
    (form.marked.filter (·.2)).map (·.1.text) = (form.statement?.bind boundName?).toList := by
  have hplain : form.nameIndex? = none → (form.marked.filter (·.2)).map (·.1.text) = [] := by
    intro hindex
    rw [Form.marked_plain hindex, filter_plainRow]
    rfl
  cases form with
  | closing => exact hplain rfl
  | opening alternate header =>
    have hrule : header.rule ≠ .binding := by
      intro hrule
      have hmark := congrArg Prod.fst (h _ rfl).2
      rw [mark, hrule] at hmark
      cases hmark
    have hbound : boundName? header = none := if_neg hrule
    change _ = (boundName? header).toList
    rw [hplain rfl, hbound]
    rfl
  | simple known s =>
    change _ = (boundName? s).toList
    by_cases hrule : s.rule = .binding
    · have hdescribes := (h _ rfl).1.describes
      change s.rule.Describes s.tokens at hdescribes
      rw [hrule] at hdescribes
      obtain ⟨⟨name, equals, value, htokens, -, -⟩, -⟩ := hdescribes
      have hname : s.tokens.head?.map Token.text = some name.text := by rw [htokens]; rfl
      have hlet : (if name.text ∈ known then [] else [(Shape.word "let", false)]).filter (·.2) = [] := by
        split <;> rfl
      rw [marked_binding hrule hname, List.filter_append, hlet, List.nil_append, List.filter_cons_of_pos rfl, filter_plainRow,
        boundName?, if_pos hrule, hname]
      rfl
    · have hbound : boundName? s = none := if_neg hrule
      rw [hplain (if_neg hrule), hbound]
      rfl

/-- The marked tokens of the host script are the names of the bindings of its source, in their order. -/
theorem marked_names {source : Source} {gap : String} {pos : Position} (hscan : source.scan.ending = .complete gap pos) :
    (((shapes (render source).script.scan.tokens).zip (scriptMarks (emissionsOf source))).filter (·.2)).map (·.1.text) =
      (statementsOf source).filterMap boundName? := by
  have hlines : ∀ lines : List Emission, (∀ e ∈ lines, e.form.Genuine) →
      ((markedLines lines).filter (·.2)).map (·.1.text) = (lines.filterMap (·.form.statement?)).filterMap boundName? := by
    intro lines hgenuine
    induction lines with
    | nil => rfl
    | cons e lines ih =>
      obtain ⟨he, hgenuine⟩ := List.forall_mem_cons.mp hgenuine
      rw [markedLines_cons, List.filter_append, List.map_append, marked_bound he, ih hgenuine, List.filterMap_cons]
      cases e.form.statement? with
      | none => rfl
      | some s =>
        rw [List.filterMap_cons]
        cases hbound : boundName? s with
        | none => rw [Option.bind_some, hbound]; rfl
        | some name => rw [Option.bind_some, hbound]; rfl
  rw [render_marked hscan, List.filter_append, filter_plainRow, List.nil_append, hlines _ fun e he => emissionsOf_genuine he,
    emissionsOf_statements]

end HostScript.Dialect
