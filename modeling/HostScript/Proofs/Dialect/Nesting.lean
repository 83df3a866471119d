import Mathlib
import HostScript.Proofs.Dialect.Emitted
import HostScript.Proofs.Dialect.Lines
import HostScript.Proofs.Dialect.Opening

/-!
# Nested brackets

Along a row of tokens the brackets that are open await their closing brackets on a stack (`awaited`); a row is nested if nothing is
awaited behind it and every closing bracket is the one awaited. If the tokens of a source are nested, so are the tokens of every statement
of it, and of every row that is rendered as an expression. A line that opens a block awaits a brace behind it, which the header of an
alternate and the closing line answer; so the whole host script is nested (`render_nested`).
-/

namespace HostScript.Dialect

open Lexer

/-! ## Brackets -/

/-- The bracket that closes an opening bracket. -/
def closerOf (text : String) : String := if text = "(" then ")" else if text = "[" then "]" else "\x7d"

/-- The closing brackets awaited behind a token, innermost first. A closing bracket has to be the one awaited. -/
def awaitBehind (stack : List String) (s : Shape) : Option (List String) :=
  if isOpen s.token then some (closerOf s.text :: stack)
  else if isClose s.token then
    match stack with
    | closer :: below => if closer = s.text then some below else none
    | [] => none
  else some stack

/-- The closing brackets awaited behind a row, from those awaited in front of it. -/
def awaited (stack : List String) (row : Row) : Option (List String) := row.foldlM awaitBehind stack

/-- The brackets of a row are nested, kind by kind: each is closed in it by a bracket of its kind, and none is closed that is not open. -/
def Nested (row : Row) : Prop := awaited [] row = some []

instance (row : Row) : Decidable (Nested row) := inferInstanceAs (Decidable (_ = _))

variable {s : Shape} {row more : Row} {stack stack' : List String}

/-- Behind no tokens the same closers are awaited as in front of them. -/
theorem awaited_nil (stack : List String) : awaited stack [] = some stack := rfl

/-- The closers that are awaited behind a row, from its first token on. -/
theorem awaited_cons (stack : List String) (s : Shape) (row : Row) :
    awaited stack (s :: row) = (awaitBehind stack s).bind (awaited · row) := List.foldlM_cons

/-- The closers that are awaited behind two rows, from those behind the first on. -/
theorem awaited_append (stack : List String) (row more : Row) :
    awaited stack (row ++ more) = (awaited stack row).bind (awaited · more) := List.foldlM_append

/-- A token is no bracket. -/
def Shape.Plain (s : Shape) : Prop := isOpen s.token = false ∧ isClose s.token = false

instance (s : Shape) : Decidable s.Plain := inferInstanceAs (Decidable (_ ∧ _))

/-- A token that is no bracket changes nothing about what is awaited. -/
theorem awaitBehind_plain (h : s.Plain) (stack : List String) : awaitBehind stack s = some stack := by
  unfold awaitBehind
  rw [h.1, h.2]
  rfl

/-- A token that is no bracket may be left out. -/
theorem awaited_plain (h : s.Plain) (stack : List String) (row : Row) : awaited stack (s :: row) = awaited stack row := by
  rw [awaited_cons, awaitBehind_plain h, Option.bind_some]

/-- Behind an opening bracket its closer is awaited first. -/
theorem awaited_open {text : String} (h : text = "(" ∨ text = "\x7b") (stack : List String) (row : Row) :
    awaited stack (.symbol text :: row) = awaited (closerOf text :: stack) row := by
  rcases h with rfl | rfl <;> rfl

/-- The closer that is awaited first may stand next. -/
theorem awaited_close {text : String} (h : text = ")" ∨ text = "\x7d") (stack : List String) (row : Row) :
    awaited (text :: stack) (.symbol text :: row) = awaited stack row := by
  rcases h with rfl | rfl <;> rfl

/-- A name, a number or a string is no bracket. -/
theorem Shape.plain_of_kind (h : s.kind ≠ .symbol) : s.Plain := by
  have hkind : (s.token.kind == TokenKind.symbol) = false := beq_false_of_ne h
  unfold Shape.Plain isOpen isClose
  rw [hkind]
  exact ⟨rfl, rfl⟩

/-- What is awaited further out is not touched. -/
theorem awaitBehind_within (h : awaitBehind stack s = some stack') (outer : List String) :
    awaitBehind (stack ++ outer) s = some (stack' ++ outer) := by
  unfold awaitBehind at h ⊢
  split at h
  · rename_i hopen
    obtain rfl := Option.some.inj h
    rw [if_pos hopen]
    rfl
  · rename_i hopen
    rw [if_neg hopen]
    split at h
    · rename_i hclose
      rw [if_pos hclose]
      cases stack with
      | nil => nomatch h
      | cons closer below =>
        dsimp only [List.cons_append] at h ⊢
        split at h
        · rename_i hcloser
          obtain rfl := Option.some.inj h
          rw [if_pos hcloser]
        · nomatch h
    · rename_i hclose
      obtain rfl := Option.some.inj h
      rw [if_neg hclose]

/-- A token that closes no bracket of the outer ones touches the inner ones only. -/
theorem awaitBehind_inside {inner outer : List String} (h : awaitBehind (inner ++ outer) s = some stack)
    (hcloses : isClose s.token → inner ≠ []) : ∃ inner', awaitBehind inner s = some inner' ∧ stack = inner' ++ outer := by
  unfold awaitBehind at h ⊢
  split at h
  · rename_i hopen
    obtain rfl := Option.some.inj h
    exact ⟨closerOf s.text :: inner, if_pos hopen, rfl⟩
  · rename_i hopen
    rw [if_neg hopen]
    split at h
    · rename_i hclose
      obtain ⟨closer, below, rfl⟩ := List.exists_cons_of_ne_nil (hcloses hclose)
      dsimp only [List.cons_append] at h ⊢
      rw [if_pos hclose]
      split at h
      · rename_i hcloser
        obtain rfl := Option.some.inj h
        exact ⟨below, if_pos hcloser, rfl⟩
      · nomatch h
    · rename_i hclose
      obtain rfl := Option.some.inj h
      exact ⟨inner, if_neg hclose, rfl⟩

/-- What is awaited from the outside does not matter for a row that closes no more than it opens. -/
theorem awaited_within (h : awaited stack row = some stack') (outer : List String) :
    awaited (stack ++ outer) row = some (stack' ++ outer) := by
  induction row generalizing stack with
  | nil =>
    obtain rfl := Option.some.inj h
    rfl
  | cons s row ih =>
    rw [awaited_cons] at h ⊢
    obtain ⟨between, hs, hrow⟩ := Option.bind_eq_some_iff.mp h
    rw [awaitBehind_within hs outer]
    exact ih hrow

/-- Behind a nested row the same closers are awaited as in front of it. -/
theorem Nested.awaited (h : Nested row) (stack : List String) : awaited stack row = some stack := awaited_within h stack

/-- A nested row may stand in front of any other. -/
theorem Nested.append_awaited (h : Nested row) (stack : List String) (more : Row) :
    Dialect.awaited stack (row ++ more) = Dialect.awaited stack more := by
  rw [awaited_append, h.awaited, Option.bind_some]

/-- The number of awaited brackets is the number of open ones. -/
theorem awaitBehind_depth {token : Token} (h : awaitBehind stack (shapeOf token) = some stack') :
    depthAfter stack.length token = stack'.length := by
  have hopens : isOpen (shapeOf token).token = isOpen token := rfl
  have hcloses : isClose (shapeOf token).token = isClose token := rfl
  unfold awaitBehind at h
  unfold depthAfter
  rw [hopens, hcloses] at h
  split at h
  · rename_i hopen
    obtain rfl := Option.some.inj h
    rw [if_pos hopen]
    rfl
  · rename_i hopen
    rw [if_neg hopen]
    split at h
    · rename_i hclose
      rw [if_pos hclose]
      cases stack with
      | nil => nomatch h
      | cons closer below =>
        dsimp only at h
        split at h
        · obtain rfl := Option.some.inj h
          rfl
        · nomatch h
    · rename_i hclose
      obtain rfl := Option.some.inj h
      rw [if_neg hclose]

/-- No bracket both opens and closes. -/
theorem isOpen_of_isClose {token : Token} (h : isClose token) : ¬ isOpen token := by
  unfold isClose at h
  unfold isOpen
  simp only [Bool.and_eq_true, Bool.or_eq_true, beq_iff_eq] at h ⊢
  rintro ⟨-, hopen⟩
  rcases h.2 with (h | h) | h <;> rcases hopen with (ho | ho) | ho <;> rw [h] at ho <;> exact absurd ho (by decide)

/-! ## Stretches of a nested row -/

/-- Without the token at its end that is no bracket a row is nested. -/
theorem Nested.front (h : Nested (row ++ [s])) (hs : s.Plain) : Nested row := by
  unfold Nested at h
  rw [awaited_append] at h
  obtain ⟨stack, hrow, hlast⟩ := Option.bind_eq_some_iff.mp h
  rw [awaited_plain hs, awaited_nil] at hlast
  rw [Nested, hrow, hlast]

/-- A row without a first token that is no bracket is still nested. -/
theorem Nested.tail (h : Nested (s :: row)) (hs : s.Plain) : Nested row := by
  unfold Nested at h ⊢
  rwa [awaited_plain hs] at h

/-- A token that is a symbol is seen as that symbol. -/
theorem isSymbol_shape {token : Token} {text : String} (h : token.isSymbol text) : shapeOf token = .symbol text := by
  simp only [Token.isSymbol, Bool.and_eq_true, beq_iff_eq] at h
  rw [shapeOf, h.1, h.2]
  rfl

/-- Without the symbol at its end a statement or a header is nested. -/
theorem Nested.dropLast {tokens : List Token} {text : String} (h : Nested (shapes tokens)) (hends : endsIn tokens text)
    (htext : (Shape.symbol text).Plain) : Nested (shapes tokens.dropLast) := by
  rcases List.eq_nil_or_concat tokens with rfl | ⟨front, last, rfl⟩
  · exact h
  · rw [List.concat_eq_append] at h hends ⊢
    have hlast : last.isSymbol text := by
      unfold endsIn at hends
      rwa [List.getLast?_concat] at hends
    rw [shapes, List.map_append, List.map_singleton, isSymbol_shape hlast] at h
    rw [List.dropLast_concat]
    exact h.front htext

/-- Without the word at its beginning and the symbol at its end a statement or a header is nested. -/
theorem Nested.inner {tokens : List Token} {word text : String} (h : Nested (shapes tokens)) (hbegins : beginsWith tokens word)
    (hends : endsIn tokens text) (htext : (Shape.symbol text).Plain) : Nested (shapes (tokens.drop 1).dropLast) := by
  cases tokens with
  | nil => exact h
  | cons first rest =>
    have hfirst : (shapeOf first).Plain := by
      refine Shape.plain_of_kind ?_
      rw [shapeOf, (isIdent_eq hbegins).1]
      exact nofun
    have hrest : Nested (shapes rest) := Nested.tail h hfirst
    cases rest with
    | nil => exact hrest
    | cons second rest => exact hrest.dropLast hends htext

/-- What stands between a bracket and the bracket that closes it is nested. -/
theorem matchingFrom_nested {inner : List Token} {closing : Token} {index : Nat} {closer : String}
    (hmatching : matchingFrom (stack.length + 1) index (inner ++ [closing]) = some (index + inner.length))
    (h : awaited (stack ++ [closer]) (shapes (inner ++ [closing])) = some []) : awaited stack (shapes inner) = some [] := by
  induction inner generalizing stack index with
  | nil =>
    -- the closing bracket leaves nothing awaited, so nothing was awaited inside
    obtain ⟨left, hclosing, hleft⟩ := Option.bind_eq_some_iff.mp ((awaited_cons _ _ _).symm.trans h)
    obtain rfl := Option.some.inj hleft
    have hdepth := awaitBehind_depth hclosing
    rw [List.length_append, List.length_singleton, List.length_nil] at hdepth
    unfold depthAfter at hdepth
    split at hdepth
    · omega
    · split at hdepth
      · rw [List.eq_nil_of_length_eq_zero (l := stack) (by omega)]
        rfl
      · omega
  | cons token inner ih =>
    obtain ⟨between, htoken, hrest⟩ := Option.bind_eq_some_iff.mp ((awaited_cons _ _ _).symm.trans h)
    have hdepth := awaitBehind_depth htoken
    rw [List.length_append, List.length_singleton] at hdepth
    rw [List.cons_append, matchingFrom, hdepth] at hmatching
    split at hmatching
    · have := Option.some.inj hmatching
      rw [List.length_cons] at this
      omega
    · rename_i hends
      -- the token does not close the bracket around the row
      have hcloses : isClose (shapeOf token).token → stack ≠ [] := by
        rintro hclose rfl
        have hclose : isClose token := hclose
        have hempty : between.length = 0 := by
          rw [← hdepth]
          unfold depthAfter
          rw [if_neg (isOpen_of_isClose hclose), if_pos hclose]
          rfl
        exact hends (by rw [hclose, hempty]; rfl)
      obtain ⟨stack', hstack', rfl⟩ := awaitBehind_inside htoken hcloses
      rw [List.length_append, List.length_singleton, List.length_cons, Nat.add_comm inner.length, ← Nat.add_assoc] at hmatching
      have hinner := ih hmatching hrest
      rw [shapes, List.map_cons, awaited_cons, hstack']
      exact hinner

/-- What stands between the brackets around a nested row is nested. -/
theorem Nested.unbracketed {row : List Token} (h : Nested (shapes row)) (hbracketed : isBracketed row) :
    Nested (shapes (row.drop 1).dropLast) := by
  obtain ⟨opening, inner, closing, rfl, -, -⟩ := isBracketed_ends hbracketed
  obtain ⟨hhead, hmatching⟩ := (Bool.and_eq_true _ _).mp hbracketed
  have hopening : shapeOf opening = .symbol "(" := isSymbol_shape hhead
  have hdepth : depthAfter 0 opening = 1 ∧ isClose opening = false := by
    change depthAfter 0 (shapeOf opening).token = 1 ∧ isClose (shapeOf opening).token = false
    rw [hopening]
    exact ⟨rfl, rfl⟩
  have hmatching := beq_iff_eq.mp hmatching
  rw [matchingFrom, hdepth.1, hdepth.2, Bool.false_and, if_neg Bool.false_ne_true, List.length_cons, List.length_append,
    List.length_singleton, Nat.add_sub_cancel, Nat.add_comm inner.length] at hmatching
  unfold Nested at h
  rw [shapes, List.map_cons, hopening, awaited_open (.inl rfl)] at h
  rw [List.drop_succ_cons, List.drop_zero, List.dropLast_concat]
  exact matchingFrom_nested hmatching h

/-! ## Statements -/

/-- Nothing is awaited in front of a statement. -/
theorem nothing_awaited : awaited [] (shapes ([] : List Token).reverse) = some [] := rfl

/-- The tokens of a nested source are cut into nested statements, as no statement ends inside brackets. -/
theorem groupFrom_nested {begun row : List Token} {header : Bool} {g : Group} (hbegun : awaited [] (shapes begun.reverse) = some stack)
    (hrow : awaited stack (shapes row) = some []) (h : g ∈ groupFrom begun header stack.length row) : Nested (shapes g.tokens) := by
  induction row generalizing begun header stack with
  | nil =>
    obtain rfl := Option.some.inj hrow
    unfold groupFrom at h
    split at h
    · exact absurd h List.not_mem_nil
    · obtain rfl := List.mem_singleton.mp h
      exact hbegun
  | cons token row ih =>
    obtain ⟨between, htoken, hrest⟩ := Option.bind_eq_some_iff.mp ((awaited_cons _ _ _).symm.trans hrow)
    have hnext : awaited [] (shapes (token :: begun).reverse) = some between := by
      rw [List.reverse_cons, shapes, List.map_append, awaited_append]
      change (awaited [] (shapes begun.reverse)).bind _ = _
      rw [hbegun, Option.bind_some, List.map_singleton, awaited_cons, htoken]
      rfl
    rw [groupFrom, awaitBehind_depth htoken] at h
    generalize (if begun.isEmpty then token.kind == .ident && headerWords.contains token.text else header) = header' at h
    split at h
    · rename_i hends
      have hlength : between.length = 0 := beq_iff_eq.mp ((Bool.and_eq_true _ _).mp hends).1
      obtain rfl := List.eq_nil_of_length_eq_zero hlength
      rcases List.mem_cons.mp h with rfl | h
      · exact hnext
      · exact ih nothing_awaited hrest h
    · exact ih hnext hrest h

/-- The statements of a nested source are nested. -/
theorem statementsOf_nested {source : Source} {s : Statement} (h : Nested (shapes source.scan.tokens)) (hs : s ∈ statementsOf source) :
    Nested (shapes s.tokens) := by
  obtain ⟨g, hg, rfl⟩ := List.mem_map.mp hs
  exact groupFrom_nested nothing_awaited h hg

/-! ## Expressions -/

/-- The shapes of words. -/
def wordShapes (words : List Word) : Row := words.map wordShape

/-- The shapes of two rows of words. -/
theorem wordShapes_append (words more : List Word) : wordShapes (words ++ more) = wordShapes words ++ wordShapes more := List.map_append

/-- The operand of an `ask` ends in front of a bracket that is awaited behind it. -/
theorem splitOperand_nested {row : List Token} {inner outer : List String} (h : awaited (inner ++ outer) (shapes row) = some []) :
    awaited inner (shapes (splitOperand inner.length row).1) = some [] ∧
      awaited outer (shapes (splitOperand inner.length row).2) = some [] := by
  induction row generalizing inner with
  | nil =>
    obtain ⟨rfl, rfl⟩ := List.append_eq_nil_iff.mp (Option.some.inj h)
    exact ⟨rfl, rfl⟩
  | cons token row ih =>
    rw [splitOperand]
    split
    · rename_i hends
      have hlength : inner.length = 0 := beq_iff_eq.mp ((Bool.and_eq_true _ _).mp hends).1
      obtain rfl := List.eq_nil_of_length_eq_zero hlength
      exact ⟨rfl, h⟩
    · rename_i hends
      obtain ⟨between, htoken, hrest⟩ := Option.bind_eq_some_iff.mp ((awaited_cons _ _ _).symm.trans h)
      have hcloses : isClose (shapeOf token).token → inner ≠ [] := by
        rintro hclose rfl
        have hclose : isClose token := hclose
        exact hends (by rw [hclose]; rfl)
      obtain ⟨inner', hinner', rfl⟩ := awaitBehind_inside htoken hcloses
      obtain ⟨hoperand, hafter⟩ := ih hrest
      rw [awaitBehind_depth hinner']
      refine ⟨?_, hafter⟩
      rw [shapes, List.map_cons, awaited_cons, hinner']
      exact hoperand

/-- The word `exports` or `ask` is no bracket. -/
theorem isReplaced_plain {afterDot : Bool} {token : Token} {word : String} (h : isReplaced afterDot token word) :
    (shapeOf token).Plain := by
  refine Shape.plain_of_kind ?_
  rw [shapeOf, (isIdent_eq ((Bool.and_eq_true _ _).mp h).2).1]
  exact nofun

/-- A name is no bracket. -/
theorem nameWord_plain (gap text : List Char) : (wordShape (nameWord gap text)).Plain := Shape.plain_of_kind nofun

/-- A row that is written as an expression closes the brackets that the row closes, and leaves none open. -/
theorem expressionWords_awaited {first afterDot : Bool} {row : List Token} (h : awaited stack (shapes row) = some []) :
    awaited stack (wordShapes (expressionWords first afterDot row)) = some [] := by
  fun_induction expressionWords first afterDot row generalizing stack with
  | case1 => exact h
  | case2 first afterDot token rest gap hexports =>
    rename_i ih
    rw [shapes, List.map_cons, awaited_plain (isReplaced_plain hexports)] at h
    simp only [wordShapes, List.map_cons]
    rw [awaited_plain (nameWord_plain _ _), awaited_plain (by decide), awaited_plain (nameWord_plain _ _)]
    exact ih h
  | case3 first afterDot token rest gap hexports hask =>
    rename_i ihOperand ihAfter
    rw [shapes, List.map_cons, awaited_plain (isReplaced_plain hask)] at h
    obtain ⟨hoperand, hafter⟩ := splitOperand_nested (show awaited ([] ++ _) (shapes rest) = some [] from h)
    have hoperand : Nested (wordShapes (expressionWords true false (splitOperand 0 rest).1)) := ihOperand hoperand
    simp only [wordShapes, List.map_cons, List.map_append]
    rw [awaited_plain (nameWord_plain _ _), awaited_plain (by decide), awaited_plain (nameWord_plain _ _)]
    refine (awaited_open (.inl rfl) _ _).trans ((hoperand.append_awaited _ _).trans ?_)
    exact (awaited_close (.inl rfl) _ _).trans (ihAfter hafter)
  | case4 first afterDot token rest gap hexports hask =>
    rename_i ih
    have hshape : wordShape ⟨gap, token.kind, token.text.toList⟩ = shapeOf token := by
      rw [wordShape, String.ofList_toList]
      rfl
    obtain ⟨between, htoken, hrest⟩ := Option.bind_eq_some_iff.mp ((awaited_cons _ _ _).symm.trans h)
    rw [wordShapes, List.map_cons, hshape, awaited_cons, htoken]
    exact ih hrest

/-- A nested row is written as a nested expression. -/
theorem expressionWords_nested {row : List Token} (h : Nested (shapes row)) : Nested (wordShapes (expressionWords true false row)) :=
  expressionWords_awaited h

/-! ## Lines -/

/-- A statement whose tokens were read from a source and are nested. -/
structure Statement.Closed (s : Statement) : Prop where
  genuine : s.Genuine
  nested : Nested (shapes s.tokens)

namespace Statement.Closed

variable {s : Statement}

/-- A statement behind its first word and in front of its last symbol is nested. -/
theorem inner (h : s.Closed) {word text : String} (hbegins : beginsWith s.tokens word) (hends : endsIn s.tokens text)
    (htext : (Shape.symbol text).Plain) : Nested (shapes (s.tokens.drop 1).dropLast) := h.nested.inner hbegins hends htext

/-- The value of a binding is nested. -/
theorem value (h : s.Closed) (hrule : s.rule = .binding) : Nested (shapes (s.tokens.drop 2).dropLast) := by
  have hdescribes := h.genuine.describes
  rw [hrule] at hdescribes
  obtain ⟨⟨name, equals, value, htokens, hname, hequals⟩, hends⟩ := hdescribes
  have hnested := h.nested
  rw [htokens] at hnested hends ⊢
  have hequals : (shapeOf equals).Plain := by
    rw [isSymbol_shape hequals]
    decide
  have hname : (shapeOf name).Plain := by
    refine Shape.plain_of_kind ?_
    rw [shapeOf, hname]
    exact nofun
  have hvalue : Nested (shapes value) := (hnested.tail hname).tail hequals
  cases value with
  | nil => exact hvalue
  | cons first value => exact hvalue.dropLast hends (by decide)

/-- The condition of a header is nested. -/
theorem condition (h : s.Closed) {word : String} (hbegins : beginsWith s.tokens word) (hends : endsIn s.tokens ":") :
    Nested (shapes (conditionTokens s)) := by
  have hrow : Nested (shapes (s.tokens.drop 1).dropLast) := h.inner hbegins hends (by decide)
  unfold conditionTokens
  dsimp only
  split
  · rename_i hbracketed
    exact hrow.unbracketed hbracketed
  · exact hrow

/-- The parameters of a function are nested. -/
theorem params (h : s.Closed) (hrule : s.rule = .function) : Nested (shapes (functionParams s)) := by
  have hdescribes := h.genuine.describes
  rw [hrule] at hdescribes
  obtain ⟨hbegins, hheader, hends⟩ := hdescribes
  have hnested := h.nested
  unfold functionParams
  unfold isFunctionHeader at hheader
  split at hheader
  · rename_i word name rest htokens
    simp only [Bool.and_eq_true, decide_eq_true_eq, beq_iff_eq] at hheader
    obtain ⟨⟨hlength, hname⟩, hbracketed⟩ := hheader
    rw [htokens] at hnested hbegins hends ⊢
    have hword : (shapeOf word).Plain := by
      refine Shape.plain_of_kind ?_
      rw [shapeOf, (isIdent_eq hbegins).1]
      exact nofun
    have hname : (shapeOf name).Plain := by
      refine Shape.plain_of_kind ?_
      rw [shapeOf, hname]
      exact nofun
    have hrest : Nested (shapes rest) := (hnested.tail hword).tail hname
    obtain ⟨first, rest, rfl⟩ := List.exists_cons_of_length_pos (l := rest) (by omega)
    have hrow : Nested (shapes (first :: rest).dropLast) := hrest.dropLast hends (by decide)
    have hinner := hrow.unbracketed hbracketed
    rw [List.drop_one, List.tail_dropLast, ← List.drop_one] at hinner
    exact hinner
  · nomatch hheader

end Statement.Closed

/-- An assignment is nested. -/
theorem assignmentWords_nested {gap name : List Char} {row : List Token} (h : Nested (shapes row)) :
    Nested (wordShapes (assignmentWords gap name row)) := by
  have hvalue := expressionWords_nested h
  unfold Nested assignmentWords
  simp only [wordShapes, List.map_cons]
  rw [awaited_plain (nameWord_plain _ _), awaited_plain (by decide), gapped_shapes, List.map_append]
  exact hvalue.append_awaited _ _

/-- A call of a member of the host is nested. -/
theorem hostCallWords_nested {member : List Char} {row : List Token} (h : Nested (shapes row)) :
    Nested (wordShapes (hostCallWords member row)) := by
  have hargument := expressionWords_nested h
  unfold Nested hostCallWords
  simp only [wordShapes, List.map_cons, List.map_append]
  rw [awaited_plain (nameWord_plain _ _), awaited_plain (by decide), awaited_plain (nameWord_plain _ _)]
  exact (awaited_open (.inl rfl) _ _).trans (hargument.append_awaited _ _)

/-- A line that holds a simple statement is nested. -/
theorem simpleWords_nested (known : List String) {s : Statement} (h : s.Closed) : Nested (wordShapes (simpleWords known s)) := by
  unfold simpleWords
  split
  · rename_i hrule
    dsimp only
    split
    · exact assignmentWords_nested (h.value hrule)
    · refine (awaited_plain (nameWord_plain _ _) _ _).trans ?_
      exact assignmentWords_nested (h.value hrule)
  · rename_i hrule
    have hdescribes := h.genuine.describes
    rw [hrule] at hdescribes
    exact hostCallWords_nested (h.inner hdescribes.1 hdescribes.2 (by decide))
  · rename_i hrule
    have hdescribes := h.genuine.describes
    rw [hrule] at hdescribes
    exact hostCallWords_nested (h.inner hdescribes.1 hdescribes.2 (by decide))
  · split
    · rename_i hends
      rw [wordShapes_append]
      exact (expressionWords_nested (h.nested.dropLast hends (by decide))).append_awaited _ _
    · exact expressionWords_nested h.nested

/-- Behind brackets around a row and a brace, the brace is awaited. -/
theorem bracketedWords_awaited {gap : List Char} {row : List Token} (h : Nested (shapes row)) (stack : List String) :
    awaited stack (wordShapes (bracketedWords gap row)) = some ("\x7d" :: stack) := by
  unfold bracketedWords
  simp only [wordShapes, List.map_cons, List.map_append]
  exact (awaited_open (.inl rfl) _ _).trans ((expressionWords_nested h).append_awaited _ _)

/-- Behind the header of a block a brace is awaited. -/
theorem openingWords_awaited {s : Statement} (h : s.Closed) (hopens : s.rule.opensBlock) (stack : List String) :
    awaited stack (wordShapes (openingWords false s)) = some ("\x7d" :: stack) := by
  have hdescribes := h.genuine.describes
  unfold openingWords
  cases hrule : s.rule with
  | function =>
    refine (awaited_plain (nameWord_plain _ _) _ _).trans ((awaited_plain (nameWord_plain _ _) _ _).trans ?_)
    exact bracketedWords_awaited (h.params hrule) stack
  | if_ =>
    rw [hrule] at hdescribes
    exact (awaited_plain (nameWord_plain _ _) _ _).trans (bracketedWords_awaited (h.condition hdescribes.1 hdescribes.2) stack)
  | elif =>
    rw [hrule] at hdescribes
    refine (awaited_plain (nameWord_plain _ _) _ _).trans ((awaited_plain (nameWord_plain _ _) _ _).trans ?_)
    exact bracketedWords_awaited (h.condition hdescribes.1 hdescribes.2) stack
  | else_ => exact (awaited_plain (nameWord_plain _ _) _ _).trans (awaited_open (.inr rfl) _ _)
  | while_ =>
    rw [hrule] at hdescribes
    exact (awaited_plain (nameWord_plain _ _) _ _).trans (bracketedWords_awaited (h.condition hdescribes.1 hdescribes.2) stack)
  | opener =>
    rw [hrule] at hdescribes
    dsimp only
    rw [wordShapes_append]
    have hrow : Nested (shapes s.tokens.dropLast) := h.nested.dropLast hdescribes (by decide)
    exact ((expressionWords_nested hrow).append_awaited _ _).trans (awaited_open (.inr rfl) _ _)
  | binding | say | ask | verbatim =>
    rw [hrule] at hopens
    nomatch hopens

/-- The header of an alternate closes the block before it and opens its own. -/
theorem openingWords_alternate {s : Statement} (h : s.Closed) (halternate : s.rule.isAlternate) (stack : List String) :
    awaited ("\x7d" :: stack) (wordShapes (openingWords true s)) = some ("\x7d" :: stack) := by
  have hopens : s.rule.opensBlock := by
    cases hrule : s.rule <;> rw [hrule] at halternate <;> first | rfl | nomatch halternate
  have hheader := openingWords_awaited h hopens stack
  unfold openingWords at hheader ⊢
  cases hrule : s.rule with
  | elif =>
    rw [hrule] at hheader
    exact (awaited_close (.inr rfl) _ _).trans hheader
  | else_ => exact (awaited_close (.inr rfl) _ _).trans (awaited_open (.inr rfl) _ _)
  | binding | function | if_ | while_ | say | ask | opener | verbatim =>
    rw [hrule] at halternate
    nomatch halternate

/-! ## Trees -/

mutual

/-- Every alternate in a tree has the header of an alternate, and alternates stand behind an `if`. -/
def Continued : List Node → Prop
  | [] => True
  | .simple _ :: rest => Continued rest
  | .block first alternates :: rest =>
    ContinuedBranch first ∧ (alternates = [] ∨ first.header.rule = .if_) ∧ ContinuedAlternates alternates ∧ Continued rest

/-- So have those in the body of a branch. -/
def ContinuedBranch : Branch → Prop
  | .mk _ body => Continued body

/-- So have alternates, and those in their bodies. -/
def ContinuedAlternates : List Branch → Prop
  | [] => True
  | branch :: rest => branch.header.rule.isAlternate ∧ ContinuedBranch branch ∧ ContinuedAlternates rest

end

/-- Only an alternate is attached to a header. -/
theorem isAttached_isAlternate {frames : List Frame} {header previous s : Statement} (h : isAttached frames header previous s) :
    s.rule.isAlternate := by
  unfold isAttached at h
  exact ((Bool.and_eq_true _ _).mp ((Bool.and_eq_true _ _).mp h).1).1

/-- Only an alternate is arranged as one. -/
theorem arrange_continued (frames : List Frame) (row : List Statement) : Continued (arrange frames row).result := by
  refine (arrange_induction (P := fun frames row => Continued (arrange frames row).result)
    (Q := fun frames header previous row => ContinuedAlternates (arrangeAlternates frames header previous row).result)
    ?nil ?refused ?simple ?block ?alternates_nil ?alternates_refused ?alternates_else ?alternates_elif frames row).1
  case nil =>
    intro frames
    rw [(arrange_nil frames).1]
    trivial
  case refused =>
    intro frames s rest haccept
    rw [(arrange_refused haccept).1]
    trivial
  case simple =>
    intro frames s rest haccept hopens hnodes
    rw [(arrange_simple haccept hopens).1]
    exact hnodes
  case block =>
    intro frames s rest haccept hopens body hbody halternates hnodes
    have hbehind : ((alternatesBehind frames s body.rest).result = [] ∨ s.rule = .if_) ∧
        ContinuedAlternates (alternatesBehind frames s body.rest).result := by
      unfold alternatesBehind
      split
      · rename_i hrule
        exact ⟨.inr hrule, halternates hrule⟩
      · exact ⟨.inl rfl, trivial⟩
    rw [(arrange_block haccept hopens).1]
    exact ⟨hbody, hbehind.1, hbehind.2, hnodes⟩
  case alternates_nil =>
    intro frames header previous
    rw [(arrangeAlternates_nil frames header previous).1]
    trivial
  case alternates_refused =>
    intro frames header previous s rest hattached
    rw [(arrangeAlternates_refused hattached).1]
    trivial
  case alternates_else =>
    intro frames header previous s rest hattached hrule hbody
    rw [(arrangeAlternates_else hattached hrule).1]
    exact ⟨isAttached_isAlternate hattached, hbody, trivial⟩
  case alternates_elif =>
    intro frames header previous s rest hattached hrule hbody halternates
    rw [(arrangeAlternates_elif hattached hrule).1]
    exact ⟨isAttached_isAlternate hattached, hbody, halternates⟩

/-- The statements of nodes are closed, and they are marked as they should be. -/
def AllClosed (marked : List (Bool × Statement)) : Prop := ∀ m ∈ marked, m.2.Closed ∧ m = mark m.2

/-- If all blocks of a list are closed, those of its parts are. -/
theorem AllClosed.append {marked more : List (Bool × Statement)} (h : AllClosed (marked ++ more)) : AllClosed marked ∧ AllClosed more :=
  List.forall_mem_append.mp h

/-- A header of a block opens it. -/
theorem AllClosed.header {header : Statement} {marked : List (Bool × Statement)} (h : AllClosed ((true, header) :: marked)) :
    header.Closed ∧ header.rule.opensBlock ∧ AllClosed marked := by
  obtain ⟨⟨hclosed, hmark⟩, hrest⟩ := List.forall_mem_cons.mp h
  exact ⟨hclosed, (congrArg Prod.fst hmark).symm, hrest⟩

/-- The shapes of lines. -/
def lineShapes (lines : List Emission) : Row := wordShapes (lineWords lines)

/-- The shapes of lines are those of the first and of the rest. -/
theorem lineShapes_cons (e : Emission) (lines : List Emission) :
    lineShapes (e :: lines) = wordShapes e.form.words ++ lineShapes lines := by
  unfold lineShapes lineWords
  rw [List.flatMap_cons, wordShapes_append]
  exact congrArg (· ++ _) (gapped_shapes _ _)

/-- The shapes of two lists of lines. -/
theorem lineShapes_append (lines more : List Emission) : lineShapes (lines ++ more) = lineShapes lines ++ lineShapes more := by
  unfold lineShapes lineWords
  rw [List.flatMap_append, wordShapes_append]

mutual

/-- The lines of nodes close every block that they open. -/
theorem emissions_nested {nodes : List Node} (h : AllClosed (listed nodes)) (hcontinued : Continued nodes) (depth : Nat)
    (known : List String) : Nested (lineShapes (emissions depth known nodes)) := by
  cases nodes with
  | nil => rfl
  | cons node rest =>
    cases node with
    | simple s =>
      obtain ⟨⟨hclosed, -⟩, hrest⟩ := List.forall_mem_cons.mp h
      rw [emissions, lineShapes_cons]
      exact ((simpleWords_nested known hclosed).append_awaited _ _).trans (emissions_nested hrest hcontinued depth _)
    | block first alternates =>
      obtain ⟨hbranches, hrest⟩ := AllClosed.append h
      obtain ⟨hfirst, halternates⟩ := hbranches.append
      obtain ⟨hcfirst, -, hcalternates, hcrest⟩ := hcontinued
      rw [emissions]
      simp only [lineShapes_append, List.append_assoc]
      unfold Nested
      rw [awaited_append, branchEmissions_awaited hfirst hcfirst depth known [], Option.bind_some, awaited_append,
        alternateEmissions_awaited halternates hcalternates depth known [], Option.bind_some]
      exact (awaited_close (.inr rfl) _ _).trans (emissions_nested hrest hcrest depth _)

/-- Behind the lines of a branch the brace that closes it is awaited. -/
theorem branchEmissions_awaited {branch : Branch} (h : AllClosed (listedBranch branch)) (hcontinued : ContinuedBranch branch) (depth : Nat)
    (known stack : List String) : awaited stack (lineShapes (branchEmissions depth known false branch)) = some ("\x7d" :: stack) := by
  cases branch with
  | mk header body =>
    obtain ⟨hheader, hopens, hbody⟩ := h.header
    rw [branchEmissions, lineShapes_cons, awaited_append]
    change (awaited stack (wordShapes (openingWords false header))).bind _ = _
    rw [openingWords_awaited hheader hopens, Option.bind_some]
    exact (emissions_nested hbody hcontinued _ _).awaited _

/-- So it is behind the lines of alternates, if it is in front of them. -/
theorem alternateEmissions_awaited {branches : List Branch} (h : AllClosed (listedAlternates branches))
    (hcontinued : ContinuedAlternates branches) (depth : Nat) (known stack : List String) :
    awaited ("\x7d" :: stack) (lineShapes (alternateEmissions depth known branches)) = some ("\x7d" :: stack) := by
  cases branches with
  | nil => rfl
  | cons branch rest =>
    cases branch with
    | mk header body =>
      obtain ⟨hbranch, hrest⟩ := AllClosed.append h
      obtain ⟨hheader, -, hbody⟩ := hbranch.header
      obtain ⟨halternate, hcbody, hcrest⟩ := hcontinued
      have hbodyNested := emissions_nested hbody hcbody (depth + 1)
        (parameterNames header ++ ((declaredName? header).toList ++ known))
      rw [alternateEmissions, lineShapes_append, branchEmissions, lineShapes_cons, List.append_assoc, awaited_append]
      change (awaited _ (wordShapes (openingWords true header))).bind _ = _
      rw [openingWords_alternate hheader halternate, Option.bind_some]
      exact (hbodyNested.append_awaited _ _).trans (alternateEmissions_awaited hrest hcrest depth known stack)

end

/-! ## Sources -/

/-- The lines of a nested source are nested. -/
theorem emissionsOf_nested {source : Source} (h : Nested (shapes source.scan.tokens)) : Nested (lineShapes (emissionsOf source)) := by
  refine emissions_nested (fun m hm => ?_) (arrange_continued [] _) 0 []
  obtain ⟨hgenuine, hmark⟩ := nodesOf_genuine hm
  refine ⟨⟨hgenuine, statementsOf_nested h ?_⟩, hmark⟩
  have hm : m ∈ listed (nodesOf source) := hm
  have hlisted : listed (nodesOf source) = (statementsOf source).map mark := listed_blocks (statementsOf source)
  rw [hlisted] at hm
  obtain ⟨s, hs, rfl⟩ := List.mem_map.mp hm
  exact hs

/-- If a source is cut into tokens up to its end and its brackets are nested, its host script is cut into tokens up to its end and its
brackets are nested, however the source is laid out. -/
theorem render_nested {source : Source} {gap : String} {pos : Position} (hscan : source.scan.ending = .complete gap pos)
    (h : Nested (shapes source.scan.tokens)) :
    (∃ gap' pos', (render source).script.scan.ending = .complete gap' pos') ∧ Nested (shapes (render source).script.scan.tokens) := by
  obtain ⟨htokens, pos', hend⟩ := render_scan hscan
  refine ⟨⟨_, pos', hend⟩, ?_⟩
  rw [htokens, shapes_placed, scriptWords, List.map_append, gapped_shapes]
  have himport : Nested (wordShapes importWords) := by decide
  exact (himport.append_awaited _ _).trans (emissionsOf_nested h)

/-- An orphan `else`, an `ask` in a condition without brackets, and blocks in blocks that end with the text. -/
theorem render_nested_orphan :
    let source : Source := ⟨"case", "else:\n xs = [ask(1), 2];\nwhile xs[ask 3]: if(x):\n say (4);\nelif ((a) or b): f(\x7b\x7d);"⟩
    (∃ gap pos, source.scan.ending = .complete gap pos) ∧ Nested (shapes source.scan.tokens) ∧
      (∃ gap pos, (render source).script.scan.ending = .complete gap pos) ∧ Nested (shapes (render source).script.scan.tokens) := by
  intro source
  have hscan : source.scan.ending = .complete "" ⟨5, 24, 82⟩ := by decide +kernel
  have hnested : Nested (shapes source.scan.tokens) := by unfold Nested; decide +kernel
  exact ⟨⟨_, _, hscan⟩, hnested, render_nested hscan hnested⟩

end HostScript.Dialect
