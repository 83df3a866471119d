import Mathlib
import HostScript.Proofs.Dialect.Grouped

/-!
# The rules of statements

What the rule of a statement says about its tokens, and the rules of the statements that fit on a line.
-/

namespace HostScript.Dialect

/-! ## What a rule says -/

/-- A row begins with a word. -/
def beginsWith (tokens : List Token) (word : String) : Bool := tokens.head?.any fun t => t.isIdent word

/-- A row ends in a symbol. -/
def endsIn (tokens : List Token) (text : String) : Bool := tokens.getLast?.any fun t => t.isSymbol text

/-- A row is bound to a name. -/
def binds (tokens : List Token) : Bool :=
  match tokens with
  | name :: equals :: _ :: _ :: _ =>
    name.kind == .ident && !reservedWords.contains name.text && equals.isSymbol "=" && endsIn tokens ";"
  | _ => false

/-- The rule of a row, its conditions named. -/
theorem classify_eq (tokens : List Token) (endsLine : Bool) :
    classify ⟨tokens, endsLine⟩ =
      if binds tokens then .binding
      else if endsIn tokens ":" && beginsWith tokens "fun" then (if isFunctionHeader tokens then .function else .opener)
      else if endsIn tokens ":" && beginsWith tokens "if" then (if 2 < tokens.length then .if_ else .opener)
      else if endsIn tokens ":" && beginsWith tokens "elif" then (if 2 < tokens.length then .elif else .opener)
      else if endsIn tokens ":" && beginsWith tokens "while" then (if 2 < tokens.length then .while_ else .opener)
      else if endsIn tokens ":" && beginsWith tokens "else" && tokens.length == 2 then .else_
      else if endsIn tokens ";" && beginsWith tokens "say" then .say
      else if endsIn tokens ";" && beginsWith tokens "ask" then .ask
      else if endsIn tokens ":" && endsLine then .opener
      else .verbatim := rfl

/-- What a rule says about the tokens of its statements. -/
def Rule.Describes (tokens : List Token) : Rule → Prop
  | .binding => (∃ name equals value, tokens = name :: equals :: value ∧ name.kind = .ident ∧ equals.isSymbol "=") ∧ endsIn tokens ";"
  | .function => beginsWith tokens "fun" ∧ isFunctionHeader tokens ∧ endsIn tokens ":"
  | .if_ => beginsWith tokens "if" ∧ endsIn tokens ":"
  | .elif => beginsWith tokens "elif" ∧ endsIn tokens ":"
  | .else_ => beginsWith tokens "else" ∧ tokens.length = 2 ∧ endsIn tokens ":"
  | .while_ => beginsWith tokens "while" ∧ endsIn tokens ":"
  | .say => beginsWith tokens "say" ∧ endsIn tokens ";"
  | .ask => beginsWith tokens "ask" ∧ endsIn tokens ";"
  | .opener => endsIn tokens ":"
  | .verbatim => True

/-- Only a row that begins with a name and `=` and ends in a semicolon is bound. -/
theorem binds_describes {tokens : List Token} (h : binds tokens) : Rule.binding.Describes tokens := by
  unfold binds at h
  split at h
  · simp only [Bool.and_eq_true, beq_iff_eq] at h
    exact ⟨⟨_, _, _, rfl, h.1.1.1, h.1.2⟩, h.2⟩
  · contradiction

/-- What holds of the rules of both cases holds of the rule of a choice. -/
theorem Rule.Describes.ite {tokens : List Token} {c : Prop} [Decidable c] {r r' : Rule} (h : c → r.Describes tokens)
    (h' : r'.Describes tokens) : (if c then r else r').Describes tokens := by
  split
  · exact h ‹c›
  · exact h'

/-- The rule of a row says the truth about it. -/
theorem classify_describes (tokens : List Token) (endsLine : Bool) : (classify ⟨tokens, endsLine⟩).Describes tokens := by
  have hopener : ∀ word, (endsIn tokens ":" && beginsWith tokens word) = true → Rule.opener.Describes tokens :=
    fun _ h => (Bool.and_eq_true_iff.mp h).1
  have hheader : ∀ word, (endsIn tokens ":" && beginsWith tokens word) = true → beginsWith tokens word ∧ endsIn tokens ":" :=
    fun _ h => (Bool.and_eq_true_iff.mp h).symm
  have hcall : ∀ word, (endsIn tokens ";" && beginsWith tokens word) = true → beginsWith tokens word ∧ endsIn tokens ";" :=
    fun _ h => (Bool.and_eq_true_iff.mp h).symm
  rw [classify_eq]
  refine .ite binds_describes ?_
  refine .ite (fun h => .ite (fun hparts => ⟨(hheader _ h).1, hparts, (hheader _ h).2⟩) (hopener _ h)) ?_
  refine .ite (fun h => .ite (fun _ => hheader _ h) (hopener _ h)) ?_
  refine .ite (fun h => .ite (fun _ => hheader _ h) (hopener _ h)) ?_
  refine .ite (fun h => .ite (fun _ => hheader _ h) (hopener _ h)) ?_
  refine .ite (fun h => ?_) (.ite (hcall _) (.ite (hcall _) (.ite (fun h => (Bool.and_eq_true_iff.mp h).1) trivial)))
  obtain ⟨helse, hlength⟩ := Bool.and_eq_true_iff.mp h
  exact ⟨(hheader _ helse).1, beq_iff_eq.mp hlength, (hheader _ helse).2⟩

/-- A closing bracket stands where the bracket at the head of a row is closed. -/
theorem matchingFrom_closes {depth index place : Nat} {row : List Token} (h : matchingFrom depth index row = some place) :
    ∃ front closing rest, row = front ++ closing :: rest ∧ place = index + front.length ∧ isClose closing := by
  induction row generalizing depth index with
  | nil => simp [matchingFrom] at h
  | cons token row ih =>
    rw [matchingFrom] at h
    split at h
    · rename_i hclose
      obtain rfl := Option.some.inj h
      exact ⟨[], token, row, rfl, rfl, ((Bool.and_eq_true _ _).mp hclose).1⟩
    · obtain ⟨front, closing, rest, rfl, hplace, hclose⟩ := ih h
      refine ⟨token :: front, closing, rest, rfl, ?_, hclose⟩
      rw [hplace, List.length_cons]
      omega

theorem isSymbol_kind {token : Token} {text : String} (h : token.isSymbol text) : token.kind = .symbol :=
  beq_iff_eq.mp ((Bool.and_eq_true _ _).mp h).1

theorem isClose_kind {token : Token} (h : isClose token) : token.kind = .symbol :=
  beq_iff_eq.mp ((Bool.and_eq_true _ _).mp h).1

/-- A bracketed row consists of two brackets and what stands between them. -/
theorem isBracketed_ends {row : List Token} (h : isBracketed row) :
    ∃ (opening : Token) (inner : List Token) (closing : Token),
      row = opening :: (inner ++ [closing]) ∧ opening.kind = .symbol ∧ closing.kind = .symbol := by
  unfold isBracketed at h
  obtain ⟨hhead, hmatching⟩ := (Bool.and_eq_true _ _).mp h
  obtain ⟨front, closing, rest, hrow, hplace, hclose⟩ := matchingFrom_closes (beq_iff_eq.mp hmatching)
  have hrest : rest = [] := by
    rw [hrow, List.length_append, List.length_cons] at hplace
    exact List.eq_nil_of_length_eq_zero (by omega)
  subst hrest
  cases front with
  | nil =>
    rw [hrow] at hhead
    have hopens : closing.isSymbol "(" := hhead
    simp only [Token.isSymbol, isClose, Bool.and_eq_true, Bool.or_eq_true, beq_iff_eq] at hopens hclose
    rw [hopens.2] at hclose
    simp at hclose
  | cons opening inner =>
    rw [hrow] at hhead
    exact ⟨opening, inner, closing, hrow, isSymbol_kind hhead, isClose_kind hclose⟩

/-- The parts of the header of a function. -/
theorem isFunctionHeader_parts {tokens : List Token} (h : isFunctionHeader tokens) :
    ∃ (word name opening : Token) (params : List Token) (closing last : Token),
      tokens = word :: name :: opening :: (params ++ [closing]) ++ [last] ∧
        name.kind = .ident ∧ opening.kind = .symbol ∧ closing.kind = .symbol := by
  unfold isFunctionHeader at h
  split at h
  · rename_i word name rest
    simp only [Bool.and_eq_true, decide_eq_true_eq, beq_iff_eq] at h
    obtain ⟨⟨hlength, hname⟩, hbracketed⟩ := h
    obtain ⟨opening, params, closing, hrest, hopening, hclosing⟩ := isBracketed_ends hbracketed
    rcases List.eq_nil_or_concat rest with rfl | ⟨before, last, rfl⟩
    · simp at hlength
    · rw [List.concat_eq_append, List.dropLast_concat] at hrest
      refine ⟨word, name, opening, params, closing, last, ?_, hname, hopening, hclosing⟩
      rw [List.concat_eq_append, hrest]
      rfl
  · contradiction

/-! ## Simple statements and headers -/

/-- What `classify` asks about the ends of a row of tokens, by its shapes. -/
theorem getLast_isSymbol {tokens : List Token} {front : Row} {last : Shape} (h : shapes tokens = front ++ [last]) (text : String) :
    (tokens.getLast?.any fun t => t.isSymbol text) = last.token.isSymbol text := by
  have hlast : (shapes tokens).getLast? = some last := by rw [h, List.getLast?_append]; rfl
  unfold shapes at hlast
  rw [List.getLast?_map] at hlast
  obtain ⟨t, ht, rfl⟩ := Option.map_eq_some_iff.mp hlast
  rw [ht]
  rfl

theorem head_isIdent {tokens : List Token} {first : Shape} {rest : Row} (h : shapes tokens = first :: rest) (word : String) :
    (tokens.head?.any fun t => t.isIdent word) = first.token.isIdent word := by
  obtain ⟨t, more, rfl, rfl, -⟩ := List.map_eq_cons_iff.mp h
  rfl

theorem isIdent_word (text word : String) : (Shape.word text).token.isIdent word = (text == word) := rfl

theorem isSymbol_symbol (text text' : String) : (Shape.symbol text).token.isSymbol text' = (text == text') := rfl

/-- A simple statement opens no block. -/
theorem classify_simple {tokens : List Token} {endsLine : Bool} (h : IsSimple (shapes tokens)) :
    (classify ⟨tokens, endsLine⟩).opensBlock = false := by
  obtain ⟨body, hrow, -, -⟩ := h.terminated
  have hopens := getLast_isSymbol hrow ":"
  rw [isSymbol_symbol, show (";" == ":") = false from rfl] at hopens
  unfold classify
  simp only [hopens, Bool.false_and, Bool.false_eq_true, if_false]
  split
  · split
    · rfl
    · split
      · rfl
      · split <;> rfl
  · simp only [Bool.false_eq_true, if_false]
    split
    · rfl
    · split <;> rfl

/-- The rule of a header with a colon at its end: it is no binding, and the first word decides. -/
theorem classify_header {tokens : List Token} {endsLine : Bool} {word : String} {rest : Row}
    (h : shapes tokens = Shape.word word :: (rest ++ [Shape.symbol ":"])) :
    classify ⟨tokens, endsLine⟩ =
      if word = "fun" then (if isFunctionHeader tokens then .function else .opener)
      else if word = "if" then (if 2 < tokens.length then .if_ else .opener)
      else if word = "elif" then (if 2 < tokens.length then .elif else .opener)
      else if word = "while" then (if 2 < tokens.length then .while_ else .opener)
      else if word = "else" ∧ tokens.length = 2 then .else_
      else if endsLine then .opener else .verbatim := by
  have hrow : shapes tokens = (Shape.word word :: rest) ++ [Shape.symbol ":"] := h
  have hopens := getLast_isSymbol hrow ":"
  have hterminated := getLast_isSymbol hrow ";"
  rw [isSymbol_symbol, show (":" == ":") = true from rfl] at hopens
  rw [isSymbol_symbol, show (":" == ";") = false from rfl] at hterminated
  have hbegins : ∀ text, (tokens.head?.any fun t => t.isIdent text) = (word == text) := head_isIdent h
  unfold classify
  simp only [hopens, hterminated, hbegins, Bool.true_and, Bool.false_and, Bool.and_false, Bool.and_eq_true, beq_iff_eq,
    Bool.false_eq_true, if_false]
  split <;>
  · simp only [Bool.false_eq_true, if_false]

theorem shapes_length (tokens : List Token) : (shapes tokens).length = tokens.length := List.length_map _

theorem classify_conditional {tokens : List Token} {endsLine : Bool} {word : String} (h : IsConditional word (shapes tokens)) :
    classify ⟨tokens, endsLine⟩ =
      if word = "fun" then (if isFunctionHeader tokens then .function else .opener)
      else if word = "if" then .if_ else if word = "elif" then .elif else if word = "while" then .while_
      else if endsLine then .opener else .verbatim := by
  obtain ⟨cond, hrow, -⟩ := h
  have hlength : 2 < tokens.length := by
    rw [← shapes_length, hrow]
    simp
  have hrow' : shapes tokens = Shape.word word :: ((Shape.symbol "(" :: (cond ++ [Shape.symbol ")"])) ++ [Shape.symbol ":"]) := by
    rw [hrow]
    simp
  rw [classify_header hrow']
  simp only [hlength, if_true]
  rw [if_neg (show ¬(word = "else" ∧ tokens.length = 2) from fun h => by omega)]

theorem classify_else {tokens : List Token} {endsLine : Bool} (h : IsElse (shapes tokens)) :
    classify ⟨tokens, endsLine⟩ = .else_ := by
  have hlength : tokens.length = 2 := by
    rw [← shapes_length, h]
    rfl
  have hrow : shapes tokens = Shape.word "else" :: ([] ++ [Shape.symbol ":"]) := h
  rw [classify_header hrow, hlength]
  rfl

/-- The bracket that closes the one at the head of a row is the last of the row, if the brackets between them are closed. -/
theorem matchingFrom_inside {inner : List Token} {depth depth' : Nat} (h : nesting depth (shapes inner) = some depth')
    (index : Nat) (more : List Token) :
    matchingFrom (depth + 1) index (inner ++ more) = matchingFrom (depth' + 1) (index + inner.length) more := by
  induction inner generalizing depth index with
  | nil =>
    obtain rfl := Option.some.inj h
    rfl
  | cons t inner ih =>
    obtain ⟨after, hafter, hrest⟩ := nesting_cons h
    have hafter : depthAfter (depth + 1) t = after + 1 := hafter 1
    rw [List.cons_append, matchingFrom, hafter, if_neg (by simp), ih hrest, List.length_cons]
    congr 1
    omega

theorem classify_functionHeader {tokens : List Token} {endsLine : Bool} (h : IsFunction (shapes tokens)) :
    classify ⟨tokens, endsLine⟩ = .function := by
  obtain ⟨name, params, hrow, hbalanced⟩ := h
  have hrow' : shapes tokens = Shape.word "fun" ::
      ((Shape.word name :: Shape.symbol "(" :: (params ++ [Shape.symbol ")"])) ++ [Shape.symbol ":"]) := by
    rw [hrow]
    simp
  rw [classify_header hrow', if_pos rfl, if_pos]
  obtain ⟨word, rest, rfl, -, hrest⟩ := List.map_eq_cons_iff.mp hrow
  obtain ⟨nameToken, rest, rfl, hname, hrest⟩ := List.map_eq_cons_iff.mp hrest
  obtain ⟨opening, rest, rfl, hopening, hrest⟩ := List.map_eq_cons_iff.mp hrest
  obtain ⟨inner, rest, rfl, hinner, hrest⟩ := List.map_eq_append_iff.mp hrest
  obtain ⟨closing, rest, rfl, hclosing, hrest⟩ := List.map_eq_cons_iff.mp hrest
  obtain ⟨colon, rest, rfl, -, hrest⟩ := List.map_eq_cons_iff.mp hrest
  obtain rfl := List.map_eq_nil_iff.mp hrest
  have hident : nameToken.kind = .ident := congrArg Shape.kind hname
  have hopen : opening.isSymbol "(" = true := by
    change (shapeOf opening).token.isSymbol "(" = true
    rw [hopening]
    rfl
  have hdepth : depthAfter 0 opening = 1 ∧ isClose opening = false := by
    change depthAfter 0 (shapeOf opening).token = 1 ∧ isClose (shapeOf opening).token = false
    rw [hopening]
    exact ⟨rfl, rfl⟩
  have hclose : depthAfter 1 closing = 0 ∧ isClose closing = true := by
    change depthAfter 1 (shapeOf closing).token = 0 ∧ isClose (shapeOf closing).token = true
    rw [hclosing]
    exact ⟨rfl, rfl⟩
  have hdrop : (opening :: (inner ++ [closing, colon])).dropLast = opening :: (inner ++ [closing]) := by
    have : opening :: (inner ++ [closing, colon]) = (opening :: (inner ++ [closing])) ++ [colon] := by simp
    rw [this, List.dropLast_concat]
  have hmatching : matchingFrom 0 0 (opening :: (inner ++ [closing])) = some (inner.length + 1) := by
    have hbalanced : nesting 0 (shapes inner) = some 0 := by
      unfold shapes
      rw [hinner]
      exact hbalanced
    rw [matchingFrom, hdepth.1, hdepth.2, Bool.false_and, if_neg Bool.false_ne_true, matchingFrom_inside hbalanced, matchingFrom,
      hclose.1, hclose.2, if_pos (by rfl)]
    congr 1
    omega
  unfold isFunctionHeader
  dsimp only
  unfold isBracketed
  rw [hdrop, hmatching, hident, List.head?_cons, Option.any_some, hopen]
  simp

end HostScript.Dialect
