import Mathlib
import HostScript.Proofs.Dialect.Arranged
import HostScript.Proofs.Dialect.Rendering
import HostScript.Proofs.Dialect.Stretches

/-!
# Rendering by positions meets no lapse

Every access, subtraction and slice of `Indexed.render` succeeds and every loop of it ends, whatever the source is: it gives the text of
`Dialect.render` with every fuel above three times the number of tokens (`render_ok`), and so every text is translated (`translate_ok`).
-/

namespace HostScript.Dialect.Indexed

variable {t : Table} {tokens : List Token}

/-! ## Blocks -/

mutual

/-- Nodes by index are nodes of statements: their indices are those of the statements. -/
inductive Names (row : List Statement) : List Node → List Dialect.Node → Prop
  | nil : Names row [] []
  | simple {index : Nat} {s : Statement} {nodes : List Node} {nodes' : List Dialect.Node} (hs : row[index]? = some s)
    (h : Names row nodes nodes') : Names row (.simple index :: nodes) (.simple s :: nodes')
  | block {first : Branch} {first' : Dialect.Branch} {alternates : List Branch} {alternates' : List Dialect.Branch}
    {nodes : List Node} {nodes' : List Dialect.Node} (hfirst : NamesBranch row first first')
    (halternates : NamesAlternates row alternates alternates') (h : Names row nodes nodes') :
    Names row (.block first alternates :: nodes) (.block first' alternates' :: nodes')

/-- A header and a body by index are those of a statement. -/
inductive NamesBranch (row : List Statement) : Branch → Dialect.Branch → Prop
  | mk {header : Nat} {s : Statement} {body : List Node} {body' : List Dialect.Node} (hs : row[header]? = some s)
    (h : Names row body body') : NamesBranch row (.mk header body) (.mk s body')

/-- Alternates by index are those of statements. -/
inductive NamesAlternates (row : List Statement) : List Branch → List Dialect.Branch → Prop
  | nil : NamesAlternates row [] []
  | cons {branch : Branch} {branch' : Dialect.Branch} {rest : List Branch} {rest' : List Dialect.Branch}
    (hbranch : NamesBranch row branch branch') (h : NamesAlternates row rest rest') :
    NamesAlternates row (branch :: rest) (branch' :: rest')

end

section

variable {row : List Stretch} {stmts : List Statement} (h : List.Forall₂ (Spans tokens) row stmts)
include h

theorem stretchAt_ok {index : Nat} {s : Statement} (hs : stmts[index]? = some s) :
    ∃ x, row[index]? = some x ∧ stretchAt row index = .ok x ∧ Spans tokens x s := by
  have hat : ∃ x, row[index]? = some x ∧ Spans tokens x s := by
    induction h generalizing index with
    | nil => contradiction
    | cons hx _ ih =>
      cases index with
      | zero => exact ⟨_, rfl, Option.some.inj hs ▸ hx⟩
      | succ index => exact ih hs
  obtain ⟨x, hx, hspans⟩ := hat
  refine ⟨x, hx, ?_, hspans⟩
  rw [stretchAt, hx]

omit h in
theorem accepts_eq {x : Stretch} {s : Statement} (hspans : Spans tokens x s) (alternate : Bool) :
    accepts alternate x = fun frame => frame.accepts alternate s := by
  funext frame
  cases frame with
  | inline line => rw [accepts, Frame.accepts, hspans.line, hspans.rule]
  | indented floor => rw [accepts, Frame.accepts, hspans.indent]
  | flat indent => rw [accepts, Frame.accepts, hspans.indent, hspans.rule]

theorem allAccept_ok {index : Nat} {s : Statement} (hs : stmts[index]? = some s) (frames : List Frame) (alternate : Bool) :
    allAccept row frames alternate index = .ok (Dialect.allAccept frames alternate s) := by
  obtain ⟨x, -, hx, hspans⟩ := stretchAt_ok h hs
  unfold allAccept Dialect.allAccept
  simp only [hx, accepts_eq hspans, bind, Except.bind]
  rfl

theorem frameOf_ok {header : Nat} {s : Statement} (hs : stmts[header]? = some s) (position : Nat) :
    frameOf row header position = .ok (.ofHeader s stmts[position]?) := by
  obtain ⟨x, -, hx, hspans⟩ := stretchAt_ok h hs
  unfold frameOf Frame.ofHeader
  cases hnext : stmts[position]? with
  | none =>
    have hrow : row[position]? = none := by
      rw [List.getElem?_eq_none_iff, h.length_eq]
      exact List.getElem?_eq_none_iff.mp hnext
    simp only [hx, hrow, hspans.indent, bind, Except.bind]
    rfl
  | some next =>
    obtain ⟨y, hrow, -, hfollows⟩ := stretchAt_ok h hnext
    simp only [hx, hrow, hspans.indent, hspans.endLine, hfollows.line, hfollows.indent, bind, Except.bind, pure, Except.pure, beq_iff_eq]
    split_ifs <;> rfl

theorem isAttached_ok {header previous index : Nat} {s before first : Statement} (hs : stmts[index]? = some s)
    (hprevious : stmts[previous]? = some before) (hheader : stmts[header]? = some first) (frames : List Frame) :
    isAttached row frames header previous index = .ok (Dialect.isAttached frames first before s) := by
  obtain ⟨x, -, hx, hspans⟩ := stretchAt_ok h hs
  obtain ⟨y, -, hy, hbefore⟩ := stretchAt_ok h hprevious
  obtain ⟨z, -, hz, hfirst⟩ := stretchAt_ok h hheader
  unfold isAttached Dialect.isAttached
  simp only [hx, hy, hz, allAccept_ok h hs, hspans.line, hspans.indent, hspans.rule, hbefore.endLine, hfirst.indent, bind, Except.bind,
    pure, Except.pure]
  by_cases halternate : s.rule.isAlternate <;> by_cases hline : s.line = before.endLine <;> by_cases hindent : s.indent = first.indent <;>
    simp [halternate, hline, hindent]

omit h in
/-- The statement at a position, and the position behind it. -/
theorem drop_cons {position : Nat} {s : Statement} {rest : List Statement} (hrest : stmts.drop position = s :: rest) :
    stmts[position]? = some s ∧ stmts.drop (position + 1) = rest ∧ stmts[position + 1]? = rest.head? := by
  have hnext : stmts.drop (position + 1) = rest := by
    rw [← List.drop_drop, hrest]
    rfl
  refine ⟨?_, hnext, ?_⟩
  · rw [← List.head?_drop, hrest]
    rfl
  · rw [← List.head?_drop, hnext]

/-- The nodes from a position on are read off the tables as the statements from there on are arranged. -/
def Parses (row : List Stretch) (stmts : List Statement) (frames : List Frame) (rest : List Statement) : Prop :=
  ∀ (position fuel : Nat), stmts.drop position = rest → 3 * rest.length < fuel →
    ∃ nodes next, parseNodes row fuel frames position = .ok (nodes, next) ∧ stmts.drop next = (arrange frames rest).rest ∧
      Names stmts nodes (arrange frames rest).result

/-- The alternates from a position on are read off the tables as the statements from there on are arranged. -/
def ParsesAlternates (row : List Stretch) (stmts : List Statement) (frames : List Frame) (first before : Statement)
    (rest : List Statement) : Prop :=
  ∀ (position header previous fuel : Nat), stmts.drop position = rest → stmts[header]? = some first → stmts[previous]? = some before →
    3 * rest.length < fuel → ∃ alternates next,
      parseAlternates row fuel frames header previous position = .ok (alternates, next) ∧
        stmts.drop next = (arrangeAlternates frames first before rest).rest ∧
        NamesAlternates stmts alternates (arrangeAlternates frames first before rest).result

/-- The body of a header is read with the frame that the next statement gives it. -/
theorem parseBody_ok {frames : List Frame} {s : Statement} {rest : List Statement} {position : Nat}
    (hrest : stmts.drop position = s :: rest) (hparses : Parses row stmts (.ofHeader s rest.head? :: frames) rest) (fuel : Nat)
    (hfuel : 3 * rest.length + 1 < fuel) :
    ∃ nodes next, parseBody row fuel frames position (position + 1) = .ok (nodes, next) ∧
      stmts.drop next = (arrange (.ofHeader s rest.head? :: frames) rest).rest ∧
      Names stmts nodes (arrange (.ofHeader s rest.head? :: frames) rest).result := by
  obtain ⟨hs, hnext, hhead⟩ := drop_cons hrest
  obtain ⟨fuel, rfl⟩ : ∃ left, fuel = left + 1 := ⟨fuel - 1, by omega⟩
  obtain ⟨nodes, next, hnodes, hbehind, hnames⟩ := hparses (position + 1) fuel hnext (by omega)
  refine ⟨nodes, next, ?_, hbehind, hnames⟩
  rw [parseBody, frameOf_ok h hs, hhead]
  exact hnodes

/-- Nothing is read from a position whose statement a frame refuses. -/
theorem parseNodes_refused {frames : List Frame} {s : Statement} {position fuel : Nat} (hs : stmts[position]? = some s)
    (haccept : Dialect.allAccept frames false s = false) (hfuel : 0 < fuel) :
    parseNodes row fuel frames position = .ok ([], position) := by
  obtain ⟨fuel, rfl⟩ : ∃ left, fuel = left + 1 := ⟨fuel - 1, by omega⟩
  rw [parseNodes]
  simp only [allAccept_ok h hs, haccept, bind, Except.bind, pure, Except.pure, Bool.false_eq_true, if_false, ite_self]

/-- A node is read, and then the nodes behind it. -/
theorem parseNodes_node {frames : List Frame} {s : Statement} {position next fuel : Nat} {node : Node}
    (hs : stmts[position]? = some s) (haccept : Dialect.allAccept frames false s)
    (hnode : parseNode row fuel frames position = .ok (node, next)) :
    parseNodes row (fuel + 1) frames position = (parseNodes row fuel frames next).map fun (nodes, after) => (node :: nodes, after) := by
  have hlt : position < row.length := by
    rw [h.length_eq]
    exact (List.getElem?_eq_some_iff.mp hs).1
  rw [parseNodes, if_pos hlt]
  simp only [allAccept_ok h hs, haccept, bind, Except.bind, if_true, hnode]
  cases parseNodes row fuel frames next <;> rfl

/-- An alternate that is attached is read. -/
theorem parseAlternates_attached {frames : List Frame} {s first before : Statement} {position header previous fuel : Nat}
    (hs : stmts[position]? = some s) (hbefore : stmts[previous]? = some before) (hfirst : stmts[header]? = some first)
    (hattached : Dialect.isAttached frames first before s) :
    parseAlternates row (fuel + 1) frames header previous position = (do
      let isElse := (← stretchAt row position).rule = .else_
      let (body, next) ← parseBody row fuel frames position (position + 1)
      if isElse then return ([.mk position body], next)
      else
        let (alternates, after) ← parseAlternates row fuel frames header position next
        return (.mk position body :: alternates, after)) := by
  have hlt : position < row.length := by
    rw [h.length_eq]
    exact (List.getElem?_eq_some_iff.mp hs).1
  rw [parseAlternates, if_pos hlt]
  simp only [isAttached_ok h hs hbefore hfirst, hattached, bind, Except.bind, if_true]

/-- Arranging statements by position gives the tree of the statements. -/
theorem parses (frames : List Frame) (rest : List Statement) :
    Parses row stmts frames rest ∧ ∀ first before, ParsesAlternates row stmts frames first before rest := by
  -- Each way to arrange a row is a case, and a position stands for the row that is left behind it.
  refine arrange_induction (P := Parses row stmts) (Q := ParsesAlternates row stmts) ?nil ?refused ?simple ?block
    ?alternates_nil ?alternates_refused ?alternates_else ?alternates_elif frames rest
  case nil =>
    intro frames position fuel hrest hfuel
    obtain ⟨fuel, rfl⟩ : ∃ left, fuel = left + 1 := ⟨fuel - 1, by omega⟩
    have hend : ¬ position < row.length := by
      rw [h.length_eq]
      exact Nat.not_lt.mpr (List.drop_eq_nil_iff.mp hrest)
    rw [(arrange_nil frames).1, (arrange_nil frames).2, parseNodes, if_neg hend]
    exact ⟨[], position, rfl, hrest, .nil⟩
  case refused =>
    intro frames s rest haccept position fuel hrest hfuel
    rw [(arrange_refused haccept).1, (arrange_refused haccept).2]
    exact ⟨[], position, parseNodes_refused h (drop_cons hrest).1 haccept (by omega), hrest, .nil⟩
  case simple =>
    intro frames s rest haccept hopens ih position fuel hrest hfuel
    obtain ⟨hs, hnext, -⟩ := drop_cons hrest
    obtain ⟨x, -, hx, hspans⟩ := stretchAt_ok h hs
    rw [List.length_cons] at hfuel
    obtain ⟨fuel, rfl⟩ : ∃ left, fuel = left + 2 := ⟨fuel - 2, by omega⟩
    have hnode : parseNode row (fuel + 1) frames position = .ok (.simple position, position + 1) := by
      rw [parseNode, hx]
      simp only [hspans.rule, hopens, bind, Except.bind, Bool.not_false, if_true]
      rfl
    obtain ⟨nodes, next, hnodes, hbehind, hnames⟩ := ih (position + 1) (fuel + 1) hnext (by omega)
    rw [(arrange_simple haccept hopens).1, (arrange_simple haccept hopens).2]
    refine ⟨.simple position :: nodes, next, ?_, hbehind, .simple hs hnames⟩
    rw [parseNodes_node h hs haccept hnode, hnodes]
    rfl
  case block =>
    intro frames s rest haccept hopens body ihbody ihalternates ihnodes position fuel hrest hfuel
    obtain ⟨hs, hnext, -⟩ := drop_cons hrest
    obtain ⟨x, -, hx, hspans⟩ := stretchAt_ok h hs
    rw [List.length_cons] at hfuel
    obtain ⟨fuel, rfl⟩ : ∃ left, fuel = left + 2 := ⟨fuel - 2, by omega⟩
    obtain ⟨inside, after, hinside, hbehind, hnames⟩ := parseBody_ok h hrest ihbody fuel (by omega)
    have hbody : body.rest.length ≤ rest.length := body.rest_le
    have hnode : ∃ alternates next, parseNode row (fuel + 1) frames position = .ok (.block (.mk position inside) alternates, next) ∧
        stmts.drop next = (alternatesBehind frames s body.rest).rest ∧
        NamesAlternates stmts alternates (alternatesBehind frames s body.rest).result := by
      rw [parseNode, hx]
      simp only [hspans.rule, hopens, bind, Except.bind, Bool.not_true, Bool.false_eq_true, if_false, hinside]
      unfold alternatesBehind
      by_cases hrule : s.rule = .if_
      · obtain ⟨alternates, next, halternates, hleft, hthese⟩ := ihalternates hrule after position position fuel hbehind hs hs (by omega)
        rw [if_pos hrule, if_pos hrule, halternates]
        exact ⟨alternates, next, rfl, hleft, hthese⟩
      · rw [if_neg hrule, if_neg hrule]
        exact ⟨[], after, rfl, hbehind, .nil⟩
    obtain ⟨alternates, next, hnode, hleft, hthese⟩ := hnode
    have hfewer : (alternatesBehind frames s body.rest).rest.length ≤ body.rest.length := (alternatesBehind frames s body.rest).rest_le
    obtain ⟨nodes, last, hnodes, hend, hmore⟩ := ihnodes next (fuel + 1) hleft (by omega)
    rw [(arrange_block haccept hopens).1, (arrange_block haccept hopens).2]
    refine ⟨.block (.mk position inside) alternates :: nodes, last, ?_, hend, .block (.mk hs hnames) hthese hmore⟩
    rw [parseNodes_node h hs haccept hnode, hnodes]
    rfl
  case alternates_nil =>
    intro frames first before position header previous fuel hrest _ _ hfuel
    obtain ⟨fuel, rfl⟩ : ∃ left, fuel = left + 1 := ⟨fuel - 1, by omega⟩
    have hend : ¬ position < row.length := by
      rw [h.length_eq]
      exact Nat.not_lt.mpr (List.drop_eq_nil_iff.mp hrest)
    rw [(arrangeAlternates_nil frames first before).1, (arrangeAlternates_nil frames first before).2, parseAlternates, if_neg hend]
    exact ⟨[], position, rfl, hrest, .nil⟩
  case alternates_refused =>
    intro frames first before s rest hattached position header previous fuel hrest hfirst hbefore hfuel
    obtain ⟨fuel, rfl⟩ : ∃ left, fuel = left + 1 := ⟨fuel - 1, by omega⟩
    rw [(arrangeAlternates_refused hattached).1, (arrangeAlternates_refused hattached).2, parseAlternates]
    simp only [isAttached_ok h (drop_cons hrest).1 hbefore hfirst, hattached, bind, Except.bind, pure, Except.pure, Bool.false_eq_true,
      if_false, ite_self]
    exact ⟨[], position, rfl, hrest, .nil⟩
  case alternates_else =>
    intro frames first before s rest hattached hrule ihbody position header previous fuel hrest hfirst hbefore hfuel
    obtain ⟨hs, -, -⟩ := drop_cons hrest
    obtain ⟨x, -, hx, hspans⟩ := stretchAt_ok h hs
    rw [List.length_cons] at hfuel
    obtain ⟨fuel, rfl⟩ : ∃ left, fuel = left + 1 := ⟨fuel - 1, by omega⟩
    obtain ⟨inside, after, hinside, hbehind, hnames⟩ := parseBody_ok h hrest ihbody fuel (by omega)
    rw [(arrangeAlternates_else hattached hrule).1, (arrangeAlternates_else hattached hrule).2]
    refine ⟨[.mk position inside], after, ?_, hbehind, .cons (.mk hs hnames) .nil⟩
    rw [parseAlternates_attached h hs hbefore hfirst hattached]
    simp only [hx, hspans.rule, hrule, hinside, bind, Except.bind, if_true]
    rfl
  case alternates_elif =>
    intro frames first before s rest hattached hrule ihbody ihalternates position header previous fuel hrest hfirst hbefore hfuel
    obtain ⟨hs, -, -⟩ := drop_cons hrest
    obtain ⟨x, -, hx, hspans⟩ := stretchAt_ok h hs
    rw [List.length_cons] at hfuel
    obtain ⟨fuel, rfl⟩ : ∃ left, fuel = left + 1 := ⟨fuel - 1, by omega⟩
    obtain ⟨inside, after, hinside, hbehind, hnames⟩ := parseBody_ok h hrest ihbody fuel (by omega)
    have hbody : (arrange (.ofHeader s rest.head? :: frames) rest).rest.length ≤ rest.length :=
      (arrange (.ofHeader s rest.head? :: frames) rest).rest_le
    obtain ⟨alternates, next, halternates, hleft, hthese⟩ := ihalternates after header position fuel hbehind hfirst hs (by omega)
    rw [(arrangeAlternates_elif hattached hrule).1, (arrangeAlternates_elif hattached hrule).2]
    refine ⟨.mk position inside :: alternates, next, ?_, hleft, .cons (.mk hs hnames) hthese⟩
    rw [parseAlternates_attached h hs hbefore hfirst hattached]
    simp only [hx, hspans.rule, hrule, hinside, halternates, bind, Except.bind, if_false]
    rfl

end

/-! ## Expressions -/

section

variable (h : t.Records tokens)
include h

omit h in
/-- An opening bracket is no closing one and no comma. -/
theorem isOpen_excludes {token : Token} (hopen : Dialect.isOpen token) : Dialect.isClose token = false ∧ token.isSymbol "," = false := by
  unfold Dialect.isOpen at hopen
  unfold Dialect.isClose Token.isSymbol
  simp only [Bool.and_eq_true, Bool.or_eq_true, beq_iff_eq] at hopen
  obtain ⟨hkind, (htext | htext) | htext⟩ := hopen <;> rw [hkind, htext] <;> decide

/-- The operand of an `ask` ends by index where it does in the row. -/
theorem operandStopFrom_ok {row : List Token} {index stop : Nat} (hrow : Segment tokens index row stop) (depth : Nat) :
    operandStopFrom t stop depth index row.length = .ok (index + (splitOperand depth row).1.length) := by
  induction row generalizing index depth with
  | nil => rw [List.length_nil, operandStopFrom, hrow.stop_eq]; rfl
  | cons token row ih =>
    obtain ⟨hindex, hbehind⟩ := hrow.cons
    have hmem : token ∈ tokens := List.mem_of_getElem? hindex
    have hlater : ∀ depth', operandStopFrom t stop depth' (index + 1) row.length =
        .ok (index + (token :: (splitOperand depth' row).1).length) := by
      intro depth'
      rw [ih hbehind, List.length_cons]
      congr 1
      omega
    rw [List.length_cons, operandStopFrom, splitOperand, h.markAt_ok hindex]
    simp only [bind, Except.bind, h.isOpen_ok hmem, h.isClose_ok hmem, h.isSymbol_ok hmem, hlater, Dialect.depthAfter]
    by_cases hopen : Dialect.isOpen token
    · obtain ⟨hclose, hcomma⟩ := isOpen_excludes hopen
      simp [hopen, hclose, hcomma]
    · by_cases hclose : Dialect.isClose token
      · by_cases hdepth : depth = 0
        · simp [hopen, hclose, hdepth, pure, Except.pure]
        · rw [minus_ok (by omega)]
          simp [hopen, hclose, hdepth]
      · by_cases hdepth : depth = 0
        · by_cases hcomma : token.isSymbol ","
          · simp [hopen, hclose, hdepth, hcomma, pure, Except.pure]
          · simp [hopen, hclose, hdepth, hcomma]
        · simp [hopen, hclose, hdepth]

/-- What stands in front of a token is its gap, but nothing in front of the first of a row. -/
theorem gapBefore_ok {token : Token} {start index : Nat} (hindex : tokens[index]? = some token) :
    gapBefore t start index (.ofToken token) = .ok (if start < index then token.gap else "") := by
  unfold gapBefore
  split
  · obtain ⟨before, rfl⟩ : ∃ before, index = before + 1 := ⟨index - 1, by omega⟩
    have hbefore : before < tokens.length := Nat.lt_of_succ_lt (List.getElem?_eq_some_iff.mp hindex).1
    have hprevious : tokens[before]? = some tokens[before] := List.getElem?_eq_getElem hbefore
    rw [minus_ok (Nat.le_add_left _ _), Nat.add_sub_cancel]
    simp only [h.markAt_ok hprevious, h.extent _ (List.getElem_mem hbefore), h.extent _ (List.mem_of_getElem? hindex), bind, Except.bind]
    exact h.gap before _ token hprevious hindex
  · rfl

/-- A token stands behind a dot of its row, or it does not. -/
theorem afterDot_ok (start index : Nat) :
    afterDot t start index = .ok (decide (start < index) && (tokens[index - 1]?).any fun token => token.isSymbol ".") := by
  unfold afterDot
  split
  · rename_i hlt
    rw [minus_ok (by omega)]
    simp only [bind, Except.bind, h.isWordAt_ok, hlt, decide_true, Bool.true_and]
    rfl
  · rename_i hlt
    simp [hlt, pure, Except.pure]

/-- A token is replaced by index if it is in its row. -/
theorem replacedWord_ok {token : Token} (hmem : token ∈ tokens) {behind given : Bool} (hgiven : token.kind = .ident → behind = given) :
    ∃ word, replacedWord? t behind (.ofToken token) = .ok word ∧ ∀ text, (word = some text ↔ isReplaced given token text) := by
  have htext : textOf t (Mark.ofToken token) = .ok token.text := h.text token hmem
  unfold replacedWord?
  by_cases hkind : token.kind = .ident
  · obtain rfl := hgiven hkind
    cases behind with
    | true => exact ⟨none, by simp [Mark.ofToken, pure, Except.pure], by simp [isReplaced]⟩
    | false =>
      refine ⟨some token.text, ?_, fun text => by simp [isReplaced, Token.isIdent, hkind]⟩
      simp only [htext, bind, Except.bind]
      simp [Mark.ofToken, hkind, pure, Except.pure]
  · exact ⟨none, by simp [Mark.ofToken, hkind, pure, Except.pure], by simp [isReplaced, Token.isIdent, hkind]⟩

/-- One token is written by index as it is in its row. -/
theorem expressionFrom_token {token : Token} {start index stop : Nat} {given : Bool} (hindex : tokens[index]? = some token)
    (hstop : index < stop) (hgiven : token.kind = .ident →
      (decide (start < index) && (tokens[index - 1]?).any fun token => token.isSymbol ".") = given) (fuel : Nat) :
    expressionFrom t (fuel + 1) start stop index = (do
      let gap := if start < index then token.gap else ""
      if isReplaced given token "exports" then return gap ++ hostAlias ++ ".exports" ++ (← expressionFrom t fuel start stop (index + 1))
      else if isReplaced given token "ask" then
        let operandStop ← operandStop t (index + 1) stop
        let operand ← expressionFrom t fuel (index + 1) operandStop (index + 1)
        return gap ++ hostAlias ++ ".input(" ++ operand ++ ")" ++ (← expressionFrom t fuel start stop operandStop)
      else return gap ++ token.lexeme ++ (← expressionFrom t fuel start stop (index + 1))) := by
  have hmem := List.mem_of_getElem? hindex
  obtain ⟨word, hword, hreplaced⟩ := replacedWord_ok h hmem hgiven
  rw [expressionFrom, if_pos hstop]
  simp only [h.markAt_ok hindex, gapBefore_ok h hindex, afterDot_ok h, hword, hreplaced, h.extent _ hmem, h.lexeme _ hmem, bind,
    Except.bind]

omit h in
/-- What is behind the operand of an `ask` begins with a symbol. -/
theorem splitOperand_head (depth : Nat) (row : List Token) :
    ∀ token, (splitOperand depth row).2.head? = some token → token.kind = .symbol := by
  intro token htoken
  induction row generalizing depth with
  | nil => contradiction
  | cons first row ih =>
    rw [splitOperand] at htoken
    split at htoken
    · rename_i hends
      obtain rfl := Option.some.inj htoken
      simp only [Bool.and_eq_true, Bool.or_eq_true] at hends
      rcases hends.2 with hclose | hcomma
      · exact isClose_kind hclose
      · exact isSymbol_kind hcomma
    · exact ih _ htoken

omit h in
/-- A word that is replaced is no dot. -/
theorem isReplaced_dot {token : Token} {given : Bool} {word : String} (h : isReplaced given token word) : token.isSymbol "." = false := by
  simp only [isReplaced, Token.isIdent, Bool.and_eq_true, beq_iff_eq] at h
  simp [Token.isSymbol, h.2.1]

omit h in
/-- Only the first token is written without its gap. -/
theorem gap_of_first {first : Bool} {start index : Nat} (hfirst : first = decide (¬ start < index)) (gap : String) :
    (if start < index then gap else "") = if first then "" else gap := by
  subst hfirst
  by_cases hlt : start < index
  · rw [if_pos hlt, if_neg (by simpa using hlt)]
  · rw [if_neg hlt, if_pos (decide_eq_true hlt)]

/-- The rest of a row of tokens is written by index as it is as a row. -/
theorem expressionFrom_ok (first given : Bool) (row : List Token) (start index stop fuel : Nat) (hrow : Segment tokens index row stop)
    (hstart : start ≤ index) (hfirst : first = decide (¬ start < index)) (hfuel : row.length < fuel)
    (hgiven : ∀ token, row.head? = some token → token.kind = .ident →
      (decide (start < index) && (tokens[index - 1]?).any fun token => token.isSymbol ".") = given) :
    expressionFrom t fuel start stop index = .ok (Dialect.expressionFrom first given row) := by
  -- The index moves along with the row, and is that of its first token in every case.
  fun_induction Dialect.expressionFrom first given row generalizing start index stop fuel with
  | case1 first given =>
    obtain ⟨fuel, rfl⟩ : ∃ left, fuel = left + 1 := ⟨fuel - 1, by omega⟩
    have hstop := hrow.stop_eq
    rw [expressionFrom, if_neg (by simp [hstop])]
    rfl
  | case2 first given token rest gap hexports =>
    rename_i ih
    obtain ⟨hindex, hbehind⟩ := hrow.cons
    obtain ⟨fuel, rfl⟩ : ∃ left, fuel = left + 1 := ⟨fuel - 1, by omega⟩
    have hstop : index < stop := by rw [hrow.stop_eq, List.length_cons]; omega
    have hgap : (if start < index then token.gap else "") = gap := gap_of_first hfirst token.gap
    have hrest := ih start (index + 1) stop fuel hbehind (Nat.le_succ_of_le hstart) (by simpa using Nat.lt_succ_of_le hstart)
      (Nat.lt_of_succ_lt_succ hfuel)
      fun _ _ _ => by rw [Nat.add_sub_cancel, hindex, Option.any_some, isReplaced_dot hexports, Bool.and_false]
    rw [expressionFrom_token h hindex hstop (hgiven token rfl)]
    simp only [hgap, hexports, if_true, hrest, bind, Except.bind]
    rfl
  | case3 first given token rest gap hexports hask =>
    rename_i ihoperand ihafter
    obtain ⟨hindex, hbehind⟩ := hrow.cons
    obtain ⟨fuel, rfl⟩ : ∃ left, fuel = left + 1 := ⟨fuel - 1, by omega⟩
    have hstop : index < stop := by rw [hrow.stop_eq, List.length_cons]; omega
    have hgap : (if start < index then token.gap else "") = gap := gap_of_first hfirst token.gap
    have hsplit : Segment tokens (index + 1) ((splitOperand 0 rest).1 ++ (splitOperand 0 rest).2) stop := by
      rw [splitOperand_append]
      exact hbehind
    have hlength := splitOperand_length 0 rest
    obtain ⟨hoperand, hafter⟩ := hsplit.append
    rw [List.length_cons] at hfuel
    have hends : operandStop t (index + 1) stop = .ok (index + 1 + (splitOperand 0 rest).1.length) := by
      unfold operandStop
      rw [hbehind.stop_eq, Nat.add_sub_cancel_left, ← hbehind.stop_eq]
      exact operandStopFrom_ok h hbehind 0
    have hprompt := ihoperand (index + 1) (index + 1) _ fuel hoperand (Nat.le_refl _) (by simp) (by omega) fun _ _ _ => by simp
    have hrest := ihafter start _ stop fuel hafter (by omega) (by simp; omega) (by omega) fun next hnext hkind => by
      rw [splitOperand_head 0 rest next hnext] at hkind
      contradiction
    rw [expressionFrom_token h hindex hstop (hgiven token rfl)]
    simp only [hgap, hexports, hask, Bool.false_eq_true, if_true, if_false, hends, hprompt, hrest, bind, Except.bind]
    rfl
  | case4 first given token rest gap hexports hask =>
    rename_i ih
    obtain ⟨hindex, hbehind⟩ := hrow.cons
    obtain ⟨fuel, rfl⟩ : ∃ left, fuel = left + 1 := ⟨fuel - 1, by omega⟩
    have hstop : index < stop := by rw [hrow.stop_eq, List.length_cons]; omega
    have hgap : (if start < index then token.gap else "") = gap := gap_of_first hfirst token.gap
    have hrest := ih start (index + 1) stop fuel hbehind (Nat.le_succ_of_le hstart) (by simpa using Nat.lt_succ_of_le hstart)
      (Nat.lt_of_succ_lt_succ hfuel)
      fun _ _ _ => by rw [Nat.add_sub_cancel, hindex, Option.any_some, decide_eq_true (Nat.lt_succ_of_le hstart), Bool.true_and]
    rw [expressionFrom_token h hindex hstop (hgiven token rfl)]
    simp only [hgap, hexports, hask, Bool.false_eq_true, if_false, hrest, bind, Except.bind]
    rfl

omit h in
theorem Segment.length_le {row : List Token} {start stop : Nat} (hrow : Segment tokens start row stop) : row.length ≤ tokens.length := by
  have hlength := congrArg List.length hrow.1
  rw [List.length_drop, List.length_append] at hlength
  omega

/-! ## Statements and headers -/

variable {fuel : Nat} (hfuel : tokens.length < fuel)
include hfuel

/-- A row of tokens is written by index as it is as a row. -/
theorem expression_ok {row : List Token} {start stop : Nat} (hrow : Segment tokens start row stop) :
    expression t fuel start stop = .ok (Dialect.expression row) :=
  expressionFrom_ok h true false row start start stop fuel hrow (Nat.le_refl _) (by simp) (Nat.lt_of_le_of_lt hrow.length_le hfuel)
    fun _ _ _ => by simp

omit h hfuel in
/-- A row that begins with a word and ends in a symbol has both. -/
theorem parts_of_ends {row : List Token} {word text : String} (hbegins : beginsWith row word) (hends : endsIn row text) :
    ∃ first inner last, row = first :: (inner ++ [last]) ∧ last.isSymbol text := by
  rcases List.eq_nil_or_concat' row with rfl | ⟨front, last, rfl⟩
  · contradiction
  · rw [endsIn, List.getLast?_concat] at hends
    have hlast : last.isSymbol text := hends
    cases front with
    | cons first inner => exact ⟨first, inner, last, rfl, hlast⟩
    | nil =>
      have hfirst : last.isIdent word := hbegins
      simp only [Token.isIdent, Token.isSymbol, Bool.and_eq_true, beq_iff_eq] at hfirst hlast
      rw [hfirst.1] at hlast
      exact absurd hlast.1 (by decide)

/-- A condition is written by index as it is in its header. -/
theorem condition_ok {x : Stretch} {s : Statement} (hspans : Spans tokens x s) {word : String} (hbegins : beginsWith s.tokens word)
    (hends : endsIn s.tokens ":") : condition t fuel x = .ok (Dialect.condition s) := by
  obtain ⟨first, inner, last, htokens, hlast⟩ := parts_of_ends hbegins hends
  have hrow := hspans.row
  rw [htokens] at hrow
  have hinner : Segment tokens (x.start + 1) inner (x.stop - 1) := hrow.cons.2.front.1
  have hstop : x.stop - 1 = x.start + 1 + inner.length := hinner.stop_eq
  have hpositive : 1 ≤ x.stop := by
    rw [hrow.stop_eq, List.length_cons]
    omega
  have hrest : (s.tokens.drop 1).dropLast = inner := by rw [htokens, List.drop_one, List.tail_cons, List.dropLast_concat]
  have hopens : isWordAt t .symbol (x.start + 1) "(" = .ok (inner.head?.any fun token => token.isSymbol "(") := by
    rw [h.isWordAt_ok]
    cases inner with
    | nil =>
      rw [hrow.cons.2.cons.1]
      simp only [Token.isSymbol, Bool.and_eq_true, beq_iff_eq] at hlast
      simp [hlast.1, hlast.2]
    | cons opening inner =>
      rw [hrow.cons.2.cons.1]
      rfl
  unfold condition Dialect.condition
  rw [minus_ok hpositive, hrest]
  simp only [hopens, bind, Except.bind]
  by_cases hopening : inner.head?.any fun token => token.isSymbol "("
  · have hlength : 0 < inner.length := by
      cases inner with
      | nil => contradiction
      | cons _ _ => exact Nat.succ_pos _
    rw [if_pos hopening, minus_ok (by omega), matching_ok h hinner]
    have hclosing : x.stop - 1 - 1 = x.start + 1 + (inner.length - 1) := by omega
    by_cases hmatching : Dialect.matchingFrom 0 0 inner = some (inner.length - 1)
    · have hbracketed : isBracketed inner := by simp [isBracketed, hopening, hmatching]
      obtain ⟨opening, inside, closing, rfl, -, -⟩ := isBracketed_ends hbracketed
      have hinside : Segment tokens (x.start + 1 + 1) inside (x.stop - 1 - 1) := hinner.cons.2.front.1
      simp only [hmatching, Option.map_some, hclosing, if_true, hbracketed]
      rw [← hclosing, expression_ok h hfuel hinside, List.drop_one, List.tail_cons, List.dropLast_concat]
    · have hbracketed : isBracketed inner = false := by simp [isBracketed, hmatching]
      have hother : ¬ (Dialect.matchingFrom 0 0 inner).map (x.start + 1 + ·) = some (x.stop - 1 - 1) := by
        rw [hclosing]
        cases hplace : Dialect.matchingFrom 0 0 inner with
        | none => simp
        | some place =>
          rw [hplace] at hmatching
          simpa using hmatching
      simp only [hother, if_false, hbracketed, Bool.false_eq_true]
      exact expression_ok h hfuel hinner
  · have hbracketed : isBracketed inner = false := by simp [isBracketed, hopening]
    rw [if_neg hopening, hbracketed]
    exact expression_ok h hfuel hinner

omit h hfuel in
/-- A statement has a last token behind its first index. -/
theorem Spans.stop_pos {x : Stretch} {s : Statement} (hspans : Spans tokens x s) : 1 ≤ x.stop := by
  have hlength := List.length_pos_of_ne_nil hspans.ne_nil
  rw [hspans.row.stop_eq]
  omega

/-- All tokens of a statement but the last are written by index as they are in the statement. -/
theorem expression_front {x : Stretch} {s : Statement} (hspans : Spans tokens x s) :
    expression t fuel x.start (x.stop - 1) = .ok (Dialect.expression s.tokens.dropLast) := by
  rcases List.eq_nil_or_concat' s.tokens with hnil | ⟨front, last, htokens⟩
  · exact absurd hnil hspans.ne_nil
  · have hrow := hspans.row
    rw [htokens] at hrow ⊢
    rw [List.dropLast_concat]
    exact expression_ok h hfuel hrow.front.1

/-- The tokens between the first and the last are written by index as they are in the statement. -/
theorem expression_inner {x : Stretch} {s : Statement} (hspans : Spans tokens x s) {word text : String}
    (hbegins : beginsWith s.tokens word) (hends : endsIn s.tokens text) :
    expression t fuel (x.start + 1) (x.stop - 1) = .ok (Dialect.expression (s.tokens.drop 1).dropLast) := by
  obtain ⟨first, inner, last, htokens, -⟩ := parts_of_ends hbegins hends
  have hrow := hspans.row
  rw [htokens] at hrow ⊢
  rw [List.drop_one, List.tail_cons, List.dropLast_concat]
  exact expression_ok h hfuel hrow.cons.2.front.1

omit h hfuel in
/-- A row that is bound consists of a name, an `=`, a value and a semicolon. -/
theorem parts_of_binding {row : List Token} (hdescribes : Rule.binding.Describes row) :
    ∃ name equals value last, row = name :: equals :: (value ++ [last]) := by
  obtain ⟨⟨name, equals, rest, rfl, -, hequals⟩, hends⟩ := hdescribes
  rcases List.eq_nil_or_concat' rest with rfl | ⟨value, last, rfl⟩
  · have hlast : equals.isSymbol ";" := hends
    simp only [Token.isSymbol, Bool.and_eq_true, beq_iff_eq] at hequals hlast
    rw [hequals.2] at hlast
    exact absurd hlast.2 (by decide)
  · exact ⟨name, equals, value, last, rfl⟩

/-- A simple statement is written by index as it is as a statement. -/
theorem simpleText_ok {x : Stretch} {s : Statement} (hspans : Spans tokens x s) (known : List String) :
    simpleText t fuel known x = .ok (Dialect.simpleText known s) := by
  have hrow := hspans.row
  have hdescribes := hspans.describes
  have hother : (do
      if ← isWordAt t .symbol (← minus x.stop 1) ";" then return (← expression t fuel x.start (← minus x.stop 1)) ++ ";"
      else expression t fuel x.start x.stop) = Except.ok (
        if s.tokens.getLast?.any fun t => t.isSymbol ";" then Dialect.expression s.tokens.dropLast ++ ";"
        else Dialect.expression s.tokens) := by
    simp only [minus_ok hspans.stop_pos, ends_ok h hrow hspans.ne_nil, expression_front h hfuel hspans, expression_ok h hfuel hrow, bind,
      Except.bind, endsIn]
    split <;> rfl
  unfold simpleText Dialect.simpleText
  rw [hspans.rule]
  cases hrule : s.rule with
  | binding =>
    rw [hrule] at hdescribes
    obtain ⟨name, equals, value, last, htokens⟩ := parts_of_binding hdescribes
    rw [htokens] at hrow ⊢
    have hname : textOf t (.ofToken name) = .ok name.text := h.text name (List.mem_of_getElem? hrow.cons.1)
    have hvalue := expression_ok h hfuel hrow.cons.2.cons.2.front.1
    simp only [h.markAt_ok hrow.cons.1, hname, minus_ok hspans.stop_pos, hvalue, bind, Except.bind, List.head?_cons, Option.map_some,
      Option.getD_some, List.drop_succ_cons, List.drop_zero, List.dropLast_concat]
    rfl
  | say =>
    rw [hrule] at hdescribes
    simp only [minus_ok hspans.stop_pos, expression_inner h hfuel hspans hdescribes.1 hdescribes.2, bind, Except.bind]
    rfl
  | ask =>
    rw [hrule] at hdescribes
    simp only [minus_ok hspans.stop_pos, expression_inner h hfuel hspans hdescribes.1 hdescribes.2, bind, Except.bind]
    rfl
  | _ => exact hother

omit h hfuel in
/-- The name of a function header is found by index, with the tokens of its parameters. -/
theorem functionParts_ok {x : Stretch} {s : Statement} (hspans : Spans tokens x s) (hrule : s.rule = .function) :
    ∃ name, tokens[x.start + 1]? = some name ∧ functionName s = name.text ∧
      Segment tokens (x.start + 3) (functionParams s) (x.stop - 2) ∧ 2 ≤ x.stop := by
  have hdescribes := hspans.describes
  rw [hrule] at hdescribes
  obtain ⟨word, name, opening, params, closing, last, htokens, -⟩ := isFunctionHeader_parts hdescribes.2.1
  have hrow := hspans.row
  rw [htokens] at hrow
  have hparams : functionParams s = params := by
    rw [functionParams, htokens]
    simp only [List.cons_append, List.drop_succ_cons, List.drop_zero, List.dropLast_concat]
  have hname : functionName s = name.text := by rw [functionName, htokens]; rfl
  have hstop : 2 ≤ x.stop := by
    rw [hrow.stop_eq]
    simp only [List.cons_append, List.length_cons, List.length_append]
    omega
  refine ⟨name, hrow.cons.2.cons.1, hname, ?_, hstop⟩
  rw [hparams]
  exact hrow.cons.2.cons.2.cons.2.front.1.front.1

/-- The header of a block is written by index as it is as a statement. -/
theorem headerText_ok {x : Stretch} {s : Statement} (hspans : Spans tokens x s) (alternate : Bool) :
    headerText t fuel alternate x = .ok (Dialect.headerText alternate s) := by
  have hdescribes := hspans.describes
  unfold headerText Dialect.headerText
  rw [hspans.rule]
  cases hrule : s.rule with
  | function =>
    obtain ⟨name, hindex, hname, hparams, hstop⟩ := functionParts_ok hspans hrule
    have htext : textOf t (.ofToken name) = .ok name.text := h.text name (List.mem_of_getElem? hindex)
    simp only [h.markAt_ok hindex, htext, hname, minus_ok hstop, expression_ok h hfuel hparams, bind, Except.bind]
    rfl
  | if_ | elif | while_ =>
    rw [hrule] at hdescribes
    simp only [condition_ok h hfuel hspans hdescribes.1 hdescribes.2, bind, Except.bind]
    rfl
  | else_ => rfl
  | _ =>
    simp only [minus_ok hspans.stop_pos, expression_front h hfuel hspans, bind, Except.bind]
    rfl

/-! ## Lines -/

omit hfuel in
/-- The name that a statement declares is found by index. -/
theorem declaredName_ok {x : Stretch} {s : Statement} (hspans : Spans tokens x s) : declaredName? t x = .ok (Dialect.declaredName? s) := by
  have hdescribes := hspans.describes
  unfold declaredName? Dialect.declaredName?
  rw [hspans.rule]
  cases hrule : s.rule with
  | binding =>
    rw [hrule] at hdescribes
    obtain ⟨name, equals, value, last, htokens⟩ := parts_of_binding hdescribes
    have hrow := hspans.row
    rw [htokens] at hrow ⊢
    have hname : textOf t (.ofToken name) = .ok name.text := h.text name (List.mem_of_getElem? hrow.cons.1)
    simp only [h.markAt_ok hrow.cons.1, hname, bind, Except.bind]
    rfl
  | function =>
    obtain ⟨name, hindex, hname, -, -⟩ := functionParts_ok hspans hrule
    have htext : textOf t (.ofToken name) = .ok name.text := h.text name (List.mem_of_getElem? hindex)
    simp only [h.markAt_ok hindex, htext, hname, bind, Except.bind]
    rfl
  | _ => rfl

omit hfuel in
/-- The names in a row are found by index. -/
theorem namesFrom_ok {row : List Token} {index stop : Nat} (hrow : Segment tokens index row stop) :
    namesFrom t index row.length = .ok ((row.filter fun token => token.kind == .ident).map Token.text) := by
  induction row generalizing index with
  | nil => rfl
  | cons token row ih =>
    obtain ⟨hindex, hbehind⟩ := hrow.cons
    have htext : textOf t (.ofToken token) = .ok token.text := h.text token (List.mem_of_getElem? hindex)
    rw [List.length_cons, namesFrom]
    simp only [h.markAt_ok hindex, htext, ih hbehind, bind, Except.bind]
    by_cases hkind : token.kind = .ident
    · rw [List.filter_cons_of_pos (by simp [hkind]), List.map_cons]
      simp [Mark.ofToken, hkind, pure, Except.pure]
    · rw [List.filter_cons_of_neg (by simp [hkind])]
      simp [Mark.ofToken, hkind]

omit hfuel in
/-- The parameters of a header are found by index. -/
theorem parameterNames_ok {x : Stretch} {s : Statement} (hspans : Spans tokens x s) :
    parameterNames t x = .ok (Dialect.parameterNames s) := by
  unfold parameterNames Dialect.parameterNames
  rw [hspans.rule]
  by_cases hrule : s.rule = .function
  · obtain ⟨name, -, -, hparams, hstop⟩ := functionParts_ok hspans hrule
    have hlength : x.stop - 2 - (x.start + 3) = (functionParams s).length := by
      have := hparams.stop_eq
      omega
    simp only [hrule, if_true, minus_ok hstop, hlength, namesFrom_ok h hparams, bind, Except.bind]
  · rw [if_neg hrule, if_neg hrule]
    rfl

variable {row : List Stretch} {stmts : List Statement} (hrows : List.Forall₂ (Spans tokens) row stmts)
include hrows

omit hfuel in
/-- The name that a branch declares around its block is found by index. -/
theorem branchNames_ok {branch : Branch} {branch' : Dialect.Branch} (hnames : NamesBranch stmts branch branch') :
    branchNames t row branch = .ok (Dialect.branchNames branch') := by
  obtain ⟨hs, -⟩ := hnames
  obtain ⟨x, -, hx, hspans⟩ := stretchAt_ok hrows hs
  rw [branchNames, Dialect.branchNames]
  simp only [hx, declaredName_ok h hspans, bind, Except.bind]
  rfl

set_option linter.unusedSectionVars false in
mutual

/-- The lines of nodes are written by index as they are as statements. -/
theorem nodeLines_ok (depth : Nat) : (known : List String) → {nodes : List Node} → {nodes' : List Dialect.Node} →
    Names stmts nodes nodes' → nodeLines t fuel row depth known nodes = .ok (Dialect.nodeLines depth known nodes')
  | known, _, _, .nil => by rw [nodeLines, Dialect.nodeLines]; rfl
  | known, _, _, .simple hs hnames => by
    obtain ⟨x, -, hx, hspans⟩ := stretchAt_ok hrows hs
    rw [nodeLines, Dialect.nodeLines]
    simp only [hx, simpleText_ok h hfuel hspans, declaredName_ok h hspans, nodeLines_ok depth _ hnames, bind, Except.bind]
    rfl
  | known, _, _, .block hfirst halternates hnames => by
    rw [nodeLines, Dialect.nodeLines]
    simp only [branchLines_ok depth known false hfirst, alternateLines_ok depth known halternates, branchNames_ok h hrows hfirst,
      nodeLines_ok depth _ hnames, bind, Except.bind]
    rfl

theorem branchLines_ok (depth : Nat) : (known : List String) → (alternate : Bool) → {branch : Branch} → {branch' : Dialect.Branch} →
    NamesBranch stmts branch branch' →
    branchLines t fuel row depth known alternate branch = .ok (Dialect.branchLines depth known alternate branch')
  | known, alternate, _, _, .mk hs hnames => by
    obtain ⟨x, -, hx, hspans⟩ := stretchAt_ok hrows hs
    rw [branchLines, Dialect.branchLines]
    simp only [hx, headerText_ok h hfuel hspans, parameterNames_ok h hspans, declaredName_ok h hspans, nodeLines_ok (depth + 1) _ hnames,
      bind, Except.bind]
    rfl

theorem alternateLines_ok (depth : Nat) : (known : List String) → {rest : List Branch} → {rest' : List Dialect.Branch} →
    NamesAlternates stmts rest rest' → alternateLines t fuel row depth known rest = .ok (Dialect.alternateLines depth known rest')
  | known, _, _, .nil => by rw [alternateLines, Dialect.alternateLines]; rfl
  | known, _, _, .cons hbranch hrest => by
    rw [alternateLines, Dialect.alternateLines]
    simp only [branchLines_ok depth known true hbranch, alternateLines_ok depth known hrest, bind, Except.bind]
    rfl

end

end

/-! ## Rendering -/

/-- The offset behind the last token is where the reading of tokens has got to. -/
theorem resumeAt_ok {source : Source} {words : List Lexer.Word} (hscan : source.scan.tokens = Lexer.placed .origin words) :
    resumeAt (Table.ofSource source) = .ok (byteLength (Lexer.written words)) := by
  have hmarks : (Table.ofSource source).marks.getLast? = (Lexer.placed .origin words).getLast?.map .ofToken := by
    rw [← hscan]
    exact List.getLast?_map
  unfold resumeAt
  rw [hmarks]
  rcases List.eq_nil_or_concat' words with rfl | ⟨front, last, rfl⟩
  · rfl
  · obtain ⟨-, hstop, hextent⟩ := last.token_extent (Lexer.passWords .origin front)
    have hlast : (Lexer.placed .origin (front ++ [last])).getLast? = some (last.token (Lexer.passWords .origin front)) := by
      rw [Lexer.placed_append]
      exact List.getLast?_concat
    have hbytes : (last.after (Lexer.passWords .origin front)).offset = byteLength (Lexer.written (front ++ [last])) := by
      have hpassed := Lexer.passWords_bytes (front ++ [last]) .origin
      rw [Lexer.passWords_append] at hpassed
      exact hpassed.trans (Nat.zero_add _)
    rw [hlast, Option.map_some]
    simp only [hextent, hstop, hbytes, bind, Except.bind]
    rfl

/-- What the reading of tokens has left is the text behind the last of them. -/
theorem tail_ok (source : Source) : tail (Table.ofSource source) source.scan.ending = .ok (tailOf source) := by
  obtain ⟨words, left, htext, -, htokens, hending⟩ := Lexer.scanFrom_ok .origin source.text.toList
  have hending : Lexer.EndsWith (Lexer.passWords .origin words) left source.scan.ending := hending
  have hslice : slice (Table.ofSource source).contents (byteLength (Lexer.written words)) (byteLength (Table.ofSource source).contents) =
      .ok (String.ofList left) := by
    refine slice_part (Lexer.written words) [] ?_ rfl ?_
    · rw [List.append_nil]
      exact htext
    · rw [← byteLength_append, ← htext]
      rfl
  unfold tailOf
  cases hscan : source.scan.ending with
  | complete gap pos => rfl
  | stopped fault rest =>
    rw [hscan] at hending
    obtain ⟨-, rfl⟩ := hending
    rw [tail, resumeAt_ok htokens]
    simp only [hslice, bind, Except.bind]
    rfl

/-- There are no more statements than tokens. -/
theorem length_statements (indentOf : Nat → Nat) (tokens : List Token) : (statements indentOf tokens).length ≤ tokens.length := by
  have hsome : ∀ row : List Statement, (∀ s ∈ row, s.tokens ≠ []) → row.length ≤ (row.flatMap Statement.tokens).length := by
    intro row hrow
    induction row with
    | nil => exact Nat.le_refl _
    | cons s row ih =>
      obtain ⟨hs, hrow⟩ := List.forall_mem_cons.mp hrow
      have hlength := List.length_pos_of_ne_nil hs
      have hrest := ih hrow
      rw [List.flatMap_cons, List.length_append, List.length_cons]
      omega
  have hall := hsome (statements indentOf tokens) fun s hs => statements_ne_nil hs
  rwa [flatMap_statements] at hall

/-- Rendering by positions meets no lapse: every token and statement that it goes to by index is there, no difference is negative, every
slice reaches from a character of the source to another behind it, and with a fuel of more than three times the number of tokens every loop
and recursion ends. The text is the one that the source is rendered as. -/
theorem render_ok (source : Source) {fuel : Nat} (hfuel : 3 * source.scan.tokens.length < fuel) :
    render fuel source = .ok (Dialect.render source).script.text := by
  have h := records_scan source
  have hlength := length_statements source.lineIndent source.scan.tokens
  obtain ⟨row, hsplit, hrows⟩ := split_ok h (lineIndent_scan source)
    (show (source.scan.tokens.drop 0).length < fuel by rw [List.drop_zero]; omega)
  rw [List.drop_zero] at hrows
  obtain ⟨nodes, next, hnodes, -, hnames⟩ :=
    (parses hrows [] (statements source.lineIndent source.scan.tokens)).1 0 fuel List.drop_zero (by omega)
  have hlines := nodeLines_ok h (show source.scan.tokens.length < fuel by omega) hrows 0 [] hnames
  have htext : (Dialect.render source).script.text = (Dialect.nodeLines 0 [] (nodesOf source) ++
      (if (tailOf source).isEmpty then [] else [tailOf source])).foldl (fun text line => text ++ "\n" ++ line)
        (hostImportLine ++ "\n") ++ "\n" := by
    unfold Dialect.render tailOf nodesOf
    simp only [render_indent]
    cases source.scan.ending <;> rfl
  unfold render
  simp only [tail_ok, hsplit, hnodes, hlines, bind, Except.bind]
  rw [htext]
  rfl

/-- A text is always translated: one that is too long for offsets is copied behind the import of the host, and on any other the rendering
by positions meets no lapse. -/
theorem translate_ok (text : String) {fuel : Nat} (hfuel : 3 * (⟨"<source>", text⟩ : Source).scan.tokens.length < fuel) :
    translate fuel text = .ok (if greatestLength < byteLength text.toList then hostImportLine ++ "\n\n" ++ text
      else (Dialect.render ⟨"<source>", text⟩).script.text) := by
  unfold translate
  split
  · rfl
  · exact render_ok _ hfuel

/-- A text with a header without a name, brackets that do not match and a fault behind which no token is read. -/
theorem translate_ok_malformed :
    3 * (⟨"<source>", "fun (\n  )] say é\nif x ask $\"é"⟩ : Source).scan.tokens.length < 40 ∧
    translate 40 "fun (\n  )] say é\nif x ask $\"é" =
      .ok "use host as kp;\n\nfun (\n  )] say\né\nif x ask $\"é\n" := by
  have hfuel : 3 * (⟨"<source>", "fun (\n  )] say é\nif x ask $\"é"⟩ : Source).scan.tokens.length < 40 := by decide +kernel
  exact ⟨hfuel, (translate_ok _ hfuel).trans (congrArg Except.ok (by decide +kernel))⟩

end HostScript.Dialect.Indexed
