import Mathlib
import HostScript.Proofs.Dialect.Arranged
import HostScript.Proofs.Dialect.Classified

/-!
# Printed statements are arranged into their tree

Statements that stand for the lines of a printed body (`Stands`) are arranged into the trees that were printed. While a body is arranged,
all frames are indentations of headers around it, and less than its column (`Deep`); what follows the body is refused by the frame of
its header, because it stands at the column of the header or further left (`Ends`). So every body ends at its dedent, and an alternate
can be attached to the `if` at its own column only.
-/

namespace HostScript.Dialect

/-- Statements that stand for printed lines: one after another, each on a line of its own. -/
def Stands (line : Nat) : List Printed → List Statement → Prop
  | [], row => row = []
  | p :: printed, row => ∃ s more, row = s :: more ∧ shapes s.tokens = p.row ∧ s.indent = p.column ∧
      s.rule = classify ⟨s.tokens, true⟩ ∧ s.endLine = s.line ∧ line ≤ s.line ∧ Stands (s.line + 1) printed more

/-- What is printed in two parts stands in two parts. -/
theorem Stands.append {line : Nat} {printed more : List Printed} {row : List Statement} (h : Stands line (printed ++ more) row) :
    ∃ row₁ row₂ line', row = row₁ ++ row₂ ∧ Stands line printed row₁ ∧ Stands line' more row₂ := by
  induction printed generalizing line row with
  | nil => exact ⟨[], row, line, rfl, rfl, h⟩
  | cons p printed ih =>
    obtain ⟨s, rest, rfl, hrow, hindent, hrule, hend, hline, hrest⟩ := h
    obtain ⟨row₁, row₂, line', rfl, h₁, h₂⟩ := ih hrest
    exact ⟨s :: row₁, row₂, line', rfl, ⟨s, row₁, rfl, hrow, hindent, hrule, hend, hline, h₁⟩, h₂⟩

/-! ## Frames -/

/-- All frames are indentations less than a column. -/
def Deep (frames : List Frame) (column : Nat) : Prop := ∀ f ∈ frames, ∃ floor, f = .indented floor ∧ floor < column

/-- What follows a row does not belong to the blocks around it. -/
def Ends (frames : List Frame) (after : List Statement) : Prop :=
  ∀ s, after.head? = some s → ∀ alternate, allAccept frames alternate s = false

variable {frames : List Frame} {column deeper : Nat} {after : List Statement} {s header previous : Statement}

/-- Outside of all frames every column is deep. -/
theorem Deep.nil (column : Nat) : Deep [] column := nofun

/-- Inside of an indented block a deeper column is deep. -/
theorem Deep.push (h : Deep frames column) (hdeeper : column < deeper) : Deep (.indented column :: frames) deeper := by
  intro f hf
  rcases List.mem_cons.mp hf with rfl | hf
  · exact ⟨column, rfl, hdeeper⟩
  · obtain ⟨floor, rfl, hfloor⟩ := h f hf
    exact ⟨floor, rfl, Nat.lt_trans hfloor hdeeper⟩

/-- A statement at a column is accepted by frames that are less. -/
theorem Deep.accepts (h : Deep frames column) {s : Statement} (hs : s.indent = column) (alternate : Bool) :
    allAccept frames alternate s = true := by
  unfold allAccept
  rw [List.all_eq_true]
  intro f hf
  obtain ⟨floor, rfl, hfloor⟩ := h f hf
  exact decide_eq_true (hs ▸ hfloor)

/-- Nothing ends where nothing follows. -/
theorem Ends.nil (frames : List Frame) : Ends frames [] := nofun

/-- One more frame refuses no less. -/
theorem Ends.push (h : Ends frames after) (f : Frame) : Ends (f :: frames) after := by
  intro s hs alternate
  have hrefused := h s hs alternate
  unfold allAccept at hrefused ⊢
  rw [List.all_cons, hrefused, Bool.and_false]

/-- A statement that is not deeper than a header does not belong to its body. -/
theorem Ends.of_column {s : Statement} (hs : s.indent ≤ column) (more : List Statement) :
    Ends (.indented column :: frames) (s :: more) := by
  intro t ht alternate
  obtain rfl := Option.some.inj ht
  unfold allAccept
  have hrefused : Frame.accepts alternate s (.indented column) = false := decide_eq_false (Nat.not_lt.mpr hs)
  rw [List.all_cons, hrefused, Bool.false_and]

/-- A row that begins at the column of a header, or is empty, ends the body of the header. -/
theorem Stands.ends {line : Nat} {printed : List Printed} {row : List Statement} (h : Stands line printed row)
    (hcolumn : ∀ p, printed.head? = some p → p.column = column) (hafter : Ends (.indented column :: frames) after) :
    Ends (.indented column :: frames) (row ++ after) := by
  cases printed with
  | nil =>
    obtain rfl : row = [] := h
    exact hafter
  | cons p printed =>
    obtain ⟨s, more, rfl, -, hindent, -⟩ := h
    exact Ends.of_column (Nat.le_of_eq (hindent.trans (hcolumn p rfl))) (more ++ after)

/-- An arm begins at the column at which it is laid out. -/
theorem laidArm_cons {arm : Arm} {printed : List Printed} (h : laidArm column arm printed) :
    ∃ row more, printed = ⟨column, row⟩ :: more := by
  cases arm with
  | mk header body =>
    obtain ⟨deeper, more, -, rfl, -⟩ := h
    exact ⟨header, more, rfl⟩

/-- A body that is not empty begins at its column. -/
theorem laidBody_cons {tree : Tree} {rest : List Tree} {printed : List Printed} (h : laidBody column (tree :: rest) printed) :
    ∃ row more, printed = ⟨column, row⟩ :: more := by
  cases tree with
  | simple row =>
    obtain ⟨more, rfl, -⟩ := h
    exact ⟨row, more, rfl⟩
  | block first alternates =>
    cases first with
    | mk header body =>
      obtain ⟨arm, arms, more, rfl, harm, -⟩ := h
      obtain ⟨row, inner, rfl⟩ := laidArm_cons harm
      exact ⟨row, inner ++ (arms ++ more), rfl⟩

/-- The body of a block begins at its column. -/
theorem laidBody_head {trees : List Tree} {printed : List Printed} (h : laidBody column trees printed) :
    ∀ p, printed.head? = some p → p.column = column := by
  intro p hp
  cases trees with
  | nil =>
    obtain rfl : printed = [] := h
    nomatch hp
  | cons tree rest =>
    obtain ⟨row, more, rfl⟩ := laidBody_cons h
    obtain rfl := Option.some.inj hp
    rfl

/-- The alternates of a block begin at its column. -/
theorem laidAlternates_head {arms : List Arm} {printed : List Printed} (h : laidAlternates column arms printed) :
    ∀ p, printed.head? = some p → p.column = column := by
  intro p hp
  cases arms with
  | nil =>
    obtain rfl : printed = [] := h
    nomatch hp
  | cons arm rest =>
    obtain ⟨first, more, rfl, harm, -⟩ := h
    obtain ⟨row, inner, rfl⟩ := laidArm_cons harm
    obtain rfl := Option.some.inj hp
    rfl

/-- The statement after a header, if it is the first of a body that is deeper, makes the block an indented one. -/
theorem ofHeader_body {header : Statement} {body : List Tree} {printed : List Printed} {row : List Statement}
    (h : Stands (header.line + 1) printed row) (hlaid : laidBody deeper body printed) (hne : body ≠ [])
    (hend : header.endLine = header.line) (hdeeper : header.indent < deeper) (after : List Statement) :
    Frame.ofHeader header (row ++ after).head? = .indented header.indent := by
  obtain ⟨tree, rest, rfl⟩ := List.exists_cons_of_ne_nil hne
  obtain ⟨first, more, rfl⟩ := laidBody_cons hlaid
  obtain ⟨s, others, rfl, -, hindent, -, -, hline, -⟩ := h
  have hline : (s.line == header.endLine) = false := by
    rw [hend]
    exact beq_false_of_ne (by omega)
  have hindent : header.indent < s.indent := by
    rw [hindent]
    exact hdeeper
  unfold Frame.ofHeader
  rw [List.cons_append, List.head?_cons]
  dsimp only
  rw [hline, if_neg Bool.false_ne_true, if_pos hindent]

/-! ## Headers -/

/-- The headers of blocks open a block, and only that of an `if` may have alternates. -/
theorem header_rule {header : Row} {alternates : List Arm} {s : Statement} {endsLine : Bool} (hrow : shapes s.tokens = header)
    (hrule : s.rule = classify ⟨s.tokens, endsLine⟩)
    (h : ((IsFunction header ∨ IsConditional "while" header) ∧ alternates = []) ∨ IsConditional "if" header) :
    s.rule.opensBlock = true ∧ s.rule.isAlternate = false ∧ (s.rule = .if_ ∨ (s.rule ≠ .if_ ∧ alternates = [])) := by
  subst hrow
  rcases h with ⟨hfunction | hwhile, hnone⟩ | hif
  · rw [hrule, classify_functionHeader hfunction]
    exact ⟨rfl, rfl, .inr ⟨nofun, hnone⟩⟩
  · rw [hrule, classify_conditional hwhile]
    exact ⟨rfl, rfl, .inr ⟨nofun, hnone⟩⟩
  · rw [hrule, classify_conditional hif]
    exact ⟨rfl, rfl, .inl rfl⟩

/-- An alternate opens a block. -/
theorem isAlternate_of_opensBlock {rule : Rule} (h : rule.opensBlock = false) : rule.isAlternate = false := by
  cases rule with
  | elif => nomatch h
  | else_ => nomatch h
  | _ => rfl

/-- The first statement of a body is no alternate. -/
theorem body_head_rule {trees : List Tree} {printed : List Printed} {line : Nat} {row : List Statement} (hformed : bodyFormed trees)
    (hlaid : laidBody column trees printed) (h : Stands line printed row) :
    ∀ s, row.head? = some s → s.rule.isAlternate = false := by
  intro s hs
  cases trees with
  | nil =>
    obtain rfl : printed = [] := hlaid
    obtain rfl : row = [] := h
    nomatch hs
  | cons tree rest =>
    cases tree with
    | simple simple =>
      rw [bodyFormed] at hformed
      obtain ⟨hsimple, -⟩ := hformed
      obtain ⟨more, rfl, -⟩ := hlaid
      obtain ⟨t, others, rfl, hrow, -, hrule, -⟩ := h
      obtain rfl := Option.some.inj hs
      rw [hrule]
      exact isAlternate_of_opensBlock (classify_simple (hrow ▸ hsimple))
    | block first alternates =>
      cases first with
      | mk header body =>
        rw [bodyFormed] at hformed
        obtain ⟨hheader, -⟩ := hformed
        obtain ⟨arm, arms, more, rfl, ⟨deeper, inner, -, rfl, -⟩, -⟩ := hlaid
        obtain ⟨t, others, rfl, hrow, -, hrule, -⟩ := h
        obtain rfl := Option.some.inj hs
        exact (header_rule hrow hrule hheader).2.1

/-! ## Trees -/

/-- A row is arranged into trees, up to what follows it. -/
def ArrangedInto (frames : List Frame) (row : List Statement) (trees : List Tree) (after : List Statement) : Prop :=
  treesOf (arrange frames row).result = trees ∧ (arrange frames row).rest = after

/-- Alternates of a header are arranged into arms, up to what follows them. -/
def AttachedAs (frames : List Frame) (header previous : Statement) (row : List Statement) (arms : List Arm)
    (after : List Statement) : Prop :=
  armsOf (arrangeAlternates frames header previous row).result = arms ∧
    (arrangeAlternates frames header previous row).rest = after

/-- A statement that opens no block is a tree of its own. -/
theorem arrangedInto_simple {rest : List Statement} {trees : List Tree} (haccept : allAccept frames false s = true)
    (hopens : s.rule.opensBlock = false) (h : ArrangedInto frames rest trees after) :
    ArrangedInto frames (s :: rest) (.simple (shapes s.tokens) :: trees) after := by
  obtain ⟨hresult, hleft⟩ := h
  obtain ⟨hnodes, hrest⟩ := arrange_simple haccept hopens
  refine ⟨?_, hrest.trans hleft⟩
  rw [hnodes, treesOf, hresult]

/-- A header is the header of the tree of its body and alternates. -/
theorem arrangedInto_block {rest mid behind : List Statement} {body trees : List Tree} {arms : List Arm}
    (haccept : allAccept frames false s = true) (hopens : s.rule.opensBlock = true)
    (hbody : ArrangedInto (.ofHeader s rest.head? :: frames) rest body mid)
    (harms : (s.rule = .if_ ∧ AttachedAs frames s s mid arms behind) ∨ (s.rule ≠ .if_ ∧ arms = [] ∧ mid = behind))
    (hrest : ArrangedInto frames behind trees after) :
    ArrangedInto frames (s :: rest) (.block (.mk (shapes s.tokens) body) arms :: trees) after := by
  have hbehind : armsOf (alternatesBehind frames s mid).result = arms ∧ (alternatesBehind frames s mid).rest = behind := by
    unfold alternatesBehind
    rcases harms with ⟨hif, hattached⟩ | ⟨hif, rfl, rfl⟩
    · rw [if_pos hif]
      exact hattached
    · rw [if_neg hif]
      exact ⟨rfl, rfl⟩
  obtain ⟨hnodes, hleft⟩ := arrange_block haccept hopens
  rw [hbody.2, hbehind.2] at hnodes hleft
  refine ⟨?_, hleft.trans hrest.2⟩
  rw [hnodes, treesOf, armOf, hbody.1, hbehind.1, hrest.1]

/-- An `elif` is the header of an arm, and more may follow. -/
theorem attachedAs_elif {rest mid : List Statement} {body : List Tree} {arms : List Arm}
    (hattached : isAttached frames header previous s = true) (hrule : s.rule = .elif)
    (hbody : ArrangedInto (.ofHeader s rest.head? :: frames) rest body mid) (hrest : AttachedAs frames header s mid arms after) :
    AttachedAs frames header previous (s :: rest) (.mk (shapes s.tokens) body :: arms) after := by
  obtain ⟨hbranches, hleft⟩ := arrangeAlternates_elif hattached (by rw [hrule]; decide)
  rw [hbody.2] at hbranches hleft
  refine ⟨?_, hleft.trans hrest.2⟩
  rw [hbranches, armsOf, armOf, hbody.1, hrest.1]

/-- An `else` is the header of the last arm. -/
theorem attachedAs_else {rest : List Statement} {body : List Tree} (hattached : isAttached frames header previous s = true)
    (hrule : s.rule = .else_) (hbody : ArrangedInto (.ofHeader s rest.head? :: frames) rest body after) :
    AttachedAs frames header previous (s :: rest) [.mk (shapes s.tokens) body] after := by
  obtain ⟨hbranches, hleft⟩ := arrangeAlternates_else hattached hrule
  refine ⟨?_, hleft.trans hbody.2⟩
  rw [hbranches, armsOf, armsOf, armOf, hbody.1]

/-- Nothing is arranged of what follows. -/
theorem arrangedInto_nil (h : ∀ s, after.head? = some s → allAccept frames false s = false) : ArrangedInto frames after [] after := by
  cases after with
  | nil =>
    obtain ⟨hresult, hrest⟩ := arrange_nil frames
    exact ⟨by rw [hresult]; rfl, hrest⟩
  | cons s more =>
    obtain ⟨hresult, hrest⟩ := arrange_refused (h s rfl)
    exact ⟨by rw [hresult]; rfl, hrest⟩

/-- What follows an `if` with its alternates: no alternate, or nothing that belongs to the blocks around it. -/
def Loose (frames : List Frame) (after : List Statement) : Prop :=
  ∀ s, after.head? = some s → s.rule.isAlternate = false ∨ allAccept frames true s = false

/-- Where there are no alternates, what follows is not attached. -/
theorem attachedAs_nil (h : Loose frames after) (header previous : Statement) :
    AttachedAs frames header previous after [] after := by
  cases after with
  | nil =>
    obtain ⟨hresult, hrest⟩ := arrangeAlternates_nil frames header previous
    exact ⟨by rw [hresult]; rfl, hrest⟩
  | cons s more =>
    have hattached : isAttached frames header previous s = false := by
      unfold isAttached
      rcases h s rfl with hrule | hrefused
      · rw [hrule, Bool.false_and, Bool.false_and]
      · rw [hrefused, Bool.and_false]
    obtain ⟨hresult, hrest⟩ := arrangeAlternates_refused hattached
    exact ⟨by rw [hresult]; rfl, hrest⟩

/-- What follows an `if`: the next statement of its body, or what follows the body. -/
theorem loose_behind {trees : List Tree} {line : Nat} {printed : List Printed} {row : List Statement} (hformed : bodyFormed trees)
    (hlaid : laidBody column trees printed) (h : Stands line printed row) (hafter : Ends frames after) :
    Loose frames (row ++ after) := by
  intro s hs
  cases row with
  | nil => exact .inr (hafter s hs true)
  | cons t more => exact .inl (body_head_rule hformed hlaid h s hs)

/-- Statements that stand for a printed body are arranged into its trees. -/
def BodyArranges (trees : List Tree) : Prop :=
  ∀ {column line : Nat} {printed : List Printed} {row after : List Statement} {frames : List Frame},
    bodyFormed trees → laidBody column trees printed → Stands line printed row → Deep frames column → Ends frames after →
      ArrangedInto frames (row ++ after) trees after

/-- Statements that stand for printed alternates are attached to a header at their column. -/
def ArmsAttach (arms : List Arm) : Prop :=
  ∀ {column line : Nat} {printed : List Printed} {row after : List Statement} {frames : List Frame} {header : Statement},
    alternatesFormed arms → laidAlternates column arms printed → Stands line printed row → Deep frames column →
      header.indent = column → ∀ previous, Ends (.indented column :: frames) after → Loose frames after →
        AttachedAs frames header previous (row ++ after) arms after

/-- No statements are arranged into no trees. -/
theorem bodyArranges_nil : BodyArranges [] := by
  intro column line printed row after frames _ hlaid h _ hafter
  obtain rfl : printed = [] := hlaid
  obtain rfl : row = [] := h
  exact arrangedInto_nil fun s hs => hafter s hs false

/-- A simple statement in front of what is arranged is arranged as itself. -/
theorem bodyArranges_simple {simple : Row} {rest : List Tree} (ih : BodyArranges rest) : BodyArranges (.simple simple :: rest) := by
  intro column line printed row after frames hformed hlaid h hdeep hafter
  rw [bodyFormed] at hformed
  obtain ⟨hsimple, hrest⟩ := hformed
  obtain ⟨more, rfl, hlaid⟩ := hlaid
  obtain ⟨s, others, rfl, hrow, hindent, hrule, -, -, hothers⟩ := h
  have hopens : s.rule.opensBlock = false := by
    rw [hrule]
    exact classify_simple (hrow ▸ hsimple)
  have haccept : allAccept frames false s = true := hdeep.accepts hindent false
  obtain rfl : shapes s.tokens = simple := hrow
  exact arrangedInto_simple haccept hopens (ih hrest hlaid hothers hdeep hafter)

/-- A block takes its body and its alternates, and the rest is arranged behind them. -/
theorem bodyArranges_block {header : Row} {body rest : List Tree} {alternates : List Arm} (ihBody : BodyArranges body)
    (ihAlternates : ArmsAttach alternates) (ihRest : BodyArranges rest) :
    BodyArranges (.block (.mk header body) alternates :: rest) := by
  intro column line printed row after frames hformed hlaid h hdeep hafter
  rw [bodyFormed] at hformed
  obtain ⟨hheader, hne, hbody, halternates, hrest⟩ := hformed
  obtain ⟨arm, arms, more, rfl, ⟨deeper, inner, hdeeper, rfl, hinner⟩, harms, hmore⟩ := hlaid
  obtain ⟨armRow, otherRow, line₁, rfl, harmRow, hotherRow⟩ := h.append
  obtain ⟨armsRow, moreRow, line₂, rfl, harmsRow, hmoreRow⟩ := hotherRow.append
  obtain ⟨s, innerRow, rfl, hrow, hindent, hrule, hend, -, hinnerRow⟩ := harmRow
  obtain ⟨hopens, -, hif⟩ := header_rule hrow hrule hheader
  obtain rfl : shapes s.tokens = header := hrow
  have hindent : s.indent = column := hindent
  -- the body ends in front of the alternates, the next statement, or what follows
  have hbehind : Ends (.indented column :: frames) (moreRow ++ after) := hmoreRow.ends (laidBody_head hmore) (hafter.push _)
  have hends : Ends (.indented column :: frames) (armsRow ++ (moreRow ++ after)) :=
    harmsRow.ends (laidAlternates_head harms) hbehind
  have hframe : Frame.ofHeader s (innerRow ++ (armsRow ++ (moreRow ++ after))).head? = .indented column := by
    rw [← hindent]
    exact ofHeader_body hinnerRow hinner hne hend (hindent ▸ hdeeper) _
  have hbodyInto := ihBody hbody hinner hinnerRow (hdeep.push hdeeper) hends
  rw [← hframe] at hbodyInto
  have hattached : (s.rule = .if_ ∧ AttachedAs frames s s (armsRow ++ (moreRow ++ after)) alternates (moreRow ++ after)) ∨
      (s.rule ≠ .if_ ∧ alternates = [] ∧ armsRow ++ (moreRow ++ after) = moreRow ++ after) := by
    have hloose : Loose frames (moreRow ++ after) := loose_behind hrest hmore hmoreRow hafter
    rcases hif with hif | ⟨hif, rfl⟩
    · exact .inl ⟨hif, ihAlternates halternates harms harmsRow hdeep hindent s hbehind hloose⟩
    · obtain rfl : arms = [] := harms
      obtain rfl : armsRow = [] := harmsRow
      exact .inr ⟨hif, rfl, rfl⟩
  have haccept : allAccept frames false s = true := hdeep.accepts hindent false
  have hassoc : s :: innerRow ++ (armsRow ++ moreRow) ++ after = s :: (innerRow ++ (armsRow ++ (moreRow ++ after))) := by simp
  rw [hassoc]
  exact arrangedInto_block haccept hopens hbodyInto hattached (ihRest hrest hmore hmoreRow hdeep hafter)

/-- No alternates are attached where none are printed. -/
theorem armsAttach_nil : ArmsAttach [] := by
  intro column line printed row after frames header _ hlaid h _ _ previous _ hloose
  obtain rfl : printed = [] := hlaid
  obtain rfl : row = [] := h
  exact attachedAs_nil hloose header previous

/-- An alternate takes its body, and the rest is attached behind it. -/
theorem armsAttach_cons {head : Row} {body : List Tree} {rest : List Arm} (ihBody : BodyArranges body) (ihRest : ArmsAttach rest) :
    ArmsAttach (.mk head body :: rest) := by
  intro column line printed row after frames header hformed hlaid h hdeep hheader previous hafter hloose
  rw [alternatesFormed] at hformed
  obtain ⟨hhead, hne, hbody, hrest⟩ := hformed
  obtain ⟨first, more, rfl, ⟨deeper, inner, hdeeper, rfl, hinner⟩, hmore⟩ := hlaid
  obtain ⟨firstRow, moreRow, line₁, rfl, hfirstRow, hmoreRow⟩ := h.append
  obtain ⟨s, innerRow, rfl, hrow, hindent, hrule, hend, -, hinnerRow⟩ := hfirstRow
  obtain rfl : shapes s.tokens = head := hrow
  have hindent : s.indent = column := hindent
  have hends : Ends (.indented column :: frames) (moreRow ++ after) := hmoreRow.ends (laidAlternates_head hmore) hafter
  have hframe : Frame.ofHeader s (innerRow ++ (moreRow ++ after)).head? = .indented column := by
    rw [← hindent]
    exact ofHeader_body hinnerRow hinner hne hend (hindent ▸ hdeeper) _
  have hbodyInto := ihBody hbody hinner hinnerRow (hdeep.push hdeeper) hends
  rw [← hframe] at hbodyInto
  have hattached : s.rule.isAlternate = true → isAttached frames header previous s = true := by
    intro halternate
    unfold isAttached
    rw [halternate, hindent, hheader, hdeep.accepts hindent true]
    simp
  have hassoc : s :: innerRow ++ moreRow ++ after = s :: (innerRow ++ (moreRow ++ after)) := by simp
  rw [hassoc]
  rcases hhead with helif | ⟨helse, rfl⟩
  · have hsrule : s.rule = .elif := by
      rw [hrule, classify_conditional helif]
      rfl
    exact attachedAs_elif (hattached (by rw [hsrule]; rfl)) hsrule hbodyInto (ihRest hrest hmore hmoreRow hdeep hheader s hafter hloose)
  · obtain rfl : more = [] := hmore
    obtain rfl : moreRow = [] := hmoreRow
    have hsrule : s.rule = .else_ := by rw [hrule, classify_else helse]
    exact attachedAs_else (hattached (by rw [hsrule]; rfl)) hsrule hbodyInto

mutual

/-- Every body is arranged into its trees. -/
theorem bodyArranges : (trees : List Tree) → BodyArranges trees
  | [] => bodyArranges_nil
  | .simple _ :: rest => bodyArranges_simple (bodyArranges rest)
  | .block (.mk _ body) alternates :: rest => bodyArranges_block (bodyArranges body) (armsAttach alternates) (bodyArranges rest)

/-- All alternates are attached. -/
theorem armsAttach : (arms : List Arm) → ArmsAttach arms
  | [] => armsAttach_nil
  | .mk _ body :: rest => armsAttach_cons (bodyArranges body) (armsAttach rest)

end

/-- Statements that stand for a printed body, and no others, are arranged into its trees. -/
theorem treesOf_blocks {trees : List Tree} {column line : Nat} {printed : List Printed} {row : List Statement}
    (hformed : bodyFormed trees) (hlaid : laidBody column trees printed) (h : Stands line printed row) :
    treesOf (blocks row) = trees := by
  have := (bodyArranges trees hformed hlaid h (Deep.nil column) (Ends.nil [])).1
  rw [List.append_nil] at this
  exact this

end HostScript.Dialect
