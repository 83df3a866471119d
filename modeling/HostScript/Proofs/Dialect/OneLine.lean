import Mathlib
import HostScript.Proofs.Dialect.Layout

/-!
# Blocks on one line

The grammar of the statements that stand on one line (`LineBody`): a block is the last statement of its body, so it reaches to the end of
the line or to an alternate of an `if` around it, and an alternate belongs to the nearest `if` in front of it that has no `else` yet. The
tree of a source on one line is its derivation (`blocks_oneLine`).

While the statements of a line are arranged, all frames are that of the line. They accept everything on it but an alternate in a body,
so a body ends only where an alternate stands that no `if` inside of it takes (`Follows`). The index of the grammar says whether there is
such an `if`; so the induction is on the derivation, and what may follow is carried through it.
-/

namespace HostScript.Dialect

variable {line : Nat} {frames : List Frame} {before waits : Bool} {trees : List Tree} {arms : List Arm}
  {row after : List Statement} {s header previous : Statement}

/-! ## The grammar -/

mutual

/-- The statements of a body on one line. A body waits for an alternate if it ends with an `if` that has no `else`, or with a block whose
last body waits. -/
inductive LineBody : Bool → List Tree → Prop
  | nil : LineBody false []
  | simple {waits : Bool} {row : Row} {rest : List Tree} (h : IsSimple row) (hrest : LineBody waits rest) :
      LineBody waits (.simple row :: rest)
  | block {waits : Bool} {header : Row} {body : List Tree} (h : IsFunction header ∨ IsConditional "while" header)
      (hbody : LineBody waits body) : LineBody waits [.block (.mk header body) []]
  | if_ {inner waits : Bool} {header : Row} {body : List Tree} {alternates : List Arm} (h : IsConditional "if" header)
      (hbody : LineBody inner body) (halternates : LineAlternates inner waits alternates) :
      LineBody waits [.block (.mk header body) alternates]

/-- The alternates of an `if` on its line, behind a body. There are none behind a body that waits: they would belong to an `if` inside
of it. The `if` waits for another one until it has an `else`; then it waits if the body of the `else` does. -/
inductive LineAlternates : Bool → Bool → List Arm → Prop
  | nil {before : Bool} : LineAlternates before true []
  | elif {inner waits : Bool} {header : Row} {body : List Tree} {rest : List Arm} (h : IsConditional "elif" header)
      (hbody : LineBody inner body) (hrest : LineAlternates inner waits rest) : LineAlternates false waits (.mk header body :: rest)
  | else_ {waits : Bool} {header : Row} {body : List Tree} (h : IsElse header) (hbody : LineBody waits body) :
      LineAlternates false waits [.mk header body]

end

mutual

/-- The statements and headers of trees in their order. -/
def rowsOf : List Tree → List Row
  | [] => []
  | .simple row :: rest => row :: rowsOf rest
  | .block (.mk header body) alternates :: rest => header :: (rowsOf body ++ (alternateRows alternates ++ rowsOf rest))

/-- The headers of alternates and the statements of their bodies in their order. -/
def alternateRows : List Arm → List Row
  | [] => []
  | .mk header body :: rest => header :: (rowsOf body ++ alternateRows rest)

end

/-! ## Statements that end where they stand -/

/-- A row that is one statement wherever it stands on a line: it ends in a semicolon, or is a header and ends in a colon. -/
structure IsClosed (row : Row) : Prop where
  wholeLine : IsWholeLine row
  stops : ∀ last, row.getLast? = some last → last = .symbol ";" ∨ (last = .symbol ":" ∧ startsHeader row)

/-- A simple statement ends with its semicolon. -/
theorem IsSimple.closed {row : Row} (h : IsSimple row) : IsClosed row where
  wholeLine := h.wholeLine
  stops := by
    obtain ⟨body, rfl, -⟩ := h.terminated
    intro last hlast
    rw [List.getLast?_concat] at hlast
    exact .inl (Option.some.inj hlast).symm

/-- A row between a header word and a colon. -/
theorem closed_header {word : String} {inner : Row} (h : IsWholeLine (Shape.word word :: (inner ++ [Shape.symbol ":"])))
    (hword : headerWords.contains word) : IsClosed (Shape.word word :: (inner ++ [Shape.symbol ":"])) where
  wholeLine := h
  stops := by
    intro last hlast
    rw [← List.cons_append, List.getLast?_concat] at hlast
    exact .inr ⟨(Option.some.inj hlast).symm, hword⟩

/-- The header of a function ends with its colon. -/
theorem IsFunction.closed {row : Row} (h : IsFunction row) : IsClosed row := by
  have hwhole := h.wholeLine
  obtain ⟨name, params, rfl, -⟩ := h
  rw [List.append_cons, ← List.cons_append, ← List.cons_append] at hwhole ⊢
  exact closed_header hwhole (by decide)

/-- The header of a conditional or a loop ends with its colon. -/
theorem IsConditional.closed {word : String} {row : Row} (h : IsConditional word row) (hword : headerWords.contains word) :
    IsClosed row := by
  have hwhole := h.wholeLine
  obtain ⟨cond, rfl, -⟩ := h
  rw [List.append_cons, ← List.cons_append] at hwhole ⊢
  exact closed_header hwhole hword

/-- The header of an `else` ends with its colon. -/
theorem IsElse.closed {row : Row} (h : IsElse row) : IsClosed row := by
  have hwhole := h.wholeLine
  have hrow : row = Shape.word "else" :: ([] ++ [Shape.symbol ":"]) := h
  rw [hrow] at hwhole ⊢
  exact closed_header hwhole (by decide)

mutual

/-- Every statement of a body on a line ends where it stands. -/
theorem LineBody.closed : {waits : Bool} → {trees : List Tree} → LineBody waits trees → ∀ row ∈ rowsOf trees, IsClosed row
  | _, _, .nil => by
    rw [rowsOf]
    exact List.forall_mem_nil _
  | _, _, .simple h hrest => by
    rw [rowsOf]
    exact List.forall_mem_cons.mpr ⟨h.closed, hrest.closed⟩
  | _, _, @LineBody.block _ header _ h hbody => by
    have hheader : IsClosed header := by
      rcases h with hfunction | hwhile
      · exact hfunction.closed
      · exact hwhile.closed (by decide)
    rw [rowsOf, alternateRows, rowsOf, List.append_nil, List.append_nil]
    exact List.forall_mem_cons.mpr ⟨hheader, hbody.closed⟩
  | _, _, .if_ h hbody halternates => by
    rw [rowsOf, rowsOf, List.append_nil]
    exact List.forall_mem_cons.mpr ⟨h.closed (by decide), List.forall_mem_append.mpr ⟨hbody.closed, halternates.closed⟩⟩

/-- Every statement of alternates on a line ends where it stands. -/
theorem LineAlternates.closed : {before waits : Bool} → {arms : List Arm} → LineAlternates before waits arms →
    ∀ row ∈ alternateRows arms, IsClosed row
  | _, _, _, .nil => by
    rw [alternateRows]
    exact List.forall_mem_nil _
  | _, _, _, .elif h hbody hrest => by
    rw [alternateRows]
    exact List.forall_mem_cons.mpr ⟨h.closed (by decide), List.forall_mem_append.mpr ⟨hbody.closed, hrest.closed⟩⟩
  | _, _, _, .else_ h hbody => by
    rw [alternateRows, alternateRows, List.append_nil]
    exact List.forall_mem_cons.mpr ⟨h.closed, hbody.closed⟩

end

/-- A token that is seen as a symbol is that symbol. -/
theorem isSymbol_of_shape {token : Token} {text : String} (h : shapeOf token = .symbol text) : token.isSymbol text = true := by
  have hkind : token.kind = .symbol := congrArg Shape.kind h
  have htext : token.text = text := congrArg Shape.text h
  rw [Token.isSymbol, hkind, htext, beq_self_eq_true, beq_self_eq_true]
  rfl

/-- A statement ends at the last of its tokens, whatever follows on its line. -/
theorem IsClosed.stopsAt {tokens more : List Token} {last : Token} (h : IsClosed (shapes tokens)) (hlast : tokens.getLast? = some last) :
    stopsAt (startsHeader (shapes tokens)) last more = true := by
  have hshape : (shapes tokens).getLast? = some (shapeOf last) := by rw [shapes, List.getLast?_map, hlast, Option.map_some]
  unfold Dialect.stopsAt
  rcases h.stops _ hshape with hsemicolon | ⟨hcolon, hheader⟩
  · rw [isSymbol_of_shape hsemicolon, Bool.true_or, Bool.true_or]
  · rw [isSymbol_of_shape hcolon, hheader, Bool.and_self, Bool.or_true]

/-- A statement of a row on a line. -/
structure OfRow (line : Nat) (s : Statement) (row : Row) : Prop where
  shapes : shapes s.tokens = row
  begins : s.line = line
  ends : s.endLine = line
  rule : ∃ endsLine, s.rule = classify ⟨s.tokens, endsLine⟩

/-- The tokens of rows on a line are cut into the statements of the rows. -/
theorem statements_closed {indentOf : Nat → Nat} {rows : List Row} {tokens : List Token} (hrows : ∀ row ∈ rows, IsClosed row)
    (honLine : ∀ token ∈ tokens, OnLine line token) (h : shapes tokens = rows.flatten) :
    List.Forall₂ (OfRow line) (statements indentOf tokens) rows := by
  induction rows generalizing tokens with
  | nil =>
    obtain rfl : tokens = [] := List.map_eq_nil_iff.mp h
    exact .nil
  | cons row rows ih =>
    obtain ⟨hclosed, hrest⟩ := List.forall_mem_cons.mp hrows
    obtain ⟨here, more, rfl, rfl, hmore⟩ := List.map_eq_append_iff.mp h
    obtain ⟨hhere, honLine⟩ := List.forall_mem_append.mp honLine
    have hne : here ≠ [] := by
      rintro rfl
      exact hclosed.wholeLine.ne_nil rfl
    obtain ⟨last, -, hgroups⟩ := groupFrom_statement hclosed.wholeLine hhere fun _ => hclosed.stopsAt
    unfold statements
    rw [hgroups, List.map_cons, ofGroup_onLine hne hhere]
    exact .cons ⟨rfl, rfl, rfl, _, rfl⟩ (ih hrest honLine hmore)

/-! ## Frames -/

/-- While statements are left, every frame is that of their line. -/
def Inline (line : Nat) (frames : List Frame) (row : List Statement) : Prop := row ≠ [] → ∀ f ∈ frames, f = .inline line

/-- What follows a body on its line: nothing, or an alternate of an `if` around the body, if none inside of it waits for one. -/
def Follows (line : Nat) (waits : Bool) (frames : List Frame) (after : List Statement) : Prop :=
  ∀ s, after.head? = some s → waits = false ∧ frames ≠ [] ∧ s.rule.isAlternate ∧ s.line = line

/-- A line accepts a statement on it, but an alternate only as one. -/
theorem Inline.accepts {rest : List Statement} (h : Inline line frames (s :: rest)) (hline : s.line = line) {alternate : Bool}
    (halternate : s.rule.isAlternate → alternate) : allAccept frames alternate s = true := by
  unfold allAccept
  rw [List.all_eq_true]
  intro f hf
  obtain rfl := h (List.cons_ne_nil s rest) f hf
  unfold Frame.accepts
  cases hrule : s.rule.isAlternate with
  | false => simp [hline]
  | true => simp [hline, halternate hrule]

/-- The block of a header on the line has the frame of the line, if something is left for it. -/
theorem Inline.push {rest : List Statement} (h : Inline line frames (s :: rest)) (hend : s.endLine = line)
    (hnext : ∀ next, rest.head? = some next → next.line = line) : Inline line (.ofHeader s rest.head? :: frames) rest := by
  intro hne
  obtain ⟨next, rest, rfl⟩ := List.exists_cons_of_ne_nil hne
  have hframe : Frame.ofHeader s (some next) = .inline line := by
    unfold Frame.ofHeader
    dsimp only
    rw [hend, hnext next rfl, beq_self_eq_true, if_pos rfl]
  rw [List.head?_cons, hframe]
  exact List.forall_mem_cons.mpr ⟨rfl, h (List.cons_ne_nil _ _)⟩

/-- What follows a body is left. -/
theorem Follows.refused (h : Follows line waits frames after) (hframes : Inline line frames after) :
    ArrangedInto frames after [] after := by
  refine arrangedInto_nil fun s hs => ?_
  obtain ⟨-, hne, halternate, -⟩ := h s hs
  obtain ⟨f, frames, rfl⟩ := List.exists_cons_of_ne_nil hne
  obtain rfl : f = .inline line := by
    refine hframes ?_ f List.mem_cons_self
    rintro rfl
    nomatch hs
  unfold allAccept
  rw [List.all_cons, Frame.accepts, halternate]
  simp

/-! ## Arrangement -/

/-- Statements of two parts of a line. -/
theorem ofRows_append {rows more : List Row} (h : List.Forall₂ (OfRow line) row (rows ++ more)) :
    ∃ front rest, row = front ++ rest ∧ List.Forall₂ (OfRow line) front rows ∧ List.Forall₂ (OfRow line) rest more :=
  ⟨_, _, (List.take_append_drop _ row).symm, List.forall₂_take_append _ _ _ h, List.forall₂_drop_append _ _ _ h⟩

/-- The next statement stands on the line, whether it is in the body or follows it. -/
theorem Follows.head_line {rows : List Row} (hafter : Follows line waits frames after) (h : List.Forall₂ (OfRow line) row rows) :
    ∀ next, (row ++ after).head? = some next → next.line = line := by
  intro next hnext
  cases h with
  | nil => exact (hafter next hnext).2.2.2
  | cons hs _ => exact Option.some.inj hnext ▸ hs.begins

/-- What follows a block may follow its last body. -/
theorem Follows.push (h : Follows line waits frames after) (f : Frame) : Follows line waits (f :: frames) after := by
  intro s hs
  obtain ⟨hwaits, -, halternate, hline⟩ := h s hs
  exact ⟨hwaits, List.cons_ne_nil f frames, halternate, hline⟩

/-- A header of a function or a loop is classified as one. -/
theorem rule_block {head : Row} (h : OfRow line s head) (hhead : IsFunction head ∨ IsConditional "while" head) :
    s.rule = .function ∨ s.rule = .while_ := by
  obtain ⟨endsLine, hrule⟩ := h.rule
  rcases hhead with hfunction | hwhile
  · exact .inl (hrule.trans (classify_functionHeader (h.shapes ▸ hfunction)))
  · exact .inr (hrule.trans (classify_conditional (h.shapes ▸ hwhile)))

/-- A header of an `if` is classified as one. -/
theorem rule_if {head : Row} (h : OfRow line s head) (hif : IsConditional "if" head) : s.rule = .if_ := by
  obtain ⟨endsLine, hrule⟩ := h.rule
  exact hrule.trans (classify_conditional (h.shapes ▸ hif))

/-- A header of an `elif` is classified as one. -/
theorem rule_elif {head : Row} (h : OfRow line s head) (helif : IsConditional "elif" head) : s.rule = .elif := by
  obtain ⟨endsLine, hrule⟩ := h.rule
  exact hrule.trans (classify_conditional (h.shapes ▸ helif))

/-- A header of an `else` is classified as one. -/
theorem rule_else {head : Row} (h : OfRow line s head) (helse : IsElse head) : s.rule = .else_ := by
  obtain ⟨endsLine, hrule⟩ := h.rule
  exact hrule.trans (classify_else (h.shapes ▸ helse))

/-- Behind a body stand the alternates of its `if`, or what follows the block. -/
theorem Follows.alternates (hafter : Follows line waits frames after) (harms : LineAlternates before waits arms)
    (h : List.Forall₂ (OfRow line) row (alternateRows arms)) (f : Frame) : Follows line before (f :: frames) (row ++ after) := by
  intro s hs
  cases harms with
  | nil =>
    rw [alternateRows, List.forall₂_nil_right_iff] at h
    subst h
    exact absurd (hafter s hs).1 nofun
  | elif helif =>
    rw [alternateRows] at h
    obtain ⟨t, rest, ht, -, rfl⟩ := List.forall₂_cons_right_iff.mp h
    obtain rfl := Option.some.inj hs
    exact ⟨rfl, List.cons_ne_nil f frames, by rw [rule_elif ht helif]; rfl, ht.begins⟩
  | else_ helse =>
    rw [alternateRows] at h
    obtain ⟨t, rest, ht, -, rfl⟩ := List.forall₂_cons_right_iff.mp h
    obtain rfl := Option.some.inj hs
    exact ⟨rfl, List.cons_ne_nil f frames, by rw [rule_else ht helse]; rfl, ht.begins⟩

/-- Statements of a body on a line are arranged into its trees. -/
def LineArranges (waits : Bool) (trees : List Tree) : Prop :=
  ∀ {line : Nat} {frames : List Frame} {row after : List Statement}, List.Forall₂ (OfRow line) row (rowsOf trees) →
    Inline line frames (row ++ after) → Follows line waits frames after → ArrangedInto frames (row ++ after) trees after

/-- Statements of alternates on a line are attached to a header in front of them on the line. -/
def LineAttaches (waits : Bool) (arms : List Arm) : Prop :=
  ∀ {line : Nat} {frames : List Frame} {row after : List Statement}, List.Forall₂ (OfRow line) row (alternateRows arms) →
    Inline line frames (row ++ after) → Follows line waits frames after →
      ∀ header previous, previous.endLine = line → AttachedAs frames header previous (row ++ after) arms after

/-- No statements are arranged into no trees. -/
theorem lineArranges_nil : LineArranges false [] := by
  intro line frames row after h hframes hafter
  rw [rowsOf, List.forall₂_nil_right_iff] at h
  subst h
  exact hafter.refused hframes

/-- A simple statement in front of what is arranged is arranged as itself. -/
theorem lineArranges_simple {simple : Row} {rest : List Tree} (hsimple : IsSimple simple) (ih : LineArranges waits rest) :
    LineArranges waits (.simple simple :: rest) := by
  intro line frames row after h hframes hafter
  rw [rowsOf] at h
  obtain ⟨s, others, hs, hothers, rfl⟩ := List.forall₂_cons_right_iff.mp h
  obtain ⟨endsLine, hrule⟩ := hs.rule
  obtain rfl : shapes s.tokens = simple := hs.shapes
  have hopens : s.rule.opensBlock = false := by
    rw [hrule]
    exact classify_simple hsimple
  have haccept : allAccept frames false s = true :=
    hframes.accepts hs.begins fun halternate => absurd halternate (by rw [isAlternate_of_opensBlock hopens]; nofun)
  exact arrangedInto_simple haccept hopens (ih hothers (fun _ => hframes (List.cons_ne_nil _ _)) hafter)

/-- A function or a loop takes all of the line that is arranged behind its header. -/
theorem lineArranges_block {head : Row} {body : List Tree} (hhead : IsFunction head ∨ IsConditional "while" head)
    (ih : LineArranges waits body) : LineArranges waits [.block (.mk head body) []] := by
  intro line frames row after h hframes hafter
  rw [rowsOf, alternateRows, rowsOf, List.append_nil, List.append_nil] at h
  obtain ⟨s, inner, hs, hinner, rfl⟩ := List.forall₂_cons_right_iff.mp h
  obtain rfl : shapes s.tokens = head := hs.shapes
  obtain ⟨hopens, halternate, hif⟩ : s.rule.opensBlock = true ∧ s.rule.isAlternate = false ∧ s.rule ≠ .if_ := by
    rcases rule_block hs hhead with hrule | hrule <;> rw [hrule] <;> decide
  have haccept : allAccept frames false s = true := hframes.accepts hs.begins fun h => absurd h (by rw [halternate]; nofun)
  have hbody := ih hinner (hframes.push hs.ends (hafter.head_line hinner)) (hafter.push _)
  exact arrangedInto_block haccept hopens hbody (.inr ⟨hif, rfl, rfl⟩) (hafter.refused fun hne => hframes (List.cons_ne_nil _ _))

/-- An `if` takes what its body takes, and then its alternates. -/
theorem lineArranges_if {head : Row} {body : List Tree} (hhead : IsConditional "if" head) (harms : LineAlternates before waits arms)
    (ihBody : LineArranges before body) (ihArms : LineAttaches waits arms) : LineArranges waits [.block (.mk head body) arms] := by
  intro line frames row after h hframes hafter
  rw [rowsOf, rowsOf, List.append_nil] at h
  obtain ⟨s, others, hs, hothers, rfl⟩ := List.forall₂_cons_right_iff.mp h
  obtain ⟨inner, armsRow, rfl, hinner, harmsRow⟩ := ofRows_append hothers
  obtain rfl : shapes s.tokens = head := hs.shapes
  have hrule : s.rule = .if_ := rule_if hs hhead
  have haccept : allAccept frames false s = true := hframes.accepts hs.begins fun h => absurd h (by rw [hrule]; nofun)
  -- the body ends at the first alternate of the `if`, or where the block does
  have hfollows := hafter.alternates harms harmsRow (.ofHeader s (inner ++ (armsRow ++ after)).head?)
  have hassoc : s :: (inner ++ armsRow) ++ after = s :: (inner ++ (armsRow ++ after)) := by simp
  rw [hassoc] at hframes ⊢
  have hbody := ihBody hinner (hframes.push hs.ends (hfollows.head_line hinner)) hfollows
  have hattached := ihArms harmsRow (fun _ => hframes (List.cons_ne_nil _ _)) hafter s s hs.ends
  exact arrangedInto_block haccept (by rw [hrule]; rfl) hbody (.inl ⟨hrule, hattached⟩)
    (hafter.refused fun hne => hframes (List.cons_ne_nil _ _))

/-- Where no alternates are written, none is attached, as what follows may not be one. -/
theorem lineAttaches_nil : LineAttaches true [] := by
  intro line frames row after h hframes hafter header previous _
  rw [alternateRows, List.forall₂_nil_right_iff] at h
  subst h
  exact attachedAs_nil (fun s hs => absurd (hafter s hs).1 nofun) header previous

/-- An alternate is attached to its `if`, behind the branch on its line. -/
theorem Inline.attached {rest : List Statement} (h : Inline line frames (s :: rest)) (hline : s.line = line)
    (hprevious : previous.endLine = line) (halternate : s.rule.isAlternate = true) : isAttached frames header previous s = true := by
  unfold isAttached
  rw [halternate, hline, hprevious, h.accepts hline fun _ => rfl]
  simp

/-- An `elif` is attached with its body, and then the alternates behind it. -/
theorem lineAttaches_elif {head : Row} {body : List Tree} (hhead : IsConditional "elif" head) (harms : LineAlternates before waits arms)
    (ihBody : LineArranges before body) (ihArms : LineAttaches waits arms) : LineAttaches waits (.mk head body :: arms) := by
  intro line frames row after h hframes hafter header previous hprevious
  rw [alternateRows] at h
  obtain ⟨s, others, hs, hothers, rfl⟩ := List.forall₂_cons_right_iff.mp h
  obtain ⟨inner, armsRow, rfl, hinner, harmsRow⟩ := ofRows_append hothers
  obtain rfl : shapes s.tokens = head := hs.shapes
  have hrule : s.rule = .elif := rule_elif hs hhead
  have hfollows := hafter.alternates harms harmsRow (.ofHeader s (inner ++ (armsRow ++ after)).head?)
  have hassoc : s :: (inner ++ armsRow) ++ after = s :: (inner ++ (armsRow ++ after)) := by simp
  rw [hassoc] at hframes ⊢
  have hbody := ihBody hinner (hframes.push hs.ends (hfollows.head_line hinner)) hfollows
  have hattached := ihArms harmsRow (fun _ => hframes (List.cons_ne_nil _ _)) hafter header s hs.ends
  exact attachedAs_elif (hframes.attached hs.begins hprevious (by rw [hrule]; rfl)) hrule hbody hattached

/-- An `else` is attached with its body, and the alternates end with it. -/
theorem lineAttaches_else {head : Row} {body : List Tree} (hhead : IsElse head) (ih : LineArranges waits body) :
    LineAttaches waits [.mk head body] := by
  intro line frames row after h hframes hafter header previous hprevious
  rw [alternateRows, alternateRows, List.append_nil] at h
  obtain ⟨s, inner, hs, hinner, rfl⟩ := List.forall₂_cons_right_iff.mp h
  obtain rfl : shapes s.tokens = head := hs.shapes
  have hrule : s.rule = .else_ := rule_else hs hhead
  have hbody := ih hinner (hframes.push hs.ends (hafter.head_line hinner)) (hafter.push _)
  exact attachedAs_else (hframes.attached hs.begins hprevious (by rw [hrule]; rfl)) hrule hbody

mutual

/-- Every body on a line is arranged into its trees. -/
theorem LineBody.arranges : {waits : Bool} → {trees : List Tree} → LineBody waits trees → LineArranges waits trees
  | _, _, .nil => lineArranges_nil
  | _, _, .simple h hrest => lineArranges_simple h hrest.arranges
  | _, _, .block h hbody => lineArranges_block h hbody.arranges
  | _, _, .if_ h hbody harms => lineArranges_if h harms hbody.arranges harms.attaches

/-- All alternates on a line are attached. -/
theorem LineAlternates.attaches : {before waits : Bool} → {arms : List Arm} → LineAlternates before waits arms →
    LineAttaches waits arms
  | _, _, _, .nil => lineAttaches_nil
  | _, _, _, .elif h hbody hrest => lineAttaches_elif h hrest hbody.arranges hrest.attaches
  | _, _, _, .else_ h hbody => lineAttaches_else h hbody.arranges

end

/-! ## The tree of a line -/

/-- All tokens of a source stand on one line; in front of it and behind it are blank lines and comments at most. -/
def OnOneLine (source : Source) : Prop := ∃ line, ∀ token ∈ source.scan.tokens, OnLine line token

/-- A text without line feeds is on one line. -/
theorem onOneLine_of_text {source : Source} (h : '\n' ∉ source.text.toList) : OnOneLine source := by
  obtain ⟨words, left, htext, -, htokens, -⟩ := Lexer.scanFrom_ok .origin source.text.toList
  have hwords : '\n' ∉ Lexer.written words := fun hmem => h (htext ▸ List.mem_append_left left hmem)
  have hscan : source.scan.tokens = Lexer.placed .origin words := htokens
  refine ⟨1, ?_⟩
  rw [hscan]
  exact (Lexer.placed_onLine hwords rfl).1

/-- Layout inference rebuilds the derivation of a line: if the tokens of a source on one line are those of a derivation of the grammar, in
which every alternate belongs to the nearest `if` in front of it that has no `else` yet, its tree is the derivation, and nothing of the
line is left outside of it. -/
theorem blocks_oneLine {source : Source} (hline : OnOneLine source) (hderived : LineBody waits trees)
    (hrow : shapes source.scan.tokens = (rowsOf trees).flatten) :
    treesOf (blocks (statements source.lineIndent source.scan.tokens)) = trees ∧
      (arrange [] (statements source.lineIndent source.scan.tokens)).rest = [] := by
  obtain ⟨line, honLine⟩ := hline
  have hstatements : List.Forall₂ (OfRow line) (statements source.lineIndent source.scan.tokens) (rowsOf trees) :=
    statements_closed hderived.closed honLine hrow
  have hframes : ∀ row, Inline line [] row := fun _ _ => List.forall_mem_nil _
  have hfollows : Follows line waits [] [] := nofun
  have harranged := hderived.arranges hstatements (hframes _) hfollows
  rw [List.append_nil] at harranged
  exact harranged

/-! ### A line with an inner `if` -/

/-- A loop whose `if` has an `else`, inside an `if` with an `elif`, whose own inner `if` has no body in front of its `else`. -/
def ladderTrees : List Tree :=
  [.block (.mk (headerRow "if" "1")
      [.block (.mk (headerRow "while" "2")
        [.block (.mk (headerRow "if" "3") [.simple (sayRow "3")]) [.mk [.word "else", .symbol ":"] [.simple (sayRow "2")]]]) []])
    [.mk (headerRow "elif" "0")
      [.block (.mk (headerRow "if" "4") [])
        [.mk [.word "else", .symbol ":"] [.simple (sayRow "1"), .block (.mk walkRow [.simple (sayRow "0")]) []]]]]]

/-- The line of the trees, with a comment behind it. -/
def ladderSource : Source :=
  ⟨"ladder", "if(n > 1): while(n > 2): if(n > 3): say 3; else: say 2; elif(n > 0): if(n > 4): else: say 1; fun walk(n): say 0; # end"⟩

/-- The example is a body of the grammar, and it waits. -/
theorem lineBody_ladder : LineBody true ladderTrees := by
  have hheader : ∀ word number, IsConditional word (headerRow word number) := fun _ _ => ⟨_, rfl, rfl⟩
  have hsay : ∀ number, LineBody false [.simple (sayRow number)] := fun number => .simple (isSimple_sayRow number) .nil
  have hinner : LineBody false
      [.block (.mk (headerRow "if" "3") [.simple (sayRow "3")]) [.mk [.word "else", .symbol ":"] [.simple (sayRow "2")]]] :=
    .if_ (hheader _ _) (hsay "3") (.else_ rfl (hsay "2"))
  have hwalk : LineBody false [.simple (sayRow "1"), .block (.mk walkRow [.simple (sayRow "0")]) []] :=
    .simple (isSimple_sayRow "1") (.block (.inl ⟨"walk", [.word "n"], rfl, rfl⟩) (hsay "0"))
  exact .if_ (hheader _ _) (.block (.inr (hheader _ _)) hinner)
    (.elif (hheader _ _) (.if_ (hheader _ _) .nil (.else_ rfl hwalk)) .nil)

/-- The `elif` behind the loop belongs to the outer `if`, the `else` behind it to the inner one. -/
theorem blocks_oneLine_ladder :
    treesOf (blocks (statements ladderSource.lineIndent ladderSource.scan.tokens)) = ladderTrees ∧
      (arrange [] (statements ladderSource.lineIndent ladderSource.scan.tokens)).rest = [] :=
  blocks_oneLine (onOneLine_of_text (by decide +kernel)) lineBody_ladder (by decide +kernel)

end HostScript.Dialect
