import HostScript.Dialect.Statement

/-!
# Blocks inferred from layout

Statements are arranged into a tree of blocks. Where a block ends is decided by the place of the statement after its header:

* on the line of the header: the block takes the rest of that line, up to an `elif` or `else`;
* on a later line, indented deeper than the header: the block takes all lines that are deeper than the header;
* otherwise: the block takes statements up to the next header, or the first line indented less than the header.

A statement belongs to a block only if all blocks around it accept it as well.
-/

namespace HostScript.Dialect

/-- How far a block extends. -/
inductive Frame
  | inline (line : Nat)
  | indented (floor : Nat)
  | flat (indent : Nat)
  deriving DecidableEq, Repr

/-- A frame accepts a statement. Only as an alternate may an `elif` or `else` stay inside the line of a block. -/
def Frame.accepts (alternate : Bool) (s : Statement) : Frame → Bool
  | .inline line => s.line == line && (alternate || !s.rule.isAlternate)
  | .indented floor => floor < s.indent
  | .flat indent => indent ≤ s.indent && !s.rule.isHeader

/-- The frame of the block of a header, from the statement that follows it. -/
def Frame.ofHeader (header : Statement) : Option Statement → Frame
  | none => .flat header.indent
  | some next =>
    if next.line == header.endLine then .inline header.endLine
    else if header.indent < next.indent then .indented header.indent
    else .flat header.indent

/-- All frames accept a statement. -/
def allAccept (frames : List Frame) (alternate : Bool) (s : Statement) : Bool := frames.all (·.accepts alternate s)

mutual

/-- A simple statement, or a block with the alternates attached to it. -/
inductive Node
  | simple (s : Statement)
  | block (first : Branch) (alternates : List Branch)
  deriving Repr

/-- A header and the body of its block. -/
inductive Branch
  | mk (header : Statement) (body : List Node)
  deriving Repr

end

/-- What has been arranged of a row of statements, and the rest of the row. -/
structure Arranged (α : Type) (row : List Statement) where
  result : α
  rest : List Statement
  rest_le : rest.length ≤ row.length

/-- An alternate is attached to an `if`: it stands on the line where the branch before it ends, or at the indentation of the
`if`, and the blocks around the `if` accept it. -/
def isAttached (frames : List Frame) (header previous s : Statement) : Bool :=
  s.rule.isAlternate && (s.line == previous.endLine || s.indent == header.indent) && allAccept frames true s

mutual

/-- Arranges the statements that all frames accept, up to the first that one of them does not. -/
def arrange (frames : List Frame) (row : List Statement) : Arranged (List Node) row :=
  match row with
  | [] => ⟨[], [], Nat.le_refl _⟩
  | s :: rest =>
    if !allAccept frames false s then ⟨[], s :: rest, Nat.le_refl _⟩
    else if !s.rule.opensBlock then
      let ⟨nodes, after, hAfter⟩ := arrange frames rest
      ⟨.simple s :: nodes, after, Nat.le_succ_of_le hAfter⟩
    else
      let ⟨body, row₁, h₁⟩ := arrange (.ofHeader s rest.head? :: frames) rest
      let ⟨alternates, row₂, h₂⟩ :=
        if s.rule = .if_ then arrangeAlternates frames s s row₁ else ⟨[], row₁, Nat.le_refl _⟩
      let ⟨nodes, row₃, h₃⟩ := arrange frames row₂
      ⟨.block (.mk s body) alternates :: nodes, row₃, Nat.le_succ_of_le (Nat.le_trans h₃ (Nat.le_trans h₂ h₁))⟩
termination_by row.length
decreasing_by all_goals simp only [List.length_cons]; omega

/-- Arranges the alternates attached to an `if`, up to its `else`. -/
def arrangeAlternates (frames : List Frame) (header previous : Statement) (row : List Statement) :
    Arranged (List Branch) row :=
  match row with
  | [] => ⟨[], [], Nat.le_refl _⟩
  | s :: rest =>
    if !isAttached frames header previous s then ⟨[], s :: rest, Nat.le_refl _⟩
    else
      let ⟨body, row₁, h₁⟩ := arrange (.ofHeader s rest.head? :: frames) rest
      if s.rule = .else_ then ⟨[.mk s body], row₁, Nat.le_succ_of_le h₁⟩
      else
        let ⟨branches, row₂, h₂⟩ := arrangeAlternates frames header s row₁
        ⟨.mk s body :: branches, row₂, Nat.le_succ_of_le (Nat.le_trans h₂ h₁)⟩
termination_by row.length
decreasing_by all_goals simp only [List.length_cons]; omega

end

/-- The tree of all statements. -/
def blocks (row : List Statement) : List Node := (arrange [] row).result

end HostScript.Dialect
