import HostScript.Dialect.Block
import HostScript.Text.Blank
import HostScript.Token.Lexer

/-!
# From the dialect to the host script

`Dialect.render` writes the tree of a source's blocks as host script. Expressions keep their spacing; inside them `exports`
becomes a member of the host alias and `ask` a call of its input. A name is declared with `let` where it is first bound, and
assigned afterwards. What cannot be cut into tokens is copied to the end, for the host script's own reader to refuse.
-/

namespace HostScript.Dialect

/-- The alias under which a rendered program imports its host. -/
def hostAlias : String := "kp"

/-- The statement that opens every rendered program. -/
def hostImportLine : String := "use host as kp;"

/-- One step of indentation. -/
def indentStep : String := "    "

/-- Splits the operand of an `ask` off a row: it ends before the comma or the closing bracket of the group around it. -/
def splitOperand (depth : Nat) : List Token → List Token × List Token
  | [] => ([], [])
  | token :: rest =>
    if depth == 0 && (isClose token || token.isSymbol ",") then ([], token :: rest)
    else
      let (operand, after) := splitOperand (depthAfter depth token) rest
      (token :: operand, after)

theorem splitOperand_append (depth : Nat) (row : List Token) :
    (splitOperand depth row).1 ++ (splitOperand depth row).2 = row := by
  induction row generalizing depth with
  | nil => rfl
  | cons token rest ih =>
    unfold splitOperand
    split
    · rfl
    · simp [ih]

theorem splitOperand_length (depth : Nat) (row : List Token) :
    (splitOperand depth row).1.length + (splitOperand depth row).2.length = row.length := by
  rw [← List.length_append, splitOperand_append]

/-- A token that stands for something else: `exports` or `ask` where it is no member name. -/
def isReplaced (afterDot : Bool) (token : Token) (word : String) : Bool := !afterDot && token.isIdent word

/-- Writes a row of tokens with its spacing, except for the gap in front of its first token. -/
def expressionFrom (first afterDot : Bool) (row : List Token) : String :=
  match row with
  | [] => ""
  | token :: rest =>
    let gap := if first then "" else token.gap
    if isReplaced afterDot token "exports" then
      gap ++ hostAlias ++ ".exports" ++ expressionFrom false false rest
    else if isReplaced afterDot token "ask" then
      gap ++ hostAlias ++ ".input(" ++ expressionFrom true false (splitOperand 0 rest).1 ++ ")" ++
        expressionFrom false false (splitOperand 0 rest).2
    else gap ++ token.lexeme ++ expressionFrom false (token.isSymbol ".") rest
termination_by row.length
decreasing_by
  · simp
  · have := splitOperand_length 0 rest
    simp only [List.length_cons]
    omega
  · have := splitOperand_length 0 rest
    simp only [List.length_cons]
    omega
  · simp

/-- Writes a row of tokens as an expression. -/
def expression (row : List Token) : String := expressionFrom true false row

/-- Writes the condition of a header, without brackets around all of it. -/
def condition (s : Statement) : String :=
  let row := (s.tokens.drop 1).dropLast
  expression (if isBracketed row then (row.drop 1).dropLast else row)

/-- The name in a header `fun name(params):`. -/
def functionName (s : Statement) : String := ((s.tokens[1]?).map Token.text).getD ""

/-- The tokens between the brackets of a header `fun name(params):`. -/
def functionParams (s : Statement) : List Token := (s.tokens.drop 3).dropLast.dropLast

/-- Writes a simple statement; `known` holds the names that are declared where it stands. -/
def simpleText (known : List String) (s : Statement) : String :=
  match s.rule with
  | .binding =>
    let name := ((s.tokens.head?).map Token.text).getD ""
    let assignment := name ++ " = " ++ expression (s.tokens.drop 2).dropLast ++ ";"
    if known.contains name then assignment else "let " ++ assignment
  | .say => hostAlias ++ ".output(" ++ expression (s.tokens.drop 1).dropLast ++ ");"
  | .ask => hostAlias ++ ".input(" ++ expression (s.tokens.drop 1).dropLast ++ ");"
  | _ =>
    if s.tokens.getLast?.any fun t => t.isSymbol ";" then expression s.tokens.dropLast ++ ";" else expression s.tokens

/-- Writes the header of a block; the header of an alternate closes the block before it. -/
def headerText (alternate : Bool) (s : Statement) : String :=
  let close := if alternate then "\x7d " else ""
  match s.rule with
  | .function => "function " ++ functionName s ++ "(" ++ expression (functionParams s) ++ ") \x7b"
  | .if_ => "if (" ++ condition s ++ ") \x7b"
  | .elif => close ++ "else if (" ++ condition s ++ ") \x7b"
  | .else_ => close ++ "else \x7b"
  | .while_ => "while (" ++ condition s ++ ") \x7b"
  | _ => expression s.tokens.dropLast ++ " \x7b"

/-- The name that a statement declares in the block in which it stands: the name of a function, or a name that is bound. -/
def declaredName? (s : Statement) : Option String :=
  match s.rule with
  | .binding => s.tokens.head?.map Token.text
  | .function => some (functionName s)
  | _ => none

/-- The names that a header declares inside its block: the parameters of a function. -/
def parameterNames (s : Statement) : List String :=
  if s.rule = .function then ((functionParams s).filter fun t => t.kind == .ident).map Token.text else []

/-- A line at a depth. -/
def indentLine (depth : Nat) (text : String) : String := (List.replicate depth indentStep).foldl (· ++ ·) "" ++ text

mutual

/-- Writes nodes at a depth as lines. -/
def nodeLines (depth : Nat) (known : List String) : List Node → List String
  | [] => []
  | .simple s :: rest =>
    indentLine depth (simpleText known s) :: nodeLines depth ((declaredName? s).toList ++ known) rest
  | .block first alternates :: rest =>
    branchLines depth known false first ++ alternateLines depth known alternates ++ [indentLine depth "\x7d"] ++
      nodeLines depth (branchNames first ++ known) rest

/-- Writes a header and its body as lines. -/
def branchLines (depth : Nat) (known : List String) (alternate : Bool) : Branch → List String
  | .mk header body =>
    indentLine depth (headerText alternate header) ::
      nodeLines (depth + 1) (parameterNames header ++ ((declaredName? header).toList ++ known)) body

/-- Writes alternates as lines. -/
def alternateLines (depth : Nat) (known : List String) : List Branch → List String
  | [] => []
  | branch :: rest => branchLines depth known true branch ++ alternateLines depth known rest

/-- The name that the header of a branch declares around its block. -/
def branchNames : Branch → List String
  | .mk header _ => (declaredName? header).toList

end

/-- A rendered source. -/
structure Rendering where
  /-- The host script, under the name of the source. -/
  script : Source
  /-- The number of statements that it was made of. -/
  statementCount : Nat
  /-- Why the reading of tokens stopped before the end of the source, if it did. -/
  fault : Option LexFault
  deriving DecidableEq, Repr

/-- Renders a source as host script. -/
def render (source : Source) : Rendering :=
  let scan := source.scan
  let indents := (source.lines.map Line.indent).toArray
  let row := statements (fun line => (indents[line - 1]?).getD 1) scan.tokens
  let (fault, tail) := match scan.ending with
    | .complete _ _ => (none, "")
    | .stopped fault rest => (some fault, Text.trim rest)
  let lines := nodeLines 0 [] (blocks row) ++ (if tail.isEmpty then [] else [tail])
  let text := lines.foldl (fun text line => text ++ "\n" ++ line) (hostImportLine ++ "\n")
  ⟨⟨source.name, text ++ "\n"⟩, row.length, fault⟩

end HostScript.Dialect
