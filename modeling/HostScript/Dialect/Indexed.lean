import HostScript.Dialect.HostText

/-!
# Rendering by positions

The rendering of `Dialect.render` as it is done on tables: tokens and statements go by their index, texts by their byte offsets in the
source, and a token is only its class and its span. Each access, each subtraction and each slice is checked, and each loop and recursion
that no range bounds has fuel. `Lapse` says what fails otherwise.
-/

namespace HostScript.Dialect.Indexed

/-- What a rendering by positions fails at. -/
inductive Lapse
  /-- There is no token of an index. -/
  | token (index : Nat)
  /-- There is no statement of an index. -/
  | statement (index : Nat)
  /-- A number is taken from a smaller one. -/
  | below (n less : Nat)
  /-- A slice of the text is turned around, does not end in the text, or has an end inside of a character. -/
  | slice (start stop : Nat)
  /-- A loop or a recursion does not end. -/
  | endless
  deriving DecidableEq, Repr

/-- A step that can fail. -/
abbrev Checked := Except Lapse

/-- A difference of two numbers. -/
def minus (n less : Nat) : Checked Nat := if less ≤ n then .ok (n - less) else .error (.below n less)

/-- What a text has behind its first bytes, if they are the bytes of whole characters. -/
def dropBytes? : Nat → List Char → Option (List Char)
  | 0, text => some text
  | _ + 1, [] => none
  | n + 1, c :: rest => if c.utf8Size ≤ n + 1 then dropBytes? (n + 1 - c.utf8Size) rest else none

/-- The first bytes of a text, if they are the bytes of whole characters. -/
def takeBytes? : Nat → List Char → Option (List Char)
  | 0, _ => some []
  | _ + 1, [] => none
  | n + 1, c :: rest => if c.utf8Size ≤ n + 1 then (takeBytes? (n + 1 - c.utf8Size) rest).map (c :: ·) else none

/-- The part of a text between two byte offsets. -/
def slice (text : List Char) (start stop : Nat) : Checked String :=
  match (dropBytes? start text).bind (takeBytes? (stop - start)) with
  | some part => if start ≤ stop then .ok (String.ofList part) else .error (.slice start stop)
  | none => .error (.slice start stop)

/-- A token without its text. -/
structure Mark where
  kind : TokenKind
  span : Span
  deriving DecidableEq, Repr

/-- The mark of a token. -/
def Mark.ofToken (token : Token) : Mark := ⟨token.kind, token.span⟩

/-- The byte offsets of a mark as it is written, with its quotes. -/
def Mark.extent (mark : Mark) : Checked (Nat × Nat) :=
  if (Token.delimiter? mark.kind).isSome then do return (← minus mark.span.start 1, mark.span.stop + 1)
  else return (mark.span.start, mark.span.stop)

/-- The tables of a source: its text, the offsets where its lines start and stop, and its tokens. -/
structure Table where
  contents : List Char
  lines : List (Nat × Nat)
  marks : List Mark

/-- The tables of a source. -/
def Table.ofSource (source : Source) : Table :=
  ⟨source.text.toList, source.lines.map fun line => (line.start, line.stop), source.scan.tokens.map .ofToken⟩

/-- A statement: its tokens from an index up to another, its lines, the indentation of its first line and its rule. -/
structure Stretch where
  start : Nat
  stop : Nat
  line : Nat
  endLine : Nat
  indent : Nat
  rule : Rule
  deriving DecidableEq, Repr

section

variable (t : Table)

/-- The token of an index. -/
def markAt (index : Nat) : Checked Mark :=
  match t.marks[index]? with
  | some mark => .ok mark
  | none => .error (.token index)

/-- The text of a token. -/
def textOf (mark : Mark) : Checked String := slice t.contents mark.span.start mark.span.stop

/-- The token is of a class and has a text. -/
def isWord (kind : TokenKind) (mark : Mark) (text : String) : Checked Bool := do
  if mark.kind = kind then return (← textOf t mark) == text else return false

/-- There is a token of an index, of a class and with a text. -/
def isWordAt (kind : TokenKind) (index : Nat) (text : String) : Checked Bool := do
  if index < t.marks.length then isWord t kind (← markAt t index) text else return false

/-- The token is one of three symbols. -/
def isSymbolOf (first second third : String) (mark : Mark) : Checked Bool := do
  if mark.kind = .symbol then
    let text ← textOf t mark
    return text == first || text == second || text == third
  else return false

/-- An opening bracket of any kind. -/
def isOpen (mark : Mark) : Checked Bool := isSymbolOf t "(" "[" "\x7b" mark

/-- A closing bracket of any kind. -/
def isClose (mark : Mark) : Checked Bool := isSymbolOf t ")" "]" "\x7d" mark

/-- The line on which a token ends. -/
def endLine (mark : Mark) : Checked Nat := do
  if mark.kind = .rawString then return mark.span.line + (← textOf t mark).toList.count '\n' else return mark.span.line

/-- The indentation of the line of a number. -/
def lineIndent (number : Nat) : Checked Nat :=
  match t.lines[number - 1]? with
  | some (start, stop) => do return Line.indent ⟨start, (← slice t.contents start stop).toList⟩
  | none => return 1

/-- The number of brackets open after a token. -/
def depthAfter (depth : Nat) (mark : Mark) : Checked Nat := do
  if ← isOpen t mark then return depth + 1
  else if ← isClose t mark then return depth - 1
  else return depth

/-! ## Statements -/

/-- The index behind a statement, from a token of it on. -/
def statementStop (header : Bool) : Nat → Nat → Nat → Checked Nat
  | 0, _, _ => .error .endless
  | fuel + 1, depth, index => do
    let mark ← markAt t index
    let depth ← depthAfter t depth mark
    if index + 1 = t.marks.length then return index + 1
    else if depth = 0 then
      if ← isWord t .symbol mark ";" then return index + 1
      else
        let last := (← markAt t (index + 1)).span.line != (← endLine t mark)
        if (← isWord t .symbol mark ":") && (header || last) then return index + 1
        else if last then return index + 1
        else statementStop header fuel depth (index + 1)
    else statementStop header fuel depth (index + 1)

/-- The index of the token that closes the bracket at an index, among so many tokens from there on. -/
def matchingFrom (depth index : Nat) : Nat → Checked (Option Nat)
  | 0 => return none
  | count + 1 => do
    let mark ← markAt t index
    if ← isOpen t mark then matchingFrom (depth + 1) (index + 1) count
    else if ← isClose t mark then
      if depth - 1 = 0 then return some index else matchingFrom (depth - 1) (index + 1) count
    else matchingFrom depth (index + 1) count

/-- The index of the token that closes the bracket at an index, in front of another index. -/
def matching (start stop : Nat) : Checked (Option Nat) := matchingFrom t 0 start (stop - start)

/-- The word `fun`, a name, and parameters in brackets that reach to the colon. -/
def isFunctionHeader (start stop last : Nat) : Checked Bool := do
  if 5 ≤ (← minus stop start) then
    if (← markAt t (start + 1)).kind = .ident then
      if ← isWordAt t .symbol (start + 2) "(" then return (← matching t (start + 2) stop) == some (← minus last 1)
      else return false
    else return false
  else return false

/-- The statement binds a name. -/
def binds (start stop : Nat) (terminated : Bool) : Checked Bool := do
  let first ← markAt t start
  if first.kind = .ident then
    if !reservedWords.contains (← textOf t first) then
      if ← isWordAt t .symbol (start + 1) "=" then return terminated && 3 < (← minus stop start) else return false
    else return false
  else return false

/-- The rule of a header that ends in a colon: a header word has to have something behind it. -/
def headerRule (start stop last : Nat) : Checked (Option Rule) := do
  if ← isWordAt t .ident start "fun" then return some (if ← isFunctionHeader t start stop last then .function else .opener)
  else if ← isWordAt t .ident start "if" then return some (if 2 < (← minus stop start) then .if_ else .opener)
  else if ← isWordAt t .ident start "elif" then return some (if 2 < (← minus stop start) then .elif else .opener)
  else if ← isWordAt t .ident start "while" then return some (if 2 < (← minus stop start) then .while_ else .opener)
  else if ← isWordAt t .ident start "else" then return (if (← minus stop start) = 2 then some .else_ else none)
  else return none

/-- The statement in front of an index is the last of its line. -/
def endsLine (stop last : Nat) : Checked Bool := do
  if stop = t.marks.length then return true
  else return (← markAt t stop).span.line != (← endLine t (← markAt t last))

/-- The rule of a statement that is neither a binding nor a header. -/
def simpleRule (start stop last : Nat) (terminated opens : Bool) : Checked Rule := do
  if terminated && (← isWordAt t .ident start "say") then return .say
  else if terminated && (← isWordAt t .ident start "ask") then return .ask
  else if opens && (← endsLine t stop last) then return .opener
  else return .verbatim

/-- The rule of the statement between two indices. -/
def classify (start stop : Nat) : Checked Rule := do
  let last ← minus stop 1
  let terminated ← isWordAt t .symbol last ";"
  let opens ← isWordAt t .symbol last ":"
  if ← binds t start stop terminated then return .binding
  else if opens then
    match ← headerRule t start stop last with
    | some rule => return rule
    | none => simpleRule t start stop last terminated opens
  else simpleRule t start stop last terminated opens

/-- The statement between two indices. -/
def stretch (start stop : Nat) : Checked Stretch := do
  let line := (← markAt t start).span.line
  let endLine ← endLine t (← markAt t (← minus stop 1))
  return ⟨start, stop, line, endLine, ← lineIndent t line, ← classify t start stop⟩

/-- The statements from an index on. -/
def split : Nat → Nat → Checked (List Stretch)
  | 0, _ => .error .endless
  | fuel + 1, start => do
    if start < t.marks.length then
      let header ← headerWords.anyM fun word => isWordAt t .ident start word
      let stop ← statementStop t header fuel 0 start
      return (← stretch t start stop) :: (← split fuel stop)
    else return []

end

/-! ## Blocks -/

mutual

/-- A simple statement, or a block with the alternates attached to it, by the indices of the statements. -/
inductive Node
  | simple (index : Nat)
  | block (first : Branch) (alternates : List Branch)
  deriving Repr

/-- The index of a header and the body of its block. -/
inductive Branch
  | mk (header : Nat) (body : List Node)
  deriving Repr

end

section

variable (row : List Stretch)

/-- The statement of an index. -/
def stretchAt (index : Nat) : Checked Stretch :=
  match row[index]? with
  | some stretch => .ok stretch
  | none => .error (.statement index)

/-- A frame accepts a statement. -/
def accepts (alternate : Bool) (s : Stretch) : Frame → Bool
  | .inline line => s.line == line && (alternate || !s.rule.isAlternate)
  | .indented floor => floor < s.indent
  | .flat indent => indent ≤ s.indent && !s.rule.isHeader

/-- All frames accept the statement of an index. -/
def allAccept (frames : List Frame) (alternate : Bool) (index : Nat) : Checked Bool := do
  let s ← stretchAt row index
  return frames.all (accepts alternate s)

/-- The frame of the block of a header, from the statement that follows it. -/
def frameOf (header position : Nat) : Checked Frame := do
  let s ← stretchAt row header
  match row[position]? with
  | none => return .flat s.indent
  | some next =>
    if next.line = s.endLine then return .inline s.endLine
    else if s.indent < next.indent then return .indented s.indent
    else return .flat s.indent

/-- The statement of an index is an alternate attached to an `if`. -/
def isAttached (frames : List Frame) (header previous index : Nat) : Checked Bool := do
  let s ← stretchAt row index
  if s.rule.isAlternate then
    if s.line = (← stretchAt row previous).endLine then allAccept row frames true index
    else if s.indent = (← stretchAt row header).indent then allAccept row frames true index
    else return false
  else return false

mutual

/-- The nodes from a position on that all frames accept, and the position behind them. -/
def parseNodes : Nat → List Frame → Nat → Checked (List Node × Nat)
  | 0, _, _ => .error .endless
  | fuel + 1, frames, position => do
    if position < row.length then
      if ← allAccept row frames false position then
        let (node, position) ← parseNode fuel frames position
        let (nodes, position) ← parseNodes fuel frames position
        return (node :: nodes, position)
      else return ([], position)
    else return ([], position)

/-- The node of the statement at a position, and the position behind it. -/
def parseNode : Nat → List Frame → Nat → Checked (Node × Nat)
  | 0, _, _ => .error .endless
  | fuel + 1, frames, header => do
    let rule := (← stretchAt row header).rule
    if !rule.opensBlock then return (.simple header, header + 1)
    else
      let (body, position) ← parseBody fuel frames header (header + 1)
      if rule = .if_ then
        let (alternates, position) ← parseAlternates fuel frames header header position
        return (.block (.mk header body) alternates, position)
      else return (.block (.mk header body) [], position)

/-- The body of a header, from a position on, and the position behind it. -/
def parseBody : Nat → List Frame → Nat → Nat → Checked (List Node × Nat)
  | 0, _, _, _ => .error .endless
  | fuel + 1, frames, header, position => do
    let frame ← frameOf row header position
    parseNodes fuel (frame :: frames) position

/-- The alternates attached to an `if`, from a position on, and the position behind them. -/
def parseAlternates : Nat → List Frame → Nat → Nat → Nat → Checked (List Branch × Nat)
  | 0, _, _, _, _ => .error .endless
  | fuel + 1, frames, header, previous, position => do
    if position < row.length then
      if ← isAttached row frames header previous position then
        let isElse := (← stretchAt row position).rule = .else_
        let (body, next) ← parseBody fuel frames position (position + 1)
        if isElse then return ([.mk position body], next)
        else
          let (alternates, after) ← parseAlternates fuel frames header position next
          return (.mk position body :: alternates, after)
      else return ([], position)
    else return ([], position)

end

end

/-! ## Text -/

section

variable (t : Table)

/-- The end of the operand of an `ask`, among so many tokens from an index on, if they reach up to `stop`. -/
def operandStopFrom (stop depth index : Nat) : Nat → Checked Nat
  | 0 => return stop
  | count + 1 => do
    let mark ← markAt t index
    if ← isOpen t mark then operandStopFrom stop (depth + 1) (index + 1) count
    else if ← isClose t mark then
      if depth = 0 then return index else operandStopFrom stop (← minus depth 1) (index + 1) count
    else if depth = 0 then
      if ← isWord t .symbol mark "," then return index else operandStopFrom stop depth (index + 1) count
    else operandStopFrom stop depth (index + 1) count

/-- The end of the operand of an `ask`, from an index on. -/
def operandStop (start stop : Nat) : Checked Nat := operandStopFrom t stop 0 start (stop - start)

/-- What stands in front of a token of a row: nothing is kept in front of the first. -/
def gapBefore (start index : Nat) (mark : Mark) : Checked String := do
  if start < index then
    let previous ← markAt t (← minus index 1)
    slice t.contents (← previous.extent).2 (← mark.extent).1
  else return ""

/-- A token of a row stands behind a dot of the row. -/
def afterDot (start index : Nat) : Checked Bool := do
  if start < index then isWordAt t .symbol (← minus index 1) "." else return false

/-- The word that a token is, unless it is a member name. -/
def replacedWord? (afterDot : Bool) (mark : Mark) : Checked (Option String) := do
  if mark.kind = .ident && !afterDot then return some (← textOf t mark) else return none

/-- Writes the rest of a row of tokens, from an index of it on. -/
def expressionFrom : Nat → Nat → Nat → Nat → Checked String
  | 0, _, _, _ => .error .endless
  | fuel + 1, start, stop, index => do
    if index < stop then
      let mark ← markAt t index
      let gap ← gapBefore t start index mark
      let word ← replacedWord? t (← afterDot t start index) mark
      if word = some "exports" then return gap ++ hostAlias ++ ".exports" ++ (← expressionFrom fuel start stop (index + 1))
      else if word = some "ask" then
        let operandStop ← operandStop t (index + 1) stop
        let operand ← expressionFrom fuel (index + 1) operandStop (index + 1)
        return gap ++ hostAlias ++ ".input(" ++ operand ++ ")" ++ (← expressionFrom fuel start stop operandStop)
      else
        let (first, last) ← mark.extent
        return gap ++ (← slice t.contents first last) ++ (← expressionFrom fuel start stop (index + 1))
    else return ""

variable (fuel : Nat)

/-- Writes the tokens between two indices as an expression. -/
def expression (start stop : Nat) : Checked String := expressionFrom t fuel start stop start

/-- Writes the condition of a header, without brackets around all of it. -/
def condition (s : Stretch) : Checked String := do
  let start := s.start + 1
  let stop ← minus s.stop 1
  if ← isWordAt t .symbol start "(" then
    if (← matching t start stop) = some (← minus stop 1) then expression t fuel (start + 1) (← minus stop 1)
    else expression t fuel start stop
  else expression t fuel start stop

/-- Writes a simple statement. -/
def simpleText (known : List String) (s : Stretch) : Checked String := do
  match s.rule with
  | .binding =>
    let name ← textOf t (← markAt t s.start)
    let assignment := name ++ " = " ++ (← expression t fuel (s.start + 2) (← minus s.stop 1)) ++ ";"
    return if known.contains name then assignment else "let " ++ assignment
  | .say => return hostAlias ++ ".output(" ++ (← expression t fuel (s.start + 1) (← minus s.stop 1)) ++ ");"
  | .ask => return hostAlias ++ ".input(" ++ (← expression t fuel (s.start + 1) (← minus s.stop 1)) ++ ");"
  | _ =>
    if ← isWordAt t .symbol (← minus s.stop 1) ";" then return (← expression t fuel s.start (← minus s.stop 1)) ++ ";"
    else expression t fuel s.start s.stop

/-- Writes the header of a block. -/
def headerText (alternate : Bool) (s : Stretch) : Checked String := do
  let close := if alternate then "\x7d " else ""
  match s.rule with
  | .function =>
    let name ← textOf t (← markAt t (s.start + 1))
    return "function " ++ name ++ "(" ++ (← expression t fuel (s.start + 3) (← minus s.stop 2)) ++ ") \x7b"
  | .if_ => return "if (" ++ (← condition t fuel s) ++ ") \x7b"
  | .elif => return close ++ "else if (" ++ (← condition t fuel s) ++ ") \x7b"
  | .else_ => return close ++ "else \x7b"
  | .while_ => return "while (" ++ (← condition t fuel s) ++ ") \x7b"
  | _ => return (← expression t fuel s.start (← minus s.stop 1)) ++ " \x7b"

/-- The name that a statement declares in the block in which it stands. -/
def declaredName? (s : Stretch) : Checked (Option String) := do
  match s.rule with
  | .binding => return some (← textOf t (← markAt t s.start))
  | .function => return some (← textOf t (← markAt t (s.start + 1)))
  | _ => return none

/-- The names among so many tokens from an index on. -/
def namesFrom (index : Nat) : Nat → Checked (List String)
  | 0 => return []
  | count + 1 => do
    let mark ← markAt t index
    if mark.kind = .ident then return (← textOf t mark) :: (← namesFrom (index + 1) count) else namesFrom (index + 1) count

/-- The names that a header declares inside its block: the parameters of a function. -/
def parameterNames (s : Stretch) : Checked (List String) := do
  if s.rule = .function then namesFrom t (s.start + 3) ((← minus s.stop 2) - (s.start + 3)) else return []

variable (row : List Stretch)

/-- The name that the header of a branch declares around its block. -/
def branchNames : Branch → Checked (List String)
  | .mk header _ => do return (← declaredName? t (← stretchAt row header)).toList

mutual

/-- Writes nodes at a depth as lines. -/
def nodeLines (depth : Nat) (known : List String) : List Node → Checked (List String)
  | [] => return []
  | .simple index :: rest => do
    let s ← stretchAt row index
    let text ← simpleText t fuel known s
    return indentLine depth text :: (← nodeLines depth ((← declaredName? t s).toList ++ known) rest)
  | .block first alternates :: rest => do
    let lines ← branchLines depth known false first
    let more ← alternateLines depth known alternates
    return lines ++ more ++ [indentLine depth "\x7d"] ++ (← nodeLines depth ((← branchNames t row first) ++ known) rest)

/-- Writes a header and its body as lines. -/
def branchLines (depth : Nat) (known : List String) (alternate : Bool) : Branch → Checked (List String)
  | .mk header body => do
    let s ← stretchAt row header
    let text ← headerText t fuel alternate s
    let inside := (← parameterNames t s) ++ ((← declaredName? t s).toList ++ known)
    return indentLine depth text :: (← nodeLines (depth + 1) inside body)

/-- Writes alternates as lines. -/
def alternateLines (depth : Nat) (known : List String) : List Branch → Checked (List String)
  | [] => return []
  | branch :: rest => do return (← branchLines depth known true branch) ++ (← alternateLines depth known rest)

end

end

/-- The byte offset behind the last token. -/
def resumeAt (t : Table) : Checked Nat :=
  match t.marks.getLast? with
  | some last => do return (← last.extent).2
  | none => return 0

/-- What the reading of tokens has left of a source: the text behind the last token, if it has stopped. -/
def tail (t : Table) : Lexer.Ending → Checked String
  | .complete _ _ => return ""
  | .stopped _ _ => do return Text.trim (← slice t.contents (← resumeAt t) (byteLength t.contents))

/-- Renders a source as the text of a host script. -/
def render (fuel : Nat) (source : Source) : Checked String := do
  let t := Table.ofSource source
  let tail ← tail t source.scan.ending
  let row ← split t fuel 0
  let (nodes, _) ← parseNodes row fuel [] 0
  let lines := (← nodeLines t fuel row 0 [] nodes) ++ (if tail.isEmpty then [] else [tail])
  return lines.foldl (fun text line => text ++ "\n" ++ line) (hostImportLine ++ "\n") ++ "\n"

/-- The greatest length in bytes of a text that is rendered. Offsets take 32 bits. -/
def greatestLength : Nat := 0xFFFFFFFF - 2

/-- Renders a text. One that is too long is copied. -/
def translate (fuel : Nat) (text : String) : Checked String :=
  if greatestLength < byteLength text.toList then return hostImportLine ++ "\n\n" ++ text else render fuel ⟨"<source>", text⟩

end HostScript.Dialect.Indexed
