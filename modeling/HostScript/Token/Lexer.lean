import HostScript.Json.Text
import HostScript.Number.Text
import HostScript.Token.Basic

/-!
# From text to tokens

`Source.scan` cuts a text into tokens, up to its end or the first place where no token can be read. The dialect and the host
script have the same tokens.

Columns count one for a character, four for a tab, and the bytes of a character between double quotes. They are counted in 32 bits.
-/

namespace HostScript

/-- Where a character stands. -/
structure Position where
  line : Nat
  column : Nat
  offset : Nat
  deriving DecidableEq, Repr

namespace Position

/-- The beginning of a text. -/
def origin : Position := ⟨1, 1, 0⟩

/-- The position after a character that takes `width` columns. -/
def pass (pos : Position) (c : Char) (width : Nat) : Position :=
  ⟨pos.line, addColumns pos.column width, pos.offset + c.utf8Size⟩

/-- The position after a line end. -/
def newline (pos : Position) : Position := ⟨pos.line + 1, 1, pos.offset + 1⟩

/-- The position after a character of a raw string. -/
def passRaw (pos : Position) (c : Char) : Position :=
  if c == '\n' then pos.newline else pos.pass c (if c == '\t' then 4 else 1)

/-- The position after a text whose columns are its bytes. -/
def passBytes (pos : Position) (text : List Char) : Position :=
  ⟨pos.line, addColumns pos.column (byteLength text), pos.offset + byteLength text⟩

end Position

/-- Why no token can be read. -/
inductive LexProblem
  | strayReturn
  | invalidCharacter
  | invalidNumber
  | unmatchedQuote
  | unmatchedBacktick
  | controlCharacter
  | invalidEscape (error : Json.Error)
  deriving DecidableEq, Repr

/-- A place where no token can be read. -/
structure LexFault where
  problem : LexProblem
  line : Nat
  column : Nat
  deriving DecidableEq, Repr

/-- The diagnostic of a place where no token can be read. -/
def LexFault.message (source : Source) (fault : LexFault) : String :=
  let here := source.errorAt fault.line fault.column
  match fault.problem with
  | .strayReturn => here "\\r must be followed by \\n"
  | .invalidCharacter => here "invalid character"
  | .invalidNumber => here "invalid number"
  | .unmatchedQuote => here "unmatched \""
  | .unmatchedBacktick => here "unmatched `"
  | .controlCharacter => here "invalid character in string"
  | .invalidEscape e => here "invalid escape sequence:" ++ " " ++ e.message

namespace Lexer

/-- A fault at a position. -/
def faultAt (pos : Position) (problem : LexProblem) : LexFault := ⟨problem, pos.line, pos.column⟩

/-- Reads blanks, line ends and comments. A carriage return has to be followed by a line feed; a comment runs to the end of its
line and takes no columns. Gives the gap in reverse, the rest and its position. -/
def skipGap (comment : Bool) (gap : List Char) (pos : Position) :
    List Char → Except LexFault (List Char × List Char × Position)
  | [] => .ok (gap, [], pos)
  | c :: rest =>
    if c == '\n' then skipGap false (c :: gap) pos.newline rest
    else if comment then skipGap true (c :: gap) (pos.pass c 0) rest
    else if c == ' ' then skipGap false (c :: gap) (pos.pass c 1) rest
    else if c == '\t' then skipGap false (c :: gap) (pos.pass c 4) rest
    else if c == '#' then skipGap true (c :: gap) (pos.pass c 0) rest
    else if c == '\r' then
      if rest.head? == some '\n' then skipGap false (c :: gap) (pos.pass c 0) rest
      else .error (faultAt pos .strayReturn)
    else .ok (gap, c :: rest, pos)

/-- A letter or an underscore begins a word. -/
def isIdentStart (c : Char) : Bool := c.isAlpha || c == '_'

/-- Letters, digits and underscores continue a word. -/
def isIdentPart (c : Char) : Bool := c.isAlphanum || c == '_'

/-- The digits in front of a text. -/
def splitDigits (text : List Char) : List Char × List Char := (text.takeWhile Char.isDigit, text.dropWhile Char.isDigit)

/-- The whole part of a number: a zero stands alone. -/
def splitWhole : List Char → List Char × List Char
  | '0' :: rest => (['0'], rest)
  | text => splitDigits text

/-- A point with at least one digit after it, if there is one. -/
def splitFraction : List Char → List Char × List Char
  | '.' :: rest =>
    let (digits, after) := splitDigits rest
    if digits.isEmpty then ([], '.' :: rest) else ('.' :: digits, after)
  | text => ([], text)

/-- The mark of an exponent with its sign and digits, if there is one. The digits may be missing. -/
def splitExponent : List Char → List Char × List Char
  | [] => ([], [])
  | c :: rest =>
    if c == 'e' || c == 'E' then
      let (sign, rest) := match rest with
        | '+' :: after => (['+'], after)
        | '-' :: after => (['-'], after)
        | after => ([], after)
      let (digits, after) := splitDigits rest
      (c :: sign ++ digits, after)
    else ([], c :: rest)

/-- The unsigned number in front of a text, and what follows it. -/
def splitNumber (text : List Char) : List Char × List Char :=
  let (whole, rest) := splitWhole text
  let (fraction, rest) := splitFraction rest
  let (exponent, rest) := splitExponent rest
  (whole ++ fraction ++ exponent, rest)

/-- A character that must not follow a number. -/
def extendsNumber (c : Char) : Bool := c == '_' || c == '.' || c.isAlphanum

/-- The characters between double quotes, after the opening quote, and what follows the closing one. A backslash takes the next
character with it. `body` holds what has been read, in reverse. -/
def splitString (opening : Position) (body : List Char) : List Char → Except LexFault (List Char × List Char)
  | [] => .error (faultAt opening .unmatchedQuote)
  | '"' :: rest => .ok (body.reverse, rest)
  | '\\' :: [] => .error (faultAt opening .unmatchedQuote)
  | '\\' :: c :: rest => splitString opening (c :: '\\' :: body) rest
  | c :: rest =>
    if c.toNat < 0x20 then .error ⟨.controlCharacter, opening.line, addColumns (addColumns opening.column 1) (byteLength body)⟩
    else splitString opening (c :: body) rest

/-- Symbols of two characters. -/
def pairedSymbols : List (Char × Char) := [('<', '='), ('>', '='), ('=', '='), ('!', '='), ('&', '&'), ('|', '|')]

/-- Symbols of one character. -/
def singleSymbols : List Char :=
  ['\x7b', '\x7d', '[', ']', '(', ')', '+', '-', '*', '/', '%', ',', ';', '.', ':', '<', '>', '=', '!']

/-- What is read at a position: the class, the characters of the token's text and of its written form, what follows, and the
position after it. -/
structure Piece where
  kind : TokenKind
  span : Span
  text : List Char
  rest : List Char
  after : Position

/-- A token whose text is its written form and whose columns are its bytes. -/
def plainPiece (kind : TokenKind) (pos : Position) (text rest : List Char) : Piece :=
  let after := pos.passBytes text
  ⟨kind, ⟨pos.line, pos.column, pos.offset, after.offset⟩, text, rest, after⟩

/-- Reads a number. It must not run into a letter, a digit, an underscore or a point, and must be finite. -/
def readNumber (pos : Position) (text : List Char) : Except LexFault Piece :=
  let (literal, rest) := splitNumber text
  let piece := plainPiece .number pos literal rest
  if rest.head?.any extendsNumber then .error (faultAt piece.after .invalidNumber)
  else match Number.ofText? (String.ofList literal) with
    | some _ => .ok piece
    | none => .error (faultAt pos .invalidNumber)

/-- Reads a string between double quotes, after its opening quote. Its escapes are those of data. -/
def readString (pos : Position) (text : List Char) : Except LexFault Piece := do
  let (body, rest) ← splitString pos [] text
  let inside := pos.passBytes ['"']
  let after := inside.passBytes body
  match Json.unquote (String.ofList ('"' :: body ++ ['"'])) with
  | .ok _ => return ⟨.string, ⟨pos.line, inside.column, inside.offset, after.offset⟩, body, rest, after.passBytes ['"']⟩
  | .error e => .error (faultAt pos (.invalidEscape e))

/-- Reads a raw string, after its opening quote. -/
def readRawString (pos : Position) (text : List Char) : Except LexFault Piece :=
  let body := text.takeWhile (· != '\x60')
  match text.dropWhile (· != '\x60') with
  | [] => .error (faultAt pos .unmatchedBacktick)
  | quote :: rest =>
    let inside := pos.pass quote 1
    let after := body.foldl Position.passRaw inside
    .ok ⟨.rawString, ⟨pos.line, inside.column, inside.offset, after.offset⟩, body, rest, after.pass quote 1⟩

/-- Reads the token that starts with `c`. -/
def readToken (pos : Position) (c : Char) (rest : List Char) : Except LexFault Piece :=
  if c == '"' then readString pos rest
  else if c == '\x60' then readRawString pos rest
  else if c.isDigit then readNumber pos (c :: rest)
  else if isIdentStart c then
    .ok (plainPiece .ident pos (c :: rest.takeWhile isIdentPart) (rest.dropWhile isIdentPart))
  else match rest with
    | d :: after =>
      if (c, d) ∈ pairedSymbols then .ok (plainPiece .symbol pos [c, d] after)
      else if c ∈ singleSymbols then .ok (plainPiece .symbol pos [c] rest)
      else .error (faultAt pos .invalidCharacter)
    | [] =>
      if c ∈ singleSymbols then .ok (plainPiece .symbol pos [c] rest) else .error (faultAt pos .invalidCharacter)

/-- How the reading of tokens ends. -/
inductive Ending
  /-- At the end of the text, after a last gap. -/
  | complete (gap : String) (pos : Position)
  /-- At a fault; the rest is all that follows the last token. -/
  | stopped (fault : LexFault) (rest : String)
  deriving DecidableEq, Repr

theorem skipGap_length {comment : Bool} {gap text gap' rest : List Char} {pos pos' : Position}
    (h : skipGap comment gap pos text = .ok (gap', rest, pos')) : rest.length ≤ text.length := by
  fun_induction skipGap comment gap pos text with
  | case1 =>
    cases h
    exact Nat.le_refl _
  | case2 | case3 | case4 | case5 | case6 | case7 => exact Nat.le_succ_of_le (by simp_all)
  | case8 => cases h
  | case9 =>
    cases h
    exact Nat.le_refl _

theorem splitDigits_length (text : List Char) : (splitDigits text).2.length ≤ text.length :=
  (List.dropWhile_sublist _).length_le

theorem splitFraction_length (text : List Char) : (splitFraction text).2.length ≤ text.length := by
  unfold splitFraction
  split
  · simp only
    split
    · exact Nat.le_refl _
    · exact Nat.le_succ_of_le (splitDigits_length _)
  · exact Nat.le_refl _

theorem splitExponent_length (text : List Char) : (splitExponent text).2.length ≤ text.length := by
  unfold splitExponent
  split
  · simp
  · split
    · simp only
      refine Nat.le_trans (splitDigits_length _) ?_
      split <;> simp <;> omega
    · simp

theorem splitWhole_length {c : Char} (rest : List Char) (h : c.isDigit) :
    (splitWhole (c :: rest)).2.length ≤ rest.length := by
  unfold splitWhole
  split
  · simp_all
  · simpa [splitDigits, h] using (List.dropWhile_sublist _).length_le

theorem splitNumber_length {c : Char} (rest : List Char) (h : c.isDigit) :
    (splitNumber (c :: rest)).2.length ≤ rest.length :=
  Nat.le_trans (splitExponent_length _) (Nat.le_trans (splitFraction_length _) (splitWhole_length rest h))

theorem splitString_length {opening : Position} {body text body' rest : List Char}
    (h : splitString opening body text = .ok (body', rest)) : rest.length ≤ text.length := by
  fun_induction splitString opening body text with
  | case1 => cases h
  | case2 =>
    cases h
    simp
  | case3 => cases h
  | case4 body c text ih => exact Nat.le_succ_of_le (Nat.le_succ_of_le (ih h))
  | case5 => cases h
  | case6 body c text _ _ _ _ ih => exact Nat.le_succ_of_le (ih h)

theorem readToken_length {pos : Position} {c : Char} {rest : List Char} {piece : Piece}
    (h : readToken pos c rest = .ok piece) : piece.rest.length ≤ rest.length := by
  unfold readToken at h
  split at h
  · unfold readString at h
    rcases hs : splitString pos [] rest with e | ⟨body, after⟩
    · simp [hs, bind, Except.bind] at h
    · simp only [hs, bind, Except.bind] at h
      split at h
      · cases h
        exact splitString_length hs
      · cases h
  · split at h
    · unfold readRawString at h
      simp only at h
      split at h
      · cases h
      · rename_i hd
        cases h
        have : (rest.dropWhile (· != '\x60')).length ≤ rest.length := (List.dropWhile_sublist _).length_le
        simp only [hd, List.length_cons] at this
        exact Nat.le_of_succ_le this
    · split at h
      · rename_i hdigit
        unfold readNumber at h
        simp only at h
        split at h
        · cases h
        · split at h
          · cases h
            exact splitNumber_length rest hdigit
          · cases h
      · split at h
        · cases h
          exact (List.dropWhile_sublist _).length_le
        · split at h
          · split at h
            · cases h
              exact Nat.le_succ _
            · split at h
              · cases h
                exact Nat.le_refl _
              · cases h
          · split at h
            · cases h
              exact Nat.le_refl _
            · cases h

/-- Reads tokens from a position on. -/
def scanFrom (pos : Position) (text : List Char) : List Token × Ending :=
  match hGap : skipGap false [] pos text with
  | .error fault => ([], .stopped fault (String.ofList text))
  | .ok (gap, [], here) => ([], .complete (String.ofList gap.reverse) here)
  | .ok (gap, c :: rest, here) => match hToken : readToken here c rest with
    | .error fault => ([], .stopped fault (String.ofList text))
    | .ok piece =>
      have : piece.rest.length < text.length := Nat.lt_of_le_of_lt (readToken_length hToken) (skipGap_length hGap)
      let (tokens, ending) := scanFrom piece.after piece.rest
      (⟨piece.kind, piece.span, String.ofList piece.text, String.ofList gap.reverse⟩ :: tokens, ending)
termination_by text.length

end Lexer

/-- The tokens of a text and how their reading ends. -/
structure Scan where
  tokens : List Token
  ending : Lexer.Ending
  deriving DecidableEq, Repr

/-- Cuts a source into tokens. -/
def Source.scan (source : Source) : Scan :=
  let (tokens, ending) := Lexer.scanFrom .origin source.text.toList
  ⟨tokens, ending⟩

end HostScript
