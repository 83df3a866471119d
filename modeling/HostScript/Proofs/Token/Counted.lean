import Mathlib
import HostScript.Proofs.Token.Columns

/-!
# Reading with counters of a fixed size

`Source.scan` and `Source.lineIndent` count columns in 32 bits and begin again behind the greatest. Here lines and columns are counted by
counters that hold the numbers up to a limit of 32 bits, and a sum beyond the limit is no result. A character takes at most as many
columns as it has bytes, but a tab takes four. So what is counted is exact if there is room for four columns for every tab and for one for
every other byte (`counted_room`), which there is for every text of less than a quarter of the numbers (`counted_small`); and a text of
that many tabs has no result (`counted_tabs`).
-/

namespace HostScript.Counted

open Lexer (Piece Ending)

/-- The greatest number that a counter of 32 bits holds. -/
def maxCount : UInt32 := 4294967295

theorem maxCount_toNat : maxCount.toNat = 4294967295 := rfl

/-- The number of bytes that a source has at most. -/
def maxSize : Nat := maxCount.toNat - 2

section

variable (limit : UInt32)

/-! ## Counted reading -/

/-- A sum, if a counter holds it. -/
def add (n m : Nat) : Option Nat := if n + m ≤ limit.toNat then some (n + m) else none

/-- The position after a character that takes `width` columns. -/
def pass (pos : Position) (c : Char) (width : Nat) : Option Position := do
  return ⟨pos.line, ← add limit pos.column width, pos.offset + c.utf8Size⟩

/-- The position after a line end. -/
def newline (pos : Position) : Option Position := do return ⟨← add limit pos.line 1, 1, pos.offset + 1⟩

/-- The position after a character of a raw string. -/
def passRaw (pos : Position) (c : Char) : Option Position :=
  if c == '\n' then newline limit pos else pass limit pos c (if c == '\t' then 4 else 1)

/-- The position after a text whose columns are its bytes. -/
def passBytes (pos : Position) (text : List Char) : Option Position := do
  return ⟨pos.line, ← add limit pos.column (byteLength text), pos.offset + byteLength text⟩

/-- Reads blanks, line ends and comments. -/
def skipGap (comment : Bool) (gap : List Char) (pos : Position) :
    List Char → Option (Except LexFault (List Char × List Char × Position))
  | [] => some (.ok (gap, [], pos))
  | c :: rest =>
    if c == '\n' then do skipGap false (c :: gap) (← newline limit pos) rest
    else if comment then skipGap true (c :: gap) (pos.pass c 0) rest
    else if c == ' ' then do skipGap false (c :: gap) (← pass limit pos c 1) rest
    else if c == '\t' then do skipGap false (c :: gap) (← pass limit pos c 4) rest
    else if c == '#' then skipGap true (c :: gap) (pos.pass c 0) rest
    else if c == '\r' then
      if rest.head? == some '\n' then skipGap false (c :: gap) (pos.pass c 0) rest
      else some (.error (Lexer.faultAt pos .strayReturn))
    else some (.ok (gap, c :: rest, pos))

/-- The column behind an opening quote and what has been read after it. -/
def columnAfter (opening : Position) (body : List Char) : Option Nat := do
  add limit (← add limit opening.column 1) (byteLength body)

/-- The characters between double quotes, and what follows the closing one. The column is counted anew in front of each character, and at
the end of the text. -/
def splitString (opening : Position) (body : List Char) : List Char → Option (Except LexFault (List Char × List Char))
  | [] => do
    let _ ← columnAfter limit opening body
    return .error (Lexer.faultAt opening .unmatchedQuote)
  | '"' :: rest => do
    let _ ← columnAfter limit opening body
    return .ok (body.reverse, rest)
  | '\\' :: [] => do
    let _ ← columnAfter limit opening body
    let _ ← columnAfter limit opening ('\\' :: body)
    return .error (Lexer.faultAt opening .unmatchedQuote)
  | '\\' :: c :: rest => do
    let _ ← columnAfter limit opening body
    splitString opening (c :: '\\' :: body) rest
  | c :: rest => do
    let column ← columnAfter limit opening body
    if c.toNat < 0x20 then return .error ⟨.controlCharacter, opening.line, column⟩ else splitString opening (c :: body) rest

/-- A token whose text is its written form and whose columns are its bytes. -/
def plainPiece (kind : TokenKind) (pos : Position) (text rest : List Char) : Option Piece := do
  let after ← passBytes limit pos text
  return ⟨kind, ⟨pos.line, pos.column, pos.offset, after.offset⟩, text, rest, after⟩

/-- Reads a number. -/
def readNumber (pos : Position) (text : List Char) : Option (Except LexFault Piece) := do
  let (literal, rest) := Lexer.splitNumber text
  let piece ← plainPiece limit .number pos literal rest
  if rest.head?.any Lexer.extendsNumber then return .error (Lexer.faultAt piece.after .invalidNumber)
  else match Number.ofText? (String.ofList literal) with
    | some _ => return .ok piece
    | none => return .error (Lexer.faultAt pos .invalidNumber)

/-- Reads a string between double quotes, after its opening quote. -/
def readString (pos : Position) (text : List Char) : Option (Except LexFault Piece) := do
  match ← splitString limit pos [] text with
  | .error fault => return .error fault
  | .ok (body, rest) =>
    let column ← add limit pos.column (← add limit (byteLength body + 1) 1)
    match Json.unquote (String.ofList ('"' :: body ++ ['"'])) with
    | .ok _ =>
      let start := pos.offset + 1
      let stop := start + byteLength body
      return .ok ⟨.string, ⟨pos.line, ← add limit pos.column 1, start, stop⟩, body, rest, ⟨pos.line, column, stop + 1⟩⟩
    | .error e => return .error (Lexer.faultAt pos (.invalidEscape e))

/-- Reads a raw string, after its opening quote. -/
def readRawString (pos : Position) (text : List Char) : Option (Except LexFault Piece) :=
  let body := text.takeWhile (· != '\x60')
  match text.dropWhile (· != '\x60') with
  | [] => do
    let _ ← body.foldlM (passRaw limit) (← pass limit pos '\x60' 1)
    return .error (Lexer.faultAt pos .unmatchedBacktick)
  | quote :: rest => do
    let inside ← pass limit pos quote 1
    let after ← body.foldlM (passRaw limit) inside
    return .ok ⟨.rawString, ⟨pos.line, inside.column, inside.offset, after.offset⟩, body, rest, ← pass limit after quote 1⟩

/-- Reads the token that starts with `c`. -/
def readToken (pos : Position) (c : Char) (rest : List Char) : Option (Except LexFault Piece) :=
  if c == '"' then readString limit pos rest
  else if c == '\x60' then readRawString limit pos rest
  else if c.isDigit then readNumber limit pos (c :: rest)
  else if Lexer.isIdentStart c then do
    return .ok (← plainPiece limit .ident pos (c :: rest.takeWhile Lexer.isIdentPart) (rest.dropWhile Lexer.isIdentPart))
  else match rest with
    | d :: after =>
      if Lexer.pairedSymbols.contains (c, d) then do return .ok (← plainPiece limit .symbol pos [c, d] after)
      else if c ∈ Lexer.singleSymbols then do return .ok (← plainPiece limit .symbol pos [c] rest)
      else return .error (Lexer.faultAt pos .invalidCharacter)
    | [] =>
      if c ∈ Lexer.singleSymbols then do return .ok (← plainPiece limit .symbol pos [c] rest)
      else return .error (Lexer.faultAt pos .invalidCharacter)

/-- The column of the first character of a line that is no blank. -/
def indent (line : Line) : Option Nat := do
  let blanks := line.text.takeWhile fun c => c == ' ' || c == '\t'
  add limit (← blanks.foldlM (fun columns c => add limit columns (if c == '\t' then 4 else 1)) 0) 1

/-- The indentation of the line of the given number. -/
def lineIndent (source : Source) (number : Nat) : Option Nat :=
  match source.lines[number - 1]? with
  | some line => indent limit line
  | none => add limit 0 1

end

/-! ## What is counted is exact -/

/-- What is counted is a given value if it is a result at all, and it is one under a condition. -/
structure Counts {α : Type} (enough : Prop) (counted : Option α) (exact : α) : Prop where
  sound : ∀ a, counted = some a → a = exact
  complete : enough → counted = some exact

variable {α β : Type} {enough enough' : Prop} {limit : UInt32}

/-- A result that is there counts without any condition. -/
theorem Counts.some (a : α) : Counts enough (some a) a := ⟨fun _ h => (Option.some.inj h).symm, fun _ => rfl⟩

/-- What counts under a condition counts under a stronger one. -/
theorem Counts.mono {x : Option α} {a : α} (h : Counts enough' x a) (henough : enough → enough') : Counts enough x a :=
  ⟨h.sound, fun he => h.complete (henough he)⟩

/-- Steps count one after another. -/
theorem Counts.bind {x : Option α} {a : α} {f : α → Option β} {b : β} (hx : Counts enough x a) (hf : Counts enough (f a) b) :
    Counts enough (x >>= f) b where
  sound b' h := by
    obtain ⟨a', ha, hb⟩ := Option.bind_eq_some_iff.mp h
    exact hf.sound b' (hx.sound a' ha ▸ hb)
  complete he := by
    rw [hx.complete he]
    exact hf.complete he

/-- A choice counts if both of its branches do. -/
theorem Counts.ite {c : Prop} [Decidable c] {x y : Option α} {a b : α} (hx : c → Counts enough x a) (hy : ¬ c → Counts enough y b) :
    Counts enough (if c then x else y) (if c then a else b) := by
  by_cases h : c
  · rw [if_pos h, if_pos h]
    exact hx h
  · rw [if_neg h, if_neg h]
    exact hy h

/-- An addition counts if there is room for the sum. -/
theorem counts_add {n m : Nat} (h : enough → n + m ≤ limit.toNat) : Counts enough (add limit n m) (n + m) where
  sound a ha := by
    unfold add at ha
    split at ha
    · exact (Option.some.inj ha).symm
    · nomatch ha
  complete he := if_pos (h he)

/-- What a counter holds is exact in 32 bits. -/
theorem counts_addColumns {column columns : Nat} (h : enough → column + columns ≤ limit.toNat) :
    Counts enough (add limit column columns) (addColumns column columns) where
  sound a ha := by
    obtain rfl := (counts_add h).sound a ha
    have hfits : column + columns ≤ limit.toNat := by
      unfold add at ha
      split at ha
      · assumption
      · nomatch ha
    exact (addColumns_eq (Nat.lt_of_le_of_lt hfits limit.toNat_lt)).symm
  complete he := by
    rw [(counts_add h).complete he, addColumns_eq (Nat.lt_of_le_of_lt (h he) limit.toNat_lt)]

/-! ## Room -/

/-- The columns that there have to be for a character: one for each byte, and four for a tab. -/
def weight (c : Char) : Nat := if c == '\t' then 4 else c.utf8Size

/-- The columns that there have to be for a text. -/
def room (text : List Char) : Nat := (text.map weight).sum

/-- The room of a text is that of its characters. -/
theorem room_cons (c : Char) (text : List Char) : room (c :: text) = weight c + room text := rfl

/-- Texts one behind the other need the sum of their rooms. -/
theorem room_append (text more : List Char) : room (text ++ more) = room text + room more := by
  unfold room
  rw [List.map_append, List.sum_append]

/-- No character has more bytes than its weight. -/
theorem utf8Size_le_weight (c : Char) : c.utf8Size ≤ weight c := by
  unfold weight
  split
  · rename_i htab
    rw [beq_iff_eq.mp htab]
    decide
  · exact Nat.le_refl _

/-- A character outside of quotes takes no more columns than its weight. -/
theorem width_le_weight (c : Char) : (if c == '\t' then 4 else 1) ≤ weight c := by
  unfold weight
  split
  · exact Nat.le_refl _
  · exact c.utf8Size_pos

/-- Every character has a weight. -/
theorem weight_pos (c : Char) : 1 ≤ weight c := Nat.le_trans c.utf8Size_pos (utf8Size_le_weight c)

/-- A text has no more bytes than the room it needs. -/
theorem byteLength_le_room (text : List Char) : byteLength text ≤ room text := by
  induction text with
  | nil => exact Nat.le_refl _
  | cons c text ih => exact Nat.add_le_add (utf8Size_le_weight c) ih

/-- A text takes one column for each byte, and three more for each tab. -/
theorem room_eq (text : List Char) : room text = byteLength text + 3 * text.count '\t' := by
  induction text with
  | nil => rfl
  | cons c text ih =>
    rw [room_cons, byteLength_cons, List.count_cons, ih, weight]
    split
    · rename_i htab
      have hsize : c.utf8Size = 1 := by rw [beq_iff_eq.mp htab]; rfl
      omega
    · omega

/-- Both counters of a position have room for a text. -/
structure Room (limit : UInt32) (pos : Position) (text : List Char) : Prop where
  column : pos.column + room text ≤ limit.toNat
  line : pos.line + room text ≤ limit.toNat

variable {pos : Position} {c : Char} {text rest : List Char}

/-- There is room behind a character whose columns are within its weight. -/
theorem Room.pass {width : Nat} (h : Room limit pos (c :: rest)) (hwidth : width ≤ weight c) : Room limit (pos.pass c width) rest := by
  obtain ⟨hcolumn, hline⟩ := h
  rw [room_cons] at hcolumn hline
  have hle := addColumns_le pos.column width
  exact ⟨by simp only [Position.pass]; omega, by simp only [Position.pass]; omega⟩

/-- A character that takes no more columns than its weight has room. -/
theorem Room.fits {width : Nat} (h : Room limit pos (c :: rest)) (hwidth : width ≤ weight c) : pos.column + width ≤ limit.toNat := by
  have hcolumn := h.column
  rw [room_cons] at hcolumn
  omega

/-- A line end has room. -/
theorem Room.fits_line (h : Room limit pos (c :: rest)) : pos.line + 1 ≤ limit.toNat := by
  have hweight := weight_pos c
  have hline := h.line
  rw [room_cons] at hline
  omega

/-- There is room behind a line end. -/
theorem Room.newline (h : Room limit pos (c :: rest)) : Room limit pos.newline rest := by
  obtain ⟨hcolumn, hline⟩ := h
  have hweight := weight_pos c
  rw [room_cons] at hcolumn hline
  exact ⟨by simp only [Position.newline]; omega, by simp only [Position.newline]; omega⟩

/-- There is room behind a character of a raw literal. -/
theorem Room.passRaw (h : Room limit pos (c :: rest)) : Room limit (pos.passRaw c) rest := by
  unfold Position.passRaw
  split
  · exact h.newline
  · exact h.pass (width_le_weight c)

/-- There is room behind a part of a raw literal. -/
theorem Room.passRaws (h : Room limit pos (text ++ rest)) : Room limit (text.foldl Position.passRaw pos) rest := by
  induction text generalizing pos with
  | nil => exact h
  | cons c text ih => exact ih h.passRaw

/-- There is room behind characters that are counted by their bytes. -/
theorem Room.passBytes (h : Room limit pos (text ++ rest)) : Room limit (pos.passBytes text) rest := by
  obtain ⟨hcolumn, hline⟩ := h
  have hbytes := byteLength_le_room text
  rw [room_append] at hcolumn hline
  have hle := addColumns_le pos.column (byteLength text)
  exact ⟨by simp only [Position.passBytes]; omega, by simp only [Position.passBytes]; omega⟩

/-- There is room behind a gap. -/
theorem Room.passGap {comment : Bool} (h : Room limit pos (text ++ rest)) : Room limit (Lexer.passGap comment pos text) rest := by
  induction text generalizing comment pos with
  | nil => exact h
  | cons c text ih =>
    refine ih ?_
    unfold Lexer.gapMove
    split
    · exact Room.newline h
    · refine Room.pass h (Nat.le_trans ?_ (width_le_weight c))
      by_cases htab : (c == '\t') = true
      · rw [if_pos htab, if_pos htab]
        repeat' split
        all_goals decide
      · rw [if_neg htab, if_neg htab]
        repeat' split
        all_goals decide

/-- Behind a token there is room for what follows it. -/
theorem Room.piece {piece : Piece} (h : Room limit pos text) (hread : Lexer.ReadAt pos text piece) : Room limit piece.after piece.rest := by
  have h : Room limit pos (Lexer.lexemeChars piece.kind piece.text ++ piece.rest) := hread.text_eq ▸ h
  rw [hread.eq_pieceOf, Lexer.pieceOf_rest]
  generalize piece.kind = kind at h
  generalize piece.text = text at h
  generalize piece.rest = rest at h
  cases kind with
  | string =>
    have hquote : Room limit (pos.passBytes ['"']) (text ++ (['"'] ++ rest)) := by
      refine Room.passBytes ?_
      simpa [Lexer.lexemeChars, Token.delimiter?] using h
    exact hquote.passBytes.passBytes
  | rawString =>
    have hquote : Room limit (pos.pass '\x60' 1) (text ++ ('\x60' :: rest)) := by
      refine Room.pass ?_ (by decide)
      simpa [Lexer.lexemeChars, Token.delimiter?] using h
    exact hquote.passRaws.pass (by decide)
  | symbol | ident | number => exact Room.passBytes h

/-! ## Reading -/

/-- Passing a character counts if there is room for its columns. -/
theorem counts_pass {width : Nat} (h : enough → pos.column + width ≤ limit.toNat) :
    Counts enough (pass limit pos c width) (pos.pass c width) :=
  (counts_addColumns h).bind (.some _)

/-- Passing a line end counts if there is room for one more line. -/
theorem counts_newline (h : enough → pos.line + 1 ≤ limit.toNat) : Counts enough (newline limit pos) pos.newline :=
  (counts_add h).bind (.some _)

/-- Passing bytes counts if there is room for them. -/
theorem counts_passBytes (h : enough → pos.column + byteLength text ≤ limit.toNat) :
    Counts enough (passBytes limit pos text) (pos.passBytes text) := (counts_addColumns h).bind (.some _)

/-- A token without line ends counts if there is room for its bytes. -/
theorem counts_plainPiece {kind : TokenKind} (h : enough → pos.column + byteLength text ≤ limit.toNat) :
    Counts enough (plainPiece limit kind pos text rest) (Lexer.plainPiece kind pos text rest) := (counts_passBytes h).bind (.some _)

/-- Passing a gap counts wherever there is room for the text. -/
theorem counts_skipGap (comment : Bool) (gap : List Char) (pos : Position) (text : List Char) :
    Counts (Room limit pos text) (skipGap limit comment gap pos text) (Lexer.skipGap comment gap pos text) := by
  induction text generalizing comment gap pos with
  | nil => exact .some _
  | cons c rest ih =>
    unfold skipGap Lexer.skipGap
    refine .ite (fun _ => ?newline) fun _ => .ite (fun _ => ?comment) fun _ => .ite (fun _ => ?space) fun _ =>
      .ite (fun htab => ?tab) fun _ => .ite (fun _ => ?hash) fun _ => .ite (fun _ => ?returned) fun _ => .some _
    case newline => exact (counts_newline Room.fits_line).bind ((ih _ _ _).mono Room.newline)
    case comment => exact (ih _ _ _).mono fun h => h.pass (Nat.zero_le _)
    case space => exact (counts_pass fun h => h.fits (weight_pos c)).bind ((ih _ _ _).mono fun h => h.pass (weight_pos c))
    case tab =>
      have htab : 4 ≤ weight c := by rw [weight, if_pos htab]
      exact (counts_pass fun h => h.fits htab).bind ((ih _ _ _).mono fun h => h.pass htab)
    case hash => exact (ih _ _ _).mono fun h => h.pass (Nat.zero_le _)
    case returned => exact .ite (fun _ => (ih _ _ _).mono fun h => h.pass (Nat.zero_le _)) fun _ => .some _

/-- Passing a character of a raw literal counts wherever there is room for it. -/
theorem counts_passRaw : Counts (Room limit pos (c :: rest)) (passRaw limit pos c) (pos.passRaw c) :=
  .ite (fun _ => counts_newline Room.fits_line) fun _ => counts_pass fun h => h.fits (width_le_weight c)

/-- Passing a part of a raw literal counts wherever there is room for it. -/
theorem counts_passRaws (text rest : List Char) (pos : Position) :
    Counts (Room limit pos (text ++ rest)) (text.foldlM (passRaw limit) pos) (text.foldl Position.passRaw pos) := by
  induction text generalizing pos with
  | nil => exact .some pos
  | cons c text ih => exact counts_passRaw.bind ((ih (pos.passRaw c)).mono Room.passRaw)

/-- The column behind a quoted literal counts if there is room for its quote and its bytes. -/
theorem counts_columnAfter {opening : Position} {body : List Char} (h : enough → opening.column + 1 + byteLength body ≤ limit.toNat) :
    Counts enough (columnAfter limit opening body) (addColumns (addColumns opening.column 1) (byteLength body)) := by
  refine (counts_addColumns fun he => Nat.le_trans (Nat.le_add_right _ _) (h he)).bind (counts_addColumns fun he => ?_)
  exact Nat.le_trans (Nat.add_le_add_right (addColumns_le _ _) _) (h he)

/-- Finding the end of a quoted literal counts if there is room for the bytes up to it. -/
theorem counts_splitString (opening : Position) (body text : List Char) :
    Counts (opening.column + 1 + byteLength body + byteLength text ≤ limit.toNat) (splitString limit opening body text)
      (Lexer.splitString opening body text) := by
  have hcolumn : opening.column + 1 + byteLength body + byteLength text ≤ limit.toNat →
      opening.column + 1 + byteLength body ≤ limit.toNat :=
    Nat.le_trans (Nat.le_add_right _ _)
  fun_induction Lexer.splitString opening body text with
  | case1 body => exact (counts_columnAfter hcolumn).bind (.some _)
  | case2 body rest => exact (counts_columnAfter hcolumn).bind (.some _)
  | case3 body =>
    refine (counts_columnAfter hcolumn).bind ((counts_columnAfter fun h => ?_).bind (.some _))
    rw [byteLength_cons]
    rw [byteLength_cons, byteLength_nil] at h
    omega
  | case4 body c rest ih =>
    refine (counts_columnAfter hcolumn).bind ((ih (by omega)).mono fun h => ?_)
    rw [byteLength_cons, byteLength_cons] at h ⊢
    omega
  | case5 body c rest hquote hend hescape hcontrol =>
    rw [splitString]
    · refine (counts_columnAfter hcolumn).bind ?_
      rw [if_pos hcontrol]
      exact .some _
    · exact hquote
    · exact hend
    · exact hescape
  | case6 body c rest hquote hend hescape hcontrol ih =>
    rw [splitString]
    · refine (counts_columnAfter hcolumn).bind ?_
      rw [if_neg hcontrol]
      refine (ih (by omega)).mono fun h => ?_
      rw [byteLength_cons] at h ⊢
      omega
    · exact hquote
    · exact hend
    · exact hescape

/-- Reading a number counts wherever there is room for the text. -/
theorem counts_readNumber (hc : c.isDigit) :
    Counts (Room limit pos (c :: rest)) (readNumber limit pos (c :: rest)) (Lexer.readNumber pos (c :: rest)) := by
  obtain ⟨literal, after, hsplit, htext, -⟩ := Lexer.splitNumber_ok rest hc
  unfold readNumber Lexer.readNumber
  rw [hsplit]
  refine Counts.bind (counts_plainPiece fun h => ?_) (.ite (fun _ => .some _) fun _ => ?_)
  · have hcolumn := h.column
    have hbytes := byteLength_le_room literal
    rw [htext, room_append] at hcolumn
    omega
  · cases Number.ofText? (String.ofList literal) <;> exact .some _

/-- Reading a quoted literal counts wherever there is room for the text. -/
theorem counts_readString : Counts (Room limit pos ('"' :: text)) (readString limit pos text) (Lexer.readString pos text) := by
  have hroom : Room limit pos ('"' :: text) → pos.column + 1 + byteLength text ≤ limit.toNat := by
    intro h
    have hcolumn := h.column
    have hbytes := byteLength_le_room text
    have hquote : weight '"' = 1 := rfl
    rw [room_cons] at hcolumn
    omega
  unfold readString Lexer.readString
  refine Counts.bind ((counts_splitString pos [] text).mono hroom) ?_
  rcases hsplit : Lexer.splitString pos [] text with fault | ⟨body, rest⟩
  · exact .some _
  · obtain ⟨inside, hbody, rfl, -⟩ := Lexer.splitString_ok hsplit
    obtain rfl : body = inside := hbody
    have hbytes : byteLength (body ++ '"' :: rest) = byteLength body + (1 + byteLength rest) := byteLength_append _ _
    have hcolumn : ∀ h : Room limit pos ('"' :: (body ++ '"' :: rest)), pos.column + (byteLength body + 1 + 1) ≤ limit.toNat := by
      intro h
      have := hroom h
      omega
    refine (counts_add fun h => ?_).bind ((counts_addColumns hcolumn).bind ?_)
    · have := hcolumn h
      omega
    · simp only [bind, Except.bind]
      cases Json.unquote (String.ofList ('"' :: body ++ ['"'])) with
      | error e => exact .some _
      | ok value =>
        have hafter : ((pos.passBytes ['"']).passBytes body).passBytes ['"'] =
            ⟨pos.line, addColumns pos.column (byteLength body + 1 + 1), pos.offset + 1 + byteLength body + 1⟩ := by
          have hquote : byteLength ['"'] = 1 := rfl
          simp only [Position.passBytes, hquote, addColumns_addColumns, Nat.add_comm 1, Nat.add_right_comm]
        refine (counts_addColumns fun h => ?_).bind ?_
        · have := hcolumn h
          omega
        · rw [hafter]
          exact .some _

/-- Reading a raw literal counts wherever there is room for the text. -/
theorem counts_readRawString :
    Counts (Room limit pos ('\x60' :: text)) (readRawString limit pos text) (Lexer.readRawString pos text) := by
  have hopens : Counts (Room limit pos ('\x60' :: text)) (pass limit pos '\x60' 1) (pos.pass '\x60' 1) :=
    counts_pass fun h => h.fits (by decide)
  have hinside : Room limit pos ('\x60' :: text) → Room limit (pos.pass '\x60' 1) text := fun h => h.pass (by decide)
  have htext : text.takeWhile (· != '\x60') ++ text.dropWhile (· != '\x60') = text := List.takeWhile_append_dropWhile
  unfold readRawString Lexer.readRawString
  dsimp only
  cases hdrop : text.dropWhile (· != '\x60') with
  | nil =>
    rw [hdrop] at htext
    exact hopens.bind (((counts_passRaws _ [] _).mono fun h => htext.symm ▸ hinside h).bind (.some _))
  | cons quote rest =>
    obtain rfl : quote = '\x60' := by
      have hhead : (text.dropWhile (· != '\x60')).head? = some quote := by rw [hdrop]; rfl
      simpa using Lexer.head_dropWhile quote hhead
    rw [hdrop] at htext
    have hbody : Room limit pos ('\x60' :: text) →
        Room limit (pos.pass '\x60' 1) (text.takeWhile (· != '\x60') ++ '\x60' :: rest) := fun h => htext.symm ▸ hinside h
    exact hopens.bind (((counts_passRaws _ _ _).mono hbody).bind
      ((counts_pass fun h => (hbody h).passRaws.fits (by decide)).bind (.some _)))

/-- A token whose characters stand in front of others has room. -/
theorem Room.fits_bytes (h : Room limit pos (text ++ rest)) : pos.column + byteLength text ≤ limit.toNat := by
  have hcolumn := h.column
  have hbytes := byteLength_le_room text
  rw [room_append] at hcolumn
  omega

/-- Reading a token counts wherever there is room for the text. -/
theorem counts_readToken (pos : Position) (c : Char) (rest : List Char) :
    Counts (Room limit pos (c :: rest)) (readToken limit pos c rest) (Lexer.readToken pos c rest) := by
  unfold readToken Lexer.readToken
  simp only [List.contains_iff_mem]
  refine .ite (fun hquote => ?string) fun _ => .ite (fun hquote => ?raw) fun _ => .ite (fun hdigit => ?number) fun _ =>
    .ite (fun _ => ?ident) fun _ => ?symbol
  case string =>
    obtain rfl := beq_iff_eq.mp hquote
    exact counts_readString
  case raw =>
    obtain rfl := beq_iff_eq.mp hquote
    exact counts_readRawString
  case number => exact counts_readNumber hdigit
  case ident =>
    have htext : (c :: rest.takeWhile Lexer.isIdentPart) ++ rest.dropWhile Lexer.isIdentPart = c :: rest :=
      congrArg (c :: ·) List.takeWhile_append_dropWhile
    exact (counts_plainPiece fun h => Room.fits_bytes (htext.symm ▸ h)).bind (.some _)
  case symbol =>
    have hsingle : Room limit pos (c :: rest) → pos.column + byteLength [c] ≤ limit.toNat :=
      fun h => Room.fits_bytes (show Room limit pos ([c] ++ rest) from h)
    cases rest with
    | nil => exact .ite (fun _ => (counts_plainPiece hsingle).bind (.some _)) fun _ => .some _
    | cons d after =>
      have hpair : Room limit pos (c :: d :: after) → pos.column + byteLength [c, d] ≤ limit.toNat :=
        fun h => Room.fits_bytes (show Room limit pos ([c, d] ++ after) from h)
      refine .ite (fun _ => ?_) fun _ => .ite (fun _ => ?_) fun _ => .some _
      · exact (counts_plainPiece hpair).bind (.some _)
      · exact (counts_plainPiece hsingle).bind (.some _)

/-! ## Sources -/

/-- Reads tokens from a position on. -/
def scanFrom (limit : UInt32) (pos : Position) (text : List Char) : Option (List Token × Ending) :=
  match hGap : skipGap limit false [] pos text with
  | none => none
  | some (.error fault) => some ([], .stopped fault (String.ofList text))
  | some (.ok (gap, [], here)) => some ([], .complete (String.ofList gap.reverse) here)
  | some (.ok (gap, c :: rest, here)) => match hToken : readToken limit here c rest with
    | none => none
    | some (.error fault) => some ([], .stopped fault (String.ofList text))
    | some (.ok piece) => do
      have : piece.rest.length < text.length := Nat.lt_of_le_of_lt
        (Lexer.readToken_length ((counts_readToken here c rest).sound _ hToken).symm)
        (Lexer.skipGap_length ((counts_skipGap false [] pos text).sound _ hGap).symm)
      let (tokens, ending) ← scanFrom limit piece.after piece.rest
      return (⟨piece.kind, piece.span, String.ofList piece.text, String.ofList gap.reverse⟩ :: tokens, ending)
termination_by text.length

/-- Cuts a source into tokens. -/
def scan (limit : UInt32) (source : Source) : Option Scan := do
  let (tokens, ending) ← scanFrom limit .origin source.text.toList
  return ⟨tokens, ending⟩

/-- Behind a gap there is room for what follows it. -/
theorem Room.skipGap {gap : List Char} {here : Position} (h : Room limit pos text)
    (hgap : Lexer.skipGap false [] pos text = .ok (gap, rest, here)) : Room limit here rest := by
  obtain ⟨skipped, -, htext, -, -, hhere, -⟩ := Lexer.skipGap_ok hgap
  rw [hhere]
  exact Room.passGap (htext ▸ h)

/-- With enough room the tokens and their places are exact. -/
theorem scanFrom_exact (h : Room limit pos text) : scanFrom limit pos text = some (Lexer.scanFrom pos text) := by
  induction hn : text.length using Nat.strong_induction_on generalizing pos text with
  | _ n ih =>
    subst hn
    have hskip := (counts_skipGap false [] pos text).complete h
    rcases hgap : Lexer.skipGap false [] pos text with fault | ⟨gap, _ | ⟨c, rest⟩, here⟩ <;> rw [hgap] at hskip
    · rw [Lexer.scanFrom_gapFault hgap, scanFrom]
      split <;> grind
    · rw [Lexer.scanFrom_end hgap, scanFrom]
      split <;> grind
    · have hroom : Room limit here (c :: rest) := h.skipGap hgap
      have hread := (counts_readToken here c rest).complete hroom
      rcases htoken : Lexer.readToken here c rest with fault | piece <;> rw [htoken] at hread
      · rw [Lexer.scanFrom_fault hgap htoken, scanFrom]
        split
        · grind
        · grind
        · grind
        · split <;> grind
      · have hlength : piece.rest.length < text.length :=
          Nat.lt_of_le_of_lt (Lexer.readToken_length htoken) (Lexer.skipGap_length hgap)
        have hrest := ih _ hlength (hroom.piece (Lexer.readToken_ok htoken)) rfl
        rw [Lexer.scanFrom_token hgap htoken, scanFrom]
        split
        · grind
        · grind
        · grind
        · split <;> grind

/-! ## Indentation -/

/-- The room of a text does not depend on the direction. -/
theorem room_reverse (text : List Char) : room text.reverse = room text := ((List.reverse_perm text).map weight).sum_eq

/-- A line is a part of the text. -/
theorem room_lines {start offset : Nat} {begun : List Char} {line : Line} (h : line ∈ linesFrom start offset begun text) :
    room line.text ≤ room begun + room text := by
  have hreversed : ∀ start all, room (Line.ofReversed start all).text ≤ room all := by
    intro start all
    unfold Line.ofReversed
    split
    · rw [room_reverse, room_cons]
      exact Nat.le_add_left _ _
    · rw [room_reverse]
  induction text generalizing start offset begun with
  | nil =>
    obtain rfl := List.mem_singleton.mp h
    exact hreversed start begun
  | cons c text ih =>
    rw [linesFrom] at h
    rw [room_cons]
    split at h
    · rcases List.mem_cons.mp h with rfl | h
      · exact Nat.le_trans (hreversed start begun) (Nat.le_add_right _ _)
      · have hline : room line.text ≤ room [] + room text := ih h
        have hnil : room [] = 0 := rfl
        omega
    · have hline := ih h
      rw [room_cons] at hline
      omega

/-- The columns that blanks take. -/
def blankColumns (blanks : List Char) : Nat := blanks.foldr (fun c columns => (if c == '\t' then 4 else 1) + columns) 0

/-- A blank adds its columns to those behind it. -/
theorem blankColumns_cons (c : Char) (blanks : List Char) :
    blankColumns (c :: blanks) = (if c == '\t' then 4 else 1) + blankColumns blanks := rfl

/-- The columns of blanks are summed up from the left. -/
theorem counts_blanks (blanks : List Char) (start : Nat) :
    Counts (start + room blanks ≤ limit.toNat) (blanks.foldlM (fun columns c => add limit columns (if c == '\t' then 4 else 1)) start)
      (start + blankColumns blanks) := by
  induction blanks generalizing start with
  | nil => exact .some _
  | cons c blanks ih =>
    have hwidth := width_le_weight c
    rw [room_cons, List.foldlM_cons, blankColumns_cons, ← Nat.add_assoc start (if c == '\t' then 4 else 1)]
    refine Counts.bind (counts_add fun h => ?_) ((ih _).mono fun h => ?_)
    · omega
    · omega

/-- Blanks take no more columns than there have to be for them. -/
theorem blankColumns_le (blanks : List Char) : blankColumns blanks ≤ room blanks := by
  induction blanks with
  | nil => exact Nat.le_refl _
  | cons c blanks ih => exact Nat.add_le_add (width_le_weight c) ih

/-- The indentation of a line counts if there is room for the text of the line. -/
theorem counts_indent (line : Line) : Counts (room line.text < limit.toNat) (indent limit line) line.indent := by
  have htext : room line.text =
      room (line.text.takeWhile fun c => c == ' ' || c == '\t') + room (line.text.dropWhile fun c => c == ' ' || c == '\t') := by
    rw [← room_append, List.takeWhile_append_dropWhile]
  unfold indent Line.indent
  generalize (line.text.takeWhile fun c => c == ' ' || c == '\t') = blanks at htext
  have hblanks : Counts (0 + room blanks ≤ limit.toNat) _ _ := counts_blanks blanks 0
  have hle := blankColumns_le blanks
  rw [Nat.zero_add, Nat.zero_add] at hblanks
  exact (hblanks.mono (by omega)).bind (counts_addColumns fun h => by omega)

/-- The indentation of every line of a source counts if there is room for the source. -/
theorem counts_lineIndent (source : Source) (number : Nat) :
    Counts (room source.text.toList < limit.toNat) (lineIndent limit source number) (source.lineIndent number) := by
  unfold lineIndent Source.lineIndent
  cases hline : source.lines[number - 1]? with
  | none => exact counts_add fun h => by omega
  | some line =>
    have hroom : room line.text ≤ room [] + room source.text.toList := room_lines (List.mem_of_getElem? hline)
    have hnil : room [] = 0 := rfl
    exact (counts_indent line).mono (by omega)

/-! ## Sources that have room -/

/-- With enough room the tokens of a source and the indentation of its lines are exact. -/
theorem counted_room {source : Source} (h : room source.text.toList < limit.toNat) :
    scan limit source = some source.scan ∧ ∀ number, lineIndent limit source number = some (source.lineIndent number) := by
  have horigin : 1 + room source.text.toList ≤ limit.toNat := by omega
  refine ⟨?_, fun number => (counts_lineIndent source number).complete h⟩
  rw [scan, scanFrom_exact ⟨horigin, horigin⟩]
  rfl

/-- If counters can hold four columns for every tab of a source and one for every other byte, all lines and columns are exact. -/
theorem counted_exact {source : Source} (h : byteLength source.text.toList + 3 * source.text.toList.count '\t' < limit.toNat) :
    scan limit source = some source.scan ∧ ∀ number, lineIndent limit source number = some (source.lineIndent number) := by
  rw [← room_eq] at h
  exact counted_room h

/-- Behind a tab and a character the column is six. -/
theorem counted_exact_tab : byteLength "\tx".toList + 3 * "\tx".toList.count '\t' < 6 ∧
    scan 6 ⟨"tab", "\tx"⟩ = some (Source.scan ⟨"tab", "\tx"⟩) ∧
      ∀ number, lineIndent 6 ⟨"tab", "\tx"⟩ number = some (Source.lineIndent ⟨"tab", "\tx"⟩ number) :=
  ⟨by decide, @counted_exact 6 ⟨"tab", "\tx"⟩ (by decide)⟩

/-- A text needs at most four times its bytes. -/
theorem room_le (text : List Char) : room text ≤ 4 * byteLength text := by
  induction text with
  | nil => exact Nat.le_refl _
  | cons c text ih =>
    have hweight : weight c ≤ 4 * c.utf8Size := by
      have hsize := c.utf8Size_pos
      unfold weight
      split <;> omega
    rw [room_cons, byteLength_cons]
    omega

/-- All lines and columns of a source of less than 2^30 bytes are held by counters of 32 bits. -/
theorem counted_small {source : Source} (h : byteLength source.text.toList < 2 ^ 30) :
    scan maxCount source = some source.scan ∧ ∀ number, lineIndent maxCount source number = some (source.lineIndent number) := by
  have hroom := room_le source.text.toList
  refine counted_room ?_
  rw [maxCount_toNat]
  omega

/-! ## Tabs -/

/-- A source that is one line of tabs. -/
def tabs (n : Nat) : Source := ⟨"tabs", String.ofList (List.replicate n '\t')⟩

/-- The column behind too many tabs is not held. -/
theorem skipGap_tabs {n : Nat} {gap : List Char} (hpos : pos.column ≤ limit.toNat) (h : limit.toNat < pos.column + 4 * n) :
    skipGap limit false gap pos (List.replicate n '\t') = none := by
  induction n generalizing gap pos with
  | zero => omega
  | succ n ih =>
    have hstep : skipGap limit false gap pos (List.replicate (n + 1) '\t') =
        (pass limit pos '\t' 4).bind fun next => skipGap limit false ('\t' :: gap) next (List.replicate n '\t') := rfl
    rw [hstep, pass, add]
    split
    · rename_i hfits
      refine ih hfits ?_
      change limit.toNat < pos.column + 4 + 4 * n
      omega
    · rfl

/-- The indentation behind blanks that take more columns than the limit is not held. -/
theorem indent_none {line : Line} (h : limit.toNat ≤ blankColumns (line.text.takeWhile fun c => c == ' ' || c == '\t')) :
    indent limit line = none := by
  refine Option.eq_none_iff_forall_ne_some.mpr fun columns hindent => ?_
  obtain ⟨blanks, hblanks, hadd⟩ := Option.bind_eq_some_iff.mp hindent
  have hexact : blanks = 0 + blankColumns (line.text.takeWhile fun c => c == ' ' || c == '\t') :=
    (counts_blanks _ 0).sound blanks hblanks
  unfold add at hadd
  split at hadd
  · omega
  · nomatch hadd

/-- Tabs have four columns each. -/
theorem blankColumns_tabs (n : Nat) : blankColumns (List.replicate n '\t') = 4 * n := by
  induction n with
  | zero => rfl
  | succ n ih =>
    rw [List.replicate_succ, blankColumns_cons, ih, if_pos (beq_self_eq_true '\t')]
    omega

/-- A line of tabs has a byte for each of them. -/
theorem byteLength_tabs (n : Nat) : byteLength (tabs n).text.toList = n := by
  have htext : (tabs n).text.toList = List.replicate n '\t' := String.toList_ofList
  rw [htext]
  clear htext
  induction n with
  | zero => rfl
  | succ n ih =>
    have htab : '\t'.utf8Size = 1 := rfl
    rw [List.replicate_succ, byteLength_cons, ih, htab, Nat.add_comm]

/-- A source of tabs that take more columns than the limit has no tokens and no indentation. -/
theorem counted_tabs {n : Nat} (hlimit : 1 ≤ limit.toNat) (h : limit.toNat < 1 + 4 * n) :
    scan limit (tabs n) = none ∧ lineIndent limit (tabs n) 1 = none := by
  have htext : (tabs n).text.toList = List.replicate n '\t' := String.toList_ofList
  constructor
  · have hskip : skipGap limit false [] .origin (List.replicate n '\t') = none := skipGap_tabs hlimit h
    rw [scan, htext, scanFrom]
    split <;> grind
  · have hnewline : '\n' ∉ List.replicate n '\t' := fun hmem => absurd (List.eq_of_mem_replicate hmem) (by decide)
    have hlines : (tabs n).lines = [Line.ofReversed 0 (List.replicate n '\t').reverse] := by
      rw [Source.lines, htext, linesFrom_last hnewline, List.append_nil]
    unfold lineIndent
    rw [hlines]
    refine indent_none ?_
    have hblank : ∀ c ∈ List.replicate n '\t', (c == ' ' || c == '\t') = true := by
      intro c hc
      rw [List.eq_of_mem_replicate hc]
      rfl
    have hline : (Line.ofReversed 0 (List.replicate n '\t').reverse).text = List.replicate n '\t' := by
      rw [List.reverse_replicate]
      cases n with
      | zero => rfl
      | succ n =>
        rw [List.replicate_succ, Line.ofReversed]
        · exact List.reverse_replicate (n := n + 1)
        · exact fun before h => absurd (List.cons.inj h).1 (by decide)
    rw [hline, List.takeWhile_eq_self_iff.mpr hblank, blankColumns_tabs]
    omega

/-- 2^30 tabs are a source of an admissible size, but their columns are not held by counters of 32 bits. -/
theorem counted_tabs_overflow : byteLength (tabs (2 ^ 30)).text.toList ≤ maxSize ∧ scan maxCount (tabs (2 ^ 30)) = none ∧
    lineIndent maxCount (tabs (2 ^ 30)) 1 = none := by
  refine ⟨?_, counted_tabs (by decide) (by rw [maxCount_toNat]; omega)⟩
  rw [byteLength_tabs]
  decide

end HostScript.Counted
