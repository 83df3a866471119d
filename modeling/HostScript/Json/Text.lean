import HostScript.Json.Cursor

/-!
# Reading quoted strings

The characters between double quotes, with their escapes resolved. Escapes by number name a UTF-16 unit; characters beyond the
first plane are written as two of them, a leading and a trailing surrogate.
-/

namespace HostScript.Json

/-- The value of a hexadecimal digit. -/
def hexValue? (c : Char) : Option Nat :=
  if '0' ≤ c && c ≤ '9' then some (c.toNat - '0'.toNat)
  else if 'a' ≤ c && c ≤ 'f' then some (c.toNat - 'a'.toNat + 10)
  else if 'A' ≤ c && c ≤ 'F' then some (c.toNat - 'A'.toNat + 10)
  else none

/-- The number that four hexadecimal digits denote. -/
def hexUnit? (a b c d : Char) : Option Nat := do
  let a ← hexValue? a
  let b ← hexValue? b
  let c ← hexValue? c
  let d ← hexValue? d
  return ((a * 16 + b) * 16 + c) * 16 + d

/-- A text has at least four bytes. -/
def hasFourBytes (text : List Char) : Bool := decide (4 ≤ (text.take 4).foldr (fun c bytes => c.utf8Size + bytes) 0)

/-- The error where four hexadecimal digits were expected: the text ends before four bytes, or those bytes are no digits. -/
def hexError (cursor : Cursor) : Error :=
  if hasFourBytes cursor.rest then ⟨.invalidEscape, Cursor.placeAfterBytes 4 cursor.rest cursor.place⟩
  else ⟨.eofInString, Cursor.placeAfterBytes 3 cursor.rest cursor.place⟩

/-- Reads four hexadecimal digits. -/
def readHex (cursor : Cursor) : Except Error (Nat × Cursor) :=
  match cursor.rest with
  | a :: b :: c :: d :: _ => match hexUnit? a b c d with
    | some unit => .ok (unit, cursor.skip 4)
    | none => .error (hexError cursor)
  | _ => .error (hexError cursor)

/-- A unit that begins a surrogate pair. -/
def isLeadingSurrogate (unit : Nat) : Bool := 0xD800 ≤ unit && unit ≤ 0xDBFF

/-- A unit that ends a surrogate pair. -/
def isTrailingSurrogate (unit : Nat) : Bool := 0xDC00 ≤ unit && unit ≤ 0xDFFF

/-- Reads the escaped trailing surrogate that has to follow a leading one. -/
def readTrailing (cursor : Cursor) : Except Error (Nat × Cursor) :=
  match cursor.rest with
  | [] => .error (cursor.fail .eofInString)
  | '\\' :: [] => .error ((cursor.skip 1).fail .eofInString)
  | '\\' :: 'u' :: _ => do
    let (unit, next) ← readHex (cursor.skip 2)
    if isTrailingSurrogate unit then .ok (unit, next) else .error (next.fail .loneSurrogate)
  | '\\' :: _ => .error ((cursor.skip 1).failNext .unfinishedSurrogatePair)
  | _ => .error (cursor.failNext .unfinishedSurrogatePair)

/-- Reads the digits of an escape by number, after its `u`, and the second half of a surrogate pair. -/
def readUnit (cursor : Cursor) : Except Error (Char × Cursor) := do
  let (unit, next) ← readHex cursor
  if isTrailingSurrogate unit then .error (next.fail .loneSurrogate)
  else if isLeadingSurrogate unit then do
    let (trailing, next) ← readTrailing next
    return (Char.ofNat ((unit - 0xD800) * 0x400 + (trailing - 0xDC00) + 0x10000), next)
  else return (Char.ofNat unit, next)

/-- The character that a one-letter escape stands for. -/
def escapeLetter? : Char → Option Char
  | '"' => some '"'
  | '\\' => some '\\'
  | '/' => some '/'
  | 'b' => some '\x08'
  | 'f' => some '\x0c'
  | 'n' => some '\n'
  | 'r' => some '\r'
  | 't' => some '\t'
  | _ => none

/-- Reads an escape, after its backslash. -/
def readEscape (cursor : Cursor) : Except Error (Char × Cursor) :=
  match cursor.rest with
  | [] => .error (cursor.fail .eofInString)
  | 'u' :: _ => readUnit (cursor.skip 1)
  | c :: _ => match escapeLetter? c with
    | some escaped => .ok (escaped, cursor.skip 1)
    | none => .error (cursor.failNext .invalidEscape)

theorem length_skip_le (cursor : Cursor) (n : Nat) : (cursor.skip n).rest.length ≤ cursor.rest.length := by
  simp [Cursor.skip]

theorem readHex_length {cursor next : Cursor} {unit : Nat} (h : readHex cursor = .ok (unit, next)) :
    next.rest.length ≤ cursor.rest.length := by
  unfold readHex at h
  split at h
  · split at h
    · cases h
      exact length_skip_le _ _
    · cases h
  · cases h

theorem readTrailing_length {cursor next : Cursor} {unit : Nat} (h : readTrailing cursor = .ok (unit, next)) :
    next.rest.length ≤ cursor.rest.length := by
  unfold readTrailing at h
  split at h
  case h_3 =>
    rcases hx : readHex (cursor.skip 2) with e | ⟨u, n⟩
    · simp [hx, bind, Except.bind] at h
    · simp only [hx, bind, Except.bind] at h
      split at h
      · cases h
        exact Nat.le_trans (readHex_length hx) (length_skip_le _ _)
      · cases h
  all_goals cases h

theorem readUnit_length {cursor next : Cursor} {c : Char} (h : readUnit cursor = .ok (c, next)) :
    next.rest.length ≤ cursor.rest.length := by
  unfold readUnit at h
  rcases hx : readHex cursor with e | ⟨u, n⟩
  · simp [hx, bind, Except.bind] at h
  · simp only [hx, bind, Except.bind] at h
    have hn := readHex_length hx
    split at h
    · cases h
    · split at h
      · rcases ht : readTrailing n with e | ⟨t, m⟩
        · simp [ht] at h
        · simp only [ht, pure, Except.pure, Except.ok.injEq, Prod.mk.injEq] at h
          exact h.2 ▸ Nat.le_trans (readTrailing_length ht) hn
      · cases h
        exact hn

theorem readEscape_length {cursor next : Cursor} {c : Char} (h : readEscape cursor = .ok (c, next)) :
    next.rest.length ≤ cursor.rest.length := by
  unfold readEscape at h
  split at h
  · cases h
  · exact Nat.le_trans (readUnit_length h) (length_skip_le _ _)
  · split at h
    · cases h
      exact length_skip_le _ _
    · cases h

/-- Reads the characters of a string up to its closing quote, which is read as well. The characters read so far are kept in
reverse. -/
def readChars (cursor : Cursor) (read : List Char) : Except Error (String × Cursor) :=
  match h : cursor.rest with
  | [] => .error (cursor.fail .eofInString)
  | '"' :: _ => .ok (String.ofList read.reverse, cursor.skip 1)
  | '\\' :: rest => match hEscape : readEscape ⟨rest, (cursor.skip 1).place⟩ with
    | .ok (c, next) =>
      have : next.rest.length < cursor.rest.length := h ▸ Nat.lt_succ_of_le (readEscape_length hEscape)
      readChars next (c :: read)
    | .error e => .error e
  | c :: rest =>
    if c.toNat < 0x20 then .error (cursor.failNext .controlCharacter)
    else
      have : rest.length < cursor.rest.length := h ▸ Nat.lt_succ_self _
      readChars ⟨rest, Cursor.placeAfter cursor.place c⟩ (c :: read)
termination_by cursor.rest.length

/-- Reads a whole text as one quoted string. -/
def unquote (text : String) : Except Error String := do
  let cursor := (Cursor.ofText text).skipBlanks
  match cursor.rest with
  | '"' :: _ =>
    let (value, next) ← readChars (cursor.skip 1) []
    let next := next.skipBlanks
    if next.rest.isEmpty then return value else .error (next.failNext .trailingCharacters)
  | _ => .error (cursor.failNext .expectedValue)

end HostScript.Json
