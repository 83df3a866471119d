import Mathlib
import HostScript.Json.Quoted
import HostScript.Proofs.Token.Word

/-!
# Quoted strings are read back

The written form of a string is a string token (`isLexeme_quoted`), and reading it gives the string again (`unquote_quote`).
-/

namespace HostScript.Json

/-- The characters of a string between its quotes. -/
def quotedBody (text : String) : List Char := text.toList.flatMap escapeChar

theorem quote_eq (text : String) : quote text = String.ofList ('"' :: quotedBody text ++ ['"']) := rfl

/-- What a character is escaped as: itself, a letter behind a backslash, or the digits of a control character. -/
inductive Escapes (c : Char) : List Char → Prop
  | plain (hquote : c ≠ '"') (hbackslash : c ≠ '\\') (hcontrol : 0x20 ≤ c.toNat) : Escapes c [c]
  | letter {d : Char} (hd : d ≠ 'u') (hletter : escapeLetter? d = some c) : Escapes c ['\\', d]
  | number (hcontrol : c.toNat < 0x20) : Escapes c ['\\', 'u', '0', '0', hexDigit (c.toNat / 16), hexDigit c.toNat]

theorem escapes_escapeChar (c : Char) : Escapes c (escapeChar c) := by
  have hbyte : ∀ n, n < 0x20 → c.toNat = n → c = Char.ofNat n := by
    intro n _ hn
    rw [← hn, Char.ofNat_toNat]
  unfold escapeChar
  split
  · rename_i h
    exact .letter (by decide) (by rw [eq_of_beq h]; rfl)
  split
  · rename_i h
    exact .letter (by decide) (by rw [eq_of_beq h]; rfl)
  split
  · rename_i h
    exact .letter (by decide) (by rw [eq_of_beq h]; rfl)
  split
  · rename_i h
    exact .letter (by decide) (by rw [eq_of_beq h]; rfl)
  split
  · rename_i h
    exact .letter (by decide) (by rw [eq_of_beq h]; rfl)
  split
  · rename_i h
    exact .letter (by decide) (by rw [hbyte 8 (by decide) (eq_of_beq h)]; rfl)
  split
  · rename_i h
    exact .letter (by decide) (by rw [hbyte 12 (by decide) (eq_of_beq h)]; rfl)
  split
  · exact .number ‹_›
  · rename_i hquote hbackslash _ _ _ _ _ hcontrol
    exact .plain (by simpa using hquote) (by simpa using hbackslash) (Nat.le_of_not_lt hcontrol)

/-- The four digits of a control character. -/
theorem hexUnit_control : ∀ n < 0x20, hexUnit? '0' '0' (hexDigit (n / 16)) (hexDigit n) = some n := by decide

theorem readEscape_number {c : Char} (hcontrol : c.toNat < 0x20) (rest : List Char) (place : Place) :
    ∃ place', readEscape ⟨'u' :: '0' :: '0' :: hexDigit (c.toNat / 16) :: hexDigit c.toNat :: rest, place⟩ = .ok (c, ⟨rest, place'⟩) := by
  have htrailing : isTrailingSurrogate c.toNat = false := by
    unfold isTrailingSurrogate
    simp only [Bool.and_eq_false_iff, decide_eq_false_iff_not]
    omega
  have hleading : isLeadingSurrogate c.toNat = false := by
    unfold isLeadingSurrogate
    simp only [Bool.and_eq_false_iff, decide_eq_false_iff_not]
    omega
  have hhex : readHex ⟨'0' :: '0' :: hexDigit (c.toNat / 16) :: hexDigit c.toNat :: rest, ⟨place.line, place.column + 1⟩⟩ =
      .ok (c.toNat, ⟨rest, ⟨place.line, place.column + 1 + 4⟩⟩) := by
    unfold readHex
    dsimp only
    rw [hexUnit_control _ hcontrol]
    rfl
  refine ⟨⟨place.line, place.column + 1 + 4⟩, ?_⟩
  unfold readEscape
  change readUnit ⟨'0' :: '0' :: hexDigit (c.toNat / 16) :: hexDigit c.toNat :: rest, ⟨place.line, place.column + 1⟩⟩ = _
  unfold readUnit
  simp only [hhex, bind, Except.bind, htrailing, hleading, Bool.false_eq_true, if_false, pure, Except.pure, Char.ofNat_toNat]

theorem readEscape_letter {c d : Char} (hd : d ≠ 'u') (hletter : escapeLetter? d = some c) (rest : List Char) (place : Place) :
    ∃ place', readEscape ⟨d :: rest, place⟩ = .ok (c, ⟨rest, place'⟩) := by
  refine ⟨⟨place.line, place.column + 1⟩, ?_⟩
  unfold readEscape
  dsimp only
  split
  · contradiction
  · rename_i heq
    exact absurd (List.cons.inj heq).1 hd
  · rename_i heq
    obtain ⟨rfl, rfl⟩ := List.cons.inj heq
    rw [hletter]
    rfl

theorem readChars_quote (rest : List Char) (place : Place) (read : List Char) :
    readChars ⟨'"' :: rest, place⟩ read = .ok (String.ofList read.reverse, ⟨rest, ⟨place.line, place.column + 1⟩⟩) := by
  rw [readChars]
  rfl

theorem readChars_backslash {rest : List Char} {place : Place} {read : List Char} {c : Char} {next : Cursor}
    (h : readEscape ⟨rest, ⟨place.line, place.column + 1⟩⟩ = .ok (c, next)) :
    readChars ⟨'\\' :: rest, place⟩ read = readChars next (c :: read) := by
  rw [readChars]
  split <;> grind [Cursor.skip]

theorem readChars_plain {c : Char} (hquote : c ≠ '"') (hbackslash : c ≠ '\\') (hcontrol : 0x20 ≤ c.toNat) (rest : List Char)
    (place : Place) (read : List Char) :
    readChars ⟨c :: rest, place⟩ read = readChars ⟨rest, Cursor.placeAfter place c⟩ (c :: read) := by
  rw [readChars]
  split <;> grind

/-- An escaped character is read back. -/
theorem readChars_escape {c : Char} {escaped : List Char} (h : Escapes c escaped) (rest : List Char) (place : Place)
    (read : List Char) : ∃ place', readChars ⟨escaped ++ rest, place⟩ read = readChars ⟨rest, place'⟩ (c :: read) := by
  cases h with
  | plain hquote hbackslash hcontrol => exact ⟨_, readChars_plain hquote hbackslash hcontrol rest place read⟩
  | letter hd hletter =>
    obtain ⟨place', hescape⟩ := readEscape_letter hd hletter rest ⟨place.line, place.column + 1⟩
    exact ⟨place', readChars_backslash hescape⟩
  | number hcontrol =>
    obtain ⟨place', hescape⟩ := readEscape_number hcontrol rest ⟨place.line, place.column + 1⟩
    exact ⟨place', readChars_backslash hescape⟩

/-- Escaped characters are read back up to the quote behind them. -/
theorem readChars_escaped (text rest : List Char) (place : Place) (read : List Char) :
    ∃ place', readChars ⟨text.flatMap escapeChar ++ '"' :: rest, place⟩ read =
      .ok (String.ofList (read.reverse ++ text), ⟨rest, place'⟩) := by
  induction text generalizing place read with
  | nil => exact ⟨_, by rw [List.append_nil]; exact readChars_quote rest place read⟩
  | cons c text ih =>
    obtain ⟨place', hescape⟩ := readChars_escape (escapes_escapeChar c) (text.flatMap escapeChar ++ '"' :: rest) place read
    obtain ⟨place'', htext⟩ := ih place' (c :: read)
    refine ⟨place'', ?_⟩
    rw [List.flatMap_cons, List.append_assoc, hescape, htext, List.reverse_cons, List.append_assoc]
    rfl

/-- A quoted string is read back. -/
theorem unquote_quote (text : String) : unquote (quote text) = .ok text := by
  obtain ⟨place, hread⟩ := readChars_escaped text.toList [] ⟨1, 1⟩ []
  have hstart : (Cursor.ofText (quote text)).skipBlanks = ⟨'"' :: (text.toList.flatMap escapeChar ++ ['"']), ⟨1, 0⟩⟩ := by
    rw [quote, Cursor.ofText, String.toList_ofList]
    rfl
  unfold unquote
  rw [hstart]
  dsimp only
  rw [show Cursor.skip ⟨'"' :: (text.toList.flatMap escapeChar ++ ['"']), ⟨1, 0⟩⟩ 1 =
    ⟨text.toList.flatMap escapeChar ++ ['"'], ⟨1, 1⟩⟩ from rfl, hread]
  simp only [bind, Except.bind, List.reverse_nil, List.nil_append, String.ofList_toList]
  rfl

open Lexer (isStringBody IsLexeme)

theorem isStringBody_plain {c : Char} (hquote : c ≠ '"') (hbackslash : c ≠ '\\') (hcontrol : 0x20 ≤ c.toNat) (rest : List Char) :
    isStringBody (c :: rest) = isStringBody rest := by
  conv_lhs => unfold isStringBody
  split <;> grind

theorem isStringBody_hexDigit (n : Nat) (rest : List Char) : isStringBody (hexDigit n :: rest) = isStringBody rest := by
  have hdigit : ∀ m < 16, Nat.digitChar m ≠ '"' ∧ Nat.digitChar m ≠ '\\' ∧ 0x20 ≤ (Nat.digitChar m).toNat := by decide
  obtain ⟨hquote, hbackslash, hcontrol⟩ := hdigit (n % 16) (Nat.mod_lt _ (by decide))
  exact isStringBody_plain hquote hbackslash hcontrol rest

/-- What is escaped goes on as the inside of a string. -/
theorem isStringBody_escape {c : Char} {escaped : List Char} (h : Escapes c escaped) (rest : List Char) :
    isStringBody (escaped ++ rest) = isStringBody rest := by
  cases h with
  | plain hquote hbackslash hcontrol => exact isStringBody_plain hquote hbackslash hcontrol rest
  | letter _ _ => rfl
  | number hcontrol =>
    have hzero : ∀ rest, isStringBody ('0' :: rest) = isStringBody rest := isStringBody_plain (by decide) (by decide) (by decide)
    change isStringBody ('0' :: '0' :: hexDigit (c.toNat / 16) :: hexDigit c.toNat :: rest) = _
    rw [hzero, hzero, isStringBody_hexDigit, isStringBody_hexDigit]

/-- The inside of a quoted string is the text of a string token. -/
theorem isLexeme_quoted (text : String) : IsLexeme .string (quotedBody text) := by
  refine ⟨?_, text, unquote_quote text⟩
  unfold quotedBody
  induction text.toList with
  | nil => rfl
  | cons c text ih =>
    rw [List.flatMap_cons, isStringBody_escape (escapes_escapeChar c)]
    exact ih

end HostScript.Json
