import Mathlib
import HostScript.Proofs.Dialect.Grouped
import HostScript.Proofs.Dialect.Lines
import HostScript.Proofs.Dialect.Written
import HostScript.Proofs.Value.Literal

/-!
# The words of a printed value

The compact text of a value is cut into the words of its literal: they are written one behind the other (`written_words`), fit in
front of every character before which tokens end (`words_fits`), and have the shapes of the literal (`words_row`). Their brackets are
closed in them.
-/

namespace HostScript.Value

open Dialect (Row Shape wordShape Closes closes_symbol closes_semicolon nesting)
open Lexer (Word nameWord symbolWord written written_append written_cons Fits IsLexeme opening isGap_nil stops_ident)

/-- The words of a printed number. -/
def numberWords : Number → List Word
  | .int i =>
    (if i.toInt < 0 then [symbolWord [] '-'] else []) ++ [⟨[], .number, (Number.literalText (.magnitude i)).toList⟩]
  | .float x => [⟨[], .number, (Number.literalText (.float x)).toList⟩]

mutual

/-- The words of the compact text of a value. -/
def words : Value → List Word
  | .null => [nameWord [] "null".toList]
  | .bool true => [nameWord [] "true".toList]
  | .bool false => [nameWord [] "false".toList]
  | .number n => numberWords n
  | .string text => [⟨[], .string, Json.quotedBody text⟩]
  | .array items => symbolWord [] '[' :: ((itemWords items).tail ++ [symbolWord [] ']'])
  | .object ⟨entries, _⟩ => symbolWord [] '\x7b' :: ((entryWords entries).tail ++ [symbolWord [] '\x7d'])

/-- The words of values, with a comma in front of each. -/
def itemWords : List Value → List Word
  | [] => []
  | v :: rest => symbolWord [] ',' :: (v.words ++ itemWords rest)

/-- The words of entries, with a comma in front of each. -/
def entryWords : List (Value × Value) → List Word
  | [] => []
  | (key, value) :: rest => symbolWord [] ',' :: (key.words ++ symbolWord [] ':' :: (value.words ++ entryWords rest))

end

/-! ## Their text -/

/-- The word of a string is written as the string in quotes. -/
theorem written_quoted (text : String) : written [⟨[], .string, Json.quotedBody text⟩] = (Json.quote text).toList := by
  rw [Json.quote_eq, String.toList_ofList]
  exact List.append_nil _

/-- The words of an integer are written as its digits, behind its sign. -/
theorem written_numberWords (i : Int64) : written (numberWords (.int i)) = (Number.integerText i.toInt).toList := by
  have hdigits : (Number.literalText (.magnitude i)).toList = Nat.toDigits 10 i.toInt.natAbs := by
    rw [Number.literalText_magnitude, String.toList_ofList]
  unfold numberWords Number.integerText
  dsimp only
  rw [hdigits, String.toList_ofList, written_append]
  split
  · exact congrArg ('-' :: ·) (List.append_nil _)
  · exact List.append_nil _

mutual

/-- The compact text of a value is what its words are written as, behind what is there already. -/
theorem toList_writeCompact : (v : Value) → v.Plain → (out : String) → (writeCompact v out).toList = out.toList ++ written v.words
  | .null, _, out => String.toList_append
  | .bool true, _, out => String.toList_append
  | .bool false, _, out => String.toList_append
  | .number n, h, out => by
    obtain ⟨i, rfl⟩ := h
    rw [writeCompact, words, written_numberWords, String.toList_append]
    rfl
  | .string text, _, out => by rw [writeCompact, words, written_quoted, String.toList_append]
  | .array items, h, out => by
    rw [writeCompact, String.toList_push, toList_writeItems items h, String.toList_push, words, written_cons, written_append]
    simp only [if_true, List.append_assoc]
    rfl
  | .object ⟨entries, _⟩, h, out => by
    rw [writeCompact, String.toList_push, toList_writeEntries entries h.2, String.toList_push, words, written_cons, written_append]
    simp only [if_true, List.append_assoc]
    rfl

/-- The items of an array are written behind what is there already, the first one without a comma. -/
theorem toList_writeItems : (items : List Value) → ItemsPlain items → (out : String) → (first : Bool) →
    (writeItems items out first).toList = out.toList ++ written (if first then (itemWords items).tail else itemWords items)
  | [], _, out, first => by cases first <;> exact (List.append_nil _).symm
  | v :: items, h, out, first => by
    rw [writeItems, toList_writeItems items h.2, toList_writeCompact v h.1, itemWords]
    cases first with
    | true => simp only [if_true, List.tail_cons, written_append, List.append_assoc]; rfl
    | false =>
      simp only [Bool.false_eq_true, if_false, written_append, written_cons, String.toList_push, List.append_assoc]
      rfl

/-- The entries of an object are written behind what is there already, the first one without a comma. -/
theorem toList_writeEntries : (entries : List (Value × Value)) → EntriesPlain entries → (out : String) → (first : Bool) →
    (writeEntries entries out first).toList =
      out.toList ++ written (if first then (entryWords entries).tail else entryWords entries)
  | [], _, out, first => by cases first <;> exact (List.append_nil _).symm
  | (key, value) :: entries, h, out, first => by
    obtain ⟨⟨text, rfl⟩, hvalue, hentries⟩ := h
    have hkey : (writeCompact (.string text) "").toList = written (words (.string text)) := by
      rw [toList_writeCompact (.string text) trivial]
      rfl
    rw [writeEntries, toList_writeEntries entries hentries, toList_writeCompact value hvalue, entryWords]
    simp only [isString, if_true, String.toList_push, String.toList_append, hkey]
    cases first with
    | true => simp only [if_true, List.tail_cons, written_append, written_cons, List.append_assoc]; rfl
    | false =>
      simp only [Bool.false_eq_true, if_false, written_append, written_cons, String.toList_push, List.append_assoc]
      rfl

end

/-- The compact text of a value consists of its words. -/
theorem written_words {v : Value} (h : v.Plain) : written v.words = v.compact.toList := by
  rw [compact, toList_writeCompact v h]
  rfl

/-! ## Their ends -/

theorem closes_comma : Closes ',' := closes_symbol rfl (by decide)

theorem closes_colon : Closes ':' := closes_symbol rfl (by decide)

theorem closes_bracket : Closes ']' := closes_symbol rfl (by decide)

theorem closes_brace : Closes '\x7d' := closes_symbol rfl (by decide)

variable {d : Char}

/-- A token fits in front of a character that ends it. -/
theorem fits_single {kind : TokenKind} {text : List Char} (h : IsLexeme kind text) (hd : Closes d) : Fits [⟨[], kind, text⟩] (some d) :=
  ⟨isGap_nil, h, hd kind text, trivial⟩

/-- Behind the first word the others fit. -/
theorem fits_tail {row : List Word} {next : Option Char} (h : Fits row next) : Fits row.tail next := by
  cases row with
  | nil => exact h
  | cons w row => exact h.2.2.2

/-- Something closed by a bracket fits whatever is behind it. -/
theorem fits_closed {c : Char} (hc : c ∈ Lexer.singleSymbols) (hpair : ∀ pair ∈ Lexer.pairedSymbols, pair.1 ≠ c) {row : List Word}
    (h : Fits row (some c)) (next : Option Char) : Fits (row ++ [symbolWord [] c]) next :=
  Fits.append h ((Fits.nil next).symbol isGap_nil hc hpair)

/-- The items of an array begin with a closing character, or what follows does. -/
theorem opening_itemWords (items : List Value) (hd : Closes d) : ∃ c, Closes c ∧ opening (itemWords items) (some d) = some c := by
  cases items with
  | nil => exact ⟨d, hd, rfl⟩
  | cons v items => exact ⟨',', closes_comma, rfl⟩

/-- The entries of an object begin with a closing character, or what follows does. -/
theorem opening_entryWords (entries : List (Value × Value)) (hd : Closes d) :
    ∃ c, Closes c ∧ opening (entryWords entries) (some d) = some c := by
  cases entries with
  | nil => exact ⟨d, hd, rfl⟩
  | cons entry entries => exact ⟨',', closes_comma, rfl⟩

mutual

/-- The words of a value are read back in front of every character before which tokens end. -/
theorem words_fits : (v : Value) → v.Plain → {d : Char} → Closes d → Fits v.words (some d)
  | .null, _, _, hd => fits_single ⟨'n', ['u', 'l', 'l'], rfl, rfl, Lexer.forall_mem_of_all rfl⟩ hd
  | .bool true, _, _, hd => fits_single ⟨'t', ['r', 'u', 'e'], rfl, rfl, Lexer.forall_mem_of_all rfl⟩ hd
  | .bool false, _, _, hd => fits_single ⟨'f', ['a', 'l', 's', 'e'], rfl, rfl, Lexer.forall_mem_of_all rfl⟩ hd
  | .number n, h, _, hd => by
    obtain ⟨i, rfl⟩ := h
    have hdigits := fits_single (Number.writes_literalText _ ⟨i, rfl⟩).1 hd
    rw [words, numberWords]
    split
    · exact hdigits.symbol isGap_nil (by decide) (by decide)
    · exact hdigits
  | .string text, _, _, hd => fits_single (Json.isLexeme_quoted text) hd
  | .array items, h, next, _ => by
    have hitems := fits_closed (by decide) (by decide) (fits_tail (itemWords_fits items h closes_bracket)) (some next)
    exact hitems.symbol isGap_nil (by decide) (by decide)
  | .object ⟨entries, _⟩, h, next, _ => by
    have hentries := fits_closed (by decide) (by decide) (fits_tail (entryWords_fits entries h.2 closes_brace)) (some next)
    exact hentries.symbol isGap_nil (by decide) (by decide)

/-- The words of the items fit in front of a closing character. -/
theorem itemWords_fits : (items : List Value) → ItemsPlain items → {d : Char} → Closes d → Fits (itemWords items) (some d)
  | [], _, _, _ => trivial
  | v :: items, h, d, hd => by
    obtain ⟨c, hc, hopening⟩ := opening_itemWords items hd
    have hfirst : Fits v.words (opening (itemWords items) (some d)) := hopening ▸ v.words_fits h.1 hc
    exact (hfirst.append (itemWords_fits items h.2 hd)).symbol isGap_nil (by decide) (by decide)

/-- The words of the entries fit in front of a closing character. -/
theorem entryWords_fits : (entries : List (Value × Value)) → EntriesPlain entries → {d : Char} → Closes d →
    Fits (entryWords entries) (some d)
  | [], _, _, _ => trivial
  | (key, value) :: entries, h, d, hd => by
    obtain ⟨⟨text, rfl⟩, hvalue, hentries⟩ := h
    obtain ⟨c, hc, hopening⟩ := opening_entryWords entries hd
    have hvalue : Fits value.words (opening (entryWords entries) (some d)) := hopening ▸ value.words_fits hvalue hc
    have hbehind := (hvalue.append (entryWords_fits entries hentries hd)).symbol (c := ':') isGap_nil (by decide) (by decide)
    have hkey : Fits (words (.string text)) (some ':') := fits_single (Json.isLexeme_quoted text) closes_colon
    exact (Fits.append hkey hbehind).symbol isGap_nil (by decide) (by decide)

end

/-! ## Their shapes -/

mutual

/-- The words of a value have the shapes of its literal. -/
theorem words_row : (v : Value) → v.Plain → v.words.map wordShape = v.literal.row Number.literalText
  | .null, _ | .bool true, _ | .bool false, _ | .string _, _ => rfl
  | .number n, h => by
    obtain ⟨i, rfl⟩ := h
    rw [words, numberWords, literal, numberLiteral]
    split <;> simp [wordShape, symbolWord, Script.Expr.row, Script.guarded, Script.Expr.level, Shape.symbol, Script.UnaryOp.symbol,
      Script.unaryLevel, Script.postfixLevel]
  | .array items, h => by
    rw [words, List.map_cons, List.map_append, List.map_tail, itemWords_rows items h]
    rfl
  | .object ⟨entries, _⟩, h => by
    rw [words, List.map_cons, List.map_append, List.map_tail, entryWords_rows entries h.2]
    rfl

/-- The items have the shapes of the literals that stand for them. -/
theorem itemWords_rows : (items : List Value) → ItemsPlain items →
    (itemWords items).map wordShape = Script.Expr.rows Number.literalText (itemLiterals items)
  | [], _ => rfl
  | v :: items, h => by
    rw [itemWords, List.map_cons, List.map_append, v.words_row h.1, itemWords_rows items h.2]
    rfl

/-- The entries have the shapes of the literals that stand for them. -/
theorem entryWords_rows : (entries : List (Value × Value)) → EntriesPlain entries →
    (entryWords entries).map wordShape = Script.Expr.fieldRows Number.literalText (entryLiterals entries)
  | [], _ => rfl
  | (key, value) :: entries, h => by
    obtain ⟨⟨text, rfl⟩, hvalue, hentries⟩ := h
    rw [entryWords, List.map_cons, List.map_append, List.map_cons, List.map_append, value.words_row hvalue,
      entryWords_rows entries hentries]
    rfl

end

/-! ## Their brackets -/

/-- A word as it stands in the text of a value: there is nothing in front of it, and it neither ends a statement nor is replaced in
one. -/
structure Quiet (w : Word) : Prop where
  gap : w.gap = []
  oneLine : w.kind ≠ .rawString
  constant : w.kind = .ident → String.ofList w.text ∈ Script.constants
  inside : wordShape w ≠ .symbol ";"

/-- A symbol other than the semicolon is quiet. -/
theorem quiet_symbol {c : Char} (h : c ≠ ';') : Quiet (symbolWord [] c) where
  gap := rfl
  oneLine := nofun
  constant := nofun
  inside := fun heq => h (List.cons.inj (String.ofList_injective (congrArg Shape.text heq))).1

/-- Numbers and strings are quiet. -/
theorem quiet_operand {kind : TokenKind} {text : List Char} (hkind : kind = .number ∨ kind = .string) : Quiet ⟨[], kind, text⟩ := by
  rcases hkind with rfl | rfl <;> exact ⟨rfl, nofun, nofun, fun heq => by cases congrArg Shape.kind heq⟩

/-- The constants are quiet. -/
theorem quiet_constant {text : String} (h : text ∈ Script.constants) : Quiet (nameWord [] text.toList) where
  gap := rfl
  oneLine := nofun
  constant _ := by rwa [nameWord, String.ofList_toList]
  inside := fun heq => by cases congrArg Shape.kind heq

mutual

/-- The words of a value are quiet. -/
theorem words_quiet : (v : Value) → ∀ w ∈ v.words, Quiet w
  | .null => List.forall_mem_singleton.mpr (quiet_constant (by decide))
  | .bool true => List.forall_mem_singleton.mpr (quiet_constant (by decide))
  | .bool false => List.forall_mem_singleton.mpr (quiet_constant (by decide))
  | .number (.int i) => by
    rw [words, numberWords]
    refine List.forall_mem_append.mpr ⟨?_, List.forall_mem_singleton.mpr (quiet_operand (.inl rfl))⟩
    split
    · exact List.forall_mem_singleton.mpr (quiet_symbol (by decide))
    · exact nofun
  | .number (.float x) => List.forall_mem_singleton.mpr (quiet_operand (.inl rfl))
  | .string text => List.forall_mem_singleton.mpr (quiet_operand (.inr rfl))
  | .array items => List.forall_mem_cons.mpr ⟨quiet_symbol (by decide), List.forall_mem_append.mpr
      ⟨fun w hw => itemWords_quiet items w (List.mem_of_mem_tail hw), List.forall_mem_singleton.mpr (quiet_symbol (by decide))⟩⟩
  | .object ⟨entries, _⟩ => List.forall_mem_cons.mpr ⟨quiet_symbol (by decide), List.forall_mem_append.mpr
      ⟨fun w hw => entryWords_quiet entries w (List.mem_of_mem_tail hw), List.forall_mem_singleton.mpr (quiet_symbol (by decide))⟩⟩

/-- The words of the items are quiet. -/
theorem itemWords_quiet : (items : List Value) → ∀ w ∈ itemWords items, Quiet w
  | [] => nofun
  | v :: items => List.forall_mem_cons.mpr ⟨quiet_symbol (by decide), List.forall_mem_append.mpr
      ⟨v.words_quiet, itemWords_quiet items⟩⟩

/-- The words of the entries are quiet. -/
theorem entryWords_quiet : (entries : List (Value × Value)) → ∀ w ∈ entryWords entries, Quiet w
  | [] => nofun
  | (key, value) :: entries => List.forall_mem_cons.mpr ⟨quiet_symbol (by decide), List.forall_mem_append.mpr
      ⟨key.words_quiet, List.forall_mem_cons.mpr ⟨quiet_symbol (by decide), List.forall_mem_append.mpr
        ⟨value.words_quiet, entryWords_quiet entries⟩⟩⟩⟩

end

/-- How a shape changes the nesting of those behind it. -/
theorem nesting_step (depth : Nat) (s : Shape) (row : Row) : nesting depth (s :: row) =
    if Dialect.isOpen s.token then nesting (depth + 1) row
    else if Dialect.isClose s.token then
      match depth with
      | 0 => none
      | depth + 1 => nesting depth row
    else nesting depth row := rfl

/-- The nesting goes on behind a row from where the row has left it. -/
theorem nesting_append (depth : Nat) (row more : Row) : nesting depth (row ++ more) = (nesting depth row).bind (nesting · more) := by
  induction row generalizing depth with
  | nil => rfl
  | cons s row ih =>
    rw [List.cons_append, nesting_step, nesting_step]
    split
    · exact ih (depth + 1)
    · split
      · cases depth with
        | zero => rfl
        | succ depth => exact ih depth
      · exact ih depth

/-- The brackets of a row are closed in it, inside whatever brackets it stands. -/
def Enclosed (row : Row) : Prop := ∀ depth, nesting depth row = some depth

namespace Enclosed

variable {row more : Row}

theorem nil : Enclosed [] := fun _ => rfl

/-- Rows one behind the other are enclosed if each of them is. -/
theorem append (h : Enclosed row) (hmore : Enclosed more) : Enclosed (row ++ more) := by
  intro depth
  rw [nesting_append, h, Option.bind_some, hmore]

/-- Something that is no bracket in front of a row. -/
theorem cons {s : Shape} (h : Enclosed row) (hopen : Dialect.isOpen s.token = false) (hclose : Dialect.isClose s.token = false) :
    Enclosed (s :: row) := by
  intro depth
  rw [nesting_step, hopen, hclose]
  exact h depth

/-- Two brackets around a row. -/
theorem brackets {opening closing : Shape} (h : Enclosed row) (hopen : Dialect.isOpen opening.token)
    (hother : Dialect.isOpen closing.token = false) (hclose : Dialect.isClose closing.token) :
    Enclosed (opening :: (row ++ [closing])) := by
  intro depth
  rw [nesting_step, if_pos hopen, nesting_append, h, Option.bind_some, nesting_step, hother, hclose]
  rfl

end Enclosed

mutual

/-- The brackets of a printed value are closed in it. -/
theorem words_enclosed : (v : Value) → Enclosed (v.words.map wordShape)
  | .null | .bool true | .bool false | .number (.float _) | .string _ => Enclosed.nil.cons rfl rfl
  | .number (.int i) => by
    rw [words, numberWords]
    split
    · exact (Enclosed.nil.cons rfl rfl).cons rfl rfl
    · exact Enclosed.nil.cons rfl rfl
  | .array items => by
    rw [words, List.map_cons, List.map_append]
    exact (itemWords_enclosed items).2.brackets rfl rfl rfl
  | .object ⟨entries, _⟩ => by
    rw [words, List.map_cons, List.map_append]
    exact (entryWords_enclosed entries).2.brackets rfl rfl rfl

/-- The brackets of the items are closed, with the first comma and without it. -/
theorem itemWords_enclosed : (items : List Value) →
    Enclosed ((itemWords items).map wordShape) ∧ Enclosed ((itemWords items).tail.map wordShape)
  | [] => ⟨.nil, .nil⟩
  | v :: items => by
    have hrest : Enclosed ((v.words ++ itemWords items).map wordShape) := by
      rw [List.map_append]
      exact v.words_enclosed.append (itemWords_enclosed items).1
    exact ⟨hrest.cons rfl rfl, hrest⟩

/-- The brackets of the entries are closed, with the first comma and without it. -/
theorem entryWords_enclosed : (entries : List (Value × Value)) →
    Enclosed ((entryWords entries).map wordShape) ∧ Enclosed ((entryWords entries).tail.map wordShape)
  | [] => ⟨.nil, .nil⟩
  | (key, value) :: entries => by
    have hrest : Enclosed ((key.words ++ symbolWord [] ':' :: (value.words ++ entryWords entries)).map wordShape) := by
      rw [List.map_append, List.map_cons, List.map_append]
      exact key.words_enclosed.append ((value.words_enclosed.append (entryWords_enclosed entries).1).cons rfl rfl)
    exact ⟨hrest.cons rfl rfl, hrest⟩

end

end HostScript.Value
