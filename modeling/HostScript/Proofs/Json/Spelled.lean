import Mathlib
import HostScript.Json.Reader
import HostScript.Value.Printer
import HostScript.Proofs.Json.Passed
import HostScript.Proofs.Json.Quoted
import HostScript.Proofs.Number.Digits
import HostScript.Proofs.Value.Literal

/-!
# Data texts are read back

`Value.Spelled` says which data texts a value without floats has: its parts in order, with any blanks in front of items, keys, values
and closing brackets. Each of them is read as the value wherever it stands, as long as no more containers are open than may be
(`readValue_spelled`).
-/

namespace HostScript

namespace Json

/-! ## Blanks -/

/-- Blanks between the parts of a data text. -/
abbrev Blanks (blanks : List Char) : Prop := ∀ c ∈ blanks, Cursor.isBlank c

/-- Blanks are skipped up to the first other character. -/
theorem skipBlanks_spelled {blanks : List Char} {c : Char} (hblanks : Blanks blanks) (hc : Cursor.isBlank c = false)
    (rest : List Char) (place : Place) : ∃ place', Cursor.skipBlanks ⟨blanks ++ c :: rest, place⟩ = ⟨c :: rest, place'⟩ := by
  have hrest : (Cursor.skipBlanksFrom (blanks ++ c :: rest) place).rest = c :: rest := by
    rw [skipBlanksFrom_rest]
    refine Lexer.dropWhile_exact hblanks fun d hd => ?_
    rw [← Option.some.inj hd, hc]
  unfold Cursor.skipBlanks
  cases hskip : Cursor.skipBlanksFrom (blanks ++ c :: rest) place with
  | mk rest' place' =>
    rw [hskip] at hrest
    exact ⟨place', congrArg (Cursor.mk · place') hrest⟩

/-! ## Whole numbers -/

/-- Digits that denote no more than a limit are all of them appended. -/
theorem accumulate_all {limit value : Nat} {digits : List Char} (h : Nat.ofDigitChars 10 digits value ≤ limit) :
    accumulate limit value digits = (Nat.ofDigitChars 10 digits value, []) := by
  induction digits generalizing value with
  | nil => rfl
  | cons c digits ih =>
    rw [Nat.ofDigitChars_cons, Nat.mul_comm 10 value] at h ⊢
    have hlonger : value * 10 + (c.toNat - '0'.toNat) ≤ limit := by
      rw [Nat.ofDigitChars_eq_ofDigitChars_zero] at h
      have hpos : 1 ≤ 10 ^ digits.length := Nat.one_le_pow _ _ (by decide)
      calc value * 10 + (c.toNat - '0'.toNat)
          ≤ 10 ^ digits.length * (value * 10 + (c.toNat - '0'.toNat)) := Nat.le_mul_of_pos_left _ hpos
        _ ≤ limit := (Nat.le_add_right _ _).trans h
    rw [accumulate, if_neg (Nat.not_lt.mpr hlonger), ih h]

/-- What may stand behind a whole number: nothing that goes on with it. -/
def EndsNumber (rest : List Char) : Prop := ∀ d, rest.head? = some d → d.isDigit = false ∧ d ≠ '.' ∧ d ≠ 'e' ∧ d ≠ 'E'

/-- The digits of a number that fits 64 bits are read as a whole number. -/
theorem readNumeral_digits {n : Nat} (hn : n ≤ maxUnsigned) {rest : List Char} (hrest : EndsNumber rest) (negative : Bool)
    (place : Place) :
    ∃ place', readNumeral negative ⟨Nat.toDigits 10 n ++ rest, place⟩ = .ok (wholeNumeral negative n, ⟨rest, place'⟩) := by
  have hdigits : Cursor.digits ⟨Nat.toDigits 10 n ++ rest, place⟩ = Nat.toDigits 10 n :=
    Lexer.takeWhile_exact Number.isDigit_digits fun d hd => (hrest d hd).1
  have hvalue : Nat.ofDigitChars 10 (Nat.toDigits 10 n) 0 = n := Number.natOfDigits_digits n
  have haccumulate : accumulate maxUnsigned 0 (Nat.toDigits 10 n) = (n, []) := by rw [accumulate_all (hvalue.symm ▸ hn), hvalue]
  have hnext : Cursor.skip ⟨Nat.toDigits 10 n ++ rest, place⟩ (Nat.toDigits 10 n).length =
      ⟨rest, ⟨place.line, place.column + (Nat.toDigits 10 n).length⟩⟩ := by
    rw [Cursor.skip, List.drop_left]
  refine ⟨⟨place.line, place.column + (Nat.toDigits 10 n).length⟩, ?_⟩
  unfold readNumeral
  simp only [hdigits, haccumulate, hnext]
  split
  case h_1 hempty => exact absurd (List.append_eq_nil_iff.mp hempty).1 Nat.toDigits_ne_nil
  case h_2 hempty _ => exact absurd hempty Nat.toDigits_ne_nil
  case h_3 =>
    rename_i hzero _
    have hwhole := Number.isWhole_digits n
    rw [hzero] at hwhole
    cases hwhole with
    | digits _ hne _ => exact absurd rfl hne
  case h_4 =>
    split
    · exact absurd rfl (hrest '.' rfl).2.1
    · exact absurd rfl (hrest 'e' rfl).2.2.1
    · exact absurd rfl (hrest 'E' rfl).2.2.2
    · rfl

/-! ## Values by their first character -/

/-- A character that a value can begin with: no blank, and not the end of an array. -/
abbrev OpensValue (c : Char) : Prop := Cursor.isBlank c = false ∧ c ≠ ']'

/-- A digit opens a value. -/
theorem opensValue_digit {c : Char} (hc : c.isDigit) : OpensValue c := by
  constructor
  · rw [← Bool.not_eq_true]
    intro hblank
    simp only [Cursor.isBlank, Bool.or_eq_true, beq_iff_eq] at hblank
    obtain ((rfl | rfl) | rfl) | rfl := hblank <;> contradiction
  · rintro rfl
    contradiction

/-- What opens a value is not blank. -/
theorem skipBlanks_opens {c : Char} (hc : OpensValue c) (rest : List Char) (place : Place) :
    Cursor.skipBlanks ⟨c :: rest, place⟩ = ⟨c :: rest, place⟩ := by
  rw [Cursor.skipBlanks, Cursor.skipBlanksFrom, hc.1]
  rfl

/-- A digit begins a number. -/
theorem readValue_digit {c : Char} (hc : c.isDigit) (depth : Nat) (rest : List Char) (place : Place) :
    readValue depth ⟨c :: rest, place⟩ =
      (readNumeral false ⟨c :: rest, place⟩).map fun (numeral, cursor) => (.number numeral.toNumber, cursor) := by
  unfold readValue
  rw [skipBlanks_opens (opensValue_digit hc)]
  dsimp only
  split
  case h_9 =>
    rename_i heq _ _
    obtain ⟨rfl, -⟩ := List.cons.inj heq
    rw [if_pos hc]
    rfl
  all_goals
    rename_i heq
    cases heq
  all_goals contradiction

/-- A minus sign begins a negative number. -/
theorem readValue_minus (depth : Nat) (rest : List Char) (place : Place) :
    readValue depth ⟨'-' :: rest, place⟩ =
      (readNumeral true ⟨rest, ⟨place.line, place.column + 1⟩⟩).map fun (numeral, cursor) => (.number numeral.toNumber, cursor) := by
  unfold readValue
  rw [skipBlanks_opens (by decide)]
  rfl

/-- A quote begins a string. -/
theorem readValue_quote (depth : Nat) (rest : List Char) (place : Place) :
    readValue depth ⟨'"' :: rest, place⟩ =
      (readChars ⟨rest, ⟨place.line, place.column + 1⟩⟩ []).map fun (text, cursor) => (.string text, cursor) := by
  unfold readValue
  rw [skipBlanks_opens (by decide)]
  rfl

/-- A bracket begins an array. -/
theorem readValue_bracket (depth : Nat) (rest : List Char) (place : Place) :
    readValue (depth + 1) ⟨'[' :: rest, place⟩ =
      (readItems (readValue depth) (rest.length + 1) [] ⟨rest, ⟨place.line, place.column + 1⟩⟩).map
        fun (items, cursor) => (.array items, cursor) := by
  unfold readValue
  rw [skipBlanks_opens (by decide)]
  rfl

/-- A brace begins an object. -/
theorem readValue_brace (depth : Nat) (rest : List Char) (place : Place) :
    readValue (depth + 1) ⟨'\x7b' :: rest, place⟩ =
      (readEntries (readValue depth) (rest.length + 1) true .empty ⟨rest, ⟨place.line, place.column + 1⟩⟩).map
        fun (table, cursor) => (.object table, cursor) := by
  unfold readValue
  rw [skipBlanks_opens (by decide)]
  rfl

/-- An integer is read back over its full range. -/
theorem readValue_integer (i : Int64) {rest : List Char} (hrest : EndsNumber rest) (depth : Nat) (place : Place) :
    ∃ place', readValue depth ⟨(Number.integerText i.toInt).toList ++ rest, place⟩ = .ok (.number (.int i), ⟨rest, place'⟩) := by
  have hle := i.le_toInt
  have hlt := i.toInt_lt
  have hfits : i.toInt.natAbs ≤ maxUnsigned := by unfold maxUnsigned; omega
  unfold Number.integerText
  dsimp only
  rw [String.toList_ofList]
  by_cases hnegative : i.toInt < 0
  · obtain ⟨place', hread⟩ := readNumeral_digits hfits hrest true ⟨place.line, place.column + 1⟩
    have hmagnitude : 0 < i.toInt.natAbs ∧ i.toInt.natAbs ≤ 0x8000000000000000 := by omega
    have hvalue : (-(i.toInt.natAbs : Int)) = i.toInt := by omega
    refine ⟨place', ?_⟩
    rw [if_pos hnegative, List.cons_append, readValue_minus, hread]
    simp only [wholeNumeral, Bool.not_true, Bool.false_eq_true, if_false, if_pos hmagnitude, hvalue, Except.map,
      Numeral.toNumber, Int64.ofInt_toInt]
  · obtain ⟨place', hread⟩ := readNumeral_digits hfits hrest false place
    have hvalue : (i.toInt.natAbs : Int) = i.toInt := by omega
    have hnumber : Number.ofNat i.toInt.natAbs = .int i := by
      rw [Number.ofNat, hvalue]
      exact Number.exactOr_int (Number.int64_toInt i) _
    refine ⟨place', ?_⟩
    rw [if_neg hnegative]
    cases hdigits : Nat.toDigits 10 i.toInt.natAbs with
    | nil => exact absurd hdigits Nat.toDigits_ne_nil
    | cons c digits =>
      have hc : c.isDigit := Number.isDigit_digits c (hdigits ▸ List.mem_cons_self)
      rw [hdigits] at hread
      rw [List.cons_append, readValue_digit hc, ← List.cons_append, hread]
      simp only [wholeNumeral, Bool.not_false, if_true, Except.map, Numeral.toNumber, hnumber]

/-! ## Items and entries -/

/-- What stands in front of an item or entry that is not the first. -/
def comma (first : Bool) : List Char := if first then [] else [',']

/-- A comma is not blank. -/
theorem skipBlanks_comma (rest : List Char) (place : Place) : Cursor.skipBlanks ⟨',' :: rest, place⟩ = ⟨',' :: rest, place⟩ := rfl

section

variable {blanks rest : List Char} {c : Char} (hblanks : Blanks blanks)
include hblanks

/-- Behind the comma, if there is one, the next item begins. -/
theorem nextItem_item (hc : OpensValue c) (first : Bool) (place : Place) :
    ∃ place', nextItem first ⟨comma first ++ (blanks ++ c :: rest), place⟩ = .ok (some ⟨c :: rest, place'⟩) := by
  obtain ⟨hblank, hbracket⟩ := hc
  cases first with
  | true =>
    obtain ⟨place', hskip⟩ := skipBlanks_spelled hblanks hblank rest place
    refine ⟨place', ?_⟩
    unfold nextItem
    rw [comma, if_pos rfl, List.nil_append, hskip]
    dsimp only
    split
    · contradiction
    · rename_i heq
      exact absurd (List.cons.inj heq).1 hbracket
    · rfl
  | false =>
    obtain ⟨place', hskip⟩ := skipBlanks_spelled hblanks hblank rest ⟨place.line, place.column + 1⟩
    refine ⟨place', ?_⟩
    unfold nextItem
    rw [comma, if_neg Bool.false_ne_true, List.singleton_append, skipBlanks_comma]
    simp only [Cursor.skip, List.drop_one, List.tail_cons, hskip]
    split
    · contradiction
    · rename_i heq
      exact absurd (List.cons.inj heq).1 (by decide)
    · rename_i heq
      obtain ⟨rfl, -⟩ := List.cons.inj heq
      rw [if_neg Bool.false_ne_true, if_neg (by decide)]
      split
      · contradiction
      · rename_i heq
        exact absurd (List.cons.inj heq).1 hbracket
      · rfl

/-- A bracket ends the items. -/
theorem readItems_close {element : ElementReader} {fuel : Nat} (hfuel : 0 < fuel) (read : List Value) (place : Place) :
    ∃ place', readItems element fuel read ⟨blanks ++ ']' :: rest, place⟩ = .ok (read.reverse, ⟨rest, place'⟩) := by
  obtain ⟨place', hskip⟩ := skipBlanks_spelled hblanks (c := ']') rfl rest place
  have hnext : nextItem read.isEmpty ⟨blanks ++ ']' :: rest, place⟩ = .ok none := by
    unfold nextItem
    rw [hskip]
    rfl
  cases fuel with
  | zero => contradiction
  | succ fuel =>
    refine ⟨⟨place'.line, place'.column + 1⟩, ?_⟩
    rw [readItems, hnext]
    simp only [bind, Except.bind, hskip]
    rfl

/-- The key of an entry is found behind blanks, and behind a comma if it is not the first. -/
theorem nextKey_entry (rest : List Char) (first : Bool) (place : Place) :
    ∃ place', nextKey first ⟨comma first ++ (blanks ++ '"' :: rest), place⟩ = .ok (some ⟨'"' :: rest, place'⟩) := by
  cases first with
  | true =>
    obtain ⟨place', hskip⟩ := skipBlanks_spelled hblanks (c := '"') rfl rest place
    refine ⟨place', ?_⟩
    unfold nextKey
    rw [comma, if_pos rfl, List.nil_append, hskip]
    rfl
  | false =>
    obtain ⟨place', hskip⟩ := skipBlanks_spelled hblanks (c := '"') rfl rest ⟨place.line, place.column + 1⟩
    refine ⟨place', ?_⟩
    unfold nextKey
    rw [comma, if_neg Bool.false_ne_true, List.singleton_append, skipBlanks_comma]
    simp only [Cursor.skip, List.drop_one, List.tail_cons, hskip]
    rfl

/-- A brace ends the entries. -/
theorem readEntries_close {element : ElementReader} {fuel : Nat} (hfuel : 0 < fuel) (first : Bool) (table : Table Value)
    (place : Place) :
    ∃ place', readEntries element fuel first table ⟨blanks ++ '\x7d' :: rest, place⟩ = .ok (table, ⟨rest, place'⟩) := by
  obtain ⟨place', hskip⟩ := skipBlanks_spelled hblanks (c := '\x7d') rfl rest place
  have hnext : nextKey first ⟨blanks ++ '\x7d' :: rest, place⟩ = .ok none := by
    unfold nextKey
    rw [hskip]
    rfl
  cases fuel with
  | zero => contradiction
  | succ fuel =>
    refine ⟨⟨place'.line, place'.column + 1⟩, ?_⟩
    rw [readEntries, hnext]
    simp only [bind, Except.bind, hskip]
    rfl

end

/-- The colon behind a key is read. -/
theorem readColon_colon (rest : List Char) (place : Place) :
    readColon ⟨':' :: rest, place⟩ = .ok ⟨rest, ⟨place.line, place.column + 1⟩⟩ := by
  unfold readColon
  rw [skipBlanks_opens (by decide)]
  rfl

/-- Any blanks may stand in front of a value. -/
theorem readValue_blanks {blanks : List Char} {c : Char} (hblanks : Blanks blanks) (hc : OpensValue c) (depth : Nat)
    (rest : List Char) (place : Place) :
    ∃ place', readValue depth ⟨blanks ++ c :: rest, place⟩ = readValue depth ⟨c :: rest, place'⟩ := by
  obtain ⟨place', hskip⟩ := skipBlanks_spelled hblanks hc.1 rest place
  refine ⟨place', ?_⟩
  conv_lhs => unfold readValue
  conv_rhs => unfold readValue
  rw [hskip, skipBlanks_opens hc]

/-- Blanks go on with no number. -/
theorem endsNumber_blanks {blanks rest : List Char} (hblanks : Blanks blanks) (hrest : EndsNumber rest) : EndsNumber (blanks ++ rest) := by
  cases blanks with
  | nil => exact hrest
  | cons c blanks =>
    intro d hd
    have hblank : Cursor.isBlank d := Option.some.inj hd ▸ hblanks c List.mem_cons_self
    simp only [Cursor.isBlank, Bool.or_eq_true, beq_iff_eq] at hblank
    obtain ((rfl | rfl) | rfl) | rfl := hblank <;> decide

/-- An item is read, and then the items behind it. -/
theorem readItems_item {element : ElementReader} {item : Value} {blanks behind rest : List Char} {c : Char} (hblanks : Blanks blanks)
    (hc : OpensValue c) (helement : ∀ place, ∃ place', element ⟨c :: behind, place⟩ = .ok (item, ⟨rest, place'⟩)) (fuel : Nat)
    (read : List Value) (place : Place) :
    ∃ place', readItems element (fuel + 1) read ⟨comma read.isEmpty ++ (blanks ++ c :: behind), place⟩ =
      readItems element fuel (item :: read) ⟨rest, place'⟩ := by
  obtain ⟨opened, hnext⟩ := nextItem_item hblanks hc read.isEmpty place
  obtain ⟨place', hitem⟩ := helement opened
  refine ⟨place', ?_⟩
  rw [readItems, hnext]
  simp only [bind, Except.bind, hitem]

/-- An entry is read, and then the entries behind it. -/
theorem readEntries_entry {element : ElementReader} (key : String) {value : Value} {blanks behind rest : List Char}
    (hblanks : Blanks blanks) (helement : ∀ place, ∃ place', element ⟨behind, place⟩ = .ok (value, ⟨rest, place'⟩)) (fuel : Nat)
    (first : Bool) (table : Table Value) (place : Place) :
    ∃ place', readEntries element (fuel + 1) first table ⟨comma first ++ (blanks ++ ((quote key).toList ++ ':' :: behind)), place⟩ =
      readEntries element fuel false (Value.insertEntry (.string key) value table) ⟨rest, place'⟩ := by
  have hquote : (quote key).toList ++ ':' :: behind = '"' :: (key.toList.flatMap escapeChar ++ '"' :: ':' :: behind) := by
    rw [quote_eq, String.toList_ofList, List.append_assoc]
    rfl
  obtain ⟨opened, hnext⟩ := nextKey_entry hblanks (key.toList.flatMap escapeChar ++ '"' :: ':' :: behind) first place
  obtain ⟨named, hkey⟩ := readChars_escaped key.toList (':' :: behind) ⟨opened.line, opened.column + 1⟩ []
  obtain ⟨place', hvalue⟩ := helement ⟨named.line, named.column + 1⟩
  rw [List.reverse_nil, List.nil_append, String.ofList_toList] at hkey
  refine ⟨place', ?_⟩
  rw [hquote, readEntries, hnext]
  simp only [bind, Except.bind, Cursor.skip, List.drop_one, List.tail_cons, hkey, readColon_colon, hvalue]

end Json

namespace Value

open Json (Blanks comma EndsNumber OpensValue readValue readItems readEntries)

/-! ## The texts of a value -/

mutual

/-- A data text of a value without floats. -/
inductive Spelled : Value → List Char → Prop
  | null : Spelled .null "null".toList
  | bool (b : Bool) : Spelled (.bool b) (if b then "true" else "false").toList
  | int (i : Int64) : Spelled (.number (.int i)) (Number.integerText i.toInt).toList
  | string (text : String) : Spelled (.string text) (Json.quote text).toList
  | array {items : List Value} {inside : List Char} (h : ItemsSpelled true items inside) : Spelled (.array items) ('[' :: inside)
  | object {entries : List (Value × Value)} {inside : List Char} (hsorted : Sorted entries) (h : EntriesSpelled true entries inside) :
    Spelled (.object (tableOf entries)) ('\x7b' :: inside)

/-- A text of items up to the end of their array. In front of the first there is no comma. -/
inductive ItemsSpelled : Bool → List Value → List Char → Prop
  | close {first : Bool} {blanks : List Char} (hblanks : Blanks blanks) : ItemsSpelled first [] (blanks ++ [']'])
  | item {first : Bool} {v : Value} {items : List Value} {blanks text behind : List Char} (hblanks : Blanks blanks)
    (hv : Spelled v text) (hbehind : ItemsSpelled false items behind) :
    ItemsSpelled first (v :: items) (comma first ++ (blanks ++ (text ++ behind)))

/-- A text of entries up to the end of their object. In front of the first there is no comma. -/
inductive EntriesSpelled : Bool → List (Value × Value) → List Char → Prop
  | close {first : Bool} {blanks : List Char} (hblanks : Blanks blanks) : EntriesSpelled first [] (blanks ++ ['\x7d'])
  | entry {first : Bool} {key : String} {value : Value} {entries : List (Value × Value)} {blanks blanks' text behind : List Char}
    (hblanks : Blanks blanks) (hblanks' : Blanks blanks') (hvalue : Spelled value text) (hbehind : EntriesSpelled false entries behind) :
    EntriesSpelled first ((.string key, value) :: entries)
      (comma first ++ (blanks ++ ((Json.quote key).toList ++ ':' :: (blanks' ++ (text ++ behind)))))

end

mutual

/-- How many containers of a value are one inside the other. -/
def depth : Value → Nat
  | .array items => itemsDepth items + 1
  | .object ⟨entries, _⟩ => entriesDepth entries + 1
  | .null | .bool _ | .number _ | .string _ => 0

/-- How many containers of the items are one inside the other. -/
def itemsDepth : List Value → Nat
  | [] => 0
  | v :: items => max v.depth (itemsDepth items)

/-- How many containers of the values of entries are one inside the other. -/
def entriesDepth : List (Value × Value) → Nat
  | [] => 0
  | (_, value) :: entries => max value.depth (entriesDepth entries)

end

variable {v : Value} {items : List Value} {entries : List (Value × Value)} {text rest : List Char}

/-- A text of a value begins with a character that no blank is read over for. -/
theorem Spelled.head (h : v.Spelled text) : ∃ c behind, text = c :: behind ∧ OpensValue c := by
  cases h with
  | null => exact ⟨'n', _, rfl, by decide⟩
  | bool b =>
    cases b with
    | true => exact ⟨'t', _, rfl, by decide⟩
    | false => exact ⟨'f', _, rfl, by decide⟩
  | int i =>
    unfold Number.integerText
    dsimp only
    rw [String.toList_ofList]
    split
    · exact ⟨'-', _, rfl, by decide⟩
    · cases hdigits : Nat.toDigits 10 i.toInt.natAbs with
      | nil => exact absurd hdigits Nat.toDigits_ne_nil
      | cons c digits => exact ⟨c, digits, rfl, Json.opensValue_digit (Number.isDigit_digits c (hdigits ▸ List.mem_cons_self))⟩
  | string s => exact ⟨'"', _, by rw [Json.quote_eq, String.toList_ofList]; rfl, by decide⟩
  | array _ => exact ⟨'[', _, rfl, by decide⟩
  | object _ _ => exact ⟨'\x7b', _, rfl, by decide⟩

/-- No number goes on behind an item. -/
theorem ItemsSpelled.ends (h : ItemsSpelled false items text) (rest : List Char) : EndsNumber (text ++ rest) := by
  cases h with
  | close hblanks =>
    rw [List.append_assoc]
    refine Json.endsNumber_blanks hblanks ?_
    rintro d ⟨⟩
    decide
  | item _ _ _ =>
    rintro d ⟨⟩
    decide

/-- No number goes on behind an entry. -/
theorem EntriesSpelled.ends (h : EntriesSpelled false entries text) (rest : List Char) : EndsNumber (text ++ rest) := by
  cases h with
  | close hblanks =>
    rw [List.append_assoc]
    refine Json.endsNumber_blanks hblanks ?_
    rintro d ⟨⟩
    decide
  | entry _ _ _ _ =>
    rintro d ⟨⟩
    decide

/-- A value is read back behind any blanks. -/
theorem Spelled.read_blanks {blanks : List Char} {depth : Nat} (h : v.Spelled text)
    (hread : ∀ place, ∃ place', readValue depth ⟨text ++ rest, place⟩ = .ok (v, ⟨rest, place'⟩)) (hblanks : Blanks blanks)
    (place : Json.Place) :
    ∃ place', readValue depth ⟨blanks ++ (text ++ rest), place⟩ = .ok (v, ⟨rest, place'⟩) := by
  obtain ⟨c, behind, rfl, hc⟩ := h.head
  obtain ⟨between, hbetween⟩ := Json.readValue_blanks hblanks hc depth (behind ++ rest) place
  obtain ⟨place', hvalue⟩ := hread between
  exact ⟨place', hbetween.trans hvalue⟩

mutual

/-- Every text of a value is read as the value, in front of everything that a number does not go on with. -/
theorem readValue_spelled : {v : Value} → {text : List Char} → v.Spelled text → {depth : Nat} → v.depth ≤ depth → {rest : List Char} →
    EndsNumber rest → (place : Json.Place) → ∃ place', readValue depth ⟨text ++ rest, place⟩ = .ok (v, ⟨rest, place'⟩)
  | _, _, .null, depth, _, rest, _, place => by
    refine ⟨⟨place.line, place.column + 1 + 1 + 1 + 1⟩, ?_⟩
    unfold readValue
    rfl
  | _, _, .bool true, depth, _, rest, _, place => by
    refine ⟨⟨place.line, place.column + 1 + 1 + 1 + 1⟩, ?_⟩
    unfold readValue
    rfl
  | _, _, .bool false, depth, _, rest, _, place => by
    refine ⟨⟨place.line, place.column + 1 + 1 + 1 + 1 + 1⟩, ?_⟩
    unfold readValue
    rfl
  | _, _, .int i, depth, _, _, hrest, place => Json.readValue_integer i hrest depth place
  | _, _, .string s, depth, _, rest, _, place => by
    obtain ⟨place', hread⟩ := Json.readChars_escaped s.toList rest ⟨place.line, place.column + 1⟩ []
    refine ⟨place', ?_⟩
    rw [Json.quote_eq, String.toList_ofList, List.append_assoc, List.cons_append, Json.readValue_quote]
    change (Json.readChars ⟨s.toList.flatMap Json.escapeChar ++ '"' :: rest, _⟩ []).map _ = _
    rw [hread, List.reverse_nil, List.nil_append, String.ofList_toList]
    rfl
  | .array items, '[' :: inside, .array h, depth, hdepth, rest, _, place => by
    rw [Value.depth] at hdepth
    obtain ⟨depth, rfl⟩ : ∃ inner, depth = inner + 1 := ⟨depth - 1, by omega⟩
    have hfuel : inside.length ≤ (inside ++ rest).length + 1 := by rw [List.length_append]; omega
    obtain ⟨place', hread⟩ := readItems_spelled h (Nat.le_of_succ_le_succ hdepth) [] rfl _ hfuel rest ⟨place.line, place.column + 1⟩
    refine ⟨place', ?_⟩
    rw [List.cons_append, Json.readValue_bracket, hread]
    rfl
  | _, '\x7b' :: inside, @Spelled.object entries _ hsorted h, depth, hdepth, rest, _, place => by
    obtain ⟨heights, htable⟩ := tableOf_eq hsorted
    rw [htable, Value.depth] at hdepth
    obtain ⟨depth, rfl⟩ : ∃ inner, depth = inner + 1 := ⟨depth - 1, by omega⟩
    have hfuel : inside.length ≤ (inside ++ rest).length + 1 := by rw [List.length_append]; omega
    obtain ⟨place', hread⟩ := readEntries_spelled h (Nat.le_of_succ_le_succ hdepth) .empty _ hfuel rest ⟨place.line, place.column + 1⟩
    refine ⟨place', ?_⟩
    rw [List.cons_append, Json.readValue_brace, hread]
    rfl

/-- Spelled items are read to the bracket behind them. -/
theorem readItems_spelled : {first : Bool} → {items : List Value} → {inside : List Char} → ItemsSpelled first items inside →
    {depth : Nat} → itemsDepth items ≤ depth → (read : List Value) → read.isEmpty = first → (fuel : Nat) → inside.length ≤ fuel →
    (rest : List Char) → (place : Json.Place) →
    ∃ place', readItems (readValue depth) fuel read ⟨inside ++ rest, place⟩ = .ok (read.reverse ++ items, ⟨rest, place'⟩)
  | _, _, _, .close hblanks, depth, _, read, _, fuel, hfuel, rest, place => by
    rw [List.length_append, List.length_singleton] at hfuel
    rw [List.append_assoc, List.append_nil]
    exact Json.readItems_close hblanks (by omega) read place
  | _, v :: items, _, @ItemsSpelled.item _ _ _ blanks text behind hblanks hv hbehind, depth, hdepth, read, rfl, fuel, hfuel, rest,
      place => by
    obtain ⟨hdepth, hdepths⟩ := max_le_iff.mp hdepth
    have hvalue := readValue_spelled hv hdepth (hbehind.ends rest)
    obtain ⟨c, text, rfl, hc⟩ := hv.head
    simp only [List.length_append, List.length_cons] at hfuel
    obtain ⟨fuel, rfl⟩ : ∃ left, fuel = left + 1 := ⟨fuel - 1, by omega⟩
    obtain ⟨passed, hitem⟩ := Json.readItems_item hblanks hc hvalue fuel read place
    obtain ⟨place', hitems⟩ := readItems_spelled hbehind hdepths (v :: read) rfl fuel (by omega) rest passed
    refine ⟨place', ?_⟩
    rw [List.append_assoc, List.append_assoc, List.append_assoc]
    rw [List.reverse_cons, List.append_assoc] at hitems
    exact hitem.trans hitems

/-- Spelled entries are read to the brace behind them. -/
theorem readEntries_spelled : {first : Bool} → {entries : List (Value × Value)} → {inside : List Char} →
    EntriesSpelled first entries inside → {depth : Nat} → entriesDepth entries ≤ depth → (table : Table Value) → (fuel : Nat) →
    inside.length ≤ fuel → (rest : List Char) → (place : Json.Place) →
    ∃ place', readEntries (readValue depth) fuel first table ⟨inside ++ rest, place⟩ = .ok (putAll entries table, ⟨rest, place'⟩)
  | _, _, _, .close hblanks, depth, _, table, fuel, hfuel, rest, place => by
    rw [List.length_append, List.length_singleton] at hfuel
    rw [List.append_assoc]
    exact Json.readEntries_close hblanks (by omega) _ table place
  | first, (_, value) :: entries, _, @EntriesSpelled.entry _ key _ _ blanks between text behind hblanks hbetween hvalue hbehind, depth,
      hdepth, table, fuel, hfuel, rest, place => by
    obtain ⟨hdepth, hdepths⟩ := max_le_iff.mp hdepth
    have hread := hvalue.read_blanks (readValue_spelled hvalue hdepth (hbehind.ends rest)) hbetween
    simp only [List.length_append, List.length_cons] at hfuel
    obtain ⟨fuel, rfl⟩ : ∃ left, fuel = left + 1 := ⟨fuel - 1, by omega⟩
    obtain ⟨passed, hentry⟩ := Json.readEntries_entry key hblanks hread fuel first table place
    obtain ⟨place', hentries⟩ := readEntries_spelled hbehind hdepths (insertEntry (.string key) value table) fuel (by omega) rest passed
    refine ⟨place', ?_⟩
    simp only [List.append_assoc, List.cons_append] at hentries ⊢
    rw [hentry, hentries]
    rfl

end

end Value

end HostScript
