import Mathlib
import HostScript.Proofs.Script.Reread
import HostScript.Proofs.Number.Digits
import HostScript.Proofs.Dialect.Written

/-!
# Parsing undoes printing

The tokens of a printed script are read back from every text in which they stand one behind the other with a gap between them, and the
text is parsed to the script that was printed, up to spans (`Module.ofSource_printed`).
-/

namespace HostScript.Script

open HostScript.Dialect (Shape Row shapes wordShape shapes_placed)
open HostScript.Dialect (closes_symbol)
open HostScript.Lexer (IsLexeme Word Fits Stops written written_cons IsGap gapEnds gapNext isIdentStart isIdentPart singleSymbols
  pairedSymbols scan_written)

/-! ## Printed tokens can be read -/

/-- A row of tokens that can be written. -/
def Lexical (row : Row) : Prop := ∀ s ∈ row, IsLexeme s.kind s.text.toList

/-- The texts of symbols. -/
def isSymbolText (text : String) : Bool :=
  match text.toList with
  | [c] => singleSymbols.contains c
  | [c, d] => pairedSymbols.contains (c, d)
  | _ => false

/-- The texts of words. -/
def isWordText (text : String) : Bool :=
  match text.toList with
  | c :: rest => isIdentStart c && rest.all isIdentPart
  | [] => false

/-- The text of a symbol is a symbol of the lexer. -/
theorem isLexeme_symbol {text : String} (h : isSymbolText text) : IsLexeme .symbol text.toList := by
  unfold isSymbolText at h
  split at h
  · rename_i c htext
    exact .inr ⟨c, htext, List.contains_iff_mem.mp h⟩
  · rename_i c d htext
    exact .inl ⟨c, d, htext, List.contains_iff_mem.mp h⟩
  · cases h

/-- The text of a word is a word of the lexer. -/
theorem isLexeme_word {text : String} (h : isWordText text) : IsLexeme .ident text.toList := by
  unfold isWordText at h
  split at h
  · rename_i c rest htext
    rw [Bool.and_eq_true, List.all_eq_true] at h
    exact ⟨c, rest, htext, h.1, h.2⟩
  · cases h

namespace Lexical

variable {row more : Row} {text : String}

theorem nil : Lexical [] := nofun

/-- A shape of the lexer in front of others. -/
theorem cons {s : Shape} (hs : IsLexeme s.kind s.text.toList) (h : Lexical row) : Lexical (s :: row) := by
  intro t ht
  rcases List.mem_cons.mp ht with rfl | ht
  · exact hs
  · exact h t ht

/-- A symbol in front of a lexical row. -/
theorem symbol (htext : isSymbolText text) (h : Lexical row) : Lexical (.symbol text :: row) := h.cons (isLexeme_symbol htext)

/-- A word in front of a lexical row. -/
theorem word (htext : isWordText text) (h : Lexical row) : Lexical (.word text :: row) := h.cons (isLexeme_word htext)

/-- A name in front of a lexical row. -/
theorem name (hname : IsName text) (h : Lexical row) : Lexical (.word text :: row) := h.cons hname.1

/-- Lexical rows one behind the other. -/
theorem append (h : Lexical row) (hmore : Lexical more) : Lexical (row ++ more) := by
  intro s hs
  exact (List.mem_append.mp hs).elim (h s) (hmore s)

/-- Without its first shape a row is still lexical. -/
theorem tail (h : Lexical row) : Lexical row.tail := fun s hs => h s (List.mem_of_mem_tail hs)

/-- A lexical row in brackets. -/
theorem inBrackets (h : Lexical row) : Lexical (inBrackets row) :=
  (h.symbol (by decide)).append (nil.symbol (by decide))

/-- A lexical row with brackets where its level asks for them. -/
theorem guarded (h : Lexical row) (level : Nat) (e : Expr) : Lexical (guarded level e row) := by
  unfold Script.guarded
  split
  · exact h.inBrackets
  · exact h

/-- The row of a key is lexical, with brackets or without them. -/
theorem keyRow (h : Lexical row) : Lexical (keyRow row) := by
  unfold Script.keyRow
  split
  · exact h.inBrackets
  · exact h

/-- A shielded row is lexical. -/
theorem shielded (h : Lexical row) : Lexical (shielded row) := by
  unfold Script.shielded
  split
  · exact h.inBrackets
  · exact h

end Lexical

variable {numeral : Number → String} {literal : Number → Prop}

/-- The symbols of binary operators are symbols of the lexer. -/
theorem isSymbolText_binary (op : BinaryOp) : isSymbolText op.symbol := by
  rcases op with (_ | _ | _ | _ | _) | (_ | _ | _ | _ | _ | _) | (_ | _) <;> decide

/-- The symbols of unary operators are symbols of the lexer. -/
theorem isSymbolText_unary (op : UnaryOp) : isSymbolText op.symbol := by cases op <;> decide

mutual

/-- The tokens of a printed expression can be written. -/
theorem Expr.lexical_row (hwrites : Writes numeral literal) : (e : Expr) → e.Printable literal → Lexical (e.row numeral)
  | .null _, _ => Lexical.nil.word (by decide)
  | .bool _ true, _ => Lexical.nil.word (by decide)
  | .bool _ false, _ => Lexical.nil.word (by decide)
  | .number _ n, h => Lexical.nil.cons (hwrites n h).1
  | .string _ text, _ => Lexical.nil.cons (by rw [String.toList_ofList]; exact Json.isLexeme_quoted text)
  | .rawString _ _, h => Lexical.nil.cons h
  | .var _ _, h => Lexical.nil.name h
  | .array _ items, h => ((Expr.lexical_rows hwrites items h).tail.symbol (by decide)).append (Lexical.nil.symbol (by decide))
  | .object _ fields, h => ((Expr.lexical_fieldRows hwrites fields h).tail.symbol (by decide)).append (Lexical.nil.symbol (by decide))
  | .call _ callee args, h => ((callee.lexical_row hwrites h.1).guarded _ _).append
      (((Expr.lexical_rows hwrites args h.2).tail.symbol (by decide)).append (Lexical.nil.symbol (by decide)))
  | .unary _ op operand, h => ((operand.lexical_row hwrites h).guarded _ _).symbol (isSymbolText_unary op)
  | .member _ base _, h => ((base.lexical_row hwrites h.1).guarded _ _).append ((Lexical.nil.name h.2).symbol (by decide))
  | .index _ base key, h => ((base.lexical_row hwrites h.1).guarded _ _).append
      (((key.lexical_row hwrites h.2).symbol (by decide)).append (Lexical.nil.symbol (by decide)))
  | .binary _ op left right, h => ((left.lexical_row hwrites h.1).guarded _ _).append
      (((right.lexical_row hwrites h.2).guarded _ _).symbol (isSymbolText_binary op))

/-- The items of an array are printed as lexical rows. -/
theorem Expr.lexical_rows (hwrites : Writes numeral literal) : (items : List Expr) → Expr.AllPrintable literal items →
    Lexical (Expr.rows numeral items)
  | [], _ => .nil
  | e :: items, h => ((e.lexical_row hwrites h.1).symbol (by decide)).append (Expr.lexical_rows hwrites items h.2)

/-- The fields of an object are printed as lexical rows. -/
theorem Expr.lexical_fieldRows (hwrites : Writes numeral literal) : (fields : List (Span × Expr × Expr)) →
    Expr.FieldsPrintable literal fields → Lexical (Expr.fieldRows numeral fields)
  | [], _ => .nil
  | (_, key, value) :: fields, h => ((key.lexical_row hwrites h.1).keyRow.symbol (by decide)).append
      (((value.lexical_row hwrites h.2.1).symbol (by decide)).append (Expr.lexical_fieldRows hwrites fields h.2.2))

end

/-- The names of parameters are printed as lexical rows. -/
theorem lexical_nameRows {params : List Ident} (h : ∀ param ∈ params, IsName param.name) : Lexical (nameRows params) := by
  induction params with
  | nil => exact .nil
  | cons param params ih =>
    exact ((ih fun p hp => h p (List.mem_cons_of_mem param hp)).name (h param List.mem_cons_self)).symbol (by decide)

mutual

/-- The tokens of a printed statement can be written. -/
theorem Stmt.lexical_row (hwrites : Writes numeral literal) : (s : Stmt) → s.Printable literal → Lexical (s.row numeral)
  | .let_ _ _ value, h => ((((value.lexical_row hwrites h.2).symbol (by decide)).name h.1).word (by decide)).append
      (Lexical.nil.symbol (by decide))
  | .assign _ target value, h => (target.lexical_row hwrites h.2.1).shielded.append
      (((value.lexical_row hwrites h.2.2).symbol (by decide)).append (Lexical.nil.symbol (by decide)))
  | .function _ _ _ body, h => ((((lexical_nameRows h.2.1).tail.symbol (by decide)).name h.1).word (by decide)).append
      ((body.lexical_row hwrites h.2.2).symbol (by decide))
  | .if_ _ cond body otherwise, h => ((cond.lexical_row hwrites h.1).inBrackets.word (by decide)).append
      ((body.lexical_row hwrites h.2.1).append (otherwise.lexical_row hwrites h.2.2))
  | .while_ _ cond body, h => ((cond.lexical_row hwrites h.1).inBrackets.word (by decide)).append (body.lexical_row hwrites h.2)
  | .return_ _ none, _ => (Lexical.nil.symbol (by decide)).word (by decide)
  | .return_ _ (some value), h => ((value.lexical_row hwrites (h value rfl)).word (by decide)).append (Lexical.nil.symbol (by decide))
  | .break_ _, _ => (Lexical.nil.symbol (by decide)).word (by decide)
  | .continue_ _, _ => (Lexical.nil.symbol (by decide)).word (by decide)
  | .block body, h => body.lexical_row hwrites h
  | .expr _ e, h => (e.lexical_row hwrites h).shielded.append (Lexical.nil.symbol (by decide))

/-- A block is printed as a lexical row. -/
theorem Block.lexical_row (hwrites : Writes numeral literal) : (body : Block) → body.Printable literal → Lexical (body.row numeral)
  | .mk _ stmts, h => ((Stmt.lexical_rows hwrites stmts h).symbol (by decide)).append (Lexical.nil.symbol (by decide))

/-- What stands behind the block of an `if` is printed as a lexical row. -/
theorem Otherwise.lexical_row (hwrites : Writes numeral literal) : (otherwise : Otherwise) → otherwise.Printable literal →
    Lexical (otherwise.row numeral)
  | .nothing, _ => .nil
  | .block body, h => (body.lexical_row hwrites h).word (by decide)
  | .elseIf _ cond body otherwise, h => (((cond.lexical_row hwrites h.1).inBrackets.word (by decide)).word (by decide)).append
      ((body.lexical_row hwrites h.2.1).append (otherwise.lexical_row hwrites h.2.2))

/-- Statements are printed as lexical rows. -/
theorem Stmt.lexical_rows (hwrites : Writes numeral literal) : (stmts : List Stmt) → Stmt.AllPrintable literal stmts →
    Lexical (Stmt.rows numeral stmts)
  | [], _ => .nil
  | s :: stmts, h => (s.lexical_row hwrites h.1).append (Stmt.lexical_rows hwrites stmts h.2)

end

/-- The tokens of a printed script can be written. -/
theorem Module.lexical_row (hwrites : Writes numeral literal) (m : Module) (h : m.Printable literal) : Lexical (m.row numeral) := by
  obtain ⟨host, stmts⟩ := m
  have hstmts := Stmt.lexical_rows hwrites stmts h.2
  cases host with
  | none => exact hstmts
  | some host => exact ((((hstmts.symbol (by decide)).name (h.1 host rfl)).word (by decide)).word (by decide)).word (by decide)

/-! ## Texts -/

/-- Words with a gap between any two of them. -/
def Spaced (words : List Word) : Prop :=
  (∀ w ∈ words, IsGap w.gap) ∧ ∀ w ∈ words.tail, w.gap ≠ []

/-- A text in which the tokens of a row stand one behind the other, with a gap between any two of them. -/
structure Lays (row : Row) (text : String) : Prop where
  words : ∃ words last, text.toList = written words ++ last ∧ words.map wordShape = row ∧ Spaced words ∧ (gapEnds false last).isSome

/-- The tokens of a row with a blank in front of each. -/
def spread (row : Row) : String := String.ofList (row.flatMap fun s => ' ' :: Lexer.lexemeChars s.kind s.text.toList)

/-- A row with a space in front of every shape lays it out. -/
theorem lays_spread (row : Row) : Lays row (spread row) where
  words := by
    refine ⟨row.map fun s => ⟨[' '], s.kind, s.text.toList⟩, [], ?_, ?_, ⟨?_, ?_⟩, rfl⟩
    · rw [spread, String.toList_ofList, List.append_nil, written, List.flatMap_map]
      rfl
    · rw [List.map_map, List.map_congr_left (g := id) fun s _ => by simp [wordShape], List.map_id]
    · intro w hw
      obtain ⟨s, -, rfl⟩ := List.mem_map.mp hw
      rfl
    · intro w hw
      obtain ⟨s, -, rfl⟩ := List.mem_map.mp (List.mem_of_mem_tail hw)
      exact List.cons_ne_nil _ _

/-- Every token ends in front of a gap. -/
theorem stops_gap {gap : List Char} (h : (gapEnds false gap).isSome) (kind : TokenKind) (text : List Char) :
    Stops kind text gap.head? := by
  cases gap with
  | nil => exact Stops.none kind text
  | cons c rest =>
    have hcloses : ∀ c ∈ ['\n', ' ', '\t', '#', '\r'], Dialect.Closes c := by
      simp only [List.forall_mem_cons, List.not_mem_nil, false_implies, implies_true, and_true]
      exact ⟨closes_symbol rfl (by decide), closes_symbol rfl (by decide), closes_symbol rfl (by decide), closes_symbol rfl (by decide),
        closes_symbol rfl (by decide)⟩
    refine hcloses c ?_ kind text
    unfold gapEnds at h
    cases hnext : gapNext false c rest.head? with
    | none =>
      rw [hnext] at h
      cases h
    | some next =>
      unfold gapNext at hnext
      grind

/-- Words with gaps between them are read one by one. -/
theorem Spaced.fits {words : List Word} (h : Spaced words) (hlexemes : ∀ w ∈ words, IsLexeme w.kind w.text) {last : List Char}
    (hlast : (gapEnds false last).isSome) : Fits words last.head? := by
  induction words with
  | nil => trivial
  | cons w words ih =>
    have hrest : Spaced words :=
      ⟨fun v hv => h.1 v (List.mem_cons_of_mem w hv), fun v hv => h.2 v (List.mem_of_mem_tail hv)⟩
    refine ⟨h.1 w List.mem_cons_self, hlexemes w List.mem_cons_self, ?_, ih hrest fun v hv => hlexemes v (List.mem_cons_of_mem w hv)⟩
    cases words with
    | nil => exact stops_gap hlast w.kind w.text
    | cons v words =>
      have hgap : IsGap v.gap := h.1 v (List.mem_cons_of_mem w List.mem_cons_self)
      have hne : v.gap ≠ [] := h.2 v List.mem_cons_self
      have hhead : (written (v :: words)).head? = v.gap.head? := by
        rw [written_cons, Word.chars, List.append_assoc, List.head?_append_of_ne_nil _ hne]
      rw [hhead, Option.or_of_isSome (List.isSome_head?.mpr hne)]
      exact stops_gap (by rw [hgap]; rfl) w.kind w.text

/-- A printed script is parsed to the script that was printed. -/
theorem Module.ofSource_row (hwrites : Writes numeral literal) {m : Module} (hm : m.Printable literal) {source : Source}
    (hlays : Lays (m.row numeral) source.text) : ∃ m', Module.ofSource source = .ok m' ∧ m'.bare = m.bare := by
  obtain ⟨words, last, htext, hrow, hspaced, hlast⟩ := hlays
  have hlexemes : ∀ w ∈ words, IsLexeme w.kind w.text := by
    intro w hw
    have hmem : wordShape w ∈ m.row numeral := hrow ▸ List.mem_map_of_mem hw
    have hlexeme := m.lexical_row hwrites hm _ hmem
    rwa [wordShape, String.toList_ofList] at hlexeme
  obtain ⟨htokens, pos, hending⟩ := scan_written htext (hspaced.fits hlexemes hlast) hlast
  rw [← m.bare_bare]
  refine (m.reads_row hwrites hm).ofSource ?_ ⟨_, pos, hending⟩
  rw [htokens, shapes_placed, hrow]
  exact (shapes_tokensOf _).symm

/-- The numbers that a script can write: integers that are not negative. -/
def IsNatural (n : Number) : Prop := ∃ i : Int64, n = .int i ∧ 0 ≤ i.toInt

/-- The compact text of a natural number is read as this number. -/
theorem writes_compact : Writes Number.compact IsNatural := by
  rintro n ⟨i, rfl, hi⟩
  have htext := Number.ofText_integerText hi
  refine ⟨?_, htext⟩
  rw [Number.compact, Number.integerText_nonneg hi, String.toList_ofList]
  refine Number.isNumeral_digits ?_
  rw [← Number.integerText_nonneg hi, htext]
  rfl

/-- Parsing undoes printing: a script is parsed back from every text of its tokens that has a gap between any two of them. Brackets
stand only where they are needed, strings are printed as data, and numbers are integers that are not negative. -/
theorem Module.ofSource_printed {m : Module} (hm : m.Printable IsNatural) {source : Source}
    (hlays : Lays (m.row Number.compact) source.text) : ∃ m', Module.ofSource source = .ok m' ∧ m'.bare = m.bare :=
  Module.ofSource_row writes_compact hm hlays

/-- A difference whose right operand is a difference keeps its brackets. -/
def differences : Module := ⟨none, [.return_ .nowhere (some (.binary .nowhere (.arith .sub) (.number .nowhere (.int 3))
  (.binary .nowhere (.arith .sub) (.number .nowhere (.int 2)) (.number .nowhere (.int 1)))))]⟩

theorem ofSource_differences : ∃ m, Module.ofSource ⟨"", " return 3 - ( 2 - 1 ) ;"⟩ = .ok m ∧ m.bare = differences :=
  Module.ofSource_printed (m := differences)
    ⟨nofun, fun e he => Option.some.inj he ▸ ⟨⟨3, rfl, by decide⟩, ⟨2, rfl, by decide⟩, 1, rfl, by decide⟩, trivial⟩
    (show Lays (differences.row Number.compact) " return 3 - ( 2 - 1 ) ;" from lays_spread _)

end HostScript.Script
