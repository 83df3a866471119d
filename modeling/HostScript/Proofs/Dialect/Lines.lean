import Mathlib
import HostScript.Proofs.Dialect.Grouped
import HostScript.Proofs.Token.Joined

/-!
# Shown lines are cut into tokens

The tokens of a text that shows printed statements (`tokenized_scan`): those of each statement stand on the line that holds it, whose
number gives its column (`lineIndent_shown`). The lines in between add to the gaps only, so the induction on the lines carries the gap
that has been passed since the last token.
-/

namespace HostScript.Dialect

open Lexer

/-- Tokens that stand for printed statements, those of each one on a line of its own. -/
def Tokenized (indentOf : Nat → Nat) (line : Nat) : List Printed → List Token → Prop
  | [], tokens => tokens = []
  | p :: printed, tokens => ∃ here row more, tokens = row ++ more ∧ shapes row = p.row ∧ (∀ token ∈ row, OnLine here token) ∧
      line ≤ here ∧ indentOf here = p.column ∧ Tokenized indentOf (here + 1) printed more

theorem Tokenized.mono {indentOf : Nat → Nat} {line line' : Nat} {printed : List Printed} {tokens : List Token}
    (h : Tokenized indentOf line' printed tokens) (hline : line ≤ line') : Tokenized indentOf line printed tokens := by
  cases printed with
  | nil => exact h
  | cons p printed =>
    obtain ⟨here, row, more, htokens, hrow, honLine, hhere, hindent, hmore⟩ := h
    exact ⟨here, row, more, htokens, hrow, honLine, Nat.le_trans hline hhere, hindent, hmore⟩

/-- The first token stands on one of the lines that were meant. -/
theorem Tokenized.head {indentOf : Nat → Nat} {line : Nat} {printed : List Printed} {tokens : List Token}
    (h : Tokenized indentOf line printed tokens) {token : Token} (htoken : tokens.head? = some token) : line ≤ token.span.line := by
  induction printed generalizing line tokens with
  | nil =>
    obtain rfl : tokens = [] := h
    nomatch htoken
  | cons p printed ih =>
    obtain ⟨here, row, more, rfl, -, honLine, hhere, -, hmore⟩ := h
    cases row with
    | nil =>
      have := ih hmore htoken
      omega
    | cons first row =>
      obtain rfl := Option.some.inj htoken
      obtain ⟨hspan, -⟩ := honLine first List.mem_cons_self
      omega

/-! ## What stands between statements -/

/-- A line end is a gap, also behind a comment. -/
theorem IsLineEnd.gap {eol : List Char} (h : IsLineEnd eol) (comment : Bool) : gapEnds comment eol = some false := by
  rcases h with rfl | rfl <;> cases comment <;> rfl

theorem IsLineEnd.count {eol : List Char} (h : IsLineEnd eol) : eol.count '\n' = 1 := by
  rcases h with rfl | rfl <;> rfl

theorem IsLineEnd.head {eol : List Char} (h : IsLineEnd eol) {c : Char} (hc : eol.head? = some c) : Text.isBlank c := by
  rcases h with rfl | rfl
  · obtain rfl := Option.some.inj hc
    decide
  · obtain rfl := Option.some.inj hc
    decide

/-- A line end is a line feed, with nothing in front of it that could indent a line. -/
theorem IsLineEnd.mark {eol : List Char} (h : IsLineEnd eol) :
    ∃ mark, eol = mark ++ ['\n'] ∧ '\n' ∉ mark ∧ ∀ line, columnOf (line ++ mark) = columnOf line := by
  rcases h with rfl | rfl
  · exact ⟨[], rfl, nofun, fun line => by rw [List.append_nil]⟩
  · exact ⟨['\r'], rfl, by decide, fun line => Line.indent_append (by decide) (by decide) line []⟩

theorem gapEnds_blanks {blanks : List Char} (h : ∀ c ∈ blanks, c = ' ' ∨ c = '\t') : gapEnds false blanks = some false := by
  induction blanks with
  | nil => rfl
  | cons c blanks ih =>
    obtain ⟨hc, hrest⟩ := List.forall_mem_cons.mp h
    have hnext : gapNext false c blanks.head? = some false := by
      rcases hc with rfl | rfl <;> rfl
    rw [gapEnds, hnext]
    exact ih hrest

theorem gapEnds_comment {comment : List Char} (h : '\n' ∉ comment) : gapEnds true comment = some true := by
  induction comment with
  | nil => rfl
  | cons c comment ih =>
    rw [List.mem_cons, not_or] at h
    obtain ⟨hc, hrest⟩ := h
    have hnext : gapNext true c comment.head? = some true := by
      unfold gapNext
      rw [beq_false_of_ne (Ne.symm hc)]
      rfl
    rw [gapEnds, hnext]
    exact ih hrest

/-- Blank lines and comments are gaps. -/
theorem IsNoise.gap {line : List Char} (h : IsNoise line) : (gapEnds false line).isSome := by
  obtain ⟨blanks, comment, hblanks, hcomment, rfl | rfl⟩ := h
  · rw [gapEnds_blanks hblanks]
    rfl
  · have hhash : gapNext false '#' comment.head? = some true := rfl
    rw [gapEnds_append (gapEnds_blanks hblanks), gapEnds, hhash]
    dsimp only
    rw [gapEnds_comment hcomment]
    rfl

theorem IsNoise.oneLine {line : List Char} (h : IsNoise line) : '\n' ∉ line := by
  obtain ⟨blanks, comment, hblanks, hcomment, hline⟩ := h
  have hblanks : '\n' ∉ blanks := fun hmem => absurd (hblanks _ hmem) (by decide)
  rcases hline with rfl | rfl
  · exact hblanks
  · simp [hblanks, hcomment]

theorem Shows.oneLine {printed : List Printed} {lines : List (List Char)} (h : Shows printed lines) : ∀ line ∈ lines, '\n' ∉ line := by
  induction h with
  | nil => exact nofun
  | noise h _ ih => exact List.forall_mem_cons.mpr ⟨h.oneLine, ih⟩
  | statement h _ ih => exact List.forall_mem_cons.mpr ⟨h.oneLine, ih⟩

/-! ## A line that holds a statement -/

/-- The shape of a word. -/
def wordShape (w : Word) : Shape := ⟨w.kind, String.ofList w.text⟩

theorem shapes_placed (pos : Position) (words : List Word) : shapes (placed pos words) = words.map wordShape := by
  induction words generalizing pos with
  | nil => rfl
  | cons w words ih => exact congrArg (wordShape w :: ·) (ih (w.after pos))

/-- A gap in front of words does not change their shapes. -/
theorem gapped_shapes (gap : List Char) (words : List Word) : (gapped gap words).map wordShape = words.map wordShape := by
  cases words <;> rfl

/-- A line that holds a statement consists of the words of the statement and a gap. -/
theorem Holds.words {line : List Char} {printed : Printed} (h : Holds line printed) :
    ∃ words left, line = written words ++ left ∧ Fits words left.head? ∧ words.map wordShape = printed.row ∧
      (gapEnds false left).isSome := by
  obtain ⟨words, left, hline, hfits, htokens, hending⟩ := scanFrom_ok .origin line
  have hleft : (gapEnds false left).isSome := by
    have hends := h.ends
    cases hend : (scanFrom .origin line).2 with
    | complete gap here =>
      rw [hend] at hending
      exact hending.1
    | stopped fault rest =>
      rw [hend] at hends
      nomatch hends
  refine ⟨words, left, hline, hfits, ?_, hleft⟩
  rw [← h.row, htokens, shapes_placed]

/-- The tokens of a statement are read from its line, behind a gap and in front of a line end. -/
theorem scanFrom_held {line : List Char} {printed : Printed} (h : Holds line printed) (hne : printed.row ≠ []) {gap rest : List Char}
    (hgap : IsGap gap) (hrest : ∀ c, rest.head? = some c → Text.isBlank c) {pos : Position} {here : Nat}
    (hhere : (passGap false pos gap).line = here) :
    ∃ row left after, (scanFrom pos (gap ++ (line ++ rest))).1 = row ++ (scanFrom after (left ++ rest)).1 ∧ shapes row = printed.row ∧
      (∀ token ∈ row, OnLine here token) ∧ (gapEnds false left).isSome ∧ (passGap false after left).line = here := by
  obtain ⟨words, left, hline, hfits, hrow, hleft⟩ := h.words
  have honeLine := h.oneLine
  rw [hline, List.mem_append, not_or] at honeLine
  obtain ⟨hwritten, hleftLine⟩ := honeLine
  cases words with
  | nil => exact absurd hrow.symm hne
  | cons w words =>
    -- the gap in front of the line becomes part of the gap in front of the first word
    have hextended : Fits ({ w with gap := gap ++ w.gap } :: words) left.head? := by
      refine hfits.gap ?_
      rw [IsGap, gapEnds_append hgap]
      exact hfits.1
    have hfits' : Fits ({ w with gap := gap ++ w.gap } :: words) (left ++ rest).head? := by
      cases left with
      | cons c left => exact hextended
      | nil =>
        cases rest with
        | nil => exact hextended
        | cons c rest => exact hextended.blank (hrest c rfl)
    have htext : gap ++ (line ++ rest) = written ({ w with gap := gap ++ w.gap } :: words) ++ (left ++ rest) := by
      rw [hline, written_cons, written_cons, Word.chars, Word.chars]
      simp only [List.append_assoc]
    obtain ⟨htokens, hafter⟩ := placed_cons_onLine hwritten hhere
    refine ⟨placed pos ({ w with gap := gap ++ w.gap } :: words), left, _, ?_, ?_, htokens, hleft,
      (passGap_sameLine false _ hleftLine).trans hafter⟩
    · rw [htext, scanFrom_append hfits']
    · rw [shapes_placed]
      exact hrow

/-! ## All lines -/

/-- What stands behind a line: nothing, or a line end and more lines. -/
def behindLine (eol : List Char) : List (List Char) → List Char
  | [] => []
  | line :: more => eol ++ List.intercalate eol (line :: more)

theorem intercalate_cons (eol line : List Char) (more : List (List Char)) :
    List.intercalate eol (line :: more) = line ++ behindLine eol more := by
  cases more with
  | nil => rw [List.intercalate_singleton, behindLine, List.append_nil]
  | cons next more => rw [List.intercalate_cons_cons, behindLine, List.append_assoc]

theorem behindLine_head {eol : List Char} (heol : IsLineEnd eol) (more : List (List Char)) {c : Char}
    (hc : (behindLine eol more).head? = some c) : Text.isBlank c := by
  cases more with
  | nil => nomatch hc
  | cons line more =>
    rw [behindLine, List.head?_append] at hc
    cases hhead : eol.head? with
    | none =>
      have := heol.count
      rw [List.head?_eq_none_iff.mp hhead] at this
      nomatch this
    | some d =>
      rw [hhead] at hc
      obtain rfl := Option.some.inj hc
      exact heol.head hhead

/-- The lines behind a gap, which a comment may end: a line end makes it a gap in front of the next line. -/
theorem tokenized_behind {eol left : List Char} {printed : List Printed} {lines : List (List Char)} {indentOf : Nat → Nat} {here : Nat}
    {pos : Position} (heol : IsLineEnd eol) (h : Shows printed lines) (hleft : (gapEnds false left).isSome)
    (hhere : (passGap false pos left).line = here)
    (hlines : ∀ gap, IsGap gap → (passGap false pos gap).line = here + 1 →
      Tokenized indentOf (here + 1) printed (scanFrom pos (gap ++ List.intercalate eol lines)).1) :
    Tokenized indentOf (here + 1) printed (scanFrom pos (left ++ behindLine eol lines)).1 := by
  obtain ⟨comment, hcomment⟩ := Option.isSome_iff_exists.mp hleft
  cases lines with
  | nil =>
    cases h
    rw [behindLine, List.append_nil, scanFrom_gap hleft]
    rfl
  | cons line more =>
    rw [behindLine, ← List.append_assoc]
    refine hlines (left ++ eol) ?_ ?_
    · rw [IsGap, gapEnds_append hcomment]
      exact heol.gap comment
    · rw [passGap_line, List.count_append, heol.count, ← Nat.add_assoc, ← passGap_line false, hhere]

/-- Lines that show printed statements are cut into tokens that stand for them. -/
theorem tokenized_scan {eol : List Char} {printed : List Printed} {lines : List (List Char)} {indentOf : Nat → Nat}
    (heol : IsLineEnd eol) (h : Shows printed lines) (hrows : ∀ p ∈ printed, p.row ≠ []) {pos : Position} {gap : List Char} {here : Nat}
    (hgap : IsGap gap) (hhere : (passGap false pos gap).line = here)
    (hindent : ∀ i line, lines[i]? = some line → indentOf (here + i) = columnOf line) :
    Tokenized indentOf here printed (scanFrom pos (gap ++ List.intercalate eol lines)).1 := by
  induction h generalizing pos gap here with
  | nil =>
    have hsome : (gapEnds false gap).isSome := by
      rw [hgap]
      rfl
    rw [List.intercalate_nil, List.append_nil, scanFrom_gap hsome]
    rfl
  | noise hnoise hmore ih =>
    rename_i printed line lines
    have hindent' : ∀ i next, lines[i]? = some next → indentOf (here + 1 + i) = columnOf next := by
      intro i next hnext
      rw [Nat.add_right_comm]
      exact hindent (i + 1) next hnext
    have hsome : (gapEnds false (gap ++ line)).isSome := by
      rw [gapEnds_append hgap]
      exact hnoise.gap
    have hsame : (passGap false pos (gap ++ line)).line = here := by
      rw [passGap_line, List.count_append, List.count_eq_zero.mpr hnoise.oneLine, Nat.add_zero, ← passGap_line false, hhere]
    rw [intercalate_cons, ← List.append_assoc]
    have hbehind := tokenized_behind heol hmore hsome hsame fun gap hgap hnext => ih hrows hgap hnext hindent'
    exact hbehind.mono (Nat.le_succ here)
  | statement hholds hmore ih =>
    rename_i p printed line lines
    obtain ⟨hrow, hrows⟩ := List.forall_mem_cons.mp hrows
    have hindent' : ∀ i next, lines[i]? = some next → indentOf (here + 1 + i) = columnOf next := by
      intro i next hnext
      rw [Nat.add_right_comm]
      exact hindent (i + 1) next hnext
    rw [intercalate_cons]
    obtain ⟨row, left, after, hscan, hshapes, honLine, hleft, hafter⟩ :=
      scanFrom_held hholds hrow hgap (fun c hc => behindLine_head heol lines hc) hhere
    have hbehind := tokenized_behind heol hmore hleft hafter fun gap hgap hnext => ih hrows hgap hnext hindent'
    have hcolumn : indentOf here = p.column := (hindent 0 line rfl).trans hholds.column
    exact ⟨here, row, _, hscan, hshapes, honLine, Nat.le_refl here, hcolumn, hbehind⟩

/-! ## The columns of lines -/

/-- The indentations of the lines of a text are the columns at which its lines begin. -/
theorem linesFrom_columns {eol : List Char} (heol : IsLineEnd eol) {line : List Char} {more : List (List Char)}
    (h : ∀ next ∈ line :: more, '\n' ∉ next) (start offset : Nat) :
    (linesFrom start offset [] (List.intercalate eol (line :: more))).map Line.indent = (line :: more).map columnOf := by
  obtain ⟨mark, rfl, hmark, hcolumn⟩ := heol.mark
  induction more generalizing line start offset with
  | nil =>
    rw [List.intercalate_singleton, linesFrom_last (h line List.mem_cons_self), List.append_nil]
    simp only [List.map_cons, List.map_nil, Line.ofReversed_indent, List.reverse_reverse, columnOf]
  | cons next more ih =>
    obtain ⟨hline, hmore⟩ := List.forall_mem_cons.mp h
    have honeLine : '\n' ∉ line ++ mark := by
      rw [List.mem_append, not_or]
      exact ⟨hline, hmark⟩
    have htext : List.intercalate (mark ++ ['\n']) (line :: next :: more) =
        (line ++ mark) ++ '\n' :: List.intercalate (mark ++ ['\n']) (next :: more) := by
      rw [List.intercalate_cons_cons]
      simp only [List.append_assoc, List.singleton_append]
    obtain ⟨here, hlines⟩ :=
      linesFrom_line honeLine start offset [] (List.intercalate (mark ++ ['\n']) (next :: more))
    rw [htext, hlines, List.map_cons, ih hmore, Line.ofReversed_indent, List.append_nil, List.reverse_reverse, List.map_cons]
    rw [show Line.indent ⟨0, line ++ mark⟩ = columnOf line from hcolumn line]
    rfl

/-- The indentation of a line of a source is the column at which the line of its text begins. -/
theorem lineIndent_shown {eol : List Char} (heol : IsLineEnd eol) {source : Source} {lines : List (List Char)}
    (h : ∀ line ∈ lines, '\n' ∉ line) (htext : source.text.toList = List.intercalate eol lines) {i : Nat} {line : List Char}
    (hline : lines[i]? = some line) : source.lineIndent (1 + i) = columnOf line := by
  cases lines with
  | nil => nomatch hline
  | cons first more =>
    have hindents : source.lines.map Line.indent = (first :: more).map columnOf := by
      unfold Source.lines
      rw [htext]
      exact linesFrom_columns heol h 0 0
    unfold Source.lineIndent
    rw [Nat.add_sub_cancel_left, ← List.getElem?_map, hindents, List.getElem?_map, hline]
    rfl

end HostScript.Dialect
