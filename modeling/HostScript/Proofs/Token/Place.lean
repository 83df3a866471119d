import Mathlib
import HostScript.Proofs.Json.Passed
import HostScript.Proofs.Token.Row

/-!
# The lines of tokens

Reading goes on to the next line at the line feeds of gaps and raw strings, and nowhere else. So the tokens of words without line feeds
stand on the line on which reading begins, and a source has as many lines as its text.
-/

namespace HostScript

/-- A token stands on a line, from its beginning to its end. -/
def OnLine (line : Nat) (token : Token) : Prop := token.span.line = line ∧ token.endLine = line

namespace Lexer

/-! ## Positions -/

theorem gapMove_line (comment : Bool) (c : Char) (pos : Position) :
    (gapMove comment c pos).line = pos.line + if c == '\n' then 1 else 0 := by
  unfold gapMove
  split <;> rfl

/-- A gap goes on as many lines as it has line feeds. -/
theorem passGap_line (comment : Bool) (pos : Position) (gap : List Char) :
    (passGap comment pos gap).line = pos.line + gap.count '\n' := by
  induction gap generalizing comment pos with
  | nil => rfl
  | cons c gap ih =>
    rw [passGap, ih, gapMove_line, List.count_cons]
    omega

theorem passGap_sameLine (comment : Bool) (pos : Position) {gap : List Char} (h : '\n' ∉ gap) :
    (passGap comment pos gap).line = pos.line := by
  rw [passGap_line, List.count_eq_zero.mpr h]
  rfl

/-- A raw string goes on as many lines as it has line feeds. -/
theorem passRaw_line (text : List Char) (pos : Position) :
    (text.foldl Position.passRaw pos).line = pos.line + text.count '\n' := by
  induction text generalizing pos with
  | nil => rfl
  | cons c text ih =>
    have hmove : (pos.passRaw c).line = pos.line + if c == '\n' then 1 else 0 := by
      unfold Position.passRaw
      split <;> rfl
    rw [List.foldl_cons, ih, hmove, List.count_cons]
    omega

/-- A token without line feeds ends on the line on which it begins. -/
theorem pieceOf_line (kind : TokenKind) (pos : Position) {text : List Char} (h : '\n' ∉ text) (rest : List Char) :
    (pieceOf kind pos text rest).span.line = pos.line ∧ (pieceOf kind pos text rest).after.line = pos.line := by
  cases kind with
  | rawString =>
    refine ⟨rfl, (passRaw_line text _).trans ?_⟩
    rw [List.count_eq_zero.mpr h]
    rfl
  | _ => exact ⟨rfl, rfl⟩

/-- A word stands on the line on which its gap ends, and reading goes on there. -/
theorem Word.token_onLine {line : Nat} {w : Word} {pos : Position} (hgap : (passGap false pos w.gap).line = line)
    (htext : '\n' ∉ w.text) : OnLine line (w.token pos) ∧ (w.after pos).line = line := by
  obtain ⟨hspan, hafter⟩ := pieceOf_line w.kind (passGap false pos w.gap) htext []
  have hbegins : (w.token pos).span.line = line := hspan.trans hgap
  refine ⟨⟨hbegins, ?_⟩, hafter.trans hgap⟩
  unfold Token.endLine
  split
  · rw [hbegins, Word.token, String.toList_ofList, List.count_eq_zero.mpr htext]
    rfl
  · exact hbegins

/-- Only raw strings have line feeds in them. -/
theorem IsLexeme.newline {kind : TokenKind} {text : List Char} (h : IsLexeme kind text) (hkind : kind ≠ .rawString) :
    '\n' ∉ text := by
  intro hmem
  cases kind with
  | symbol =>
    rcases h with ⟨c, d, rfl, hpair⟩ | ⟨c, rfl, hsingle⟩
    · have hpairs : ∀ pair ∈ pairedSymbols, '\n' ∉ [pair.1, pair.2] := by decide
      exact hpairs _ hpair hmem
    · obtain rfl := List.mem_singleton.mp hmem
      exact absurd hsingle (by decide)
  | ident =>
    obtain ⟨c, rest, rfl, hc, hrest⟩ := h
    rcases List.mem_cons.mp hmem with rfl | hmem
    · exact absurd hc (by decide)
    · exact absurd (hrest _ hmem) (by decide)
  | number => exact absurd (IsNumeral.not_blank h _ hmem) (by decide)
  | rawString => exact hkind rfl
  | string =>
    obtain ⟨-, value, hvalue⟩ := h
    exact Json.unquote_newline hvalue hmem

/-- A token begins on the line on which its gap ends. -/
theorem Word.token_line (w : Word) (pos : Position) : (w.token pos).span.line = pos.line + w.gap.count '\n' := by
  have hspan : (w.token pos).span.line = (passGap false pos w.gap).line := by
    unfold Word.token Word.piece
    cases w.kind <;> rfl
  rw [hspan, passGap_line]

/-- A token ends as many lines on as it has line feeds. -/
theorem Word.token_endLine {w : Word} (h : IsLexeme w.kind w.text) (pos : Position) :
    (w.token pos).endLine = (w.token pos).span.line + w.text.count '\n' := by
  have htext : (w.token pos).text.toList = w.text := String.toList_ofList
  have hkind : (w.token pos).kind = w.kind := rfl
  unfold Token.endLine
  split
  · rw [htext]
  · rename_i hraw
    have hline : '\n' ∉ w.text := h.newline fun heq => hraw (by rw [hkind, heq]; rfl)
    rw [List.count_eq_zero.mpr hline]
    rfl

/-- Reading goes on as many lines as the written form of a word has line feeds. -/
theorem Word.after_line {w : Word} (h : IsLexeme w.kind w.text) (pos : Position) :
    (w.after pos).line = pos.line + w.chars.count '\n' := by
  obtain ⟨gap, kind, text⟩ := w
  have hgap := passGap_line false pos gap
  rw [Word.chars, List.count_append, ← Nat.add_assoc, ← hgap]
  cases kind with
  | rawString =>
    have hchars : (lexemeChars .rawString text).count '\n' = text.count '\n' := by simp [lexemeChars, Token.delimiter?]
    rw [hchars]
    exact passRaw_line text _
  | string =>
    have hchars : (lexemeChars .string text).count '\n' = text.count '\n' := by simp [lexemeChars, Token.delimiter?]
    have hline : '\n' ∉ text := h.newline (by simp)
    rw [hchars, List.count_eq_zero.mpr hline]
    rfl
  | _ =>
    have hline : '\n' ∉ text := h.newline (by simp)
    change _ = _ + text.count '\n'
    rw [List.count_eq_zero.mpr hline]
    rfl

/-- The text of a word stands in its written form. -/
theorem Word.text_subset (w : Word) : ∀ c ∈ w.text, c ∈ w.chars := by
  intro c hc
  refine List.mem_append_right _ ?_
  unfold lexemeChars
  split
  · exact List.mem_append_left _ (List.mem_cons_of_mem _ hc)
  · exact hc

/-- The tokens of words without line feeds stand on one line. -/
theorem placed_onLine {line : Nat} {words : List Word} (h : '\n' ∉ written words) {pos : Position} (hpos : pos.line = line) :
    (∀ token ∈ placed pos words, OnLine line token) ∧ (passWords pos words).line = line := by
  induction words generalizing pos with
  | nil => exact ⟨nofun, hpos⟩
  | cons w words ih =>
    rw [written_cons, List.mem_append, not_or] at h
    obtain ⟨hw, hwords⟩ := h
    have hgap : '\n' ∉ w.gap := fun hmem => hw (List.mem_append_left _ hmem)
    have htext : '\n' ∉ w.text := fun hmem => hw (w.text_subset _ hmem)
    obtain ⟨htoken, hafter⟩ := Word.token_onLine ((passGap_sameLine false pos hgap).trans hpos) htext
    obtain ⟨htokens, hend⟩ := ih hwords hafter
    exact ⟨List.forall_mem_cons.mpr ⟨htoken, htokens⟩, hend⟩

/-- The same with a gap of any lines in front of the first word: the tokens stand on the line on which the gap ends. -/
theorem placed_cons_onLine {line : Nat} {w : Word} {words : List Word} (h : '\n' ∉ written (w :: words)) {pos : Position}
    {gap : List Char} (hgap : (passGap false pos gap).line = line) :
    (∀ token ∈ placed pos ({ w with gap := gap ++ w.gap } :: words), OnLine line token) ∧
      (passWords pos ({ w with gap := gap ++ w.gap } :: words)).line = line := by
  rw [written_cons, List.mem_append, not_or] at h
  obtain ⟨hw, hwords⟩ := h
  have hinner : '\n' ∉ w.gap := fun hmem => hw (List.mem_append_left _ hmem)
  have htext : '\n' ∉ w.text := fun hmem => hw (w.text_subset _ hmem)
  have hends : (passGap false pos (gap ++ w.gap)).line = line := by
    rw [passGap_line, List.count_append, List.count_eq_zero.mpr hinner, Nat.add_zero, ← passGap_line false, hgap]
  obtain ⟨htoken, hafter⟩ := Word.token_onLine (w := { w with gap := gap ++ w.gap }) hends htext
  obtain ⟨htokens, hend⟩ := placed_onLine hwords hafter
  exact ⟨List.forall_mem_cons.mpr ⟨htoken, htokens⟩, hend⟩

end Lexer

/-! ## The lines of a source -/

/-- What stands behind a line does not indent it, unless it begins with a blank or a tab. -/
theorem Line.indent_append {c : Char} (hspace : c ≠ ' ') (htab : c ≠ '\t') (line rest : List Char) :
    Line.indent ⟨0, line ++ c :: rest⟩ = Line.indent ⟨0, line⟩ := by
  unfold Line.indent
  have hstop : (line ++ c :: rest).takeWhile (fun c => c == ' ' || c == '\t') = line.takeWhile fun c => c == ' ' || c == '\t' := by
    induction line with
    | nil => simp [hspace, htab]
    | cons d line ih => rw [List.cons_append, List.takeWhile_cons, List.takeWhile_cons, ih]
  dsimp only
  rw [hstop]

/-- The indentation of a line does not depend on whether its end was a line feed alone. -/
theorem Line.ofReversed_indent (start : Nat) (all : List Char) : (Line.ofReversed start all).indent = Line.indent ⟨0, all.reverse⟩ := by
  unfold Line.ofReversed
  split
  · rename_i before
    rw [List.reverse_cons, Line.indent_append (by decide) (by decide)]
    rfl
  · rfl

/-- The last line of a text. -/
theorem linesFrom_last {line : List Char} (h : '\n' ∉ line) (start offset : Nat) (begun : List Char) :
    linesFrom start offset begun line = [Line.ofReversed start (line.reverse ++ begun)] := by
  induction line generalizing offset begun with
  | nil => rfl
  | cons c line ih =>
    rw [List.mem_cons, not_or] at h
    obtain ⟨hc, hline⟩ := h
    have hc : (c == '\n') = false := beq_false_of_ne (Ne.symm hc)
    rw [linesFrom]
    rw [hc, if_neg Bool.false_ne_true, ih hline, List.reverse_cons, List.append_assoc, List.singleton_append]

/-- A line in front of others. -/
theorem linesFrom_line {line : List Char} (h : '\n' ∉ line) (start offset : Nat) (begun rest : List Char) :
    ∃ next, linesFrom start offset begun (line ++ '\n' :: rest) =
      Line.ofReversed start (line.reverse ++ begun) :: linesFrom next next [] rest := by
  induction line generalizing offset begun with
  | nil => exact ⟨_, rfl⟩
  | cons c line ih =>
    rw [List.mem_cons, not_or] at h
    obtain ⟨hc, hline⟩ := h
    have hc : (c == '\n') = false := beq_false_of_ne (Ne.symm hc)
    obtain ⟨next, hnext⟩ := ih hline (offset + c.utf8Size) (c :: begun)
    refine ⟨next, ?_⟩
    rw [List.cons_append, linesFrom]
    rw [hc, if_neg Bool.false_ne_true, hnext, List.reverse_cons, List.append_assoc, List.singleton_append]

/-! ### The line on which a text ends -/

/-- What a text has behind its last line feed. -/
def lastLine (text : List Char) : List Char := (text.reverse.takeWhile (· != '\n')).reverse

theorem lastLine_self {text : List Char} (h : '\n' ∉ text) : lastLine text = text := by
  have hall : ∀ c ∈ text.reverse, (c != '\n') = true := by
    intro c hc
    exact bne_iff_ne.mpr fun heq => h (heq ▸ List.mem_reverse.mp hc)
  rw [lastLine, List.takeWhile_eq_self_iff.mpr hall, List.reverse_reverse]

theorem lastLine_append (front text : List Char) :
    lastLine (front ++ text) = if '\n' ∈ text then lastLine text else lastLine front ++ text := by
  unfold lastLine
  rw [List.reverse_append]
  split
  · rename_i hmem
    congr 1
    rw [List.takeWhile_append, if_neg]
    intro hlength
    have hall : text.reverse.takeWhile (· != '\n') = text.reverse := (List.takeWhile_prefix _).eq_of_length hlength
    have := List.takeWhile_eq_self_iff.mp hall '\n' (List.mem_reverse.mpr hmem)
    contradiction
  · rename_i hmem
    have hall : ∀ c ∈ text.reverse, (c != '\n') = true := by
      intro c hc
      exact bne_iff_ne.mpr fun heq => hmem (heq ▸ List.mem_reverse.mp hc)
    rw [List.takeWhile_append_of_pos hall, List.reverse_append, List.reverse_reverse]

theorem lastLine_cons_newline (text : List Char) : lastLine ('\n' :: text) = lastLine text := by
  by_cases hmem : '\n' ∈ text
  · rw [show '\n' :: text = ['\n'] ++ text from rfl, lastLine_append, if_pos hmem]
  · rw [show '\n' :: text = ['\n'] ++ text from rfl, lastLine_append, if_neg hmem, lastLine_self hmem]
    rfl

/-- The line begun is in front of what follows it. -/
theorem linesFrom_begun (start offset : Nat) (begun text : List Char) :
    ∃ more lines, linesFrom start offset begun text = Line.ofReversed start (more ++ begun) :: lines := by
  induction text generalizing offset begun with
  | nil => exact ⟨[], [], rfl⟩
  | cons c text ih =>
    rw [linesFrom]
    split
    · exact ⟨[], _, rfl⟩
    · obtain ⟨more, lines, h⟩ := ih (offset + c.utf8Size) (c :: begun)
      refine ⟨more ++ [c], lines, ?_⟩
      rw [h, List.append_assoc]
      rfl

/-- In front of a character that is no blank, the line of the character is indented by what the text in front of it has there. -/
theorem linesFrom_indent {c : Char} (hspace : c ≠ ' ') (htab : c ≠ '\t') (hnewline : c ≠ '\n') (front rest : List Char)
    (start offset : Nat) {begun : List Char} (hbegun : '\n' ∉ begun) :
    ((linesFrom start offset begun (front ++ c :: rest))[front.count '\n']?).map Line.indent =
      some (Line.indent ⟨0, lastLine (begun.reverse ++ front)⟩) := by
  induction front generalizing start offset begun with
  | nil =>
    have hc : (c == '\n') = false := beq_false_of_ne hnewline
    obtain ⟨more, lines, hlines⟩ := linesFrom_begun start (offset + c.utf8Size) (c :: begun) rest
    have hlast : lastLine (begun.reverse ++ []) = begun.reverse := by
      rw [List.append_nil, lastLine_self (by simpa using hbegun)]
    rw [List.nil_append, linesFrom]
    rw [hc, if_neg Bool.false_ne_true, hlines, List.count_nil, List.getElem?_cons_zero, Option.map_some, Line.ofReversed_indent,
      List.reverse_append, List.reverse_cons, List.append_assoc, List.singleton_append, Line.indent_append hspace htab, hlast]
  | cons d front ih =>
    rw [List.cons_append, linesFrom]
    split
    · rename_i hd
      obtain rfl := beq_iff_eq.mp hd
      have hlast : lastLine (begun.reverse ++ '\n' :: front) = lastLine front := by
        rw [lastLine_append, if_pos List.mem_cons_self, lastLine_cons_newline]
      rw [List.count_cons_self, List.getElem?_cons_succ, ih _ _ (List.not_mem_nil), hlast]
      rfl
    · rename_i hd
      have hd : d ≠ '\n' := fun heq => hd (by rw [heq]; rfl)
      have hbegun : '\n' ∉ d :: begun := by simp [hbegun, Ne.symm hd]
      rw [List.count_cons_of_ne hd, ih _ _ hbegun, List.reverse_cons, List.append_assoc, List.singleton_append]

/-- The line of a character that is no blank is indented by what the text in front of it has on that line. -/
theorem Source.lineIndent_front {source : Source} {front rest : List Char} {c : Char} (htext : source.text.toList = front ++ c :: rest)
    (hspace : c ≠ ' ') (htab : c ≠ '\t') (hnewline : c ≠ '\n') :
    source.lineIndent (1 + front.count '\n') = Line.indent ⟨0, lastLine front⟩ := by
  have hindent : ((linesFrom 0 0 [] (front ++ c :: rest))[front.count '\n']?).map Line.indent =
      some (Line.indent ⟨0, lastLine front⟩) :=
    linesFrom_indent hspace htab hnewline front rest 0 0 List.not_mem_nil
  rw [Source.lineIndent, Source.lines, htext, Nat.add_sub_cancel_left, hindent]
  rfl

end HostScript
