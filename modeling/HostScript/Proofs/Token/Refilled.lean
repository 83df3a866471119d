import Mathlib
import HostScript.Proofs.Token.Joined
import HostScript.Proofs.Token.Place

/-!
# Literals with other contents

The contents of the literals of a source are replaced (`Source.refilled`). If the new contents are legal and have as many line feeds as
the old ones, the tokens stay on their lines and differ only between their quotes (`Token.hollow`). The indentation of a line can change
only where the line begins inside a raw string; contents that keep it where it counts are told by `Replaces`.
-/

namespace HostScript

/-- The tokens of a class stand between quotes. -/
def isQuoted (kind : TokenKind) : Bool := (Token.delimiter? kind).isSome

/-- A token without what stands between its quotes, except for the line feeds there, and without its columns. -/
def Token.hollow (t : Token) : Token :=
  ⟨t.kind, ⟨t.span.line, 0, 0, 0⟩,
    if isQuoted t.kind then String.ofList (List.replicate (t.text.toList.count '\n') '\n') else t.text, t.gap⟩

namespace Token

variable {t : Token}

/-- A token keeps its class. -/
@[simp] theorem hollow_kind (t : Token) : t.hollow.kind = t.kind := rfl

/-- A token keeps the line on which it begins. -/
@[simp] theorem hollow_line (t : Token) : t.hollow.span.line = t.span.line := rfl

/-- A token keeps the gap in front of it. -/
@[simp] theorem hollow_gap (t : Token) : t.hollow.gap = t.gap := rfl

/-- A token without quotes keeps its text. -/
theorem hollow_text (h : isQuoted t.kind = false) : t.hollow.text = t.text := by
  unfold hollow
  rw [h]
  rfl

/-- Names and symbols are told by their text, which they keep. -/
theorem hollow_test {kind : TokenKind} (hkind : isQuoted kind = false) (p : String → Bool) :
    (t.hollow.kind == kind && p t.hollow.text) = (t.kind == kind && p t.text) := by
  rw [hollow_kind]
  by_cases h : t.kind = kind
  · rw [hollow_text (h ▸ hkind)]
  · rw [beq_false_of_ne h, Bool.false_and, Bool.false_and]

/-- A token is the same symbol as before. -/
@[simp] theorem hollow_isSymbol (t : Token) (text : String) : t.hollow.isSymbol text = t.isSymbol text :=
  hollow_test rfl (· == text)

/-- A token is the same name as before. -/
@[simp] theorem hollow_isIdent (t : Token) (text : String) : t.hollow.isIdent text = t.isIdent text :=
  hollow_test rfl (· == text)

/-- A token keeps the line on which it ends. -/
@[simp] theorem hollow_endLine (t : Token) : t.hollow.endLine = t.endLine := by
  unfold endLine
  rw [hollow_kind, hollow_line]
  split
  · rename_i hraw
    have hquoted : isQuoted t.kind = true := by
      rw [beq_iff_eq.mp hraw]
      rfl
    unfold hollow
    rw [if_pos hquoted, String.toList_ofList, List.count_replicate_self]
  · rfl

end Token

/-- The literals of a row of tokens. -/
def literals (tokens : List Token) : List Token := tokens.filter fun t => isQuoted t.kind

namespace Lexer

/-- The words of tokens with other contents between the quotes, one literal after another. A literal for which there are none keeps
its own. -/
def refill : List Token → List (List Char) → List Word
  | [], _ => []
  | t :: rest, contents =>
    if isQuoted t.kind then ⟨t.gap.toList, t.kind, contents.head?.getD t.text.toList⟩ :: refill rest contents.tail
    else Word.ofToken t :: refill rest contents

/-- What is left of a text behind its last token. -/
def Ending.left : Ending → List Char
  | .complete gap _ => gap.toList
  | .stopped _ rest => rest.toList

/-- What is left behind the last token of a source that is read to its end. -/
@[simp] theorem Ending.left_complete (gap : String) (pos : Position) : (Ending.complete gap pos).left = gap.toList := rfl

end Lexer

/-- A source with other contents of its literals. -/
def Source.refilled (source : Source) (contents : List (List Char)) : Source :=
  ⟨source.name, String.ofList (Lexer.written (Lexer.refill source.scan.tokens contents) ++ source.scan.ending.left)⟩

namespace Lexer

/-- Contents by which those of a literal can be replaced: they are legal in the same quotes and have as many line feeds, and if the
literal has any and something is opened on the line on which it ends, they leave the indentation of that line as it is. -/
structure Replaces (opened : Nat → Prop) (t : Token) (text : List Char) : Prop where
  legal : IsLexeme t.kind text
  newlines : text.count '\n' = t.text.toList.count '\n'
  indent : '\n' ∈ t.text.toList → opened t.endLine → Line.indent ⟨0, lastLine text⟩ = Line.indent ⟨0, lastLine t.text.toList⟩

/-- A word that stands for a token, possibly with other contents between its quotes. -/
structure Refills (opened : Nat → Prop) (t : Token) (w : Word) : Prop where
  gap : w.gap = t.gap.toList
  kind : w.kind = t.kind
  plain : isQuoted t.kind = false → w.text = t.text.toList
  quoted : isQuoted t.kind = true → Replaces opened t w.text

variable {opened : Nat → Prop}

/-- If each content can replace that of its literal, each word stands for its token. -/
theorem refill_refills {tokens : List Token} {contents : List (List Char)}
    (h : List.Forall₂ (Replaces opened) (literals tokens) contents) :
    List.Forall₂ (Refills opened) tokens (refill tokens contents) := by
  induction tokens generalizing contents with
  | nil => exact .nil
  | cons t rest ih =>
    unfold literals at h
    rw [List.filter_cons] at h
    rw [refill]
    split
    · rename_i hquoted
      rw [if_pos hquoted] at h
      obtain ⟨text, contents, htext, hrest, rfl⟩ := List.forall₂_cons_left_iff.mp h
      have hplain : isQuoted t.kind = false → text = t.text.toList := by
        intro hplain
        rw [hquoted] at hplain
        contradiction
      exact .cons ⟨rfl, rfl, hplain, fun _ => htext⟩ (ih hrest)
    · rename_i hplain
      rw [if_neg hplain] at h
      exact .cons ⟨rfl, rfl, fun _ => rfl, fun hquoted => absurd hquoted hplain⟩ (ih h)

/-! ## Words -/

/-- What stands between quotes has the same quote on both sides, which is not blank. -/
theorem lexemeChars_quoted {kind : TokenKind} (h : isQuoted kind) :
    ∃ quote, Text.isBlank quote = false ∧ ∀ text, lexemeChars kind text = quote :: (text ++ [quote]) := by
  cases kind with
  | string => exact ⟨'"', by decide, fun _ => rfl⟩
  | rawString => exact ⟨'\x60', by decide, fun _ => rfl⟩
  | _ => contradiction

/-- A literal stops at its quote, whatever is behind it. -/
theorem Stops.quoted {kind : TokenKind} (h : isQuoted kind) (text : List Char) (next : Option Char) : Stops kind text next := by
  cases kind with
  | string => trivial
  | rawString => trivial
  | _ => contradiction

namespace Refills

variable {v w : Word} {pos : Position}

/-- The gap stays. -/
theorem gap_eq (h : Refills opened (v.token pos) w) : w.gap = v.gap := h.gap.trans String.toList_ofList

/-- The class stays. -/
theorem kind_eq (h : Refills opened (v.token pos) w) : w.kind = v.kind := h.kind

/-- The text of a token without quotes stays. -/
theorem text_eq (h : Refills opened (v.token pos) w) (hplain : isQuoted v.kind = false) : w.text = v.text :=
  (h.plain hplain).trans String.toList_ofList

/-- A token is written in a legal form again. -/
theorem lexeme (h : Refills opened (v.token pos) w) (hv : IsLexeme v.kind v.text) : IsLexeme w.kind w.text := by
  rw [h.kind_eq]
  cases hquoted : isQuoted v.kind with
  | true => exact (h.quoted hquoted).legal
  | false =>
    rw [h.text_eq hquoted]
    exact hv

/-- A token has as many line feeds as before. -/
theorem newlines (h : Refills opened (v.token pos) w) : w.text.count '\n' = v.text.count '\n' := by
  cases hquoted : isQuoted v.kind with
  | true => exact (h.quoted hquoted).newlines.trans (congrArg (List.count '\n') String.toList_ofList)
  | false => rw [h.text_eq hquoted]

/-- The written form of a token that is refilled begins as before and has as many line feeds. -/
theorem chars (h : Refills opened (v.token pos) w) :
    w.chars.head? = v.chars.head? ∧ w.chars.count '\n' = v.chars.count '\n' := by
  have hnewlines := h.newlines
  unfold Word.chars
  rw [h.gap_eq, h.kind_eq]
  cases hquoted : isQuoted v.kind with
  | true =>
    obtain ⟨quote, -, hchars⟩ := lexemeChars_quoted hquoted
    rw [hchars, hchars, List.head?_append, List.head?_append, List.count_append, List.count_append, List.count_cons, List.count_cons,
      List.count_append, List.count_append, hnewlines]
    exact ⟨rfl, rfl⟩
  | false =>
    rw [h.text_eq hquoted]
    exact ⟨rfl, rfl⟩

end Refills

/-- Words that are refilled fit as before, and begin as before. -/
theorem fits_refilled {words words' : List Word} {next : Option Char} {pos : Position} (h : Fits words next)
    (hrefills : List.Forall₂ (Refills opened) (placed pos words) words') :
    Fits words' next ∧ (written words').head? = (written words).head? := by
  induction words generalizing pos words' with
  | nil =>
    obtain rfl := List.forall₂_nil_left_iff.mp hrefills
    exact ⟨trivial, rfl⟩
  | cons v words ih =>
    obtain ⟨w, rest, hw, hrest, rfl⟩ := List.forall₂_cons_left_iff.mp hrefills
    obtain ⟨hgap, hlexeme, hstops, hwords⟩ := h
    obtain ⟨hfits, hhead⟩ := ih hwords hrest
    refine ⟨⟨hw.gap_eq ▸ hgap, hw.lexeme hlexeme, ?_, hfits⟩, ?_⟩
    · rw [hhead, hw.kind_eq]
      cases hquoted : isQuoted v.kind with
      | true => exact Stops.quoted hquoted _ _
      | false =>
        rw [hw.text_eq hquoted]
        exact hstops
    · rw [written_cons, written_cons, List.head?_append, List.head?_append, hw.chars.1, hhead]

/-- Tokens that are refilled stay on their lines and differ only between their quotes. -/
theorem hollow_refilled {words words' : List Word} {next : Option Char} {pos pos' : Position} (h : Fits words next)
    (hrefills : List.Forall₂ (Refills opened) (placed pos words) words') (hline : pos'.line = pos.line) :
    (placed pos' words').map Token.hollow = (placed pos words).map Token.hollow := by
  induction words generalizing pos pos' words' with
  | nil =>
    obtain rfl := List.forall₂_nil_left_iff.mp hrefills
    rfl
  | cons v words ih =>
    obtain ⟨w, rest, hw, hrest, rfl⟩ := List.forall₂_cons_left_iff.mp hrefills
    obtain ⟨-, hlexeme, -, hwords⟩ := h
    have hafter : (w.after pos').line = (v.after pos).line := by
      rw [Word.after_line (hw.lexeme hlexeme), Word.after_line hlexeme, hline, hw.chars.2]
    have htoken : (w.token pos').hollow = (v.token pos).hollow := by
      have hspan : (w.token pos').span.line = (v.token pos).span.line := by
        rw [Word.token_line, Word.token_line, hline, hw.gap_eq]
      have hkind : (w.token pos').kind = (v.token pos).kind := hw.kind_eq
      have hgap : (w.token pos').gap = (v.token pos).gap := congrArg String.ofList hw.gap_eq
      have htext : (w.token pos').text.toList = w.text := String.toList_ofList
      have htext' : (v.token pos).text.toList = v.text := String.toList_ofList
      unfold Token.hollow
      rw [hspan, hkind, hgap, htext, htext', hw.newlines]
      cases hquoted : isQuoted (v.token pos).kind with
      | true => rfl
      | false =>
        have hsame : (w.token pos').text = (v.token pos).text := congrArg String.ofList (hw.text_eq hquoted)
        rw [hsame]
    rw [placed, placed, List.map_cons, List.map_cons, htoken, ih hwords hrest hafter]

/-! ## Indentation -/

/-- Two texts lead to the same indentation of every line that is opened behind them. -/
def Leads (opened : Nat → Prop) (front front' : List Char) : Prop :=
  ∀ text, opened (1 + (front ++ text).count '\n') → Line.indent ⟨0, lastLine (front' ++ text)⟩ = Line.indent ⟨0, lastLine (front ++ text)⟩

/-- What leads to the same indentations still does with the same text behind it. -/
theorem Leads.append {front front' : List Char} (h : Leads opened front front') (text : List Char) :
    Leads opened (front ++ text) (front' ++ text) := by
  intro more hopened
  rw [List.append_assoc] at hopened ⊢
  rw [List.append_assoc]
  exact h (text ++ more) hopened

/-- A blank indents a line, and no quote does. -/
theorem not_blank_indents {c : Char} (h : Text.isBlank c = false) : c ≠ ' ' ∧ c ≠ '\t' ∧ c ≠ '\n' := by
  refine ⟨?_, ?_, ?_⟩ <;>
  · rintro rfl
    contradiction

/-- What indents the line on which a text behind a literal ends. -/
theorem indent_behind_literal {quote : Char} (h : Text.isBlank quote = false) (front inside more : List Char) :
    Line.indent ⟨0, lastLine (front ++ quote :: (inside ++ [quote]) ++ more)⟩ =
      if '\n' ∈ more then Line.indent ⟨0, lastLine more⟩
      else if '\n' ∈ inside then Line.indent ⟨0, lastLine inside⟩ else Line.indent ⟨0, lastLine front⟩ := by
  obtain ⟨hspace, htab, hnewline⟩ := not_blank_indents h
  rw [lastLine_append]
  by_cases hmore : '\n' ∈ more
  · rw [if_pos hmore, if_pos hmore]
  · have hquote : '\n' ∉ [quote] := by simpa using Ne.symm hnewline
    have hinside : '\n' ∈ quote :: (inside ++ [quote]) ↔ '\n' ∈ inside := by simp [Ne.symm hnewline]
    rw [if_neg hmore, if_neg hmore, lastLine_append]
    by_cases hin : '\n' ∈ inside
    · have hlast : lastLine (quote :: (inside ++ [quote])) = lastLine inside ++ [quote] := by
        rw [← List.cons_append, lastLine_append, if_neg hquote, ← List.singleton_append, lastLine_append, if_pos hin]
      rw [if_pos (hinside.mpr hin), if_pos hin, hlast, List.append_assoc, List.singleton_append, Line.indent_append hspace htab]
    · rw [if_neg (hin ∘ hinside.mp), if_neg hin, List.append_assoc, List.cons_append, Line.indent_append hspace htab]

/-- A token that is refilled leads on to the same indentation. -/
theorem Refills.leads {v w : Word} {pos : Position} {front front' : List Char} (h : Refills opened (v.token pos) w)
    (hlexeme : IsLexeme v.kind v.text) (hpos : pos.line = 1 + front.count '\n') (hleads : Leads opened front front') :
    Leads opened (front ++ v.chars) (front' ++ w.chars) := by
  have hgap := hleads.append v.gap
  unfold Word.chars
  rw [h.gap_eq, h.kind_eq, ← List.append_assoc, ← List.append_assoc]
  cases hquoted : isQuoted v.kind with
  | false =>
    rw [h.text_eq hquoted]
    exact hgap.append _
  | true =>
    obtain ⟨quote, hblank, hchars⟩ := lexemeChars_quoted hquoted
    have hreplaces := h.quoted hquoted
    have htext : (v.token pos).text.toList = v.text := String.toList_ofList
    have hmem : '\n' ∈ w.text ↔ '\n' ∈ v.text := by
      rw [← List.count_pos_iff, h.newlines, List.count_pos_iff]
    intro more hopened
    rw [hchars] at hopened ⊢
    rw [hchars, indent_behind_literal hblank, indent_behind_literal hblank]
    simp only [hmem]
    by_cases hmore : '\n' ∈ more
    · rw [if_pos hmore, if_pos hmore]
    · rw [if_neg hmore, if_neg hmore]
      have hcount : (front ++ v.gap ++ quote :: (v.text ++ [quote]) ++ more).count '\n' =
          (front ++ v.gap).count '\n' + v.text.count '\n' := by
        have hquote : quote ≠ '\n' := (not_blank_indents hblank).2.2
        simp [List.count_eq_zero.mpr hmore, hquote, Nat.add_assoc]
      rw [hcount] at hopened
      by_cases hin : '\n' ∈ v.text
      · have hend : (v.token pos).endLine = 1 + ((front ++ v.gap).count '\n' + v.text.count '\n') := by
          rw [Word.token_endLine hlexeme, Word.token_line, hpos, List.count_append]
          omega
        rw [if_pos hin, if_pos hin]
        have hindent := hreplaces.indent (htext ▸ hin) (hend ▸ hopened)
        rw [htext] at hindent
        exact hindent
      · rw [if_neg hin, if_neg hin]
        rw [List.count_eq_zero.mpr hin, Nat.add_zero, ← List.append_nil (front ++ v.gap)] at hopened
        have hsame := hgap [] hopened
        rw [List.append_nil, List.append_nil] at hsame
        exact hsame

/-- Lines on which tokens open something keep their indentation. -/
theorem lineIndent_refilled {words words' : List Word} {next : Option Char} {pos : Position} (h : Fits words next)
    (hrefills : List.Forall₂ (Refills opened) (placed pos words) words') {source source' : Source} {front front' left : List Char}
    (htext : source.text.toList = front ++ (written words ++ left)) (htext' : source'.text.toList = front' ++ (written words' ++ left))
    (hpos : pos.line = 1 + front.count '\n') (hcount : front'.count '\n' = front.count '\n') (hleads : Leads opened front front') :
    ∀ t ∈ placed pos words, opened t.span.line → source'.lineIndent t.span.line = source.lineIndent t.span.line := by
  induction words generalizing pos words' front front' with
  | nil => simp [placed]
  | cons v words ih =>
    obtain ⟨w, rest, hw, hrest, rfl⟩ := List.forall₂_cons_left_iff.mp hrefills
    obtain ⟨-, hlexeme, -, hwords⟩ := h
    intro t ht hopened
    rcases List.mem_cons.mp ht with rfl | ht
    · have hline : (v.token pos).span.line = 1 + (front ++ v.gap).count '\n' := by
        rw [Word.token_line, hpos, List.count_append]
        omega
      have hline' : 1 + (front ++ v.gap).count '\n' = 1 + (front' ++ v.gap).count '\n' := by
        rw [List.count_append, List.count_append, hcount]
      have hat : ∀ {u : Word} {s : Source} {before more : List Char}, IsLexeme u.kind u.text →
          s.text.toList = before ++ ((u.gap ++ lexemeChars u.kind u.text) ++ more) →
          s.lineIndent (1 + (before ++ u.gap).count '\n') = Line.indent ⟨0, lastLine (before ++ u.gap)⟩ := by
        intro u s before more hu hs
        obtain ⟨c, inside, hchars, hc⟩ := Word.lexeme_ne_nil hu
        obtain ⟨hspace, htab, hnewline⟩ := not_blank_indents (opensWord_not_blank hc)
        have htext : s.text.toList = (before ++ u.gap) ++ c :: (inside ++ more) := by
          rw [hs, hchars]
          simp
        exact Source.lineIndent_front htext hspace htab hnewline
      have hnew : source'.text.toList = front' ++ ((w.gap ++ lexemeChars w.kind w.text) ++ (written rest ++ left)) := by
        rw [htext', written_cons, Word.chars]
        simp only [List.append_assoc]
      have hold : source.text.toList = front ++ ((v.gap ++ lexemeChars v.kind v.text) ++ (written words ++ left)) := by
        rw [htext, written_cons, Word.chars]
        simp only [List.append_assoc]
      have hnewIndent := hat (hw.lexeme hlexeme) hnew
      rw [hw.gap_eq] at hnewIndent
      rw [hline] at hopened ⊢
      rw [hat hlexeme hold, hline', hnewIndent]
      exact hleads v.gap hopened
    · have hafter : (v.after pos).line = 1 + (front ++ v.chars).count '\n' := by
        rw [Word.after_line hlexeme, hpos, List.count_append]
        omega
      refine ih hwords hrest ?_ ?_ hafter ?_ (hw.leads hlexeme hpos hleads) t ht hopened
      · rw [htext, written_cons]
        simp only [List.append_assoc]
      · rw [htext', written_cons]
        simp only [List.append_assoc]
      · rw [List.count_append, List.count_append, hcount, hw.chars.2]

/-! ## Sources -/

/-- A source with other contents of its literals is cut into the same tokens, except for what stands between their quotes, and lines on
which something is opened keep their indentation. -/
theorem scan_refilled {source : Source} {gap : String} {pos : Position} (h : source.scan.ending = .complete gap pos)
    {contents : List (List Char)} (hcontents : List.Forall₂ (Replaces opened) (literals source.scan.tokens) contents) :
    (∃ pos', (source.refilled contents).scan.ending = .complete gap pos') ∧
      (source.refilled contents).scan.tokens.map Word.ofToken = refill source.scan.tokens contents ∧
      (source.refilled contents).scan.tokens.map Token.hollow = source.scan.tokens.map Token.hollow ∧
      ∀ t ∈ source.scan.tokens, opened t.span.line →
        (source.refilled contents).lineIndent t.span.line = source.lineIndent t.span.line := by
  have hrefills := refill_refills hcontents
  obtain ⟨words, htext, hfits, hgap, htokens⟩ := scan_complete h
  rw [htokens] at hrefills
  obtain ⟨hfits', hhead⟩ := fits_refilled hfits hrefills
  have htext' : (source.refilled contents).text.toList = written (refill (placed .origin words) contents) ++ gap.toList := by
    rw [Source.refilled, h, htokens, String.toList_ofList]
    rfl
  obtain ⟨htokens', pos', hending⟩ := scan_written htext' hfits' hgap
  rw [String.ofList_toList] at hending
  refine ⟨⟨pos', hending⟩, ?_, ?_, ?_⟩
  · rw [htokens', htokens, map_ofToken_placed]
  · rw [htokens', htokens]
    exact hollow_refilled hfits hrefills rfl
  · rw [htokens]
    have hstart : Leads opened [] [] := fun _ _ => rfl
    exact lineIndent_refilled hfits hrefills htext htext' rfl rfl hstart

end Lexer

end HostScript
