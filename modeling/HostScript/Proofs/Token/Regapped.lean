import Mathlib
import HostScript.Proofs.Token.Place

/-!
# Other gaps between the same tokens

If other gaps are put between the words of a source, its tokens keep their classes and texts, but may come to stand on lines of other
numbers. `Regapped` says that, word by word, a token still begins on a line with the same text in front of it and that it begins and ends
on lines that are counted in the same way; then the sources are the same but for the numbers of their lines (`Renumbered`).
-/

namespace HostScript

/-- A token on a line of another number, without its columns and the gap in front of it. -/
def Token.bare (number : Nat → Nat) (t : Token) : Token := ⟨t.kind, ⟨number t.span.line, 0, 0, 0⟩, t.text, ""⟩

/-- Two sources have the same tokens but for the gaps and the numbers of lines: `number` gives for the number of a line of the second source
its number in the first. -/
structure Renumbered (number : Nat → Nat) (source source' : Source) : Prop where
  tokens : source'.scan.tokens.map (Token.bare number) = source.scan.tokens.map (Token.bare id)
  endLine : ∀ t ∈ source'.scan.tokens, (t.bare number).endLine = number t.endLine
  indent : ∀ t ∈ source'.scan.tokens, source.lineIndent (number t.span.line) = source'.lineIndent t.span.line

/-- What stands in front of a line does not matter to the last one. -/
theorem lastLine_cons {text : List Char} (h : '\n' ∈ text) (c : Char) : lastLine (c :: text) = lastLine text := by
  rw [← List.singleton_append, lastLine_append, if_pos h]

namespace Lexer

theorem lexemeChars_newlines (kind : TokenKind) (text : List Char) : (lexemeChars kind text).count '\n' = text.count '\n' := by
  cases kind <;> simp [lexemeChars, Token.delimiter?]

/-- A token ends on the line on which reading goes on behind it. -/
theorem Word.endLine_after {w : Word} (h : IsLexeme w.kind w.text) (pos : Position) : (w.token pos).endLine = (w.after pos).line := by
  rw [Word.token_endLine h, Word.token_line, Word.after_line h, Word.chars, List.count_append, lexemeChars_newlines, Nat.add_assoc]

/-- A token that begins behind a text is indented by the last line of the text. -/
theorem Word.lineIndent {w : Word} (h : IsLexeme w.kind w.text) {source : Source} {front rest : List Char}
    (htext : source.text.toList = front ++ (w.chars ++ rest)) :
    source.lineIndent (1 + (front ++ w.gap).count '\n') = Line.indent ⟨0, lastLine (front ++ w.gap)⟩ := by
  obtain ⟨c, more, hchars, hc⟩ := Word.lexeme_ne_nil h
  have hblank := opensWord_not_blank hc
  have hfront : source.text.toList = (front ++ w.gap) ++ c :: (more ++ rest) := by
    rw [htext, Word.chars, hchars]
    simp
  refine Source.lineIndent_front hfront ?_ ?_ ?_ <;>
  · rintro rfl
    contradiction

/-- Behind two texts the same stands on their last lines, which are one line but for its number. -/
structure Aligned (number : Nat → Nat) (front front' : List Char) : Prop where
  line : number (1 + front'.count '\n') = 1 + front.count '\n'
  text : lastLine front' = lastLine front

/-- The same words, one row with other gaps behind another text: each begins and ends on lines that are the same but for their numbers. -/
inductive Regapped (number : Nat → Nat) : List Char → List Char → List Word → List Word → Prop
  | nil {front front' : List Char} : Regapped number front front' [] []
  | cons {front front' : List Char} {w w' : Word} {words words' : List Word} (hkind : w'.kind = w.kind) (htext : w'.text = w.text)
    (hbegins : Aligned number (front ++ w.gap) (front' ++ w'.gap)) (hends : Aligned number (front ++ w.chars) (front' ++ w'.chars))
    (hrest : Regapped number (front ++ w.chars) (front' ++ w'.chars) words words') :
    Regapped number front front' (w :: words) (w' :: words')

/-- Reading goes on to the line on which the text behind a word begins. -/
theorem Word.after_line_front {w : Word} (h : IsLexeme w.kind w.text) {pos : Position} {front : List Char}
    (hpos : pos.line = 1 + front.count '\n') : (w.after pos).line = 1 + (front ++ w.chars).count '\n' := by
  rw [Word.after_line h, hpos, List.count_append, Nat.add_assoc]

/-- A token begins on the line on which the text in front of it ends. -/
theorem Word.token_line_front (w : Word) {pos : Position} {front : List Char} (hpos : pos.line = 1 + front.count '\n') :
    (w.token pos).span.line = 1 + (front ++ w.gap).count '\n' := by
  rw [Word.token_line, hpos, List.count_append, Nat.add_assoc]

namespace Regapped

variable {number : Nat → Nat} {front front' : List Char} {words words' : List Word} {pos pos' : Position} {next : Option Char}

/-- The tokens of words with other gaps are the same but for the gaps and the numbers of lines. -/
theorem placed (h : Regapped number front front' words words') (hfits : Fits words next) (hpos : pos.line = 1 + front.count '\n')
    (hpos' : pos'.line = 1 + front'.count '\n') :
    (Lexer.placed pos' words').map (Token.bare number) = (Lexer.placed pos words).map (Token.bare id) ∧
      ∀ t ∈ Lexer.placed pos' words', (t.bare number).endLine = number t.endLine := by
  induction h generalizing pos pos' with
  | nil => exact ⟨rfl, nofun⟩
  | @cons front front' w w' words words' hkind htext hbegins hends hrest ih =>
    obtain ⟨-, hlexeme, -, hwords⟩ := hfits
    have hlexeme' : IsLexeme w'.kind w'.text := by rwa [hkind, htext]
    have hafter := Word.after_line_front hlexeme hpos
    have hafter' := Word.after_line_front hlexeme' hpos'
    have htoken : (w'.token pos').bare number = (w.token pos).bare id := by
      have hkinds : (w'.token pos').kind = (w.token pos).kind := hkind
      have htexts : (w'.token pos').text = (w.token pos).text := congrArg String.ofList htext
      unfold Token.bare
      rw [w'.token_line_front hpos', hbegins.line, ← w.token_line_front hpos, hkinds, htexts]
      rfl
    obtain ⟨htokens, hall⟩ := ih hwords hafter hafter'
    refine ⟨?_, List.forall_mem_cons.mpr ⟨?_, hall⟩⟩
    · rw [Lexer.placed, Lexer.placed, List.map_cons, List.map_cons, htoken, htokens]
    · have hbare : ((w.token pos).bare id).endLine = (w.token pos).endLine := rfl
      rw [htoken, hbare, Word.endLine_after hlexeme, Word.endLine_after hlexeme', hafter, hafter', hends.line]

/-- The lines on which the tokens begin are indented alike. -/
theorem lineIndent (h : Regapped number front front' words words') (hfits : Fits words next) {source source' : Source}
    {left left' : List Char} (htext : source.text.toList = front ++ (written words ++ left))
    (htext' : source'.text.toList = front' ++ (written words' ++ left')) (hpos' : pos'.line = 1 + front'.count '\n') :
    ∀ t ∈ Lexer.placed pos' words', source.lineIndent (number t.span.line) = source'.lineIndent t.span.line := by
  induction h generalizing pos' with
  | nil => exact nofun
  | @cons front front' w w' words words' hkind hword hbegins hends hrest ih =>
    obtain ⟨-, hlexeme, -, hwords⟩ := hfits
    have hlexeme' : IsLexeme w'.kind w'.text := by rwa [hkind, hword]
    rw [written_cons, List.append_assoc] at htext htext'
    have hafter' := Word.after_line_front hlexeme' hpos'
    refine List.forall_mem_cons.mpr ⟨?_, ih hwords (by rw [htext, List.append_assoc]) (by rw [htext', List.append_assoc]) hafter'⟩
    rw [w'.token_line_front hpos', hbegins.line, Word.lineIndent hlexeme htext, Word.lineIndent hlexeme' htext', hbegins.text]

/-- A source with other gaps is the same but for the numbers of its lines. -/
theorem renumbered {source source' : Source} {left left' : List Char} (h : Regapped number [] [] words words')
    (htext : source.text.toList = written words ++ left) (htext' : source'.text.toList = written words' ++ left')
    (hfits : Fits words left.head?) (hfits' : Fits words' left'.head?) (hleft : (gapEnds false left).isSome)
    (hleft' : (gapEnds false left').isSome) : Renumbered number source source' := by
  obtain ⟨htokens, -⟩ := scan_written htext hfits hleft
  obtain ⟨htokens', -⟩ := scan_written htext' hfits' hleft'
  have horigin : Position.origin.line = 1 + List.count '\n' [] := rfl
  obtain ⟨hsame, hend⟩ := h.placed hfits horigin horigin
  refine ⟨?_, ?_, ?_⟩
  · rw [htokens, htokens', hsame]
  · rwa [htokens']
  · rw [htokens']
    exact h.lineIndent hfits htext htext' horigin

end Regapped

end Lexer

end HostScript
