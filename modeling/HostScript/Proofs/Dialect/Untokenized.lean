import Mathlib
import HostScript.Proofs.Dialect.Emitted
import HostScript.Proofs.Script.Ending

/-!
# What cannot be cut into tokens

A source of which a tail cannot be cut into tokens is rendered in two parts: the statements read before the tail, and the tail without
the blanks at its ends. The first part consists of words, which the reader of tokens reads, so whether the host script is refused is
decided by the trimmed tail alone (`untokenizable_render`). Trimming can save a tail only by removing the character at which it is
refused: a blank that the lexer does not know, or a carriage return without its line feed.
-/

namespace HostScript.Dialect

open Lexer

theorem lexes_newline_front (rest : List Char) : Lexes ('\n' :: rest) ↔ Lexes rest := lexes_gap (show IsGap ['\n'] from rfl)

/-- A row of words in front of a line end changes nothing for the text behind it. -/
theorem lexes_line {words : List Word} (h : Fits words (some '\n')) (rest : List Char) :
    Lexes (written words ++ '\n' :: rest) ↔ Lexes rest := (lexes_words h).trans (lexes_newline_front rest)

/-! ## The host script -/

/-- A trimmed text does not end in a carriage return. -/
theorem trimChars_end (text front : List Char) : Text.trimChars text ≠ front ++ ['\r'] := by
  intro h
  have hreversed : (text.dropWhile Text.isBlank).reverse.dropWhile Text.isBlank = '\r' :: front.reverse := by
    unfold Text.trimChars at h
    rw [← List.reverse_reverse (List.dropWhile _ _), h, List.reverse_append]
    rfl
  have := head_dropWhile '\r' (by rw [hreversed]; rfl)
  nomatch this

/-- Whether the host script of a source can be cut into tokens is decided by the tail. -/
theorem render_lexes_iff (source : Source) : Lexes (render source).script.text.toList ↔ Lexes (tailOf source).toList := by
  have hlines : Fits (lineWords (emissionsOf source)) (some '\n') := lineWords_fits fun e he => emissionsOf_genuine he
  rw [render_written, lexes_line importWords_fits, lexes_line hlines]
  split
  · rename_i hempty
    rw [String.isEmpty_iff.mp hempty]
    rfl
  · have hend : ∀ front, (tailOf source).toList ≠ front ++ ['\r'] := by
      intro front
      unfold tailOf
      split
      · simp
      · rw [Text.trim, String.toList_ofList]
        exact trimChars_end _ front
    rw [linesText, List.flatMap_singleton]
    exact lexes_newline hend

/-- A source of which a tail cannot be cut into tokens. -/
def Untokenizable (source : Source) : Prop := ∃ fault rest, source.scan.ending = .stopped fault rest

theorem untokenizable_iff (source : Source) : Untokenizable source ↔ ¬ Lexes source.text.toList :=
  scanFrom_stopped_iff .origin source.text.toList

/-- What cannot be cut into tokens surfaces when the host script is compiled, unless trimming saves it. The host script cannot be cut
into tokens exactly if the trimmed tail cannot; then it does not compile, and otherwise it is not refused for its tokens. The tail
is refused at some character, and trimming can save it only if that character is a blank. -/
theorem untokenizable_render {source : Source} {fault : LexFault} {rest : String}
    (h : source.scan.ending = .stopped fault rest) :
    (Untokenizable (render source).script ↔ Untokenizable ⟨source.name, Text.trim rest⟩) ∧
      (Untokenizable ⟨source.name, Text.trim rest⟩ →
        ∃ fault', Program.ofSource (render source).script = .error (.parse fault')) ∧
      (∀ fault', Program.ofSource (render source).script = .error (.parse (.lexical fault')) →
        Untokenizable ⟨source.name, Text.trim rest⟩) ∧
      (∃ c, RefusedAt c rest.toList) ∧
      ∀ c, RefusedAt c rest.toList → Text.isBlank c = false → Untokenizable ⟨source.name, Text.trim rest⟩ := by
  have htail : tailOf source = Text.trim rest := by
    unfold tailOf
    rw [h]
  have hscript : Untokenizable (render source).script ↔ Untokenizable ⟨source.name, Text.trim rest⟩ := by
    rw [untokenizable_iff, untokenizable_iff, render_lexes_iff, htail]
  refine ⟨hscript, fun hrefused => ?_, fun fault' hfault => ?_, ?_, fun c hc hblank => ?_⟩
  · exact Program.ofSource_error ((untokenizable_iff _).mp (hscript.mpr hrefused))
  · exact hscript.mp ((untokenizable_iff _).mpr (Program.ofSource_lexical hfault))
  · obtain ⟨words, left, -, -, -, hending⟩ := scanFrom_ok .origin source.text.toList
    have hstopped : (scanFrom .origin source.text.toList).2 = .stopped fault rest := h
    rw [hstopped] at hending
    obtain ⟨hblocked, hleft⟩ := hending
    rw [hleft, String.toList_ofList]
    exact hblocked.refusedAt
  · rw [untokenizable_iff, Text.trim, String.toList_ofList]
    exact not_lexes_trimChars hc hblank

/-- A string that is not closed surfaces. -/
theorem untokenizable_render_open :
    ∃ fault, Program.ofSource (render ⟨"case", "say 1; say \"open;"⟩).script = .error (.parse fault) := by
  have hsource : (⟨"case", "say 1; say \"open;"⟩ : Source).scan.ending =
      .stopped ⟨.unmatchedQuote, 1, 12⟩ " \"open;" := by decide +kernel
  have htail : (⟨"case", Text.trim " \"open;"⟩ : Source).scan.ending = .stopped ⟨.unmatchedQuote, 1, 1⟩ "\"open;" := by decide +kernel
  exact (untokenizable_render hsource).2.1 ⟨_, _, htail⟩

/-- A no-break space in front of a tail is trimmed away, and the tail is compiled as if it had not been there. -/
theorem untokenizable_render_lost :
    Untokenizable ⟨"case", "\u00a0kp.output(2);"⟩ ∧
      (Program.ofSource (render ⟨"case", "\u00a0kp.output(2);"⟩).script).toOption.isSome := by
  have hsource : (⟨"case", "\u00a0kp.output(2);"⟩ : Source).scan.ending =
      .stopped ⟨.invalidCharacter, 1, 1⟩ "\u00a0kp.output(2);" := by decide +kernel
  exact ⟨⟨_, _, hsource⟩, by decide +kernel⟩

end HostScript.Dialect
