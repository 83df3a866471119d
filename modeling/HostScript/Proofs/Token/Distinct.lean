import Mathlib
import HostScript.Proofs.Token.Row

/-!
# The spans of tokens

Reading goes on at every token, so no two tokens of a text begin at the same place, and a token is known by its span (`placed_start`).
-/

namespace HostScript.Lexer

theorem byteLength_pos {text : List Char} (h : text ≠ []) : 0 < byteLength text := by
  obtain ⟨c, rest, rfl⟩ := List.exists_cons_of_ne_nil h
  exact Nat.lt_of_lt_of_le c.utf8Size_pos (Nat.le_add_right _ _)

/-- Reading a gap does not go back. -/
theorem passGap_offset (comment : Bool) (pos : Position) (gap : List Char) : pos.offset ≤ (passGap comment pos gap).offset := by
  induction gap generalizing comment pos with
  | nil => exact Nat.le_refl _
  | cons c gap ih =>
    have hmove : pos.offset ≤ (gapMove comment c pos).offset := by
      unfold gapMove
      split <;> exact Nat.le_add_right _ _
    exact hmove.trans (ih _ _)

/-- Reading a raw string does not go back. -/
theorem passRaw_offset (text : List Char) (pos : Position) : pos.offset ≤ (text.foldl Position.passRaw pos).offset := by
  induction text generalizing pos with
  | nil => exact Nat.le_refl _
  | cons c text ih =>
    have hmove : pos.offset ≤ (pos.passRaw c).offset := by
      unfold Position.passRaw
      split <;> exact Nat.le_add_right _ _
    exact hmove.trans (ih _)

/-- A token begins behind its gap, and reading goes on behind its beginning. -/
theorem pieceOf_start {kind : TokenKind} {text : List Char} (h : IsLexeme kind text) (pos : Position) :
    pos.offset ≤ (pieceOf kind pos text []).span.start ∧
      (pieceOf kind pos text []).span.start < (pieceOf kind pos text []).after.offset := by
  obtain ⟨c, more, hchars, -⟩ := Word.lexeme_ne_nil (w := ⟨[], kind, text⟩) h
  cases kind with
  | string =>
    have hquote : 0 < byteLength ['"'] := byteLength_pos (List.cons_ne_nil _ _)
    exact ⟨Nat.le_add_right _ _, Nat.lt_of_le_of_lt (Nat.le_add_right _ _) (Nat.lt_add_of_pos_right hquote)⟩
  | rawString =>
    have hquote : 0 < '\x60'.utf8Size := Char.utf8Size_pos _
    exact ⟨Nat.le_add_right _ _, Nat.lt_of_le_of_lt (passRaw_offset text _) (Nat.lt_add_of_pos_right hquote)⟩
  | symbol | ident | number =>
    have htext : text = c :: more := hchars
    exact ⟨Nat.le_refl _, Nat.lt_add_of_pos_right (byteLength_pos (htext ▸ List.cons_ne_nil _ _))⟩

/-- The tokens of a text begin one behind the other. -/
theorem placed_start {words : List Word} {next : Option Char} (h : Fits words next) (pos : Position) :
    (∀ t ∈ placed pos words, pos.offset ≤ t.span.start) ∧ ((placed pos words).map Token.span).Nodup := by
  induction words generalizing pos with
  | nil => exact ⟨List.forall_mem_nil _, List.nodup_nil⟩
  | cons w words ih =>
    obtain ⟨-, hlexeme, -, hrest⟩ := h
    obtain ⟨hbehind, hdistinct⟩ := ih hrest (w.after pos)
    obtain ⟨hstart, hafter⟩ := pieceOf_start hlexeme (passGap false pos w.gap)
    have hfirst : pos.offset ≤ (w.token pos).span.start := (passGap_offset false pos w.gap).trans hstart
    have hsecond : (w.token pos).span.start < (w.after pos).offset := hafter
    refine ⟨List.forall_mem_cons.mpr ⟨hfirst, fun t ht => ?_⟩, ?_⟩
    · exact (hfirst.trans hsecond.le).trans (hbehind t ht)
    · rw [placed, List.map_cons, List.nodup_cons]
      refine ⟨fun hmem => ?_, hdistinct⟩
      obtain ⟨t, ht, hspan⟩ := List.mem_map.mp hmem
      have hlater := hbehind t ht
      rw [hspan] at hlater
      exact absurd hsecond hlater.not_gt

end HostScript.Lexer
