import Mathlib
import HostScript.Proofs.Dialect.Slices
import HostScript.Proofs.Token.Distinct

/-!
# Nothing is lost between tokens

What may stand between tokens is said by a grammar of its own: blanks, line ends and comments (`Spacing`). The extents of the tokens of a
source lie one behind the other and are slices of it, with spacing in front of each and behind the last; so the source is put together
from them (`scan_lossless`).
-/

namespace HostScript

/-- Blanks, line ends and comments. The flag tells whether the last comment runs to the end of the text, without a line end behind it. -/
inductive Spacing : List Char → Bool → Prop
  | nil : Spacing [] false
  | openComment {body : List Char} (hbody : '\n' ∉ body) : Spacing ('#' :: body) true
  | blank {c : Char} {rest : List Char} {inComment : Bool} (hc : c ∈ [' ', '\t', '\n']) (h : Spacing rest inComment) :
    Spacing (c :: rest) inComment
  | lineEnd {rest : List Char} {inComment : Bool} (h : Spacing rest inComment) : Spacing ('\r' :: '\n' :: rest) inComment
  | comment {body rest : List Char} {inComment : Bool} (hbody : '\n' ∉ body) (h : Spacing rest inComment) :
    Spacing ('#' :: (body ++ '\n' :: rest)) inComment

namespace Lexer

/-! ## Spacing is what the reader of gaps goes over -/

/-- A comment goes on over everything but a line feed. -/
theorem gapEnds_body {body : List Char} (h : '\n' ∉ body) (rest : List Char) : gapEnds true (body ++ rest) = gapEnds true rest := by
  induction body with
  | nil => rfl
  | cons c body ih =>
    rw [List.mem_cons, not_or] at h
    have hnext : gapNext true c (body ++ rest).head? = some true := by
      rw [gapNext, if_neg (by simpa using Ne.symm h.1), if_pos rfl]
    rw [List.cons_append, gapEnds.eq_2, hnext]
    exact ih h.2

theorem gapEnds_spacing {text : List Char} {inComment : Bool} (h : Spacing text inComment) : gapEnds false text = some inComment := by
  induction h with
  | nil => rfl
  | @openComment body hbody =>
    have hends := gapEnds_body hbody []
    rw [List.append_nil] at hends
    exact hends
  | @blank c rest inComment hc _ ih =>
    have hnext : gapNext false c rest.head? = some false := by
      unfold gapNext
      revert hc
      simp only [List.mem_cons, List.not_mem_nil, or_false]
      rintro (rfl | rfl | rfl) <;> rfl
    rw [gapEnds.eq_2, hnext]
    exact ih
  | lineEnd _ ih => exact ih
  | comment hbody _ ih => exact (gapEnds_body hbody _).trans ih

theorem spacing_of_gapEnds {text : List Char} {inComment : Bool} (h : gapEnds false text = some inComment) : Spacing text inComment := by
  match text with
  | [] =>
    obtain rfl := Option.some.inj h
    exact .nil
  | c :: rest =>
    rw [gapEnds.eq_2] at h
    cases hnext : gapNext false c rest.head? with
    | none =>
      rw [hnext] at h
      contradiction
    | some next =>
      rw [hnext] at h
      rcases gapNext_code hnext with ⟨hc, rfl⟩ | ⟨rfl, rfl⟩ | ⟨rfl, hhead, rfl⟩
      · exact .blank hc (spacing_of_gapEnds h)
      · by_cases hnewline : '\n' ∈ rest
        · obtain ⟨body, behind, rfl, hbody⟩ := List.eq_append_cons_of_mem hnewline
          have hbehind : gapEnds false behind = some inComment := (gapEnds_body hbody _).symm.trans h
          exact .comment hbody (spacing_of_gapEnds hbehind)
        · have hends := gapEnds_body hnewline []
          rw [List.append_nil] at hends
          obtain rfl := Option.some.inj (hends.symm.trans h)
          exact .openComment hnewline
      · obtain ⟨behind, rfl⟩ := List.head?_eq_some_iff.mp hhead
        have hbehind : gapEnds false behind = some inComment := h
        exact .lineEnd (spacing_of_gapEnds hbehind)
termination_by text.length
decreasing_by all_goals simp_all; try omega

theorem isGap_iff_spacing {gap : List Char} : IsGap gap ↔ Spacing gap false := ⟨spacing_of_gapEnds, gapEnds_spacing⟩

/-! ## The extents of a row of tokens -/

open Dialect.Indexed (slice)

/-- The offset at which the last extent of a row of tokens stops, or at which the row begins. -/
def lastStop (start : Nat) (tokens : List Token) : Nat := (tokens.map Token.extentStop).getLastD start

/-- A row of tokens as they are written, each behind its gap. -/
def rejoined (tokens : List Token) : String := String.join (tokens.map fun t => t.gap ++ t.lexeme)

/-- A row of tokens behind an offset covers a text: the extents do not overlap and are slices of the text, and what the text has in front of
each of them is its gap, which is spacing. -/
structure Covers (contents : List Char) (start : Nat) (tokens : List Token) : Prop where
  behind : ∀ t ∈ tokens, start ≤ t.extentStart
  nonempty : ∀ t ∈ tokens, t.extentStart < t.extentStop
  increasing : tokens.Pairwise fun t u => t.extentStop ≤ u.extentStart
  extent : ∀ t ∈ tokens, slice contents t.extentStart t.extentStop = .ok t.lexeme
  gap : ∀ pair ∈ (start :: tokens.map Token.extentStop).zip tokens,
    slice contents pair.1 pair.2.extentStart = .ok pair.2.gap ∧ Spacing pair.2.gap.toList false

variable {contents : List Char}

theorem Covers.nil (start : Nat) : Covers contents start [] :=
  ⟨List.forall_mem_nil _, List.forall_mem_nil _, .nil, List.forall_mem_nil _, nofun⟩

/-- A token stands in front of a row that begins where its extent stops. -/
theorem Covers.cons {start : Nat} {t : Token} {tokens : List Token} (hbehind : start ≤ t.extentStart) (hne : t.extentStart < t.extentStop)
    (hextent : slice contents t.extentStart t.extentStop = .ok t.lexeme) (hgap : slice contents start t.extentStart = .ok t.gap)
    (hspacing : Spacing t.gap.toList false) (h : Covers contents t.extentStop tokens) : Covers contents start (t :: tokens) where
  behind := List.forall_mem_cons.mpr ⟨hbehind, fun u hu => hbehind.trans (hne.le.trans (h.behind u hu))⟩
  nonempty := List.forall_mem_cons.mpr ⟨hne, h.nonempty⟩
  increasing := List.pairwise_cons.mpr ⟨h.behind, h.increasing⟩
  extent := List.forall_mem_cons.mpr ⟨hextent, h.extent⟩
  gap := by
    rw [List.map_cons, List.zip_cons_cons]
    exact List.forall_mem_cons.mpr ⟨⟨hgap, hspacing⟩, h.gap⟩

/-- The tokens of words cover the text that the words write, up to where reading goes on. -/
theorem covers_words {rest : List Char} {next : Option Char} {words : List Word} (h : Fits words next) (front : List Char)
    {pos : Position} (htext : contents = front ++ (written words ++ rest)) (hpos : pos.offset = byteLength front) :
    Covers contents pos.offset (placed pos words) ∧ lastStop pos.offset (placed pos words) = byteLength (front ++ written words) := by
  induction words generalizing front pos with
  | nil => exact ⟨.nil _, by rw [written_nil, List.append_nil, ← hpos]; rfl⟩
  | cons w words ih =>
    obtain ⟨hgap, hlexeme, -, hrest⟩ := h
    have hfirst : contents = front ++ (w.chars ++ (written words ++ rest)) := by rw [htext, written_cons, List.append_assoc]
    have hbehind : contents = (front ++ w.chars) ++ (written words ++ rest) := by rw [hfirst, List.append_assoc]
    have hafter : (w.after pos).offset = byteLength (front ++ w.chars) := by rw [w.after_bytes, hpos, byteLength_append]
    obtain ⟨hcovers, hlast⟩ := ih hrest (front ++ w.chars) hbehind hafter
    obtain ⟨-, hslice, hgapSlice⟩ := Dialect.Indexed.slices_word hfirst hpos
    obtain ⟨hstart, hstop, -⟩ := w.token_extent pos
    obtain ⟨c, more, hchars, -⟩ := Word.lexeme_ne_nil hlexeme
    have hlexemeBytes : 0 < byteLength (lexemeChars w.kind w.text) := byteLength_pos (by rw [hchars]; exact List.cons_ne_nil _ _)
    have hne : (w.token pos).extentStart < (w.token pos).extentStop := by
      rw [hstart, hstop, w.after_bytes, Word.chars, byteLength_append]
      omega
    have hspacing : Spacing (w.token pos).gap.toList false := by
      rw [Word.token, String.toList_ofList]
      exact isGap_iff_spacing.mp hgap
    refine ⟨.cons (by rw [hstart]; exact Nat.le_add_right _ _) hne hslice hgapSlice hspacing (by rw [hstop]; exact hcovers), ?_⟩
    rw [placed, lastStop, List.map_cons, List.getLastD_cons, hstop, written_cons, ← List.append_assoc]
    exact hlast

/-- The tokens of words are put together to what the words write. -/
theorem rejoined_placed (pos : Position) (words : List Word) : (rejoined (placed pos words)).toList = written words := by
  induction words generalizing pos with
  | nil => rfl
  | cons w words ih =>
    have hlexeme : (w.token pos).lexeme.toList = lexemeChars w.kind w.text := by
      rw [Dialect.lexeme_toList, Word.token, String.toList_ofList]
    have hgap : (w.token pos).gap.toList = w.gap := String.toList_ofList
    have hrest : (String.join ((placed (w.after pos) words).map fun t => t.gap ++ t.lexeme)).toList = written words := ih _
    rw [placed, rejoined, List.map_cons, String.join_cons, String.toList_append, String.toList_append, hrest, hlexeme, hgap, written_cons,
      Word.chars]

/-- Every word takes at least one character. -/
theorem length_le_written {words : List Word} {next : Option Char} (h : Fits words next) : words.length ≤ (written words).length := by
  induction words with
  | nil => exact Nat.le_refl _
  | cons w words ih =>
    obtain ⟨-, hlexeme, -, hrest⟩ := h
    obtain ⟨c, more, hchars, -⟩ := Word.lexeme_ne_nil hlexeme
    have hwords := ih hrest
    rw [written_cons, List.length_cons, List.length_append, Word.chars, List.length_append, hchars, List.length_cons]
    omega

theorem length_placed (pos : Position) (words : List Word) : (placed pos words).length = words.length := by
  rw [← List.length_map Word.ofToken, map_ofToken_placed]

/-- What reading ends with, in front of what is left of a text: only spacing up to the end, or something from which no token can be read. -/
def Ending.Leaves (stop : Nat) (left : String) : Ending → Prop
  | .complete gap pos => left = gap ∧ (∃ inComment, Spacing left.toList inComment) ∧ pos.offset = stop
  | .stopped fault rest => left = rest ∧ ∃ pos, Blocked pos left.toList fault

/-- Reading a source always ends, after at most as many tokens as it has characters. The tokens, each behind its spacing, and what reading
leaves behind the last of them are the source. -/
theorem scan_lossless (source : Source) :
    source.scan.tokens.length ≤ source.text.toList.length ∧ Covers source.text.toList 0 source.scan.tokens ∧
      ∃ left, slice source.text.toList (lastStop 0 source.scan.tokens) (byteLength source.text.toList) = .ok left ∧
        source.text = rejoined source.scan.tokens ++ left ∧ source.scan.ending.Leaves (byteLength source.text.toList) left := by
  obtain ⟨words, left, htext, hfits, htokens, hending⟩ := scanFrom_ok .origin source.text.toList
  have htokens : source.scan.tokens = placed .origin words := htokens
  have hending : EndsWith (passWords .origin words) left source.scan.ending := hending
  have horigin : Position.origin.offset = byteLength [] := rfl
  obtain ⟨hcovers, hlast⟩ := covers_words hfits [] htext horigin
  have hlength := length_le_written hfits
  rw [htokens, length_placed]
  refine ⟨?_, hcovers, String.ofList left, ?_, ?_, ?_⟩
  · rw [htext, List.length_append]
    omega
  · have hstart : lastStop 0 (placed .origin words) = byteLength (written words) := hlast
    rw [hstart]
    refine Dialect.Indexed.slice_part (written words) [] ?_ rfl ?_
    · rw [htext, List.append_nil]
    · rw [htext, byteLength_append]
  · rw [← String.toList_inj, String.toList_append, rejoined_placed, String.toList_ofList, htext]
  · cases hscan : source.scan.ending with
    | complete gap pos =>
      rw [hscan] at hending
      obtain ⟨hleft, rfl, rfl⟩ := hending
      obtain ⟨inComment, hgap⟩ := Option.isSome_iff_exists.mp hleft
      refine ⟨rfl, ⟨inComment, ?_⟩, ?_⟩
      · rw [String.toList_ofList]
        exact spacing_of_gapEnds hgap
      · rw [passGap_bytes, passWords_bytes, htext, byteLength_append]
        exact congrArg (· + _) (Nat.zero_add _)
    | stopped fault rest =>
      rw [hscan] at hending
      obtain ⟨hblocked, rfl⟩ := hending
      exact ⟨rfl, _, by rw [String.toList_ofList]; exact hblocked⟩

end Lexer

end HostScript
