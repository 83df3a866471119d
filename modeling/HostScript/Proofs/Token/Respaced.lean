import Mathlib
import HostScript.Proofs.Script.Roundtrip
import HostScript.Proofs.Token.Lossless

/-!
# Other spacing between the same tokens

How a token is read depends on what stands behind it, but spacing ends every token in the same way. So if the extents of a source are put
together again with any spacing between them, the text is cut into the same tokens (`scan_respaced`).
-/

namespace HostScript.Lexer

open Dialect (shapes shapeOf wordShape shapes_placed gapped_shapes lexeme_toList)
open Dialect.Indexed (slice)
open Script (Spaced)

/-- The extents of a row of tokens in their order, with spacing between every two neighbours. -/
inductive Respaced (contents : List Char) : List Token → List Char → Prop
  | nil : Respaced contents [] []
  | single {t : Token} {extent : String} (hextent : slice contents t.extentStart t.extentStop = .ok extent) :
    Respaced contents [t] extent.toList
  | cons {t next : Token} {tokens : List Token} {extent : String} {space text : List Char}
    (hextent : slice contents t.extentStart t.extentStop = .ok extent) (hspace : Spacing space false) (hne : space ≠ [])
    (h : Respaced contents (next :: tokens) text) : Respaced contents (t :: next :: tokens) (extent.toList ++ (space ++ text))

/-- Words stay spaced when a gap is put in front of them. -/
theorem spaced_gapped {gap : List Char} {words : List Word} (h : Spaced words) (hgap : IsGap gap) : Spaced (gapped gap words) := by
  cases words with
  | nil => exact h
  | cons w words =>
    obtain ⟨hgaps, hne⟩ := h
    obtain ⟨hfirst, hrest⟩ := List.forall_mem_cons.mp hgaps
    refine ⟨List.forall_mem_cons.mpr ⟨?_, hrest⟩, hne⟩
    rw [IsGap, gapEnds_append hgap]
    exact hfirst

theorem isLexeme_gapped {words : List Word} (h : ∀ w ∈ words, IsLexeme w.kind w.text) (gap : List Char) :
    ∀ w ∈ gapped gap words, IsLexeme w.kind w.text := by
  cases words with
  | nil => exact h
  | cons w words => exact List.forall_mem_cons.mpr (List.forall_mem_cons.mp h)

/-- A word stands in front of words with a gap. -/
theorem spaced_cons {w : Word} {words : List Word} (hw : IsGap w.gap) (h : Spaced words) (hne : ∀ v, words.head? = some v → v.gap ≠ []) :
    Spaced (w :: words) := by
  refine ⟨List.forall_mem_cons.mpr ⟨hw, h.1⟩, ?_⟩
  cases words with
  | nil => exact List.forall_mem_nil _
  | cons v words => exact List.forall_mem_cons.mpr ⟨hne v rfl, h.2⟩

/-- Respaced extents are words of the same classes and texts with gaps between them. -/
theorem Respaced.words {contents text : List Char} {tokens : List Token} (h : Respaced contents tokens text)
    (hextents : ∀ t ∈ tokens, slice contents t.extentStart t.extentStop = .ok t.lexeme)
    (hlexemes : ∀ t ∈ tokens, IsLexeme t.kind t.text.toList) :
    ∃ words, text = written words ∧ words.map wordShape = shapes tokens ∧ Spaced words ∧ ∀ w ∈ words, IsLexeme w.kind w.text := by
  have hword : ∀ {t : Token} {extent : String}, slice contents t.extentStart t.extentStop = .ok extent →
      slice contents t.extentStart t.extentStop = .ok t.lexeme → extent.toList = Word.chars ⟨[], t.kind, t.text.toList⟩ := by
    intro t extent hextent hslice
    obtain rfl := Except.ok.inj (hextent.symm.trans hslice)
    exact lexeme_toList t
  have hshape : ∀ t : Token, wordShape ⟨[], t.kind, t.text.toList⟩ = shapeOf t := fun t => by
    rw [wordShape, String.ofList_toList]
    rfl
  induction h with
  | nil => exact ⟨[], rfl, rfl, ⟨List.forall_mem_nil _, List.forall_mem_nil _⟩, List.forall_mem_nil _⟩
  | @single t extent hextent =>
    obtain ⟨hslice, -⟩ := List.forall_mem_cons.mp hextents
    obtain ⟨hlexeme, -⟩ := List.forall_mem_cons.mp hlexemes
    refine ⟨[⟨[], t.kind, t.text.toList⟩], ?_, congrArg (· :: []) (hshape t), ?_, List.forall_mem_singleton.mpr hlexeme⟩
    · rw [hword hextent hslice, written_cons, written_nil, List.append_nil]
    · exact ⟨List.forall_mem_singleton.mpr rfl, List.forall_mem_nil _⟩
  | @cons t next tokens extent space text hextent hspace hne _ ih =>
    obtain ⟨hslice, hrestSlices⟩ := List.forall_mem_cons.mp hextents
    obtain ⟨hlexeme, hrestLexemes⟩ := List.forall_mem_cons.mp hlexemes
    obtain ⟨words, htext, hshapes, hspaced, hwords⟩ := ih hrestSlices hrestLexemes
    cases words with
    | nil => contradiction
    | cons v words =>
      have hgap : IsGap space := isGap_iff_spacing.mpr hspace
      have hspacedRest : Spaced (gapped space (v :: words)) := spaced_gapped hspaced hgap
      refine ⟨⟨[], t.kind, t.text.toList⟩ :: gapped space (v :: words), ?_, ?_, spaced_cons rfl hspacedRest fun w hw => ?_, ?_⟩
      · rw [hword hextent hslice, written_cons, written_gapped space (List.cons_ne_nil v words), htext]
      · rw [List.map_cons, gapped_shapes, hshapes, hshape]
        rfl
      · obtain rfl := Option.some.inj hw
        exact List.append_ne_nil_of_left_ne_nil hne _
      · exact List.forall_mem_cons.mpr ⟨hlexeme, isLexeme_gapped hwords space⟩

/-- If the extents of the tokens of a source are put together again with spacing between them, the text is cut up to its end, into tokens
of the same classes and texts in the same order. Spacing may also stand in front of the first and behind the last of them. -/
theorem scan_respaced {source respaced : Source} {gap : String} {pos : Position} (h : source.scan.ending = .complete gap pos)
    {before text after : List Char} {inComment : Bool} (hbefore : Spacing before false)
    (htext : Respaced source.text.toList source.scan.tokens text) (hafter : Spacing after inComment)
    (hrespaced : respaced.text.toList = before ++ (text ++ after)) :
    (∃ gap pos, respaced.scan.ending = .complete gap pos) ∧ shapes respaced.scan.tokens = shapes source.scan.tokens := by
  obtain ⟨sourceWords, hsource, hfits, -, htokens⟩ := scan_complete h
  have hlexemes : ∀ t ∈ source.scan.tokens, IsLexeme t.kind t.text.toList := by
    rw [htokens]
    exact isLexeme_placed hfits .origin
  obtain ⟨-, hcovers, -⟩ := scan_lossless source
  obtain ⟨words, rfl, hshapes, hspaced, hwords⟩ := htext.words hcovers.extent hlexemes
  have hgap : IsGap before := isGap_iff_spacing.mpr hbefore
  have hends : gapEnds false after = some inComment := gapEnds_spacing hafter
  -- without tokens, the spacing in front and the spacing behind are one gap
  obtain ⟨all, last, hall, hallShapes, hallSpaced, hallLexemes, hlast⟩ : ∃ all last, respaced.text.toList = written all ++ last ∧
      all.map wordShape = words.map wordShape ∧ Spaced all ∧ (∀ w ∈ all, IsLexeme w.kind w.text) ∧ (gapEnds false last).isSome := by
    cases words with
    | nil => exact ⟨[], before ++ after, hrespaced, rfl, hspaced, hwords, by rw [gapEnds_append hgap, hends]; rfl⟩
    | cons w words =>
      refine ⟨gapped before (w :: words), after, ?_, gapped_shapes _ _, spaced_gapped hspaced hgap, isLexeme_gapped hwords before,
        by rw [hends]; rfl⟩
      rw [hrespaced, written_gapped before (List.cons_ne_nil w words), List.append_assoc]
  obtain ⟨hscan, here, hending⟩ := scan_written hall (hallSpaced.fits hallLexemes hlast) hlast
  refine ⟨⟨_, here, hending⟩, ?_⟩
  rw [hscan, shapes_placed, hallShapes, hshapes]

/-- A comment and a line end part what stood close together, and nothing parts what stood apart in another way. -/
theorem scan_respaced_tabbed : (⟨"case", " n<=10 `#`;"⟩ : Source).scan.ending = .complete "" ⟨1, 12, 11⟩ ∧
    (∃ gap pos, (⟨"case", "n # c\n<=\t10\r\n`#` ; #"⟩ : Source).scan.ending = .complete gap pos) ∧
    shapes (⟨"case", "n # c\n<=\t10\r\n`#` ; #"⟩ : Source).scan.tokens =
      [⟨.ident, "n"⟩, ⟨.symbol, "<="⟩, ⟨.number, "10"⟩, ⟨.rawString, "#"⟩, ⟨.symbol, ";"⟩] := by
  have hscan : (⟨"case", " n<=10 `#`;"⟩ : Source).scan = ⟨[⟨.ident, ⟨1, 2, 1, 2⟩, "n", " "⟩, ⟨.symbol, ⟨1, 3, 2, 4⟩, "<=", ""⟩,
      ⟨.number, ⟨1, 5, 4, 6⟩, "10", ""⟩, ⟨.rawString, ⟨1, 9, 8, 9⟩, "#", " "⟩, ⟨.symbol, ⟨1, 11, 10, 11⟩, ";", ""⟩],
      .complete "" ⟨1, 12, 11⟩⟩ := by decide +kernel
  have hcomment : Spacing [' ', '#', ' ', 'c', '\n'] false := .blank (by decide) (@Spacing.comment [' ', 'c'] [] false (by decide) .nil)
  have htab : Spacing ['\t'] false := .blank (by decide) .nil
  have hlineEnd : Spacing ['\r', '\n'] false := .lineEnd .nil
  have hblank : Spacing [' '] false := .blank (by decide) .nil
  have htext : Respaced (⟨"case", " n<=10 `#`;"⟩ : Source).text.toList (⟨"case", " n<=10 `#`;"⟩ : Source).scan.tokens
      ("n".toList ++ ([' ', '#', ' ', 'c', '\n'] ++ ("<=".toList ++ (['\t'] ++
        ("10".toList ++ (['\r', '\n'] ++ ("`#`".toList ++ ([' '] ++ ";".toList)))))))) := by
    rw [hscan]
    refine .cons (by decide +kernel) hcomment (List.cons_ne_nil _ _) (.cons (by decide +kernel) htab (List.cons_ne_nil _ _) ?_)
    refine .cons (by decide +kernel) hlineEnd (List.cons_ne_nil _ _) (.cons (by decide +kernel) hblank (List.cons_ne_nil _ _) ?_)
    exact .single (by decide +kernel)
  have hafter : Spacing [' ', '#'] true := .blank (by decide) (.openComment (by decide))
  have hending : (⟨"case", " n<=10 `#`;"⟩ : Source).scan.ending = .complete "" ⟨1, 12, 11⟩ := by rw [hscan]
  have hrespaced := @scan_respaced _ ⟨"case", "n # c\n<=\t10\r\n`#` ; #"⟩ _ _ hending _ _ _ _ .nil htext hafter (by decide +kernel)
  exact ⟨hending, hrespaced.1, hrespaced.2.trans (by rw [hscan]; rfl)⟩

end HostScript.Lexer
