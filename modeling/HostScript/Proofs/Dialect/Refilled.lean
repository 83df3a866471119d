import Mathlib
import HostScript.Proofs.Dialect.Content
import HostScript.Proofs.Dialect.Hollow

/-!
# Literals are copied

If the contents of the literals of a source are replaced, the host script is the same with these contents replaced (`render_refilled`):
the lines of both are the same without what stands between quotes, and the literals of the host script are those of the source in their
order. Statements are told apart by the indentation of lines, however, and a line may begin inside a raw string: if a statement begins
behind a raw string on the last of its lines, the blanks at the beginning of that line decide about the block of the statement
(`render_refilled_indent`).
-/

namespace HostScript.Dialect

open Lexer

/-! ## The texts between quotes -/

/-- The texts between the quotes of words. -/
def quotedTexts (words : List Word) : List (List Char) := (words.filter fun w => isQuoted w.kind).map Word.text

/-- What stands between quotes is content. -/
theorem filter_carried (kind : TokenKind) (text : String) :
    ((carried kind text).toList.filter fun c => isQuoted c.1) = if isQuoted kind then [(kind, text)] else [] := by
  cases kind with
  | ident =>
    unfold carried
    dsimp only
    split <;> rfl
  | _ => rfl

/-- The texts between quotes are a part of the content. -/
theorem quotedTexts_eq (words : List Word) :
    quotedTexts words = ((wordContent words).filter fun c => isQuoted c.1).map fun c => c.2.toList := by
  induction words with
  | nil => rfl
  | cons w words ih =>
    have hrest : (words.filter fun w => isQuoted w.kind).map Word.text = _ := ih
    rw [quotedTexts, wordContent_cons, List.filter_append, List.map_append, ← hrest, List.filter_cons]
    rw [filter_carried]
    split
    · exact congrArg (· :: _) String.toList_ofList.symm
    · rfl

theorem quotedTexts_ofToken (tokens : List Token) :
    quotedTexts (tokens.map Word.ofToken) = ((literals tokens).map Token.text).map String.toList := by
  unfold quotedTexts literals
  rw [List.filter_map, List.map_map, List.map_map]
  rfl

theorem quotedTexts_refill {opened : Nat → Prop} {tokens : List Token} {contents : List (List Char)}
    (h : List.Forall₂ (Replaces opened) (literals tokens) contents) : quotedTexts (refill tokens contents) = contents := by
  induction tokens generalizing contents with
  | nil => exact (List.forall₂_nil_left_iff.mp h).symm
  | cons t rest ih =>
    unfold literals at h
    rw [List.filter_cons] at h
    rw [refill]
    split
    · rename_i hquoted
      rw [if_pos hquoted] at h
      obtain ⟨text, contents, -, hrest, rfl⟩ := List.forall₂_cons_left_iff.mp h
      have hmore : (List.filter (fun w => isQuoted w.kind) (refill rest contents)).map Word.text = contents := ih hrest
      rw [quotedTexts, List.filter_cons, if_pos hquoted, List.map_cons, List.tail_cons, hmore]
      rfl
    · rename_i hplain
      rw [if_neg hplain] at h
      rw [quotedTexts, List.filter_cons, if_neg (show ¬ isQuoted (Word.ofToken t).kind = true from hplain)]
      exact ih h

/-- Words that are those of a row of tokens, except for what stands between quotes, are the row with other contents. -/
theorem eq_refill {tokens : List Token} {words : List Word} (h : words.map hollowWord = (tokens.map Word.ofToken).map hollowWord) :
    words = refill tokens (quotedTexts words) := by
  induction tokens generalizing words with
  | nil => exact List.map_eq_nil_iff.mp h
  | cons t rest ih =>
    obtain ⟨w, more, rfl, hw, hmore⟩ := List.map_eq_cons_iff.mp h
    have hrest : more = refill rest (quotedTexts more) := ih hmore
    have hkind : w.kind = t.kind := by
      rw [← hollowWord_kind, hw, hollowWord_kind]
      rfl
    have hgap : w.gap = t.gap.toList := by
      rw [← hollowWord_gap, hw, hollowWord_gap]
      rfl
    rw [refill, quotedTexts, List.filter_cons, hkind]
    split
    · rw [List.map_cons, List.tail_cons, List.head?_cons, Option.getD_some, ← hgap, ← hkind]
      exact congrArg (w :: ·) hrest
    · rename_i hplain
      have hplain' : ¬ isQuoted (Word.ofToken t).kind = true := hplain
      have hword : w = Word.ofToken t := by
        rwa [hollowWord, hollowWord, hkind, if_neg hplain, if_neg hplain'] at hw
      rw [hword]
      exact congrArg (_ :: ·) hrest

/-! ## The host script -/

/-- A statement of a source begins on a line. -/
def BeginsOn (source : Source) (line : Nat) : Prop := ∃ s ∈ statementsOf source, s.line = line

theorem render_name (source : Source) : (render source).script.name = source.name := by
  unfold render
  cases source.scan.ending <;> rfl

/-- The statements of a source with other contents of its literals are the same, except for what stands between quotes. -/
theorem statementsOf_refilled {source : Source} {gap : String} {pos : Position} (h : source.scan.ending = .complete gap pos)
    {contents : List (List Char)} (hcontents : List.Forall₂ (Replaces (BeginsOn source)) (literals source.scan.tokens) contents) :
    (statementsOf (source.refilled contents)).map Statement.hollow = (statementsOf source).map Statement.hollow := by
  obtain ⟨-, -, htokens, hindent⟩ := scan_refilled h hcontents
  have hsame : statements (source.refilled contents).lineIndent source.scan.tokens = statementsOf source := by
    refine statements_congr fun s hs => ?_
    obtain ⟨t, ht, hline⟩ := statements_line hs
    rw [← hline]
    exact hindent t ht ⟨s, hs, hline.symm⟩
  rw [statementsOf, ← statements_hollow, htokens, statements_hollow, hsame]

/-- The lines of a source with other contents of its literals are the same, except for what stands between quotes. -/
theorem emissionsOf_refilled {source : Source} {gap : String} {pos : Position} (h : source.scan.ending = .complete gap pos)
    {contents : List (List Char)} (hcontents : List.Forall₂ (Replaces (BeginsOn source)) (literals source.scan.tokens) contents) :
    (emissionsOf (source.refilled contents)).map Emission.hollow = (emissionsOf source).map Emission.hollow := by
  have hlines : ∀ source : Source, (emissionsOf source).map Emission.hollow =
      emissions 0 [] (blocks ((statementsOf source).map Statement.hollow)) := by
    intro source
    rw [blocks_hollow]
    exact (emissions_hollow 0 [] (nodesOf source) fun m hm => (nodesOf_genuine hm).1).symm
  rw [hlines, hlines, statementsOf_refilled h hcontents]

/-- The words of the host script are the same, except for what stands between quotes. -/
theorem scriptWords_hollow {lines lines' : List Emission} (h : ∀ e ∈ lines, e.form.Genuine) (h' : ∀ e ∈ lines', e.form.Genuine)
    (hlines : lines'.map Emission.hollow = lines.map Emission.hollow) :
    (scriptWords lines').map hollowWord = (scriptWords lines).map hollowWord := by
  unfold scriptWords
  rw [List.map_append, List.map_append, hollowWord_gapped, hollowWord_gapped, ← lineWords_hollow h, ← lineWords_hollow h', hlines]

/-- Literals are copied: the literals of a host script are those of its source in their order, and if their contents are replaced in the
source, the host script is the same with these contents replaced. On a line on which a raw string of several lines ends and a statement
begins, the contents have to leave the indentation as it is. -/
theorem render_refilled {source : Source} {gap : String} {pos : Position} (h : source.scan.ending = .complete gap pos)
    {contents : List (List Char)} (hcontents : List.Forall₂ (Replaces (BeginsOn source)) (literals source.scan.tokens) contents) :
    (literals (render source).script.scan.tokens).map Token.text = (literals source.scan.tokens).map Token.text ∧
      (render (source.refilled contents)).script = (render source).script.refilled contents := by
  have hgenuine : ∀ e ∈ emissionsOf source, e.form.Genuine := fun e he => emissionsOf_genuine he
  have hgenuine' : ∀ e ∈ emissionsOf (source.refilled contents), e.form.Genuine := fun e he => emissionsOf_genuine he
  obtain ⟨⟨pos', hcomplete⟩, hwords, -, -⟩ := scan_refilled h hcontents
  obtain ⟨htokens, pos'', hending⟩ := render_scan h
  have hlines := emissionsOf_refilled h hcontents
  have hquoted : quotedTexts (scriptWords (emissionsOf (source.refilled contents))) = contents := by
    rw [quotedTexts_eq, wordContent_scriptWords, ← wordContent_ofToken, ← quotedTexts_eq, hwords, quotedTexts_refill hcontents]
  have hscript : scriptWords (emissionsOf (source.refilled contents)) = refill (render source).script.scan.tokens contents := by
    have hsame : (scriptWords (emissionsOf (source.refilled contents))).map hollowWord =
        ((render source).script.scan.tokens.map Word.ofToken).map hollowWord := by
      rw [htokens, map_ofToken_placed]
      exact scriptWords_hollow hgenuine hgenuine' hlines
    have hrefill := eq_refill hsame
    rw [hquoted] at hrefill
    exact hrefill
  have hend : scriptEnd (emissionsOf (source.refilled contents)) = scriptEnd (emissionsOf source) := by
    have hempty := congrArg List.isEmpty hlines
    rw [List.isEmpty_map, List.isEmpty_map] at hempty
    unfold scriptEnd
    rw [hempty]
  constructor
  · have htexts : quotedTexts ((render source).script.scan.tokens.map Word.ofToken) =
        quotedTexts (source.scan.tokens.map Word.ofToken) := by
      rw [htokens, map_ofToken_placed, quotedTexts_eq, wordContent_scriptWords, ← wordContent_ofToken, ← quotedTexts_eq]
    rw [quotedTexts_ofToken, quotedTexts_ofToken] at htexts
    exact List.map_injective_iff.mpr (fun _ _ => String.toList_inj.mp) htexts
  · have hname : (render (source.refilled contents)).script.name = (render source).script.name := by
      rw [render_name, render_name]
      rfl
    have htext : (render (source.refilled contents)).script.text = ((render source).script.refilled contents).text := by
      rw [← String.toList_inj, render_complete hcomplete, hscript, hend, Source.refilled, String.toList_ofList, hending,
        Ending.left_complete, String.toList_ofList]
    exact congrArg₂ Source.mk hname htext

/-- Contents that leave the indentation of the last line as it is are copied to where the literal stands. -/
theorem render_refilled_kept :
    (render (Source.refilled ⟨"case", "if(x):\n `a\n b`; z = 1;"⟩ ["c\n d".toList])).script =
      ⟨"case", "use host as kp;\n\nif (x) \x7b\n    `c\n d`;\n    let z = 1;\n\x7d\n"⟩ := by
  have hsource : (⟨"case", "if(x):\n `a\n b`; z = 1;"⟩ : Source).scan.ending = .complete "" ⟨3, 12, 22⟩ := by decide +kernel
  have hliterals : literals (⟨"case", "if(x):\n `a\n b`; z = 1;"⟩ : Source).scan.tokens =
      [⟨.rawString, ⟨2, 3, 9, 13⟩, "a\n b", "\n "⟩] := by decide +kernel
  have hcontents : List.Forall₂ (Replaces (BeginsOn ⟨"case", "if(x):\n `a\n b`; z = 1;"⟩))
      (literals (⟨"case", "if(x):\n `a\n b`; z = 1;"⟩ : Source).scan.tokens) ["c\n d".toList] := by
    rw [hliterals]
    refine .cons ⟨?_, by decide, fun _ _ => by decide⟩ .nil
    change '\x60' ∉ "c\n d".toList
    decide
  rw [(render_refilled hsource hcontents).2]
  decide +kernel

/-- A statement behind a raw string leaves its block if the last line of the string is indented less: the contents are legal and have as
many line feeds as before, and the host script is not the same with these contents. -/
theorem render_refilled_indent :
    ∃ source contents, (∃ gap pos, source.scan.ending = .complete gap pos) ∧
      List.Forall₂ (fun t text => IsLexeme t.kind text ∧ text.count '\n' = t.text.toList.count '\n')
        (literals source.scan.tokens) contents ∧
      (render (source.refilled contents)).script ≠ (render source).script.refilled contents := by
  refine ⟨⟨"case", "if(x):\n `a\n b`; z = 1;"⟩, ["a\nb".toList], ⟨"", ⟨3, 12, 22⟩, ?_⟩, ?_, ?_⟩
  · decide +kernel
  · have hliterals : literals (⟨"case", "if(x):\n `a\n b`; z = 1;"⟩ : Source).scan.tokens =
        [⟨.rawString, ⟨2, 3, 9, 13⟩, "a\n b", "\n "⟩] := by decide +kernel
    rw [hliterals]
    refine .cons ⟨?_, by decide⟩ .nil
    change '\x60' ∉ "a\nb".toList
    decide
  · have hrendered : (render (Source.refilled ⟨"case", "if(x):\n `a\n b`; z = 1;"⟩ ["a\nb".toList])).script.text =
        "use host as kp;\n\nif (x) \x7b\n    `a\nb`;\n\x7d\nlet z = 1;\n" := by decide +kernel
    have hcopied : ((render ⟨"case", "if(x):\n `a\n b`; z = 1;"⟩).script.refilled ["a\nb".toList]).text =
        "use host as kp;\n\nif (x) \x7b\n    `a\nb`;\n    let z = 1;\n\x7d\n" := by decide +kernel
    intro hsame
    have htext := congrArg Source.text hsame
    rw [hrendered, hcopied] at htext
    exact absurd htext (by decide)

end HostScript.Dialect
