import Mathlib
import HostScript.Proofs.Token.Joined
import HostScript.Proofs.Token.Regapped

/-!
# Lines without tokens

`Source.withoutLines` takes lines out of a source, each with its end. If no token stands on any of them, not even with a part of a raw
string, the source is cut into the same tokens, on lines of other numbers (`Lexer.scan_withoutLines`).
-/

namespace HostScript

/-- A text from the line of a number on without the lines that are dropped, each with its end. -/
def withoutLines (dropped : Nat → Bool) (number : Nat) : List Char → List Char
  | [] => []
  | c :: rest =>
    let more := withoutLines dropped (if c == '\n' then number + 1 else number) rest
    if dropped number then more else c :: more

/-- A source without the lines that are dropped. Lines are counted from one. -/
def Source.withoutLines (source : Source) (dropped : Nat → Bool) : Source :=
  ⟨source.name, String.ofList (HostScript.withoutLines dropped 1 source.text.toList)⟩

/-- No line on which a part of a token stands is dropped. -/
def Token.Spared (dropped : Nat → Bool) (t : Token) : Prop := ∀ number, t.span.line ≤ number → number ≤ t.endLine → dropped number = false

section

variable {dropped dropped' : Nat → Bool} {number : Nat} {text : List Char}

theorem withoutLines_newline (dropped : Nat → Bool) (number : Nat) (rest : List Char) :
    withoutLines dropped number ('\n' :: rest) =
      if dropped number then withoutLines dropped (number + 1) rest else '\n' :: withoutLines dropped (number + 1) rest := rfl

theorem withoutLines_cons {c : Char} (hc : c ≠ '\n') (dropped : Nat → Bool) (number : Nat) (rest : List Char) :
    withoutLines dropped number (c :: rest) =
      if dropped number then withoutLines dropped number rest else c :: withoutLines dropped number rest := by
  rw [withoutLines, if_neg fun heq => hc (beq_iff_eq.mp heq)]

theorem withoutLines_append (dropped : Nat → Bool) (number : Nat) (text more : List Char) :
    withoutLines dropped number (text ++ more) =
      withoutLines dropped number text ++ withoutLines dropped (number + text.count '\n') more := by
  induction text generalizing number with
  | nil => rfl
  | cons c rest ih =>
    by_cases hc : c = '\n'
    · subst hc
      rw [List.cons_append, withoutLines_newline, withoutLines_newline, ih, List.count_cons_self, Nat.add_right_comm, Nat.add_assoc]
      split <;> rfl
    · rw [List.cons_append, withoutLines_cons hc, withoutLines_cons hc, ih, List.count_cons_of_ne hc]
      split <;> rfl

/-- Whether other lines are dropped does not matter. -/
theorem withoutLines_congr (h : ∀ n, number ≤ n → n ≤ number + text.count '\n' → dropped n = dropped' n) :
    withoutLines dropped number text = withoutLines dropped' number text := by
  induction text generalizing number with
  | nil => rfl
  | cons c rest ih =>
    have hfirst : dropped number = dropped' number := h number (Nat.le_refl _) (Nat.le_add_right _ _)
    by_cases hc : c = '\n'
    · subst hc
      rw [List.count_cons_self] at h
      have hrest : withoutLines dropped (number + 1) rest = withoutLines dropped' (number + 1) rest :=
        ih fun n hlow hhigh => h n (by omega) (by omega)
      rw [withoutLines_newline, withoutLines_newline, hfirst, hrest]
    · rw [List.count_cons_of_ne hc] at h
      rw [withoutLines_cons hc, withoutLines_cons hc, hfirst, ih h]

/-- Nothing is taken out of lines that are kept. -/
theorem withoutLines_kept (h : ∀ n, number ≤ n → n ≤ number + text.count '\n' → dropped n = false) :
    withoutLines dropped number text = text := by
  have hnone : ∀ (number : Nat) (text : List Char), withoutLines (fun _ => false) number text = text := by
    intro number text
    induction text generalizing number with
    | nil => rfl
    | cons c rest ih => exact congrArg (c :: ·) (ih _)
  have hsame : withoutLines dropped number text = withoutLines (fun _ => false) number text := withoutLines_congr h
  rw [hsame, hnone]

/-- A line that is kept begins as before. -/
theorem withoutLines_head (h : dropped number = false) (text : List Char) : (withoutLines dropped number text).head? = text.head? := by
  cases text with
  | nil => rfl
  | cons c rest =>
    rw [withoutLines, h]
    rfl

/-- The end of a line that is kept is kept. -/
theorem mem_newline_withoutLines (h : dropped number = false) (hmem : '\n' ∈ text) : '\n' ∈ withoutLines dropped number text := by
  induction text with
  | nil => nomatch hmem
  | cons c rest ih =>
    by_cases hc : c = '\n'
    · subst hc
      rw [withoutLines_newline, h, if_neg Bool.false_ne_true]
      exact List.mem_cons_self
    · have hrest : '\n' ∈ rest := (List.mem_cons.mp hmem).resolve_left (Ne.symm hc)
      rw [withoutLines_cons hc, h, if_neg Bool.false_ne_true]
      exact List.mem_cons_of_mem c (ih hrest)

/-- If the line on which a text ends is kept, it is as it was. -/
theorem lastLine_withoutLines (h : dropped (number + text.count '\n') = false) :
    lastLine (withoutLines dropped number text) = lastLine text := by
  induction text generalizing number with
  | nil => rfl
  | cons c rest ih =>
    by_cases hc : c = '\n'
    · subst hc
      rw [List.count_cons_self, Nat.add_comm _ 1, ← Nat.add_assoc] at h
      rw [withoutLines_newline, lastLine_cons_newline, ← ih h]
      split
      · rfl
      · exact lastLine_cons_newline _
    · rw [List.count_cons_of_ne hc] at h
      rw [withoutLines_cons hc]
      by_cases hnewline : '\n' ∈ rest
      · rw [lastLine_cons hnewline, ← ih h]
        split
        · rfl
        · rename_i hkept
          exact lastLine_cons (mem_newline_withoutLines (Bool.not_eq_true _ ▸ hkept) hnewline) c
      · rw [List.count_eq_zero.mpr hnewline, Nat.add_zero] at h
        have hkept : withoutLines dropped number rest = rest := by
          refine withoutLines_kept fun n hlow hhigh => ?_
          rw [List.count_eq_zero.mpr hnewline] at hhigh
          obtain rfl : n = number := Nat.le_antisymm hhigh hlow
          exact h
        rw [h, if_neg Bool.false_ne_true, hkept]

/-! ## The numbers of lines -/

/-- The number of a line that is kept, from its number among the lines that are kept. -/
noncomputable def keptLine (dropped : Nat → Bool) : Nat → Nat
  | 0 => 0
  | number + 1 => Nat.nth (fun index => dropped (index + 1) = false) number + 1

/-- A text without the lines that are dropped has as many line ends as lines that are kept. -/
theorem count_withoutLines (dropped : Nat → Bool) (index : Nat) (text : List Char) :
    Nat.count (fun index => dropped (index + 1) = false) index + (withoutLines dropped (index + 1) text).count '\n' =
      Nat.count (fun index => dropped (index + 1) = false) (index + text.count '\n') := by
  induction text generalizing index with
  | nil => rfl
  | cons c rest ih =>
    by_cases hc : c = '\n'
    · subst hc
      have hrest := ih (index + 1)
      rw [Nat.count_succ] at hrest
      have hsum : index + (rest.count '\n' + 1) = index + 1 + rest.count '\n' := by omega
      rw [withoutLines_newline, List.count_cons_self, hsum, ← hrest]
      cases hdropped : dropped (index + 1) with
      | true => simp
      | false =>
        simp only [Bool.false_eq_true, if_false, if_true, List.count_cons_self]
        omega
    · rw [withoutLines_cons hc, List.count_cons_of_ne hc, ← ih index]
      split
      · rfl
      · rw [List.count_cons_of_ne hc]

/-- The line on which a text ends has the number that is counted, if it is kept. -/
theorem keptLine_count {front : List Char} (h : dropped (1 + front.count '\n') = false) :
    keptLine dropped (1 + (withoutLines dropped 1 front).count '\n') = 1 + front.count '\n' := by
  have hcount := count_withoutLines dropped 0 front
  rw [Nat.count_zero, Nat.zero_add, Nat.zero_add, Nat.zero_add] at hcount
  have hkept : dropped (front.count '\n' + 1) = false := by rwa [Nat.add_comm]
  have hnth : Nat.nth (fun index => dropped (index + 1) = false) (Nat.count (fun index => dropped (index + 1) = false) (front.count '\n')) =
      front.count '\n' := Nat.nth_count hkept
  rw [Nat.add_comm, keptLine, hcount, hnth, Nat.add_comm]

/-- If lines are kept without end, each number belongs to a line of its own. -/
theorem keptLine_injective {last : Nat} (h : ∀ n, last < n → dropped n = false) : Function.Injective (keptLine dropped) := by
  have hinfinite : Set.Infinite {index | dropped (index + 1) = false} :=
    Set.infinite_of_forall_exists_gt fun n => ⟨n + last + 1, h _ (by omega), by omega⟩
  intro n m heq
  cases n with
  | zero =>
    cases m with
    | zero => rfl
    | succ m => nomatch heq
  | succ n =>
    cases m with
    | zero => nomatch heq
    | succ m => exact congrArg (· + 1) (Nat.nth_injective hinfinite (Nat.succ.inj heq))

end

/-! ## Words -/

namespace Lexer

variable {dropped : Nat → Bool} {w : Word} {words : List Word} {next next' : Option Char} {pos : Position}

/-- What is left of a gap is a gap. Where lines are dropped, comments are dropped to their ends. -/
theorem gapEnds_withoutLines {comment comment' : Bool} {gap : List Char} (h : gapEnds comment gap = some comment')
    (dropped : Nat → Bool) (number : Nat) :
    gapEnds (!dropped number && comment) (withoutLines dropped number gap) = some (!dropped (number + gap.count '\n') && comment') := by
  induction gap generalizing comment number with
  | nil =>
    obtain rfl := Option.some.inj h
    rfl
  | cons c rest ih =>
    unfold gapEnds at h
    split at h
    · rename_i comment'' hnext
      by_cases hc : c = '\n'
      · subst hc
        obtain rfl : false = comment'' := Option.some.inj hnext
        have hrest := ih h (number + 1)
        rw [Bool.and_false, Nat.add_assoc, Nat.add_comm 1] at hrest
        rw [withoutLines_newline, List.count_cons_self]
        cases dropped number with
        | true => exact hrest
        | false => exact hrest
      · have hrest := ih h number
        rw [withoutLines_cons hc, List.count_cons_of_ne hc]
        cases hdropped : dropped number with
        | true =>
          rw [hdropped] at hrest
          exact hrest
        | false =>
          rw [hdropped, Bool.not_false, Bool.true_and] at hrest
          rw [if_neg Bool.false_ne_true, Bool.not_false, Bool.true_and, gapEnds, withoutLines_head hdropped, hnext]
          exact hrest
    · contradiction

/-- Words without the lines that are dropped, from the line of a number on. -/
def keptWords (dropped : Nat → Bool) (number : Nat) : List Word → List Word
  | [] => []
  | w :: rest => { w with gap := withoutLines dropped number w.gap } :: keptWords dropped (number + w.chars.count '\n') rest

/-- The line behind a token that is spared is kept. -/
theorem Word.spared_after (h : IsLexeme w.kind w.text) (hspared : (w.token pos).Spared dropped) : dropped (w.after pos).line = false := by
  rw [← Word.endLine_after h]
  refine hspared _ ?_ (Nat.le_refl _)
  rw [Word.token_endLine h]
  exact Nat.le_add_right _ _

/-- Nothing is taken out of a token that is spared. -/
theorem Word.withoutLines_chars (h : IsLexeme w.kind w.text) (hspared : (w.token pos).Spared dropped) :
    withoutLines dropped pos.line w.chars = Word.chars { w with gap := withoutLines dropped pos.line w.gap } := by
  rw [Word.chars, withoutLines_append]
  refine congrArg (_ ++ ·) (withoutLines_kept fun n hlow hhigh => hspared n ?_ ?_)
  · rwa [Word.token_line]
  · rw [Word.token_endLine h, Word.token_line]
    rwa [lexemeChars_newlines] at hhigh

theorem withoutLines_written (h : Fits words next) (hspared : ∀ t ∈ placed pos words, t.Spared dropped) :
    withoutLines dropped pos.line (written words) = written (keptWords dropped pos.line words) := by
  induction words generalizing pos with
  | nil => rfl
  | cons w words ih =>
    obtain ⟨-, hlexeme, -, hrest⟩ := h
    obtain ⟨hw, hwords⟩ := List.forall_mem_cons.mp hspared
    have hkept := ih hrest hwords
    rw [Word.after_line hlexeme] at hkept
    rw [written_cons, withoutLines_append, Word.withoutLines_chars hlexeme hw, hkept]
    rfl

/-- Words without the lines that are dropped fit, and begin as before if the line on which they begin is kept. -/
theorem fits_keptWords (h : Fits words next) (hspared : ∀ t ∈ placed pos words, t.Spared dropped)
    (hnext : dropped (passWords pos words).line = false → next' = next) :
    Fits (keptWords dropped pos.line words) next' ∧
      (dropped pos.line = false → opening (keptWords dropped pos.line words) next' = opening words next) := by
  induction words generalizing pos with
  | nil => exact ⟨trivial, hnext⟩
  | cons w words ih =>
    obtain ⟨hgap, hlexeme, hstops, hrest⟩ := h
    obtain ⟨hw, hwords⟩ := List.forall_mem_cons.mp hspared
    obtain ⟨hfits, hopening⟩ := ih hrest hwords hnext
    rw [Word.after_line hlexeme] at hfits hopening
    have hsame := hopening ((Word.after_line hlexeme pos).symm ▸ Word.spared_after hlexeme hw)
    have hkeptGap : IsGap (withoutLines dropped pos.line w.gap) := by
      have hends := gapEnds_withoutLines hgap dropped pos.line
      rwa [Bool.and_false, Bool.and_false] at hends
    refine ⟨⟨hkeptGap, hlexeme, ?_, hfits⟩, fun hkept => ?_⟩
    · change Stops w.kind w.text (opening (keptWords dropped (pos.line + w.chars.count '\n') words) next')
      rw [hsame]
      exact hstops
    · obtain ⟨c, more, hchars, -⟩ := Word.lexeme_ne_nil hlexeme
      have hhead := withoutLines_head hkept w.gap
      simp only [opening, keptWords, written_cons, Word.chars, List.head?_append, hhead, hchars, List.head?_cons, Option.or_some,
        Option.some_or]

theorem aligned_withoutLines {front : List Char} (h : dropped (1 + front.count '\n') = false) :
    Aligned (keptLine dropped) front (withoutLines dropped 1 front) := ⟨keptLine_count h, lastLine_withoutLines h⟩

/-- Tokens that are spared stand on their lines, which have other numbers. -/
theorem regapped_keptWords (h : Fits words next) {front : List Char} (hpos : pos.line = 1 + front.count '\n')
    (hspared : ∀ t ∈ placed pos words, t.Spared dropped) :
    Regapped (keptLine dropped) front (withoutLines dropped 1 front) words (keptWords dropped pos.line words) := by
  induction words generalizing pos front with
  | nil => exact .nil
  | cons w words ih =>
    obtain ⟨-, hlexeme, -, hrest⟩ := h
    obtain ⟨hw, hwords⟩ := List.forall_mem_cons.mp hspared
    have hgap : withoutLines dropped 1 (front ++ w.gap) = withoutLines dropped 1 front ++ withoutLines dropped pos.line w.gap := by
      rw [withoutLines_append, hpos]
    have hchars : withoutLines dropped 1 (front ++ w.chars) =
        withoutLines dropped 1 front ++ Word.chars { w with gap := withoutLines dropped pos.line w.gap } := by
      rw [withoutLines_append, ← hpos, Word.withoutLines_chars hlexeme hw]
    have hafter := Word.after_line_front hlexeme hpos
    have hkept : dropped (1 + (front ++ w.chars).count '\n') = false := hafter ▸ Word.spared_after hlexeme hw
    have hbegun : dropped (1 + (front ++ w.gap).count '\n') = false := by
      rw [← w.token_line_front hpos]
      refine hw _ (Nat.le_refl _) ?_
      rw [Word.token_endLine hlexeme]
      exact Nat.le_add_right _ _
    have hmore := ih hrest hafter hwords
    rw [Word.after_line hlexeme, hchars] at hmore
    exact .cons rfl rfl (hgap ▸ aligned_withoutLines hbegun) (hchars ▸ aligned_withoutLines hkept) hmore

/-- Reading goes on as many lines as words have line feeds. -/
theorem passWords_line (h : Fits words next) (pos : Position) :
    (passWords pos words).line = pos.line + (written words).count '\n' := by
  induction words generalizing pos with
  | nil => rfl
  | cons w words ih =>
    obtain ⟨-, hlexeme, -, hrest⟩ := h
    change (passWords (w.after pos) words).line = _
    rw [ih hrest, Word.after_line hlexeme, written_cons, List.count_append, Nat.add_assoc]

/-- The tokens of a source stand on lines of the numbers that are left, if none of their lines is dropped. -/
theorem renumbered_withoutLines {source : Source} {gap : String} {pos : Position} (h : source.scan.ending = .complete gap pos)
    (hspared : ∀ t ∈ source.scan.tokens, t.Spared dropped) :
    Renumbered (keptLine dropped) source (source.withoutLines dropped) ∧
      ∃ gap' pos', (source.withoutLines dropped).scan.ending = .complete gap' pos' := by
  obtain ⟨words, htext, hfits, hgap, htokens⟩ := scan_complete h
  rw [htokens] at hspared
  obtain ⟨comment, hleft⟩ := Option.isSome_iff_exists.mp hgap
  have hline := passWords_line hfits .origin
  have htext' : (source.withoutLines dropped).text.toList =
      written (keptWords dropped 1 words) ++ withoutLines dropped (1 + (written words).count '\n') gap.toList := by
    rw [Source.withoutLines, String.toList_ofList, htext, withoutLines_append]
    exact congrArg (· ++ _) (withoutLines_written hfits hspared)
  have hfits' : Fits (keptWords dropped 1 words) (withoutLines dropped (1 + (written words).count '\n') gap.toList).head? :=
    (fits_keptWords hfits hspared fun hkept => withoutLines_head (hline ▸ hkept) _).1
  have hleft' : (gapEnds false (withoutLines dropped (1 + (written words).count '\n') gap.toList)).isSome := by
    have hends := gapEnds_withoutLines hleft dropped (1 + (written words).count '\n')
    rw [Bool.and_false] at hends
    exact Option.isSome_iff_exists.mpr ⟨_, hends⟩
  obtain ⟨-, pos', hending⟩ := scan_written htext' hfits' hleft'
  have hregapped : Regapped (keptLine dropped) [] [] words (keptWords dropped 1 words) :=
    regapped_keptWords hfits rfl hspared
  exact ⟨hregapped.renumbered htext htext' hfits hfits' hgap hleft', _, _, hending⟩

/-- A line is dropped and stands in the text, which ends on a last line. -/
def droppedUpTo (dropped : Nat → Bool) (last number : Nat) : Bool := dropped number && number ≤ last

theorem withoutLines_upTo (source : Source) (dropped : Nat → Bool) :
    source.withoutLines (droppedUpTo dropped (1 + source.text.toList.count '\n')) = source.withoutLines dropped := by
  have hsame : HostScript.withoutLines (droppedUpTo dropped (1 + source.text.toList.count '\n')) 1 source.text.toList =
      HostScript.withoutLines dropped 1 source.text.toList := by
    refine withoutLines_congr fun n _ hhigh => ?_
    rw [droppedUpTo, decide_eq_true hhigh, Bool.and_true]
  unfold Source.withoutLines
  rw [hsame]

/-- A source that is cut into tokens is cut into the same tokens without lines on which none of them stands. -/
theorem scan_withoutLines {source : Source} {gap : String} {pos : Position} (h : source.scan.ending = .complete gap pos)
    (hspared : ∀ t ∈ source.scan.tokens, t.Spared dropped) :
    (∃ number, Function.Injective number ∧ Renumbered number source (source.withoutLines dropped)) ∧
      ∃ gap' pos', (source.withoutLines dropped).scan.ending = .complete gap' pos' := by
  have hspared' : ∀ t ∈ source.scan.tokens, t.Spared (droppedUpTo dropped (1 + source.text.toList.count '\n')) := by
    intro t ht number hlow hhigh
    rw [droppedUpTo, hspared t ht number hlow hhigh, Bool.false_and]
  have hkept : ∀ n, 1 + source.text.toList.count '\n' < n → droppedUpTo dropped (1 + source.text.toList.count '\n') n = false := by
    intro n hn
    rw [droppedUpTo, decide_eq_false (Nat.not_le.mpr hn), Bool.and_false]
  obtain ⟨hrenumbered, hending⟩ := renumbered_withoutLines h hspared'
  rw [withoutLines_upTo] at hrenumbered hending
  exact ⟨⟨_, keptLine_injective hkept, hrenumbered⟩, hending⟩

end Lexer

end HostScript
