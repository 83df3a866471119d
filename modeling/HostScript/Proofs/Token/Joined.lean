import Mathlib
import HostScript.Proofs.Token.Row

/-!
# Texts put together and cut apart

How cutting into tokens goes together with what is done to texts as a whole: a gap or a row of words is put in front of a text, a
line end is put behind it, and the blanks at its ends are taken away.
-/

namespace HostScript.Lexer

/-- Every token stops in front of a blank. -/
theorem Stops.blank {kind : TokenKind} {text : List Char} {d : Char} (hd : Text.isBlank d) : Stops kind text (some d) := by
  have hpart : isIdentPart d = false := by
    cases h : isIdentPart d with
    | false => rfl
    | true => rw [isIdentPart_not_blank h] at hd; nomatch hd
  cases kind with
  | symbol =>
    intro c e _ he hpair
    obtain rfl := Option.some.inj he
    have hsecond : ∀ e ∈ pairedSymbols.map Prod.snd, Text.isBlank e = false := forall_mem_of_all (by decide)
    rw [hsecond d (List.mem_map.mpr ⟨(c, d), hpair, rfl⟩)] at hd
    nomatch hd
  | ident =>
    intro e he
    obtain rfl := Option.some.inj he
    exact hpart
  | number =>
    intro e he
    obtain rfl := Option.some.inj he
    unfold isIdentPart at hpart
    unfold extendsNumber
    have hpoint : d ≠ '.' := by
      rintro rfl
      nomatch hd
    simp only [Bool.or_eq_false_iff, beq_eq_false_iff_ne] at hpart ⊢
    exact ⟨⟨hpart.2, hpoint⟩, hpart.1⟩
  | rawString => trivial
  | string => trivial

theorem isBlank_newline : Text.isBlank '\n' := by decide

/-- Words fit in front of everything in front of which their last token stops. -/
theorem Fits.mono {words : List Word} {next next' : Option Char} (h : Fits words next)
    (hstops : ∀ kind text, Stops kind text next → Stops kind text next') : Fits words next' := by
  induction words with
  | nil => trivial
  | cons w words ih =>
    obtain ⟨hgap, hlexeme, hnext, hrest⟩ := h
    refine ⟨hgap, hlexeme, ?_, ih hrest⟩
    cases hhead : (written words).head? with
    | some c =>
      rw [hhead] at hnext
      exact hnext
    | none =>
      rw [hhead] at hnext
      exact hstops _ _ hnext

/-- Words that fit in front of anything fit in front of a blank. -/
theorem Fits.blank {words : List Word} {next : Option Char} {d : Char} (h : Fits words next) (hd : Text.isBlank d) :
    Fits words (some d) := h.mono fun _ _ _ => Stops.blank hd

/-- A gap may be put in place of the one in front of the first word. -/
theorem Fits.gap {w : Word} {words : List Word} {next : Option Char} (h : Fits (w :: words) next) {gap : List Char}
    (hgap : IsGap gap) : Fits ({ w with gap := gap } :: words) next := ⟨hgap, h.2⟩

/-! ## Words put together -/

/-- A name behind a gap. -/
def nameWord (gap name : List Char) : Word := ⟨gap, .ident, name⟩

/-- A symbol of one character behind a gap. -/
def symbolWord (gap : List Char) (c : Char) : Word := ⟨gap, .symbol, [c]⟩

/-- Puts a gap in front of words. -/
def gapped (gap : List Char) : List Word → List Word
  | [] => []
  | w :: words => { w with gap := gap ++ w.gap } :: words

/-- The character in front of which words stand: their first, or the one behind them if there is none. -/
def opening (words : List Word) (next : Option Char) : Option Char := (written words).head?.or next

@[simp] theorem nameWord_chars (gap name : List Char) : (nameWord gap name).chars = gap ++ name := rfl

@[simp] theorem symbolWord_chars (gap : List Char) (c : Char) : (symbolWord gap c).chars = gap ++ [c] := rfl

/-- A gap in front of words is written in front of them. -/
theorem written_gapped (gap : List Char) {words : List Word} (h : words ≠ []) : written (gapped gap words) = gap ++ written words := by
  cases words with
  | nil => exact absurd rfl h
  | cons w words => simp only [gapped, written_cons, Word.chars, List.append_assoc]

@[simp] theorem gapped_nameWord (gap before name : List Char) (words : List Word) :
    gapped gap (nameWord before name :: words) = nameWord (gap ++ before) name :: words := rfl

theorem gapped_ne_nil {gap : List Char} {words : List Word} (h : words ≠ []) : gapped gap words ≠ [] := by
  cases words with
  | nil => exact h
  | cons w words => exact List.cons_ne_nil _ _

/-- Words with one more gap in front of them are read again as they are. -/
theorem Fits.gapped {gap : List Char} {words : List Word} {next : Option Char} (h : Fits words next) (hgap : IsGap gap) :
    Fits (gapped gap words) next := by
  cases words with
  | nil => trivial
  | cons w words =>
    refine h.gap ?_
    rw [IsGap, gapEnds_append hgap]
    exact h.1

theorem Fits.nil (next : Option Char) : Fits [] next := trivial

/-- Words are put in front of others at which they stop. -/
theorem Fits.append {words more : List Word} {next : Option Char} (h : Fits words (opening more next)) (hmore : Fits more next) :
    Fits (words ++ more) next := Fits.append_iff.mpr ⟨h, hmore⟩

/-- A name is put in front of words that do not continue it. -/
theorem Fits.name {gap name : List Char} {words : List Word} {next : Option Char} (h : Fits words next) (hgap : IsGap gap)
    (hname : IsLexeme .ident name) (hstops : Stops .ident name (opening words next)) : Fits (nameWord gap name :: words) next :=
  ⟨hgap, hname, hstops, h⟩

/-- A symbol that begins no other is put in front of words. -/
theorem Fits.symbol {gap : List Char} {c : Char} {words : List Word} {next : Option Char} (h : Fits words next)
    (hgap : IsGap gap) (hc : c ∈ singleSymbols) (hpair : ∀ pair ∈ pairedSymbols, pair.1 ≠ c) :
    Fits (symbolWord gap c :: words) next := by
  refine ⟨hgap, Or.inr ⟨c, rfl, hc⟩, fun d e hd _ hmem => ?_, h⟩
  obtain rfl := (List.cons.inj hd).1
  exact hpair _ hmem rfl

theorem isGap_nil : IsGap [] := rfl

theorem isGap_space : IsGap [' '] := rfl

/-- A name stops in front of a character that does not continue one. -/
theorem stops_ident {name : List Char} {d : Char} (hd : isIdentPart d = false) : Stops .ident name (some d) := by
  intro e he
  obtain rfl := Option.some.inj he
  exact hd

/-! ## In front of a text -/

/-- A row of words in front of a text is read, and nothing else changes. -/
theorem lexes_words {words : List Word} {text : List Char} (h : Fits words text.head?) :
    Lexes (written words ++ text) ↔ Lexes text := by
  rw [← scanFrom_complete_iff .origin, scanFrom_append h, scanFrom_complete_iff]

/-- No gap begins with the first character of a word. -/
theorem gapEnds_opensWord {c : Char} (hc : opensWord c) (rest : List Char) : gapEnds false (c :: rest) = none := by
  obtain ⟨hnext, hcr⟩ := opensWord_gap hc
  rw [gapEnds.eq_2, gapNext_next hcr, hnext]

/-- A gap in front of a text is read, and nothing else changes. -/
theorem lexes_gap {gap text : List Char} (h : IsGap gap) : Lexes (gap ++ text) ↔ Lexes text := by
  constructor
  · rintro ⟨words, left, htext, hfits, hleft⟩
    cases words with
    | nil =>
      rw [written_nil, List.nil_append] at htext
      rw [← htext, gapEnds_append h] at hleft
      exact ⟨[], text, rfl, trivial, hleft⟩
    | cons w words =>
      rw [written_cons, Word.chars, List.append_assoc, List.append_assoc] at htext
      rcases List.append_eq_append_iff.mp htext with ⟨more, hgap, hrest⟩ | ⟨more, hgap, hrest⟩
      · refine ⟨⟨more, w.kind, w.text⟩ :: words, left, ?_, ?_, hleft⟩
        · rw [hrest, written_cons, Word.chars, List.append_assoc, List.append_assoc]
        · refine hfits.gap ?_
          have := hfits.1
          rw [IsGap, hgap, gapEnds_append h] at this
          exact this
      · -- the gap cannot reach into the first word
        cases more with
        | nil =>
          refine ⟨⟨[], w.kind, w.text⟩ :: words, left, ?_, hfits.gap rfl, hleft⟩
          rw [List.nil_append] at hrest
          rw [← hrest, written_cons, Word.chars, List.nil_append, List.append_assoc]
        | cons c more =>
          obtain ⟨d, lexeme, hlexeme, hd⟩ := Word.lexeme_ne_nil hfits.2.1
          rw [hlexeme] at hrest
          obtain ⟨rfl, -⟩ := List.cons.inj hrest
          rw [IsGap, hgap, gapEnds_append hfits.1, gapEnds_opensWord hd] at h
          contradiction
  · rintro ⟨words, left, rfl, hfits, hleft⟩
    cases words with
    | nil =>
      refine ⟨[], gap ++ left, rfl, trivial, ?_⟩
      rw [gapEnds_append h]
      exact hleft
    | cons w words =>
      refine ⟨⟨gap ++ w.gap, w.kind, w.text⟩ :: words, left, ?_, hfits.gap ?_, hleft⟩
      · rw [written_cons, written_cons, Word.chars, Word.chars]
        simp only [List.append_assoc]
      · rw [IsGap, gapEnds_append h]
        exact hfits.1

/-! ## Behind a text -/

/-- At the end of a text every token stops. -/
theorem Stops.none (kind : TokenKind) (text : List Char) : Stops kind text none := by
  cases kind with
  | symbol => exact fun _ _ _ h => nomatch h
  | ident => exact fun _ h => nomatch h
  | number => exact fun _ h => nomatch h
  | rawString => trivial
  | string => trivial

/-- The end of a row of words is no blank. -/
theorem written_last {words : List Word} {next : Option Char} {front : List Char} {d : Char} (h : Fits words next)
    (hwritten : written words = front ++ [d]) : Text.isBlank d = false := by
  induction words generalizing front with
  | nil =>
    have := congrArg List.length hwritten
    simp at this
  | cons w words ih =>
    rw [written_cons] at hwritten
    cases hwords : words with
    | nil =>
      obtain ⟨lexeme, c, hlexeme, hc⟩ := h.2.1.last
      rw [hwords, written_nil, List.append_nil, Word.chars, hlexeme, ← List.append_assoc] at hwritten
      rwa [← (List.append_singleton_inj.mp hwritten).2]
    | cons v rest =>
      obtain ⟨c, more, hlexeme, -⟩ := Word.lexeme_ne_nil (w := v) (by rw [hwords] at h; exact h.2.2.2.2.1)
      have hne : written words ≠ [] := by
        rw [hwords, written_cons, Word.chars, hlexeme]
        simp
      obtain ⟨before, last, hbefore⟩ : ∃ before last, written words = before ++ [last] :=
        ⟨_, _, (List.dropLast_concat_getLast hne).symm⟩
      rw [hbefore, ← List.append_assoc] at hwritten
      obtain ⟨-, rfl⟩ := List.append_singleton_inj.mp hwritten
      exact ih h.2.2.2 hbefore

/-- The end of a gap may be cut off, except between a carriage return and its line feed. -/
theorem gapEnds_dropLast {comment : Bool} {gap : List Char} {c : Char} (h : (gapEnds comment (gap ++ [c])).isSome)
    (hcr : ∀ front, gap ≠ front ++ ['\r']) : (gapEnds comment gap).isSome := by
  induction gap generalizing comment with
  | nil => rfl
  | cons d gap ih =>
    have hnext : gapNext comment d (gap ++ [c]).head? = gapNext comment d gap.head? := by
      cases gap with
      | nil => exact gapNext_next (fun hd => hcr [] (by rw [hd]; rfl)) _ _ _
      | cons e gap => rfl
    rw [List.cons_append, gapEnds.eq_2, hnext] at h
    rw [gapEnds.eq_2]
    cases hgap : gapNext comment d gap.head? with
    | none =>
      rw [hgap] at h
      exact h
    | some next =>
      rw [hgap] at h
      refine ih h fun front hfront => hcr (d :: front) ?_
      rw [hfront, List.cons_append]

/-- A line end behind a text is read, and nothing else changes, unless it completes the line end of a carriage return. -/
theorem lexes_newline {text : List Char} (hcr : ∀ front, text ≠ front ++ ['\r']) : Lexes (text ++ ['\n']) ↔ Lexes text := by
  constructor
  · rintro ⟨words, left, htext, hfits, hleft⟩
    rcases List.eq_nil_or_concat left with rfl | ⟨gap, c, rfl⟩
    · rw [List.append_nil] at htext
      have := written_last hfits htext.symm
      rw [isBlank_newline] at this
      nomatch this
    · rw [List.concat_eq_append, ← List.append_assoc] at htext
      obtain ⟨rfl, hc⟩ := List.append_singleton_inj.mp htext
      subst hc
      rw [List.concat_eq_append] at hfits hleft
      refine ⟨words, gap, rfl, ?_, gapEnds_dropLast hleft fun front hfront => hcr (written words ++ front) ?_⟩
      · cases gap with
        | nil => exact hfits.mono fun kind text _ => Stops.none kind text
        | cons d gap => exact hfits
      · rw [hfront, List.append_assoc]
  · rintro ⟨words, left, rfl, hfits, hleft⟩
    obtain ⟨comment, hcomment⟩ := Option.isSome_iff_exists.mp hleft
    refine ⟨words, left ++ ['\n'], List.append_assoc _ _ _, ?_, ?_⟩
    · cases left with
      | nil => exact hfits.blank isBlank_newline
      | cons d left => exact hfits
    · rw [gapEnds_append hcomment]
      rfl

/-! ## Without the blanks at the ends -/

/-- Dropping characters does not go past one that is not dropped. -/
theorem dropWhile_append_stop {p : Char → Bool} {c : Char} (hc : p c = false) (front rest : List Char) :
    (front ++ c :: rest).dropWhile p = front.dropWhile p ++ c :: rest := by
  induction front with
  | nil => simp [hc]
  | cons d front ih =>
    rw [List.cons_append, List.dropWhile_cons, List.dropWhile_cons, ih]
    split <;> rfl

/-- What is taken away around a character that is no blank stands at its sides. -/
theorem trimChars_around {c : Char} (hc : Text.isBlank c = false) (front rest : List Char) :
    Text.trimChars (front ++ c :: rest) =
      front.dropWhile Text.isBlank ++ c :: (rest.reverse.dropWhile Text.isBlank).reverse := by
  unfold Text.trimChars
  rw [dropWhile_append_stop hc, List.reverse_append, List.reverse_cons, List.append_assoc, List.singleton_append,
    dropWhile_append_stop hc, List.reverse_append, List.reverse_cons, List.reverse_reverse, List.append_assoc,
    List.singleton_append]

/-- A gap without the blanks at its beginning is a gap. -/
theorem IsGap.dropWhile {gap : List Char} (h : IsGap gap) : IsGap (gap.dropWhile Text.isBlank) := by
  induction gap with
  | nil => exact h
  | cons c gap ih =>
    rw [List.dropWhile_cons]
    split
    · rename_i hc
      refine ih ?_
      rw [IsGap, gapEnds.eq_2] at h
      have hhash : c ≠ '#' := by
        rintro rfl
        exact absurd hc (by decide)
      cases hnext : gapNext false c gap.head? with
      | none =>
        rw [hnext] at h
        contradiction
      | some comment =>
        rw [hnext] at h
        have : comment = false := by
          unfold gapNext at hnext
          grind
        rwa [this] at h
    · exact h

/-- A text is refused at a character: behind a gap, the character begins neither a gap nor a token. -/
def RefusedAt (c : Char) (text : List Char) : Prop :=
  ∃ gap rest, text = gap ++ c :: rest ∧ IsGap gap ∧ gapNext false c rest.head? = none ∧
    (c = '\r' ∨ ∀ pos piece, readToken pos c rest ≠ .ok piece)

/-- Whether a token can be read does not depend on where it stands. -/
theorem readToken_pos {pos : Position} {c : Char} {rest : List Char} {piece : Piece} (h : readToken pos c rest = .ok piece)
    (pos' : Position) : ∃ piece', readToken pos' c rest = .ok piece' := by
  obtain ⟨hlexeme, htext, hstops, -⟩ := readToken_ok h
  obtain ⟨d, more, hchars, -, hread⟩ := readToken_lexeme hlexeme hstops
  rw [hchars, List.cons_append] at htext
  obtain ⟨rfl, rfl⟩ := List.cons.inj htext
  exact ⟨_, hread pos'⟩

/-- Reading stops only where a character is refused. -/
theorem Blocked.refusedAt {pos : Position} {text : List Char} {fault : LexFault} (h : Blocked pos text fault) :
    ∃ c, RefusedAt c text := by
  rcases h with h | ⟨h, ht⟩
  · obtain ⟨gap, rest, rfl, hends, hrest, -⟩ := skipGap_error h
    refine ⟨'\r', gap, rest, rfl, hends, ?_, .inl rfl⟩
    have : (rest.head? == some '\n') = false := beq_false_of_ne hrest
    simp [gapNext, this]
  · rename_i gap rest c here
    obtain ⟨skipped, comment, htext, -, hends, -, hrest⟩ := skipGap_ok h
    obtain ⟨rfl, -, hnext⟩ := hrest c rest rfl
    refine ⟨c, skipped, rest, htext, hends, hnext, .inr fun pos' piece hread => ?_⟩
    obtain ⟨piece', hhere⟩ := readToken_pos hread here
    rw [hhere] at ht
    contradiction

/-- Taking away the blanks at the ends of a text that is refused at another character does not make it acceptable. -/
theorem not_lexes_trimChars {c : Char} {text : List Char} (h : RefusedAt c text) (hc : Text.isBlank c = false) :
    ¬ Lexes (Text.trimChars text) := by
  obtain ⟨gap, rest, rfl, hgap, hnext, hrefused⟩ := h
  have hcr : c ≠ '\r' := by
    rintro rfl
    exact absurd hc (by decide)
  have hread := hrefused.resolve_left hcr
  obtain ⟨blanks, hblanks, hrest⟩ : ∃ blanks : List Char, (∀ d ∈ blanks, Text.isBlank d) ∧
      rest = (rest.reverse.dropWhile Text.isBlank).reverse ++ blanks := by
    refine ⟨(rest.reverse.takeWhile Text.isBlank).reverse, fun d hd => ?_, ?_⟩
    · exact List.mem_takeWhile_imp (List.mem_reverse.mp hd)
    · rw [← List.reverse_append, List.takeWhile_append_dropWhile, List.reverse_reverse]
  rw [trimChars_around hc, lexes_gap hgap.dropWhile]
  generalize (rest.reverse.dropWhile Text.isBlank).reverse = kept at hrest
  subst hrest
  have hbegins : ∀ more, gapEnds false (c :: more) = none := fun more => by
    rw [gapEnds.eq_2, gapNext_next hcr, hnext]
  rintro ⟨words, left, htext, hfits, hleft⟩
  cases words with
  | nil =>
    rw [written_nil, List.nil_append] at htext
    rw [← htext, hbegins] at hleft
    contradiction
  | cons w words =>
    obtain ⟨hwgap, hlexeme, hstops, -⟩ := hfits
    rw [written_cons, Word.chars, List.append_assoc, List.append_assoc] at htext
    cases hw : w.gap with
    | cons d more =>
      rw [hw, List.cons_append] at htext
      obtain ⟨rfl, -⟩ := List.cons.inj htext
      rw [IsGap, hw, hbegins] at hwgap
      contradiction
    | nil =>
      rw [hw, List.nil_append] at htext
      -- the word that is read without the blanks would be read with them as well
      have hstops' : Stops w.kind w.text (written words ++ left ++ blanks).head? := by
        rw [List.head?_append, List.head?_append]
        cases hhead : (written words).head?.or left.head? with
        | some d =>
          rw [hhead] at hstops
          exact hstops
        | none =>
          cases blanks with
          | nil => exact Stops.none _ _
          | cons d blanks => exact Stops.blank (hblanks d List.mem_cons_self)
      obtain ⟨d, more, hchars, -, hok⟩ := readToken_lexeme hlexeme hstops'
      rw [hchars, List.cons_append] at htext
      obtain ⟨rfl, rfl⟩ := List.cons.inj htext
      rw [List.append_assoc] at hread
      exact hread .origin _ (hok .origin)

end HostScript.Lexer
