import Mathlib
import HostScript.Proofs.Token.Joined
import HostScript.Proofs.Token.Regapped

/-!
# Comments

`Source.uncommented` takes the comments out of a source: each `#` outside of literals, up to the end of its line. It goes by the quotes
alone and not by the tokens. A source that is cut into tokens is then cut into the same tokens on the same lines, with other gaps in front
of them (`Lexer.scan_uncommented`).
-/

namespace HostScript

/-- What a character of a text belongs to. -/
inductive Region
  /-- It stands between literals and comments. -/
  | code
  | comment
  /-- It stands between double quotes. -/
  | quoted
  /-- It stands behind a backslash between double quotes. -/
  | escaped
  /-- It stands in a raw string. -/
  | raw
  deriving DecidableEq, Repr

namespace Region

/-- What the next character belongs to, behind a character. -/
def next : Region → Char → Region
  | .code, c => if c == '#' then .comment else if c == '"' then .quoted else if c == '\x60' then .raw else .code
  | .comment, c => if c == '\n' then .code else .comment
  | .quoted, c => if c == '"' then .code else if c == '\\' then .escaped else .quoted
  | .escaped, _ => .quoted
  | .raw, c => if c == '\x60' then .code else .raw

/-- A character in front of another is no part of a comment. The end of a line is no part of the comment in front of it. -/
def keeps : Region → Char → Option Char → Bool
  | .code, c, _ => c != '#'
  | .comment, c, after => c == '\n' || (c == '\r' && after == some '\n')
  | _, _, _ => true

/-- What the character behind a text belongs to. -/
def behind (region : Region) (text : List Char) : Region := text.foldl next region

/-- A text without its comments. -/
def uncomment (region : Region) : List Char → List Char
  | [] => []
  | c :: rest => if region.keeps c rest.head? then c :: uncomment (region.next c) rest else uncomment (region.next c) rest

end Region

/-- A source without its comments. -/
def Source.uncommented (source : Source) : Source := ⟨source.name, String.ofList (Region.code.uncomment source.text.toList)⟩

namespace Lexer

/-! ## Plain characters -/

/-- A character of one byte that is no tab and begins no line, no comment and no literal. -/
def isPlain (c : Char) : Bool := c.utf8Size == 1 && c != '\n' && c != '\t' && c != '#' && c != '"' && c != '\x60'

/-- What it means for a character to be plain. -/
theorem isPlain_iff {c : Char} : isPlain c ↔ c.utf8Size = 1 ∧ c ≠ '\n' ∧ c ≠ '\t' ∧ c ≠ '#' ∧ c ≠ '"' ∧ c ≠ '\x60' := by
  simp [isPlain, and_assoc]

/-- The characters of a name are plain. -/
theorem isPlain_identPart {c : Char} (h : isIdentPart c) : isPlain c := by
  have hsize : c.utf8Size = 1 := by
    rw [Char.utf8Size_eq_one_iff]
    simp only [isIdentPart, Char.isAlphanum, Char.isAlpha, Char.isUpper, Char.isLower, Char.isDigit, Bool.or_eq_true, Bool.and_eq_true,
      decide_eq_true_eq, beq_iff_eq] at h
    rcases h with ((⟨-, h⟩ | ⟨-, h⟩) | ⟨-, h⟩) | rfl
    · exact UInt32.le_trans h (by decide)
    · exact UInt32.le_trans h (by decide)
    · exact UInt32.le_trans h (by decide)
    · decide
  refine isPlain_iff.mpr ⟨hsize, ?_, ?_, ?_, ?_, ?_⟩ <;>
  · rintro rfl
    exact absurd h (by decide)

/-- The texts of tokens without quotes are plain. -/
theorem IsLexeme.plain {kind : TokenKind} {text : List Char} (h : IsLexeme kind text) (hkind : Token.delimiter? kind = none) :
    ∀ c ∈ text, isPlain c := by
  cases kind with
  | symbol =>
    rcases h with ⟨c, d, rfl, hpair⟩ | ⟨c, rfl, hsingle⟩
    · have hpairs : ∀ pair ∈ pairedSymbols, isPlain pair.1 ∧ isPlain pair.2 := forall_mem_of_all (by decide)
      exact List.forall_mem_cons.mpr ⟨(hpairs _ hpair).1, List.forall_mem_singleton.mpr (hpairs _ hpair).2⟩
    · have hsingles : ∀ c ∈ singleSymbols, isPlain c := forall_mem_of_all (by decide)
      exact List.forall_mem_singleton.mpr (hsingles c hsingle)
  | ident =>
    obtain ⟨c, rest, rfl, hc, hrest⟩ := h
    have hstart : isIdentPart c := by
      rcases (Bool.or_eq_true _ _).mp hc with halpha | hunderscore
      · simp [isIdentPart, Char.isAlphanum, halpha]
      · rw [isIdentPart, hunderscore, Bool.or_true]
    exact List.forall_mem_cons.mpr ⟨isPlain_identPart hstart, fun d hd => isPlain_identPart (hrest d hd)⟩
  | number =>
    intro c hc
    rcases IsNumeral.mem h c hc with hdigit | hmark
    · exact isPlain_identPart (by simp [isIdentPart, Char.isAlphanum, hdigit])
    · have hmarks : ∀ mark ∈ ['.', 'e', 'E', '+', '-'], isPlain mark := forall_mem_of_all (by decide)
      exact hmarks c hmark
  | rawString | string => contradiction

end Lexer

namespace Region

variable {region : Region} {c : Char} {text more : List Char}

/-- What the character behind two texts belongs to, from the first on. -/
theorem behind_append (region : Region) (text more : List Char) : region.behind (text ++ more) = (region.behind text).behind more :=
  List.foldl_append

/-- Within a comment, one is outside of it again only behind a line feed. -/
theorem keeps_of_next (h : region.next c ≠ .comment) (after : Option Char) : region.keeps c after = true := by
  cases region with
  | code =>
    refine bne_iff_ne.mpr fun hc => h ?_
    rw [hc]
    rfl
  | comment =>
    have hc : c == '\n' := by
      refine Decidable.byContradiction fun hc => h ?_
      rw [next, if_neg hc]
    rw [keeps, hc, Bool.true_or]
  | quoted | escaped | raw => rfl

/-- A text is put together from its parts without comments, if the first part does not end in one. -/
theorem uncomment_append (h : region.behind text ≠ .comment) :
    region.uncomment (text ++ more) = region.uncomment text ++ (region.behind text).uncomment more := by
  induction text generalizing region with
  | nil => rfl
  | cons c rest ih =>
    have hkeeps : region.keeps c (rest ++ more).head? = region.keeps c rest.head? := by
      cases rest with
      | nil => rw [keeps_of_next h, keeps_of_next h]
      | cons d rest => rfl
    have hrest : (region.next c).uncomment (rest ++ more) =
        (region.next c).uncomment rest ++ ((region.next c).behind rest).uncomment more := ih h
    rw [List.cons_append, uncomment, uncomment, hkeeps, hrest]
    split <;> rfl

/-- Outside of comments and literals nothing depends on what stood in front. -/
theorem uncomment_code (h : Region.code.behind text = .code) :
    Region.code.uncomment (text ++ more) = Region.code.uncomment text ++ Region.code.uncomment more := by
  rw [uncomment_append (by rw [h]; decide), h]

/-! ## Lines -/

/-- A line feed is kept, also at the end of a comment. -/
theorem keeps_newline (region : Region) (after : Option Char) : region.keeps '\n' after = true := by
  cases region <;> rfl

/-- Lines stay where they are. -/
theorem uncomment_newlines (region : Region) (text : List Char) : (region.uncomment text).count '\n' = text.count '\n' := by
  induction text generalizing region with
  | nil => rfl
  | cons c rest ih =>
    rw [uncomment]
    split
    · rw [List.count_cons, List.count_cons, ih]
    · rename_i hkeeps
      have hc : c ≠ '\n' := by
        rintro rfl
        exact hkeeps (region.keeps_newline _)
      rw [ih, List.count_cons_of_ne hc]

/-- A text has a line feed if and only if it has one without its comments. -/
theorem mem_newline_uncomment : '\n' ∈ region.uncomment text ↔ '\n' ∈ text := by
  rw [← List.count_pos_iff, uncomment_newlines, List.count_pos_iff]

/-- A comment goes on to the end of the line. -/
theorem behind_comment (h : '\n' ∉ text) : Region.comment.behind text = .comment := by
  induction text with
  | nil => rfl
  | cons c rest ih =>
    rw [List.mem_cons, not_or] at h
    have hnext : Region.comment.next c = .comment := if_neg fun hc => h.1 (beq_iff_eq.mp hc).symm
    change (Region.comment.next c).behind rest = .comment
    rw [hnext, ih h.2]

/-- There is no comment in a part of a line that does not end in one. -/
theorem uncomment_line (h : '\n' ∉ text) (hbehind : region.behind text ≠ .comment) : region.uncomment text = text := by
  induction text generalizing region with
  | nil => rfl
  | cons c rest ih =>
    rw [List.mem_cons, not_or] at h
    have hnext : region.next c ≠ .comment := by
      intro hnext
      refine hbehind ?_
      change (region.next c).behind rest = .comment
      rw [hnext, behind_comment h.2]
    rw [uncomment, if_pos (keeps_of_next hnext _), ih h.2 hbehind]

/-- Outside of comments the line on which a text ends is as it was. -/
theorem lastLine_uncomment (h : region.behind text ≠ .comment) : lastLine (region.uncomment text) = lastLine text := by
  induction text generalizing region with
  | nil => rfl
  | cons c rest ih =>
    by_cases hnewline : '\n' ∈ rest
    · have hrest : lastLine ((region.next c).uncomment rest) = lastLine rest := ih h
      have hkept : '\n' ∈ (region.next c).uncomment rest := mem_newline_uncomment.mpr hnewline
      rw [uncomment, lastLine_cons hnewline, ← hrest]
      split
      · exact lastLine_cons hkept c
      · rfl
    · have hnext : region.next c ≠ .comment := by
        intro hnext
        refine h ?_
        change (region.next c).behind rest = .comment
        rw [hnext, behind_comment hnewline]
      rw [uncomment, if_pos (keeps_of_next hnext _), uncomment_line hnewline h]

/-! ## Written forms -/

/-- There is no comment in a text, and what the character behind it belongs to. -/
structure Passes (region : Region) (text : List Char) (after : Region) : Prop where
  behind : region.behind text = after
  uncomment : region.uncomment text = text

/-- A character that is kept may stand in front of a text without comments. -/
theorem Passes.cons {region' after : Region} (hkeeps : ∀ next, region.keeps c next = true) (hnext : region.next c = region')
    (h : region'.Passes text after) : region.Passes (c :: text) after := by
  subst hnext
  refine ⟨h.behind, ?_⟩
  rw [Region.uncomment, if_pos (hkeeps _), h.uncomment]

/-- A plain character opens nothing. -/
theorem next_plain (h : Lexer.isPlain c) : Region.code.next c = .code := by
  obtain ⟨-, -, -, hhash, hquote, hbacktick⟩ := Lexer.isPlain_iff.mp h
  simp [next, hhash, hquote, hbacktick]

/-- Plain characters hold no comment. -/
theorem passes_plain (h : ∀ c ∈ text, Lexer.isPlain c) : Region.code.Passes text .code := by
  induction text with
  | nil => exact ⟨rfl, rfl⟩
  | cons c rest ih =>
    obtain ⟨hc, hrest⟩ := List.forall_mem_cons.mp h
    obtain ⟨-, -, -, hhash, -⟩ := Lexer.isPlain_iff.mp hc
    exact .cons (fun _ => bne_iff_ne.mpr hhash) (next_plain hc) (ih hrest)

/-- A raw string is closed at its quote, and holds no comment. -/
theorem passes_raw (h : '\x60' ∉ text) : Region.raw.Passes (text ++ ['\x60']) .code := by
  induction text with
  | nil => exact ⟨rfl, rfl⟩
  | cons c rest ih =>
    rw [List.mem_cons, not_or] at h
    have hnext : Region.raw.next c = .raw := if_neg fun hc => h.1 (beq_iff_eq.mp hc).symm
    exact .cons (fun _ => rfl) hnext (ih h.2)

/-- A string is closed at its quote, and holds no comment. -/
theorem passes_string (h : Lexer.isStringBody text) : Region.quoted.Passes (text ++ ['"']) .code := by
  fun_induction Lexer.isStringBody text with
  | case1 => exact ⟨rfl, rfl⟩
  | case2 => contradiction
  | case3 => contradiction
  | case4 c rest ih => exact .cons (fun _ => rfl) rfl (.cons (fun _ => rfl) rfl (ih h))
  | case5 c rest hquote hend hescape ih =>
    have hslash : c ≠ '\\' := by
      rintro rfl
      cases rest with
      | nil => exact hend rfl rfl
      | cons d rest => exact hescape d rest rfl rfl
    have hnext : Region.quoted.next c = .quoted := by simp [next, show c ≠ '"' from hquote, hslash]
    exact .cons (fun _ => rfl) hnext (ih ((Bool.and_eq_true _ _).mp h).2)

/-- There is no comment in the written form of a token. -/
theorem passes_lexeme {kind : TokenKind} (h : Lexer.IsLexeme kind text) : Region.code.Passes (Lexer.lexemeChars kind text) .code := by
  cases kind with
  | symbol | ident | number => exact passes_plain (h.plain rfl)
  | rawString => exact .cons (fun _ => rfl) rfl (passes_raw h)
  | string => exact .cons (fun _ => rfl) rfl (passes_string h.1)

/-! ## Gaps -/

/-- What a character of a gap belongs to. -/
def ofComment (comment : Bool) : Region := if comment then .comment else .code

variable {comment comment' : Bool} {gap : List Char} {after : Option Char}

/-- Reading a gap tells code from comments as the regions do. -/
theorem ofComment_next (h : Lexer.gapNext comment c after = some comment') : (ofComment comment).next c = ofComment comment' := by
  unfold Lexer.gapNext at h
  unfold ofComment
  cases comment <;> grind [next]

/-- Behind a gap, reading is inside of a comment if and only if the region is. -/
theorem behind_gap (h : Lexer.gapEnds comment gap = some comment') : (ofComment comment).behind gap = ofComment comment' := by
  induction gap generalizing comment with
  | nil =>
    obtain rfl := Option.some.inj h
    rfl
  | cons c rest ih =>
    unfold Lexer.gapEnds at h
    split at h
    · rename_i comment'' hnext
      change ((ofComment comment).next c).behind rest = _
      rw [ofComment_next hnext, ih h]
    · contradiction

/-- What is kept of a gap is blank. -/
theorem keeps_gap (h : Lexer.gapNext comment c after = some comment') (hkeeps : (ofComment comment).keeps c after = true) :
    Lexer.gapNext false c after = some false ∧ Text.isBlank c := by
  have hblank : ∀ c ∈ [' ', '\t', '\n', '\r'], Text.isBlank c := Lexer.forall_mem_of_all (by decide)
  unfold Lexer.gapNext at h ⊢
  unfold ofComment at hkeeps
  cases comment <;> grind [keeps]

/-- A gap that begins with a line feed still does without its comments. -/
theorem uncomment_head (h : gap.head? = some '\n') (region : Region) : (region.uncomment gap).head? = some '\n' := by
  obtain ⟨rest, rfl⟩ := List.head?_eq_some_iff.mp h
  rw [uncomment, if_pos (region.keeps_newline _)]
  rfl

/-- A gap without its comments is a gap, and begins with a blank. -/
theorem uncomment_gap (h : Lexer.gapEnds comment gap = some comment') :
    Lexer.IsGap ((ofComment comment).uncomment gap) ∧ ∀ d, ((ofComment comment).uncomment gap).head? = some d → Text.isBlank d := by
  induction gap generalizing comment with
  | nil => exact ⟨rfl, fun d hd => absurd hd (Option.some_ne_none d).symm⟩
  | cons c rest ih =>
    unfold Lexer.gapEnds at h
    split at h
    · rename_i comment'' hnext
      obtain ⟨hgap, hhead⟩ := ih h
      rw [uncomment, ofComment_next hnext]
      split
      · rename_i hkeeps
        obtain ⟨hblank, hc⟩ := keeps_gap hnext hkeeps
        refine ⟨?_, fun d hd => ?_⟩
        · rw [Lexer.IsGap, Lexer.gapEnds, Lexer.gapNext_head hblank fun hhead => uncomment_head hhead _]
          exact hgap
        · obtain rfl := Option.some.inj hd
          exact hc
      · exact ⟨hgap, hhead⟩
    · contradiction

/-- A gap between two tokens does not consist of comments alone. -/
theorem uncomment_gap_ne_nil (h : Lexer.IsGap gap) (hne : gap ≠ []) : Region.code.uncomment gap ≠ [] := by
  by_cases hnewline : '\n' ∈ gap
  · exact List.ne_nil_of_mem (mem_newline_uncomment.mpr hnewline)
  · have hbehind : Region.code.behind gap = .code := behind_gap h
    rwa [uncomment_line hnewline (by rw [hbehind]; decide)]

end Region

/-! ## Words -/

namespace Lexer

/-- A word without the comments in front of it. -/
def Word.uncommented (w : Word) : Word := { w with gap := Region.code.uncomment w.gap }

variable {w : Word} {words : List Word} {next next' : Option Char}

/-- A word loses the comments in front of it only. -/
theorem Word.uncomment_chars (hgap : IsGap w.gap) (hlexeme : IsLexeme w.kind w.text) :
    Region.code.behind w.chars = .code ∧ Region.code.uncomment w.chars = w.uncommented.chars := by
  have hbehind : Region.code.behind w.gap = .code := Region.behind_gap hgap
  have hpasses := Region.passes_lexeme hlexeme
  constructor
  · rw [Word.chars, Region.behind_append, hbehind, hpasses.behind]
  · rw [Word.chars, Region.uncomment_code hbehind, hpasses.uncomment]
    rfl

/-- The comments of a row of words stand in its gaps. -/
theorem uncomment_written (h : Fits words next) :
    Region.code.behind (written words) = .code ∧
      Region.code.uncomment (written words) = written (words.map Word.uncommented) := by
  induction words with
  | nil => exact ⟨rfl, rfl⟩
  | cons w words ih =>
    obtain ⟨hgap, hlexeme, -, hrest⟩ := h
    obtain ⟨hbehind, hchars⟩ := Word.uncomment_chars hgap hlexeme
    obtain ⟨hbehindAll, hall⟩ := ih hrest
    constructor
    · rw [written_cons, Region.behind_append, hbehind, hbehindAll]
    · rw [written_cons, Region.uncomment_code hbehind, hchars, hall]
      rfl

/-- Words without comments fit, and what stops in front of them stops in front of them without comments. -/
theorem fits_uncommented (h : Fits words next) (hnext : ∀ kind text, Stops kind text next → Stops kind text next') :
    Fits (words.map Word.uncommented) next' ∧
      ∀ kind text, Stops kind text (opening words next) → Stops kind text (opening (words.map Word.uncommented) next') := by
  induction words with
  | nil => exact ⟨trivial, hnext⟩
  | cons w words ih =>
    obtain ⟨hgap, hlexeme, hstops, hrest⟩ := h
    obtain ⟨hfits, hopening⟩ := ih hrest
    obtain ⟨huncommented, hblank⟩ := Region.uncomment_gap hgap
    refine ⟨⟨huncommented, hlexeme, hopening _ _ hstops, hfits⟩, fun kind text hstop => ?_⟩
    have hheads : ∀ {gap : List Char} {d : Char} (more : List Char), gap.head? = some d → (gap ++ more).head? = some d := by
      intro gap d more hd
      rw [List.head?_append, hd, Option.some_or]
    cases hwgap : w.gap with
    | nil =>
      obtain ⟨c, more, hchars, -⟩ := Word.lexeme_ne_nil hlexeme
      have hsame : opening (w.uncommented :: words.map Word.uncommented) next' = opening (w :: words) next := by
        simp [opening, Word.chars, Word.uncommented, hwgap, hchars, Region.uncomment]
      rw [List.map_cons, hsame]
      exact hstop
    | cons c gap =>
      have hne := Region.uncomment_gap_ne_nil hgap (by simp [hwgap])
      obtain ⟨d, rest, hd⟩ := List.exists_cons_of_ne_nil hne
      have hhead : opening (w.uncommented :: words.map Word.uncommented) next' = some d := by
        simp [opening, Word.chars, Word.uncommented, hd]
      rw [List.map_cons, hhead]
      refine Stops.blank (hblank d ?_)
      change (Region.code.uncomment w.gap).head? = some d
      rw [hd]
      rfl

/-- Outside of comments the line on which a text ends is the same without them. -/
theorem aligned_uncomment {text : List Char} (h : Region.code.behind text = .code) : Aligned id text (Region.code.uncomment text) := by
  refine ⟨?_, Region.lastLine_uncomment (by rw [h]; decide)⟩
  rw [Region.uncomment_newlines]
  rfl

/-- Without comments, tokens stay on their lines. -/
theorem regapped_uncommented (h : Fits words next) {front : List Char} (hfront : Region.code.behind front = .code) :
    Regapped id front (Region.code.uncomment front) words (words.map Word.uncommented) := by
  induction words generalizing front with
  | nil => exact .nil
  | cons w words ih =>
    obtain ⟨hgap, hlexeme, -, hrest⟩ := h
    obtain ⟨hbehind, hchars⟩ := Word.uncomment_chars hgap hlexeme
    have hgapBehind : Region.code.behind w.gap = .code := Region.behind_gap hgap
    have hbegins : Aligned id (front ++ w.gap) (Region.code.uncomment front ++ w.uncommented.gap) := by
      change Aligned id _ (_ ++ Region.code.uncomment w.gap)
      rw [← Region.uncomment_code hfront]
      refine aligned_uncomment ?_
      rw [Region.behind_append, hfront, hgapBehind]
    have hafter : Region.code.behind (front ++ w.chars) = .code := by rw [Region.behind_append, hfront, hbehind]
    have hends : Aligned id (front ++ w.chars) (Region.code.uncomment front ++ w.uncommented.chars) := by
      rw [← hchars, ← Region.uncomment_code hfront]
      exact aligned_uncomment hafter
    refine .cons rfl rfl hbegins hends ?_
    rw [← hchars, ← Region.uncomment_code hfront]
    exact ih hrest hafter

/-- A source that is cut into tokens is cut into the same tokens on the same lines without its comments. -/
theorem scan_uncommented {source : Source} {gap : String} {pos : Position} (h : source.scan.ending = .complete gap pos) :
    Renumbered id source source.uncommented ∧ ∃ gap' pos', source.uncommented.scan.ending = .complete gap' pos' := by
  obtain ⟨words, htext, hfits, hgap, -⟩ := scan_complete h
  obtain ⟨comment, hleft⟩ := Option.isSome_iff_exists.mp hgap
  obtain ⟨hbehind, hwritten⟩ := uncomment_written hfits
  obtain ⟨hgap', hblank⟩ := Region.uncomment_gap hleft
  have htext' : source.uncommented.text.toList = written (words.map Word.uncommented) ++ Region.code.uncomment gap.toList := by
    rw [Source.uncommented, String.toList_ofList, htext, Region.uncomment_code hbehind, hwritten]
  have hfits' : Fits (words.map Word.uncommented) (Region.code.uncomment gap.toList).head? := by
    refine (fits_uncommented hfits fun kind text _ => ?_).1
    cases hhead : (Region.code.uncomment gap.toList).head? with
    | none => exact Stops.none kind text
    | some d => exact Stops.blank (hblank d hhead)
  have hisSome : (gapEnds false (Region.code.uncomment gap.toList)).isSome := Option.isSome_iff_exists.mpr ⟨false, hgap'⟩
  obtain ⟨-, pos', hending⟩ := scan_written htext' hfits' hisSome
  exact ⟨(regapped_uncommented hfits rfl).renumbered htext htext' hfits hfits' hgap hisSome, _, _, hending⟩

end Lexer

end HostScript
