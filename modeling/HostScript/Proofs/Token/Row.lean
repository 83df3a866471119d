import Mathlib
import HostScript.Proofs.Token.Word

/-!
# Rows of words

A word is a token without its place. `Fits words next` says that words can stand one behind another, and in front of a character:
each of them is read back there. The reader of tokens reads a row of words that fits and goes on behind it (`scanFrom_append`);
conversely, the tokens of every text are a row that fits, and what is left is a gap or begins where no token can be read
(`scanFrom_ok`).
-/

namespace HostScript.Lexer

/-- A token without its place: the gap in front of it, its class and its text. -/
structure Word where
  gap : List Char
  kind : TokenKind
  text : List Char
  deriving DecidableEq, Repr

namespace Word

/-- The word of a token. -/
def ofToken (token : Token) : Word := ⟨token.gap.toList, token.kind, token.text.toList⟩

/-- A word as it is written. -/
def chars (w : Word) : List Char := w.gap ++ lexemeChars w.kind w.text

/-- What is read of a word in front of `rest`. -/
def piece (w : Word) (pos : Position) (rest : List Char) : Piece := pieceOf w.kind (passGap false pos w.gap) w.text rest

/-- The token of a word at a position. -/
def token (w : Word) (pos : Position) : Token :=
  ⟨w.kind, (w.piece pos []).span, String.ofList w.text, String.ofList w.gap⟩

/-- The position behind a word. -/
def after (w : Word) (pos : Position) : Position := (w.piece pos []).after

end Word

/-- Words as they are written one behind another. -/
def written (words : List Word) : List Char := words.flatMap Word.chars

/-- Words that are read back one behind another, in front of a character or at the end of the text. -/
def Fits : List Word → Option Char → Prop
  | [], _ => True
  | w :: rest, next =>
    IsGap w.gap ∧ IsLexeme w.kind w.text ∧ Stops w.kind w.text ((written rest).head?.or next) ∧ Fits rest next

/-- The tokens of words from a position on. -/
def placed (pos : Position) : List Word → List Token
  | [] => []
  | w :: rest => w.token pos :: placed (w.after pos) rest

/-- The position behind words. -/
def passWords (pos : Position) (words : List Word) : Position := words.foldl (fun pos w => w.after pos) pos

/-- No words are written as nothing. -/
@[simp] theorem written_nil : written [] = [] := rfl

/-- Words are written one after the other. -/
@[simp] theorem written_cons (w : Word) (rest : List Word) : written (w :: rest) = w.chars ++ written rest := rfl

/-- Two rows of words are written one after the other. -/
@[simp] theorem written_append (words more : List Word) : written (words ++ more) = written words ++ written more :=
  List.flatMap_append

/-- The position behind two rows of words, from that behind the first on. -/
@[simp] theorem passWords_append (pos : Position) (words more : List Word) :
    passWords pos (words ++ more) = passWords (passWords pos words) more := List.foldl_append

/-- The tokens of two rows of words, those of the second from behind the first on. -/
@[simp] theorem placed_append (pos : Position) (words more : List Word) :
    placed pos (words ++ more) = placed pos words ++ placed (passWords pos words) more := by
  induction words generalizing pos with
  | nil => rfl
  | cons w words ih => exact congrArg (w.token pos :: ·) (ih (w.after pos))

/-- The tokens of words have texts of their classes. -/
theorem isLexeme_placed {words : List Word} {next : Option Char} (h : Fits words next) (pos : Position) :
    ∀ t ∈ placed pos words, IsLexeme t.kind t.text.toList := by
  induction words generalizing pos with
  | nil => exact List.forall_mem_nil _
  | cons w words ih =>
    refine List.forall_mem_cons.mpr ⟨?_, ih h.2.2.2 _⟩
    rw [Word.token, String.toList_ofList]
    exact h.2.1

/-- A word is found in its token again. -/
@[simp] theorem Word.ofToken_token (w : Word) (pos : Position) : Word.ofToken (w.token pos) = w := by
  simp [Word.ofToken, Word.token]

/-- The tokens of words have these words. -/
theorem map_ofToken_placed (pos : Position) (words : List Word) : (placed pos words).map Word.ofToken = words := by
  induction words generalizing pos with
  | nil => rfl
  | cons w words ih => rw [placed, List.map_cons, Word.ofToken_token, ih]

/-- Two rows of words can be read if the second can, and the first can in front of it. -/
theorem Fits.append_iff {words more : List Word} {next : Option Char} :
    Fits (words ++ more) next ↔ Fits words ((written more).head?.or next) ∧ Fits more next := by
  induction words with
  | nil => simp [Fits]
  | cons w words ih =>
    rw [List.cons_append, Fits, Fits, ih, written_append, List.head?_append, Option.or_assoc]
    simp only [and_assoc]

/-- The written form of a word begins where its gap ends. -/
theorem Word.lexeme_ne_nil {w : Word} (h : IsLexeme w.kind w.text) : ∃ c more, lexemeChars w.kind w.text = c :: more ∧ opensWord c := by
  have hstops : Stops w.kind w.text ([' ']).head? := by
    cases w.kind <;> simp [Stops, isIdentPart, extendsNumber, pairedSymbols]
  obtain ⟨c, more, hchars, hc, -⟩ := readToken_lexeme h hstops
  exact ⟨c, more, hchars, hc⟩

/-! ## Reading rows -/

/-- The span of a token does not depend on what stands behind it. -/
theorem pieceOf_span (kind : TokenKind) (pos : Position) (text rest : List Char) :
    (pieceOf kind pos text rest).span = (pieceOf kind pos text []).span := by
  cases kind <;> rfl

/-- The position behind a token does not depend on what stands behind it. -/
theorem pieceOf_after (kind : TokenKind) (pos : Position) (text rest : List Char) :
    (pieceOf kind pos text rest).after = (pieceOf kind pos text []).after := by
  cases kind <;> rfl

/-- A piece has the class it is made with. -/
@[simp] theorem pieceOf_kind (kind : TokenKind) (pos : Position) (text rest : List Char) :
    (pieceOf kind pos text rest).kind = kind := by
  cases kind <;> rfl

/-- A piece has the text it is made with. -/
@[simp] theorem pieceOf_text (kind : TokenKind) (pos : Position) (text rest : List Char) :
    (pieceOf kind pos text rest).text = text := by
  cases kind <;> rfl

/-- A piece leaves the rest it is made with. -/
@[simp] theorem pieceOf_rest (kind : TokenKind) (pos : Position) (text rest : List Char) :
    (pieceOf kind pos text rest).rest = rest := by
  cases kind <;> rfl

/-- Where the gap at the front cannot be read, the scan stops. -/
theorem scanFrom_gapFault {pos : Position} {text : List Char} {fault : LexFault} (h : skipGap false [] pos text = .error fault) :
    scanFrom pos text = ([], .stopped fault (String.ofList text)) := by
  rw [scanFrom]
  split <;> grind

/-- Where there is only a gap, the scan is complete. -/
theorem scanFrom_end {pos here : Position} {text gap : List Char} (h : skipGap false [] pos text = .ok (gap, [], here)) :
    scanFrom pos text = ([], .complete (String.ofList gap.reverse) here) := by
  rw [scanFrom]
  split <;> grind

/-- Where the token behind the gap cannot be read, the scan stops in front of the gap. -/
theorem scanFrom_fault {pos here : Position} {text gap rest : List Char} {c : Char} {fault : LexFault}
    (h : skipGap false [] pos text = .ok (gap, c :: rest, here)) (ht : readToken here c rest = .error fault) :
    scanFrom pos text = ([], .stopped fault (String.ofList text)) := by
  rw [scanFrom]
  split
  · grind
  · grind
  · split <;> grind

/-- Where a token is read behind the gap, the scan goes on behind it. -/
theorem scanFrom_token {pos here : Position} {text gap rest : List Char} {c : Char} {piece : Piece}
    (h : skipGap false [] pos text = .ok (gap, c :: rest, here)) (ht : readToken here c rest = .ok piece) :
    scanFrom pos text = (⟨piece.kind, piece.span, String.ofList piece.text, String.ofList gap.reverse⟩ ::
      (scanFrom piece.after piece.rest).1, (scanFrom piece.after piece.rest).2) := by
  rw [scanFrom]
  split
  · grind
  · grind
  · split <;> grind

/-- A word is read in front of what follows it. -/
theorem scanFrom_word {w : Word} {rest : List Char} (hgap : IsGap w.gap) (hlexeme : IsLexeme w.kind w.text)
    (hstops : Stops w.kind w.text rest.head?) (pos : Position) :
    scanFrom pos (w.chars ++ rest) = (w.token pos :: (scanFrom (w.after pos) rest).1, (scanFrom (w.after pos) rest).2) := by
  obtain ⟨c, more, hchars, hc, hread⟩ := readToken_lexeme hlexeme hstops
  obtain ⟨hnext, hcr⟩ := opensWord_gap hc
  have hskip : skipGap false [] pos (w.chars ++ rest) = .ok (w.gap.reverse, c :: (more ++ rest), passGap false pos w.gap) := by
    rw [Word.chars, List.append_assoc, skipGap_append hgap, hchars, List.cons_append, skipGap_stop hnext hcr, List.append_nil]
  rw [scanFrom_token hskip (hread _)]
  simp only [pieceOf_kind, pieceOf_text, pieceOf_rest, List.reverse_reverse, pieceOf_span _ _ _ rest, pieceOf_after _ _ _ rest]
  rfl

/-- A row of words that fits is read, and the reading goes on behind it. -/
theorem scanFrom_append {words : List Word} {rest : List Char} (h : Fits words rest.head?) (pos : Position) :
    scanFrom pos (written words ++ rest) =
      (placed pos words ++ (scanFrom (passWords pos words) rest).1, (scanFrom (passWords pos words) rest).2) := by
  induction words generalizing pos with
  | nil => rfl
  | cons w words ih =>
    obtain ⟨hgap, hlexeme, hstops, hrest⟩ := h
    rw [← List.head?_append] at hstops
    rw [written_cons, List.append_assoc, scanFrom_word hgap hlexeme hstops, ih hrest]
    rfl

/-! ## What is read -/

/-- No token can be read from a text at a position, for a reason. -/
inductive Blocked (pos : Position) (text : List Char) (fault : LexFault) : Prop
  | gap (h : skipGap false [] pos text = .error fault)
  | token {gap rest : List Char} {c : Char} {here : Position} (h : skipGap false [] pos text = .ok (gap, c :: rest, here))
    (ht : readToken here c rest = .error fault)

/-- How reading ends in front of what is left of a text. -/
def EndsWith (pos : Position) (left : List Char) : Ending → Prop
  | .complete gap here => (gapEnds false left).isSome ∧ gap = String.ofList left ∧ here = passGap false pos left
  | .stopped fault rest => Blocked pos left fault ∧ rest = String.ofList left

/-- The tokens of a text are words that fit. What is left is a gap, or no token can be read from it. -/
theorem scanFrom_ok (pos : Position) (text : List Char) :
    ∃ words left, text = written words ++ left ∧ Fits words left.head? ∧ (scanFrom pos text).1 = placed pos words ∧
      EndsWith (passWords pos words) left (scanFrom pos text).2 := by
  cases hgap : skipGap false [] pos text with
  | error fault =>
    rw [scanFrom_gapFault hgap]
    exact ⟨[], text, rfl, trivial, rfl, .gap hgap, rfl⟩
  | ok read =>
    obtain ⟨gap, rest, here⟩ := read
    obtain ⟨skipped, comment, htext, hread, hends, hhere, hrest⟩ := skipGap_ok hgap
    rw [List.append_nil] at hread
    cases rest with
    | nil =>
      rw [List.append_nil] at htext
      rw [scanFrom_end hgap, htext, hread, List.reverse_reverse]
      exact ⟨[], skipped, rfl, trivial, rfl, by rw [hends]; rfl, rfl, hhere⟩
    | cons c rest =>
      obtain ⟨hcomment, hcr, hnext⟩ := hrest c rest rfl
      subst hcomment
      cases ht : readToken here c rest with
      | error fault =>
        rw [scanFrom_fault hgap ht]
        exact ⟨[], text, rfl, trivial, rfl, .token hgap ht, rfl⟩
      | ok piece =>
        obtain ⟨hlexeme, hpiece, hstops, heq⟩ := readToken_ok ht
        have : piece.rest.length < text.length := Nat.lt_of_le_of_lt (readToken_length ht) (skipGap_length hgap)
        obtain ⟨words, left, hwords, hfits, htokens, hending⟩ := scanFrom_ok piece.after piece.rest
        let w : Word := ⟨skipped, piece.kind, piece.text⟩
        have hspan : piece.span = (w.piece pos []).span := by
          rw [heq, hhere]
          exact pieceOf_span _ _ _ _
        have hafter : piece.after = w.after pos := by
          rw [heq, hhere]
          exact pieceOf_after _ _ _ _
        rw [scanFrom_token hgap ht]
        refine ⟨w :: words, left, ?_, ⟨hends, hlexeme, ?_, hfits⟩, ?_, ?_⟩
        · rw [htext, hpiece, hwords, written_cons, Word.chars]
          simp only [List.append_assoc, w]
        · rw [hwords, List.head?_append] at hstops
          exact hstops
        · rw [placed, htokens, hafter, hspan, hread, List.reverse_reverse]
          rfl
        · rw [hafter] at hending ⊢
          exact hending
termination_by text.length

/-- A text that can be cut into tokens up to its end. -/
def Lexes (text : List Char) : Prop :=
  ∃ words left, text = written words ++ left ∧ Fits words left.head? ∧ (gapEnds false left).isSome

/-- A gap is read up to the end of the text. -/
theorem scanFrom_gap {gap : List Char} (h : (gapEnds false gap).isSome) (pos : Position) :
    scanFrom pos gap = ([], .complete (String.ofList gap) (passGap false pos gap)) := by
  obtain ⟨comment, hc⟩ := Option.isSome_iff_exists.mp h
  have hskip := skipGap_append hc [] pos []
  rw [List.append_nil, List.append_nil] at hskip
  rw [scanFrom_end (hskip.trans rfl), List.reverse_reverse]

/-- Whether a text can be cut into tokens up to its end does not depend on where it stands. -/
theorem scanFrom_complete_iff (pos : Position) (text : List Char) :
    (∃ gap here, (scanFrom pos text).2 = .complete gap here) ↔ Lexes text := by
  constructor
  · rintro ⟨gap, here, h⟩
    obtain ⟨words, left, htext, hfits, -, hending⟩ := scanFrom_ok pos text
    rw [h] at hending
    exact ⟨words, left, htext, hfits, hending.1⟩
  · rintro ⟨words, left, rfl, hfits, hgap⟩
    rw [scanFrom_append hfits, scanFrom_gap hgap]
    exact ⟨_, _, rfl⟩

/-- Reading stops before the end of a text exactly if the text cannot be cut into tokens. -/
theorem scanFrom_stopped_iff (pos : Position) (text : List Char) :
    (∃ fault rest, (scanFrom pos text).2 = .stopped fault rest) ↔ ¬ Lexes text := by
  rw [← scanFrom_complete_iff pos]
  cases (scanFrom pos text).2 <;> simp

/-! ## Sources -/

/-- A source that is cut into tokens up to its end consists of their words and a last gap. -/
theorem scan_complete {source : Source} {gap : String} {pos : Position} (h : source.scan.ending = .complete gap pos) :
    ∃ words, source.text.toList = written words ++ gap.toList ∧ Fits words gap.toList.head? ∧ (gapEnds false gap.toList).isSome ∧
      source.scan.tokens = placed .origin words := by
  obtain ⟨words, left, htext, hfits, htokens, hending⟩ := scanFrom_ok .origin source.text.toList
  have hcomplete : (scanFrom .origin source.text.toList).2 = .complete gap pos := h
  rw [hcomplete] at hending
  obtain ⟨hleft, rfl, -⟩ := hending
  rw [String.toList_ofList]
  exact ⟨words, htext, hfits, hleft, htokens⟩

/-- A source that consists of words that fit and a last gap is cut into their tokens up to its end. -/
theorem scan_written {source : Source} {words : List Word} {gap : List Char} (htext : source.text.toList = written words ++ gap)
    (hfits : Fits words gap.head?) (hgap : (gapEnds false gap).isSome) :
    source.scan.tokens = placed .origin words ∧ ∃ pos, source.scan.ending = .complete (String.ofList gap) pos := by
  unfold Source.scan
  rw [htext, scanFrom_append hfits, scanFrom_gap hgap, List.append_nil]
  exact ⟨rfl, _, rfl⟩

end HostScript.Lexer
