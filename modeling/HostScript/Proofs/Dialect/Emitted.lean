import Mathlib
import HostScript.Proofs.Dialect.Arranged
import HostScript.Proofs.Dialect.Rendering
import HostScript.Proofs.Dialect.Written

/-!
# The lines of a rendered source

A tree is rendered line by line (`emissions`), and every line is made of one statement, except for the braces that close blocks.
Together the lines hold the statements of the tree, each once and in their order (`filterMap_emissions`). The words of the lines are
known, and so are the words of the whole host script (`render_written`).
-/

namespace HostScript.Dialect

open Lexer

/-! ## Lines -/

/-- What a line of a rendered tree is made of. -/
inductive Form
  /-- A simple statement, and the names that are declared where it stands. -/
  | simple (known : List String) (s : Statement)
  /-- The header of a block. That of an alternate closes the block before it. -/
  | opening (alternate : Bool) (header : Statement)
  /-- The brace that closes a block and its alternates. -/
  | closing

namespace Form

/-- The text of a line behind its indentation. -/
def text : Form → String
  | simple known s => simpleText known s
  | opening alternate header => headerText alternate header
  | closing => "\x7d"

/-- The words of a line. -/
def words : Form → List Word
  | simple known s => simpleWords known s
  | opening alternate header => openingWords alternate header
  | closing => [symbolWord [] '\x7d']

/-- The statement that a line is made of, marked if it is the header of a block. -/
def marked? : Form → Option (Bool × Statement)
  | simple _ s => some (false, s)
  | opening _ header => some (true, header)
  | closing => none

/-- The statement that a line is made of. -/
def statement? (form : Form) : Option Statement := form.marked?.map Prod.snd

/-- A line whose statement was read from a source, and is the header of a block only if it opens one. -/
def Genuine (form : Form) : Prop := ∀ m, form.marked? = some m → m.2.Genuine ∧ m = mark m.2

/-- The words of a line are its text. -/
theorem written_words (form : Form) : written form.words = form.text.toList := by
  cases form with
  | simple known s => exact written_simpleWords known s
  | opening alternate header => exact written_openingWords alternate header
  | closing => rfl

/-- The words of a line are read again as they are, in front of a line feed. -/
theorem Genuine.fits {form : Form} (h : form.Genuine) : Fits form.words (some '\n') := by
  cases form with
  | simple known s => exact simpleWords_fits known (h _ rfl).1
  | opening alternate header => exact openingWords_fits alternate (h _ rfl).1
  | closing => exact (Fits.nil _).symbol isGap_nil (by decide) (by decide)

/-- No line is empty. -/
theorem Genuine.words_ne_nil {form : Form} (h : form.Genuine) : form.words ≠ [] := by
  cases form with
  | simple known s => exact simpleWords_ne_nil known (h _ rfl).1.nonempty
  | opening alternate header => exact openingWords_ne_nil alternate header
  | closing => exact List.cons_ne_nil _ _

end Form

/-- A line of a rendered tree, at a depth. -/
structure Emission where
  depth : Nat
  form : Form

/-- The blanks in front of a line. -/
def indentation (depth : Nat) : List Char := List.replicate (4 * depth) ' '

/-- The indentation of a line is a gap. -/
theorem indentation_isGap (depth : Nat) : IsGap (indentation depth) := by
  unfold indentation
  induction 4 * depth with
  | zero => rfl
  | succ n ih => exact (gapEnds_append isGap_space).trans ih

/-- An indented line is the indentation and the text. -/
theorem indentLine_toList (depth : Nat) (text : String) : (indentLine depth text).toList = indentation depth ++ text.toList := by
  have hsteps : ∀ init : String, ((List.replicate depth indentStep).foldl (· ++ ·) init).toList = init.toList ++ indentation depth := by
    induction depth with
    | zero => exact fun init => (List.append_nil _).symm
    | succ depth ih =>
      intro init
      have hstep : indentation (depth + 1) = indentStep.toList ++ indentation depth := by
        rw [indentation, Nat.mul_succ, Nat.add_comm, List.replicate_add]
        rfl
      rw [List.replicate_succ, List.foldl_cons, ih, String.toList_append, List.append_assoc, hstep]
  rw [indentLine, String.toList_append, hsteps]
  rfl

namespace Emission

/-- The text of a line. -/
def text (e : Emission) : String := indentLine e.depth e.form.text

/-- The words of a line behind the line end before it. -/
def words (e : Emission) : List Word := gapped ('\n' :: indentation e.depth) e.form.words

/-- The words of a line with its line feed and its indentation. -/
theorem written_words {e : Emission} (h : e.form.Genuine) : written e.words = '\n' :: e.text.toList := by
  rw [words, written_gapped _ h.words_ne_nil, e.form.written_words, text, indentLine_toList]
  rfl

/-- They are read again as they are, in front of the next line feed. -/
theorem fits {e : Emission} (h : e.form.Genuine) : Fits e.words (some '\n') := by
  refine h.fits.gapped ?_
  have hgap : gapEnds false (['\n'] ++ indentation e.depth) = gapEnds false (indentation e.depth) := gapEnds_append rfl
  exact hgap.trans (indentation_isGap e.depth)

end Emission

mutual

/-- The lines of nodes at a depth. -/
def emissions (depth : Nat) (known : List String) : List Node → List Emission
  | [] => []
  | .simple s :: rest => ⟨depth, .simple known s⟩ :: emissions depth ((declaredName? s).toList ++ known) rest
  | .block first alternates :: rest =>
    branchEmissions depth known false first ++ alternateEmissions depth known alternates ++ [⟨depth, .closing⟩] ++
      emissions depth (branchNames first ++ known) rest

/-- The lines of a header and its body. -/
def branchEmissions (depth : Nat) (known : List String) (alternate : Bool) : Branch → List Emission
  | .mk header body =>
    ⟨depth, .opening alternate header⟩ ::
      emissions (depth + 1) (parameterNames header ++ ((declaredName? header).toList ++ known)) body

/-- The lines of alternates. -/
def alternateEmissions (depth : Nat) (known : List String) : List Branch → List Emission
  | [] => []
  | branch :: rest => branchEmissions depth known true branch ++ alternateEmissions depth known rest

end

mutual

/-- The lines of statements are the texts of what is emitted for them. -/
theorem nodeLines_eq (depth : Nat) (known : List String) (nodes : List Node) :
    nodeLines depth known nodes = (emissions depth known nodes).map Emission.text := by
  cases nodes with
  | nil => rfl
  | cons node rest =>
    cases node with
    | simple s => exact congrArg (_ :: ·) (nodeLines_eq depth _ rest)
    | block first alternates =>
      rw [nodeLines, emissions, branchLines_eq depth known false first, alternateLines_eq depth known alternates,
        nodeLines_eq depth _ rest]
      simp only [List.map_append, List.map_cons, List.map_nil]
      rfl

/-- The lines of a block are the texts of what is emitted for it. -/
theorem branchLines_eq (depth : Nat) (known : List String) (alternate : Bool) (branch : Branch) :
    branchLines depth known alternate branch = (branchEmissions depth known alternate branch).map Emission.text := by
  cases branch with
  | mk header body => exact congrArg (_ :: ·) (nodeLines_eq (depth + 1) _ body)

/-- The lines of alternates are the texts of what is emitted for them. -/
theorem alternateLines_eq (depth : Nat) (known : List String) (branches : List Branch) :
    alternateLines depth known branches = (alternateEmissions depth known branches).map Emission.text := by
  cases branches with
  | nil => rfl
  | cons branch rest =>
    rw [alternateLines, alternateEmissions, branchLines_eq depth known true branch, alternateLines_eq depth known rest,
      List.map_append]

end

mutual

/-- The lines of nodes are made of the statements of the nodes, each once and in their order. -/
theorem filterMap_emissions (depth : Nat) (known : List String) (nodes : List Node) :
    (emissions depth known nodes).filterMap (·.form.marked?) = listed nodes := by
  cases nodes with
  | nil => rfl
  | cons node rest =>
    cases node with
    | simple s => exact congrArg ((false, s) :: ·) (filterMap_emissions depth _ rest)
    | block first alternates =>
      rw [emissions, listed, List.filterMap_append, List.filterMap_append, List.filterMap_append,
        filterMap_branchEmissions depth known false first, filterMap_alternateEmissions depth known alternates,
        filterMap_emissions depth _ rest]
      simp [Form.marked?]

/-- Of a block, the lines that are no closing braces are its statements, each once and in order. -/
theorem filterMap_branchEmissions (depth : Nat) (known : List String) (alternate : Bool) (branch : Branch) :
    (branchEmissions depth known alternate branch).filterMap (·.form.marked?) = listedBranch branch := by
  cases branch with
  | mk header body => exact congrArg ((true, header) :: ·) (filterMap_emissions (depth + 1) _ body)

/-- Of alternates, the lines that are no closing braces are their statements, each once and in order. -/
theorem filterMap_alternateEmissions (depth : Nat) (known : List String) (branches : List Branch) :
    (alternateEmissions depth known branches).filterMap (·.form.marked?) = listedAlternates branches := by
  cases branches with
  | nil => rfl
  | cons branch rest =>
    rw [alternateEmissions, listedAlternates, List.filterMap_append, filterMap_branchEmissions depth known true branch,
      filterMap_alternateEmissions depth known rest]

end

/-! ## The lines of a source -/

/-- The statements of a source. -/
def statementsOf (source : Source) : List Statement := statements source.lineIndent source.scan.tokens

/-- The lines of the tree of a source. -/
def emissionsOf (source : Source) : List Emission := emissions 0 [] (nodesOf source)

/-- The tokens of a source are legible. -/
theorem scan_legible (source : Source) : Legible source.scan.tokens := by
  obtain ⟨words, left, -, hfits, htokens, -⟩ := scanFrom_ok .origin source.text.toList
  have htokens : source.scan.tokens = placed .origin words := htokens
  refine ⟨left.head?, ?_⟩
  rw [htokens, map_ofToken_placed]
  exact hfits

/-- The statements of a source are genuine. -/
theorem statementsOf_genuine {source : Source} {s : Statement} (h : s ∈ statementsOf source) : s.Genuine := by
  obtain ⟨endsLine, htokens, hrule⟩ := mem_statements h
  refine ⟨statements_ne_nil h, (scan_legible source).stretch htokens, ?_⟩
  rw [hrule]
  exact classify_describes s.tokens endsLine

/-- The lines of a source are made of its statements. -/
theorem emissionsOf_statements (source : Source) : (emissionsOf source).filterMap (·.form.statement?) = statementsOf source := by
  have hmarked : (emissionsOf source).filterMap (·.form.marked?) = (statementsOf source).map mark :=
    (filterMap_emissions 0 [] (nodesOf source)).trans (listed_blocks (statementsOf source))
  have hmark : Prod.snd ∘ mark = id := rfl
  rw [← List.map_id (statementsOf source), ← hmark, ← List.map_map, ← hmarked, List.map_filterMap]
  rfl

/-- The statements in the tree of a source are genuine, and they are marked as they should be. -/
theorem nodesOf_genuine {source : Source} {m : Bool × Statement} (h : m ∈ listed (nodesOf source)) : m.2.Genuine ∧ m = mark m.2 := by
  have hlisted : listed (nodesOf source) = (statementsOf source).map mark := listed_blocks (statementsOf source)
  rw [hlisted] at h
  obtain ⟨s, hs, rfl⟩ := List.mem_map.mp h
  exact ⟨statementsOf_genuine hs, rfl⟩

/-- The lines of a source are genuine. -/
theorem emissionsOf_genuine {source : Source} {e : Emission} (h : e ∈ emissionsOf source) : e.form.Genuine := by
  intro m hm
  have hmarked : m ∈ (emissionsOf source).filterMap (·.form.marked?) := List.mem_filterMap.mpr ⟨e, h, hm⟩
  have hlisted : (emissionsOf source).filterMap (·.form.marked?) = listed (nodesOf source) := filterMap_emissions 0 [] (nodesOf source)
  exact nodesOf_genuine (hlisted ▸ hmarked)

/-! ## The words of the host script -/

/-- The words of the line that imports the host. -/
def importWords : List Word :=
  [nameWord [] "use".toList, nameWord [' '] "host".toList, nameWord [' '] "as".toList, nameWord [' '] "kp".toList, symbolWord [] ';']

/-- The words of lines, each behind the line end before it. -/
def lineWords (lines : List Emission) : List Word := lines.flatMap Emission.words

/-- The words of the import are its line. -/
theorem written_importWords : written importWords = hostImportLine.toList := by decide

/-- The words of the import are read again as they are, in front of a line feed. -/
theorem importWords_fits : Fits importWords (some '\n') := by
  have hhost : IsLexeme .ident "host".toList := ⟨'h', ['o', 's', 't'], rfl, rfl, forall_mem_of_all rfl⟩
  have huse : IsLexeme .ident "use".toList := ⟨'u', ['s', 'e'], rfl, rfl, forall_mem_of_all rfl⟩
  have has : IsLexeme .ident "as".toList := ⟨'a', ['s'], rfl, rfl, forall_mem_of_all rfl⟩
  have hkp := fits_semicolon.name isGap_space ident_kp (stops_ident rfl)
  exact ((hkp.name isGap_space has (stops_ident rfl)).name isGap_space hhost (stops_ident rfl)).name isGap_nil huse (stops_ident rfl)

/-- A line end in front of the text of lines is at its end if the lines are written as words. -/
theorem written_lineWords {lines : List Emission} (h : ∀ e ∈ lines, e.form.Genuine) :
    '\n' :: linesText (lines.map Emission.text) = written (lineWords lines) ++ ['\n'] := by
  induction lines with
  | nil => rfl
  | cons e lines ih =>
    obtain ⟨he, hlines⟩ := List.forall_mem_cons.mp h
    have hrest : '\n' :: linesText (lines.map Emission.text) = written (lineWords lines) ++ ['\n'] := ih hlines
    have hfirst : written (lineWords (e :: lines)) = written e.words ++ written (lineWords lines) := written_append _ _
    rw [hfirst, List.append_assoc, ← hrest, Emission.written_words he, List.map_cons, linesText, List.flatMap_cons, List.append_assoc]
    rfl

/-- The words of lines are read again as they are. -/
theorem lineWords_fits {lines : List Emission} (h : ∀ e ∈ lines, e.form.Genuine) : Fits (lineWords lines) (some '\n') := by
  induction lines with
  | nil => trivial
  | cons e lines ih =>
    obtain ⟨he, hlines⟩ := List.forall_mem_cons.mp h
    -- the words behind a line begin with a line end, as everything does in front of which the words of a line fit
    have hnext : opening (lineWords lines) (some '\n') = some '\n' := by
      cases lines with
      | nil => rfl
      | cons e' lines =>
        have hwritten : written (lineWords (e' :: lines)) = written e'.words ++ written (lineWords lines) := written_append _ _
        rw [opening, hwritten, Emission.written_words (hlines e' List.mem_cons_self)]
        rfl
    have hfirst : Fits e.words (opening (lineWords lines) (some '\n')) := by
      rw [hnext]
      exact Emission.fits he
    exact hfirst.append (ih hlines)

/-- The host script of a source: the words of the import, the words of the lines, and the tail, if there is one. -/
theorem render_written (source : Source) :
    (render source).script.text.toList = written importWords ++ '\n' ::
      (written (lineWords (emissionsOf source)) ++ '\n' :: linesText (if (tailOf source).isEmpty then [] else [tailOf source])) := by
  have hlines : '\n' :: linesText ((emissionsOf source).map Emission.text) = written (lineWords (emissionsOf source)) ++ ['\n'] :=
    written_lineWords fun e he => emissionsOf_genuine he
  rw [render_text, written_importWords, nodeLines_eq, ← List.cons_append]
  change _ ++ '\n' :: ('\n' :: linesText ((emissionsOf source).map Emission.text) ++ _) = _
  rw [hlines, List.append_assoc]
  rfl

/-- The words of the host script that consists of lines. -/
def scriptWords (lines : List Emission) : List Word := importWords ++ gapped ['\n'] (lineWords lines)

/-- The line ends behind the words of the host script. -/
def scriptEnd (lines : List Emission) : List Char := if lines.isEmpty then ['\n', '\n'] else ['\n']

/-- Words that fit in front of a line end begin with one if lines are behind them. -/
theorem scriptWords_fits {lines : List Emission} (h : ∀ e ∈ lines, e.form.Genuine) : Fits (scriptWords lines) (some '\n') := by
  have hlines : Fits (gapped ['\n'] (lineWords lines)) (some '\n') := (lineWords_fits h).gapped rfl
  have hnext : opening (gapped ['\n'] (lineWords lines)) (some '\n') = some '\n' := by
    cases lineWords lines <;> rfl
  have himport : Fits importWords (opening (gapped ['\n'] (lineWords lines)) (some '\n')) := by
    rw [hnext]
    exact importWords_fits
  exact himport.append hlines

/-- The host script of a source that is cut into tokens up to its end consists of the words of its lines. -/
theorem render_complete {source : Source} {gap : String} {pos : Position} (h : source.scan.ending = .complete gap pos) :
    (render source).script.text.toList = written (scriptWords (emissionsOf source)) ++ scriptEnd (emissionsOf source) := by
  have hgenuine : ∀ e ∈ emissionsOf source, e.form.Genuine := fun e he => emissionsOf_genuine he
  rw [render_written, tailOf_complete h, scriptWords, written_append, List.append_assoc]
  cases hlines : emissionsOf source with
  | nil => rfl
  | cons e lines =>
    rw [hlines] at hgenuine
    have hne : lineWords (e :: lines) ≠ [] := by
      have : e.words ≠ [] := gapped_ne_nil (hgenuine e List.mem_cons_self).words_ne_nil
      simp [lineWords, this]
    rw [written_gapped _ hne]
    rfl

/-- The tokens of that host script are those words. -/
theorem render_scan {source : Source} {gap : String} {pos : Position} (h : source.scan.ending = .complete gap pos) :
    (render source).script.scan.tokens = placed .origin (scriptWords (emissionsOf source)) ∧
      ∃ pos', (render source).script.scan.ending = .complete (String.ofList (scriptEnd (emissionsOf source))) pos' := by
  have hfits : Fits (scriptWords (emissionsOf source)) (some '\n') := scriptWords_fits fun e he => emissionsOf_genuine he
  have hend : (scriptEnd (emissionsOf source)).head? = some '\n' ∧ (gapEnds false (scriptEnd (emissionsOf source))).isSome := by
    unfold scriptEnd
    split <;> exact ⟨rfl, rfl⟩
  rw [← hend.1] at hfits
  exact scan_written (render_complete h) hfits hend.2

end HostScript.Dialect
