import Mathlib
import HostScript.Proofs.Dialect.Lines
import HostScript.Proofs.Dialect.Nested

/-!
# Layout inference inverts indented printing

The tree of a source that shows a printed body is the tree that was printed (`blocks_shown`). The lines of the text are cut into the
tokens of the printed statements, each of which is a statement on a line of its own; these are arranged into the tree.
-/

namespace HostScript.Dialect

/-! ## Printed statements fit on their lines -/

mutual

/-- Every statement of a printed body is one statement on its line. -/
theorem body_wholeLine : (trees : List Tree) → ∀ {column : Nat} {printed : List Printed}, bodyFormed trees →
    laidBody column trees printed → ∀ p ∈ printed, IsWholeLine p.row
  | [], _, printed, _, hlaid => by
    obtain rfl : printed = [] := hlaid
    exact nofun
  | .simple row :: rest, _, _, hformed, hlaid => by
    rw [bodyFormed] at hformed
    obtain ⟨hsimple, hrest⟩ := hformed
    obtain ⟨more, rfl, hmore⟩ := hlaid
    exact List.forall_mem_cons.mpr ⟨hsimple.wholeLine, body_wholeLine rest hrest hmore⟩
  | .block (.mk header body) alternates :: rest, _, _, hformed, hlaid => by
    rw [bodyFormed] at hformed
    obtain ⟨hheader, -, hbody, halternates, hrest⟩ := hformed
    obtain ⟨arm, arms, more, rfl, ⟨deeper, inner, -, rfl, hinner⟩, harms, hmore⟩ := hlaid
    have hfirst : IsWholeLine header := by
      rcases hheader with ⟨hfunction | hwhile, -⟩ | hif
      · exact hfunction.wholeLine
      · exact hwhile.wholeLine
      · exact hif.wholeLine
    intro p hp
    rcases List.mem_append.mp hp with hp | hp
    · rcases List.mem_cons.mp hp with rfl | hp
      · exact hfirst
      · exact body_wholeLine body hbody hinner p hp
    · rcases List.mem_append.mp hp with hp | hp
      · exact alternates_wholeLine alternates halternates harms p hp
      · exact body_wholeLine rest hrest hmore p hp

/-- Every statement of printed alternates is one statement on its line. -/
theorem alternates_wholeLine : (arms : List Arm) → ∀ {column : Nat} {printed : List Printed}, alternatesFormed arms →
    laidAlternates column arms printed → ∀ p ∈ printed, IsWholeLine p.row
  | [], _, printed, _, hlaid => by
    obtain rfl : printed = [] := hlaid
    exact nofun
  | .mk header body :: rest, _, _, hformed, hlaid => by
    rw [alternatesFormed] at hformed
    obtain ⟨hheader, -, hbody, hrest⟩ := hformed
    obtain ⟨first, more, rfl, ⟨deeper, inner, -, rfl, hinner⟩, hmore⟩ := hlaid
    have hfirst : IsWholeLine header := by
      rcases hheader with helif | ⟨helse, -⟩
      · exact helif.wholeLine
      · exact helse.wholeLine
    intro p hp
    rcases List.mem_append.mp hp with hp | hp
    · rcases List.mem_cons.mp hp with rfl | hp
      · exact hfirst
      · exact body_wholeLine body hbody hinner p hp
    · exact alternates_wholeLine rest hrest hmore p hp

end

theorem IsWholeLine.ne_nil {row : Row} (h : IsWholeLine row) : row ≠ [] := by
  obtain ⟨front, last, rfl, -, -⟩ := h
  exact List.append_ne_nil_of_right_ne_nil front (List.cons_ne_nil last [])

/-- The statement of a row of tokens on a line. -/
theorem ofGroup_onLine {indentOf : Nat → Nat} {line : Nat} {row : List Token} (hne : row ≠ []) (h : ∀ token ∈ row, OnLine line token)
    (endsLine : Bool) : Statement.ofGroup indentOf ⟨row, endsLine⟩ = ⟨row, line, line, indentOf line, classify ⟨row, endsLine⟩⟩ := by
  have hfirst : row.head?.map (fun t => t.span.line) = some line := by
    rw [List.head?_eq_some_head hne, Option.map_some, (h _ (List.head_mem hne)).1]
  have hlast : row.getLast?.map Token.endLine = some line := by
    rw [List.getLast?_eq_some_getLast hne, Option.map_some, (h _ (List.getLast_mem hne)).2]
  unfold Statement.ofGroup
  dsimp only
  rw [hfirst, hlast]
  rfl

/-- Tokens of lines that hold whole statements are grouped into the statements of the lines. -/
theorem stands_statements {indentOf : Nat → Nat} {line : Nat} {printed : List Printed} {tokens : List Token}
    (h : Tokenized indentOf line printed tokens) (hrows : ∀ p ∈ printed, IsWholeLine p.row) :
    Stands line printed (statements indentOf tokens) := by
  induction printed generalizing line tokens with
  | nil =>
    obtain rfl : tokens = [] := h
    rfl
  | cons p printed ih =>
    obtain ⟨hwhole, hrows⟩ := List.forall_mem_cons.mp hrows
    obtain ⟨here, row, more, rfl, hrow, honLine, hhere, hindent, hmore⟩ := h
    have hother : ∀ next, more.head? = some next → next.span.line ≠ here := by
      intro next hnext
      have := hmore.head hnext
      omega
    have hne : row ≠ [] := by
      rintro rfl
      exact hwhole.ne_nil hrow.symm
    have hgroups := groupFrom_wholeLine (hrow ▸ hwhole) honLine hother
    refine ⟨⟨row, here, here, indentOf here, classify ⟨row, true⟩⟩, statements indentOf more, ?_, hrow, hindent, rfl, rfl, hhere,
      ih hmore hrows⟩
    unfold statements
    rw [hgroups, List.map_cons, ofGroup_onLine hne honLine]

/-! ## The tree of a shown body -/

/-- Layout inference rebuilds the trees of a body from the text that shows them: from every text of lines that show a printed body,
whatever the columns, with blank lines and comments anywhere. -/
theorem blocks_shown {trees : List Tree} {column : Nat} {printed : List Printed} {lines : List (List Char)} {eol : List Char}
    {source : Source} (hformed : bodyFormed trees) (hlaid : laidBody column trees printed) (hshows : Shows printed lines)
    (heol : IsLineEnd eol) (htext : source.text.toList = List.intercalate eol lines) :
    treesOf (blocks (statements source.lineIndent source.scan.tokens)) = trees := by
  have hwhole : ∀ p ∈ printed, IsWholeLine p.row := body_wholeLine trees hformed hlaid
  have hne : ∀ p ∈ printed, p.row ≠ [] := fun p hp => (hwhole p hp).ne_nil
  have hindent : ∀ i line, lines[i]? = some line → source.lineIndent (1 + i) = columnOf line :=
    fun _ _ hline => lineIndent_shown heol hshows.oneLine htext hline
  have htokens : Tokenized source.lineIndent 1 printed (Lexer.scanFrom .origin ([] ++ List.intercalate eol lines)).1 :=
    tokenized_scan heol hshows hne rfl rfl hindent
  rw [List.nil_append, ← htext] at htokens
  exact treesOf_blocks hformed hlaid (stands_statements htokens hwhole)

/-! ### A text with an inner `if` -/

/-- The header `word(n > number):`. -/
def headerRow (word number : String) : Row :=
  .word word :: .symbol "(" :: ([.word "n", .symbol ">", ⟨.number, number⟩] ++ [.symbol ")", .symbol ":"])

/-- The header `fun walk(n):`. -/
def walkRow : Row := .word "fun" :: .word "walk" :: .symbol "(" :: ([.word "n"] ++ [.symbol ")", .symbol ":"])

/-- The statement `say number;`. -/
def sayRow (number : String) : Row := [.word "say", ⟨.number, number⟩] ++ [.symbol ";"]

/-- A function with an `if` that has an inner one in front of its alternates, and a statement behind the function. -/
def walkTrees : List Tree :=
  [.block (.mk walkRow
      [.block (.mk (headerRow "if" "1") [.block (.mk (headerRow "if" "2") [.simple (sayRow "3")]) []])
        [.mk (headerRow "elif" "0") [.simple (sayRow "1")], .mk [.word "else", .symbol ":"] [.simple (sayRow "0")]]]) [],
    .simple (sayRow "4")]

/-- The printed statements of the function. -/
def walkPrinted : List Printed :=
  [⟨1, walkRow⟩, ⟨5, headerRow "if" "1"⟩, ⟨6, headerRow "if" "2"⟩, ⟨10, sayRow "3"⟩, ⟨5, headerRow "elif" "0"⟩, ⟨9, sayRow "1"⟩,
    ⟨5, [.word "else", .symbol ":"]⟩, ⟨7, sayRow "0"⟩, ⟨1, sayRow "4"⟩]

/-- Lines that show the function. -/
def walkLines : List (List Char) :=
  ["fun walk(n):".toList, "  \t# counts down".toList, "\tif(n > 1):".toList, "\t if(n > 2):".toList, "     \tsay 3;".toList, [],
    "    elif(n > 0): # one".toList, "\t\tsay 1;".toList, "\telse:".toList, "\t  say 0;".toList, "say 4;".toList, []]

/-- The source that consists of the lines. -/
def walkSource : Source := ⟨"walk", String.ofList (List.intercalate ['\n'] walkLines)⟩

theorem isSimple_sayRow (number : String) : IsSimple (sayRow number) := by
  refine ⟨⟨[.word "say", ⟨.number, number⟩], rfl, rfl, ?_⟩, ?_⟩
  · exact ⟨fun _ => nofun, fun _ => nofun, trivial⟩
  · intro word hword hhead
    obtain rfl : word = "say" := congrArg Shape.text (Option.some.inj hhead.symm)
    revert hword
    decide

theorem bodyFormed_walk : bodyFormed walkTrees := by
  have hif : ∀ number, IsConditional "if" (headerRow "if" number) := fun number => ⟨_, rfl, rfl⟩
  have helif : IsConditional "elif" (headerRow "elif" "0") := ⟨_, rfl, rfl⟩
  have hwalk : IsFunction walkRow := ⟨"walk", [.word "n"], rfl, rfl⟩
  simp [walkTrees, bodyFormed, alternatesFormed, hif, helif, hwalk, isSimple_sayRow, IsElse]

theorem laidBody_walk : laidBody 1 walkTrees walkPrinted := by
  have hif : laidArm 5 (.mk (headerRow "if" "1") [.block (.mk (headerRow "if" "2") [.simple (sayRow "3")]) []])
      [⟨5, headerRow "if" "1"⟩, ⟨6, headerRow "if" "2"⟩, ⟨10, sayRow "3"⟩] :=
    ⟨6, _, by decide, rfl, _, [], [], rfl, ⟨10, _, by decide, rfl, [], rfl, rfl⟩, rfl, rfl⟩
  have helif : laidArm 5 (.mk (headerRow "elif" "0") [.simple (sayRow "1")]) [⟨5, headerRow "elif" "0"⟩, ⟨9, sayRow "1"⟩] :=
    ⟨9, _, by decide, rfl, [], rfl, rfl⟩
  have helse : laidArm 5 (.mk [.word "else", .symbol ":"] [.simple (sayRow "0")])
      [⟨5, [.word "else", .symbol ":"]⟩, ⟨7, sayRow "0"⟩] := ⟨7, _, by decide, rfl, [], rfl, rfl⟩
  have halternates : laidAlternates 5
      [.mk (headerRow "elif" "0") [.simple (sayRow "1")], .mk [.word "else", .symbol ":"] [.simple (sayRow "0")]]
      [⟨5, headerRow "elif" "0"⟩, ⟨9, sayRow "1"⟩, ⟨5, [.word "else", .symbol ":"]⟩, ⟨7, sayRow "0"⟩] :=
    ⟨[_, _], [_, _], rfl, helif, [_, _], [], rfl, helse, rfl⟩
  refine ⟨_, [], [⟨1, sayRow "4"⟩], ?_, ⟨5, _, by decide, rfl, _, _, [], rfl, hif, halternates, rfl⟩, rfl, [], rfl, rfl⟩
  exact rfl

theorem shows_walk : Shows walkPrinted walkLines := by
  have hcomment : IsNoise "  \t# counts down".toList :=
    ⟨"  \t".toList, " counts down".toList, Lexer.forall_mem_of_all rfl, by decide, .inr rfl⟩
  have hblank : IsNoise [] := ⟨[], [], nofun, nofun, .inl rfl⟩
  refine .statement ?_ (.noise hcomment (.statement ?_ (.statement ?_ (.statement ?_ (.noise hblank (.statement ?_ (.statement ?_
    (.statement ?_ (.statement ?_ (.statement ?_ (.noise hblank .nil)))))))))))
  all_goals decide +kernel

/-- An `elif` behind an inner `if` is attached to the outer one, at its column. -/
theorem blocks_shown_walk :
    treesOf (blocks (statements walkSource.lineIndent walkSource.scan.tokens)) = walkTrees :=
  blocks_shown bodyFormed_walk laidBody_walk shows_walk (.inl rfl) String.toList_ofList

end HostScript.Dialect
