import Mathlib
import HostScript.Proofs.Dialect.Emitted
import HostScript.Proofs.Dialect.Opening

/-!
# How far blocks extend

The body of a header that is followed by deeper lines, and of one that is not, said by the row of statements alone: the statements behind
the header up to the first that the header's frame refuses (`arrange_extent`). This holds as long as no block around the header is
confined to a line, since a frame of a line accepts an alternate only where it can be attached. An indented body inside such a block is
empty (`indented_extent`), and a flat body ends at any header (`flat_extent`).
-/

namespace HostScript.Dialect

variable {frames : List Frame} {s header previous : Statement} {rest row : List Statement}

/-! ## The rows of bodies -/

/-- The frame is a line. -/
def Frame.isInline : Frame → Bool
  | .inline _ => true
  | .indented _ | .flat _ => false

/-- Frames that accept a statement as an alternate accept it as it is, if none of them is a line. -/
theorem allAccept_plain (hframes : ∀ f ∈ frames, f.isInline = false) (h : allAccept frames true s) : allAccept frames false s := by
  unfold allAccept at h ⊢
  rw [List.all_eq_true] at h ⊢
  intro f hf
  have haccept := h f hf
  cases f with
  | inline line => nomatch hframes _ hf
  | indented floor => exact haccept
  | flat indent => exact haccept

/-- Frames that accept a statement with one more frame accept it without. -/
theorem allAccept_tail {f : Frame} {alternate : Bool} (h : allAccept (f :: frames) alternate s) : allAccept frames alternate s := by
  unfold allAccept at h ⊢
  rw [List.all_cons] at h
  exact ((Bool.and_eq_true _ _).mp h).2

/-- What has been arranged is accepted by all frames, at least as an alternate. -/
theorem arrange_accepted (frames : List Frame) (row : List Statement) :
    ∀ m ∈ listed (arrange frames row).result, allAccept frames true m.2 := by
  refine (arrange_induction
    (P := fun frames row => ∀ m ∈ listed (arrange frames row).result, allAccept frames true m.2)
    (Q := fun frames header previous row => ∀ m ∈ listedAlternates (arrangeAlternates frames header previous row).result,
      allAccept frames true m.2)
    ?nil ?refused ?simple ?block ?alternates_nil ?alternates_refused ?alternates_else ?alternates_elif frames row).1
  case nil =>
    intro frames
    rw [(arrange_nil frames).1]
    exact List.forall_mem_nil _
  case refused =>
    intro frames s rest haccept
    rw [(arrange_refused haccept).1]
    exact List.forall_mem_nil _
  case simple =>
    intro frames s rest haccept hopens hnodes
    rw [(arrange_simple haccept hopens).1]
    exact List.forall_mem_cons.mpr ⟨allAccept_alternate haccept, hnodes⟩
  case block =>
    intro frames s rest haccept hopens body hbody halternates hnodes
    rw [(arrange_block haccept hopens).1]
    have hbehind : ∀ m ∈ listedAlternates (alternatesBehind frames s body.rest).result, allAccept frames true m.2 := by
      unfold alternatesBehind
      split
      · rename_i hrule
        exact halternates hrule
      · exact List.forall_mem_nil _
    -- The frame of the block comes in addition to those around it, so these accept what it accepts.
    simp only [listed, listedBranch, List.forall_mem_append, List.forall_mem_cons]
    exact ⟨⟨⟨allAccept_alternate haccept, fun m hm => allAccept_tail (hbody m hm)⟩, hbehind⟩, hnodes⟩
  case alternates_nil =>
    intro frames header previous
    rw [(arrangeAlternates_nil frames header previous).1]
    exact List.forall_mem_nil _
  case alternates_refused =>
    intro frames header previous s rest hattached
    rw [(arrangeAlternates_refused hattached).1]
    exact List.forall_mem_nil _
  case alternates_else =>
    intro frames header previous s rest hattached hrule hbody
    rw [(arrangeAlternates_else hattached hrule).1]
    simp only [listedAlternates, listedBranch, List.append_nil, List.forall_mem_cons]
    exact ⟨isAttached_allAccept hattached, fun m hm => allAccept_tail (hbody m hm)⟩
  case alternates_elif =>
    intro frames header previous s rest hattached hrule hbody halternates
    rw [(arrangeAlternates_elif hattached hrule).1]
    simp only [listedAlternates, listedBranch, List.forall_mem_append, List.forall_mem_cons]
    exact ⟨⟨isAttached_allAccept hattached, fun m hm => allAccept_tail (hbody m hm)⟩, halternates⟩

/-- Arranging stops at a statement that some frame refuses. -/
theorem arrange_stops (frames : List Frame) (row : List Statement) :
    ∀ s, (arrange frames row).rest.head? = some s → allAccept frames false s = false := by
  refine (arrange_induction
    (P := fun frames row => ∀ s, (arrange frames row).rest.head? = some s → allAccept frames false s = false)
    (Q := fun _ _ _ _ => True) ?nil ?refused ?simple ?block (fun _ _ _ => trivial) (fun _ _ _ _ _ _ => trivial)
    (fun _ _ _ _ _ _ _ _ => trivial) (fun _ _ _ _ _ _ _ _ _ => trivial) frames row).1
  case nil =>
    intro frames
    rw [(arrange_nil frames).2]
    exact nofun
  case refused =>
    intro frames s rest haccept t ht
    rw [(arrange_refused haccept).2] at ht
    exact Option.some.inj ht ▸ haccept
  case simple =>
    intro frames s rest haccept hopens hnodes
    rw [(arrange_simple haccept hopens).2]
    exact hnodes
  case block =>
    intro frames s rest haccept hopens body _ _ hnodes
    rw [(arrange_block haccept hopens).2]
    exact hnodes

/-- A list whose first part has a property, and whose rest does not begin with it, is cut there. -/
theorem takeWhile_front {α : Type} {p : α → Bool} {front rest : List α} (hfront : ∀ a ∈ front, p a)
    (hrest : ∀ a, rest.head? = some a → p a = false) : (front ++ rest).takeWhile p = front := by
  rw [List.takeWhile_append_of_pos hfront]
  cases rest with
  | nil => exact List.append_nil _
  | cons a rest => rw [List.takeWhile_cons_of_neg (by rw [hrest a rfl]; exact Bool.false_ne_true), List.append_nil]

/-- If no frame is a line, what is arranged of a row is its beginning, up to the first statement that some frame refuses. -/
theorem arrange_extent (hframes : ∀ f ∈ frames, f.isInline = false) (row : List Statement) :
    (listed (arrange frames row).result).map Prod.snd = row.takeWhile (allAccept frames false) := by
  have hrow := (arrange_accounts frames row).split
  have hfront : ∀ s ∈ (listed (arrange frames row).result).map Prod.snd, allAccept frames false s := by
    intro s hs
    obtain ⟨m, hm, rfl⟩ := List.mem_map.mp hs
    exact allAccept_plain hframes (arrange_accepted frames row m hm)
  exact ((congrArg (List.takeWhile _) hrow).trans (takeWhile_front hfront (arrange_stops frames row))).symm

/-! ## Lines -/

open Lexer in
theorem lexemeChars_sublist (kind : TokenKind) (text : List Char) : text.Sublist (lexemeChars kind text) := by
  unfold lexemeChars
  cases Token.delimiter? kind with
  | none => exact List.Sublist.refl _
  | some quote => exact (List.sublist_append_left _ _).cons _

/-- A token ends on the line where it begins, or further down. -/
theorem span_line_le_endLine (token : Token) : token.span.line ≤ token.endLine := by
  unfold Token.endLine
  split
  · exact Nat.le_add_right _ _
  · exact Nat.le_refl _

open Lexer in
/-- A token begins on the line where the token before it ends, or further down. -/
theorem placed_inOrder {words : List Word} {next : Option Char} (h : Fits words next) (pos : Position) :
    (∀ t, (placed pos words).head? = some t → pos.line ≤ t.span.line) ∧
      (placed pos words).IsChain fun t t' => t.endLine ≤ t'.span.line := by
  induction words generalizing pos with
  | nil => exact ⟨nofun, List.IsChain.nil⟩
  | cons w words ih =>
    obtain ⟨-, hlexeme, -, hrest⟩ := h
    obtain ⟨hhead, hchain⟩ := ih hrest (w.after pos)
    refine ⟨fun t ht => ?_, ?_⟩
    · obtain rfl := Option.some.inj ht
      rw [Word.token_line]
      exact Nat.le_add_right _ _
    · rw [placed, List.isChain_cons]
      refine ⟨fun t ht => Nat.le_trans ?_ (hhead t ht), hchain⟩
      -- the token ends no later than the written form of its word
      have htext : w.text.count '\n' ≤ (lexemeChars w.kind w.text).count '\n' := (lexemeChars_sublist w.kind w.text).count_le '\n'
      rw [Word.token_endLine hlexeme, Word.token_line, Word.after_line hlexeme, Word.chars, List.count_append]
      omega

/-- A row of tokens in order ends on the line where it begins, or further down. -/
theorem chain_lines {first : Token} {rest : List Token} (h : (first :: rest).IsChain fun t t' => t.endLine ≤ t'.span.line) :
    first.span.line ≤ ((first :: rest).getLast (List.cons_ne_nil _ _)).endLine := by
  induction rest generalizing first with
  | nil => exact span_line_le_endLine first
  | cons second rest ih =>
    obtain ⟨hfirst, hrest⟩ := List.isChain_cons_cons.mp h
    calc first.span.line
      _ ≤ first.endLine := span_line_le_endLine first
      _ ≤ second.span.line := hfirst
      _ ≤ _ := ih hrest

/-- A statement ends on the line where it begins, or further down. -/
theorem statementsOf_lines {source : Source} (h : s ∈ statementsOf source) : s.line ≤ s.endLine := by
  have hne := statements_ne_nil h
  obtain ⟨words, left, -, hfits, htokens, -⟩ := Lexer.scanFrom_ok .origin source.text.toList
  have htokens : source.scan.tokens = Lexer.placed .origin words := htokens
  have hchain := (placed_inOrder hfits .origin).2
  rw [← htokens] at hchain
  obtain ⟨g, hg, rfl⟩ := List.mem_map.mp h
  have hchain : g.tokens.IsChain fun t t' => t.endLine ≤ t'.span.line := hchain.infix (groupFrom_stretch hg)
  obtain ⟨first, rest, hfirst⟩ := List.exists_cons_of_ne_nil hne
  have hfirst : g.tokens = first :: rest := hfirst
  rw [hfirst] at hchain
  unfold Statement.ofGroup
  rw [hfirst, List.getLast?_eq_some_getLast (List.cons_ne_nil first rest)]
  exact chain_lines hchain

/-! ## Indented bodies -/

/-- The body of a block begins on the line where its header ends. -/
def Branch.isInline (branch : Branch) : Bool := branch.statements.head?.any fun s => s.line == branch.header.endLine

theorem Branch.frame_isInline (branch : Branch) : branch.frame.isInline = branch.isInline := by
  unfold Branch.frame Branch.isInline Frame.ofHeader
  cases branch.statements.head? with
  | none => rfl
  | some s =>
    dsimp only [Option.any_some]
    split
    · rename_i hline
      rw [hline]
      rfl
    · rename_i hline
      rw [Bool.not_eq_true] at hline
      rw [hline]
      split <;> rfl

theorem opensBlock_of_isHeader (h : s.rule.isHeader) : s.rule.opensBlock := by
  cases hrule : s.rule <;> rw [hrule] at h <;> first | rfl | contradiction

/-- Frames that accept a header accept everything deeper, if none of them is a line. -/
theorem allAccept_deeper (hframes : ∀ f ∈ frames, f.isInline = false) (hheader : header.rule.isHeader)
    (haccept : allAccept frames true header) (hdeeper : header.indent < s.indent) : allAccept frames false s := by
  unfold allAccept at haccept ⊢
  rw [List.all_eq_true] at haccept ⊢
  intro f hf
  have hf' := haccept f hf
  cases f with
  | inline line => nomatch hframes _ hf
  | indented floor => exact decide_eq_true (Nat.lt_trans (of_decide_eq_true hf') hdeeper)
  | flat indent =>
    simp only [Frame.accepts, hheader, Bool.not_true, Bool.and_false] at hf'
    contradiction

/-- The body of a header that is followed by a deeper statement on a later line holds the statements up to the first that is not deeper
than the header, whatever encloses the header, unless one of the blocks around it begins on the line of its own header: then the body
is empty. -/
theorem indented_extent {source : Source} {i : Nat} {next : Statement} (hrow : (statementsOf source).drop i = header :: next :: rest)
    (hheader : header.rule.isHeader) (hlater : header.endLine < next.line) (hdeeper : header.indent < next.indent) :
    ∃ around body, (openings [] (nodesOf source))[i]? = some (some ⟨around, .mk header body⟩) ∧
      (Branch.mk header body).statements =
        if around.any Branch.isInline then [] else (next :: rest).takeWhile fun s => header.indent < s.indent := by
  obtain ⟨⟨around, block⟩, ho⟩ := openings_blocks hrow (opensBlock_of_isHeader hheader)
  obtain ⟨header', rest', hrow', haccept, hblock⟩ := blocks_opening ho
  obtain ⟨rfl, rfl⟩ := List.cons.inj (hrow'.symm.trans hrow)
  have hframe : Frame.ofHeader header' (next :: rest).head? = .indented header'.indent := by
    rw [List.head?_cons, Frame.ofHeader, if_neg (by simpa using Nat.ne_of_gt hlater), if_pos hdeeper]
  rw [hframe] at hblock
  dsimp only at haccept hblock
  subst hblock
  refine ⟨around, _, ho, ?_⟩
  split
  · rename_i hinline
    obtain ⟨branch, hbranch, hinline⟩ := List.any_eq_true.mp hinline
    -- the block around it accepts the line of the header only, and what follows is on another line
    have hrefused : allAccept (.indented header'.indent :: around.map Branch.frame) false next = false := by
      rw [← Branch.frame_isInline] at hinline
      have hmem : branch.frame ∈ around.map Branch.frame := List.mem_map_of_mem hbranch
      have hon : branch.frame.accepts true header' := List.all_eq_true.mp haccept _ hmem
      have hheaderMem : header' ∈ statementsOf source := List.mem_of_mem_drop (hrow ▸ List.mem_cons_self)
      have hlines := statementsOf_lines hheaderMem
      rw [← Bool.not_eq_true, allAccept, List.all_eq_true]
      intro hall
      have hoff := hall _ (List.mem_cons_of_mem _ hmem)
      cases hf : branch.frame with
      | inline line =>
        rw [hf] at hon hoff
        simp only [Frame.accepts, Bool.true_or, Bool.and_true, beq_iff_eq, Bool.and_eq_true] at hon hoff
        omega
      | indented floor =>
        rw [hf] at hinline
        exact absurd hinline Bool.false_ne_true
      | flat indent =>
        rw [hf] at hinline
        exact absurd hinline Bool.false_ne_true
    rw [Branch.statements, (arrange_refused hrefused).1]
    rfl
  · rename_i hinline
    have hframes : ∀ f ∈ around.map Branch.frame, f.isInline = false := by
      intro f hf
      obtain ⟨branch, hbranch, rfl⟩ := List.mem_map.mp hf
      rw [Branch.frame_isInline, ← Bool.not_eq_true]
      exact fun h => hinline (List.any_eq_true.mpr ⟨branch, hbranch, h⟩)
    have haccepts : allAccept (.indented header'.indent :: around.map Branch.frame) false =
        fun s => decide (header'.indent < s.indent) := by
      funext s
      rw [allAccept, List.all_cons]
      by_cases hs : header'.indent < s.indent
      · have hrest : (around.map Branch.frame).all (·.accepts false s) := allAccept_deeper hframes hheader haccept hs
        rw [hrest, Bool.and_true]
        rfl
      · rw [Frame.accepts, decide_eq_false hs, Bool.false_and]
    rw [Branch.statements, arrange_extent (List.forall_mem_cons.mpr ⟨rfl, hframes⟩), haccepts]

/-- A function whose body ends at the dedent. -/
theorem indented_extent_dedent :
    ∃ header next rest, (statementsOf ⟨"case", "fun f(n):\n while(n): n = n - 1;\n return n;\nsay f(2);"⟩).drop 0 = header :: next :: rest ∧
      header.rule.isHeader ∧ header.endLine < next.line ∧ header.indent < next.indent ∧
      ∃ around body, (openings [] (nodesOf ⟨"case", "fun f(n):\n while(n): n = n - 1;\n return n;\nsay f(2);"⟩))[0]? =
          some (some ⟨around, .mk header body⟩) ∧
        (Branch.mk header body).statements =
          if around.any Branch.isInline then [] else (next :: rest).takeWhile fun s => header.indent < s.indent := by
  have hrows : (statementsOf ⟨"case", "fun f(n):\n while(n): n = n - 1;\n return n;\nsay f(2);"⟩).map
      (fun s => (s.rule, s.line, s.endLine, s.indent)) =
        [(.function, 1, 1, 1), (.while_, 2, 2, 2), (.binding, 2, 2, 2), (.verbatim, 3, 3, 2), (.say, 4, 4, 1)] := by decide +kernel
  obtain ⟨header, rest, hrow, hheader, hrest⟩ := List.map_eq_cons_iff.mp hrows
  obtain ⟨next, rest, rfl, hnext, -⟩ := List.map_eq_cons_iff.mp hrest
  simp only [Prod.mk.injEq] at hheader hnext
  obtain ⟨hrule, -, hend, hindent⟩ := hheader
  obtain ⟨-, hline, -, hindent'⟩ := hnext
  have hisHeader : header.rule.isHeader := by rw [hrule]; rfl
  have hlater : header.endLine < next.line := by omega
  have hdeeper : header.indent < next.indent := by omega
  exact ⟨header, next, rest, hrow, hisHeader, hlater, hdeeper, indented_extent hrow hisHeader hlater hdeeper⟩

/-- Behind another header on the same line a header has an empty block, though deeper statements follow. -/
theorem indented_extent_inline :
    ¬∀ (source : Source) (i : Nat) (header next : Statement) (rest : List Statement) (o : Opening),
      (statementsOf source).drop i = header :: next :: rest → header.rule.isHeader → header.endLine < next.line →
        header.indent < next.indent → (openings [] (nodesOf source))[i]? = some (some o) →
          ∀ s ∈ (next :: rest).takeWhile (fun s => header.indent < s.indent), s ∈ o.block.statements := by
  intro hclaim
  have hrows : (statementsOf ⟨"case", "if(true): if(false):\n say 1;\nsay 2;"⟩).map (fun s => (s.rule, s.line, s.endLine, s.indent)) =
      [(.if_, 1, 1, 1), (.if_, 1, 1, 1), (.say, 2, 2, 2), (.say, 3, 3, 1)] := by decide +kernel
  have hblock : (openings [] (nodesOf ⟨"case", "if(true): if(false):\n say 1;\nsay 2;"⟩))[1]?.map
      (fun o => o.map fun o => o.block.statements.length) = some (some 0) := by decide +kernel
  obtain ⟨first, rest, hrow, -, hrest⟩ := List.map_eq_cons_iff.mp hrows
  obtain ⟨header, rest, rfl, hheader, hrest⟩ := List.map_eq_cons_iff.mp hrest
  obtain ⟨next, rest, rfl, hnext, -⟩ := List.map_eq_cons_iff.mp hrest
  obtain ⟨opening, hopening, hsome⟩ := Option.map_eq_some_iff.mp hblock
  obtain ⟨o, rfl, hlength⟩ := Option.map_eq_some_iff.mp hsome
  simp only [Prod.mk.injEq] at hheader hnext
  obtain ⟨hrule, -, hend, hindent⟩ := hheader
  obtain ⟨-, hline, -, hindent'⟩ := hnext
  have hmem := hclaim _ 1 header next rest o (by rw [hrow]; rfl) (by rw [hrule]; rfl) (by omega) (by omega) hopening next
    (by rw [List.takeWhile_cons_of_pos (by simp; omega)]; exact List.mem_cons_self)
  rw [List.eq_nil_of_length_eq_zero hlength] at hmem
  exact List.not_mem_nil hmem

/-! ## Flat bodies -/

/-- The statements up to the first header at the indentation of a header or left of it, or the first statement left of it. -/
def flatRow (header : Statement) (row : List Statement) : List Statement :=
  row.takeWhile fun s => header.indent ≤ s.indent && (!s.rule.isHeader || header.indent < s.indent)

/-- Without headers in it, that row ends where the first header stands, however deep. -/
theorem takeWhile_eq_flatRow (header : Statement) (row : List Statement) :
    row.takeWhile (fun s => header.indent ≤ s.indent && !s.rule.isHeader) = flatRow header row ↔
      ∀ s ∈ flatRow header row, s.rule.isHeader = false := by
  constructor
  · intro heq s hs
    rw [← heq] at hs
    have hplain := List.mem_takeWhile_imp hs
    simp only [Bool.and_eq_true, Bool.not_eq_true'] at hplain
    exact hplain.2
  · unfold flatRow
    induction row with
    | nil => exact fun _ => rfl
    | cons s row ih =>
      intro hplain
      rw [List.takeWhile_cons, List.takeWhile_cons] at *
      cases hheader : s.rule.isHeader with
      | false =>
        simp only [hheader, Bool.not_false, Bool.true_or, Bool.and_true] at hplain ⊢
        split
        · rename_i hindent
          rw [if_pos hindent] at hplain
          rw [ih (List.forall_mem_cons.mp hplain).2]
        · rfl
      | true =>
        simp only [hheader, Bool.not_true, Bool.false_or, Bool.and_false, Bool.false_eq_true, if_false] at hplain ⊢
        split
        · rename_i hindent
          rw [if_pos hindent] at hplain
          exact absurd (hplain s List.mem_cons_self) (by simp [hheader])
        · rfl

/-- The body of a header outside all blocks that is followed, on a later line, by a statement that is no deeper holds the statements up
to the first that is a header, at any depth, or stands left of the header. These are the statements up to the first header that is
not deeper, or the first statement left of the header, exactly if no deeper header is among them. -/
theorem flat_extent {source : Source} {i : Nat} {next : Statement} (hrow : (statementsOf source).drop i = header :: next :: rest)
    (hheader : header.rule.isHeader) (hlater : header.endLine < next.line) (hflat : next.indent ≤ header.indent) :
    ∃ around body, (openings [] (nodesOf source))[i]? = some (some ⟨around, .mk header body⟩) ∧
      (around = [] →
        (Branch.mk header body).statements =
            (next :: rest).takeWhile (fun s => header.indent ≤ s.indent && !s.rule.isHeader) ∧
          ((Branch.mk header body).statements = flatRow header (next :: rest) ↔
            ∀ s ∈ flatRow header (next :: rest), s.rule.isHeader = false)) := by
  obtain ⟨⟨around, block⟩, ho⟩ := openings_blocks hrow (opensBlock_of_isHeader hheader)
  obtain ⟨header', rest', hrow', -, hblock⟩ := blocks_opening ho
  obtain ⟨rfl, rfl⟩ := List.cons.inj (hrow'.symm.trans hrow)
  have hframe : Frame.ofHeader header' (next :: rest).head? = .flat header'.indent := by
    rw [List.head?_cons, Frame.ofHeader, if_neg (by simpa using Nat.ne_of_gt hlater), if_neg (Nat.not_lt.mpr hflat)]
  rw [hframe] at hblock
  dsimp only at hblock
  subst hblock
  refine ⟨around, _, ho, ?_⟩
  rintro rfl
  have haccepts : allAccept [.flat header'.indent] false = fun s => decide (header'.indent ≤ s.indent) && !s.rule.isHeader := by
    funext s
    rw [allAccept, List.all_cons, List.all_nil, Bool.and_true]
    rfl
  have hframes : ∀ f ∈ [Frame.flat header'.indent], f.isInline = false := List.forall_mem_singleton.mpr rfl
  have hstatements := arrange_extent hframes (next :: rest)
  rw [haccepts] at hstatements
  rw [Branch.statements, List.map_nil, hstatements]
  exact ⟨rfl, takeWhile_eq_flatRow header' (next :: rest)⟩

/-- A function whose body ends at the next function. -/
theorem flat_extent_next :
    ∃ header next rest body, (statementsOf ⟨"case", "fun a():\nsay 1;\nfun b():\nsay 2;"⟩).drop 0 = header :: next :: rest ∧
      header.rule.isHeader ∧ header.endLine < next.line ∧ next.indent ≤ header.indent ∧
      (openings [] (nodesOf ⟨"case", "fun a():\nsay 1;\nfun b():\nsay 2;"⟩))[0]? = some (some ⟨[], .mk header body⟩) ∧
      (Branch.mk header body).statements = (next :: rest).takeWhile (fun s => header.indent ≤ s.indent && !s.rule.isHeader) ∧
      ((Branch.mk header body).statements = flatRow header (next :: rest) ↔
        ∀ s ∈ flatRow header (next :: rest), s.rule.isHeader = false) := by
  have hrows : (statementsOf ⟨"case", "fun a():\nsay 1;\nfun b():\nsay 2;"⟩).map (fun s => (s.rule, s.line, s.endLine, s.indent)) =
      [(.function, 1, 1, 1), (.say, 2, 2, 1), (.function, 3, 3, 1), (.say, 4, 4, 1)] := by decide +kernel
  have htop : (openings [] (nodesOf ⟨"case", "fun a():\nsay 1;\nfun b():\nsay 2;"⟩))[0]?.map
      (fun o => o.map fun o => o.around.length) = some (some 0) := by decide +kernel
  obtain ⟨header, rest, hrow, hheader, hrest⟩ := List.map_eq_cons_iff.mp hrows
  obtain ⟨next, rest, rfl, hnext, -⟩ := List.map_eq_cons_iff.mp hrest
  simp only [Prod.mk.injEq] at hheader hnext
  obtain ⟨hrule, -, hend, hindent⟩ := hheader
  obtain ⟨-, hline, -, hindent'⟩ := hnext
  have hisHeader : header.rule.isHeader := by rw [hrule]; rfl
  have hlater : header.endLine < next.line := by omega
  have hflat : next.indent ≤ header.indent := by omega
  obtain ⟨around, body, hopening, hbody⟩ := flat_extent (i := 0) hrow hisHeader hlater hflat
  rw [hopening] at htop
  obtain rfl := List.eq_nil_of_length_eq_zero (Option.some.inj (Option.some.inj htop))
  exact ⟨header, next, rest, body, hrow, hisHeader, hlater, hflat, hopening, hbody rfl⟩

/-- The body of a function ends at a deeper header. -/
theorem flat_extent_deeper :
    ¬∀ (source : Source) (i : Nat) (header next : Statement) (rest : List Statement) (block : Branch),
      (statementsOf source).drop i = header :: next :: rest → header.rule.isHeader → header.endLine < next.line →
        next.indent ≤ header.indent → (openings [] (nodesOf source))[i]? = some (some ⟨[], block⟩) →
          block.statements = flatRow header (next :: rest) := by
  intro hclaim
  have hrows : (statementsOf ⟨"case", "fun f():\nsay 1;\n  if(true):\n    say 2;\nsay 3;"⟩).map
      (fun s => (s.rule, s.line, s.endLine, s.indent)) =
        [(.function, 1, 1, 1), (.say, 2, 2, 1), (.if_, 3, 3, 3), (.say, 4, 4, 5), (.say, 5, 5, 1)] := by decide +kernel
  have hblock : (openings [] (nodesOf ⟨"case", "fun f():\nsay 1;\n  if(true):\n    say 2;\nsay 3;"⟩))[0]?.map
      (fun o => o.map fun o => (o.around.length, o.block.statements.length)) = some (some (0, 1)) := by decide +kernel
  obtain ⟨header, rest, hrow, hheader, hrest⟩ := List.map_eq_cons_iff.mp hrows
  obtain ⟨next, rest, rfl, hnext, hrest⟩ := List.map_eq_cons_iff.mp hrest
  obtain ⟨inner, rest, rfl, hinner, -⟩ := List.map_eq_cons_iff.mp hrest
  obtain ⟨opening, hopening, hsome⟩ := Option.map_eq_some_iff.mp hblock
  obtain ⟨⟨around, block⟩, rfl, hlengths⟩ := Option.map_eq_some_iff.mp hsome
  simp only [Prod.mk.injEq] at hheader hnext hinner hlengths
  obtain ⟨hrule, -, hend, hindent⟩ := hheader
  obtain ⟨hplain, hline, -, hindent'⟩ := hnext
  obtain ⟨-, -, -, hdeeper⟩ := hinner
  obtain rfl := List.eq_nil_of_length_eq_zero hlengths.1
  have hstatements := hclaim _ 0 header next (inner :: rest) block hrow (by rw [hrule]; rfl) (by omega) (by omega) hopening
  have hlong : 2 ≤ (flatRow header (next :: inner :: rest)).length := by
    rw [flatRow, List.takeWhile_cons_of_pos (by simp [hplain, hindent, hindent', Rule.isHeader]),
      List.takeWhile_cons_of_pos (by simp [hdeeper, hindent])]
    simp
  rw [← hstatements] at hlong
  omega

end HostScript.Dialect
