import Mathlib
import HostScript.Proofs.Dialect.Emitted
import HostScript.Proofs.Token.Refilled

/-!
# Structure does not depend on places and quotes

What a host script is made of depends on the classes of tokens, on names and symbols, and on which tokens stand on one line: the number of
the line does not matter, nor what stands between quotes. A `Recast` changes the tokens of a row in such a way. Tokens are grouped,
classified, arranged and written in the same way if they are recast, step by step, and a view of words that cannot tell the tokens from
what they are recast as cannot tell the words of the host scripts either (`Recast.Hides.lineWords_emissions`).
-/

namespace HostScript.Dialect

open Lexer

/-- A change of tokens that keeps their classes and the texts of names and symbols, and gives every line another number. -/
structure Recast where
  token : Token → Token
  number : Nat → Nat
  kind : ∀ t, (token t).kind = t.kind
  text : ∀ t, isQuoted t.kind = false → (token t).text = t.text
  line : ∀ t, (token t).span.line = number t.span.line
  injective : Function.Injective number

namespace Recast

variable (r : Recast)

/-- A token ends on the line that its last line becomes. -/
def Steady (t : Token) : Prop := (r.token t).endLine = r.number t.endLine

/-! ## Tokens -/

/-- Names and symbols are told by their text, which they keep. -/
theorem test_token {kind : TokenKind} (hkind : isQuoted kind = false) (t : Token) (p : String → Bool) :
    ((r.token t).kind == kind && p (r.token t).text) = (t.kind == kind && p t.text) := by
  rw [r.kind]
  by_cases h : t.kind = kind
  · rw [r.text t (h ▸ hkind)]
  · rw [beq_false_of_ne h, Bool.false_and, Bool.false_and]

/-- A recast token is the same symbol. -/
@[simp] theorem isSymbol_token (t : Token) (text : String) : (r.token t).isSymbol text = t.isSymbol text := r.test_token rfl t (· == text)

/-- A recast token is the same word. -/
@[simp] theorem isIdent_token (t : Token) (text : String) : (r.token t).isIdent text = t.isIdent text := r.test_token rfl t (· == text)

/-- A recast name keeps its text. -/
theorem text_name {t : Token} (h : t.kind = .ident) : (r.token t).text = t.text := by
  refine r.text t ?_
  rw [h]
  rfl

/-- A recast token closes the same brackets. -/
theorem isClose_token (t : Token) : isClose (r.token t) = isClose t :=
  r.test_token rfl t fun text => text == ")" || text == "]" || text == "\x7d"

/-- A recast token changes the depth of brackets as before. -/
theorem depthAfter_token (depth : Nat) (t : Token) : depthAfter depth (r.token t) = depthAfter depth t := by
  have hopen : isOpen (r.token t) = isOpen t := r.test_token rfl t fun text => text == "(" || text == "[" || text == "\x7b"
  unfold depthAfter
  rw [hopen, r.isClose_token]

/-- Line numbers are equal if and only if they are equal after recasting. -/
theorem number_beq (n m : Nat) : (r.number n == r.number m) = (n == m) := by
  rw [Bool.eq_iff_iff, beq_iff_eq, beq_iff_eq, r.injective.eq_iff]

/-- A steady token ends its line as before. -/
theorem endsLine_token {t : Token} (h : r.Steady t) (next : Option Token) :
    endsLine (r.token t) (next.map r.token) = endsLine t next := by
  cases next with
  | none => rfl
  | some next =>
    unfold endsLine
    rw [Option.map_some]
    dsimp only
    rw [h, r.line, bne, r.number_beq]
    rfl

/-! ## Statements -/

/-- A group whose tokens are recast. -/
def group (g : Group) : Group := ⟨g.tokens.map r.token, g.endsLine⟩

/-- A statement whose tokens and lines are recast. -/
def statement (s : Statement) : Statement := ⟨s.tokens.map r.token, r.number s.line, r.number s.endLine, s.indent, s.rule⟩

/-- Recast tokens are grouped into the recast groups. -/
theorem groupFrom_tokens (begun : List Token) (header : Bool) (depth : Nat) {row : List Token} (h : ∀ t ∈ row, r.Steady t) :
    groupFrom (begun.map r.token) header depth (row.map r.token) = (groupFrom begun header depth row).map r.group := by
  induction row generalizing begun header depth with
  | nil =>
    rw [List.map_nil, groupFrom, groupFrom, List.isEmpty_map]
    split
    · rfl
    · simp [group]
  | cons t rest ih =>
    obtain ⟨ht, hrest⟩ := List.forall_mem_cons.mp h
    have hheader : ((r.token t).kind == .ident && headerWords.contains (r.token t).text) =
        (t.kind == .ident && headerWords.contains t.text) := r.test_token rfl t headerWords.contains
    have hempty : groupFrom [] false 0 (rest.map r.token) = (groupFrom [] false 0 rest).map r.group := ih [] false 0 hrest
    rw [List.map_cons, groupFrom, groupFrom]
    simp only [List.isEmpty_map, hheader, r.depthAfter_token, List.head?_map, r.endsLine_token ht, r.isSymbol_token]
    generalize (if begun.isEmpty then t.kind == .ident && headerWords.contains t.text else header) = header'
    split
    · rw [hempty]
      simp [group]
    · exact ih (t :: begun) header' (depthAfter depth t) hrest

variable (tokens : List Token)

/-- A recast row begins with the same words. -/
theorem beginsWith_tokens (word : String) : beginsWith (tokens.map r.token) word = beginsWith tokens word := by
  cases tokens with
  | nil => rfl
  | cons t rest => exact r.isIdent_token t word

/-- A recast row ends in the same symbols. -/
theorem endsIn_tokens (text : String) : endsIn (tokens.map r.token) text = endsIn tokens text := by
  unfold endsIn
  rw [List.getLast?_map, Option.any_map]
  congr 1
  funext t
  exact r.isSymbol_token t text

/-- A recast row has the matching bracket at the same index. -/
theorem matchingFrom_tokens (depth index : Nat) :
    matchingFrom depth index (tokens.map r.token) = matchingFrom depth index tokens := by
  induction tokens generalizing depth index with
  | nil => rfl
  | cons t rest ih => rw [List.map_cons, matchingFrom, matchingFrom, r.depthAfter_token, r.isClose_token, ih]

/-- A recast row stands in brackets if and only if it did before. -/
theorem isBracketed_tokens : isBracketed (tokens.map r.token) = isBracketed tokens := by
  unfold isBracketed
  rw [r.matchingFrom_tokens, List.length_map]
  congr 1
  cases tokens with
  | nil => rfl
  | cons t rest => exact r.isSymbol_token t "("

/-- A recast row is a header of a function if and only if it was one before. -/
theorem isFunctionHeader_tokens : isFunctionHeader (tokens.map r.token) = isFunctionHeader tokens := by
  rcases tokens with _ | ⟨word, _ | ⟨name, params⟩⟩
  · rfl
  · rfl
  · simp only [List.map_cons, isFunctionHeader, List.length_map, r.kind, ← List.map_dropLast, r.isBracketed_tokens]

/-- A recast row binds a name if and only if it did before. -/
theorem binds_tokens : binds (tokens.map r.token) = binds tokens := by
  rcases tokens with _ | ⟨name, _ | ⟨equals, _ | ⟨first, _ | ⟨second, rest⟩⟩⟩⟩
  · rfl
  · rfl
  · rfl
  · rfl
  · have hname : ((r.token name).kind == .ident && !reservedWords.contains (r.token name).text) =
        (name.kind == .ident && !reservedWords.contains name.text) := r.test_token rfl name fun text => !reservedWords.contains text
    have hends := r.endsIn_tokens (name :: equals :: first :: second :: rest) ";"
    simp only [List.map_cons] at hends
    simp only [List.map_cons, binds, hname, r.isSymbol_token, hends]

/-- A recast group falls under the same rule. -/
theorem classify_group (g : Group) : classify (r.group g) = classify g := by
  obtain ⟨tokens, endsLine⟩ := g
  rw [group, classify_eq, classify_eq, r.binds_tokens, r.isFunctionHeader_tokens, List.length_map]
  simp only [r.endsIn_tokens, r.beginsWith_tokens]

/-- The statement of a group is recast, if lines that become one another are indented alike. -/
theorem ofGroup_group {indentOf indentOf' : Nat → Nat} {g : Group} (hne : g.tokens ≠ []) (hsteady : ∀ t ∈ g.tokens, r.Steady t)
    (hindent : ∀ t ∈ g.tokens, indentOf (r.number t.span.line) = indentOf' t.span.line) :
    Statement.ofGroup indentOf (r.group g) = r.statement (Statement.ofGroup indentOf' g) := by
  obtain ⟨first, hfirst⟩ := Option.isSome_iff_exists.mp (List.isSome_head?.mpr hne)
  obtain ⟨last, hlast⟩ : ∃ last, g.tokens.getLast? = some last := ⟨_, List.getLast?_eq_some_getLast hne⟩
  have hline : ((g.tokens.map r.token).head?.map fun t => t.span.line) = some (r.number first.span.line) := by
    rw [List.head?_map, hfirst, Option.map_some, Option.map_some, r.line]
  have hend : (g.tokens.map r.token).getLast?.map Token.endLine = some (r.number last.endLine) := by
    rw [List.getLast?_map, hlast, Option.map_some, Option.map_some, hsteady last (List.mem_of_getLast? hlast)]
  unfold Statement.ofGroup statement
  rw [r.classify_group]
  unfold group
  dsimp only
  rw [hline, hend, hfirst, hlast]
  exact congrArg (fun indent => Statement.mk _ _ _ indent _) (hindent first (List.mem_of_head? hfirst))

/-- The statements of recast tokens are the recast statements, if the lines are indented alike. -/
theorem statements_tokens {indentOf indentOf' : Nat → Nat} {tokens : List Token} (hsteady : ∀ t ∈ tokens, r.Steady t)
    (hindent : ∀ t ∈ tokens, indentOf (r.number t.span.line) = indentOf' t.span.line) :
    statements indentOf (tokens.map r.token) = (statements indentOf' tokens).map r.statement := by
  have hgroups : groupFrom [] false 0 (tokens.map r.token) = (groupFrom [] false 0 tokens).map r.group :=
    r.groupFrom_tokens [] false 0 hsteady
  unfold statements
  rw [hgroups, List.map_map, List.map_map]
  refine List.map_congr_left fun g hg => ?_
  have hin : ∀ t ∈ g.tokens, t ∈ tokens := fun t ht => (groupFrom_stretch hg).subset ht
  exact r.ofGroup_group (groupFrom_ne_nil hg) (fun t ht => hsteady t (hin t ht)) fun t ht => hindent t (hin t ht)

/-! ## Blocks -/

mutual

/-- Nodes whose statements are recast. -/
def nodes : List Node → List Node
  | [] => []
  | .simple s :: rest => .simple (r.statement s) :: nodes rest
  | .block first alternates :: rest => .block (branch first) (branches alternates) :: nodes rest

/-- A branch whose statements are recast. -/
def branch : Branch → Branch
  | .mk header body => .mk (r.statement header) (nodes body)

/-- Alternates whose statements are recast. -/
def branches : List Branch → List Branch
  | [] => []
  | first :: rest => branch first :: branches rest

end

/-- A frame whose line is recast. -/
def frame : Frame → Frame
  | .inline line => .inline (r.number line)
  | .indented floor => .indented floor
  | .flat indent => .flat indent

/-- A recast frame accepts the same statements. -/
theorem accepts_frame (alternate : Bool) (s : Statement) (f : Frame) :
    (r.frame f).accepts alternate (r.statement s) = f.accepts alternate s := by
  cases f with
  | inline line => exact congrArg (· && _) (r.number_beq s.line line)
  | indented floor => rfl
  | flat indent => rfl

/-- Recast frames accept the same statements. -/
theorem allAccept_frames (frames : List Frame) (alternate : Bool) (s : Statement) :
    allAccept (frames.map r.frame) alternate (r.statement s) = allAccept frames alternate s := by
  unfold allAccept
  rw [List.all_map]
  congr 1
  funext f
  exact r.accepts_frame alternate s f

/-- A recast statement is attached to the same headers. -/
theorem isAttached_frames (frames : List Frame) (header previous s : Statement) :
    isAttached (frames.map r.frame) (r.statement header) (r.statement previous) (r.statement s) =
      isAttached frames header previous s := by
  have hline : ((r.statement s).line == (r.statement previous).endLine) = (s.line == previous.endLine) :=
    r.number_beq s.line previous.endLine
  unfold isAttached
  rw [r.allAccept_frames, hline]
  rfl

/-- The frames inside a recast header are the recast frames. -/
theorem ofHeader_frames (frames : List Frame) (header : Statement) (rest : List Statement) :
    Frame.ofHeader (r.statement header) (rest.map r.statement).head? :: frames.map r.frame =
      (Frame.ofHeader header rest.head? :: frames).map r.frame := by
  rw [List.map_cons]
  congr 1
  cases rest with
  | nil => rfl
  | cons next rest =>
    have hline : ((r.statement next).line == (r.statement header).endLine) = (next.line == header.endLine) :=
      r.number_beq next.line header.endLine
    rw [List.map_cons, List.head?_cons, List.head?_cons, Frame.ofHeader, Frame.ofHeader, hline, apply_ite r.frame, apply_ite r.frame]
    rfl

/-- A row is arranged in the same way. -/
structure Arranges (frames : List Frame) (row : List Statement) : Prop where
  result : (arrange (frames.map r.frame) (row.map r.statement)).result = r.nodes (arrange frames row).result
  rest : (arrange (frames.map r.frame) (row.map r.statement)).rest = (arrange frames row).rest.map r.statement

/-- The alternates in front of a row are arranged in the same way. -/
structure Attaches (frames : List Frame) (header previous : Statement) (row : List Statement) : Prop where
  result : (arrangeAlternates (frames.map r.frame) (r.statement header) (r.statement previous) (row.map r.statement)).result =
    r.branches (arrangeAlternates frames header previous row).result
  rest : (arrangeAlternates (frames.map r.frame) (r.statement header) (r.statement previous) (row.map r.statement)).rest =
    (arrangeAlternates frames header previous row).rest.map r.statement

/-- Recast statements are arranged into the recast nodes, under any frames. -/
theorem arrange_statements (frames : List Frame) (row : List Statement) : r.Arranges frames row := by
  refine (arrange_induction (P := r.Arranges) (Q := r.Attaches)
    ?nil ?refused ?simple ?block ?alternates_nil ?alternates_refused ?alternates_else ?alternates_elif frames row).1
  case nil =>
    intro frames
    obtain ⟨hresult, hrest⟩ := arrange_nil frames
    obtain ⟨hresult', hrest'⟩ := arrange_nil (frames.map r.frame)
    constructor
    · rw [List.map_nil, hresult, hresult', nodes]
    · rw [List.map_nil, hrest, hrest', List.map_nil]
  case refused =>
    intro frames s rest haccept
    obtain ⟨hresult, hrest⟩ := @arrange_refused frames s rest haccept
    obtain ⟨hresult', hrest'⟩ :=
      @arrange_refused (frames.map r.frame) (r.statement s) (rest.map r.statement) ((r.allAccept_frames frames false s).trans haccept)
    constructor
    · rw [List.map_cons, hresult, hresult', nodes]
    · rw [List.map_cons, hrest, hrest', List.map_cons]
  case simple =>
    intro frames s rest haccept hopens hnodes
    obtain ⟨hresult, hrest⟩ := @arrange_simple frames s rest haccept hopens
    obtain ⟨hresult', hrest'⟩ :=
      @arrange_simple (frames.map r.frame) (r.statement s) (rest.map r.statement) ((r.allAccept_frames frames false s).trans haccept) hopens
    constructor
    · rw [List.map_cons, hresult, hresult', hnodes.result, nodes]
    · rw [List.map_cons, hrest, hrest', hnodes.rest]
  case block =>
    intro frames s rest haccept hopens body hbody halternates hnodes
    obtain ⟨hresult, hrest⟩ := @arrange_block frames s rest haccept hopens
    obtain ⟨hresult', hrest'⟩ :=
      @arrange_block (frames.map r.frame) (r.statement s) (rest.map r.statement) ((r.allAccept_frames frames false s).trans haccept) hopens
    rw [r.ofHeader_frames, hbody.result, hbody.rest] at hresult'
    rw [r.ofHeader_frames, hbody.rest] at hrest'
    have hbehind : (alternatesBehind (frames.map r.frame) (r.statement s) (body.rest.map r.statement)).result =
          r.branches (alternatesBehind frames s body.rest).result ∧
        (alternatesBehind (frames.map r.frame) (r.statement s) (body.rest.map r.statement)).rest =
          (alternatesBehind frames s body.rest).rest.map r.statement := by
      have hrule : (r.statement s).rule = s.rule := rfl
      unfold alternatesBehind
      rw [hrule]
      split
      · rename_i hif
        exact ⟨(halternates hif).result, (halternates hif).rest⟩
      · exact ⟨(branches.eq_1 r).symm, rfl⟩
    rw [hbehind.1, hbehind.2, hnodes.result] at hresult'
    rw [hbehind.2, hnodes.rest] at hrest'
    constructor
    · rw [List.map_cons, hresult, hresult', nodes, branch]
    · rw [List.map_cons, hrest, hrest']
  case alternates_nil =>
    intro frames header previous
    obtain ⟨hresult, hrest⟩ := arrangeAlternates_nil frames header previous
    obtain ⟨hresult', hrest'⟩ := arrangeAlternates_nil (frames.map r.frame) (r.statement header) (r.statement previous)
    constructor
    · rw [List.map_nil, hresult, hresult', branches]
    · rw [List.map_nil, hrest, hrest', List.map_nil]
  case alternates_refused =>
    intro frames header previous s rest hattached
    obtain ⟨hresult, hrest⟩ := @arrangeAlternates_refused frames s header previous rest hattached
    obtain ⟨hresult', hrest'⟩ := @arrangeAlternates_refused (frames.map r.frame) (r.statement s) (r.statement header)
      (r.statement previous) (rest.map r.statement) ((r.isAttached_frames frames header previous s).trans hattached)
    constructor
    · rw [List.map_cons, hresult, hresult', branches]
    · rw [List.map_cons, hrest, hrest', List.map_cons]
  case alternates_else =>
    intro frames header previous s rest hattached hrule hbody
    obtain ⟨hresult, hrest⟩ := @arrangeAlternates_else frames s header previous rest hattached hrule
    obtain ⟨hresult', hrest'⟩ := @arrangeAlternates_else (frames.map r.frame) (r.statement s) (r.statement header)
      (r.statement previous) (rest.map r.statement) ((r.isAttached_frames frames header previous s).trans hattached) hrule
    rw [r.ofHeader_frames, hbody.result] at hresult'
    rw [r.ofHeader_frames, hbody.rest] at hrest'
    constructor
    · rw [List.map_cons, hresult, hresult', branches, branches, branch]
    · rw [List.map_cons, hrest, hrest']
  case alternates_elif =>
    intro frames header previous s rest hattached hrule hbody halternates
    obtain ⟨hresult, hrest⟩ := @arrangeAlternates_elif frames s header previous rest hattached hrule
    obtain ⟨hresult', hrest'⟩ := @arrangeAlternates_elif (frames.map r.frame) (r.statement s) (r.statement header)
      (r.statement previous) (rest.map r.statement) ((r.isAttached_frames frames header previous s).trans hattached) hrule
    rw [r.ofHeader_frames, hbody.result, hbody.rest, halternates.result] at hresult'
    rw [r.ofHeader_frames, hbody.rest, halternates.rest] at hrest'
    constructor
    · rw [List.map_cons, hresult, hresult', branches, branch]
    · rw [List.map_cons, hrest, hrest']

/-- Recast statements have the recast trees. -/
theorem blocks_statements (row : List Statement) : blocks (row.map r.statement) = r.nodes (blocks row) :=
  (r.arrange_statements [] row).result

/-! ## Lines -/

/-- A recast function has the same name. -/
theorem functionName_statement {s : Statement} (h : isFunctionHeader s.tokens) : functionName (r.statement s) = functionName s := by
  obtain ⟨word, name, opening, params, closing, last, htokens, hname, -⟩ := isFunctionHeader_parts h
  unfold functionName statement
  rw [htokens]
  exact r.text_name hname

/-- A recast function has the recast parameters. -/
theorem functionParams_statement (s : Statement) : functionParams (r.statement s) = (functionParams s).map r.token := by
  unfold functionParams statement
  rw [List.map_dropLast, List.map_dropLast, List.map_drop]

/-- A recast statement declares the same name. -/
theorem declaredName_statement {s : Statement} (h : s.Genuine) : declaredName? (r.statement s) = declaredName? s := by
  have hdescribes := h.describes
  have hrule : (r.statement s).rule = s.rule := rfl
  unfold declaredName?
  rw [hrule]
  split
  · rename_i hbinding
    rw [hbinding] at hdescribes
    obtain ⟨⟨name, equals, value, htokens, hname, -⟩, -⟩ := hdescribes
    unfold statement
    rw [htokens]
    exact congrArg some (r.text_name hname)
  · rename_i hfunction
    rw [hfunction] at hdescribes
    rw [r.functionName_statement hdescribes.2.1]
  · rfl

/-- A recast function has parameters of the same names. -/
theorem parameterNames_statement (s : Statement) : parameterNames (r.statement s) = parameterNames s := by
  have hrule : (r.statement s).rule = s.rule := rfl
  have hkind : ((fun t : Token => t.kind == .ident) ∘ r.token) = fun t => t.kind == .ident := by
    funext t
    exact congrArg (· == TokenKind.ident) (r.kind t)
  unfold parameterNames
  rw [hrule, r.functionParams_statement, List.filter_map, hkind, List.map_map]
  split
  · refine List.map_congr_left fun t ht => r.text_name ?_
    exact beq_iff_eq.mp (List.mem_filter.mp ht).2
  · rfl

/-- What a line is made of, with its statement recast. -/
def form : Form → Form
  | .simple known s => .simple known (r.statement s)
  | .opening alternate header => .opening alternate (r.statement header)
  | .closing => .closing

/-- A line whose statement is recast. -/
def emission (e : Emission) : Emission := ⟨e.depth, r.form e.form⟩

mutual

/-- Nodes that were read from a source give the same lines if they are recast. -/
theorem emissions_nodes (depth : Nat) (known : List String) (nodes : List Node) (h : ∀ m ∈ listed nodes, m.2.Genuine) :
    emissions depth known (r.nodes nodes) = (emissions depth known nodes).map r.emission := by
  cases nodes with
  | nil =>
    rw [Recast.nodes, emissions]
    rfl
  | cons node rest =>
    cases node with
    | simple s =>
      obtain ⟨hs, hrest⟩ := List.forall_mem_cons.mp h
      rw [Recast.nodes, emissions, emissions, r.declaredName_statement hs, emissions_nodes depth _ rest hrest]
      rfl
    | block first alternates =>
      obtain ⟨hblock, hrest⟩ := List.forall_mem_append.mp h
      obtain ⟨hfirst, halternates⟩ := List.forall_mem_append.mp hblock
      have hnames : branchNames (r.branch first) = branchNames first := by
        cases first with
        | mk header body =>
          have hheader : header.Genuine := hfirst (true, header) List.mem_cons_self
          rw [Recast.branch]
          exact congrArg Option.toList (r.declaredName_statement hheader)
      rw [Recast.nodes, emissions, emissions, branchEmissions_branch depth known false first hfirst,
        alternateEmissions_branches depth known alternates halternates, hnames, emissions_nodes depth _ rest hrest]
      simp only [List.map_append, List.map_cons, List.map_nil]
      rfl

/-- The lines of a recast branch are the recast lines. -/
theorem branchEmissions_branch (depth : Nat) (known : List String) (alternate : Bool) (branch : Branch)
    (h : ∀ m ∈ listedBranch branch, m.2.Genuine) :
    branchEmissions depth known alternate (r.branch branch) = (branchEmissions depth known alternate branch).map r.emission := by
  cases branch with
  | mk header body =>
    obtain ⟨hheader, hbody⟩ := List.forall_mem_cons.mp h
    rw [Recast.branch, branchEmissions, branchEmissions, r.parameterNames_statement, r.declaredName_statement hheader,
      emissions_nodes (depth + 1) _ body hbody]
    rfl

/-- The lines of recast branches are the recast lines. -/
theorem alternateEmissions_branches (depth : Nat) (known : List String) (branches : List Branch)
    (h : ∀ m ∈ listedAlternates branches, m.2.Genuine) :
    alternateEmissions depth known (r.branches branches) = (alternateEmissions depth known branches).map r.emission := by
  cases branches with
  | nil =>
    rw [Recast.branches, alternateEmissions]
    rfl
  | cons branch rest =>
    obtain ⟨hbranch, hrest⟩ := List.forall_mem_append.mp h
    rw [Recast.branches, alternateEmissions, alternateEmissions, branchEmissions_branch depth known true branch hbranch,
      alternateEmissions_branches depth known rest hrest, List.map_append]

end

/-! ## Words -/

/-- An operand of a recast row ends at the same token. -/
theorem splitOperand_tokens (depth : Nat) (row : List Token) :
    splitOperand depth (row.map r.token) = ((splitOperand depth row).1.map r.token, (splitOperand depth row).2.map r.token) := by
  induction row generalizing depth with
  | nil => rfl
  | cons t rest ih =>
    rw [List.map_cons, splitOperand, splitOperand, r.isClose_token, r.isSymbol_token, r.depthAfter_token, ih]
    split <;> rfl

/-- A view of words does not tell tokens from what they are recast as, with the gap in front of them, without it, or behind a longer one. -/
structure Hides {α : Type} (view : Word → α) : Prop where
  word : ∀ t, view (Word.ofToken (r.token t)) = view (Word.ofToken t)
  gap : ∀ t kind text, view ⟨(r.token t).gap.toList, kind, text⟩ = view ⟨t.gap.toList, kind, text⟩
  bare : ∀ {w w' : Word}, view w = view w' → view { w with gap := [] } = view { w' with gap := [] }
  behind : ∀ {w w' : Word} (gap : List Char), view w = view w' → view { w with gap := gap ++ w.gap } = view { w' with gap := gap ++ w'.gap }

namespace Hides

variable {r}
variable {α : Type} {view : Word → α} (hview : r.Hides view)
include hview

/-- A gap in front of words of the same view keeps their views the same. -/
theorem gapped_words {words words' : List Word} (gap : List Char) (h : words.map view = words'.map view) :
    (gapped gap words).map view = (gapped gap words').map view := by
  cases words with
  | nil =>
    obtain rfl := List.map_eq_nil_iff.mp h.symm
    rfl
  | cons w words =>
    obtain ⟨w', words', rfl, hw, hwords⟩ := List.map_eq_cons_iff.mp h.symm
    rw [gapped, gapped, List.map_cons, List.map_cons, hview.behind gap hw, hwords]

/-- The words of an expression keep their views. -/
theorem expressionWords_tokens (first afterDot : Bool) (row : List Token) :
    (expressionWords first afterDot (row.map r.token)).map view = (expressionWords first afterDot row).map view := by
  have hreplaced : ∀ afterDot (t : Token) word, isReplaced afterDot (r.token t) word = isReplaced afterDot t word := by
    intro afterDot t word
    unfold isReplaced
    rw [r.isIdent_token]
  have hgap : ∀ first (t : Token) kind text, view ⟨(if first = true then "" else (r.token t).gap).toList, kind, text⟩ =
      view ⟨(if first = true then "" else t.gap).toList, kind, text⟩ := by
    intro first t kind text
    cases first with
    | true => rfl
    | false => exact hview.gap t kind text
  fun_induction expressionWords first afterDot row with
  | case1 => rw [List.map_nil, expressionWords]
  | case2 first afterDot t rest gap hexports ih =>
    rw [List.map_cons, expressionWords, hreplaced, if_pos hexports]
    simp only [List.map_cons, ih, nameWord, hgap]
    rfl
  | case3 first afterDot t rest gap hexports hask ihOperand ihAfter =>
    rw [List.map_cons, expressionWords, hreplaced, hreplaced, if_neg hexports, if_pos hask, r.splitOperand_tokens]
    simp only [List.map_cons, List.map_append, ihOperand, ihAfter, nameWord, hgap]
    rfl
  | case4 first afterDot t rest gap hexports hask ih =>
    have hword : view ⟨(if first = true then "" else (r.token t).gap).toList, (r.token t).kind, (r.token t).text.toList⟩ =
        view ⟨gap, t.kind, t.text.toList⟩ := by
      cases first with
      | true => exact hview.bare (hview.word t)
      | false => exact hview.word t
    rw [List.map_cons, expressionWords, hreplaced, hreplaced, if_neg hexports, if_neg hask]
    simp only [List.map_cons, r.isSymbol_token, ih]
    exact congrArg (· :: _) hword

/-- The words inside of brackets keep their views. -/
theorem bracketedWords_tokens (gap : List Char) (row : List Token) :
    (bracketedWords gap (row.map r.token)).map view = (bracketedWords gap row).map view := by
  simp [bracketedWords, hview.expressionWords_tokens]

/-- The words of an assignment keep their views. -/
theorem assignmentWords_tokens (gap name : List Char) (row : List Token) :
    (assignmentWords gap name (row.map r.token)).map view = (assignmentWords gap name row).map view := by
  have hvalue : (gapped [' '] (expressionWords true false (row.map r.token) ++ [symbolWord [] ';'])).map view =
      (gapped [' '] (expressionWords true false row ++ [symbolWord [] ';'])).map view := by
    refine hview.gapped_words [' '] ?_
    rw [List.map_append, List.map_append, hview.expressionWords_tokens]
  unfold assignmentWords
  rw [List.map_cons, List.map_cons, List.map_cons, List.map_cons, hvalue]

/-- The words of a call to the host keep their views. -/
theorem hostCallWords_tokens (member : List Char) (row : List Token) :
    (hostCallWords member (row.map r.token)).map view = (hostCallWords member row).map view := by
  simp [hostCallWords, hview.expressionWords_tokens]

/-- A simple statement is written in the same way. -/
theorem simpleWords_statement (known : List String) {s : Statement} (h : s.Genuine) :
    (simpleWords known (r.statement s)).map view = (simpleWords known s).map view := by
  have hdescribes := h.describes
  have hinner : ∀ n, ((r.statement s).tokens.drop n).dropLast = (s.tokens.drop n).dropLast.map r.token := by
    intro n
    rw [statement, List.map_dropLast, List.map_drop]
  have hrule : (r.statement s).rule = s.rule := rfl
  unfold simpleWords
  rw [hrule]
  cases hkind : s.rule with
  | binding =>
    rw [hkind] at hdescribes
    obtain ⟨⟨name, equals, value, htokens, hname, -⟩, -⟩ := hdescribes
    have hhead : (r.statement s).tokens.head?.map Token.text = s.tokens.head?.map Token.text := by
      unfold statement
      rw [htokens]
      exact congrArg some (r.text_name hname)
    dsimp only
    rw [hhead, hinner]
    split
    · exact hview.assignmentWords_tokens _ _ _
    · rw [List.map_cons, List.map_cons, hview.assignmentWords_tokens]
  | say =>
    dsimp only
    rw [hinner]
    exact hview.hostCallWords_tokens _ _
  | ask =>
    dsimp only
    rw [hinner]
    exact hview.hostCallWords_tokens _ _
  | _ =>
    have hends : ((r.statement s).tokens.getLast?.any fun t => t.isSymbol ";") = s.tokens.getLast?.any fun t => t.isSymbol ";" :=
      r.endsIn_tokens s.tokens ";"
    have hfront : (r.statement s).tokens.dropLast = s.tokens.dropLast.map r.token := hinner 0
    dsimp only
    rw [hends, hfront]
    split
    · rw [List.map_append, List.map_append, hview.expressionWords_tokens]
    · exact hview.expressionWords_tokens true false s.tokens

/-- A header is written in the same way. -/
theorem openingWords_statement (alternate : Bool) {s : Statement} (h : s.Genuine) :
    (openingWords alternate (r.statement s)).map view = (openingWords alternate s).map view := by
  have hdescribes := h.describes
  have hrule : (r.statement s).rule = s.rule := rfl
  have hcond : conditionTokens (r.statement s) = (conditionTokens s).map r.token := by
    unfold conditionTokens statement
    dsimp only
    rw [← List.map_drop, ← List.map_dropLast, r.isBracketed_tokens]
    split
    · rw [← List.map_drop, ← List.map_dropLast]
    · rfl
  have hclose : ∀ words words' : List Word, words.map view = words'.map view →
      (if alternate then symbolWord [] '\x7d' :: gapped [' '] words else words).map view =
        (if alternate then symbolWord [] '\x7d' :: gapped [' '] words' else words').map view := by
    intro words words' hwords
    cases alternate with
    | false => exact hwords
    | true => exact congrArg (_ :: ·) (hview.gapped_words [' '] hwords)
  unfold openingWords
  rw [hrule, hcond]
  cases hkind : s.rule with
  | function =>
    rw [hkind] at hdescribes
    dsimp only
    rw [r.functionName_statement hdescribes.2.1, r.functionParams_statement]
    simp only [List.map_cons, hview.bracketedWords_tokens]
  | if_ => simp only [List.map_cons, hview.bracketedWords_tokens]
  | elif =>
    refine hclose _ _ ?_
    simp only [List.map_cons, hview.bracketedWords_tokens]
  | else_ => rfl
  | while_ => simp only [List.map_cons, hview.bracketedWords_tokens]
  | _ =>
    have hfront : (r.statement s).tokens.dropLast = s.tokens.dropLast.map r.token := by
      rw [statement, List.map_dropLast]
    dsimp only
    rw [hfront, List.map_append, List.map_append, hview.expressionWords_tokens]

/-- A line is written in the same way. -/
theorem words_form {form : Form} (h : form.Genuine) : (r.form form).words.map view = form.words.map view := by
  cases form with
  | simple known s => exact hview.simpleWords_statement known (h _ rfl).1
  | opening alternate header => exact hview.openingWords_statement alternate (h _ rfl).1
  | closing => rfl

/-- The words of recast lines keep their views. -/
theorem lineWords_emissions {lines : List Emission} (h : ∀ e ∈ lines, e.form.Genuine) :
    (lineWords (lines.map r.emission)).map view = (lineWords lines).map view := by
  induction lines with
  | nil => rfl
  | cons e lines ih =>
    obtain ⟨he, hlines⟩ := List.forall_mem_cons.mp h
    have hrest : (lineWords (lines.map r.emission)).map view = (lineWords lines).map view := ih hlines
    have hline : (r.emission e).words.map view = e.words.map view := hview.gapped_words _ (hview.words_form he)
    have happend : ∀ (e : Emission) (lines : List Emission), lineWords (e :: lines) = e.words ++ lineWords lines := fun _ _ => rfl
    rw [List.map_cons, happend, happend, List.map_append, List.map_append, hrest, hline]

end Hides

end Recast

end HostScript.Dialect
