import Mathlib
import HostScript.Proofs.Script.Consumed
import HostScript.Proofs.Token.Lossless

/-!
# The spans of a tree

`Module.trees` are the spans of all nodes of a script, each with those below it. A node that is written as a row of tokens reaches from the
first of them to the last, and its parts are written as rows of it, one after the other (`allPlaced_node`). So every node of a script that
is read stands at whole characters of the source, around the nodes below it, which do not overlap (`Module.ofSource_wellPlaced`).
-/

namespace HostScript

open Dialect.Indexed (slice slice_part)

/-! ## Offsets -/

/-- An offset stands between two characters of a text, or at an end of it. -/
def OnBoundary (contents : List Char) (offset : Nat) : Prop := ∃ front rest, contents = front ++ rest ∧ offset = byteLength front

/-- A boundary between two characters lies in the text. -/
theorem OnBoundary.le {contents : List Char} {offset : Nat} (h : OnBoundary contents offset) : offset ≤ byteLength contents := by
  obtain ⟨front, rest, rfl, rfl⟩ := h
  rw [byteLength_append]
  exact Nat.le_add_right _ _

/-- Bytes are counted as the library counts them. -/
theorem byteLength_eq_utf8Len (text : List Char) : byteLength text = String.utf8Len text := by
  induction text with
  | nil => rfl
  | cons c text ih => rw [byteLength_cons, String.utf8Len_cons, ih, Nat.add_comm]

/-- Between two offsets that stand between characters there is a slice, and it is the text of the span. -/
theorem Source.slice_span {source : Source} {span : Span} (hstart : OnBoundary source.text.toList span.start)
    (hstop : OnBoundary source.text.toList span.stop) (hle : span.start ≤ span.stop) :
    Dialect.Indexed.slice source.text.toList span.start span.stop = .ok (source.slice span) := by
  obtain ⟨front, rest, hfront, hstart⟩ := hstart
  obtain ⟨longer, rest', hlonger, hstop⟩ := hstop
  obtain ⟨part, rfl⟩ : ∃ part, longer = front ++ part := by
    rcases List.append_eq_append_iff.mp (hfront.symm.trans hlonger) with ⟨part, rfl, -⟩ | ⟨part, rfl, -⟩
    · exact ⟨part, rfl⟩
    · -- the other way around, nothing is between the two
      have hempty : part = [] := by
        by_contra hne
        have hpos := Lexer.byteLength_pos hne
        rw [byteLength_append] at hstart
        omega
      exact ⟨[], by rw [hempty, List.append_nil, List.append_nil]⟩
  rw [byteLength_append] at hstop
  have htext : source.text = String.ofList (front ++ part ++ rest') := by rw [← hlonger, String.ofList_toList]
  have hslice : source.slice span = String.ofList part := by
    unfold Source.slice
    rw [htext, hstart, hstop, byteLength_eq_utf8Len, byteLength_eq_utf8Len]
    exact String.extract_of_valid front part rest'
  rw [hslice]
  exact slice_part front rest' (by rw [hlonger, List.append_assoc]) hstart hstop

/-- A token begins in front of what it holds, or with it. -/
theorem Token.extentStart_le_start (t : Token) : t.extentStart ≤ t.span.start := by
  unfold Token.extentStart
  split
  · exact Nat.sub_le _ _
  · exact Nat.le_refl _

/-- A token ends behind what it holds, or with it. -/
theorem Token.stop_le_extentStop (t : Token) : t.span.stop ≤ t.extentStop := by
  unfold Token.extentStop
  split
  · exact Nat.le_succ _
  · exact Nat.le_refl _

namespace Script

/-! ## The order of tokens -/

/-- The tokens of a row do not overlap and stand in their order. -/
structure Ordered (row : List Token) : Prop where
  forward : ∀ t ∈ row, t.span.start ≤ t.span.stop
  increasing : row.Pairwise fun t u => t.span.stop ≤ u.span.start

/-- The tokens that are left of an ordered row are ordered. -/
theorem Ordered.sublist {row part : List Token} (h : Ordered row) (hpart : part.Sublist row) : Ordered part :=
  ⟨fun t ht => h.forward t (hpart.subset ht), h.increasing.sublist hpart⟩

/-- The tokens of a source start and stop between characters of it. -/
theorem scan_onBoundary {source : Source} {t : Token} (ht : t ∈ source.scan.tokens) :
    OnBoundary source.text.toList t.span.start ∧ OnBoundary source.text.toList t.span.stop ∧ t.span.start ≤ t.span.stop := by
  have hslice : slice source.text.toList t.span.start t.span.stop = .ok t.text := (Dialect.Indexed.records_scan source).text t ht
  obtain ⟨front, rest, htext, hstart, hstop⟩ := Dialect.Indexed.slice_ok hslice
  rw [hstart, hstop]
  exact ⟨⟨front, _, htext, rfl⟩, ⟨front ++ t.text.toList, rest, by rw [htext, List.append_assoc], (byteLength_append _ _).symm⟩,
    Nat.le_add_right _ _⟩

/-- The tokens of a source stand in their order. -/
theorem scan_ordered (source : Source) : Ordered source.scan.tokens := by
  obtain ⟨words, left, htext, hfits, htokens, -⟩ := Lexer.scanFrom_ok .origin source.text.toList
  have htokens : source.scan.tokens = Lexer.placed .origin words := htokens
  have horigin : Position.origin.offset = byteLength [] := rfl
  have hcovers := (Lexer.covers_words hfits [] htext horigin).1
  refine ⟨fun t ht => (scan_onBoundary ht).2.2, ?_⟩
  rw [htokens]
  exact hcovers.increasing.imp fun {t u} h => t.stop_le_extentStop.trans (h.trans u.extentStart_le_start)

/-! ## Trees of spans -/

/-- The span of a node and what stands right below it, in the order in which it is written. -/
structure SpanTree where
  node ::
  span : Span
  children : List SpanTree

namespace SpanTree

/-- A node of a tree: the topmost one, or a node of a tree below it. -/
inductive Has : SpanTree → SpanTree → Prop
  | top (tree : SpanTree) : Has tree tree
  | under {tree child node : SpanTree} (stands : child ∈ tree.children) (has : Has child node) : Has tree node

/-- A node stands in a source. It begins and stops between characters, so that it has a text; the nodes below it stand inside of it, one
behind the other; and it is reported at a token inside of it. -/
structure WellPlaced (source : Source) (node : SpanTree) : Prop where
  forward : node.span.start ≤ node.span.stop
  bounded : node.span.stop ≤ byteLength source.text.toList
  starts : OnBoundary source.text.toList node.span.start
  stops : OnBoundary source.text.toList node.span.stop
  text : slice source.text.toList node.span.start node.span.stop = .ok (source.slice node.span)
  within : ∀ child ∈ node.children, node.span.start ≤ child.span.start ∧ child.span.stop ≤ node.span.stop
  disjoint : node.children.Pairwise fun a b => a.span.stop ≤ b.span.start
  reported : ∃ t ∈ source.scan.tokens, node.span.start ≤ t.span.start ∧ t.span.stop ≤ node.span.stop ∧
    node.span.line = t.span.line ∧ node.span.column = t.span.column

end SpanTree

/-- The span of a name. -/
def Ident.tree (name : Ident) : SpanTree := .node name.span []

mutual

/-- The spans of an expression. -/
def Expr.tree : Expr → SpanTree
  | .null span | .bool span _ | .number span _ | .string span _ | .rawString span _ | .var span _ => .node span []
  | .array span items => .node span (Expr.trees items)
  | .object span fields => .node span (Expr.fieldTrees fields)
  | .call span callee args => .node span (callee.tree :: Expr.trees args)
  | .unary span _ operand => .node span [operand.tree]
  | .member span base field => .node span [base.tree, field.tree]
  | .index span base key => .node span [base.tree, key.tree]
  | .binary span _ left right => .node span [left.tree, right.tree]

/-- The spans of expressions. -/
def Expr.trees : List Expr → List SpanTree
  | [] => []
  | e :: rest => e.tree :: Expr.trees rest

/-- The spans of the fields of an object. -/
def Expr.fieldTrees : List (Span × Expr × Expr) → List SpanTree
  | [] => []
  | (span, key, value) :: rest => .node span [key.tree, value.tree] :: Expr.fieldTrees rest

end

mutual

/-- The spans of a statement. A block that stands as a statement is the node of the block. -/
def Stmt.tree : Stmt → SpanTree
  | .let_ span name value => .node span [name.tree, value.tree]
  | .assign span target value => .node span [target.tree, value.tree]
  | .function span name params body => .node span (name.tree :: params.map Ident.tree ++ [body.tree])
  | .if_ span cond body otherwise => .node span (cond.tree :: body.tree :: otherwise.trees)
  | .while_ span cond body => .node span [cond.tree, body.tree]
  | .return_ span value => .node span (value.toList.map Expr.tree)
  | .break_ span | .continue_ span => .node span []
  | .block body => body.tree
  | .expr span e => .node span [e.tree]

/-- The spans of a block. -/
def Block.tree : Block → SpanTree
  | .mk span stmts => .node span (Stmt.trees stmts)

/-- The spans of what follows the block of an `if`. -/
def Otherwise.trees : Otherwise → List SpanTree
  | .nothing => []
  | .block body => [body.tree]
  | .elseIf span cond body otherwise => [.node span (cond.tree :: body.tree :: otherwise.trees)]

/-- The spans of statements. -/
def Stmt.trees : List Stmt → List SpanTree
  | [] => []
  | s :: rest => s.tree :: Stmt.trees rest

end

/-- The spans of the import of the host. -/
def HostImport.tree (host : HostImport) : SpanTree := .node host.span [host.host.tree]

/-- The spans of a script, which has no node for all of it. -/
def Module.trees (m : Module) : List SpanTree := m.host.toList.map HostImport.tree ++ Stmt.trees m.stmts

/-- The trees of expressions, one for each. -/
theorem Expr.trees_eq_map (items : List Expr) : Expr.trees items = items.map Expr.tree := by
  induction items with
  | nil => rfl
  | cons e items ih => rw [Expr.trees, ih, List.map_cons]

/-- The trees of fields, one for each, with a key and a value below it. -/
theorem Expr.fieldTrees_eq_map (fields : List (Span × Expr × Expr)) :
    Expr.fieldTrees fields = fields.map fun field => .node field.1 [field.2.1.tree, field.2.2.tree] := by
  induction fields with
  | nil => rfl
  | cons field fields ih => rw [Expr.fieldTrees, ih, List.map_cons]

/-- The trees of statements, one for each. -/
theorem Stmt.trees_eq_map (stmts : List Stmt) : Stmt.trees stmts = stmts.map Stmt.tree := by
  induction stmts with
  | nil => rfl
  | cons s stmts ih => rw [Stmt.trees, ih, List.map_cons]

/-! ## Nodes and their rows -/

/-- A node stands in a row of tokens. It reaches from one of them to another and is reported at one between them; the nodes below it stand
inside of it, one behind the other. -/
structure SpanTree.PlacedIn (row : List Token) (node : SpanTree) : Prop where
  spans : ∃ first ∈ row, ∃ reported ∈ row, ∃ last ∈ row,
    node.span = ⟨reported.span.line, reported.span.column, first.span.start, last.span.stop⟩ ∧
      first.span.start ≤ reported.span.start ∧ reported.span.stop ≤ last.span.stop
  within : ∀ child ∈ node.children, node.span.start ≤ child.span.start ∧ child.span.stop ≤ node.span.stop
  disjoint : node.children.Pairwise fun a b => a.span.stop ≤ b.span.start

/-- All nodes of a tree stand in a row of tokens. -/
def SpanTree.AllPlaced (tree : SpanTree) (row : List Token) : Prop := ∀ node, tree.Has node → node.PlacedIn row

/-- Nodes that are placed by the tokens of a row are placed by those of a larger one. -/
theorem SpanTree.AllPlaced.mono {tree : SpanTree} {part row : List Token} (h : tree.AllPlaced part) (hpart : part ⊆ row) :
    tree.AllPlaced row := by
  intro node hnode
  obtain ⟨⟨first, hfirst, reported, hreported, last, hlast, hspan⟩, hwithin, hdisjoint⟩ := h node hnode
  exact ⟨⟨first, hpart hfirst, reported, hpart hreported, last, hpart hlast, hspan⟩, hwithin, hdisjoint⟩

/-- The first token of a row begins in front of all others. -/
theorem Ordered.firstSpan {row : List Token} (h : Ordered row) (hne : row ≠ []) :
    ∃ first ∈ row, firstSpan row = first.span ∧ ∀ t ∈ row, first.span.start ≤ t.span.start := by
  obtain ⟨first, rest, rfl⟩ := List.exists_cons_of_ne_nil hne
  refine ⟨first, List.mem_cons_self, rfl, List.forall_mem_cons.mpr ⟨Nat.le_refl _, fun t ht => ?_⟩⟩
  exact (h.forward first List.mem_cons_self).trans ((List.pairwise_cons.mp h.increasing).1 t ht)

/-- The last token of a row stops behind all others. -/
theorem Ordered.lastSpan {row : List Token} (h : Ordered row) (hne : row ≠ []) :
    ∃ last ∈ row, lastSpan row = last.span ∧ ∀ t ∈ row, t.span.stop ≤ last.span.stop := by
  obtain ⟨front, last, rfl⟩ := List.eq_nil_or_concat' row |>.resolve_left hne
  have hlast : last ∈ front ++ [last] := List.mem_append_right _ List.mem_cons_self
  refine ⟨last, hlast, by rw [Script.lastSpan, List.getLast?_concat]; rfl, fun t ht => ?_⟩
  rcases List.mem_append.mp ht with ht | ht
  · exact ((List.pairwise_append.mp h.increasing).2.2 t ht last List.mem_cons_self).trans (h.forward last hlast)
  · rw [List.mem_singleton.mp ht]

/-- A part of a tree and the row that it is written as. -/
structure Part where
  tree : SpanTree
  row : List Token

/-- If the tokens of a part stand in their order, all its nodes stand in them. -/
def Part.Placed (p : Part) : Prop := Ordered p.row → p.tree.AllPlaced p.row

section

variable {row : List Token} {parts : List Part}

/-- A part that is written as a row of a row reaches from one token of it to another. -/
theorem Part.Placed.ends {p : Part} (h : p.Placed) (hrow : Ordered p.row) :
    ∃ first ∈ p.row, ∃ last ∈ p.row, p.tree.span.start = first.span.start ∧ p.tree.span.stop = last.span.stop := by
  obtain ⟨first, hfirst, _, _, last, hlast, hspan, -⟩ := (h hrow _ (.top _)).spans
  rw [hspan]
  exact ⟨first, hfirst, last, hlast, rfl, rfl⟩

/-- Parts whose rows stand one after the other do not overlap. -/
theorem disjoint_of_parts (hrows : Ordered (parts.map Part.row).flatten) (hplaced : ∀ p ∈ parts, p.Placed) :
    (parts.map Part.tree).Pairwise fun a b => a.span.stop ≤ b.span.start := by
  have hordered : ∀ p ∈ parts, Ordered p.row := fun p hp => hrows.sublist (List.sublist_flatten_of_mem (List.mem_map_of_mem hp))
  have hbehind := List.pairwise_map.mp (List.pairwise_flatten.mp hrows.increasing).2
  rw [List.pairwise_map]
  refine hbehind.imp_of_mem fun {p q} hp hq hpq => ?_
  obtain ⟨_, _, last, hlast, -, hstop⟩ := (hplaced p hp).ends (hordered p hp)
  obtain ⟨first, hfirst, _, _, hstart, -⟩ := (hplaced q hq).ends (hordered q hq)
  rw [hstop, hstart]
  exact hpq last hlast first hfirst

/-- A node that is written as a row stands in it, if its parts are written as rows of it, one after the other. -/
theorem allPlaced_node (parts : List Part) (hrow : Ordered row) {reported : Token} (hreported : reported ∈ row)
    (hplaced : ∀ p ∈ parts, p.Placed) (hparts : (parts.map Part.row).flatten.Sublist row) :
    (SpanTree.node (spanAt reported.span row) (parts.map Part.tree)).AllPlaced row := by
  have hpart : ∀ p ∈ parts, p.row.Sublist row := fun p hp => (List.sublist_flatten_of_mem (List.mem_map_of_mem hp)).trans hparts
  have hordered : ∀ p ∈ parts, Ordered p.row := fun p hp => hrow.sublist (hpart p hp)
  obtain ⟨first, hfirst, hfirstSpan, hstarts⟩ := hrow.firstSpan (List.ne_nil_of_mem hreported)
  obtain ⟨last, hlast, hlastSpan, hstops⟩ := hrow.lastSpan (List.ne_nil_of_mem hreported)
  have hspan : spanAt reported.span row = ⟨reported.span.line, reported.span.column, first.span.start, last.span.stop⟩ := by
    rw [spanAt, hfirstSpan, hlastSpan]
  intro node hnode
  cases hnode with
  | top =>
    refine ⟨⟨first, hfirst, reported, hreported, last, hlast, hspan, hstarts _ hreported, hstops _ hreported⟩, ?_,
      disjoint_of_parts (hrow.sublist hparts) hplaced⟩
    rw [hspan]
    refine List.forall_mem_map.mpr fun p hp => ?_
    obtain ⟨first', hfirst', last', hlast', hstart, hstop⟩ := (hplaced p hp).ends (hordered p hp)
    rw [hstart, hstop]
    exact ⟨hstarts _ ((hpart p hp).subset hfirst'), hstops _ ((hpart p hp).subset hlast')⟩
  | under hchild hhas =>
    obtain ⟨p, hp, rfl⟩ := List.mem_map.mp hchild
    exact ((hplaced p hp) (hordered p hp)).mono (hpart p hp).subset node hhas

end

/-- A node that is reported at the first token of its row. -/
theorem allPlaced_whole {row : List Token} (parts : List Part) (hrow : Ordered row) (hne : row ≠ []) (hplaced : ∀ p ∈ parts, p.Placed)
    (hparts : (parts.map Part.row).flatten.Sublist row) :
    (SpanTree.node (wholeSpan row) (parts.map Part.tree)).AllPlaced row := by
  obtain ⟨first, hfirst, hspan, -⟩ := hrow.firstSpan hne
  rw [wholeSpan, hspan]
  exact allPlaced_node parts hrow hfirst hplaced hparts

/-! ## What is yielded is placed -/

/-- A name has the span of its token. -/
theorem name_span {token : Token} {name : Ident} (h : name? token = some name) : name.span = token.span := by
  unfold name? at h
  split at h
  · cases h
    rfl
  · nomatch h

/-- An expression of one token has its span and nothing below it. -/
theorem atom_tree {token : Token} {e : Expr} (h : atom? token = some e) : e.tree = .node token.span [] := by
  unfold atom? at h
  split at h
  case h_1 =>
    obtain ⟨n, -, rfl⟩ := Option.map_eq_some_iff.mp h
    rfl
  case h_2 =>
    obtain ⟨text, -, rfl⟩ := Option.map_eq_some_iff.mp h
    rfl
  case h_3 =>
    cases h
    rfl
  case h_4 =>
    split_ifs at h
    · cases h
      rfl
    · cases h
      rfl
    · cases h
      rfl
    · obtain ⟨name, hname, rfl⟩ := Option.map_eq_some_iff.mp h
      rw [Expr.tree, name_span hname]
  case h_5 => nomatch h

/-- An expression and its row. -/
def Expr.part (p : Expr × List Token) : Part := ⟨p.1.tree, p.2⟩

/-- A statement and its row. -/
def Stmt.part (p : Stmt × List Token) : Part := ⟨p.1.tree, p.2⟩

/-- A name and its token. -/
def Ident.part (p : Ident × Token) : Part := ⟨p.1.tree, [p.2]⟩

/-- A field of an object and its row. -/
def FieldPart.part (p : FieldPart) : Part := ⟨.node (wholeSpan p.row) [p.key.tree, p.value.tree], p.row⟩

/-- The trees of parameters are those of their parts. -/
theorem Ident.trees_parts (params : List (Ident × Token)) :
    (params.map Prod.fst).map Ident.tree = (params.map Ident.part).map Part.tree := by
  rw [List.map_map, List.map_map]
  rfl

/-- The trees of expressions are those of their parts. -/
theorem Expr.trees_parts (parts : List (Expr × List Token)) : Expr.trees (parts.map Prod.fst) = (parts.map Expr.part).map Part.tree := by
  rw [Expr.trees_eq_map, List.map_map, List.map_map]
  rfl

/-- The trees of fields are those of their parts. -/
theorem Expr.fieldTrees_parts (parts : List FieldPart) :
    Expr.fieldTrees (parts.map FieldPart.field) = (parts.map FieldPart.part).map Part.tree := by
  rw [Expr.fieldTrees_eq_map, List.map_map, List.map_map]
  rfl

/-- The trees of statements are those of their parts. -/
theorem Stmt.trees_parts (parts : List (Stmt × List Token)) : Stmt.trees (parts.map Prod.fst) = (parts.map Stmt.part).map Part.tree := by
  rw [Stmt.trees_eq_map, List.map_map, List.map_map]
  rfl

/-- What is a part of a row is a part of it between two tokens. -/
theorem sublist_between {part row : List Token} (h : part.Sublist row) (opening closing : Token) :
    part.Sublist (opening :: row ++ [closing]) :=
  (h.cons opening).trans (List.sublist_append_left _ _)

/-- What follows a condition is a part of what follows it in a row. -/
theorem sublist_condition (word opening closing : Token) (row : List Token) {more behind : List Token} (h : more.Sublist behind) :
    (row ++ more).Sublist (conditionRow word opening closing row ++ behind) :=
  ((sublist_between (List.Sublist.refl row) opening closing).cons word).append h

/-- A token that is a node by itself. -/
theorem placed_token (token : Token) : Part.Placed ⟨.node token.span [], [token]⟩ := fun hrow =>
  allPlaced_node [] hrow List.mem_cons_self (List.forall_mem_nil _) (List.nil_sublist _)

/-- A name is placed by its token. -/
theorem placed_name {token : Token} {name : Ident} (h : name? token = some name) : Part.Placed ⟨name.tree, [token]⟩ := by
  rw [Ident.tree, name_span h]
  exact placed_token token

/-- A field is placed if its value is, and its key unless that is a bare name. -/
theorem FieldPart.placed {p : FieldPart} (hkey : ¬p.IsBare → Part.Placed ⟨p.key.tree, p.keyRow⟩)
    (hvalue : Part.Placed ⟨p.value.tree, p.valueRow⟩) : p.part.Placed := by
  have hkey : Part.Placed ⟨p.key.tree, p.keyRow⟩ := by
    by_cases hbare : p.IsBare
    · obtain ⟨token, name, hrow, hname, hkey⟩ := hbare
      rw [hrow, hkey]
      exact placed_name hname
    · exact hkey hbare
  intro hrow
  refine allPlaced_whole [⟨p.key.tree, p.keyRow⟩, ⟨p.value.tree, p.valueRow⟩] hrow (by simp [row]) ?_ ?_
  · simpa using ⟨hkey, hvalue⟩
  · simp [row]

/-- The nodes of an expression stand in the row that it is written as. -/
theorem Expr.Yields.placed {e : Expr} {row : List Token} (h : e.Yields row) : Part.Placed ⟨e.tree, row⟩ := by
  induction h with
  | @atom token e read =>
    rw [atom_tree read]
    exact placed_token token
  | @array opening closing parts row opens items listed closes ih =>
    intro hrow
    rw [Expr.tree, Expr.trees_parts]
    refine allPlaced_whole _ hrow (List.cons_ne_nil _ _) (List.forall_mem_map.mpr ih) ?_
    rw [List.map_map]
    exact sublist_between listed.sublist _ _
  | @object opening closing parts row opens keys colons values listed closes ihKeys ihValues =>
    intro hrow
    rw [Expr.tree, Expr.fieldTrees_parts]
    refine allPlaced_whole _ hrow (List.cons_ne_nil _ _)
      (List.forall_mem_map.mpr fun p hp => FieldPart.placed (ihKeys p hp) (ihValues p hp)) ?_
    rw [List.map_map]
    exact sublist_between listed.sublist _ _
  | @call opening closing callee calleeRow row parts called opens args separated closes ihCallee ih =>
    intro hrow
    rw [Expr.tree, Expr.trees_parts]
    refine allPlaced_node (⟨callee.tree, calleeRow⟩ :: parts.map Expr.part) hrow
      (List.mem_append_right _ List.mem_cons_self) (List.forall_mem_cons.mpr ⟨ihCallee, List.forall_mem_map.mpr ih⟩) ?_
    rw [List.map_cons, List.flatten_cons, List.map_map]
    exact (List.Sublist.refl _).append (sublist_between separated.sublist _ _)
  | @unary token op operand row operator operated ih =>
    intro hrow
    refine allPlaced_whole [⟨operand.tree, row⟩] hrow (List.cons_ne_nil _ _) (List.forall_mem_singleton.mpr ih) ?_
    simp
  | @member dot token base baseRow field based dotted named ih =>
    intro hrow
    refine allPlaced_node [⟨base.tree, baseRow⟩, ⟨field.tree, [token]⟩] hrow (by simp) ?_ ?_
    · simpa using ⟨ih, placed_name named⟩
    · simp
  | @index opening closing base key baseRow row based opens keyed closes ihBase ih =>
    intro hrow
    refine allPlaced_node [⟨base.tree, baseRow⟩, ⟨key.tree, row⟩] hrow (by simp) ?_ ?_
    · simpa using ⟨ihBase, ih⟩
    · simp
  | @binary token op left right leftRow rightRow first operator second ihLeft ihRight =>
    intro hrow
    refine allPlaced_node [⟨left.tree, leftRow⟩, ⟨right.tree, rightRow⟩] hrow (by simp) ?_ ?_
    · simpa using ⟨ihLeft, ihRight⟩
    · simp
  | @bracketed opening closing e row opens inner closes ih =>
    intro hrow
    have hinner := sublist_between (List.Sublist.refl row) opening closing
    exact (ih (hrow.sublist hinner)).mono hinner.subset

/-- The nodes of a statement stand in the row that it is written as. -/
theorem Stmt.Yields.placed {s : Stmt} {row : List Token} (h : s.Yields row) : Part.Placed ⟨s.tree, row⟩ := by
  -- Every case lists what stands below the node, each part with its row. The parts are placed, and their rows follow each other.
  induction h with
  | @let_ word token equals closing name value row begins named assigns valued closes =>
    intro hrow
    refine allPlaced_whole [⟨name.tree, [token]⟩, ⟨value.tree, row⟩] hrow (List.cons_ne_nil _ _) ?_ ?_
    · simpa using ⟨placed_name named, valued.placed⟩
    · simpa using ((sublist_between (List.Sublist.refl row) equals closing).cons_cons token).cons word
  | @assign equals closing target value targetRow row targeted assigns valued closes =>
    intro hrow
    refine allPlaced_whole [⟨target.tree, targetRow⟩, ⟨value.tree, row⟩] hrow (by simp) ?_ ?_
    · simpa using ⟨targeted.placed, valued.placed⟩
    · simp
  | @function word token opening closing name params row bodyRow body begins named opens listed separated closes bodied ih =>
    intro hrow
    have hparts : name.tree :: (params.map Prod.fst).map Ident.tree ++ [body.tree] =
        ([⟨name.tree, [token]⟩] ++ params.map Ident.part ++ [⟨body.tree, bodyRow⟩] : List Part).map Part.tree := by
      rw [List.map_append, List.map_append, Ident.trees_parts]
      rfl
    rw [Stmt.tree, hparts]
    refine allPlaced_whole _ hrow (List.cons_ne_nil _ _) ?_ ?_
    · have hparams : ∀ p ∈ params.map Ident.part, p.Placed := List.forall_mem_map.mpr fun p hp => placed_name (listed p hp)
      exact List.forall_mem_append.mpr ⟨List.forall_mem_append.mpr ⟨List.forall_mem_singleton.mpr (placed_name named), hparams⟩,
        List.forall_mem_singleton.mpr ih⟩
    · have hlisted : (params.map fun p => [p.2]).flatten.Sublist row := separated.sublist
      have hbehind : ((params.map fun p => [p.2]).flatten ++ bodyRow).Sublist (row ++ closing :: bodyRow) :=
        hlisted.append (List.sublist_cons_self _ _)
      have hrows : (params.map Ident.part).map Part.row = params.map fun p => [p.2] := List.map_map
      rw [List.map_append, List.map_append, hrows, List.flatten_append, List.flatten_append]
      simpa using ((hbehind.cons opening).cons_cons token).cons word
  | @if_ word opening closing cond row bodyRow body begins opens asked closes bodied ih =>
    intro hrow
    refine allPlaced_whole [⟨cond.tree, row⟩, ⟨body.tree, bodyRow⟩] hrow (List.cons_ne_nil _ _) ?_ ?_
    · simpa using ⟨asked.placed, ih⟩
    · simpa using sublist_condition word opening closing row (List.Sublist.refl bodyRow)
  | @ifElse word opening closing orElse cond row bodyRow elseRow body alternate begins opens asked closes bodied goesOn alternative ihBody
      ih =>
    intro hrow
    refine allPlaced_whole [⟨cond.tree, row⟩, ⟨body.tree, bodyRow⟩, ⟨alternate.tree, elseRow⟩] hrow (List.cons_ne_nil _ _) ?_ ?_
    · simpa using ⟨asked.placed, ihBody, ih⟩
    · have helse : (bodyRow ++ elseRow).Sublist (bodyRow ++ orElse :: elseRow) := by simp
      simpa using sublist_condition word opening closing row helse
  | @ifElseIf word opening closing orElse cond cond' row bodyRow elseRow body body' span otherwise begins opens asked closes bodied goesOn
      alternative ihBody ih =>
    intro hrow
    refine allPlaced_whole [⟨cond.tree, row⟩, ⟨body.tree, bodyRow⟩, ⟨(Stmt.if_ span cond' body' otherwise).tree, elseRow⟩] hrow
      (List.cons_ne_nil _ _) ?_ ?_
    · simpa using ⟨asked.placed, ihBody, ih⟩
    · have helse : (bodyRow ++ elseRow).Sublist (bodyRow ++ orElse :: elseRow) := by simp
      simpa using sublist_condition word opening closing row helse
  | @while_ word opening closing cond row bodyRow body begins opens asked closes bodied ih =>
    intro hrow
    refine allPlaced_whole [⟨cond.tree, row⟩, ⟨body.tree, bodyRow⟩] hrow (List.cons_ne_nil _ _) ?_ ?_
    · simpa using ⟨asked.placed, ih⟩
    · simpa using sublist_condition word opening closing row (List.Sublist.refl bodyRow)
  | @return_ word closing value row begins valued closes =>
    intro hrow
    refine allPlaced_whole [⟨value.tree, row⟩] hrow (List.cons_ne_nil _ _) (List.forall_mem_singleton.mpr valued.placed) ?_
    simp
  | returnNothing begins closes =>
    exact fun hrow => allPlaced_whole [] hrow (List.cons_ne_nil _ _) (List.forall_mem_nil _) (List.nil_sublist _)
  | break_ begins closes =>
    exact fun hrow => allPlaced_whole [] hrow (List.cons_ne_nil _ _) (List.forall_mem_nil _) (List.nil_sublist _)
  | continue_ begins closes =>
    exact fun hrow => allPlaced_whole [] hrow (List.cons_ne_nil _ _) (List.forall_mem_nil _) (List.nil_sublist _)
  | @block opening closing parts opens stmts closes ih =>
    intro hrow
    rw [Stmt.tree, Block.tree, Stmt.trees_parts]
    refine allPlaced_whole _ hrow (List.cons_ne_nil _ _) (List.forall_mem_map.mpr ih) ?_
    rw [List.map_map]
    exact sublist_between (List.Sublist.refl _) _ _
  | @expr closing e row expressed closes =>
    intro hrow
    refine allPlaced_whole [⟨e.tree, row⟩] hrow (by simp) (List.forall_mem_singleton.mpr expressed.placed) ?_
    simp

/-- The import of the host is placed by the row that it is written as. -/
theorem HostImport.Yields.placed {host : HostImport} {row : List Token} (h : host.Yields row) : Part.Placed ⟨host.tree, row⟩ := by
  cases h with
  | @mk use host as_ token closing name begins imports renames named closes =>
    intro hrow
    refine allPlaced_whole [⟨name.tree, [token]⟩] hrow (List.cons_ne_nil _ _) (List.forall_mem_singleton.mpr (placed_name named)) ?_
    simp

/-- A script is made of parts that are written one after the other. -/
theorem Module.Yields.parts {m : Module} {row : List Token} (h : m.Yields row) :
    ∃ parts : List Part, m.trees = parts.map Part.tree ∧ row = (parts.map Part.row).flatten ∧ ∀ p ∈ parts, p.Placed := by
  cases h with
  | @plain parts stmts =>
    refine ⟨parts.map Stmt.part, Stmt.trees_parts parts, by rw [List.map_map]; rfl, ?_⟩
    exact List.forall_mem_map.mpr fun p hp => (stmts p hp).placed
  | @hosted host row parts imported stmts =>
    refine ⟨⟨host.tree, row⟩ :: parts.map Stmt.part, ?_, ?_, ?_⟩
    · rw [List.map_cons, ← Stmt.trees_parts]
      rfl
    · rw [List.map_cons, List.flatten_cons, List.map_map]
      rfl
    · exact List.forall_mem_cons.mpr ⟨imported.placed, List.forall_mem_map.mpr fun p hp => (stmts p hp).placed⟩

/-- A node that stands in the tokens of a source stands in the source. -/
theorem SpanTree.PlacedIn.wellPlaced {source : Source} {node : SpanTree} (h : node.PlacedIn source.scan.tokens) :
    node.WellPlaced source := by
  obtain ⟨⟨first, hfirst, reported, hreported, last, hlast, hspan, hstart, hstop⟩, hwithin, hdisjoint⟩ := h
  obtain ⟨hstarts, -⟩ := scan_onBoundary hfirst
  obtain ⟨-, hstops, -⟩ := scan_onBoundary hlast
  obtain ⟨-, -, hforward⟩ := scan_onBoundary hreported
  have hstarts : OnBoundary source.text.toList node.span.start := by rwa [hspan]
  have hstops : OnBoundary source.text.toList node.span.stop := by rwa [hspan]
  have hforward : node.span.start ≤ node.span.stop := by
    rw [hspan]
    exact hstart.trans (hforward.trans hstop)
  refine ⟨hforward, hstops.le, hstarts, hstops, Source.slice_span hstarts hstops hforward, hwithin, hdisjoint, reported, hreported, ?_⟩
  rw [hspan]
  exact ⟨hstart, hstop, rfl, rfl⟩

/-- The spans of a source that is accepted as a script are well formed: every node has a text of the source, stands around the nodes below
it, which do not overlap and are in their order, and is reported at a token of it. -/
theorem Module.ofSource_wellPlaced {source : Source} {m : Module} (h : Module.ofSource source = .ok m) :
    (∀ tree ∈ m.trees, ∀ node, tree.Has node → node.WellPlaced source) ∧
      m.trees.Pairwise fun a b => a.span.stop ≤ b.span.start := by
  obtain ⟨parts, htrees, htokens, hplaced⟩ := (Module.ofSource_yields h).parts
  have hordered : Ordered (parts.map Part.row).flatten := htokens ▸ scan_ordered source
  rw [htrees]
  refine ⟨List.forall_mem_map.mpr fun p hp node hnode => ?_, disjoint_of_parts hordered hplaced⟩
  have hpart : p.row.Sublist (parts.map Part.row).flatten := List.sublist_flatten_of_mem (List.mem_map_of_mem hp)
  have hin := (hplaced p hp (hordered.sublist hpart)).mono hpart.subset node hnode
  rw [← htokens] at hin
  exact hin.wellPlaced

set_option maxRecDepth 2048 in
/-- A call behind a comment. Its argument begins at a bracket of which the tree has no node. -/
theorem Module.ofSource_wellPlaced_bracketed : ∃ m, Module.ofSource ⟨"case", "#é\nf((-a).b);"⟩ = .ok m ∧
    (∀ tree ∈ m.trees, ∀ node, tree.Has node → node.WellPlaced ⟨"case", "#é\nf((-a).b);"⟩) ∧
      m.trees = [.node ⟨2, 1, 4, 14⟩ [.node ⟨2, 2, 4, 13⟩ [.node ⟨2, 1, 4, 5⟩ [],
        .node ⟨2, 7, 6, 12⟩ [.node ⟨2, 4, 7, 9⟩ [.node ⟨2, 5, 8, 9⟩ []], .node ⟨2, 8, 11, 12⟩ []]]]] := by
  have hparses : (Module.ofSource ⟨"case", "#é\nf((-a).b);"⟩).toOption.isSome := by decide +kernel
  cases h : Module.ofSource ⟨"case", "#é\nf((-a).b);"⟩ with
  | error fault =>
    rw [h] at hparses
    contradiction
  | ok m =>
    have htrees : (Module.ofSource ⟨"case", "#é\nf((-a).b);"⟩).toOption.map Module.trees = some m.trees := by rw [h]; rfl
    exact ⟨m, rfl, (Module.ofSource_wellPlaced h).1, Option.some.inj (htrees.symm.trans (by cbv))⟩

end Script

end HostScript
