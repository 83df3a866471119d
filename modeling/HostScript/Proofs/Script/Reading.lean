import Mathlib
import HostScript.Proofs.Script.Cursor

/-!
# Expressions that are read

Whatever a reader of expressions accepts is a phrase of the grammar, with the tree that it gives and the row that it leaves, and the tree
yields the tokens that it goes on over, with their spans (`ReadBehind`, `Parser.expr_reads`). Each reader has one specification, which says
both; the induction is on the fuel.
-/

namespace HostScript.Script.Parser

variable {α β : Type} {cursor between next : Cursor} {row more : List Token}

/-! ## What is read -/

/-- Behind a row that has been read, a phrase is read: the reader goes on over its tokens, and the tree yields the tokens of both. -/
def ReadBehind (front : List Token) (phrase : Phrase) (cursor : Cursor) (e : Expr) (next : Cursor) : Prop :=
  ∃ row, Takes cursor row next ∧ e.Yields (front ++ row) ∧ Reads phrase cursor.rest e next.rest

/-- Expressions with the rows that they yield. -/
structure ReadItems (items : List Expr) (parts : List (Expr × List Token)) : Prop where
  items : items = parts.map Prod.fst
  yields : ∀ p ∈ parts, p.1.Yields p.2

/-- A first item. -/
theorem ReadItems.single {e : Expr} (he : e.Yields row) : ReadItems [e].reverse [(e, row)] := ⟨rfl, List.forall_mem_singleton.mpr he⟩

/-- An item behind others. -/
theorem ReadItems.concat {items : List Expr} {parts : List (Expr × List Token)} (h : ReadItems items parts) {e : Expr}
    (he : e.Yields row) : ReadItems (items ++ [e]) (parts ++ [(e, row)]) where
  items := by rw [h.items, List.map_append]; rfl
  yields := List.forall_mem_append.mpr ⟨h.yields, List.forall_mem_singleton.mpr he⟩

/-- Fields of an object with the rows that they yield. -/
structure ReadFields (fields : List (Span × Expr × Expr)) (parts : List FieldPart) : Prop where
  fields : fields = parts.map FieldPart.field
  keys : ∀ p ∈ parts, ¬p.IsBare → p.key.Yields p.keyRow
  colons : ∀ p ∈ parts, p.colon.isSymbol ":"
  values : ∀ p ∈ parts, p.value.Yields p.valueRow

/-- No field has been read. -/
theorem ReadFields.nil : ReadFields [].reverse [] := ⟨rfl, List.forall_mem_nil _, List.forall_mem_nil _, List.forall_mem_nil _⟩

/-- A field behind others. -/
theorem ReadFields.concat {fields : List (Span × Expr × Expr)} {parts : List FieldPart} (h : ReadFields fields parts) {p : FieldPart}
    (hkey : ¬p.IsBare → p.key.Yields p.keyRow) (hcolon : p.colon.isSymbol ":") (hvalue : p.value.Yields p.valueRow) :
    ReadFields (fields ++ [p.field]) (parts ++ [p]) where
  fields := by rw [h.fields, List.map_append]; rfl
  keys := List.forall_mem_append.mpr ⟨h.keys, List.forall_mem_singleton.mpr hkey⟩
  colons := List.forall_mem_append.mpr ⟨h.colons, List.forall_mem_singleton.mpr hcolon⟩
  values := List.forall_mem_append.mpr ⟨h.values, List.forall_mem_singleton.mpr hvalue⟩

/-- A key is read: it yields the tokens that the reader goes on over, or is the string for which one of them, a name, stands. -/
structure ReadKey (cursor : Cursor) (key : Expr) (keyRow : List Token) (next : Cursor) : Prop where
  takes : Takes cursor keyRow next
  filled : keyRow ≠ []
  reads : Reads .key cursor.rest key next.rest
  written : key.Yields keyRow ∨ ∃ token name, keyRow = [token] ∧ name? token = some name ∧ key = .string name.span name.name

/-- Behind some items of an array, which are written as a row, others are read, up to a closing bracket. -/
def ReadMoreItems (parts : List (Expr × List Token)) (row : List Token) (cursor : Cursor) (items : List Expr) (next : Cursor) : Prop :=
  ∃ others more, Takes cursor more next ∧ ReadItems items (parts ++ others) ∧ Listed ((parts ++ others).map Prod.snd) (row ++ more) ∧
    ∀ closing rest span, next.rest = closing :: rest → closing.spelling = "]" →
      Reads .items cursor.rest (.array span (others.map Prod.fst)) rest

/-- Behind some fields of an object others are read, up to a closing brace. -/
def ReadMoreFields (parts : List FieldPart) (row : List Token) (cursor : Cursor) (fields : List (Span × Expr × Expr)) (next : Cursor) :
    Prop :=
  ∃ others more, Takes cursor more next ∧ ReadFields fields (parts ++ others) ∧ Listed ((parts ++ others).map FieldPart.row) (row ++ more) ∧
    ∀ closing rest span, next.rest = closing :: rest → closing.spelling = "\x7d" →
      Reads .fields cursor.rest (.object span (others.map FieldPart.field)) rest

/-- Behind some arguments of a call others are read, up to a closing bracket. -/
def ReadMoreArgs (parts : List (Expr × List Token)) (row : List Token) (cursor : Cursor) (args : List Expr) (next : Cursor) : Prop :=
  ∃ others more, Takes cursor more next ∧ ReadItems args (parts ++ others) ∧ Separated ((parts ++ others).map Prod.snd) (row ++ more) ∧
    ∀ callee closing rest span, next.rest = closing :: rest → closing.spelling = ")" →
      Reads (.args callee) cursor.rest (.call span callee (others.map Prod.fst)) rest

/-! ## The specifications -/

/-- What the readers of expressions accept with the given fuel. -/
structure ReadsExpressions (fuel : Nat) : Prop where
  binary {level : Nat} {cursor next : Cursor} {e : Expr} (hlexed : Lexed cursor.rest) (h : binary fuel level cursor = .ok (e, next)) :
    ReadBehind [] (.level level) cursor e next
  operators {level : Nat} {left e : Expr} {front : List Token} {cursor next : Cursor} (hlexed : Lexed cursor.rest)
    (hleft : left.Yields front) (h : operators fuel level (firstSpan front).start left cursor = .ok (e, next)) :
    ReadBehind front (.operators level left) cursor e next
  unary {cursor next : Cursor} {e : Expr} (hlexed : Lexed cursor.rest) (h : unary fuel cursor = .ok (e, next)) :
    ReadBehind [] .unary cursor e next
  primary {cursor next : Cursor} {e : Expr} (hlexed : Lexed cursor.rest) (h : primary fuel cursor = .ok (e, next)) :
    ReadBehind [] .primary cursor e next
  moreItems {seen items : List Expr} {row : List Token} {cursor next : Cursor} {parts : List (Expr × List Token)}
    (hlexed : Lexed cursor.rest) (hseen : ReadItems seen.reverse parts) (hfilled : parts ≠ [])
    (hrow : Separated (parts.map Prod.snd) row) (h : moreItems fuel seen cursor = .ok (items, next)) :
    ReadMoreItems parts row cursor items next
  moreFields {seen fields : List (Span × Expr × Expr)} {row : List Token} {cursor next : Cursor} {parts : List FieldPart}
    (hlexed : Lexed cursor.rest) (hseen : ReadFields seen.reverse parts) (hrow : Listed (parts.map FieldPart.row) row)
    (hopen : ∀ last, Separated (parts.map FieldPart.row ++ [last]) (row ++ last))
    (h : moreFields fuel seen cursor = .ok (fields, next)) :
    ReadMoreFields parts row cursor fields next
  suffixes {base e : Expr} {front : List Token} {cursor next : Cursor} (hlexed : Lexed cursor.rest) (hbase : base.Yields front)
    (h : suffixes fuel (firstSpan front).start base cursor = .ok (e, next)) : ReadBehind front (.suffixes base) cursor e next
  moreArgs {seen args : List Expr} {row : List Token} {cursor next : Cursor} {parts : List (Expr × List Token)}
    (hlexed : Lexed cursor.rest) (hseen : ReadItems seen.reverse parts) (hfilled : parts ≠ [])
    (hrow : Separated (parts.map Prod.snd) row) (h : moreArgs fuel seen cursor = .ok (args, next)) :
    ReadMoreArgs parts row cursor args next

variable {fuel : Nat}

/-! ## Operators -/

/-- Operands of the next level joined by operators of this one. -/
theorem binary_reads (ih : ReadsExpressions fuel) {level : Nat} {e : Expr} (hlexed : Lexed cursor.rest)
    (h : binary (fuel + 1) level cursor = .ok (e, next)) : ReadBehind [] (.level level) cursor e next := by
  rw [binary, ite_run] at h
  split at h
  · obtain ⟨row, htakes, hyields, hreads⟩ := ih.unary hlexed h
    exact ⟨row, htakes, hyields, .operand ‹_› hreads⟩
  · rw [span_bind] at h
    obtain ⟨left, between, hleft, h⟩ := bind_ok h
    obtain ⟨leftRow, hleft, hyields, hoperand⟩ := ih.binary hlexed hleft
    rw [hleft.currentSpan hyields.ne_nil] at h
    obtain ⟨row, hmore, hyields, hreads⟩ := ih.operators (hleft.lexed hlexed) hyields h
    exact ⟨leftRow ++ row, hleft.trans hmore, hyields, .level (Nat.not_lt.mp ‹_›) hoperand hreads⟩

/-- Operators of a level and their right operands, behind a left operand. -/
theorem operators_reads (ih : ReadsExpressions fuel) {level : Nat} {left e : Expr} {front : List Token} (hlexed : Lexed cursor.rest)
    (hleft : left.Yields front) (h : operators (fuel + 1) level (firstSpan front).start left cursor = .ok (e, next)) :
    ReadBehind front (.operators level left) cursor e next := by
  rw [operators, text_bind] at h
  cases hop : operator? level (spelling cursor.rest) with
  | none =>
    rw [hop] at h
    obtain ⟨rfl, rfl⟩ := Prod.mk.inj (Except.ok.inj h)
    exact ⟨[], .refl cursor, by rwa [List.append_nil], .operatorsDone hop⟩
  | some op =>
    rw [hop] at h
    dsimp only at h
    rw [span_bind] at h
    obtain ⟨token, afterOp, hoperator, hpassed, h⟩ := spelling_takes hlexed (operator?_eq_some hop).2 (beginsAsSymbol_operator op) h
    obtain ⟨right, between, hright, h⟩ := bind_ok h
    obtain ⟨rightRow, hright, hyields, hoperand⟩ := ih.binary (hpassed.lexed hlexed) hright
    have htakes : Takes cursor (token :: rightRow) between := hpassed.trans hright
    rw [cover_bind, htakes.behind (List.cons_ne_nil _ _) hleft.ne_nil, ← firstSpan_append hleft.ne_nil (token :: rightRow)] at h
    obtain ⟨row, hmore, hyields, hreads⟩ := ih.operators (htakes.lexed hlexed) (.binary hleft hoperator hyields) h
    rw [hpassed.rest] at hop
    refine ⟨token :: rightRow ++ row, htakes.trans hmore, by rwa [← List.append_assoc], ?_⟩
    rw [hpassed.rest]
    exact .operatorsMore hop hoperand hreads

/-- A unary operator with its operand. -/
theorem applied_reads (op : UnaryOp) {operand : Parser Expr} {e : Expr} (hlexed : Lexed cursor.rest)
    (hat : Script.atSymbol op.symbol cursor.rest)
    (ih : ∀ {cursor next e}, Lexed cursor.rest → operand cursor = .ok (e, next) → ReadBehind [] .unary cursor e next)
    (h : applied op operand cursor = .ok (e, next)) : ReadBehind [] .unary cursor e next := by
  unfold applied at h
  rw [span_bind] at h
  obtain ⟨token, afterOp, hoperator, hpassed, h⟩ := atSymbol_takes hat h
  obtain ⟨inner, between, hoperand, h⟩ := bind_ok h
  obtain ⟨row, hoperand, hyields, hreads⟩ := ih (hpassed.lexed hlexed) hoperand
  obtain ⟨rfl, rfl⟩ := Prod.mk.inj (Except.ok.inj h)
  have htakes : Takes cursor (token :: row) between := hpassed.trans hoperand
  rw [htakes.whole (List.cons_ne_nil _ _)]
  refine ⟨token :: row, htakes, .unary hoperator hyields, ?_⟩
  rw [hpassed.rest]
  exact .prefixed (unaryOp?_symbol hoperator) hreads

/-- Unary operators in front of an expression with its suffixes. -/
theorem unary_reads (ih : ReadsExpressions fuel) {e : Expr} (hlexed : Lexed cursor.rest)
    (h : unary (fuel + 1) cursor = .ok (e, next)) : ReadBehind [] .unary cursor e next := by
  rw [unary, span_bind] at h
  rcases atSymbol_cases h with ⟨hat, h⟩ | ⟨hminus, h⟩
  · exact applied_reads .neg hlexed hat ih.unary h
  rcases atSymbol_cases h with ⟨hat, h⟩ | ⟨hbang, h⟩
  · exact applied_reads .not hlexed hat ih.unary h
  · obtain ⟨base, between, hbase, h⟩ := bind_ok h
    obtain ⟨baseRow, hbase, hyields, hprimary⟩ := ih.primary hlexed hbase
    rw [hbase.currentSpan hyields.ne_nil] at h
    obtain ⟨row, hmore, hyields, hreads⟩ := ih.suffixes (hbase.lexed hlexed) hyields h
    have hbare : cursor.rest.head?.bind unaryOp? = none := by
      cases hc : cursor.rest with
      | nil => rfl
      | cons token rest =>
        rw [hc] at hminus hbang
        exact (if_neg hminus).trans (if_neg hbang)
    exact ⟨baseRow ++ row, hbase.trans hmore, hyields, .suffixed hbare hprimary hreads⟩

/-! ## Lists in brackets -/

/-- The items of an array, behind its opening bracket. -/
theorem items_read (ih : ReadsExpressions fuel) {items : List Expr} (hlexed : Lexed cursor.rest)
    (h : upTo "]" (binary fuel 0) (moreItems fuel) cursor = .ok (items, next)) :
    ∃ parts row, Takes cursor row next ∧ ReadItems items parts ∧ Listed (parts.map Prod.snd) row ∧
      ∀ opening closing rest span, opening.isSymbol "[" → next.rest = closing :: rest → closing.spelling = "]" →
        Reads .primary (opening :: cursor.rest) (.array span items) rest := by
  obtain ⟨-, rfl, rfl⟩ | ⟨hfilled, first, between, hfirst, h⟩ := upTo_cases h
  · refine ⟨[], [], .refl _, ⟨rfl, List.forall_mem_nil _⟩, .plain .nil, fun opening closing rest span hopens hnext hcloses => ?_⟩
    rw [hnext]
    exact .arrayEmpty hopens hcloses
  · obtain ⟨firstRow, hfirst, hyields, hitem⟩ := ih.binary hlexed hfirst
    obtain ⟨others, row, hmore, hitems, hlisted, hreads⟩ := ih.moreItems (hfirst.lexed hlexed) (.single hyields)
      (List.cons_ne_nil _ _) (.single firstRow) h
    refine ⟨(first, firstRow) :: others, firstRow ++ row, hfirst.trans hmore, hitems, hlisted, ?_⟩
    intro opening closing rest span hopens hnext hcloses
    rw [hitems.items]
    exact .array hopens hfilled hitem (hreads closing rest span hnext hcloses)

/-- The arguments of a call, behind its opening bracket. -/
theorem args_read (ih : ReadsExpressions fuel) {args : List Expr} (hlexed : Lexed cursor.rest)
    (h : upTo ")" (binary fuel 0) (moreArgs fuel) cursor = .ok (args, next)) :
    ∃ parts row, Takes cursor row next ∧ ReadItems args parts ∧ Separated (parts.map Prod.snd) row ∧
      ∀ base e opening closing rest after span, opening.isSymbol "(" → next.rest = closing :: rest → closing.spelling = ")" →
        Reads (.suffixes (.call span base args)) rest e after → Reads (.suffixes base) (opening :: cursor.rest) e after := by
  obtain ⟨-, rfl, rfl⟩ | ⟨hfilled, first, between, hfirst, h⟩ := upTo_cases h
  · refine ⟨[], [], .refl _, ⟨rfl, List.forall_mem_nil _⟩, .nil, fun base e opening closing rest after span hopens hnext hcloses => ?_⟩
    rw [hnext]
    exact .callEmpty hopens hcloses
  · obtain ⟨firstRow, hfirst, hyields, harg⟩ := ih.binary hlexed hfirst
    obtain ⟨others, row, hmore, hargs, hseparated, hreads⟩ := ih.moreArgs (hfirst.lexed hlexed) (.single hyields)
      (List.cons_ne_nil _ _) (.single firstRow) h
    refine ⟨(first, firstRow) :: others, firstRow ++ row, hfirst.trans hmore, hargs, hseparated,
      fun base e opening closing rest after span hopens hnext hcloses => ?_⟩
    rw [hargs.items]
    exact .call hopens hfilled harg (hreads base closing rest span hnext hcloses)

/-- The items behind the first one of an array: none, a last comma, or a comma and further items. -/
theorem moreItems_reads (ih : ReadsExpressions fuel) {seen items : List Expr} {parts : List (Expr × List Token)}
    (hlexed : Lexed cursor.rest) (hseen : ReadItems seen.reverse parts) (hfilled : parts ≠ [])
    (hrow : Separated (parts.map Prod.snd) row) (h : moreItems (fuel + 1) seen cursor = .ok (items, next)) :
    ReadMoreItems parts row cursor items next := by
  have hrows : parts.map Prod.snd ≠ [] := fun hnil => hfilled (List.map_eq_nil_iff.mp hnil)
  rw [moreItems, text_bind, ite_run] at h
  split at h
  · obtain ⟨rfl, rfl⟩ := Prod.mk.inj (Except.ok.inj h)
    refine ⟨[], [], .refl cursor, by rwa [List.append_nil], by rw [List.append_nil, List.append_nil]; exact .plain hrow, ?_⟩
    intro closing rest span hnext hcloses
    rw [hnext]
    exact .itemsDone hcloses
  · rename_i hcomma
    obtain ⟨comma, after, hseparates, hcomma, h⟩ := spelling_takes hlexed (by simpa using hcomma) (by decide) h
    have hafter := hcomma.lexed hlexed
    rw [text_bind, atEnd_bind, ite_run] at h
    split at h
    · obtain ⟨rfl, rfl⟩ := Prod.mk.inj (Except.ok.inj h)
      refine ⟨[], [comma], hcomma, by rwa [List.append_nil], by rw [List.append_nil]; exact .trailing hrow hrows hseparates, ?_⟩
      intro closing rest span hnext hcloses
      rw [hcomma.rest, hnext]
      exact .itemsComma (spelling_of_isSymbol hseparates) hcloses
    · rename_i hopen
      simp only [Bool.or_eq_true, beq_iff_eq, not_or] at hopen
      obtain ⟨item, between, hitem, h⟩ := bind_ok h
      obtain ⟨itemRow, hitem, hyields, hfirst⟩ := ih.binary hafter hitem
      have hseparated : Separated ((parts ++ [(item, itemRow)]).map Prod.snd) (row ++ comma :: itemRow) := by
        rw [List.map_append]
        exact hrow.concat hrows hseparates itemRow
      obtain ⟨others, more, hmore, hitems, hlisted, hreads⟩ := ih.moreItems (hitem.lexed hafter)
        (by rw [List.reverse_cons]; exact hseen.concat hyields) (List.append_ne_nil_of_right_ne_nil _ (List.cons_ne_nil _ _)) hseparated h
      rw [← List.append_cons] at hitems hlisted
      refine ⟨(item, itemRow) :: others, comma :: itemRow ++ more, (hcomma.trans hitem).trans hmore, hitems,
        by rwa [← List.append_assoc], fun closing rest span hnext hcloses => ?_⟩
      rw [hcomma.rest]
      exact .itemsMore (spelling_of_isSymbol hseparates) hopen.1 hfirst (hreads closing rest span hnext hcloses)

/-- The arguments behind the first one of a call. -/
theorem moreArgs_reads (ih : ReadsExpressions fuel) {seen args : List Expr} {parts : List (Expr × List Token)}
    (hlexed : Lexed cursor.rest) (hseen : ReadItems seen.reverse parts) (hfilled : parts ≠ [])
    (hrow : Separated (parts.map Prod.snd) row) (h : moreArgs (fuel + 1) seen cursor = .ok (args, next)) :
    ReadMoreArgs parts row cursor args next := by
  rw [moreArgs, text_bind, ite_run] at h
  split at h
  · obtain ⟨rfl, rfl⟩ := Prod.mk.inj (Except.ok.inj h)
    refine ⟨[], [], .refl cursor, by rwa [List.append_nil], by rwa [List.append_nil, List.append_nil], ?_⟩
    intro callee closing rest span hnext hcloses
    rw [hnext]
    exact .argsDone hcloses
  · rename_i hcomma
    obtain ⟨comma, after, hseparates, hcomma, h⟩ := spelling_takes hlexed (by simpa using hcomma) (by decide) h
    have hafter := hcomma.lexed hlexed
    obtain ⟨arg, between, harg, h⟩ := bind_ok h
    obtain ⟨argRow, harg, hyields, hfirst⟩ := ih.binary hafter harg
    have hseparated : Separated ((parts ++ [(arg, argRow)]).map Prod.snd) (row ++ comma :: argRow) := by
      rw [List.map_append]
      exact hrow.concat (fun hnil => hfilled (List.map_eq_nil_iff.mp hnil)) hseparates argRow
    obtain ⟨others, more, hmore, hargs, hseparated, hreads⟩ := ih.moreArgs (harg.lexed hafter)
      (by rw [List.reverse_cons]; exact hseen.concat hyields) (List.append_ne_nil_of_right_ne_nil _ (List.cons_ne_nil _ _)) hseparated h
    rw [← List.append_cons] at hargs hseparated
    refine ⟨(arg, argRow) :: others, comma :: argRow ++ more, (hcomma.trans harg).trans hmore, hargs,
      by rwa [← List.append_assoc], fun callee closing rest span hnext hcloses => ?_⟩
    rw [hcomma.rest]
    exact .argsMore (spelling_of_isSymbol hseparates) hfirst (hreads callee closing rest span hnext hcloses)

/-! ## Fields -/

/-- The key of a field is a name, which stands for the string, or an expression. -/
theorem fieldKey_reads {computed : Parser Expr} {key : Expr} (hlexed : Lexed cursor.rest)
    (ih : ∀ {cursor next e}, Lexed cursor.rest → computed cursor = .ok (e, next) → ReadBehind [] (.level 0) cursor e next)
    (h : fieldKey computed cursor = .ok (key, next)) :
    ∃ keyRow, ReadKey cursor key keyRow next := by
  have expression : cursor.rest.head?.bind name? = none → computed cursor = .ok (key, next) → ∃ keyRow, ReadKey cursor key keyRow next := by
    intro hnone h
    obtain ⟨row, htakes, hyields, hreads⟩ := ih hlexed h
    exact ⟨row, htakes, hyields.ne_nil, .keyExpr hnone hreads, .inl hyields⟩
  unfold fieldKey at h
  rw [token?_bind] at h
  cases hc : cursor.rest with
  | nil =>
    rw [hc] at h
    exact expression (by rw [hc]; rfl) h
  | cons token rest =>
    rw [hc] at h
    obtain ⟨kind, span, text, gap⟩ := token
    cases kind with
    | ident =>
      dsimp only [List.head?_cons] at h
      rw [ite_run] at h
      split at h
      · exact expression (by rw [hc]; exact if_neg fun hname => hname.2 ‹_›) h
      · rename_i hkeyword
        obtain ⟨_, after, hadvance, h⟩ := bind_ok h
        obtain ⟨rfl, rfl⟩ := Prod.mk.inj (Except.ok.inj h)
        have htakes := advance_takes hc hadvance
        have hnamed : name? ⟨.ident, span, text, gap⟩ = some ⟨span, text⟩ := if_pos ⟨rfl, hkeyword⟩
        refine ⟨_, htakes, List.cons_ne_nil _ _, ?_, .inr ⟨_, _, rfl, hnamed, rfl⟩⟩
        rw [htakes.rest]
        exact .keyName hnamed
    | _ => exact expression (by rw [hc]; rfl) h

/-- A field behind its key, and the fields behind it. -/
theorem fieldsBehind_reads (ih : ReadsExpressions fuel) {seen fields : List (Span × Expr × Expr)} {parts : List FieldPart} {key : Expr}
    {keyRow : List Token} {afterKey : Cursor} (hlexed : Lexed cursor.rest) (hseen : ReadFields seen.reverse parts)
    (hopen : ∀ last, Separated (parts.map FieldPart.row ++ [last]) (row ++ last)) (hfilled : spelling cursor.rest ≠ "\x7d")
    (hkey : ReadKey cursor key keyRow afterKey)
    (h : fieldsBehind (binary fuel 0) (moreFields fuel) (currentSpan cursor) key seen afterKey = .ok (fields, next)) :
    ReadMoreFields parts row cursor fields next := by
  obtain ⟨hkey, hne, hnamed, hwritten⟩ := hkey
  unfold fieldsBehind at h
  obtain ⟨colon, afterColon, hseparates, hcolon, h⟩ := expect_takes (hkey.lexed hlexed) (by decide) h
  obtain ⟨value, afterValue, hvalue, h⟩ := bind_ok h
  obtain ⟨valueRow, hvalue, hyields, hvalued⟩ := ih.binary (hcolon.lexed (hkey.lexed hlexed)) hvalue
  rw [hcolon.rest] at hnamed
  have hcolon' := spelling_of_isSymbol hseparates
  let part : FieldPart := ⟨key, keyRow, colon, value, valueRow⟩
  have hfield : Takes cursor part.row afterValue := hkey.trans (hcolon.trans hvalue)
  have hafter := hfield.lexed hlexed
  have hfields : ReadFields (part.field :: seen).reverse (parts ++ [part]) := by
    rw [List.reverse_cons]
    exact hseen.concat hwritten.resolve_right hseparates hyields
  have hseparated : Separated ((parts ++ [part]).map FieldPart.row) (row ++ part.row) := by
    rw [List.map_append]
    exact hopen part.row
  rw [cover_bind, hfield.whole (List.append_ne_nil_of_left_ne_nil hne _), text_bind, ite_run] at h
  split at h
  · rename_i hcomma
    obtain ⟨comma, afterComma, hfollows, hcomma, h⟩ := spelling_takes hafter (eq_of_beq hcomma) (by decide) h
    have hrows : (parts ++ [part]).map FieldPart.row ≠ [] := by simp
    have hopen' : ∀ last, Separated ((parts ++ [part]).map FieldPart.row ++ [last]) (row ++ part.row ++ [comma] ++ last) := by
      intro last
      rw [List.append_assoc]
      exact hseparated.concat hrows hfollows last
    obtain ⟨others, more, hmore, hfields, hlisted, hreads⟩ := ih.moreFields (hcomma.lexed hafter) hfields
      (.trailing hseparated hrows hfollows) hopen' h
    rw [← List.append_cons] at hfields hlisted
    refine ⟨part :: others, part.row ++ [comma] ++ more, (hfield.trans hcomma).trans hmore, hfields,
      by simpa only [List.append_assoc] using hlisted, fun closing rest span hnext hcloses => ?_⟩
    rw [hcomma.rest] at hvalued
    exact .fieldsMore hfilled hnamed hcolon' hvalued (spelling_of_isSymbol hfollows) (hreads closing rest span hnext hcloses)
  · obtain ⟨rfl, rfl⟩ := Prod.mk.inj (Except.ok.inj h)
    refine ⟨[part], part.row, hfield, hfields, .plain hseparated, fun closing rest span hnext hcloses => ?_⟩
    rw [hnext] at hvalued
    exact .fieldsLast hfilled hnamed hcolon' hvalued hcloses

/-- The fields of an object behind its opening brace or a comma. -/
theorem moreFields_reads (ih : ReadsExpressions fuel) {seen fields : List (Span × Expr × Expr)} {parts : List FieldPart}
    (hlexed : Lexed cursor.rest) (hseen : ReadFields seen.reverse parts) (hrow : Listed (parts.map FieldPart.row) row)
    (hopen : ∀ last, Separated (parts.map FieldPart.row ++ [last]) (row ++ last))
    (h : moreFields (fuel + 1) seen cursor = .ok (fields, next)) :
    ReadMoreFields parts row cursor fields next := by
  rw [moreFields, text_bind, atEnd_bind, ite_run] at h
  split at h
  · obtain ⟨rfl, rfl⟩ := Prod.mk.inj (Except.ok.inj h)
    refine ⟨[], [], .refl cursor, by rwa [List.append_nil], by rwa [List.append_nil, List.append_nil], ?_⟩
    intro closing rest span hnext hcloses
    rw [hnext]
    exact .fieldsDone hcloses
  · rename_i hfilled
    simp only [Bool.or_eq_true, beq_iff_eq, not_or] at hfilled
    rw [span_bind] at h
    obtain ⟨key, afterKey, hkey, h⟩ := bind_ok h
    obtain ⟨keyRow, hkey⟩ := fieldKey_reads hlexed ih.binary hkey
    exact fieldsBehind_reads ih hlexed hseen hopen hfilled.1 hkey h

/-! ## Primary expressions -/

/-- An array, an object, an expression in brackets or an atom. -/
theorem primary_reads (ih : ReadsExpressions fuel) {e : Expr} (hlexed : Lexed cursor.rest)
    (h : primary (fuel + 1) cursor = .ok (e, next)) : ReadBehind [] .primary cursor e next := by
  -- The first symbol decides between the forms. Behind none of the symbols an atom is left.
  rw [primary, span_bind] at h
  rcases atSymbol_cases h with ⟨hat, h⟩ | ⟨-, h⟩
  · obtain ⟨opening, inside, hopens, hopening, h⟩ := atSymbol_takes hat h
    obtain ⟨items, afterItems, hitems, h⟩ := bind_ok h
    obtain ⟨parts, row, hrow, hitems, hlisted, hreads⟩ := items_read ih (hopening.lexed hlexed) hitems
    obtain ⟨closing, after, hcloses, hclosing, h⟩ := expect_takes (hrow.lexed (hopening.lexed hlexed)) (by decide) h
    obtain ⟨rfl, rfl⟩ := Prod.mk.inj (Except.ok.inj h)
    have htakes : Takes cursor (opening :: row ++ [closing]) after := (hopening.trans hrow).trans hclosing
    have harray := hreads opening closing after.rest (wholeSpan (opening :: row ++ [closing])) hopens hclosing.rest
      (spelling_of_isSymbol hcloses)
    rw [htakes.whole (List.cons_ne_nil _ _)]
    refine ⟨opening :: row ++ [closing], htakes, ?_, ?_⟩
    · rw [hitems.items]
      exact .array hopens hitems.yields hlisted hcloses
    · rw [hopening.rest]
      exact harray
  rcases atSymbol_cases h with ⟨hat, h⟩ | ⟨-, h⟩
  · obtain ⟨opening, inside, hopens, hopening, h⟩ := atSymbol_takes hat h
    obtain ⟨fields, afterFields, hfields, h⟩ := bind_ok h
    have hnone : Listed (([] : List FieldPart).map FieldPart.row) [] := .plain .nil
    obtain ⟨parts, row, hrow, hfields, hlisted, hreads⟩ := ih.moreFields (hopening.lexed hlexed) .nil hnone .single hfields
    rw [List.nil_append] at hfields hlisted
    obtain ⟨closing, after, hcloses, hclosing, h⟩ := expect_takes (hrow.lexed (hopening.lexed hlexed)) (by decide) h
    obtain ⟨rfl, rfl⟩ := Prod.mk.inj (Except.ok.inj h)
    have htakes : Takes cursor (opening :: row ++ [closing]) after := (hopening.trans hrow).trans hclosing
    rw [htakes.whole (List.cons_ne_nil _ _), hfields.fields]
    refine ⟨opening :: row ++ [closing], htakes, .object hopens hfields.keys hfields.colons hfields.values hlisted hcloses, ?_⟩
    rw [hopening.rest]
    exact .object hopens (hreads closing after.rest _ hclosing.rest (spelling_of_isSymbol hcloses))
  rcases atSymbol_cases h with ⟨hat, h⟩ | ⟨-, h⟩
  · obtain ⟨opening, inside, hopens, hopening, h⟩ := atSymbol_takes hat h
    obtain ⟨inner, afterInner, hinner, h⟩ := bind_ok h
    obtain ⟨row, hrow, hyields, hreads⟩ := ih.binary (hopening.lexed hlexed) hinner
    obtain ⟨closing, after, hcloses, hclosing, h⟩ := expect_takes (hrow.lexed (hopening.lexed hlexed)) (by decide) h
    obtain ⟨rfl, rfl⟩ := Prod.mk.inj (Except.ok.inj h)
    refine ⟨opening :: row ++ [closing], (hopening.trans hrow).trans hclosing, .bracketed hopens hyields hcloses, ?_⟩
    rw [hclosing.rest] at hreads
    rw [hopening.rest]
    exact .bracketed hopens hreads (spelling_of_isSymbol hcloses)
  · obtain ⟨token, hatom, htakes⟩ := atom_takes h
    refine ⟨[token], htakes, .atom hatom, ?_⟩
    rw [htakes.rest]
    exact .atom hatom

/-- Members, indexes and calls behind an expression. -/
theorem suffixes_reads (ih : ReadsExpressions fuel) {base e : Expr} {front : List Token} (hlexed : Lexed cursor.rest)
    (hbase : base.Yields front) (h : suffixes (fuel + 1) (firstSpan front).start base cursor = .ok (e, next)) :
    ReadBehind front (.suffixes base) cursor e next := by
  -- what follows one suffix, with the expression that ends in it
  have further : ∀ {row : List Token} {base' : Expr} {between : Cursor}, Takes cursor row between → base'.Yields (front ++ row) →
      suffixes fuel (firstSpan front).start base' between = .ok (e, next) →
      (Reads (.suffixes base') between.rest e next.rest → Reads (.suffixes base) cursor.rest e next.rest) →
      ReadBehind front (.suffixes base) cursor e next := by
    intro row base' between htakes hyields h hreads
    rw [← firstSpan_append hbase.ne_nil row] at h
    obtain ⟨more, hmore, hyields, hothers⟩ := ih.suffixes (htakes.lexed hlexed) hyields h
    exact ⟨row ++ more, htakes.trans hmore, by rwa [← List.append_assoc], hreads hothers⟩
  rw [suffixes, span_bind] at h
  rcases atSymbol_cases h with ⟨hat, h⟩ | ⟨hdot, h⟩
  · obtain ⟨dot, afterDot, hopens, hpassed, h⟩ := atSymbol_takes hat h
    obtain ⟨field, between, hfield, h⟩ := bind_ok h
    obtain ⟨token, hnamed, hfield⟩ := ident_takes hfield
    have htakes : Takes cursor [dot, token] between := hpassed.trans hfield
    rw [cover_bind, htakes.behind (List.cons_ne_nil _ _) hbase.ne_nil] at h
    refine further htakes (.member hbase hopens hnamed) h fun hreads => ?_
    rw [htakes.rest]
    exact .member hopens hnamed hreads
  rcases atSymbol_cases h with ⟨hat, h⟩ | ⟨hbracket, h⟩
  · obtain ⟨opening, inside, hopens, hopening, h⟩ := atSymbol_takes hat h
    obtain ⟨key, afterKey, hkey, h⟩ := bind_ok h
    obtain ⟨row, hkey, hyields, hinner⟩ := ih.binary (hopening.lexed hlexed) hkey
    obtain ⟨closing, between, hcloses, hclosing, h⟩ := expect_takes (hkey.lexed (hopening.lexed hlexed)) (by decide) h
    have htakes : Takes cursor (opening :: row ++ [closing]) between := (hopening.trans hkey).trans hclosing
    rw [cover_bind, htakes.behind (List.cons_ne_nil _ _) hbase.ne_nil] at h
    refine further htakes (.index hbase hopens hyields hcloses) h fun hreads => ?_
    rw [hclosing.rest] at hinner
    rw [hopening.rest]
    exact .index hopens hinner (spelling_of_isSymbol hcloses) hreads
  rcases atSymbol_cases h with ⟨hat, h⟩ | ⟨hparen, h⟩
  · obtain ⟨opening, inside, hopens, hopening, h⟩ := atSymbol_takes hat h
    obtain ⟨args, afterArgs, hargs, h⟩ := bind_ok h
    obtain ⟨parts, row, hrow, hargs, hseparated, hcall⟩ := args_read ih (hopening.lexed hlexed) hargs
    obtain ⟨closing, between, hcloses, hclosing, h⟩ := expect_takes (hrow.lexed (hopening.lexed hlexed)) (by decide) h
    have htakes : Takes cursor (opening :: row ++ [closing]) between := (hopening.trans hrow).trans hclosing
    rw [cover_bind, htakes.behind (List.cons_ne_nil _ _) hbase.ne_nil] at h
    have hyields := Expr.Yields.call hbase hopens hargs.yields hseparated hcloses
    rw [← hargs.items] at hyields
    refine further htakes hyields h fun hreads => ?_
    rw [hopening.rest]
    exact hcall base e opening closing between.rest next.rest _ hopens hclosing.rest (spelling_of_isSymbol hcloses) hreads
  · obtain ⟨rfl, rfl⟩ := Prod.mk.inj (Except.ok.inj h)
    exact ⟨[], .refl cursor, by rwa [List.append_nil], .suffixesDone (by simp [atSuffix, hdot, hbracket, hparen])⟩

/-! ## All readers of expressions -/

/-- Without fuel no expression is accepted. -/
theorem readsExpressions_zero : ReadsExpressions 0 where
  binary _ h := by rw [binary] at h; exact (fail_ne_ok h).elim
  operators _ _ h := by rw [operators] at h; exact (fail_ne_ok h).elim
  unary _ h := by rw [unary] at h; exact (fail_ne_ok h).elim
  primary _ h := by rw [primary] at h; exact (fail_ne_ok h).elim
  moreItems _ _ _ _ h := by rw [moreItems] at h; exact (fail_ne_ok h).elim
  moreFields _ _ _ _ h := by rw [moreFields] at h; exact (fail_ne_ok h).elim
  suffixes _ _ h := by rw [suffixes] at h; exact (fail_ne_ok h).elim
  moreArgs _ _ _ _ h := by rw [moreArgs] at h; exact (fail_ne_ok h).elim

/-- The readers of expressions meet their specifications, whatever their fuel. -/
theorem readsExpressions (fuel : Nat) : ReadsExpressions fuel := by
  induction fuel with
  | zero => exact readsExpressions_zero
  | succ fuel ih =>
    exact ⟨binary_reads ih, operators_reads ih, unary_reads ih, primary_reads ih, moreItems_reads ih, moreFields_reads ih,
      suffixes_reads ih, moreArgs_reads ih⟩

/-- An expression that is accepted belongs to the grammar and yields the tokens that it is read from. -/
theorem expr_reads {e : Expr} (hlexed : Lexed cursor.rest) (h : expr cursor = .ok (e, next)) : ReadBehind [] (.level 0) cursor e next := by
  unfold expr at h
  rw [fuel_bind] at h
  exact (readsExpressions _).binary hlexed h

/-- What follows an expression that is accepted. -/
theorem expr_bind_reads {g : Expr → Parser β} {b : β} (hlexed : Lexed cursor.rest) (h : (expr >>= g) cursor = .ok (b, next)) :
    ∃ e row between, Takes cursor row between ∧ e.Yields row ∧ Reads (.level 0) cursor.rest e between.rest ∧ Lexed between.rest ∧
      g e between = .ok (b, next) := by
  obtain ⟨e, between, hexpr, h⟩ := bind_ok h
  obtain ⟨row, htakes, hyields, hreads⟩ := expr_reads hlexed hexpr
  exact ⟨e, row, between, htakes, hyields, hreads, htakes.lexed hlexed, h⟩

end HostScript.Script.Parser
