import Mathlib
import HostScript.Proofs.Dialect.Classified
import HostScript.Proofs.Dialect.Slices

/-!
# Statements by index

Cutting the tables of a source into statements meets no lapse and gives the statements of its tokens: each of them is the stretch of
tokens between two indices, with the same lines, the same indentation and the same rule (`split_ok`).
-/

namespace HostScript.Dialect.Indexed

variable {t : Table} {tokens : List Token}

/-- A question that is asked only if another has been answered with yes. -/
theorem ite_and (c : Prop) [Decidable c] (b : Bool) : (if c then .ok b else .ok false : Checked Bool) = .ok (decide c && b) := by
  split <;> simp [*]

/-! ## Tokens -/

namespace Table.Records

variable (h : t.Records tokens) {token : Token} {index : Nat}
include h

/-- There is one mark for each token. -/
theorem length_marks : t.marks.length = tokens.length := by rw [h.marks, List.length_map]

/-- The mark at the index of a token is that of the token. -/
theorem markAt_ok (hindex : tokens[index]? = some token) : markAt t index = .ok (.ofToken token) := by
  unfold markAt
  rw [h.marks, List.getElem?_map, hindex]
  rfl

/-- A token of the source can be compared with a kind and a text, and the answer is that of the token itself. -/
theorem isWord_ok (hmem : token ∈ tokens) (kind : TokenKind) (text : String) :
    isWord t kind (.ofToken token) text = .ok (token.kind == kind && token.text == text) := by
  unfold isWord
  simp only [h.text token hmem, bind, Except.bind, pure, Except.pure, ite_and]
  rfl

/-- The same for a symbol. -/
theorem isSymbol_ok (hmem : token ∈ tokens) (text : String) : isWord t .symbol (.ofToken token) text = .ok (token.isSymbol text) :=
  h.isWord_ok hmem .symbol text

/-- A comparison at any index succeeds. Where no token stands, the answer is no. -/
theorem isWordAt_ok (kind : TokenKind) (index : Nat) (text : String) :
    isWordAt t kind index text = .ok ((tokens[index]?).any fun token => token.kind == kind && token.text == text) := by
  unfold isWordAt
  rw [h.length_marks]
  cases hindex : tokens[index]? with
  | none => rw [if_neg (Nat.not_lt.mpr (List.getElem?_eq_none_iff.mp hindex))]; rfl
  | some token =>
    have hmem := List.mem_of_getElem? hindex
    rw [if_pos (List.getElem?_eq_some_iff.mp hindex).1, h.markAt_ok hindex]
    simp only [bind, Except.bind, h.isWord_ok hmem, Option.any_some]

/-- Whether a mark opens a bracket is read off the text of its token. -/
theorem isOpen_ok (hmem : token ∈ tokens) : isOpen t (.ofToken token) = .ok (Dialect.isOpen token) := by
  unfold isOpen isSymbolOf
  simp only [h.text token hmem, bind, Except.bind, pure, Except.pure, ite_and]
  rfl

/-- Whether a mark closes a bracket is read off the text of its token. -/
theorem isClose_ok (hmem : token ∈ tokens) : isClose t (.ofToken token) = .ok (Dialect.isClose token) := by
  unfold isClose isSymbolOf
  simp only [h.text token hmem, bind, Except.bind, pure, Except.pure, ite_and]
  rfl

/-- The line on which a token ends can be computed, line feeds inside of it included. -/
theorem endLine_ok (hmem : token ∈ tokens) : endLine t (.ofToken token) = .ok token.endLine := by
  unfold endLine Token.endLine
  rw [h.text token hmem]
  by_cases hkind : token.kind = .rawString <;> simp [Mark.ofToken, hkind, bind, Except.bind, pure, Except.pure]

/-- The depth behind a token can be computed and is that of the token in its row. -/
theorem depthAfter_ok (hmem : token ∈ tokens) (depth : Nat) :
    depthAfter t depth (.ofToken token) = .ok (Dialect.depthAfter depth token) := by
  unfold depthAfter Dialect.depthAfter
  rw [h.isOpen_ok hmem, h.isClose_ok hmem]
  cases Dialect.isOpen token <;> cases Dialect.isClose token <;> rfl

end Table.Records

/-! ## Stretches of tokens -/

/-- The tokens from an index up to another are a row. -/
def Segment (tokens : List Token) (start : Nat) (row : List Token) (stop : Nat) : Prop :=
  tokens.drop start = row ++ tokens.drop stop ∧ stop = start + row.length

namespace Segment

variable {start stop : Nat} {row more : List Token} {token : Token}

/-- Between an index and itself stands nothing. -/
theorem nil (tokens : List Token) (start : Nat) : Segment tokens start [] start := ⟨rfl, rfl⟩

/-- The index behind a segment is as far on as the segment is long. -/
theorem stop_eq (h : Segment tokens start row stop) : stop = start + row.length := h.2

/-- The rest of the tokens is a row. -/
theorem ofDrop (h : tokens.drop start = row ++ more) : Segment tokens start row (start + row.length) := by
  refine ⟨?_, rfl⟩
  rw [← List.drop_drop, h, List.drop_left]

/-- A segment can be cut in two at any place. -/
theorem append (h : Segment tokens start (row ++ more) stop) :
    Segment tokens start row (start + row.length) ∧ Segment tokens (start + row.length) more stop := by
  obtain ⟨hdrop, hstop⟩ := h
  rw [List.append_assoc] at hdrop
  refine ⟨ofDrop hdrop, ?_, ?_⟩
  · rw [← List.drop_drop, hdrop, List.drop_left]
  · rw [hstop, List.length_append, Nat.add_assoc]

/-- The first token of a segment is the one at its first index. -/
theorem cons (h : Segment tokens start (token :: row) stop) : tokens[start]? = some token ∧ Segment tokens (start + 1) row stop := by
  have hsplit : Segment tokens start ([token] ++ row) stop := h
  refine ⟨?_, hsplit.append.2⟩
  have hhead : (tokens.drop start).head? = some token := by rw [h.1]; rfl
  rwa [List.head?_drop] at hhead

/-- All tokens of a stretch but the last. -/
theorem front (h : Segment tokens start (row ++ [token]) stop) : Segment tokens start row (stop - 1) ∧ tokens[stop - 1]? = some token := by
  obtain ⟨hfront, hlast⟩ := append h
  have hstop : stop - 1 = start + row.length := by rw [h.stop_eq, List.length_append, List.length_singleton]; omega
  rw [hstop]
  exact ⟨hfront, (cons hlast).1⟩

/-- What stands in a segment is a token of the source. -/
theorem mem (h : Segment tokens start row stop) {token : Token} (htoken : token ∈ row) : token ∈ tokens :=
  List.mem_of_mem_drop (h.1 ▸ List.mem_append_left _ htoken)

end Segment

/-- A subtraction that does not go below zero succeeds. -/
theorem minus_ok {n less : Nat} (h : less ≤ n) : minus n less = .ok (n - less) := if_pos h

/-! ## The ends of statements -/

/-- A statement begun in front of an index ends in front of another, and the groups are the statement and those of what is behind it. -/
def StopsAt (tokens begun : List Token) (index : Nat) (stop : Checked Nat) (groups : List Group) : Prop :=
  ∃ front last, Segment tokens index (front ++ [last]) (index + (front ++ [last]).length) ∧
    stop = .ok (index + (front ++ [last]).length) ∧
    groups = ⟨begun.reverse ++ (front ++ [last]), Dialect.endsLine last (tokens.drop (index + (front ++ [last]).length)).head?⟩ ::
      groupFrom [] false 0 (tokens.drop (index + (front ++ [last]).length))

section

variable {begun rest : List Token} {token : Token} {index : Nat}

/-- A statement that ends with the token at an index stops right behind it. -/
theorem StopsAt.here (hrow : tokens.drop index = token :: rest) (begun : List Token) :
    StopsAt tokens begun index (.ok (index + 1))
      (⟨(token :: begun).reverse, Dialect.endsLine token rest.head?⟩ :: groupFrom [] false 0 rest) := by
  have hsegment : Segment tokens index [token] (index + 1) := Segment.ofDrop hrow
  have hnext : tokens.drop (index + 1) = rest := (List.cons.inj (hrow.symm.trans hsegment.1)).2.symm
  refine ⟨[], token, hsegment, rfl, ?_⟩
  rw [List.nil_append, List.length_singleton, hnext, List.reverse_cons]

/-- A statement that does not end with a token stops where it stops behind that token. -/
theorem StopsAt.later {stop : Checked Nat} {groups : List Group} (hrow : tokens.drop index = token :: rest)
    (h : StopsAt tokens (token :: begun) (index + 1) stop groups) : StopsAt tokens begun index stop groups := by
  obtain ⟨front, last, hsegment, hstop, hgroups⟩ := h
  have hlength : index + 1 + (front ++ [last]).length = index + (token :: front ++ [last]).length := by
    rw [List.cons_append, List.length_cons]
    omega
  have hnext : tokens.drop (index + 1) = rest := by
    rw [← List.drop_drop, hrow]
    rfl
  rw [hlength] at hsegment hstop hgroups
  refine ⟨token :: front, last, ⟨?_, rfl⟩, hstop, ?_⟩
  · rw [hrow, ← hnext, hsegment.1]
    rfl
  · rw [hgroups, List.reverse_cons, List.append_assoc]
    rfl

end

variable (h : t.Records tokens)
include h

/-- A statement ends in the tables where it does in the row of tokens. -/
theorem statementStop_ok (begun : List Token) (given : Bool) (depth : Nat) {header : Bool} {index fuel : Nat} {token : Token}
    {rest : List Token} (hrow : tokens.drop index = token :: rest) (hfuel : rest.length < fuel)
    (hheader : (if begun.isEmpty then token.kind == .ident && headerWords.contains token.text else given) = header) :
    StopsAt tokens begun index (statementStop t header fuel depth index) (groupFrom begun given depth (token :: rest)) := by
  induction fuel generalizing begun given depth index token rest with
  | zero => contradiction
  | succ fuel ih =>
    have hindex : tokens[index]? = some token := by rw [← List.head?_drop, hrow]; rfl
    have hmem : token ∈ tokens := List.mem_of_getElem? hindex
    have hbound : index < tokens.length := (List.getElem?_eq_some_iff.mp hindex).1
    have hnext : tokens.drop (index + 1) = rest := by
      rw [← List.drop_drop, hrow]
      rfl
    rw [statementStop, h.markAt_ok hindex, groupFrom, hheader]
    simp only [bind, Except.bind, h.depthAfter_ok hmem, h.isWord_ok hmem, h.endLine_ok hmem, h.length_marks]
    cases rest with
    | nil =>
      have hlast : index + 1 = tokens.length := by
        have := List.drop_eq_nil_iff.mp hnext
        omega
      rw [if_pos hlast]
      have hhere := StopsAt.here hrow begun
      simp only [List.head?_nil, Dialect.endsLine, Bool.true_or, Bool.or_true, Bool.and_true]
      split
      · exact hhere
      · rw [groupFrom]
        exact hhere
    | cons next rest =>
      have hlater : ∀ depth, StopsAt tokens begun index (statementStop t header fuel depth (index + 1))
          (groupFrom (token :: begun) header depth (next :: rest)) :=
        fun depth => (ih (token :: begun) header depth hnext (Nat.lt_of_succ_lt_succ hfuel) rfl).later hrow
      have hhere := StopsAt.here hrow begun
      have hfollowing : tokens[index + 1]? = some next := by rw [← List.head?_drop, hnext]; rfl
      have hmore : index + 1 ≠ tokens.length := Nat.ne_of_lt (List.getElem?_eq_some_iff.mp hfollowing).1
      have hlast : ((Mark.ofToken next).span.line != token.endLine) = Dialect.endsLine token (some next) := rfl
      rw [List.head?_cons] at hhere
      simp only [if_neg hmore, h.markAt_ok hfollowing, hlast, List.head?_cons, Token.isSymbol]
      generalize Dialect.depthAfter depth token = depth'
      cases depth' with
      | succ _ => exact hlater _
      | zero =>
        rcases Bool.eq_false_or_eq_true (token.kind == .symbol && token.text == ";") with hsemicolon | hsemicolon <;>
          rcases Bool.eq_false_or_eq_true (token.kind == .symbol && token.text == ":") with hcolon | hcolon <;>
          rcases Bool.eq_false_or_eq_true (Dialect.endsLine token (some next)) with hends | hends <;>
          cases header <;> simp only [hsemicolon, hcolon, hends] at hhere ⊢
        all_goals first | exact hhere | exact hlater 0

/-! ## Brackets -/

omit h in
/-- Where a bracket is closed is counted from the index of its row. -/
theorem matchingFrom_shift (depth index start : Nat) (row : List Token) :
    Dialect.matchingFrom depth (start + index) row = (Dialect.matchingFrom depth index row).map (start + ·) := by
  induction row generalizing depth index with
  | nil => rfl
  | cons token row ih =>
    rw [Dialect.matchingFrom, Dialect.matchingFrom]
    split
    · rfl
    · exact ih _ (index + 1)

omit h in
/-- A bracket that is not closed in front of the last token of a row is closed by it or not at all. -/
theorem matchingFrom_snoc (depth index : Nat) (row : List Token) (last : Token) :
    Dialect.matchingFrom depth index (row ++ [last]) = Dialect.matchingFrom depth index row ∨
      Dialect.matchingFrom depth index row = none ∧ Dialect.matchingFrom depth index (row ++ [last]) = some (index + row.length) := by
  induction row generalizing depth index with
  | nil =>
    rw [List.nil_append, Dialect.matchingFrom, Dialect.matchingFrom]
    split
    · exact .inr ⟨rfl, rfl⟩
    · exact .inl rfl
  | cons token row ih =>
    rw [List.cons_append, Dialect.matchingFrom, Dialect.matchingFrom, List.length_cons, Nat.add_comm row.length, ← Nat.add_assoc]
    split
    · exact .inl rfl
    · exact ih _ _

omit h in
/-- Whether a row is closed by its last token does not depend on what stands behind the row. -/
theorem matchingFrom_last {row : List Token} (hne : row ≠ []) (last : Token) (start : Nat) :
    ((Dialect.matchingFrom 0 0 (row ++ [last])).map (start + ·) == some (start + (row.length - 1))) =
      (Dialect.matchingFrom 0 0 row == some (row.length - 1)) := by
  rcases matchingFrom_snoc 0 0 row last with hsame | ⟨hnone, hlast⟩
  · rw [hsame]
    cases Dialect.matchingFrom 0 0 row <;> simp
  · have hlength := List.length_pos_of_ne_nil hne
    rw [hnone, hlast, Option.map_some, beq_false_of_ne]
    · rfl
    · intro heq
      have := Option.some.inj heq
      omega

/-- The closing bracket is found among the tokens of a row. -/
theorem matchingFrom_ok {row : List Token} {index stop : Nat} (hrow : Segment tokens index row stop) (depth : Nat) :
    matchingFrom t depth index row.length = .ok (Dialect.matchingFrom depth index row) := by
  induction row generalizing index depth with
  | nil => rfl
  | cons token row ih =>
    obtain ⟨hindex, hbehind⟩ := hrow.cons
    have hmem : token ∈ tokens := List.mem_of_getElem? hindex
    rw [List.length_cons, matchingFrom, Dialect.matchingFrom, h.markAt_ok hindex]
    simp only [bind, Except.bind, h.isOpen_ok hmem, h.isClose_ok hmem, ih hbehind, Dialect.depthAfter]
    by_cases hopen : Dialect.isOpen token
    · simp [hopen]
    · by_cases hclose : Dialect.isClose token
      · by_cases hdepth : depth - 1 = 0 <;> simp [hopen, hclose, hdepth, pure, Except.pure]
      · simp [hopen, hclose]

/-- The search for a matching bracket succeeds, and the index it finds is that of the bracket in the row. -/
theorem matching_ok {row : List Token} {start stop : Nat} (hrow : Segment tokens start row stop) :
    matching t start stop = .ok ((Dialect.matchingFrom 0 0 row).map (start + ·)) := by
  unfold matching
  rw [hrow.stop_eq, Nat.add_sub_cancel_left, matchingFrom_ok h hrow, ← matchingFrom_shift, Nat.add_zero]

/-! ## Rules -/

section

variable {row : List Token} {start stop : Nat} (hrow : Segment tokens start row stop) (hne : row ≠ [])
include hrow hne

/-- How a statement begins can be asked, and the answer is that of its row. -/
theorem begins_ok (word : String) : isWordAt t .ident start word = .ok (beginsWith row word) := by
  obtain ⟨token, rest, rfl⟩ := List.exists_cons_of_ne_nil hne
  rw [h.isWordAt_ok, hrow.cons.1]
  rfl

/-- How a statement ends can be asked, and the answer is that of its row. -/
theorem ends_ok (text : String) : isWordAt t .symbol (stop - 1) text = .ok (endsIn row text) := by
  rcases List.eq_nil_or_concat' row with rfl | ⟨front, last, rfl⟩
  · contradiction
  · rw [h.isWordAt_ok, hrow.front.2, endsIn, List.getLast?_concat]
    rfl

/-- A function header is found by index. -/
theorem isFunctionHeader_ok : isFunctionHeader t start stop (stop - 1) = .ok (Dialect.isFunctionHeader row) := by
  have hstop := hrow.stop_eq
  unfold isFunctionHeader
  rw [minus_ok (by omega), hstop, Nat.add_sub_cancel_left]
  match row, hrow with
  | [], _ => contradiction
  | [_], _ => rfl
  | word :: name :: params, hrow =>
    obtain ⟨hname, hparams⟩ := hrow.cons.2.cons
    rw [List.length_cons, List.length_cons, Dialect.isFunctionHeader]
    by_cases hlength : 3 ≤ params.length
    · obtain ⟨opening, inside, rfl⟩ := List.exists_cons_of_ne_nil (List.ne_nil_of_length_pos (Nat.lt_of_lt_of_le (by decide) hlength))
      rcases List.eq_nil_or_concat' inside with rfl | ⟨front, last, rfl⟩
      · contradiction
      · have hopening := hparams.cons.1
        have hfront : (opening :: (front ++ [last])).dropLast = opening :: front := by rw [← List.cons_append, List.dropLast_concat]
        have hstretch : (opening :: front ++ [last]).length = front.length + 2 := by simp
        have hmatching := matching_ok h hparams
        have hclosing : start + (front.length + 2 + 1 + 1) - 1 - 1 = start + 1 + 1 + ((opening :: front).length - 1) := by
          rw [List.length_cons]
          omega
        have hmany : decide (5 ≤ front.length + 2 + 1 + 1) = decide (3 ≤ front.length + 2) := by rw [decide_eq_decide]; omega
        have hlast := matchingFrom_last (List.cons_ne_nil opening front) last (start + 1 + 1)
        rw [List.cons_append] at hlast hstretch
        rw [hstop, List.length_cons, List.length_cons, hstretch] at hmatching
        rw [hstretch]
        simp only [h.markAt_ok hname, h.isWordAt_ok, hopening, hmatching, hclosing, hlast, bind, Except.bind, pure, Except.pure,
          minus_ok (show 1 ≤ start + (front.length + 2 + 1 + 1) - 1 by omega), ite_and, Option.any_some]
        rw [hmany, hfront, Dialect.isBracketed]
        simp only [Bool.decide_eq_true, Bool.and_assoc, Token.isSymbol, List.head?_cons, Option.any_some]
        rfl
    · have hfew : ¬ 5 ≤ params.length + 1 + 1 := by omega
      simp [bind, Except.bind, pure, Except.pure, hfew, hlength]

/-- Whether a statement binds a name can be asked, and the answer is that of its row. -/
theorem binds_ok : binds t start stop (endsIn row ";") = .ok (Dialect.binds row) := by
  have hstop := hrow.stop_eq
  have hle : start ≤ stop := by omega
  obtain ⟨name, rest, rfl⟩ := List.exists_cons_of_ne_nil hne
  obtain ⟨hname, hbehind⟩ := hrow.cons
  have htext : textOf t (Mark.ofToken name) = .ok name.text := h.text _ (List.mem_of_getElem? hname)
  have hlength : stop - start = rest.length + 1 := by rw [hstop, List.length_cons, Nat.add_sub_cancel_left]
  have hindexed : binds t start stop (endsIn (name :: rest) ";") =
      .ok (name.kind == .ident && !reservedWords.contains name.text && (tokens[start + 1]?).any (·.isSymbol "=") &&
        (endsIn (name :: rest) ";" && decide (3 < rest.length + 1))) := by
    unfold binds
    rw [h.markAt_ok hname]
    simp only [htext, h.isWordAt_ok, minus_ok hle, hlength, bind, Except.bind, pure, Except.pure]
    simp only [ite_and, Bool.decide_eq_true, Bool.and_assoc]
    rfl
  rw [hindexed]
  match rest, hbehind with
  | [], _ => simp [Dialect.binds]
  | [_], _ => simp [Dialect.binds]
  | [_, _], _ => simp [Dialect.binds]
  | equals :: _ :: _ :: _, hbehind =>
    rw [hbehind.cons.1]
    simp [Dialect.binds]

/-- The rule of a header is the one that its first word and its length give. -/
theorem headerRule_ok : headerRule t start stop (stop - 1) = .ok (
    if beginsWith row "fun" then some (if Dialect.isFunctionHeader row then .function else .opener)
    else if beginsWith row "if" then some (if 2 < row.length then .if_ else .opener)
    else if beginsWith row "elif" then some (if 2 < row.length then .elif else .opener)
    else if beginsWith row "while" then some (if 2 < row.length then .while_ else .opener)
    else if beginsWith row "else" then (if row.length = 2 then some .else_ else none)
    else none) := by
  have hle : start ≤ stop := by have := hrow.stop_eq; omega
  have hlength : stop - start = row.length := by rw [hrow.stop_eq, Nat.add_sub_cancel_left]
  unfold headerRule
  simp only [begins_ok h hrow hne, isFunctionHeader_ok h hrow hne, minus_ok hle, hlength, bind, Except.bind, pure, Except.pure,
    apply_ite Except.ok]

end

/-- A stretch of tokens has by index the rule that it has as a row. -/
theorem classify_ok {front : List Token} {last : Token} {start stop : Nat} (hrow : Segment tokens start (front ++ [last]) stop) :
    classify t start stop = .ok (Dialect.classify ⟨front ++ [last], Dialect.endsLine last (tokens.drop stop).head?⟩) := by
  have hne : front ++ [last] ≠ [] := List.append_ne_nil_of_right_ne_nil _ (List.cons_ne_nil _ _)
  have hstop : 1 ≤ stop := by
    rw [hrow.stop_eq, List.length_append, List.length_singleton]
    omega
  have hlast := hrow.front.2
  have hends : endsLine t stop (stop - 1) = .ok (Dialect.endsLine last (tokens.drop stop).head?) := by
    unfold endsLine
    rw [h.length_marks, List.head?_drop]
    cases hnext : tokens[stop]? with
    | none =>
      have hbound : stop = tokens.length := by
        have hover := List.getElem?_eq_none_iff.mp hnext
        have hlast := (List.getElem?_eq_some_iff.mp hlast).1
        omega
      rw [if_pos hbound]
      rfl
    | some next =>
      rw [if_neg (Nat.ne_of_lt (List.getElem?_eq_some_iff.mp hnext).1)]
      simp only [h.markAt_ok hnext, h.markAt_ok hlast, h.endLine_ok (List.mem_of_getElem? hlast), bind, Except.bind]
      rfl
  have hsimple : simpleRule t start stop (stop - 1) (endsIn (front ++ [last]) ";") (endsIn (front ++ [last]) ":") = .ok (
      if endsIn (front ++ [last]) ";" && beginsWith (front ++ [last]) "say" then .say
      else if endsIn (front ++ [last]) ";" && beginsWith (front ++ [last]) "ask" then .ask
      else if endsIn (front ++ [last]) ":" && Dialect.endsLine last (tokens.drop stop).head? then .opener
      else .verbatim) := by
    unfold simpleRule
    simp only [hends, begins_ok h hrow hne, bind, Except.bind, pure, Except.pure]
    split_ifs <;> rfl
  rw [classify_eq]
  unfold classify
  simp only [minus_ok hstop, ends_ok h hrow hne, binds_ok h hrow hne, headerRule_ok h hrow hne, bind, Except.bind, hsimple]
  rcases Bool.eq_false_or_eq_true (Dialect.binds (front ++ [last])) with hbinds | hbinds
  · simp only [hbinds, if_true]
    rfl
  · rcases Bool.eq_false_or_eq_true (endsIn (front ++ [last]) ":") with hopens | hopens
    · simp only [hbinds, hopens, Bool.true_and, if_true, Bool.false_eq_true, if_false]
      -- The first word decides the rule; with an `else`, the number of tokens decides whether it stands alone.
      by_cases hfun : beginsWith (front ++ [last]) "fun" = true
      · simp only [hfun, if_true]
        rfl
      by_cases hif : beginsWith (front ++ [last]) "if" = true
      · simp only [hfun, hif, if_true]
        rfl
      by_cases helif : beginsWith (front ++ [last]) "elif" = true
      · simp only [hfun, hif, helif, if_true]
        rfl
      by_cases hwhile : beginsWith (front ++ [last]) "while" = true
      · simp only [hfun, hif, helif, hwhile, if_true]
        rfl
      by_cases helse : beginsWith (front ++ [last]) "else" = true
      · simp only [hfun, hif, helif, hwhile, helse, if_true, Bool.true_and, beq_iff_eq]
        by_cases htwo : (front ++ [last]).length = 2
        · simp only [htwo, if_true]
          rfl
        · simp only [htwo, Bool.false_eq_true, if_false]
      · simp only [hfun, hif, helif, hwhile, helse, if_false, Bool.false_and, Bool.false_eq_true]
    · simp only [hbinds, hopens, Bool.false_and, Bool.false_eq_true, if_false]

/-! ## Statements -/

/-- A statement by index is a statement of the row of tokens: its tokens stand between its indices, and the rest is the same. -/
structure Spans (tokens : List Token) (x : Stretch) (s : Statement) : Prop where
  row : Segment tokens x.start s.tokens x.stop
  line : x.line = s.line
  endLine : x.endLine = s.endLine
  indent : x.indent = s.indent
  rule : x.rule = s.rule
  ne_nil : s.tokens ≠ []
  describes : s.rule.Describes s.tokens

/-- A statement begins like a header if its first token is one of the words that headers begin with. -/
theorem anyM_ok {token : Token} {start : Nat} (hstart : tokens[start]? = some token) :
    (headerWords.anyM fun word => isWordAt t .ident start word) =
      Except.ok (token.kind == .ident && headerWords.contains token.text) := by
  have hany : ∀ words : List String, (words.anyM fun word => isWordAt t .ident start word) =
      Except.ok (token.kind == .ident && words.contains token.text) := by
    intro words
    induction words with
    | nil => simp [List.anyM, pure, Except.pure]
    | cons word words ih =>
      rw [List.anyM, ih, h.isWordAt_ok, hstart, Option.any_some, List.contains_cons]
      rcases Bool.eq_false_or_eq_true (token.text == word) with hword | hword <;> cases token.kind == .ident <;>
        simp [hword, bind, Except.bind, pure, Except.pure]
  exact hany headerWords

/-- The statement in front of an index, with the group of its tokens. -/
theorem stretch_ok {indentOf : Nat → Nat} (hindent : ∀ number, lineIndent t number = .ok (indentOf number)) {front : List Token}
    {last : Token} {start stop : Nat} (hrow : Segment tokens start (front ++ [last]) stop) :
    ∃ x, stretch t start stop = .ok x ∧
      Spans tokens x (.ofGroup indentOf ⟨front ++ [last], Dialect.endsLine last (tokens.drop stop).head?⟩) := by
  have hne : front ++ [last] ≠ [] := List.append_ne_nil_of_right_ne_nil _ (List.cons_ne_nil _ _)
  have hstop : 1 ≤ stop := by
    rw [hrow.stop_eq, List.length_append, List.length_singleton]
    omega
  obtain ⟨first, rest, hfirst⟩ := List.exists_cons_of_ne_nil hne
  have hstart : tokens[start]? = some first := by
    rw [hfirst] at hrow
    exact hrow.cons.1
  have hlast := hrow.front.2
  unfold stretch
  simp only [h.markAt_ok hstart, minus_ok hstop, h.markAt_ok hlast, h.endLine_ok (List.mem_of_getElem? hlast), hindent,
    classify_ok h hrow, bind, Except.bind]
  have hhead : (front ++ [last]).head? = some first := by rw [hfirst]; rfl
  refine ⟨_, rfl, hrow, ?_, ?_, ?_, rfl, hne, classify_describes _ _⟩
  · simp only [Statement.ofGroup, hhead]
    rfl
  · simp only [Statement.ofGroup, List.getLast?_concat]
    rfl
  · simp only [Statement.ofGroup, hhead]
    rfl

/-- Cutting the tables of a source into statements gives the statements of its tokens. -/
theorem split_ok {indentOf : Nat → Nat} (hindent : ∀ number, lineIndent t number = .ok (indentOf number)) {fuel start : Nat}
    (hfuel : (tokens.drop start).length < fuel) :
    ∃ row, split t fuel start = .ok row ∧ List.Forall₂ (Spans tokens) row (statements indentOf (tokens.drop start)) := by
  induction fuel generalizing start with
  | zero => contradiction
  | succ fuel ih =>
    rw [split, h.length_marks]
    cases hrow : tokens.drop start with
    | nil =>
      rw [if_neg (Nat.not_lt.mpr (List.drop_eq_nil_iff.mp hrow))]
      exact ⟨[], rfl, .nil⟩
    | cons token rest =>
      have hstart : tokens[start]? = some token := by rw [← List.head?_drop, hrow]; rfl
      rw [hrow, List.length_cons] at hfuel
      have hheader : (if ([] : List Token).isEmpty then token.kind == .ident && headerWords.contains token.text else false) =
          (token.kind == .ident && headerWords.contains token.text) := rfl
      obtain ⟨front, last, hsegment, hstop, hgroups⟩ := statementStop_ok h [] false 0 hrow (Nat.lt_of_succ_lt_succ hfuel) hheader
      obtain ⟨x, hx, hspans⟩ := stretch_ok h hindent hsegment
      have hbehind : (tokens.drop (start + (front ++ [last]).length)).length < fuel := by
        have hall := congrArg List.length hrow
        rw [List.length_drop, List.length_cons] at hall
        rw [List.length_drop, List.length_append, List.length_singleton]
        omega
      obtain ⟨row, hsplit, hrows⟩ := ih hbehind
      refine ⟨x :: row, ?_, ?_⟩
      · rw [if_pos (List.getElem?_eq_some_iff.mp hstart).1]
        simp only [anyM_ok h hstart, hstop, hx, hsplit, bind, Except.bind]
        rfl
      · rw [statements, hgroups]
        exact .cons hspans hrows

end HostScript.Dialect.Indexed
