import Mathlib
import HostScript.Dialect.Statement
import HostScript.Proofs.Dialect.Printed
import HostScript.Proofs.Token.Place

/-!
# Tokens grouped into statements

Every group is a stretch of the row that was grouped, and together they make up the row.
-/

namespace HostScript.Dialect

/-- A token ends the statement begun, or continues it. -/
theorem groupFrom_cons (begun : List Token) (header : Bool) (depth : Nat) (token : Token) (rest : List Token) :
    (∃ last, groupFrom begun header depth (token :: rest) = ⟨(token :: begun).reverse, last⟩ :: groupFrom [] false 0 rest) ∨
      ∃ header', groupFrom begun header depth (token :: rest) = groupFrom (token :: begun) header' (depthAfter depth token) rest := by
  rw [groupFrom]
  generalize (if begun.isEmpty then token.kind == .ident && headerWords.contains token.text else header) = header'
  split
  · exact .inl ⟨_, rfl⟩
  · exact .inr ⟨_, rfl⟩

/-- The groups make up the row. -/
theorem flatMap_groupFrom (begun : List Token) (header : Bool) (depth : Nat) (row : List Token) :
    (groupFrom begun header depth row).flatMap Group.tokens = begun.reverse ++ row := by
  induction row generalizing begun header depth with
  | nil =>
    unfold groupFrom
    split
    · rename_i hempty
      rw [List.isEmpty_iff.mp hempty]
      rfl
    · simp
  | cons token rest ih =>
    rcases groupFrom_cons begun header depth token rest with ⟨last, h⟩ | ⟨header', h⟩
    · rw [h, List.flatMap_cons, ih]
      simp
    · rw [h, ih]
      simp

/-- No group is empty. -/
theorem groupFrom_ne_nil {begun : List Token} {header : Bool} {depth : Nat} {row : List Token} {g : Group}
    (h : g ∈ groupFrom begun header depth row) : g.tokens ≠ [] := by
  induction row generalizing begun header depth with
  | nil =>
    unfold groupFrom at h
    split at h
    · simp at h
    · rename_i hbegun
      obtain rfl := List.mem_singleton.mp h
      simpa using hbegun
  | cons token rest ih =>
    rcases groupFrom_cons begun header depth token rest with ⟨last, heq⟩ | ⟨header', heq⟩
    · rw [heq] at h
      rcases List.mem_cons.mp h with rfl | h
      · simp
      · exact ih h
    · rw [heq] at h
      exact ih h

/-- The tokens of a group stand in the row as they are, in one stretch. -/
theorem groupFrom_stretch {row : List Token} {g : Group} (h : g ∈ groupFrom [] false 0 row) : g.tokens <:+: row := by
  have hgroups : (groupFrom [] false 0 row).flatMap Group.tokens = row := flatMap_groupFrom [] false 0 row
  obtain ⟨front, rest, hrow⟩ := List.append_of_mem h
  rw [hrow, List.flatMap_append, List.flatMap_cons, ← List.append_assoc] at hgroups
  exact ⟨_, _, hgroups⟩

/-- Every token of a row belongs to one of its statements, and the statements hold the tokens in their order. -/
theorem flatMap_statements (indentOf : Nat → Nat) (tokens : List Token) :
    (statements indentOf tokens).flatMap Statement.tokens = tokens := by
  have hgroups : (groupFrom [] false 0 tokens).flatMap Group.tokens = tokens := flatMap_groupFrom [] false 0 tokens
  unfold statements
  rw [List.flatMap_map]
  exact hgroups

theorem statements_ne_nil {indentOf : Nat → Nat} {tokens : List Token} {s : Statement} (h : s ∈ statements indentOf tokens) :
    s.tokens ≠ [] := by
  obtain ⟨g, hg, rfl⟩ := List.mem_map.mp h
  exact groupFrom_ne_nil hg

/-- A statement is made of a group of the row. -/
theorem mem_statements {indentOf : Nat → Nat} {tokens : List Token} {s : Statement} (h : s ∈ statements indentOf tokens) :
    ∃ endsLine, s.tokens <:+: tokens ∧ s.rule = classify ⟨s.tokens, endsLine⟩ := by
  obtain ⟨g, hg, rfl⟩ := List.mem_map.mp h
  exact ⟨g.endsLine, groupFrom_stretch hg, rfl⟩

/-- A statement begins where one of its tokens does. -/
theorem statements_line {indentOf : Nat → Nat} {tokens : List Token} {s : Statement} (h : s ∈ statements indentOf tokens) :
    ∃ t ∈ tokens, t.span.line = s.line := by
  have hne := statements_ne_nil h
  obtain ⟨g, hg, rfl⟩ := List.mem_map.mp h
  obtain ⟨first, rest, hfirst⟩ := List.exists_cons_of_ne_nil hne
  have hfirst : g.tokens = first :: rest := hfirst
  refine ⟨first, (groupFrom_stretch hg).subset (hfirst ▸ List.mem_cons_self), ?_⟩
  unfold Statement.ofGroup
  rw [hfirst]
  rfl

/-! ## A statement on a line of its own -/

/-- A row begins like a header. -/
def startsHeader (row : Row) : Bool := row.head?.any fun s => s.kind == .ident && headerWords.contains s.text

/-- The number of brackets open behind a row. -/
def depthBehind (depth : Nat) (row : Row) : Nat := row.foldl (fun depth s => depthAfter depth s.token) depth

/-- No statement ends at a token of a row: outside brackets stands no semicolon, and no colon in a header. -/
def unbroken (header : Bool) (depth : Nat) : Row → Prop
  | [] => True
  | s :: rest =>
    (depthAfter depth s.token = 0 → s.token.isSymbol ";" = false ∧ (header = true → s.token.isSymbol ":" = false)) ∧
      unbroken header (depthAfter depth s.token) rest

/-- A row that is one statement if it stands on a line of its own. -/
def IsWholeLine (row : Row) : Prop :=
  ∃ front last, row = front ++ [last] ∧ unbroken (startsHeader row) 0 front ∧ depthAfter (depthBehind 0 front) last.token = 0

theorem endsLine_false {line : Nat} {token next : Token} (h : OnLine line token) (hnext : OnLine line next) :
    endsLine token (some next) = false := by
  have hsame : next.span.line = token.endLine := hnext.1.trans h.2.symm
  simp [endsLine, hsame]

theorem endsLine_true {line : Nat} {token : Token} {more : List Token} (h : OnLine line token)
    (hmore : ∀ next, more.head? = some next → next.span.line ≠ line) : endsLine token more.head? = true := by
  cases more with
  | nil => rfl
  | cons next more =>
    have hne : next.span.line ≠ line := hmore next rfl
    unfold endsLine
    rw [List.head?_cons, h.2]
    exact bne_iff_ne.mpr hne

/-- A statement ends at a token if it stands outside brackets and is a semicolon, the last token of its line, or the colon of a header. -/
def stopsAt (header : Bool) (token : Token) (more : List Token) : Bool :=
  token.isSymbol ";" || endsLine token more.head? || (token.isSymbol ":" && header)

/-- The tokens of a statement that was begun are grouped up to the first one at which it ends. -/
theorem groupFrom_stop {line : Nat} {last : Token} {more : List Token} (hlast : OnLine line last) {header : Bool}
    (hstop : stopsAt header last more) {front begun : List Token} {given : Bool} {depth : Nat}
    (hheader : ∀ t, (front ++ [last]).head? = some t →
      (if begun.isEmpty then t.kind == .ident && headerWords.contains t.text else given) = header)
    (hfront : ∀ t ∈ front, OnLine line t) (hunbroken : unbroken header depth (shapes front))
    (hdepth : depthAfter (depthBehind depth (shapes front)) last = 0) :
    groupFrom begun given depth (front ++ last :: more) =
      ⟨begun.reverse ++ (front ++ [last]), endsLine last more.head?⟩ :: groupFrom [] false 0 more := by
  induction front generalizing begun given depth with
  | nil =>
    have hdepth : depthAfter depth last = 0 := hdepth
    have hstop : (last.isSymbol ";" || endsLine last more.head? || (last.isSymbol ":" && header)) = true := hstop
    rw [List.nil_append, groupFrom, hheader last rfl, hdepth, if_pos (by rw [hstop]; rfl), List.reverse_cons, List.nil_append]
  | cons t front ih =>
    obtain ⟨ht, hrest⟩ := List.forall_mem_cons.mp hfront
    obtain ⟨hopen, hunbroken⟩ := hunbroken
    have hnext : endsLine t (front ++ last :: more).head? = false := by
      cases front with
      | nil => exact endsLine_false ht hlast
      | cons u front => exact endsLine_false ht (hrest u List.mem_cons_self)
    have hopen : depthAfter depth t = 0 → t.isSymbol ";" = false ∧ (header = true → t.isSymbol ":" = false) := hopen
    have hstays : ¬(depthAfter depth t == 0 && (t.isSymbol ";" || endsLine t (front ++ last :: more).head? ||
        (t.isSymbol ":" && header))) = true := by
      rw [hnext]
      intro hbreaks
      simp only [Bool.and_eq_true, Bool.or_eq_true, beq_iff_eq, Bool.false_eq_true, or_false] at hbreaks
      obtain ⟨hzero, hsymbol⟩ := hbreaks
      obtain ⟨hsemicolon, hcolon⟩ := hopen hzero
      rcases hsymbol with hsymbol | ⟨hsymbol, hheader⟩
      · rw [hsemicolon] at hsymbol
        nomatch hsymbol
      · rw [hcolon hheader] at hsymbol
        nomatch hsymbol
    have hunbroken : unbroken header (depthAfter depth t) (shapes front) := hunbroken
    have hrecursion : groupFrom (t :: begun) header (depthAfter depth t) (front ++ last :: more) =
        ⟨(t :: begun).reverse ++ (front ++ [last]), endsLine last more.head?⟩ :: groupFrom [] false 0 more :=
      ih (fun _ _ => rfl) hrest hunbroken hdepth
    rw [List.cons_append, groupFrom, hheader t rfl, if_neg hstays, hrecursion, List.reverse_cons, List.append_assoc]
    rfl

/-- The tokens of a statement are a group, if it ends at the last of them. -/
theorem groupFrom_statement {line : Nat} {tokens more : List Token} (h : IsWholeLine (shapes tokens))
    (htokens : ∀ t ∈ tokens, OnLine line t)
    (hstop : ∀ last, tokens.getLast? = some last → stopsAt (startsHeader (shapes tokens)) last more) :
    ∃ last, tokens.getLast? = some last ∧
      groupFrom [] false 0 (tokens ++ more) = ⟨tokens, endsLine last more.head?⟩ :: groupFrom [] false 0 more := by
  obtain ⟨front, last, hrow, hunbroken, hdepth⟩ := h
  obtain ⟨front', last', rfl, rfl, hlast⟩ := List.map_eq_append_iff.mp hrow
  obtain ⟨t, rfl, rfl⟩ := List.map_eq_singleton_iff.mp hlast
  have hfront : ∀ u ∈ front', OnLine line u := fun u hu => htokens u (List.mem_append_left _ hu)
  have ht : OnLine line t := htokens t (List.mem_append_right _ (List.mem_singleton.mpr rfl))
  have hheader : ∀ u, (front' ++ [t]).head? = some u →
      (if ([] : List Token).isEmpty then u.kind == .ident && headerWords.contains u.text else false) =
        startsHeader (shapes (front' ++ [t])) := by
    intro u hu
    unfold startsHeader shapes
    rw [List.head?_map, hu]
    rfl
  refine ⟨t, List.getLast?_concat, ?_⟩
  rw [List.append_assoc]
  exact groupFrom_stop ht (hstop t List.getLast?_concat) hheader hfront hunbroken hdepth

/-- The tokens of a whole line are a group. -/
theorem groupFrom_wholeLine {line : Nat} {tokens more : List Token} (h : IsWholeLine (shapes tokens))
    (htokens : ∀ t ∈ tokens, OnLine line t) (hmore : ∀ next, more.head? = some next → next.span.line ≠ line) :
    groupFrom [] false 0 (tokens ++ more) = ⟨tokens, true⟩ :: groupFrom [] false 0 more := by
  have hends : ∀ last, tokens.getLast? = some last → endsLine last more.head? = true :=
    fun last hlast => endsLine_true (htokens last (List.mem_of_getLast? hlast)) hmore
  have hstop : ∀ last, tokens.getLast? = some last → stopsAt (startsHeader (shapes tokens)) last more = true := by
    intro last hlast
    rw [stopsAt, hends last hlast, Bool.or_true, Bool.true_or]
  obtain ⟨last, hlast, hgroups⟩ := groupFrom_statement h htokens hstop
  rw [hgroups, hends last hlast]

/-! ### The rows of simple statements and headers -/

/-- A token in a row whose brackets are closed changes the number of open brackets by the same amount inside other brackets. -/
theorem nesting_cons {s : Shape} {rest : Row} {depth depth' : Nat} (h : nesting depth (s :: rest) = some depth') :
    ∃ after, (∀ k, depthAfter (depth + k) s.token = after + k) ∧ nesting after rest = some depth' := by
  unfold nesting at h
  unfold depthAfter
  split at h
  · rename_i hopen
    refine ⟨depth + 1, fun k => ?_, h⟩
    rw [if_pos hopen]
    omega
  · rename_i hopen
    split at h
    · rename_i hclose
      cases depth with
      | zero => nomatch h
      | succ depth =>
        refine ⟨depth, fun k => ?_, h⟩
        rw [if_neg hopen, if_pos hclose]
        omega
    · rename_i hclose
      refine ⟨depth, fun k => ?_, h⟩
      rw [if_neg hopen, if_neg hclose]

/-- Behind a row whose brackets are closed in it the number of open brackets is the same as in front of it, and inside other
brackets no statement ends in it. -/
theorem nesting_raise {row : Row} {depth depth' : Nat} (h : nesting depth row = some depth') (k : Nat) :
    depthBehind (depth + k) row = depth' + k ∧ (0 < k → ∀ header, unbroken header (depth + k) row) := by
  induction row generalizing depth with
  | nil =>
    obtain rfl := Option.some.inj h
    exact ⟨rfl, fun _ _ => trivial⟩
  | cons s rest ih =>
    obtain ⟨after, hafter, hrest⟩ := nesting_cons h
    obtain ⟨hbehind, hunbroken⟩ := ih hrest
    constructor
    · rw [depthBehind, List.foldl_cons, hafter]
      exact hbehind
    · intro hk header
      refine ⟨fun hzero => ?_, ?_⟩
      · rw [hafter] at hzero
        omega
      · rw [hafter]
        exact hunbroken hk header

theorem depthBehind_append (depth : Nat) (row more : Row) :
    depthBehind depth (row ++ more) = depthBehind (depthBehind depth row) more := List.foldl_append

theorem unbroken_append {header : Bool} {depth : Nat} {row more : Row} :
    unbroken header depth (row ++ more) ↔ unbroken header depth row ∧ unbroken header (depthBehind depth row) more := by
  induction row generalizing depth with
  | nil => simp [unbroken, depthBehind]
  | cons s row ih =>
    rw [List.cons_append, unbroken, unbroken, ih, and_assoc]
    rfl

/-- Without a semicolon outside brackets no statement ends in a row that does not begin like a header. -/
theorem semicolonsInside.unbroken {depth : Nat} {row : Row} (h : semicolonsInside depth row) : unbroken false depth row := by
  induction row generalizing depth with
  | nil => trivial
  | cons s rest ih =>
    obtain ⟨hs, hrest⟩ := h
    refine ⟨fun hzero => ⟨?_, nofun⟩, ih hrest⟩
    cases hsymbol : s.token.isSymbol ";" with
    | false => rfl
    | true =>
      -- a semicolon is no bracket, so it stands outside brackets as well
      have htoken : s = .symbol ";" := by
        unfold Token.isSymbol at hsymbol
        obtain ⟨hkind, htext⟩ := (Bool.and_eq_true _ _).mp hsymbol
        cases s
        simp only [Shape.token, beq_iff_eq] at hkind htext
        rw [hkind, htext]
        rfl
      rw [htoken] at hzero hs
      exact absurd rfl (hs hzero)

theorem IsSimple.wholeLine {row : Row} (h : IsSimple row) : IsWholeLine row := by
  obtain ⟨body, hrow, hbalanced, hinside⟩ := h.terminated
  have hstart : startsHeader row = false := by
    unfold startsHeader
    cases hhead : row.head? with
    | none => rfl
    | some s =>
      rw [Option.any_some]
      rw [← Bool.not_eq_true]
      intro hword
      simp only [Bool.and_eq_true, beq_iff_eq, List.contains_iff_mem] at hword
      refine h.head s.text hword.2 ?_
      rw [hhead, Shape.word, ← hword.1]
  refine ⟨body, .symbol ";", hrow, ?_, ?_⟩
  · rw [hstart]
    exact hinside.unbroken
  · have hbehind : depthBehind 0 body = 0 := (nesting_raise hbalanced 0).1
    rw [hbehind]
    rfl

/-- A row between brackets behind words, in front of a colon. -/
theorem wholeLine_bracketed (words : Row) {inner : Row} (hwords : ∀ s ∈ words, s.kind = .ident) (hbalanced : Balanced inner) :
    IsWholeLine (words ++ .symbol "(" :: (inner ++ [.symbol ")", .symbol ":"])) := by
  have hdepth : depthBehind 0 words = 0 := by
    clear hbalanced
    induction words with
    | nil => rfl
    | cons s words ih =>
      obtain ⟨hs, hrest⟩ := List.forall_mem_cons.mp hwords
      have : depthAfter 0 s.token = 0 := by simp [depthAfter, isOpen, isClose, Shape.token, hs]
      rw [depthBehind, List.foldl_cons, this]
      exact ih hrest
  have hunbroken : ∀ header, unbroken header 0 words := by
    intro header
    clear hdepth hbalanced
    induction words with
    | nil => trivial
    | cons s words ih =>
      obtain ⟨hs, hrest⟩ := List.forall_mem_cons.mp hwords
      have hafter : depthAfter 0 s.token = 0 := by simp [depthAfter, isOpen, isClose, Shape.token, hs]
      refine ⟨fun _ => ⟨?_, fun _ => ?_⟩, ?_⟩
      · simp [Token.isSymbol, Shape.token, hs]
      · simp [Token.isSymbol, Shape.token, hs]
      · rw [hafter]
        exact ih hrest
  obtain ⟨hbehind, hinside⟩ := nesting_raise hbalanced 1
  refine ⟨words ++ .symbol "(" :: (inner ++ [.symbol ")"]), .symbol ":", by simp, ?_, ?_⟩
  · generalize startsHeader _ = header
    rw [unbroken_append, hdepth]
    refine ⟨hunbroken header, nofun, ?_⟩
    rw [unbroken_append]
    refine ⟨hinside Nat.one_pos header, ?_⟩
    change unbroken header (depthBehind (0 + 1) inner) [.symbol ")"]
    rw [hbehind]
    exact ⟨fun _ => ⟨rfl, fun _ => rfl⟩, trivial⟩
  · rw [depthBehind_append, hdepth]
    change depthAfter (depthBehind (0 + 1) (inner ++ [.symbol ")"])) _ = 0
    rw [depthBehind_append, hbehind]
    rfl

theorem IsFunction.wholeLine {row : Row} (h : IsFunction row) : IsWholeLine row := by
  obtain ⟨name, params, rfl, hbalanced⟩ := h
  exact wholeLine_bracketed [.word "fun", .word name] (by simp [Shape.word]) hbalanced

theorem IsConditional.wholeLine {word : String} {row : Row} (h : IsConditional word row) : IsWholeLine row := by
  obtain ⟨cond, rfl, hbalanced⟩ := h
  exact wholeLine_bracketed [.word word] (by simp [Shape.word]) hbalanced

theorem IsElse.wholeLine {row : Row} (h : IsElse row) : IsWholeLine row := by
  refine ⟨[.word "else"], .symbol ":", h, ?_, rfl⟩
  exact ⟨fun _ => ⟨rfl, fun _ => rfl⟩, trivial⟩

end HostScript.Dialect
