import Mathlib
import HostScript.Token.Lexer

/-!
# Gaps

What stands between tokens: blanks, line ends and comments. `gapEnds` says whether a text is a gap and whether it ends inside a
comment. The lemmas below relate it to the reader of gaps, `Lexer.skipGap`, in both directions.
-/

namespace HostScript.Lexer

/-- Whether a gap goes on with a character in front of another, and then whether it is inside a comment behind it. -/
def gapNext (comment : Bool) (c : Char) (next : Option Char) : Option Bool :=
  if c == '\n' then some false
  else if comment then some true
  else if c == ' ' || c == '\t' then some false
  else if c == '#' then some true
  else if c == '\r' && next == some '\n' then some false
  else none

/-- The characters with which a gap goes on outside of a comment. -/
theorem gapNext_code {c : Char} {next : Option Char} {inComment : Bool} (h : gapNext false c next = some inComment) :
    (c ∈ [' ', '\t', '\n'] ∧ inComment = false) ∨ (c = '#' ∧ inComment = true) ∨ (c = '\r' ∧ next = some '\n' ∧ inComment = false) := by
  unfold gapNext at h
  simp only [List.mem_cons, List.not_mem_nil, or_false]
  grind

/-- The position after a character of a gap. -/
def gapMove (comment : Bool) (c : Char) (pos : Position) : Position :=
  if c == '\n' then pos.newline
  else pos.pass c (if comment then 0 else if c == ' ' then 1 else if c == '\t' then 4 else 0)

/-- Whether a text that begins inside a comment or outside of one is a gap, and then whether it ends inside a comment. -/
def gapEnds (comment : Bool) : List Char → Option Bool
  | [] => some comment
  | c :: rest => match gapNext comment c rest.head? with
    | some next => gapEnds next rest
    | none => none

/-- The position after a gap. -/
def passGap (comment : Bool) (pos : Position) : List Char → Position
  | [] => pos
  | c :: rest => passGap ((gapNext comment c rest.head?).getD false) (gapMove comment c pos) rest

/-- A text that can stand between two tokens. -/
def IsGap (gap : List Char) : Prop := gapEnds false gap = some false

/-- The reader of gaps goes one character on, or it stops. -/
theorem skipGap_cons (comment : Bool) (read : List Char) (pos : Position) (c : Char) (rest : List Char) :
    skipGap comment read pos (c :: rest) = match gapNext comment c rest.head? with
      | some next => skipGap next (c :: read) (gapMove comment c pos) rest
      | none => if c == '\r' then .error (faultAt pos .strayReturn) else .ok (read, c :: rest, pos) := by
  unfold gapNext gapMove
  rw [skipGap]
  by_cases hnl : c == '\n'
  · rw [if_pos hnl, if_pos hnl, if_pos hnl]
  · rw [if_neg hnl, if_neg hnl, if_neg hnl]
    cases comment with
    | true => rfl
    | false =>
      simp only [Bool.false_eq_true, if_false]
      by_cases hspace : c == ' '
      · simp only [hspace, Bool.true_or, if_true]
      · by_cases htab : c == '\t'
        · simp only [hspace, htab, Bool.or_true, if_true, if_false, Bool.false_eq_true]
        · by_cases hhash : c == '#'
          · simp only [hspace, htab, hhash, Bool.or_false, if_true, if_false, Bool.false_eq_true]
          · by_cases hcr : c == '\r'
            · by_cases hnext : rest.head? == some '\n' <;>
                simp only [hspace, htab, hhash, hcr, hnext, Bool.or_false, Bool.and_self, Bool.and_false, if_true, if_false,
                  Bool.false_eq_true]
            · simp only [hspace, htab, hhash, hcr, Bool.or_false, Bool.false_and, if_false, Bool.false_eq_true]

/-- A gap that goes on in front of a line feed or of anything else goes on in front of what replaces it. -/
theorem gapNext_head {comment next : Bool} {c : Char} {head head' : Option Char} (h : gapNext comment c head = some next)
    (hhead : head = some '\n' → head' = some '\n') : gapNext comment c head' = some next := by
  by_cases hn : head = some '\n'
  · rw [hhead hn, ← hn]
    exact h
  · unfold gapNext at h ⊢
    rw [show (head == some '\n') = false from beq_false_of_ne hn, Bool.and_false] at h
    grind

theorem head_append {gap rest : List Char} (h : gap.head? = some '\n') : (gap ++ rest).head? = some '\n' := by
  rw [List.head?_append, h]
  rfl

/-- Gaps are put together. -/
theorem gapEnds_append {comment comment' : Bool} {gap rest : List Char} (h : gapEnds comment gap = some comment') :
    gapEnds comment (gap ++ rest) = gapEnds comment' rest := by
  induction gap generalizing comment with
  | nil =>
    obtain rfl := Option.some.inj h
    rfl
  | cons c gap ih =>
    unfold gapEnds at h
    split at h
    · rename_i next hnext
      rw [List.cons_append, gapEnds.eq_2, gapNext_head hnext head_append]
      exact ih h
    · nomatch h

/-- The reader of gaps goes over a gap, keeps it in reverse and goes on behind it. -/
theorem skipGap_append {comment comment' : Bool} {gap : List Char} (h : gapEnds comment gap = some comment') (read : List Char)
    (pos : Position) (rest : List Char) :
    skipGap comment read pos (gap ++ rest) = skipGap comment' (gap.reverse ++ read) (passGap comment pos gap) rest := by
  induction gap generalizing comment read pos with
  | nil =>
    obtain rfl := Option.some.inj h
    rfl
  | cons c gap ih =>
    unfold gapEnds at h
    split at h
    · rename_i next hnext
      rw [List.cons_append, skipGap_cons, gapNext_head hnext head_append]
      unfold passGap
      rw [hnext, List.reverse_cons, List.append_assoc, List.singleton_append]
      exact ih h _ _
    · nomatch h

/-- What follows a character matters only behind a carriage return. -/
theorem gapNext_next {c : Char} (hc : c ≠ '\r') (comment : Bool) (next next' : Option Char) :
    gapNext comment c next = gapNext comment c next' := by
  unfold gapNext
  rw [show (c == '\r') = false from beq_false_of_ne hc, Bool.false_and, Bool.false_and]

/-- Outside a comment the reader of gaps stops in front of a character with which no gap goes on. -/
theorem skipGap_stop {c : Char} {rest : List Char} (h : gapNext false c none = none) (hc : c ≠ '\r') (read : List Char)
    (pos : Position) : skipGap false read pos (c :: rest) = .ok (read, c :: rest, pos) := by
  rw [skipGap_cons, gapNext_next hc, h]
  dsimp only
  rw [if_neg (by simpa using hc)]

/-- What the reader of gaps goes over is a gap. It stops at the end of the text, or outside a comment in front of a character that
begins no gap. -/
theorem skipGap_ok {comment : Bool} {read gap text rest : List Char} {pos after : Position}
    (h : skipGap comment read pos text = .ok (gap, rest, after)) :
    ∃ skipped comment', text = skipped ++ rest ∧ gap = skipped.reverse ++ read ∧ gapEnds comment skipped = some comment' ∧
      after = passGap comment pos skipped ∧
      ∀ c more, rest = c :: more → comment' = false ∧ c ≠ '\r' ∧ gapNext false c more.head? = none := by
  induction text generalizing comment read pos with
  | nil =>
    obtain ⟨rfl, hrest⟩ := Prod.mk.inj (Except.ok.inj h)
    obtain ⟨rfl, rfl⟩ := Prod.mk.inj hrest
    exact ⟨[], comment, rfl, rfl, rfl, rfl, nofun⟩
  | cons c text ih =>
    rw [skipGap_cons] at h
    cases hnext : gapNext comment c text.head? with
    | some next =>
      rw [hnext] at h
      obtain ⟨skipped, comment', rfl, hgap, hends, hafter, hstop⟩ := ih h
      -- a line feed that a carriage return needs is part of the gap
      have hhead : (skipped ++ rest).head? = some '\n' → skipped.head? = some '\n' := by
        intro hhead
        cases skipped with
        | cons d skipped => exact hhead
        | nil =>
          cases rest with
          | nil => nomatch hhead
          | cons d more =>
            obtain rfl := Option.some.inj hhead
            nomatch (hstop '\n' more rfl).2.2
      have hnext' := gapNext_head hnext hhead
      refine ⟨c :: skipped, comment', rfl, ?_, ?_, ?_, hstop⟩
      · rw [hgap, List.reverse_cons, List.append_assoc, List.singleton_append]
      · rw [gapEnds.eq_2, hnext']
        exact hends
      · rw [hafter, passGap.eq_2, hnext']
        rfl
    | none =>
      rw [hnext] at h
      dsimp only at h
      split at h
      · nomatch h
      · rename_i hcr
        obtain ⟨rfl, hrest⟩ := Prod.mk.inj (Except.ok.inj h)
        obtain ⟨rfl, rfl⟩ := Prod.mk.inj hrest
        refine ⟨[], comment, rfl, rfl, rfl, rfl, fun d more heq => ?_⟩
        obtain ⟨rfl, rfl⟩ := List.cons.inj heq
        cases comment with
        | false => exact ⟨rfl, by simpa using hcr, hnext⟩
        | true =>
          unfold gapNext at hnext
          split at hnext <;> nomatch hnext

/-- The reader of gaps fails at a carriage return outside a comment that no line feed follows, behind a gap. -/
theorem skipGap_error {comment : Bool} {read text : List Char} {pos : Position} {fault : LexFault}
    (h : skipGap comment read pos text = .error fault) :
    ∃ gap rest, text = gap ++ '\r' :: rest ∧ gapEnds comment gap = some false ∧ rest.head? ≠ some '\n' ∧
      fault.problem = .strayReturn := by
  induction text generalizing comment read pos with
  | nil => nomatch h
  | cons c text ih =>
    rw [skipGap_cons] at h
    cases hnext : gapNext comment c text.head? with
    | some next =>
      rw [hnext] at h
      obtain ⟨gap, rest, rfl, hends, hrest, hfault⟩ := ih h
      have hhead : (gap ++ '\r' :: rest).head? = some '\n' → gap.head? = some '\n' := by
        intro hhead
        cases gap with
        | nil => nomatch hhead
        | cons d gap => exact hhead
      refine ⟨c :: gap, rest, rfl, ?_, hrest, hfault⟩
      rw [gapEnds.eq_2, gapNext_head hnext hhead]
      exact hends
    | none =>
      rw [hnext] at h
      dsimp only at h
      split at h
      · rename_i hcr
        obtain rfl := beq_iff_eq.mp hcr
        obtain rfl := Except.error.inj h
        cases comment with
        | true => nomatch hnext
        | false =>
          refine ⟨[], text, rfl, rfl, fun hhead => ?_, rfl⟩
          rw [hhead] at hnext
          nomatch hnext
      · nomatch h

end HostScript.Lexer
