import Mathlib
import HostScript.Dialect.Block

/-!
# Statements arranged into blocks

The two functions that arrange a row of statements carry the proof that they leave no more than they were given. The equations here
say what they give and what they leave, apart from it, and `listed_blocks` that the tree of a row holds the statements of the row,
each once and in their order.
-/

namespace HostScript.Dialect

variable {frames : List Frame} {s header previous : Statement} {rest row : List Statement}

/-- A row that is left as it is has not grown: the proof an empty arrangement carries. -/
theorem length_le_self (row : List Statement) : row.length ≤ row.length := Nat.le_refl _

/-- The alternates behind the body of a header: only an `if` has any. -/
def alternatesBehind (frames : List Frame) (header : Statement) (row : List Statement) : Arranged (List Branch) row :=
  if header.rule = .if_ then arrangeAlternates frames header header row else ⟨[], row, length_le_self row⟩

theorem arrange_nil (frames : List Frame) : (arrange frames []).result = [] ∧ (arrange frames []).rest = [] := by
  rw [arrange]
  exact ⟨rfl, rfl⟩

/-- A statement that a frame refuses is left. -/
theorem arrange_refused (h : allAccept frames false s = false) :
    (arrange frames (s :: rest)).result = [] ∧ (arrange frames (s :: rest)).rest = s :: rest := by
  rw [arrange, if_pos (by simp [h])]
  exact ⟨rfl, rfl⟩

/-- A simple statement is a node, and arranging goes on behind it. -/
theorem arrange_simple (h : allAccept frames false s) (hopens : s.rule.opensBlock = false) :
    (arrange frames (s :: rest)).result = .simple s :: (arrange frames rest).result ∧
      (arrange frames (s :: rest)).rest = (arrange frames rest).rest := by
  rw [arrange, if_neg (by simp [h]), if_pos (by simp [hopens])]
  exact ⟨rfl, rfl⟩

/-- A header takes its body and its alternates, and arranging goes on behind them. -/
theorem arrange_block (h : allAccept frames false s) (hopens : s.rule.opensBlock) :
    let body := arrange (.ofHeader s rest.head? :: frames) rest
    let alternates := alternatesBehind frames s body.rest
    (arrange frames (s :: rest)).result =
        .block (.mk s body.result) alternates.result :: (arrange frames alternates.rest).result ∧
      (arrange frames (s :: rest)).rest = (arrange frames alternates.rest).rest := by
  rw [arrange, if_neg (by simp [h]), if_neg (by simp [hopens])]
  exact ⟨rfl, rfl⟩

theorem arrangeAlternates_nil (frames : List Frame) (header previous : Statement) :
    (arrangeAlternates frames header previous []).result = [] ∧ (arrangeAlternates frames header previous []).rest = [] := by
  rw [arrangeAlternates]
  exact ⟨rfl, rfl⟩

/-- A statement that is not attached is left. -/
theorem arrangeAlternates_refused (h : isAttached frames header previous s = false) :
    (arrangeAlternates frames header previous (s :: rest)).result = [] ∧
      (arrangeAlternates frames header previous (s :: rest)).rest = s :: rest := by
  rw [arrangeAlternates, if_pos (by simp [h])]
  exact ⟨rfl, rfl⟩

/-- An `else` takes its body and ends the alternates. -/
theorem arrangeAlternates_else (h : isAttached frames header previous s) (hrule : s.rule = .else_) :
    let body := arrange (.ofHeader s rest.head? :: frames) rest
    (arrangeAlternates frames header previous (s :: rest)).result = [.mk s body.result] ∧
      (arrangeAlternates frames header previous (s :: rest)).rest = body.rest := by
  rw [arrangeAlternates, if_neg (by simp [h])]
  simp only [hrule, if_true, and_self]

/-- An `elif` takes its body, and more alternates may follow. -/
theorem arrangeAlternates_elif (h : isAttached frames header previous s) (hrule : s.rule ≠ .else_) :
    let body := arrange (.ofHeader s rest.head? :: frames) rest
    let more := arrangeAlternates frames header s body.rest
    (arrangeAlternates frames header previous (s :: rest)).result = .mk s body.result :: more.result ∧
      (arrangeAlternates frames header previous (s :: rest)).rest = more.rest := by
  rw [arrangeAlternates, if_neg (by simp [h])]
  simp only [hrule, if_false, and_self]

/-! ## Induction -/

/-- Induction along the arrangement of a row: what holds of a row (`P`) and of the alternates in front of a row (`Q`) is shown for every
way in which the row is arranged, from what holds of the rows that are arranged in turn. -/
theorem arrange_induction {P : List Frame → List Statement → Prop} {Q : List Frame → Statement → Statement → List Statement → Prop}
    (nil : ∀ frames, P frames [])
    (refused : ∀ frames s rest, allAccept frames false s = false → P frames (s :: rest))
    (simple : ∀ frames s rest, allAccept frames false s → s.rule.opensBlock = false → P frames rest → P frames (s :: rest))
    (block : ∀ frames s rest, allAccept frames false s → s.rule.opensBlock →
      let body := arrange (.ofHeader s rest.head? :: frames) rest
      P (.ofHeader s rest.head? :: frames) rest → (s.rule = .if_ → Q frames s s body.rest) →
        P frames (alternatesBehind frames s body.rest).rest → P frames (s :: rest))
    (alternates_nil : ∀ frames header previous, Q frames header previous [])
    (alternates_refused : ∀ frames header previous s rest, isAttached frames header previous s = false →
      Q frames header previous (s :: rest))
    (alternates_else : ∀ frames header previous s rest, isAttached frames header previous s → s.rule = .else_ →
      P (.ofHeader s rest.head? :: frames) rest → Q frames header previous (s :: rest))
    (alternates_elif : ∀ frames header previous s rest, isAttached frames header previous s → s.rule ≠ .else_ →
      P (.ofHeader s rest.head? :: frames) rest → Q frames header s (arrange (.ofHeader s rest.head? :: frames) rest).rest →
        Q frames header previous (s :: rest))
    (frames : List Frame) (row : List Statement) : P frames row ∧ ∀ header previous, Q frames header previous row := by
  suffices h : ∀ n, (∀ frames row, row.length ≤ n → P frames row) ∧
      ∀ frames header previous row, row.length ≤ n → Q frames header previous row from
    ⟨(h row.length).1 frames row le_rfl, fun header previous => (h row.length).2 frames header previous row le_rfl⟩
  intro n
  induction n with
  | zero =>
    constructor
    · intro frames row hlength
      obtain rfl := List.eq_nil_of_length_eq_zero (Nat.le_zero.mp hlength)
      exact nil frames
    · intro frames header previous row hlength
      obtain rfl := List.eq_nil_of_length_eq_zero (Nat.le_zero.mp hlength)
      exact alternates_nil frames header previous
  | succ n ih =>
    obtain ⟨ihP, ihQ⟩ := ih
    constructor
    · intro frames row hlength
      cases row with
      | nil => exact nil frames
      | cons s rest =>
        have hlength : rest.length ≤ n := Nat.le_of_succ_le_succ hlength
        cases haccept : allAccept frames false s with
        | false => exact refused frames s rest haccept
        | true =>
          cases hopens : s.rule.opensBlock with
          | false => exact simple frames s rest haccept hopens (ihP frames rest hlength)
          | true =>
            have hbody := Nat.le_trans (arrange (.ofHeader s rest.head? :: frames) rest).rest_le hlength
            have hafter := Nat.le_trans (alternatesBehind frames s _).rest_le hbody
            exact block frames s rest haccept hopens (ihP _ rest hlength) (fun _ => ihQ frames s s _ hbody) (ihP frames _ hafter)
    · intro frames header previous row hlength
      cases row with
      | nil => exact alternates_nil frames header previous
      | cons s rest =>
        have hlength : rest.length ≤ n := Nat.le_of_succ_le_succ hlength
        cases hattached : isAttached frames header previous s with
        | false => exact alternates_refused frames header previous s rest hattached
        | true =>
          have hbody := Nat.le_trans (arrange (.ofHeader s rest.head? :: frames) rest).rest_le hlength
          by_cases hrule : s.rule = .else_
          · exact alternates_else frames header previous s rest hattached hrule (ihP _ rest hlength)
          · exact alternates_elif frames header previous s rest hattached hrule (ihP _ rest hlength) (ihQ frames header s _ hbody)

/-! ## Nothing is lost or made up -/

/-- A statement, and whether it opens a block. -/
def mark (s : Statement) : Bool × Statement := (s.rule.opensBlock, s)

mutual

/-- The statements of nodes in their order; those that are headers of blocks are marked. -/
def listed : List Node → List (Bool × Statement)
  | [] => []
  | .simple s :: rest => (false, s) :: listed rest
  | .block first alternates :: rest => listedBranch first ++ listedAlternates alternates ++ listed rest

/-- The header of a branch and the statements of its body. -/
def listedBranch : Branch → List (Bool × Statement)
  | .mk header body => (true, header) :: listed body

/-- The statements of alternates in their order. -/
def listedAlternates : List Branch → List (Bool × Statement)
  | [] => []
  | branch :: rest => listedBranch branch ++ listedAlternates rest

end

/-- What has been arranged of a row and what is left make up the row, and the headers of blocks are the statements that open one. -/
def Accounts {α : Type} (list : α → List (Bool × Statement)) {row : List Statement} (arranged : Arranged α row) : Prop :=
  list arranged.result ++ arranged.rest.map mark = row.map mark

/-- The alternate of an `if` opens a block. -/
theorem isAttached_opensBlock {frames : List Frame} (h : isAttached frames header previous s) : s.rule.opensBlock = true := by
  unfold isAttached at h
  simp only [Bool.and_eq_true] at h
  have halternate := h.1.1
  cases hrule : s.rule <;> simp_all [Rule.isAlternate, Rule.opensBlock]

/-- An arrangement accounts for every statement of its row. -/
theorem accounts (frames : List Frame) (row : List Statement) : Accounts listed (arrange frames row) ∧
    ∀ header previous, Accounts listedAlternates (arrangeAlternates frames header previous row) := by
  refine arrange_induction (P := fun frames row => Accounts listed (arrange frames row))
    (Q := fun frames header previous row => Accounts listedAlternates (arrangeAlternates frames header previous row))
    ?nil ?refused ?simple ?block ?alternates_nil ?alternates_refused ?alternates_else ?alternates_elif frames row
  case nil =>
    intro frames
    obtain ⟨hresult, hrest⟩ := arrange_nil frames
    unfold Accounts
    rw [hresult, hrest]
    rfl
  case refused =>
    intro frames s rest haccept
    obtain ⟨hresult, hrest⟩ := arrange_refused haccept
    unfold Accounts
    rw [hresult, hrest]
    rfl
  case simple =>
    intro frames s rest haccept hopens hnodes
    obtain ⟨hresult, hrest⟩ := arrange_simple haccept hopens
    unfold Accounts at hnodes ⊢
    rw [hresult, hrest, listed, List.cons_append, hnodes, List.map_cons, mark, hopens]
  case block =>
    intro frames s rest haccept hopens body hbody halternates hnodes
    obtain ⟨hresult, hrest⟩ := arrange_block haccept hopens
    have hbehind : Accounts listedAlternates (alternatesBehind frames s body.rest) := by
      unfold alternatesBehind
      split
      · rename_i hrule
        exact halternates hrule
      · rfl
    unfold Accounts at hbody hbehind hnodes ⊢
    rw [hresult, hrest, List.map_cons, ← hbody, ← hbehind, ← hnodes, mark, hopens]
    simp only [listed, listedBranch, List.append_assoc, List.cons_append]
    rfl
  case alternates_nil =>
    intro frames header previous
    obtain ⟨hresult, hrest⟩ := arrangeAlternates_nil frames header previous
    unfold Accounts
    rw [hresult, hrest]
    rfl
  case alternates_refused =>
    intro frames header previous s rest hattached
    obtain ⟨hresult, hrest⟩ := arrangeAlternates_refused hattached
    unfold Accounts
    rw [hresult, hrest]
    rfl
  case alternates_else =>
    intro frames header previous s rest hattached hrule hbody
    obtain ⟨hresult, hrest⟩ := arrangeAlternates_else hattached hrule
    unfold Accounts at hbody ⊢
    rw [hresult, hrest, List.map_cons, ← hbody, mark, isAttached_opensBlock hattached]
    simp only [listedAlternates, listedBranch, List.append_nil, List.cons_append]
  case alternates_elif =>
    intro frames header previous s rest hattached hrule hbody halternates
    obtain ⟨hresult, hrest⟩ := arrangeAlternates_elif hattached hrule
    unfold Accounts at hbody halternates ⊢
    rw [hresult, hrest, List.map_cons, ← hbody, ← halternates, mark, isAttached_opensBlock hattached]
    simp only [listedAlternates, listedBranch, List.append_assoc, List.cons_append]

theorem arrange_accounts (frames : List Frame) (row : List Statement) : Accounts listed (arrange frames row) :=
  (accounts frames row).1

theorem alternates_accounts (frames : List Frame) (header : Statement) (row : List Statement) :
    Accounts listedAlternates (alternatesBehind frames header row) := by
  unfold alternatesBehind
  split
  · exact (accounts frames row).2 header header
  · rfl

/-- Outside all blocks no statement is left. -/
theorem arrange_rest_nil (row : List Statement) : (arrange [] row).rest = [] := by
  refine (arrange_induction (P := fun frames row => frames = [] → (arrange frames row).rest = []) (Q := fun _ _ _ _ => True)
    ?nil ?refused ?simple ?block (fun _ _ _ => trivial) (fun _ _ _ _ _ _ => trivial) (fun _ _ _ _ _ _ _ _ => trivial)
    (fun _ _ _ _ _ _ _ _ _ => trivial) [] row).1 rfl
  case nil =>
    intro frames _
    exact (arrange_nil frames).2
  case refused =>
    rintro frames s rest haccept rfl
    contradiction
  case simple =>
    intro frames s rest haccept hopens hrest hframes
    exact (arrange_simple haccept hopens).2.trans (hrest hframes)
  case block =>
    intro frames s rest haccept hopens body _ _ hrest hframes
    exact (arrange_block haccept hopens).2.trans (hrest hframes)

/-- The tree of a row holds the statements of the row, each once and in their order, and its headers are those that open a block. -/
theorem listed_blocks (row : List Statement) : listed (blocks row) = row.map mark := by
  have h : listed _ ++ _ = _ := arrange_accounts [] row
  rw [arrange_rest_nil, List.map_nil, List.append_nil] at h
  exact h

end HostScript.Dialect
