import Mathlib
import HostScript.Proofs.Dialect.Arranged

/-!
# The blocks of a tree and their places

`openings` lists, for each statement of a tree in its order, the block that the statement opens and the blocks around it. In the tree
of a row every block is arranged by itself: its body is what the frames of the blocks around it and its own frame make of the row
behind its header (`arrange_openings`).
-/

namespace HostScript.Dialect

/-- A block, and the blocks around it from the innermost outwards. -/
structure Opening where
  around : List Branch
  block : Branch

mutual

/-- For each statement of nodes, in their order, the block that it opens, if it opens one. -/
def openings (around : List Branch) : List Node → List (Option Opening)
  | [] => []
  | .simple _ :: rest => none :: openings around rest
  | .block first alternates :: rest =>
    branchOpenings around first ++ (alternateOpenings around alternates ++ openings around rest)

/-- The openings of the header of a branch and of the statements of its body. -/
def branchOpenings (around : List Branch) : Branch → List (Option Opening)
  | .mk header body => some ⟨around, .mk header body⟩ :: openings (.mk header body :: around) body

/-- The openings of alternates. -/
def alternateOpenings (around : List Branch) : List Branch → List (Option Opening)
  | [] => []
  | branch :: rest => branchOpenings around branch ++ alternateOpenings around rest

end

/-- The header of a branch. -/
def Branch.header : Branch → Statement
  | .mk header _ => header

/-- The statements in the body of a branch, at any depth, in their order. -/
def Branch.statements : Branch → List Statement
  | .mk _ body => (listed body).map Prod.snd

/-- How far a block extends, from its header and the first statement of its body. -/
def Branch.frame (branch : Branch) : Frame := .ofHeader branch.header branch.statements.head?

/-! ## Openings and statements -/

mutual

/-- The statements that are listed as headers are those with an opening. -/
theorem openings_isSome (around : List Branch) (nodes : List Node) :
    (openings around nodes).map Option.isSome = (listed nodes).map Prod.fst := by
  cases nodes with
  | nil => rfl
  | cons node rest =>
    cases node with
    | simple s => exact congrArg (false :: ·) (openings_isSome around rest)
    | block first alternates =>
      rw [openings, listed, List.append_assoc, List.map_append, List.map_append, List.map_append, List.map_append,
        branchOpenings_isSome around first, alternateOpenings_isSome around alternates, openings_isSome around rest]

theorem branchOpenings_isSome (around : List Branch) (branch : Branch) :
    (branchOpenings around branch).map Option.isSome = (listedBranch branch).map Prod.fst := by
  cases branch with
  | mk header body => exact congrArg (true :: ·) (openings_isSome (.mk header body :: around) body)

theorem alternateOpenings_isSome (around : List Branch) (branches : List Branch) :
    (alternateOpenings around branches).map Option.isSome = (listedAlternates branches).map Prod.fst := by
  cases branches with
  | nil => rfl
  | cons branch rest =>
    rw [alternateOpenings, listedAlternates, List.map_append, List.map_append, branchOpenings_isSome around branch,
      alternateOpenings_isSome around rest]

end

theorem openings_length (around : List Branch) (nodes : List Node) : (openings around nodes).length = (listed nodes).length := by
  simpa using congrArg List.length (openings_isSome around nodes)

theorem alternateOpenings_length (around : List Branch) (branches : List Branch) :
    (alternateOpenings around branches).length = (listedAlternates branches).length := by
  simpa using congrArg List.length (alternateOpenings_isSome around branches)

/-- In the tree of a row every statement that opens a block has an opening. -/
theorem openings_blocks {row rest : List Statement} {i : Nat} {s : Statement} (h : row.drop i = s :: rest) (hopens : s.rule.opensBlock) :
    ∃ o, (openings [] (blocks row))[i]? = some (some o) := by
  have hs : row[i]? = some s := by rw [← List.head?_drop, h, List.head?_cons]
  have hisSome : ((openings [] (blocks row)).map Option.isSome)[i]? = some true := by
    rw [openings_isSome, listed_blocks, List.map_map, List.getElem?_map, hs]
    exact congrArg some hopens
  rw [List.getElem?_map] at hisSome
  obtain ⟨o, ho, hsome⟩ := Option.map_eq_some_iff.mp hisSome
  obtain ⟨opening, rfl⟩ := Option.isSome_iff_exists.mp hsome
  exact ⟨opening, ho⟩

/-! ## What an opening owes to its place -/

/-- Every opening is related to the row that begins with its header. -/
def Placed (R : List Statement → Opening → Prop) (row : List Statement) (openings : List (Option Opening)) : Prop :=
  ∀ i o, openings[i]? = some (some o) → R (row.drop i) o

namespace Placed

variable {R : List Statement → Opening → Prop} {row : List Statement} {front more : List (Option Opening)}

theorem nil : Placed R row [] := by
  intro i o h
  nomatch h

theorem none_cons (h : Placed R row.tail more) : Placed R row (none :: more) := by
  intro i o hi
  cases i with
  | zero => cases hi
  | succ i =>
    rw [← List.drop_tail]
    exact h i o hi

theorem some_cons {o : Opening} (ho : R row o) (h : Placed R row.tail more) : Placed R row (some o :: more) := by
  intro i o' hi
  cases i with
  | zero =>
    obtain rfl := Option.some.inj (Option.some.inj hi)
    exact ho
  | succ i =>
    rw [← List.drop_tail]
    exact h i o' hi

theorem append (h : Placed R row front) (hmore : Placed R (row.drop front.length) more) : Placed R row (front ++ more) := by
  intro i o hi
  rcases Nat.lt_or_ge i front.length with hlt | hge
  · rw [List.getElem?_append_left hlt] at hi
    exact h i o hi
  · rw [List.getElem?_append_right hge] at hi
    have hmore := hmore _ o hi
    rwa [List.drop_drop, Nat.add_sub_cancel' hge] at hmore

theorem mono {R' : List Statement → Opening → Prop} (h : Placed R row front) (hR : ∀ row o, R row o → R' row o) : Placed R' row front :=
  fun i o hi => hR _ o (h i o hi)

end Placed

/-- A block that some frames accept has been arranged from the row that begins with its header, within those frames and the frames of
the blocks between them. -/
def ArrangedWithin (frames : List Frame) (outer : List Branch) (row : List Statement) (o : Opening) : Prop :=
  ∃ inner header rest, o.around = inner ++ outer ∧ row = header :: rest ∧ allAccept (inner.map Branch.frame ++ frames) true header ∧
    o.block = .mk header (arrange (.ofHeader header rest.head? :: (inner.map Branch.frame ++ frames)) rest).result

/-- What has been arranged of a row, and what is left of it. -/
theorem Accounts.split {α : Type} {list : α → List (Bool × Statement)} {row : List Statement} {arranged : Arranged α row}
    (h : Accounts list arranged) : row = (list arranged.result).map Prod.snd ++ arranged.rest := by
  have hmark : Prod.snd ∘ mark = id := rfl
  have := congrArg (List.map Prod.snd) h
  rw [List.map_append, List.map_map, List.map_map, hmark, List.map_id, List.map_id] at this
  exact this.symm

/-- What is left of a row stands behind the statements that have been arranged. -/
theorem Accounts.drop {α : Type} {list : α → List (Bool × Statement)} {row : List Statement} {arranged : Arranged α row}
    (h : Accounts list arranged) : row.drop (list arranged.result).length = arranged.rest := by
  have hlength : (list arranged.result).length = ((list arranged.result).map Prod.snd).length := (List.length_map _).symm
  calc row.drop (list arranged.result).length
    _ = ((list arranged.result).map Prod.snd ++ arranged.rest).drop (list arranged.result).length :=
      congrArg (List.drop _) h.split
    _ = arranged.rest := List.drop_left' hlength.symm

/-! ## Every block is arranged by itself -/

variable {frames : List Frame} {outer : List Branch} {row rest : List Statement} {s : Statement}

/-- A block in the body of another one lies within the frame of the latter. -/
theorem ArrangedWithin.inside {header : Statement} {body : List Node} {o : Opening} {frame : Frame}
    (hframe : (Branch.mk header body).frame = frame) (h : ArrangedWithin (frame :: frames) (.mk header body :: outer) row o) :
    ArrangedWithin frames outer row o := by
  obtain ⟨inner, header', rest, haround, hrow, haccept, hblock⟩ := h
  have hframes : inner.map Branch.frame ++ frame :: frames = (inner ++ [Branch.mk header body]).map Branch.frame ++ frames := by
    rw [List.map_append, List.append_assoc, List.map_singleton, hframe]
    rfl
  rw [hframes] at haccept hblock
  refine ⟨inner ++ [.mk header body], header', rest, ?_, hrow, haccept, hblock⟩
  rw [haround, List.append_assoc]
  rfl

theorem listed_ne_nil {nodes : List Node} (h : nodes ≠ []) : listed nodes ≠ [] := by
  cases nodes with
  | nil => exact absurd rfl h
  | cons node rest =>
    cases node with
    | simple s => exact List.cons_ne_nil _ _
    | block first alternates =>
      cases first with
      | mk header body => exact List.cons_ne_nil _ _

/-- A body that is not empty begins with the statement behind its header, so the frame of a block is the one it was arranged in. -/
theorem frame_arranged {header : Statement}
    (h : (arrange (.ofHeader header rest.head? :: frames) rest).result ≠ []) :
    (Branch.mk header (arrange (.ofHeader header rest.head? :: frames) rest).result).frame = .ofHeader header rest.head? := by
  generalize hbody : arrange (.ofHeader header rest.head? :: frames) rest = body at h
  have hrest : rest = (listed body.result).map Prod.snd ++ body.rest := by
    have haccounts := arrange_accounts (.ofHeader header rest.head? :: frames) rest
    rw [hbody] at haccounts
    exact haccounts.split
  obtain ⟨m, more, hm⟩ := List.exists_cons_of_ne_nil (listed_ne_nil h)
  have hhead : (Branch.mk header body.result).statements.head? = rest.head? := by
    refine Eq.trans ?_ (congrArg List.head? hrest).symm
    rw [Branch.statements, hm]
    rfl
  rw [Branch.frame, hhead]
  rfl

/-- The blocks in the body of a header that has been arranged lie within the frames around it. -/
theorem placed_body {header : Statement}
    (h : ∀ outer, Placed (ArrangedWithin (.ofHeader header rest.head? :: frames) outer) rest
      (openings outer (arrange (.ofHeader header rest.head? :: frames) rest).result))
    (haccept : allAccept frames true header) :
    Placed (ArrangedWithin frames outer) (header :: rest)
      (branchOpenings outer (.mk header (arrange (.ofHeader header rest.head? :: frames) rest).result)) := by
  refine Placed.some_cons ⟨[], header, rest, rfl, rfl, haccept, rfl⟩ ?_
  by_cases hempty : (arrange (.ofHeader header rest.head? :: frames) rest).result = []
  · rw [hempty]
    exact Placed.nil
  · exact (h _).mono fun row o ho => ho.inside (frame_arranged hempty)

/-- Frames accept what is attached as an alternate. -/
theorem isAttached_allAccept {header previous : Statement} (h : isAttached frames header previous s) : allAccept frames true s := by
  unfold isAttached at h
  exact ((Bool.and_eq_true _ _).mp h).2

/-- A statement that frames accept as it is they accept as an alternate, too. -/
theorem allAccept_alternate (h : allAccept frames false s) : allAccept frames true s := by
  unfold allAccept at h ⊢
  rw [List.all_eq_true] at h ⊢
  intro f hf
  have := h f hf
  cases f <;> simp_all [Frame.accepts]

/-- Every block of what has been arranged of a row was arranged by itself, from the row behind its header and within the frames of the
blocks around it. -/
theorem arrange_openings (frames : List Frame) (row : List Statement) :
    ∀ outer, Placed (ArrangedWithin frames outer) row (openings outer (arrange frames row).result) := by
  refine (arrange_induction
    (P := fun frames row => ∀ outer, Placed (ArrangedWithin frames outer) row (openings outer (arrange frames row).result))
    (Q := fun frames header previous row => ∀ outer,
      Placed (ArrangedWithin frames outer) row (alternateOpenings outer (arrangeAlternates frames header previous row).result))
    ?nil ?refused ?simple ?block ?alternates_nil ?alternates_refused ?alternates_else ?alternates_elif frames row).1
  case nil =>
    intro frames outer
    rw [(arrange_nil frames).1]
    exact Placed.nil
  case refused =>
    intro frames s rest haccept outer
    rw [(arrange_refused haccept).1]
    exact Placed.nil
  case simple =>
    intro frames s rest haccept hopens hnodes outer
    rw [(arrange_simple haccept hopens).1]
    exact Placed.none_cons (hnodes outer)
  case block =>
    intro frames s rest haccept hopens body hbody halternates hnodes outer
    rw [(arrange_block haccept hopens).1]
    have hbehind : Placed (ArrangedWithin frames outer) body.rest
        (alternateOpenings outer (alternatesBehind frames s body.rest).result) := by
      unfold alternatesBehind
      split
      · rename_i hrule
        exact halternates hrule outer
      · exact Placed.nil
    -- the alternates stand behind the body, and the other nodes behind the alternates
    have hbodyDrop : (s :: rest).drop (branchOpenings outer (.mk s body.result)).length = body.rest := by
      rw [branchOpenings, List.length_cons, List.drop_succ_cons, openings_length]
      exact (arrange_accounts _ rest).drop
    have halternatesDrop : body.rest.drop (alternateOpenings outer (alternatesBehind frames s body.rest).result).length =
        (alternatesBehind frames s body.rest).rest := by
      rw [alternateOpenings_length]
      exact (alternates_accounts frames s body.rest).drop
    rw [openings]
    refine (placed_body hbody (allAccept_alternate haccept)).append ?_
    rw [hbodyDrop]
    refine hbehind.append ?_
    rw [halternatesDrop]
    exact hnodes outer
  case alternates_nil =>
    intro frames header previous outer
    rw [(arrangeAlternates_nil frames header previous).1]
    exact Placed.nil
  case alternates_refused =>
    intro frames header previous s rest hattached outer
    rw [(arrangeAlternates_refused hattached).1]
    exact Placed.nil
  case alternates_else =>
    intro frames header previous s rest hattached hrule hbody outer
    rw [(arrangeAlternates_else hattached hrule).1, alternateOpenings]
    exact (placed_body hbody (isAttached_allAccept hattached)).append Placed.nil
  case alternates_elif =>
    intro frames header previous s rest hattached hrule hbody halternates outer
    rw [(arrangeAlternates_elif hattached hrule).1, alternateOpenings]
    refine (placed_body hbody (isAttached_allAccept hattached)).append ?_
    rw [branchOpenings, List.length_cons, List.drop_succ_cons, openings_length, (arrange_accounts _ rest).drop]
    exact halternates outer

/-- The block that a statement of a row opens, as it was arranged. -/
theorem blocks_opening {row : List Statement} {i : Nat} {o : Opening} (h : (openings [] (blocks row))[i]? = some (some o)) :
    ∃ header rest, row.drop i = header :: rest ∧ allAccept (o.around.map Branch.frame) true header ∧
      o.block = .mk header (arrange (.ofHeader header rest.head? :: o.around.map Branch.frame) rest).result := by
  obtain ⟨inner, header, rest, haround, hrow, haccept, hblock⟩ := arrange_openings [] row [] i o h
  rw [List.append_nil] at haround haccept hblock
  subst haround
  exact ⟨header, rest, hrow, haccept, hblock⟩

end HostScript.Dialect
