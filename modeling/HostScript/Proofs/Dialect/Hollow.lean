import Mathlib
import HostScript.Proofs.Dialect.Recast

/-!
# Structure does not depend on what stands between quotes

Taking away what stands between the quotes of tokens is a way to recast them (`Recast.hollow`). So two rows of tokens that are the same
without it give the same lines, and the same words without it.
-/

namespace HostScript.Dialect

open Lexer

/-- What stands between quotes is taken away. -/
def Recast.hollow : Recast where
  token := Token.hollow
  number := id
  kind := Token.hollow_kind
  text _ h := Token.hollow_text h
  line := Token.hollow_line
  injective := Function.injective_id

/-! ## Statements -/

/-- A statement without what stands between its quotes. -/
def Statement.hollow (s : Statement) : Statement := { s with tokens := s.tokens.map Token.hollow }

theorem statements_hollow (tokens : List Token) (indentOf : Nat → Nat) :
    statements indentOf (tokens.map Token.hollow) = (statements indentOf tokens).map Statement.hollow :=
  Recast.hollow.statements_tokens (fun t _ => Token.hollow_endLine t) fun _ _ => rfl

/-- Statements depend on the indentation of the lines on which they begin only. -/
theorem statements_congr {tokens : List Token} {indentOf indentOf' : Nat → Nat}
    (h : ∀ s ∈ statements indentOf tokens, indentOf' s.line = indentOf s.line) :
    statements indentOf' tokens = statements indentOf tokens := by
  unfold statements
  refine List.map_congr_left fun g hg => ?_
  have hsame := h _ (List.mem_map_of_mem hg)
  unfold Statement.ofGroup
  exact congrArg (fun indent => Statement.mk _ _ _ indent _) hsame

/-! ## Blocks -/

mutual

/-- Nodes without what stands between their quotes. -/
def hollowNodes : List Node → List Node
  | [] => []
  | .simple s :: rest => .simple s.hollow :: hollowNodes rest
  | .block first alternates :: rest => .block (hollowBranch first) (hollowAlternates alternates) :: hollowNodes rest

/-- A branch without what stands between its quotes. -/
def hollowBranch : Branch → Branch
  | .mk header body => .mk header.hollow (hollowNodes body)

/-- Alternates without what stands between their quotes. -/
def hollowAlternates : List Branch → List Branch
  | [] => []
  | branch :: rest => hollowBranch branch :: hollowAlternates rest

end

mutual

theorem hollowNodes_eq : (nodes : List Node) → hollowNodes nodes = Recast.hollow.nodes nodes
  | [] => by rw [hollowNodes, Recast.nodes]
  | .simple s :: rest => by
    rw [hollowNodes, Recast.nodes, hollowNodes_eq rest]
    rfl
  | .block first alternates :: rest => by
    rw [hollowNodes, Recast.nodes, hollowBranch_eq first, hollowAlternates_eq alternates, hollowNodes_eq rest]

theorem hollowBranch_eq : (branch : Branch) → hollowBranch branch = Recast.hollow.branch branch
  | .mk header body => by
    rw [hollowBranch, Recast.branch, hollowNodes_eq body]
    rfl

theorem hollowAlternates_eq : (branches : List Branch) → hollowAlternates branches = Recast.hollow.branches branches
  | [] => by rw [hollowAlternates, Recast.branches]
  | branch :: rest => by rw [hollowAlternates, Recast.branches, hollowBranch_eq branch, hollowAlternates_eq rest]

end

theorem blocks_hollow (row : List Statement) : blocks (row.map Statement.hollow) = hollowNodes (blocks row) := by
  rw [hollowNodes_eq]
  exact Recast.hollow.blocks_statements row

/-! ## Lines -/

/-- What a line is made of, without what stands between quotes. -/
def Form.hollow : Form → Form
  | .simple known s => .simple known s.hollow
  | .opening alternate header => .opening alternate header.hollow
  | .closing => .closing

/-- A line without what stands between its quotes. -/
def Emission.hollow (e : Emission) : Emission := ⟨e.depth, e.form.hollow⟩

theorem emission_hollow : Recast.hollow.emission = Emission.hollow := by
  funext e
  obtain ⟨depth, form⟩ := e
  cases form <;> rfl

/-- Nodes that were read from a source give the same lines. -/
theorem emissions_hollow (depth : Nat) (known : List String) (nodes : List Node) (h : ∀ m ∈ listed nodes, m.2.Genuine) :
    emissions depth known (hollowNodes nodes) = (emissions depth known nodes).map Emission.hollow := by
  rw [hollowNodes_eq, Recast.hollow.emissions_nodes depth known nodes h, emission_hollow]

/-! ## Words -/

/-- A word without what stands between its quotes. -/
def hollowWord (w : Word) : Word := if isQuoted w.kind then { w with text := [] } else w

theorem hollowWord_kind (w : Word) : (hollowWord w).kind = w.kind := by
  unfold hollowWord
  split <;> rfl

theorem hollowWord_gap (w : Word) : (hollowWord w).gap = w.gap := by
  unfold hollowWord
  split <;> rfl

/-- The gap of a word has nothing to do with its quotes. -/
theorem hollowWord_regap (w : Word) (gap : List Char) : hollowWord { w with gap := gap } = { hollowWord w with gap := gap } := by
  unfold hollowWord
  split <;> rfl

/-- Without what stands between quotes words do not tell tokens from hollow ones. -/
theorem hides_hollow : Recast.hollow.Hides hollowWord where
  word t := by
    change hollowWord (Word.ofToken t.hollow) = hollowWord (Word.ofToken t)
    cases hquoted : isQuoted t.kind with
    | true => simp [hollowWord, Word.ofToken, hquoted]
    | false =>
      unfold Word.ofToken
      rw [Token.hollow_text hquoted, Token.hollow_kind, Token.hollow_gap]
  gap _ _ _ := rfl
  bare {w w'} h := by rw [hollowWord_regap w, hollowWord_regap w', h]
  behind {w w'} gap h := by rw [hollowWord_regap w, hollowWord_regap w', ← hollowWord_gap w, ← hollowWord_gap w', h]

theorem lineWords_hollow {lines : List Emission} (h : ∀ e ∈ lines, e.form.Genuine) :
    (lineWords (lines.map Emission.hollow)).map hollowWord = (lineWords lines).map hollowWord := by
  rw [← emission_hollow]
  exact hides_hollow.lineWords_emissions h

theorem hollowWord_gapped (gap : List Char) (words : List Word) :
    (gapped gap words).map hollowWord = gapped gap (words.map hollowWord) := by
  cases words with
  | nil => rfl
  | cons w words => rw [gapped, List.map_cons, hollowWord_regap, List.map_cons, gapped, hollowWord_gap]

end HostScript.Dialect
