import Mathlib
import HostScript.Proofs.Dialect.Printed

/-!
# A pass over the tokens of a script

A script declares names behind `let` and `function`, and opens and closes blocks with braces. One pass over its tokens therefore knows,
without parsing, which names have been declared so far in the blocks around a token (`Pass`). A row of tokens of which some are marked
is `Orderly` if along such a pass every `let` declares a new name, and every marked token that is not declared is a known name.
-/

namespace HostScript.Script

open Dialect (Shape)

/-- What a pass has just read. -/
inductive Awaiting
  | anything
  /-- The name that `let` declares. -/
  | variable
  /-- The name that `function` declares. -/
  | function
  /-- The rest of the parameters of a function, behind some of them. -/
  | params (names : List String)

/-- Where a pass stands, and the names declared so far in the blocks around it, innermost first. -/
structure Pass where
  awaiting : Awaiting
  scopes : List (List String)

/-- Adds a name to the innermost of some blocks. -/
def declareIn (name : String) : List (List String) → List (List String)
  | [] => [[name]]
  | scope :: rest => (name :: scope) :: rest

theorem flatten_declareIn (name : String) (scopes : List (List String)) : (declareIn name scopes).flatten = name :: scopes.flatten := by
  cases scopes <;> rfl

theorem tail_declareIn (name : String) (scopes : List (List String)) : (declareIn name scopes).tail = scopes.tail := by
  cases scopes <;> rfl

/-- A token that a pass goes over, if it awaits nothing. -/
def Idle (s : Shape) : Prop := s ∉ [Shape.word "let", .word "function", .symbol "\x7b", .symbol "\x7d"]

instance (s : Shape) : Decidable (Idle s) := inferInstanceAs (Decidable (s ∉ _))

namespace Pass

/-- The names that are known to a pass. -/
def known (p : Pass) : List String := p.scopes.flatten

/-- Where a pass stands behind a token, unless the token is none that it awaits. -/
def step (p : Pass) (s : Shape) : Option Pass :=
  match p.awaiting with
  | .anything =>
    if s = .word "let" then some ⟨.variable, p.scopes⟩
    else if s = .word "function" then some ⟨.function, p.scopes⟩
    else if s = .symbol "\x7b" then some ⟨.anything, [] :: p.scopes⟩
    else if s = .symbol "\x7d" then some ⟨.anything, p.scopes.tail⟩
    else some p
  | .variable => if s.kind = .ident then some ⟨.anything, declareIn s.text p.scopes⟩ else none
  | .function => if s.kind = .ident then some ⟨.params [], declareIn s.text p.scopes⟩ else none
  | .params names =>
    if s.kind = .ident then some ⟨.params (names ++ [s.text]), p.scopes⟩
    else if s = .symbol "\x7b" then some ⟨.anything, names :: p.scopes⟩
    else if s ∈ [Shape.symbol "(", .symbol ")", .symbol ","] then some p
    else none

/-- A pass allows a token: `let` declares a new name, a marked token is a known name or declared by `let`, and functions are declared
only if they are permitted. -/
def Allows (functions : Bool) (p : Pass) (s : Shape) (marked : Bool) : Prop :=
  match p.awaiting with
  | .anything => (marked → s.text ∈ p.known) ∧ (s = .word "function" → functions)
  | .variable => s.text ∉ p.known
  | .function | .params _ => marked = false

end Pass

/-- A pass allows the tokens of a row, as far as it gets. -/
def Orderly (functions : Bool) : Pass → List (Shape × Bool) → Prop
  | _, [] => True
  | p, (s, marked) :: row => p.Allows functions s marked ∧ ∀ next, p.step s = some next → Orderly functions next row

variable {functions marked : Bool} {p next : Pass} {s : Shape} {row : List (Shape × Bool)} {scopes : List (List String)}

theorem orderly_step (h : p.step s = some next) :
    Orderly functions p ((s, marked) :: row) ↔ p.Allows functions s marked ∧ Orderly functions next row := by
  rw [Orderly, h]
  simp only [Option.some.injEq, forall_eq']

/-- Behind a token that is not awaited everything is allowed. -/
theorem orderly_stuck (h : p.step s = none) : Orderly functions p ((s, marked) :: row) ↔ p.Allows functions s marked := by
  rw [Orderly, h]
  simp only [reduceCtorEq, false_implies, implies_true, and_true]

/-! ## Tokens outside declarations -/

theorem orderly_idle (h : Idle s) : Orderly functions ⟨.anything, scopes⟩ ((s, marked) :: row) ↔
    (marked → s.text ∈ scopes.flatten) ∧ Orderly functions ⟨.anything, scopes⟩ row := by
  simp only [Idle, List.mem_cons, List.not_mem_nil, or_false, not_or] at h
  obtain ⟨hlet, hfunction, hopen, hclose⟩ := h
  have hstep : Pass.step ⟨.anything, scopes⟩ s = some ⟨.anything, scopes⟩ := by simp [Pass.step, hlet, hfunction, hopen, hclose]
  rw [orderly_step hstep]
  simp [Pass.Allows, Pass.known, hfunction]

theorem orderly_open : Orderly functions ⟨.anything, scopes⟩ ((.symbol "\x7b", marked) :: row) ↔
    (marked → "\x7b" ∈ scopes.flatten) ∧ Orderly functions ⟨.anything, [] :: scopes⟩ row := by
  have hstep : Pass.step ⟨.anything, scopes⟩ (.symbol "\x7b") = some ⟨.anything, [] :: scopes⟩ := by
    simp [Pass.step, Shape.symbol, Shape.word]
  rw [orderly_step hstep]
  simp [Pass.Allows, Pass.known, Shape.symbol, Shape.word]

theorem orderly_close : Orderly functions ⟨.anything, scopes⟩ ((.symbol "\x7d", marked) :: row) ↔
    (marked → "\x7d" ∈ scopes.flatten) ∧ Orderly functions ⟨.anything, scopes.tail⟩ row := by
  have hstep : Pass.step ⟨.anything, scopes⟩ (.symbol "\x7d") = some ⟨.anything, scopes.tail⟩ := by
    simp [Pass.step, Shape.symbol, Shape.word]
  rw [orderly_step hstep]
  simp [Pass.Allows, Pass.known, Shape.symbol, Shape.word]

/-- Tokens without marks that a pass goes over. -/
def plainRow (row : List Shape) : List (Shape × Bool) := row.map fun s => (s, false)

theorem orderly_plainRow {shapes : List Shape} (h : ∀ s ∈ shapes, Idle s) :
    Orderly functions ⟨.anything, scopes⟩ (plainRow shapes ++ row) ↔ Orderly functions ⟨.anything, scopes⟩ row := by
  induction shapes with
  | nil => exact Iff.rfl
  | cons s shapes ih =>
    obtain ⟨hs, hshapes⟩ := List.forall_mem_cons.mp h
    change Orderly _ _ ((s, false) :: (plainRow shapes ++ row)) ↔ _
    rw [orderly_idle hs, ih hshapes]
    simp only [Bool.false_eq_true, false_implies, true_and]

/-! ## Declarations -/

theorem orderly_let {marked' : Bool} (h : s.kind = .ident) :
    Orderly functions ⟨.anything, scopes⟩ ((.word "let", marked) :: (s, marked') :: row) ↔ (marked → "let" ∈ scopes.flatten) ∧
      s.text ∉ scopes.flatten ∧ Orderly functions ⟨.anything, declareIn s.text scopes⟩ row := by
  have hword : Pass.step ⟨.anything, scopes⟩ (.word "let") = some ⟨.variable, scopes⟩ := by simp [Pass.step]
  have hname : Pass.step ⟨.variable, scopes⟩ s = some ⟨.anything, declareIn s.text scopes⟩ := by simp [Pass.step, h]
  rw [orderly_step hword, orderly_step hname]
  simp [Pass.Allows, Pass.known, Shape.word]

theorem orderly_function {marked' : Bool} (h : s.kind = .ident) :
    Orderly functions ⟨.anything, scopes⟩ ((.word "function", marked) :: (s, marked') :: row) ↔
      ((marked → "function" ∈ scopes.flatten) ∧ functions) ∧ marked' = false ∧
        Orderly functions ⟨.params [], declareIn s.text scopes⟩ row := by
  have hword : Pass.step ⟨.anything, scopes⟩ (.word "function") = some ⟨.function, scopes⟩ := by simp [Pass.step, Shape.word]
  have hname : Pass.step ⟨.function, scopes⟩ s = some ⟨.params [], declareIn s.text scopes⟩ := by simp [Pass.step, h]
  rw [orderly_step hword, orderly_step hname]
  simp [Pass.Allows, Pass.known, Shape.word]

theorem orderly_param {names : List String} (h : s.kind = .ident) :
    Orderly functions ⟨.params names, scopes⟩ ((s, marked) :: row) ↔
      marked = false ∧ Orderly functions ⟨.params (names ++ [s.text]), scopes⟩ row := by
  have hstep : Pass.step ⟨.params names, scopes⟩ s = some ⟨.params (names ++ [s.text]), scopes⟩ := by simp [Pass.step, h]
  rw [orderly_step hstep]
  simp [Pass.Allows]

/-- Brackets and commas between parameters. -/
theorem orderly_between {names : List String} (h : s ∈ [Shape.symbol "(", .symbol ")", .symbol ","]) :
    Orderly functions ⟨.params names, scopes⟩ ((s, marked) :: row) ↔ marked = false ∧ Orderly functions ⟨.params names, scopes⟩ row := by
  have hkind : s.kind ≠ .ident ∧ s ≠ .symbol "\x7b" := by
    simp only [List.mem_cons, List.not_mem_nil, or_false] at h
    rcases h with rfl | rfl | rfl <;> decide
  have hstep : Pass.step ⟨.params names, scopes⟩ s = some ⟨.params names, scopes⟩ := by
    unfold Pass.step
    simp only [hkind.1, hkind.2, h, if_true, if_false]
  rw [orderly_step hstep]
  simp [Pass.Allows]

/-- The brace behind the parameters opens the block in which they are declared. -/
theorem orderly_body {names : List String} :
    Orderly functions ⟨.params names, scopes⟩ ((.symbol "\x7b", marked) :: row) ↔
      marked = false ∧ Orderly functions ⟨.anything, names :: scopes⟩ row := by
  have hstep : Pass.step ⟨.params names, scopes⟩ (.symbol "\x7b") = some ⟨.anything, names :: scopes⟩ := by
    simp [Pass.step, Shape.symbol]
  rw [orderly_step hstep]
  simp [Pass.Allows]

end HostScript.Script
