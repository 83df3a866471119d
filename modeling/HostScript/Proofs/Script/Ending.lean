import Mathlib
import HostScript.Program.Resolve
import HostScript.Proofs.Script.Closure
import HostScript.Proofs.Token.Row

/-!
# A script is read up to its end

The reader of scripts looks at one token after another and refuses to come to a place where no token can be read. A text that is
accepted as a script can therefore be cut into tokens up to its end (`Module.ofSource_lexes`). Conversely, a text that can be cut
into tokens is never refused for its tokens (`Module.ofSource_not_lexical`).
-/

namespace HostScript.Script.Parser

/-- A cursor that does not stand in front of a place where no token can be read. -/
def Ready (cursor : Cursor) : Prop := checkEnding cursor = .ok ()

/-- A reader that leaves the end of the row as it is and comes to stand only where a token can be read, or at the end. -/
def Steady (α : Type) (p : Parser α) : Prop :=
  ∀ cursor a next, Ready cursor → p cursor = .ok (a, next) → next.ending = cursor.ending ∧ Ready next

/-- A sequence of two readers succeeds if the second one succeeds behind the first. -/
theorem bind_ok {α β : Type} {p : Parser α} {f : α → Parser β} {cursor next : Cursor} {b : β}
    (h : (p >>= f) cursor = .ok (b, next)) : ∃ a between, p cursor = .ok (a, between) ∧ f a between = .ok (b, next) := by
  change (p cursor >>= fun read => f read.1 read.2) = _ at h
  cases hp : p cursor with
  | error e =>
    rw [hp] at h
    nomatch h
  | ok read =>
    rw [hp] at h
    exact ⟨read.1, read.2, rfl, h⟩

theorem steady_closed : Closed Steady where
  pure a := by
    intro cursor b next hready h
    obtain ⟨-, rfl⟩ := Prod.mk.inj (Except.ok.inj h)
    exact ⟨rfl, hready⟩
  bind hp hf := by
    intro cursor b next hready h
    obtain ⟨a, between, hfirst, hsecond⟩ := bind_ok h
    obtain ⟨hending, hbetween⟩ := hp cursor a between hready hfirst
    obtain ⟨hending', hnext⟩ := hf a between b next hbetween hsecond
    exact ⟨hending'.trans hending, hnext⟩
  look f := by
    intro cursor b next hready h
    obtain ⟨-, rfl⟩ := Prod.mk.inj (Except.ok.inj h)
    exact ⟨rfl, hready⟩
  advance := by
    intro cursor a next hready h
    unfold advance at h
    dsimp only at h
    cases hcheck : checkEnding ⟨cursor.rest.tail, cursor.ending, (currentSpan cursor).stop⟩ with
    | error fault =>
      rw [hcheck] at h
      nomatch h
    | ok _ =>
      rw [hcheck] at h
      obtain ⟨-, rfl⟩ := Prod.mk.inj (Except.ok.inj h)
      exact ⟨rfl, hcheck⟩
  failAt place problem := by
    intro cursor a next hready h
    cases h

/-- The statements of a script are read until no token is left. -/
theorem stmtsToEnd_rest {fuel : Nat} {stmts read : List Stmt} {cursor next : Cursor}
    (h : stmtsToEnd fuel stmts cursor = .ok (read, next)) : next.rest = [] := by
  induction fuel generalizing stmts cursor with
  | zero => nomatch h
  | succ fuel ih =>
    obtain ⟨atEnd, between, hend, h⟩ := bind_ok h
    obtain ⟨hnone, rfl⟩ := Prod.mk.inj (Except.ok.inj hend)
    split at h
    · rename_i htrue
      obtain ⟨-, rfl⟩ := Prod.mk.inj (Except.ok.inj h)
      rw [← hnone] at htrue
      exact List.head?_eq_none_iff.mp (Option.isNone_iff_eq_none.mp htrue)
    · obtain ⟨s, after, -, h⟩ := bind_ok h
      exact ih h

/-- A script that is read is read up to the end of its text. -/
theorem module_ending {cursor next : Cursor} {m : Module} (hready : Ready cursor) (h : Parser.module cursor = .ok (m, next)) :
    ∃ gap here, cursor.ending = .complete gap here := by
  obtain ⟨hending, hnext⟩ := steady_closed.module cursor m next hready h
  obtain ⟨host, afterHost, -, h⟩ := bind_ok h
  obtain ⟨fuel, afterFuel, -, h⟩ := bind_ok h
  obtain ⟨stmts, afterStmts, hstmts, h⟩ := bind_ok h
  obtain ⟨-, rfl⟩ := Prod.mk.inj (Except.ok.inj h)
  rw [← hending]
  have hrest := stmtsToEnd_rest hstmts
  unfold Ready checkEnding at hnext
  rw [hrest] at hnext
  cases he : afterStmts.ending with
  | complete gap here => exact ⟨gap, here, rfl⟩
  | stopped fault rest =>
    rw [he] at hnext
    nomatch hnext

/-- A reader that finds nothing wrong with the tokens of a row that is complete. -/
def Quiet (α : Type) (p : Parser α) : Prop :=
  ∀ cursor gap here, cursor.ending = .complete gap here →
    (∀ fault, p cursor ≠ .error (.lexical fault)) ∧ ∀ a next, p cursor = .ok (a, next) → next.ending = cursor.ending

theorem quiet_closed : Closed Quiet where
  pure a := by
    intro cursor gap here hending
    refine ⟨nofun, fun b next h => ?_⟩
    obtain ⟨-, rfl⟩ := Prod.mk.inj (Except.ok.inj h)
    rfl
  bind := by
    intro α β p f hp hf cursor gap here hending
    obtain ⟨hfirst, hkeeps⟩ := hp cursor gap here hending
    have hrun : (p >>= f) cursor = (p cursor >>= fun read => f read.1 read.2) := rfl
    rw [hrun]
    cases h : p cursor with
    | error fault =>
      rw [h] at hfirst
      exact ⟨fun fault' hfault => hfirst fault' (congrArg _ (Except.error.inj hfault)), fun b next hok => nomatch hok⟩
    | ok read =>
      have hbetween := hkeeps read.1 read.2 h
      obtain ⟨hsecond, hkeeps'⟩ := hf read.1 read.2 gap here (hbetween.trans hending)
      exact ⟨hsecond, fun b next hok => (hkeeps' b next hok).trans hbetween⟩
  look f := by
    intro cursor gap here hending
    refine ⟨nofun, fun b next h => ?_⟩
    obtain ⟨-, rfl⟩ := Prod.mk.inj (Except.ok.inj h)
    rfl
  advance := by
    intro cursor gap here hending
    have hcheck : checkEnding ⟨cursor.rest.tail, cursor.ending, (currentSpan cursor).stop⟩ = .ok () := by
      unfold checkEnding
      rw [hending]
      cases cursor.rest.tail <;> rfl
    unfold advance
    dsimp only
    rw [hcheck]
    refine ⟨nofun, fun a next h => ?_⟩
    obtain ⟨-, rfl⟩ := Prod.mk.inj (Except.ok.inj h)
    rfl
  failAt place problem := by
    intro cursor gap here hending
    refine ⟨fun fault h => ?_, fun a next h => ?_⟩
    · cases h
    · cases h

end Parser

open Lexer in
/-- A text that is accepted as a script can be cut into tokens up to its end. -/
theorem Module.ofSource_lexes {source : Source} {m : Module} (h : Module.ofSource source = .ok m) :
    Lexes source.text.toList := by
  unfold Module.ofSource Parser.run at h
  cases hcheck : Parser.checkEnding ⟨source.scan.tokens, source.scan.ending, 0⟩ with
  | error fault =>
    simp only [hcheck, bind, Except.bind] at h
    nomatch h
  | ok _ =>
    simp only [hcheck, bind, Except.bind] at h
    rcases hread : Parser.module ⟨source.scan.tokens, source.scan.ending, 0⟩ with fault | ⟨m', last⟩
    · rw [hread] at h
      nomatch h
    · obtain ⟨gap, here, hending⟩ := Parser.module_ending hcheck hread
      exact (scanFrom_complete_iff .origin _).mp ⟨gap, here, hending⟩

open Lexer in
/-- A text that can be cut into tokens is not refused for its tokens. -/
theorem Module.ofSource_not_lexical {source : Source} (h : Lexes source.text.toList) (fault : LexFault) :
    Module.ofSource source ≠ .error (.lexical fault) := by
  obtain ⟨gap, here, hcomplete⟩ := (scanFrom_complete_iff .origin _).mpr h
  have hending : source.scan.ending = .complete gap here := hcomplete
  have hcheck : Parser.checkEnding ⟨source.scan.tokens, source.scan.ending, 0⟩ = .ok () := by
    unfold Parser.checkEnding
    rw [hending]
    cases source.scan.tokens <;> rfl
  obtain ⟨hquiet, -⟩ := Parser.quiet_closed.module ⟨source.scan.tokens, source.scan.ending, 0⟩ gap here hending
  unfold Module.ofSource Parser.run
  simp only [hcheck, bind, Except.bind]
  intro hfault
  rcases hread : Parser.module ⟨source.scan.tokens, source.scan.ending, 0⟩ with fault' | read
  · rw [hread] at hfault
    obtain rfl := Except.error.inj hfault
    exact hquiet fault hread
  · rw [hread] at hfault
    nomatch hfault

end HostScript.Script

namespace HostScript.Program

/-- A text that cannot be cut into tokens up to its end is no program. -/
theorem ofSource_error {source : Source} (h : ¬ Lexer.Lexes source.text.toList) : ∃ fault, ofSource source = .error (.parse fault) := by
  unfold ofSource
  cases hm : Script.Module.ofSource source with
  | error fault => exact ⟨fault, rfl⟩
  | ok m => exact absurd (Script.Module.ofSource_lexes hm) h

/-- A text that is refused for its tokens cannot be cut into tokens up to its end. -/
theorem ofSource_lexical {source : Source} {fault : LexFault} (h : ofSource source = .error (.parse (.lexical fault))) :
    ¬ Lexer.Lexes source.text.toList := by
  intro hlexes
  have hquiet := Script.Module.ofSource_not_lexical hlexes
  unfold ofSource at h
  cases hm : Script.Module.ofSource source with
  | error fault' =>
    rw [hm] at h
    obtain rfl : fault' = .lexical fault := CompileFault.parse.inj (Except.error.inj h)
    exact hquiet fault hm
  | ok m =>
    rw [hm] at h
    cases hp : ofModule m with
    | error fault' =>
      have : (Except.mapError CompileFault.resolve (ofModule m)) = .error (.parse (.lexical fault)) := h
      rw [hp] at this
      nomatch this
    | ok program =>
      have : (Except.mapError CompileFault.resolve (ofModule m)) = .error (.parse (.lexical fault)) := h
      rw [hp] at this
      nomatch this

end HostScript.Program
