import Mathlib
import HostScript.Proofs.Dialect.Bookkeeping
import HostScript.Proofs.Machine.Initialized
import HostScript.Proofs.Machine.Scoping
import HostScript.Proofs.Script.Consumed
import HostScript.Proofs.Token.Distinct

/-!
# The bookkeeping agrees with the scopes

Three parties know names. Rendering keeps account of them in one pass over the source, to tell declarations from assignments; the
resolver knows all declarations of a block in all of it; and a run gives a variable its first value when its `let` is executed. For the
names that a source binds they agree (`declarations_agree`): the host script is orderly, so its tree is, and so is the program.
-/

namespace HostScript.Dialect

open Script (Ahead Lexed markedRow)

/-- The marks of a row of tokens with different spans are known from the spans of the marked tokens. -/
theorem markedRow_marks {tokens : List Token} {marks : List Bool} (hdistinct : (tokens.map Token.span).Nodup)
    (hlength : tokens.length = marks.length) :
    markedRow (((tokens.zip marks).filter (·.2)).map (·.1.span)) tokens = (shapes tokens).zip marks := by
  refine List.ext_getElem (by simp [markedRow, shapes, hlength]) fun i hi _ => ?_
  have htoken : i < tokens.length := by simpa [markedRow] using hi
  have hmark : i < marks.length := hlength ▸ htoken
  have hmem : tokens[i].span ∈ ((tokens.zip marks).filter (·.2)).map (·.1.span) ↔ marks[i] = true := by
    simp only [List.mem_map, List.mem_filter]
    constructor
    · rintro ⟨⟨token, mark⟩, ⟨hpair, hmarked⟩, hspan⟩
      obtain ⟨j, hj, hat⟩ := List.getElem_of_mem hpair
      rw [List.getElem_zip] at hat
      obtain ⟨rfl, rfl⟩ := Prod.mk.inj hat
      have hplace : i < (tokens.map Token.span).length := by rwa [List.length_map]
      have hother : j < (tokens.map Token.span).length := by
        rw [List.length_map]
        exact (Nat.lt_min.mp (List.length_zip ▸ hj)).1
      have hspans : (tokens.map Token.span)[j] = (tokens.map Token.span)[i] := by
        rw [List.getElem_map, List.getElem_map]
        exact hspan
      obtain rfl : j = i := hdistinct.getElem_inj_iff.mp hspans
      exact hmarked
    · intro hmarked
      refine ⟨(tokens[i], marks[i]), ⟨?_, hmarked⟩, rfl⟩
      rw [← List.getElem_zip (h := by simp [htoken, hmark])]
      exact List.getElem_mem _
  have hdecide : decide (tokens[i].span ∈ ((tokens.zip marks).filter (·.2)).map (·.1.span)) = marks[i] := by
    rw [Bool.eq_iff_iff, decide_eq_true_iff]
    exact hmem
  simp only [markedRow, shapes, List.getElem_map, List.getElem_zip]
  exact congrArg (Prod.mk _) hdecide

/-- The tokens of a text are lexemes. -/
theorem Legible.lexed {row : List Token} (h : Legible row) : Lexed row := by
  intro token htoken
  obtain ⟨front, behind, rfl⟩ := List.append_of_mem htoken
  have hpart : [token] <:+: front ++ token :: behind := ⟨front, behind, by simp⟩
  obtain ⟨next, hfits⟩ := h.stretch hpart
  exact hfits.2.1

/-- In front of the host script of a source a pass knows nothing, and finds the tokens orderly. -/
theorem render_ahead {functions : Bool} {source : Source} {gap : String} {pos : Position} (hscan : source.scan.ending = .complete gap pos)
    (h : Undeclaring source.scan.tokens) (hfunctions : ∀ s ∈ statementsOf source, s.rule = .function → functions) :
    Ahead functions (boundNames source) [] (render source).script.scan.tokens := by
  refine ⟨(scan_legible _).lexed, ?_⟩
  have htokens := (render_scan hscan).1
  have hfits : Lexer.Fits (scriptWords (emissionsOf source)) (some '\n') := scriptWords_fits fun e he => emissionsOf_genuine he
  have hdistinct : ((render source).script.scan.tokens.map Token.span).Nodup := by
    rw [htokens]
    exact (Lexer.placed_start hfits .origin).2
  have hlength : (render source).script.scan.tokens.length = (scriptMarks (emissionsOf source)).length := by
    rw [htokens, ← shapes_length, shapes_placed, List.length_map, scriptWords_length]
  rw [boundNames, markedRow_marks hdistinct hlength]
  exact render_orderly hscan h hfunctions

/-- Let a source be cut into tokens up to its end and bring no braces, `let` or `function` of its own. If its host script is refused by
the resolver, then not for a name that the source binds, as declared already or not at all. And if the source has no header of a
function, no run of the program stops because a name that is bound is assigned before it has a value. -/
theorem declarations_agree {source : Source} {gap : String} {pos : Position} (hscan : source.scan.ending = .complete gap pos)
    (h : Undeclaring source.scan.tokens) :
    (∀ fault, Program.ofSource (render source).script = .error (.resolve fault) → fault.span ∈ boundNames source →
        ∀ name, fault.problem ≠ .alreadyDeclared name ∧ fault.problem ≠ .undeclared name) ∧
      ((∀ s ∈ statementsOf source, s.rule ≠ .function) → ∀ program, Program.ofSource (render source).script = .ok program →
        ∀ (host : Machine.Host) (fuel : Nat) (limits : Limits) (answers : List String) (span : Span) (name : String),
          (Machine.runFor host fuel limits answers program).halt = some (.fault (.problem span (.assignedUninitialized name))) →
            span ∉ boundNames source) := by
  constructor
  · intro fault hfault hmarked name
    unfold Program.ofSource at hfault
    cases hm : Script.Module.ofSource (render source).script with
    | error parseFault =>
      rw [hm] at hfault
      cases hfault
    | ok m =>
      rw [hm] at hfault
      have hrefused : (Program.ofModule m).mapError Program.CompileFault.resolve = .error (.resolve fault) := hfault
      have hahead := render_ahead hscan h fun _ _ _ => rfl
      have horderly := Script.module_orderly (Script.Module.ofSource_reads hm) hahead
      cases hr : Program.ofModule m with
      | ok program =>
        rw [hr] at hrefused
        cases hrefused
      | error found =>
        rw [hr] at hrefused
        cases hrefused
        have hspares := Program.ofModule_spares horderly fault hr
        refine ⟨fun heq => hspares ?_ hmarked, fun heq => hspares ?_ hmarked⟩
        · rw [heq]
          trivial
        · rw [heq]
          trivial
  · intro hfunctionless program hprogram host fuel limits answers span name hhalt
    obtain ⟨m, hm, hmodule⟩ := Program.NamesAux.bind_eq_ok.mp hprogram
    have hm := Machine.ScopingAux.mapError_ok hm
    have hahead : Ahead false (boundNames source) [] (render source).script.scan.tokens :=
      render_ahead hscan h fun s hs hrule => absurd hrule (hfunctionless s hs)
    have horderly := Script.module_orderly (Script.Module.ofSource_reads hm) hahead
    have hbody := Program.ofModule_orderly (Machine.ScopingAux.mapError_ok hmodule) horderly
    exact Machine.runFor_initialized hbody fuel limits answers _ hhalt span name rfl

/-- The branch assigns the variable that is declared in front of it, and no run of the program finds the variable without a value. -/
theorem declarations_agree_nested :
    (boundNames ⟨"case", "x = 1;if x: x = 2;"⟩).length = 2 ∧
      ∃ program, Program.ofSource (render ⟨"case", "x = 1;if x: x = 2;"⟩).script = .ok program ∧
        ∀ (host : Machine.Host) (fuel : Nat) (limits : Limits) (answers : List String) (span : Span) (name : String),
          (Machine.runFor host fuel limits answers program).halt = some (.fault (.problem span (.assignedUninitialized name))) →
            span ∉ boundNames ⟨"case", "x = 1;if x: x = 2;"⟩ := by
  have hscan : (⟨"case", "x = 1;if x: x = 2;"⟩ : Source).scan.ending = .complete "" ⟨1, 19, 18⟩ := by decide +kernel
  have hidle : (⟨"case", "x = 1;if x: x = 2;"⟩ : Source).scan.tokens.all (fun t => Script.Idle (shapeOf t)) := by decide +kernel
  have hundeclaring : Undeclaring (⟨"case", "x = 1;if x: x = 2;"⟩ : Source).scan.tokens :=
    fun t ht => of_decide_eq_true (List.all_eq_true.mp hidle t ht)
  have hrules : (statementsOf ⟨"case", "x = 1;if x: x = 2;"⟩).map Statement.rule = [.binding, .if_, .binding] := by decide +kernel
  have hfunctions : ∀ s ∈ statementsOf ⟨"case", "x = 1;if x: x = 2;"⟩, s.rule ≠ .function := by
    intro s hs hrule
    have hmem := List.mem_map_of_mem (f := Statement.rule) hs
    rw [hrules, hrule] at hmem
    exact absurd hmem (by decide)
  have hcompiles : (Program.ofSource (render ⟨"case", "x = 1;if x: x = 2;"⟩).script).toOption.isSome := by decide +kernel
  refine ⟨by decide +kernel, ?_⟩
  cases h : Program.ofSource (render ⟨"case", "x = 1;if x: x = 2;"⟩).script with
  | error fault =>
    rw [h] at hcompiles
    cases hcompiles
  | ok program => exact ⟨program, rfl, (declarations_agree hscan hundeclaring).2 hfunctions program h⟩

end HostScript.Dialect
