import Mathlib
import HostScript.Proofs.Dialect.Lines
import HostScript.Proofs.Dialect.Recast
import HostScript.Proofs.Token.Shortened
import HostScript.Proofs.Token.Uncommented

/-!
# Comments and blank lines do not matter

Other numbers of lines and other gaps are a way to recast tokens (`Recast.bare`). So sources that are the same but for these have the same
blocks, and host scripts with the same tokens (`render_renumbered`). A source without its comments, and without any lines on which no token
stands, is such a source (`render_withoutLines`).
-/

namespace HostScript.Dialect

open Lexer

/-- Lines get other numbers, and gaps and columns are taken away. -/
def Recast.bare {number : Nat → Nat} (hnumber : Function.Injective number) : Recast where
  token := Token.bare number
  number := number
  kind _ := rfl
  text _ _ := rfl
  line _ := rfl
  injective := hnumber

variable {number : Nat → Nat}

section

variable (hnumber : Function.Injective number)

/-- The shapes of words do not tell tokens from bare ones. -/
theorem hides_bare : (Recast.bare hnumber).Hides wordShape where
  word _ := rfl
  gap _ _ _ := rfl
  bare h := h
  behind _ h := h

theorem shapes_bare (tokens : List Token) : shapes (tokens.map (Token.bare number)) = shapes tokens := by
  unfold shapes
  rw [List.map_map]
  rfl

mutual

/-- Trees have no places. -/
theorem treesOf_bare : (nodes : List Node) → treesOf ((Recast.bare hnumber).nodes nodes) = treesOf nodes
  | [] => by rw [Recast.nodes]
  | .simple s :: rest => by
    rw [Recast.nodes, treesOf, treesOf, treesOf_bare rest]
    exact congrArg (Tree.simple · :: _) (shapes_bare s.tokens)
  | .block first alternates :: rest => by
    rw [Recast.nodes, treesOf, treesOf, armOf_bare first, armsOf_bare alternates, treesOf_bare rest]

theorem armOf_bare : (branch : Branch) → armOf ((Recast.bare hnumber).branch branch) = armOf branch
  | .mk header body => by
    rw [Recast.branch, armOf, armOf, treesOf_bare body]
    exact congrArg (Arm.mk · _) (shapes_bare header.tokens)

theorem armsOf_bare : (branches : List Branch) → armsOf ((Recast.bare hnumber).branches branches) = armsOf branches
  | [] => by rw [Recast.branches]
  | branch :: rest => by rw [Recast.branches, armsOf, armsOf, armOf_bare branch, armsOf_bare rest]

end

/-- The statements of sources that are the same but for the numbers of lines are the same but for them. -/
theorem statementsOf_renumbered {source source' : Source} (h : Renumbered number source source') :
    (statementsOf source').map (Recast.bare hnumber).statement =
      (statementsOf source).map (Recast.bare Function.injective_id).statement := by
  have hfirst : statements source.lineIndent (source.scan.tokens.map (Token.bare id)) =
      (statementsOf source).map (Recast.bare Function.injective_id).statement :=
    (Recast.bare Function.injective_id).statements_tokens (fun _ _ => rfl) fun _ _ => rfl
  have hsecond : statements source.lineIndent (source'.scan.tokens.map (Token.bare number)) =
      (statementsOf source').map (Recast.bare hnumber).statement :=
    (Recast.bare hnumber).statements_tokens h.endLine h.indent
  rw [← hfirst, ← hsecond, h.tokens]

end

/-- Sources that are the same but for the numbers of lines and the gaps have the same blocks, and host scripts with the same tokens. -/
theorem render_renumbered (hnumber : Function.Injective number) {source source' : Source} {gap gap' : String} {pos pos' : Position}
    (h : source.scan.ending = .complete gap pos) (h' : source'.scan.ending = .complete gap' pos')
    (hrenumbered : Renumbered number source source') :
    shapes (render source').script.scan.tokens = shapes (render source).script.scan.tokens ∧
      treesOf (nodesOf source') = treesOf (nodesOf source) := by
  have hnodes : (Recast.bare hnumber).nodes (nodesOf source') = (Recast.bare Function.injective_id).nodes (nodesOf source) := by
    unfold nodesOf
    rw [← Recast.blocks_statements, ← Recast.blocks_statements]
    exact congrArg blocks (statementsOf_renumbered hnumber hrenumbered)
  have hlines : (emissionsOf source').map (Recast.bare hnumber).emission =
      (emissionsOf source).map (Recast.bare Function.injective_id).emission := by
    unfold emissionsOf
    rw [← Recast.emissions_nodes _ 0 [] (nodesOf source') fun m hm => (nodesOf_genuine hm).1,
      ← Recast.emissions_nodes _ 0 [] (nodesOf source) fun m hm => (nodesOf_genuine hm).1, hnodes]
  have hwords : (scriptWords (emissionsOf source')).map wordShape = (scriptWords (emissionsOf source)).map wordShape := by
    unfold scriptWords
    rw [List.map_append, List.map_append]
    refine congrArg (_ ++ ·) ((hides_bare hnumber).gapped_words ['\n'] ?_)
    rw [← (hides_bare hnumber).lineWords_emissions fun e he => emissionsOf_genuine he,
      ← (hides_bare Function.injective_id).lineWords_emissions fun e he => emissionsOf_genuine he, hlines]
  constructor
  · rw [(render_scan h).1, (render_scan h').1, shapes_placed, shapes_placed, hwords]
  · rw [← treesOf_bare hnumber, hnodes, treesOf_bare]

/-- Comments and lines without tokens do not influence the host script: a source that is cut into tokens is cut into tokens without its
comments and then without any lines on which no part of a token stands, has the same blocks, and the same tokens are in its host script. -/
theorem render_withoutLines {source : Source} {gap : String} {pos : Position} (h : source.scan.ending = .complete gap pos)
    {dropped : Nat → Bool} (hspared : ∀ t ∈ source.uncommented.scan.tokens, t.Spared dropped) :
    reachesEnd (source.uncommented.withoutLines dropped).scan.ending ∧
      shapes (render (source.uncommented.withoutLines dropped)).script.scan.tokens = shapes (render source).script.scan.tokens ∧
      treesOf (nodesOf (source.uncommented.withoutLines dropped)) = treesOf (nodesOf source) := by
  obtain ⟨huncommented, gap', pos', h'⟩ := scan_uncommented h
  obtain ⟨⟨number, hnumber, hshortened⟩, gap'', pos'', h''⟩ := scan_withoutLines h' hspared
  obtain ⟨htokens, htrees⟩ := render_renumbered Function.injective_id h h' huncommented
  obtain ⟨htokens', htrees'⟩ := render_renumbered hnumber h' h'' hshortened
  refine ⟨?_, htokens'.trans htokens, htrees'.trans htrees⟩
  rw [h'']
  rfl

/-- A block with comments and a blank line around its header and its body, and a raw string that looks like them. -/
theorem render_withoutLines_block :
    shapes (render ⟨"case", "if(x): \n  y = `#\n`;\nelse: y = 1;"⟩).script.scan.tokens =
      shapes (render ⟨"case", "# a\nif(x): # b\n  y = `#\n`;\n\t# c\r\n\nelse: y = 1;"⟩).script.scan.tokens := by
  have h : (⟨"case", "# a\nif(x): # b\n  y = `#\n`;\n\t# c\r\n\nelse: y = 1;"⟩ : Source).scan.ending = .complete "" ⟨7, 13, 46⟩ := by
    decide +kernel
  have hlines : (⟨"case", "# a\nif(x): # b\n  y = `#\n`;\n\t# c\r\n\nelse: y = 1;"⟩ : Source).uncommented.scan.tokens.map
      (fun t => (t.span.line, t.endLine)) =
        [(2, 2), (2, 2), (2, 2), (2, 2), (2, 2), (3, 3), (3, 3), (3, 4), (4, 4), (7, 7), (7, 7), (7, 7), (7, 7), (7, 7), (7, 7)] := by
    decide +kernel
  have hspared : ∀ t ∈ (⟨"case", "# a\nif(x): # b\n  y = `#\n`;\n\t# c\r\n\nelse: y = 1;"⟩ : Source).uncommented.scan.tokens,
      t.Spared fun number => number == 1 || number == 5 || number == 6 := by
    intro t ht number hlow hhigh
    have hmem := List.mem_map_of_mem ht (f := fun t => (t.span.line, t.endLine))
    rw [hlines] at hmem
    have hall : ∀ lines ∈ [(2, 2), (2, 2), (2, 2), (2, 2), (2, 2), (3, 3), (3, 3), (3, 4), (4, 4), (7, 7), (7, 7), (7, 7), (7, 7), (7, 7),
        (7, 7)], ∀ number ≤ lines.2, lines.1 ≤ number → (number == 1 || number == 5 || number == 6) = false := by decide
    exact hall _ hmem number hhigh hlow
  have hshortened : (⟨"case", "# a\nif(x): # b\n  y = `#\n`;\n\t# c\r\n\nelse: y = 1;"⟩ : Source).uncommented.withoutLines
      (fun number => number == 1 || number == 5 || number == 6) = ⟨"case", "if(x): \n  y = `#\n`;\nelse: y = 1;"⟩ := by decide +kernel
  have hrender := (render_withoutLines h hspared).2.1
  rwa [hshortened] at hrender

end HostScript.Dialect
