import Mathlib
import HostScript.Proofs.Machine.Primitive
import HostScript.Proofs.Value.Updated

/-!
# Assignments along a path

An assignment at the end of a path, to a variable and to the exports alike, is a functional update (`assignment_updates`): it succeeds
exactly along a way that is open, changes what is at its end and nothing else, and if it fails it has changed nothing, or has entered
null at the one key of an object that was missing on the way. What is read afterwards is another matter. A key that is new in an object has
to be in order among the others, which it is unless a float equals two integers; else it can be put where it is not found
(`assignment_lost`).
-/

namespace HostScript.Machine

open Value

/-- How an assignment ends in a state: it succeeds, or fails at its place for a fault. -/
def settled (span : Span) (fault : Option AccessFault) (m : State) : EStateM.Result Halt State Unit :=
  match fault with
  | none => .ok () m
  | some fault => .error (.fault (.problem span (.access fault))) m

/-- What an assignment to a variable does is what is done to its value. -/
theorem assignVariable_settled {name : String} {root : Value} {m : State} (h : findSlot? name m.scopes = some (.value root)) (span : Span)
    (path : List Value) (v : Value) :
    assignVariable span name path v m =
      settled span (modifyPath (fun _ => v) path root).2
        { m with scopes := replaceSlot name (.value (modifyPath (fun _ => v) path root).1) m.scopes } := by
  rw [assignVariable_apply, h]
  dsimp only
  cases (modifyPath (fun _ => v) path root).2 <;> rfl

/-- What an assignment inside the exports does is what is done to their object. -/
theorem assignExports_settled {path : List Value} (h : path ≠ []) (span : Span) (v : Value) (m : State) :
    assignExports span path v m =
      settled span (modifyPath (fun _ => v) path m.exports).2 { m with exports := (modifyPath (fun _ => v) path m.exports).1 } := by
  obtain ⟨key, path, rfl⟩ := List.exists_cons_of_ne_nil h
  rw [assignExports_apply]
  simp only [assignedExports]
  rcases modifyPath (fun _ => v) (key :: path) m.exports with ⟨updated, _ | fault⟩ <;> rfl

/-- An assignment of a value along a path inside a root, which is the value of a variable or the exports. It succeeds exactly if
the path leads through items and entries that are there up to its last key, at which the container is an object, or an array of which the
key is an index. If it succeeds, the containers on the way are as they were but for one item or entry, or for the last key, which may be
new in the innermost one. If its keys are in order around a new last key, the new value is read at the end of the path, and the same as
before is read along every path that is parted from it at an index of an array or at a key of which one is a string. If it fails, the root
is as it was in front of a container that cannot be entered, or a key was missing in an object before the last key, and it has become an
entry with null. -/
theorem assignment_updates (root v : Value) {path : List Value} (hpath : path ≠ []) :
    let assigned := modifyPath (fun _ => v) path root
    (assigned.2 = none ↔ Assignable path root) ∧
      (assigned.2 = none → Updated v path root assigned.1 ∧ (EndsInOrder path root → assigned.1.getPath path = .ok v ∧
        ∀ other, Apart root path other → assigned.1.getPath other = root.getPath other)) ∧
      (assigned.2 ≠ none → ∃ front key rest container, path = front ++ key :: rest ∧ Reaches root front container ∧
        ((¬ Enters key container ∧ assigned.1 = root) ∨
          (rest ≠ [] ∧ Lacks key container ∧ Updated .null (front ++ [key]) root assigned.1))) ∧
      (∀ span name m, findSlot? name m.scopes = some (.value root) → assignVariable span name path v m =
        settled span assigned.2 { m with scopes := replaceSlot name (.value assigned.1) m.scopes }) ∧
      ∀ span m, m.exports = root → assignExports span path v m = settled span assigned.2 { m with exports := assigned.1 } := by
  intro assigned
  refine ⟨modifyPath_eq_none_iff root v hpath, fun hsuccess => ?_, fun hfailure => ?_, fun span name m hm => ?_, ?_⟩
  · rcases modifyPath_cases root v hpath with ⟨-, -, hupdated⟩ | ⟨hfault, -⟩
    · exact ⟨hupdated, fun hend => ⟨hupdated.getPath hend, fun other hapart => hupdated.apart hend hapart⟩⟩
    · exact absurd hsuccess hfault
  · rcases modifyPath_cases root v hpath with ⟨hnone, -⟩ | ⟨-, hcause⟩
    · exact absurd hnone hfailure
    · exact hcause
  · exact assignVariable_settled hm span path v
  · rintro span m rfl
    exact assignExports_settled hpath span v m

/-- In `{"a": {}}` the assignment of `true` along `["a"]["x"]["y"]` fails, and has entered null at the key `"x"`. -/
theorem assignment_updates_missing :
    let root : Value := .object ⟨[(.string "a", .object .empty)], []⟩
    let path : List Value := [.string "a", .string "x", .string "y"]
    let assigned := modifyPath (fun _ => .bool true) path root
    path ≠ [] ∧ ¬ Assignable path root ∧ assigned.1 = .object ⟨[(.string "a", .object ⟨[(.string "x", .null)], []⟩)], []⟩ ∧
      ∃ front key rest container, path = front ++ key :: rest ∧ Reaches root front container ∧
        ((¬ Enters key container ∧ assigned.1 = root) ∨
          (rest ≠ [] ∧ Lacks key container ∧ Updated .null (front ++ [key]) root assigned.1)) := by
  intro root path assigned
  have hpath : path ≠ [] := List.cons_ne_nil _ _
  have hassigned : assigned =
      (.object ⟨[(.string "a", .object ⟨[(.string "x", .null)], []⟩)], []⟩, some (.notAssignable "null")) := by cbv
  have hfailure : assigned.2 ≠ none := by
    rw [hassigned]
    exact Option.some_ne_none _
  obtain ⟨hopen, -, hcause, -⟩ := assignment_updates root (.bool true) hpath
  refine ⟨hpath, fun h => hfailure (hopen.mpr h), ?_, hcause hfailure⟩
  rw [hassigned]

/-- Eleven keys of an object. The fourth is greater than `[2 ^ 53, 3]`, and the fifth is smaller, although it is greater than the fourth:
the float in it equals both integers. -/
def crossedKeys : List Value :=
  [.null, .bool false, .bool true, .array [.number (.int 9007199254740993), .number (.int 1)],
    .array [.number (.float (.ofInt 9007199254740992)), .number (.int 2)]] ++
    ["a", "b", "c", "d", "e", "f"].map fun text => .array [.string text]

/-- The object to which null has been assigned at these keys, one after the other. -/
def crossed : Value := .object (tableOf (crossedKeys.map fun key => (key, .null)))

theorem eq_ok_null {read : Except AccessFault Value} (h : read.toOption.map kindRank = some 0) : read = .ok .null := by
  cases read with
  | error fault => nomatch h
  | ok v => rw [eq_null (Option.some.inj h).symm]

/-- An assignment to this object at the key `[2 ^ 53, 3]` succeeds, but null is read at the key afterwards: the new entry has come in front
of the fourth key, and the fifth has been raised to the root, behind which the key is looked for. -/
theorem assignment_lost :
    let key : Value := .array [.number (.int 9007199254740992), .number (.int 3)]
    let assigned := modifyPath (fun _ => .bool true) [key] crossed
    crossed.getPath [key] = .ok .null ∧ assigned.2 = none ∧ assigned.1.getPath [key] = .ok .null :=
  ⟨eq_ok_null (by decide +kernel), rfl, eq_ok_null (by decide +kernel)⟩

end HostScript.Machine
