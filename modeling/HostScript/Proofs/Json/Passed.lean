import Mathlib
import HostScript.Json.Text

/-!
# A quoted string is read on one line

Whatever a quoted string is read over, its characters, its escapes and its closing quote, is no line end (`readChars_passes`). So a text
that is read as one string from its first character to its last has no line end (`unquote_newline`).
-/

namespace HostScript.Json

/-- Reading goes on from one cursor to the next over characters that are no line ends. -/
def Passes (cursor next : Cursor) : Prop := ∃ passed, cursor.rest = passed ++ next.rest ∧ '\n' ∉ passed

theorem Passes.trans {a b c : Cursor} (h : Passes a b) (h' : Passes b c) : Passes a c := by
  obtain ⟨passed, ha, hpassed⟩ := h
  obtain ⟨passed', hb, hpassed'⟩ := h'
  refine ⟨passed ++ passed', by rw [ha, hb, List.append_assoc], ?_⟩
  simp [hpassed, hpassed']

/-- Characters that are known are passed. -/
theorem Passes.skip {cursor : Cursor} {passed rest : List Char} (h : cursor.rest = passed ++ rest) (hpassed : '\n' ∉ passed) :
    Passes cursor (cursor.skip passed.length) := by
  refine ⟨passed, ?_, hpassed⟩
  rw [Cursor.skip, h, List.drop_left]

theorem hexValue_newline {c : Char} {value : Nat} (h : hexValue? c = some value) : c ≠ '\n' := by
  rintro rfl
  contradiction

theorem readHex_passes {cursor next : Cursor} {unit : Nat} (h : readHex cursor = .ok (unit, next)) : Passes cursor next := by
  unfold readHex at h
  split at h
  · rename_i a b c d rest hrest
    split at h
    · rename_i value hunit
      cases h
      refine Passes.skip (show cursor.rest = [a, b, c, d] ++ rest from hrest) ?_
      unfold hexUnit? at hunit
      simp only [Option.bind_eq_bind, Option.bind_eq_some_iff] at hunit
      obtain ⟨_, ha, _, hb, _, hc, _, hd, -⟩ := hunit
      simp [(hexValue_newline ha).symm, (hexValue_newline hb).symm, (hexValue_newline hc).symm, (hexValue_newline hd).symm]
    · contradiction
  · contradiction

theorem readTrailing_passes {cursor next : Cursor} {unit : Nat} (h : readTrailing cursor = .ok (unit, next)) :
    Passes cursor next := by
  unfold readTrailing at h
  split at h
  case h_3 rest hrest =>
    cases hhex : readHex (cursor.skip 2) with
    | error e => simp [hhex, bind, Except.bind] at h
    | ok read =>
      simp only [hhex, bind, Except.bind] at h
      split at h
      · cases h
        exact (Passes.skip (show cursor.rest = ['\\', 'u'] ++ rest from hrest) (by decide)).trans (readHex_passes hhex)
      · contradiction
  all_goals contradiction

theorem readUnit_passes {cursor next : Cursor} {c : Char} (h : readUnit cursor = .ok (c, next)) : Passes cursor next := by
  unfold readUnit at h
  cases hhex : readHex cursor with
  | error e => simp [hhex, bind, Except.bind] at h
  | ok read =>
    simp only [hhex, bind, Except.bind] at h
    split at h
    · contradiction
    · split at h
      · cases htrailing : readTrailing read.2 with
        | error e => simp [htrailing] at h
        | ok trailing =>
          simp only [htrailing, pure, Except.pure, Except.ok.injEq, Prod.mk.injEq] at h
          obtain ⟨-, rfl⟩ := h
          exact (readHex_passes hhex).trans (readTrailing_passes htrailing)
      · cases h
        exact readHex_passes hhex

theorem readEscape_passes {cursor next : Cursor} {c : Char} (h : readEscape cursor = .ok (c, next)) : Passes cursor next := by
  unfold readEscape at h
  split at h
  · contradiction
  · rename_i rest hrest
    exact (Passes.skip (show cursor.rest = ['u'] ++ rest from hrest) (by decide)).trans (readUnit_passes h)
  · rename_i d rest hu hrest
    split at h
    · rename_i escaped hletter
      cases h
      refine Passes.skip (show cursor.rest = [d] ++ rest from hrest) ?_
      rw [List.mem_singleton]
      rintro rfl
      contradiction
    · contradiction

/-- A string is read up to its closing quote, over no line end. -/
theorem readChars_passes {cursor next : Cursor} {read : List Char} {value : String}
    (h : readChars cursor read = .ok (value, next)) : Passes cursor next := by
  fun_induction readChars cursor read with
  | case1 => contradiction
  | case2 cursor read rest hrest =>
    cases h
    exact Passes.skip (show cursor.rest = ['"'] ++ rest from hrest) (by decide)
  | case3 cursor read rest hrest c after hescape _ ih =>
    have hbackslash : Passes cursor ⟨rest, (cursor.skip 1).place⟩ := ⟨['\\'], hrest, by decide⟩
    exact hbackslash.trans ((readEscape_passes hescape).trans (ih h))
  | case4 => contradiction
  | case5 => contradiction
  | case6 cursor read c rest hquote hbackslash hrest hcontrol _ ih =>
    have hc : '\n' ∉ [c] := by
      rw [List.mem_singleton]
      rintro rfl
      exact hcontrol (by decide)
    have hnext : Passes cursor ⟨rest, Cursor.placeAfter cursor.place c⟩ := ⟨[c], hrest, hc⟩
    exact hnext.trans (ih h)

theorem skipBlanksFrom_rest (text : List Char) (place : Place) :
    (Cursor.skipBlanksFrom text place).rest = text.dropWhile Cursor.isBlank := by
  induction text generalizing place with
  | nil => rfl
  | cons c text ih =>
    rw [Cursor.skipBlanksFrom, List.dropWhile_cons]
    split
    · exact ih _
    · rfl

/-- A text between quotes that is read as one string has no line end. -/
theorem unquote_newline {text : List Char} {value : String} (h : unquote (String.ofList ('"' :: text ++ ['"'])) = .ok value) :
    '\n' ∉ text := by
  unfold unquote at h
  have hstart : (Cursor.ofText (String.ofList ('"' :: text ++ ['"']))).skipBlanks = ⟨'"' :: (text ++ ['"']), ⟨1, 0⟩⟩ := by
    rw [Cursor.ofText, String.toList_ofList]
    rfl
  rw [hstart] at h
  dsimp only at h
  cases hread : readChars (Cursor.skip ⟨'"' :: (text ++ ['"']), ⟨1, 0⟩⟩ 1) [] with
  | error e => simp [hread, bind, Except.bind] at h
  | ok read =>
    simp only [hread, bind, Except.bind] at h
    obtain ⟨passed, hpassed, hnewline⟩ := readChars_passes hread
    have hpassed : text ++ ['"'] = passed ++ read.2.rest := hpassed
    split at h
    · rename_i hend
      -- the last character is no blank, so the closing quote is read with the string and not skipped behind it
      have hblanks : read.2.rest.dropWhile Cursor.isBlank = [] := by
        rw [← skipBlanksFrom_rest read.2.rest read.2.place]
        exact List.isEmpty_iff.mp hend
      rcases List.eq_nil_or_concat read.2.rest with hrest | ⟨front, last, hrest⟩
      · rw [hrest, List.append_nil] at hpassed
        intro hmem
        exact hnewline (hpassed ▸ List.mem_append_left _ hmem)
      · rw [hrest, List.concat_eq_append, ← List.append_assoc] at hpassed
        obtain ⟨-, hlast⟩ := List.append_singleton_inj.mp hpassed
        rw [List.dropWhile_eq_nil_iff, hrest] at hblanks
        have : Cursor.isBlank last = true := hblanks last (by simp)
        rw [← hlast] at this
        contradiction
    · contradiction

end HostScript.Json
