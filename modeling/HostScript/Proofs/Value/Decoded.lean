import Mathlib
import HostScript.Proofs.Json.Spelled

/-!
# Values are decoded from their texts

The compact and the pretty text of a value without floats are both texts of one value in the sense of `Value.Spelled`; they differ in
blanks only. This value has the tables of its objects built from their entries one by one (`Value.regrown`). So both texts are read back
as the value itself but for the layout of its tables (`ofJson_encoded`), with its integers, its strings and the order of its items.
-/

namespace HostScript.Value

open Json (Blanks comma)

/-- A writer has appended a text with some property. -/
def Appends (P : List Char → Prop) (out out' : String) : Prop := ∃ text, out'.toList = out.toList ++ text ∧ P text

/-- To append a text is to append what it spells. -/
theorem Appends.of_append {P : List Char → Prop} {out : String} (text : String) (h : P text.toList) : Appends P out (out ++ text) :=
  ⟨text.toList, String.toList_append, h⟩

/-- The comma in front of an item or entry. -/
theorem toList_comma (first : Bool) (out : String) : (if first then out else out.push ',').toList = out.toList ++ comma first := by
  cases first with
  | true => exact (List.append_nil _).symm
  | false => exact String.toList_push ','

/-- A new line consists of blanks. -/
theorem toList_newline (depth : Nat) (out : String) : ∃ blanks, Blanks blanks ∧ (newline depth out).toList = out.toList ++ blanks := by
  have hindent : ∀ (n : Nat) (out : String), ∃ blanks, Blanks blanks ∧
      ((List.replicate n "  ").foldl (· ++ ·) out).toList = out.toList ++ blanks := by
    intro n
    induction n with
    | zero => exact fun out => ⟨[], List.forall_mem_nil _, (List.append_nil _).symm⟩
    | succ n ih =>
      intro out
      obtain ⟨blanks, hblanks, hout⟩ := ih (out ++ "  ")
      refine ⟨' ' :: ' ' :: blanks, ?_, ?_⟩
      · exact List.forall_mem_cons.mpr ⟨rfl, List.forall_mem_cons.mpr ⟨rfl, hblanks⟩⟩
      · rw [List.replicate_succ, List.foldl_cons, hout, String.toList_append, List.append_assoc]
        rfl
  obtain ⟨blanks, hblanks, hout⟩ := hindent depth (out.push '\n')
  refine ⟨'\n' :: blanks, List.forall_mem_cons.mpr ⟨rfl, hblanks⟩, ?_⟩
  rw [newline, hout, String.toList_push, List.append_assoc]
  rfl

/-! ## The value that is read back -/

mutual

/-- The value whose objects are built anew: their entries are put in one by one. -/
def regrown : Value → Value
  | .array items => .array (regrownItems items)
  | .object ⟨entries, _⟩ => .object (tableOf (regrownEntries entries))
  | .null => .null
  | .bool b => .bool b
  | .number n => .number n
  | .string text => .string text

/-- Values whose objects are built anew. -/
def regrownItems : List Value → List Value
  | [] => []
  | v :: rest => v.regrown :: regrownItems rest

/-- Entries in whose values the objects are built anew. -/
def regrownEntries : List (Value × Value) → List (Value × Value)
  | [] => []
  | (key, value) :: rest => (key, value.regrown) :: regrownEntries rest

end

/-- The keys of entries stay the same. -/
theorem regrownEntries_keys (entries : List (Value × Value)) : (regrownEntries entries).map Prod.fst = entries.map Prod.fst := by
  induction entries with
  | nil => rfl
  | cons entry entries ih => exact congrArg (entry.1 :: ·) ih

/-- The keys stay in their order. -/
theorem regrownEntries_sorted {entries : List (Value × Value)} (h : Sorted entries) : Sorted (regrownEntries entries) := by
  unfold Sorted at h ⊢
  rw [← List.pairwise_map (f := Prod.fst) (R := fun first second => compare first second = .lt)] at h ⊢
  rwa [regrownEntries_keys]

mutual

/-- It differs in the layout of its tables only. -/
theorem regrown_flat : (v : Value) → v.Plain → v.regrown.flat = v.flat
  | .null, _ | .bool _, _ | .number _, _ | .string _, _ => rfl
  | .array items, h => by rw [regrown, flat, flat, regrownItems_flat items h]
  | .object ⟨entries, _⟩, h => by
    obtain ⟨heights, htable⟩ := tableOf_eq (regrownEntries_sorted h.1)
    rw [regrown, htable, flat, flat, regrownEntries_flat entries h.2]

/-- Items with other tables are flat in the same way. -/
theorem regrownItems_flat : (items : List Value) → ItemsPlain items → flatItems (regrownItems items) = flatItems items
  | [], _ => rfl
  | v :: items, h => by rw [regrownItems, flatItems, flatItems, v.regrown_flat h.1, regrownItems_flat items h.2]

/-- Entries with other tables are flat in the same way. -/
theorem regrownEntries_flat : (entries : List (Value × Value)) → EntriesPlain entries →
    flatEntries (regrownEntries entries) = flatEntries entries
  | [], _ => rfl
  | (key, value) :: entries, h => by
    rw [regrownEntries, flatEntries, flatEntries, value.regrown_flat h.2.1, regrownEntries_flat entries h.2.2]

end

mutual

/-- Its containers are nested as deep. -/
theorem regrown_depth : (v : Value) → v.Plain → v.regrown.depth = v.depth
  | .null, _ | .bool _, _ | .number _, _ | .string _, _ => rfl
  | .array items, h => by rw [regrown, depth, depth, regrownItems_depth items h]
  | .object ⟨entries, _⟩, h => by
    obtain ⟨heights, htable⟩ := tableOf_eq (regrownEntries_sorted h.1)
    rw [regrown, htable, depth, depth, regrownEntries_depth entries h.2]

/-- Items with other tables are as deep. -/
theorem regrownItems_depth : (items : List Value) → ItemsPlain items → itemsDepth (regrownItems items) = itemsDepth items
  | [], _ => rfl
  | v :: items, h => by rw [regrownItems, itemsDepth, itemsDepth, v.regrown_depth h.1, regrownItems_depth items h.2]

/-- Entries with other tables are as deep. -/
theorem regrownEntries_depth : (entries : List (Value × Value)) → EntriesPlain entries →
    entriesDepth (regrownEntries entries) = entriesDepth entries
  | [], _ => rfl
  | (_, value) :: entries, h => by
    rw [regrownEntries, entriesDepth, entriesDepth, value.regrown_depth h.2.1, regrownEntries_depth entries h.2.2]

end

/-! ## Data on one line -/

mutual

/-- The compact text of a value spells it. -/
theorem writeCompact_spelled : (v : Value) → v.Plain → (out : String) → Appends v.regrown.Spelled out (writeCompact v out)
  | .null, _, out => .of_append "null" .null
  | .bool b, _, out => .of_append _ (.bool b)
  | .number n, h, out => by
    obtain ⟨i, rfl⟩ := h
    exact .of_append _ (.int i)
  | .string text, _, out => .of_append _ (.string text)
  | .array items, h, out => by
    obtain ⟨inside, hout, hinside⟩ := writeItems_spelled items h (out.push '[') true
    refine ⟨'[' :: inside, ?_, .array hinside⟩
    rw [writeCompact, hout, String.toList_push, List.append_assoc]
    rfl
  | .object ⟨entries, _⟩, h, out => by
    obtain ⟨inside, hout, hinside⟩ := writeEntries_spelled entries h.2 (out.push '\x7b') true
    refine ⟨'\x7b' :: inside, ?_, .object (regrownEntries_sorted h.1) hinside⟩
    rw [writeCompact, hout, String.toList_push, List.append_assoc]
    rfl

/-- The compact text of items spells them, with their commas and the bracket behind them. -/
theorem writeItems_spelled : (items : List Value) → ItemsPlain items → (out : String) → (first : Bool) →
    Appends (ItemsSpelled first (regrownItems items)) out ((writeItems items out first).push ']')
  | [], _, out, first => ⟨[']'], String.toList_push ']', .close (List.forall_mem_nil _)⟩
  | v :: items, h, out, first => by
    obtain ⟨text, hout, htext⟩ := writeCompact_spelled v h.1 (if first then out else out.push ',')
    obtain ⟨behind, hitems, hbehind⟩ := writeItems_spelled items h.2 (writeCompact v (if first then out else out.push ',')) false
    refine ⟨comma first ++ ([] ++ (text ++ behind)), ?_, .item (List.forall_mem_nil _) htext hbehind⟩
    rw [writeItems, hitems, hout, toList_comma]
    simp only [List.append_assoc, List.nil_append]

/-- The compact text of entries spells them, with their commas and the brace behind them. -/
theorem writeEntries_spelled : (entries : List (Value × Value)) → EntriesPlain entries → (out : String) → (first : Bool) →
    Appends (EntriesSpelled first (regrownEntries entries)) out ((writeEntries entries out first).push '\x7d')
  | [], _, out, first => ⟨['\x7d'], String.toList_push '\x7d', .close (List.forall_mem_nil _)⟩
  | (key, value) :: entries, h, out, first => by
    obtain ⟨⟨name, rfl⟩, hvalue, hentries⟩ := h
    have hkey : writeCompact (.string name) "" = Json.quote name := String.empty_append
    obtain ⟨text, hout, htext⟩ := writeCompact_spelled value hvalue
      (((if first then out else out.push ',') ++ Json.quote name).push ':')
    obtain ⟨behind, hrest, hbehind⟩ := writeEntries_spelled entries hentries
      (writeCompact value (((if first then out else out.push ',') ++ Json.quote name).push ':')) false
    refine ⟨comma first ++ ([] ++ ((Json.quote name).toList ++ ':' :: ([] ++ (text ++ behind)))), ?_,
      .entry (List.forall_mem_nil _) (List.forall_mem_nil _) htext hbehind⟩
    rw [writeEntries]
    simp only [isString, if_true, hrest, hout, String.toList_push, String.toList_append, hkey, toList_comma, List.append_assoc,
      List.nil_append, List.cons_append]

end

/-! ## Data with one entry a line -/

mutual

/-- The pretty text of a value spells it, at any depth. -/
theorem writePretty_spelled : (depth : Nat) → (v : Value) → v.Plain → (out : String) →
    Appends v.regrown.Spelled out (writePretty depth v out)
  | _, .null, _, out => .of_append "null" .null
  | _, .bool b, _, out => .of_append _ (.bool b)
  | _, .number n, h, out => by
    obtain ⟨i, rfl⟩ := h
    exact .of_append _ (.int i)
  | _, .string text, _, out => .of_append _ (.string text)
  | _, .array [], _, out => .of_append "[]" (.array (.close (List.forall_mem_nil _)))
  | depth, .array (v :: items), h, out => by
    obtain ⟨inside, hout, hinside⟩ := writePrettyItems_spelled (depth + 1) depth (v :: items) h (out.push '[') true
    refine ⟨'[' :: inside, ?_, .array hinside⟩
    rw [writePretty, if_neg (by simp), hout, String.toList_push, List.append_assoc]
    rfl
  | _, .object ⟨[], _⟩, _, out => .of_append "\x7b\x7d" (.object List.Pairwise.nil (.close (List.forall_mem_nil _)))
  | depth, .object ⟨entry :: entries, _⟩, h, out => by
    obtain ⟨inside, hout, hinside⟩ := writePrettyEntries_spelled (depth + 1) depth (entry :: entries) h.2 (out.push '\x7b') true
    refine ⟨'\x7b' :: inside, ?_, .object (regrownEntries_sorted h.1) hinside⟩
    rw [writePretty, if_neg (by simp), hout, String.toList_push, List.append_assoc]
    rfl

/-- The pretty text of items spells them, with the blanks around them and the bracket behind them. -/
theorem writePrettyItems_spelled : (inner outer : Nat) → (items : List Value) → ItemsPlain items → (out : String) → (first : Bool) →
    Appends (ItemsSpelled first (regrownItems items)) out ((newline outer (writePrettyItems inner items out first)).push ']')
  | inner, outer, [], _, out, first => by
    obtain ⟨blanks, hblanks, hout⟩ := toList_newline outer out
    refine ⟨blanks ++ [']'], ?_, .close hblanks⟩
    rw [String.toList_push, writePrettyItems, hout, List.append_assoc]
  | inner, outer, v :: items, h, out, first => by
    obtain ⟨blanks, hblanks, hline⟩ := toList_newline inner (if first then out else out.push ',')
    obtain ⟨text, hout, htext⟩ := writePretty_spelled inner v h.1 (newline inner (if first then out else out.push ','))
    obtain ⟨behind, hitems, hbehind⟩ := writePrettyItems_spelled inner outer items h.2
      (writePretty inner v (newline inner (if first then out else out.push ','))) false
    refine ⟨comma first ++ (blanks ++ (text ++ behind)), ?_, .item hblanks htext hbehind⟩
    rw [writePrettyItems, hitems, hout, hline, toList_comma]
    simp only [List.append_assoc]

/-- The pretty text of entries spells them, with the blanks around them and the brace behind them. -/
theorem writePrettyEntries_spelled : (inner outer : Nat) → (entries : List (Value × Value)) → EntriesPlain entries → (out : String) →
    (first : Bool) →
    Appends (EntriesSpelled first (regrownEntries entries)) out ((newline outer (writePrettyEntries inner entries out first)).push '\x7d')
  | inner, outer, [], _, out, first => by
    obtain ⟨blanks, hblanks, hout⟩ := toList_newline outer out
    refine ⟨blanks ++ ['\x7d'], ?_, .close hblanks⟩
    rw [String.toList_push, writePrettyEntries, hout, List.append_assoc]
  | inner, outer, (key, value) :: entries, h, out, first => by
    obtain ⟨⟨name, rfl⟩, hvalue, hentries⟩ := h
    have hkey : keyText (.string name) = Json.quote name := String.empty_append
    obtain ⟨blanks, hblanks, hline⟩ := toList_newline inner (if first then out else out.push ',')
    obtain ⟨text, hout, htext⟩ := writePretty_spelled inner value hvalue
      (newline inner (if first then out else out.push ',') ++ Json.quote name ++ ": ")
    obtain ⟨behind, hrest, hbehind⟩ := writePrettyEntries_spelled inner outer entries hentries
      (writePretty inner value (newline inner (if first then out else out.push ',') ++ Json.quote name ++ ": ")) false
    refine ⟨comma first ++ (blanks ++ ((Json.quote name).toList ++ ':' :: ([' '] ++ (text ++ behind)))), ?_,
      .entry hblanks (List.forall_mem_singleton.mpr rfl) htext hbehind⟩
    rw [writePrettyEntries]
    simp only [hrest, hout, hline, String.toList_append, hkey, toList_comma, List.append_assoc]
    rfl

end

/-! ## Both are read back -/

/-- A text of a value is decoded as the value if no more containers are nested in it than may be open. -/
theorem ofJson_spelled {v : Value} {text : String} (h : v.Spelled text.toList) (hdepth : v.depth ≤ Json.maxDepth) :
    ofJson text = .ok v := by
  have hends : Json.EndsNumber [] := fun d hd => nomatch hd
  obtain ⟨place, hread⟩ := readValue_spelled h hdepth hends ⟨1, 0⟩
  rw [List.append_nil] at hread
  unfold ofJson Json.Cursor.ofText
  rw [hread]
  rfl

/-- The whole compact text is one that spells the value. -/
theorem compact_spelled {v : Value} (h : v.Plain) : v.regrown.Spelled v.compact.toList := by
  obtain ⟨text, hout, htext⟩ := writeCompact_spelled v h ""
  exact (show v.compact.toList = text from hout) ▸ htext

/-- The whole pretty text is one that spells the value. -/
theorem pretty_spelled {v : Value} (h : v.Plain) : v.regrown.Spelled v.pretty.toList := by
  obtain ⟨text, hout, htext⟩ := writePretty_spelled 0 v h ""
  exact (show v.pretty.toList = text from hout) ▸ htext

/-- A value without floats, with strings as keys and containers nested at most 127 deep, is decoded from its compact and from its
pretty text as it was: what both texts are decoded as differs from it at most in the layout of its tables. -/
theorem ofJson_encoded {v : Value} (h : v.Plain) (hdepth : v.depth ≤ 127) :
    ∃ decoded, ofJson v.compact = .ok decoded ∧ ofJson v.pretty = .ok decoded ∧ decoded.flat = v.flat := by
  rw [← v.regrown_depth h] at hdepth
  exact ⟨v.regrown, ofJson_spelled (compact_spelled h) hdepth, ofJson_spelled (pretty_spelled h) hdepth, v.regrown_flat h⟩

/-- The extreme integers, characters that are escaped or take several bytes, and empty containers are decoded as they were. -/
theorem ofJson_encoded_extremes :
    let v : Value := .object ⟨[(.string "", .array [.null, .bool false, .number (.int Int64.minValue), .number (.int Int64.maxValue)]),
      (.string "a\"", .array [.string "\\\n\u0001é😀", .array [], .object .empty])], []⟩
    (v.Plain ∧ v.depth ≤ 127) ∧ ∃ decoded, ofJson v.compact = .ok decoded ∧ ofJson v.pretty = .ok decoded ∧ decoded.flat = v.flat := by
  intro v
  have hplain : v.Plain := by
    refine ⟨List.pairwise_pair.mpr (by decide), ⟨⟨_, rfl⟩, ⟨trivial, trivial, ⟨_, rfl⟩, ⟨_, rfl⟩, trivial⟩, ⟨_, rfl⟩, ?_, trivial⟩⟩
    exact ⟨trivial, trivial, ⟨List.Pairwise.nil, trivial⟩, trivial⟩
  have hdepth : v.depth ≤ 127 := by decide
  exact ⟨⟨hplain, hdepth⟩, ofJson_encoded hplain hdepth⟩

end HostScript.Value
