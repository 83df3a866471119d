import Mathlib
import HostScript.Value.Access
import HostScript.Proofs.Value.Sorted

/-!
# Changing a value at the end of a path

What an assignment at the end of a path leaves, said without the function that does it (`Updated`): in each container on the way one item
or entry has another value, and in the innermost one the last key may be new. If the keys of that one are in order around a new key
(`InOrder`) it follows what is read afterwards: the new value at the end of the path (`Updated.getPath`), and what was there before at
every place that lies apart from it (`Updated.apart`). A way that leads through what is there (`Reaches`) splits an assignment into one at
its end and one of its end (`Reaches.modifyPath`).
-/

namespace HostScript.Value

variable {key other here old new child child' container root after v : Value} {path more front : List Value} {table : Table Value}
  {items : List Value} {i : Nat}

/-! ## Keys -/

/-- Two different keys of which one is a string. -/
def Separate (key other : Value) : Prop := key ≠ other ∧ ((∃ text, key = .string text) ∨ ∃ text, other = .string text)

/-- Values that are equal are of one kind. -/
theorem kindRank_eq_of_compare (h : key.compare here = .eq) : key.kindRank = here.kindRank := by
  by_contra hne
  rw [compare_kinds hne, Nat.compare_eq_eq] at h
  exact hne h

/-- A value that is less than another is of the same kind or of a smaller one. -/
theorem kindRank_le_of_compare (h : key.compare here = .lt) : key.kindRank ≤ here.kindRank := by
  by_contra hlt
  rw [compare_kinds (by omega), Nat.compare_eq_lt] at h
  omega

/-- The kinds decide an order between values of different kinds. -/
theorem compare_lt_of_kindRank (h : key.kindRank < here.kindRank) : key.compare here = .lt := by
  rw [compare_kinds (Nat.ne_of_lt h), Nat.compare_eq_lt]
  exact h

/-- Strings that are equal in the order are the same. -/
theorem eq_of_compare_string {text : String} (h : (string text).compare here = .eq) : here = .string text := by
  obtain ⟨text', rfl⟩ := eq_string (kindRank_eq_of_compare h)
  have h : Ord.compare text text' = .eq := h
  rw [Std.LawfulEqOrd.eq_of_compare h]

/-- A key is not found where a separate one is. -/
theorem Separate.compare_ne (h : Separate key other) (hhere : key.compare here = .eq) : other.compare here ≠ .eq := by
  intro hother
  obtain ⟨hne, ⟨text, rfl⟩ | ⟨text, rfl⟩⟩ := h
  · obtain rfl := eq_of_compare_string hhere
    rw [compare_swap, Ordering.swap_eq_eq] at hother
    exact hne (eq_of_compare_string hother).symm
  · obtain rfl := eq_of_compare_string hother
    rw [compare_swap, Ordering.swap_eq_eq] at hhere
    exact hne (eq_of_compare_string hhere)

/-- Only strings are of the kind of strings. -/
theorem exists_string (h : v.kindRank = 3) : ∃ text, v = .string text := eq_string (s := "") h.symm

/-- Between strings the order is transitive. -/
theorem compare_lt_of_strings {a b c : Value} (ha : a.kindRank = 3) (hb : b.kindRank = 3) (hc : c.kindRank = 3)
    (hab : a.compare b = .lt) (hbc : b.compare c = .lt) : a.compare c = .lt := by
  obtain ⟨a, rfl⟩ := exists_string ha
  obtain ⟨b, rfl⟩ := exists_string hb
  obtain ⟨c, rfl⟩ := exists_string hc
  exact @Std.TransCmp.lt_trans _ Ord.compare _ _ _ _ hab hbc

/-- Of two keys that are apart, one is a string. -/
theorem Separate.kindRank (h : Separate key other) : key.kindRank = 3 ∨ other.kindRank = 3 := by
  obtain ⟨-, ⟨text, rfl⟩ | ⟨text, rfl⟩⟩ := h
  · exact .inl rfl
  · exact .inr rfl

/-- What is smaller than a key is smaller than what is greater than the key, if one of two separate keys is compared. -/
theorem Separate.compare_lt (h : Separate key other) (hother : other.compare key = .lt) (hhere : key.compare here = .lt) :
    other.compare here = .lt := by
  have hleft := kindRank_le_of_compare hother
  have hright := kindRank_le_of_compare hhere
  by_cases hlt : other.kindRank < here.kindRank
  · exact compare_lt_of_kindRank hlt
  · -- all three are of one kind, which is that of strings
    have hkinds : other.kindRank = 3 ∧ key.kindRank = 3 ∧ here.kindRank = 3 := by
      have hone := h.kindRank
      omega
    exact compare_lt_of_strings hkinds.1 hkinds.2.1 hkinds.2.2 hother hhere

/-- What is greater than a key is greater than what is smaller than the key. -/
theorem Separate.compare_gt (h : Separate key other) (hother : other.compare key = .gt) (hhere : key.compare here = .gt) :
    other.compare here = .gt := by
  rw [compare_swap, Ordering.swap_eq_gt] at hother hhere ⊢
  have hleft := kindRank_le_of_compare hhere
  have hright := kindRank_le_of_compare hother
  by_cases hlt : here.kindRank < other.kindRank
  · exact compare_lt_of_kindRank hlt
  · have hkinds : here.kindRank = 3 ∧ key.kindRank = 3 ∧ other.kindRank = 3 := by
      have hone := h.kindRank
      omega
    exact compare_lt_of_strings hkinds.1 hkinds.2.1 hkinds.2.2 hhere hother

/-! ## Containers -/

/-- One value of a container has become another: the item at an index, or the value of the entry that is found at a key. -/
inductive Replaced (key old new : Value) : Value → Value → Prop
  | item {items : List Value} {i : Nat} (hindex : key.index? = some i) (hitem : items[i]? = some old) :
      Replaced key old new (.array items) (.array (items.set i new))
  | entry {table : Table Value} {i : Nat} {here : Value} (hplace : table.place key.compare = .found i)
      (hentry : table.entries[i]? = some (here, old)) :
      Replaced key old new (.object table) (.object ⟨table.entries.set i (here, new), table.heights⟩)

/-- An object has one more entry, in the gap in which a search for the key ends. -/
inductive Added (key new : Value) : Value → Value → Prop
  | entry {table : Table Value} {i : Nat} (hplace : table.place key.compare = .gap i) :
      Added key new (.object table) (.object ⟨table.entries.insertIdx i (key, new), table.grown i⟩)

/-- Two keys select different places of a container: different indices of an array, or different entries of an object, where one of
the keys is a string. If the first one is new in the object, its keys are in order around the other one. -/
inductive Parted (key other : Value) : Value → Prop
  | index {items : List Value} (h : key.index? ≠ other.index?) : Parted key other (.array items)
  | entry {table : Table Value} (h : Separate key other) (hordered : valueAt? key table = none → InOrder other table) :
      Parted key other (.object table)

/-- What stands in an object under a key, or nothing, which is `null`. -/
theorem get_object (table : Table Value) (key : Value) : (object table).get key = .ok ((valueAt? key table).getD .null) := rfl

/-- What stands in an array at an index. -/
theorem get_array (items : List Value) (key : Value) :
    (array items).get key = match key.index?.bind (items[·]?) with
      | some item => .ok item
      | none => match key with
        | .number _ => .error (.arrayIndex key items.length)
        | _ => .error (.notIndexable "array" key.typeName) := by
  cases key with
  | number n => rfl
  | _ => rfl

/-- An item of an array is read by its index. -/
theorem get_item (hindex : key.index? = some i) (hitem : items[i]? = some child) : (array items).get key = .ok child := by
  rw [get_array, hindex, Option.bind_some, hitem]

/-- An entry of an object is read by its key. -/
theorem get_entry (hfound : valueAt? key table = some child) : (object table).get key = .ok child := by
  rw [get_object, hfound, Option.getD_some]

/-- What is read at the key before and after. -/
theorem Replaced.get (h : Replaced key old new container after) : container.get key = .ok old ∧ after.get key = .ok new := by
  cases h with
  | item hindex hitem =>
    have hi := (List.getElem?_eq_some_iff.mp hitem).1
    exact ⟨get_item hindex hitem, get_item hindex (by rw [List.getElem?_set_self hi])⟩
  | @entry table i here hplace hentry =>
    have hi := (List.getElem?_eq_some_iff.mp hentry).1
    have hafter : Table.place key.compare ⟨table.entries.set i (here, new), table.heights⟩ = .found i := by
      rw [Table.place_set hentry, hplace]
    exact ⟨get_entry (Table.get?_found hplace hentry), get_entry (Table.get?_found hafter (List.getElem?_set_self hi))⟩

/-- A new key is lacking before. -/
theorem Added.lacks (h : Added key new container after) : ∃ table, container = .object table ∧ valueAt? key table = none := by
  cases h with
  | @entry table i hplace =>
    refine ⟨table, rfl, ?_⟩
    rw [valueAt?, Table.get?, hplace]
    rfl

/-- A new key that the others are in order around is found afterwards. -/
theorem Added.get (h : Added key new container after) (hordered : ∀ table, container = .object table → InOrder key table) :
    after.get key = .ok new := by
  cases h with
  | @entry table i hplace =>
    obtain ⟨before, behind, hentries, rfl, hbefore, hbehind⟩ := (hordered table rfl).exists_gap hplace
    rw [hentries, Table.insertIdx_split]
    exact get_entry (Table.get?_self hbefore hbehind (compare_self key) new)

/-- At a key that selects another place the same is read as before. -/
theorem Replaced.get_parted (h : Replaced key old new container after) (hparted : Parted key other container) :
    after.get other = container.get other := by
  cases h with
  | item hindex hitem =>
    cases hparted with
    | index hne =>
      rename_i items i
      have hsame : other.index?.bind ((items.set i new)[·]?) = other.index?.bind (items[·]?) := by
        cases hother : other.index? with
        | none => rfl
        | some j =>
          have hij : i ≠ j := by
            rintro rfl
            exact hne (hindex.trans hother.symm)
          rw [Option.bind_some, Option.bind_some, List.getElem?_set_ne hij]
      rw [get_array, get_array, hsame, List.length_set]
  | @entry table i here hplace hentry =>
    cases hparted with
    | entry hseparate =>
      have hsame : valueAt? other ⟨table.entries.set i (here, new), table.heights⟩ = valueAt? other table := by
        unfold valueAt? Table.get?
        rw [Table.place_set hentry]
        cases hother : table.place other.compare with
        | gap j => rfl
        | found j =>
          have hij : i ≠ j := by
            rintro rfl
            obtain ⟨entry, hentry', hequal⟩ := Table.exists_found hother
            obtain ⟨entry'', hentry'', hequal'⟩ := Table.exists_found hplace
            obtain rfl := Option.some.inj (hentry'.symm.trans hentry'')
            exact hseparate.compare_ne hequal' hequal
          rw [Table.Place.value?, Table.Place.value?, List.getElem?_set_ne hij]
      rw [get_object, get_object, hsame]

/-- A new entry leaves what stands under another key alone, if it is inserted in order and the two keys are parted. -/
theorem Added.get_parted (h : Added key new container after) (hordered : ∀ table, container = .object table → InOrder key table)
    (hparted : Parted key other container) : after.get other = container.get other := by
  have hlacks := h.lacks
  cases h with
  | @entry table i hplace =>
    cases hparted with
    | entry hseparate hother =>
      obtain ⟨_, hcontainer, hnone⟩ := hlacks
      obtain rfl := Value.object.inj hcontainer
      obtain ⟨before, behind, hentries, rfl, hbefore, hbehind⟩ := (hordered table rfl).exists_gap hplace
      obtain ⟨entries, heights⟩ := table
      obtain rfl : entries = before ++ behind := hentries
      have hsame : ∀ grown, valueAt? other ⟨before ++ (key, new) :: behind, grown⟩ = valueAt? other ⟨before ++ behind, heights⟩ :=
        fun _ => Table.get?_apart hbefore hbehind (hother hnone) (hseparate.compare_ne (compare_self key))
          (fun hkey k hk => hseparate.compare_gt hkey hk) (fun hkey k hk => hseparate.compare_lt hkey hk) new heights
      rw [get_object, get_object, Table.insertIdx_split, hsame]

/-! ## Paths -/

/-- Reads the value at the end of a path, key by key. -/
def getPath (root : Value) (path : List Value) : Except AccessFault Value := path.foldlM Value.get root

/-- A path is followed through the first key. -/
theorem getPath_cons (h : root.get key = .ok child) (path : List Value) : root.getPath (key :: path) = child.getPath path := by
  rw [getPath, List.foldlM_cons, h]
  rfl

/-- A path leads to the same in two values if its first key does. -/
theorem getPath_congr {a b : Value} (h : a.get key = b.get key) (path : List Value) :
    a.getPath (key :: path) = b.getPath (key :: path) := by
  rw [getPath, getPath, List.foldlM_cons, List.foldlM_cons, h]

/-- An assignment can take a step into a container: any key of an object, and the index of an item of an array. -/
inductive Enters (key : Value) : Value → Prop
  | item {items : List Value} {i : Nat} (hindex : key.index? = some i) (hi : i < items.length) : Enters key (.array items)
  | entry {table : Table Value} : Enters key (.object table)

/-- An object has no entry at a key. -/
def Lacks (key container : Value) : Prop := ∃ table, container = .object table ∧ valueAt? key table = none

/-- A path leads from a value to one inside it, through items and entries that are there. -/
inductive Reaches : Value → List Value → Value → Prop
  | nil {root : Value} : Reaches root [] root
  | item {items path : List Value} {key child container : Value} {i : Nat} (hindex : key.index? = some i)
      (hitem : items[i]? = some child) (h : Reaches child path container) : Reaches (.array items) (key :: path) container
  | entry {table : Table Value} {path : List Value} {key child container : Value} (hfound : valueAt? key table = some child)
      (h : Reaches child path container) : Reaches (.object table) (key :: path) container

/-- What a path leads to is read at its end. -/
theorem Reaches.getPath (h : Reaches root path container) : root.getPath path = .ok container := by
  induction h with
  | nil => rfl
  | item hindex hitem _ ih => rw [getPath_cons (get_item hindex hitem), ih]
  | entry hfound _ ih => rw [getPath_cons (get_entry hfound), ih]

/-- Writing back what is there changes nothing. -/
theorem Reaches.modifyPath_self (h : Reaches root path container) : modifyPath (fun _ => container) path root = (root, none) := by
  induction h with
  | nil => rfl
  | item hindex hitem _ ih =>
    obtain ⟨hi, rfl⟩ := List.getElem?_eq_some_iff.mp hitem
    rw [modifyPath, hindex]
    simp only [hitem, ih, List.set_getElem_self]
  | entry hfound _ ih =>
    obtain ⟨i, here, hplace, hentry⟩ := Table.get?_eq_some hfound
    obtain ⟨hi, hvalue⟩ := List.getElem?_eq_some_iff.mp hentry
    rw [modifyPath, hfound]
    simp only [Option.getD_some, ih]
    rw [insertEntry, Table.insert_found hplace hentry, ← hvalue, List.set_getElem_self]

/-- What is done beyond the end of a way is done to its end, and what that leaves is assigned at the end of the way. -/
theorem Reaches.modifyPath (h : Reaches root front container) (change : Value → Value) (path : List Value) :
    Value.modifyPath change (front ++ path) root =
      ((Value.modifyPath (fun _ => (Value.modifyPath change path container).1) front root).1,
        (Value.modifyPath change path container).2) := by
  induction h with
  | nil => rfl
  | item hindex hitem _ ih =>
    rw [List.cons_append, Value.modifyPath, Value.modifyPath, hindex]
    simp only [hitem, ih]
  | entry hfound _ ih =>
    rw [List.cons_append, Value.modifyPath, Value.modifyPath, hfound]
    simp only [Option.getD_some, ih]

/-! ## Updates -/

/-- A value in which the end of a path has become `v`. In each container on the way one item or entry has another value; all others are as
they were, and none is added or removed. Only in the innermost container the last key may be new. -/
inductive Updated (v : Value) : List Value → Value → Value → Prop
  | replaced {key old root after : Value} (h : Replaced key old v root after) : Updated v [key] root after
  | added {key root after : Value} (h : Added key v root after) : Updated v [key] root after
  | inner {key child child' root after : Value} {path : List Value} (h : Replaced key child child' root after)
      (hinner : Updated v path child child') : Updated v (key :: path) root after

/-- Two paths part from each other at an index of an array, or at keys of an object of which one is a string. -/
inductive Apart : Value → List Value → List Value → Prop
  | here {key other container : Value} {path more : List Value} (h : Parted key other container) :
      Apart container (key :: path) (other :: more)
  | item {items path more : List Value} {key other child : Value} {i : Nat} (hindex : key.index? = some i)
      (hother : other.index? = some i) (hitem : items[i]? = some child) (h : Apart child path more) :
      Apart (.array items) (key :: path) (other :: more)
  | entry {table : Table Value} {path more : List Value} {key child : Value} (hfound : valueAt? key table = some child)
      (h : Apart child path more) : Apart (.object table) (key :: path) (key :: more)

/-- If the last key of a path is new in an object, the keys of the object are in order around it. -/
def EndsInOrder (path : List Value) (root : Value) : Prop :=
  ∀ front key table, path = front ++ [key] → Reaches root front (.object table) → valueAt? key table = none → InOrder key table

/-- The value that has become another one lies on the way to what lies inside it. -/
theorem Replaced.reaches (h : Replaced key child child' root after) (hinner : Reaches child front container) :
    Reaches root (key :: front) container := by
  cases h with
  | item hindex hitem => exact .item hindex hitem hinner
  | entry hplace hentry => exact .entry (Table.get?_found hplace hentry) hinner

/-- Where a path ends in order, so does what is left of it in the child. -/
theorem EndsInOrder.inner (h : EndsInOrder (key :: path) root) (hchild : Replaced key child child' root after) :
    EndsInOrder path child :=
  fun front last table hpath hreaches hnone => h (key :: front) last table (congrArg (key :: ·) hpath) (hchild.reaches hreaches) hnone

/-- Around a new key at the end of a path the keys are in order. -/
theorem EndsInOrder.added (h : EndsInOrder [key] root) (hadded : Added key new root after) :
    ∀ table, root = .object table → InOrder key table := by
  rintro table rfl
  obtain ⟨_, hroot, hnone⟩ := hadded.lacks
  obtain rfl := Value.object.inj hroot
  exact h [] key table rfl .nil hnone

/-- At the end of the path the new value is read. -/
theorem Updated.getPath (h : Updated v path root after) (hend : EndsInOrder path root) : after.getPath path = .ok v := by
  induction h with
  | replaced h => rw [getPath_cons h.get.2]; rfl
  | added h => rw [getPath_cons (h.get (hend.added h))]; rfl
  | inner h _ ih => rw [getPath_cons h.get.2, ih (hend.inner h)]

/-- At places apart from the path the same is read as before. -/
theorem Updated.apart (h : Updated v path root after) (hend : EndsInOrder path root) (hapart : Apart root path more) :
    after.getPath more = root.getPath more := by
  induction h generalizing more with
  | replaced h =>
    cases hapart with
    | here hparted => exact getPath_congr (h.get_parted hparted) _
    | item _ _ _ hinside => nomatch hinside
    | entry _ hinside => nomatch hinside
  | added h =>
    cases hapart with
    | here hparted => exact getPath_congr (h.get_parted (hend.added h) hparted) _
    | item _ _ _ hinside => nomatch hinside
    | entry _ hinside => nomatch hinside
  | inner h _ ih =>
    have ih := fun {more} => @ih more (hend.inner h)
    cases hapart with
    | here hparted => exact getPath_congr (h.get_parted hparted) _
    | item hindex hother hitem hinside =>
      -- the keys of both paths stand for one index, so both go on in the same item
      cases h with
      | item hindex' hitem' =>
        obtain rfl := Option.some.inj (hindex.symm.trans hindex')
        obtain rfl := Option.some.inj (hitem.symm.trans hitem')
        have hi := (List.getElem?_eq_some_iff.mp hitem).1
        rw [getPath_cons (get_item hother hitem), getPath_cons (get_item hother (List.getElem?_set_self hi)), ih hinside]
    | entry hfound hinside =>
      obtain ⟨hbefore, hafter⟩ := h.get
      obtain rfl := Except.ok.inj ((get_entry hfound).symm.trans hbefore)
      rw [getPath_cons hbefore, getPath_cons hafter, ih hinside]

/-! ## Assignments -/

/-- An assignment succeeds along a path that leads through what is there up to its last key, at which the innermost container can be
entered. -/
def Assignable (path : List Value) (root : Value) : Prop :=
  ∃ front key container, path = front ++ [key] ∧ Reaches root front container ∧ Enters key container

/-- At a key at which a container can be entered an assignment succeeds. -/
theorem Enters.modifyPath (h : Enters key container) (v : Value) :
    ∃ after, Value.modifyPath (fun _ => v) [key] container = (after, none) ∧ Updated v [key] container after := by
  cases h with
  | item hindex hi =>
    rename_i items i
    have hitem : items[i]? = some items[i] := List.getElem?_eq_getElem hi
    refine ⟨.array (items.set i v), ?_, .replaced (.item hindex hitem)⟩
    rw [Value.modifyPath, hindex]
    simp only [hitem, Value.modifyPath]
  | entry =>
    rename_i table
    cases hfound : valueAt? key table with
    | some old =>
      obtain ⟨i, here, hplace, hentry⟩ := Table.get?_eq_some hfound
      refine ⟨_, ?_, .replaced (.entry hplace hentry)⟩
      rw [Value.modifyPath, Value.modifyPath]
      simp only [insertEntry, Table.insert_found hplace hentry]
    | none =>
      obtain ⟨i, hplace⟩ := Table.get?_eq_none hfound
      refine ⟨_, ?_, .added (.entry hplace)⟩
      rw [Value.modifyPath, Value.modifyPath]
      simp only [insertEntry, Table.insert_gap hplace]

/-- At any other key it fails, and leaves the container as it is. -/
theorem modifyPath_refused (h : ¬ Enters key container) (change : Value → Value) (rest : List Value) :
    ∃ fault, modifyPath change (key :: rest) container = (container, some fault) := by
  cases container with
  | object table => exact absurd .entry h
  | array items =>
    rw [modifyPath]
    cases hindex : key.index? with
    | none => exact ⟨_, rfl⟩
    | some i =>
      have hi : items.length ≤ i := Nat.le_of_not_lt fun hi => h (.item hindex hi)
      simp only [List.getElem?_eq_none hi]
      exact ⟨_, rfl⟩
  | _ => exact ⟨_, rfl⟩

/-- Beyond a key that is missing an assignment fails, and leaves what the assignment of null to this key does. -/
theorem Lacks.modifyPath (h : Lacks key container) (change : Value → Value) {rest : List Value} (hrest : rest ≠ []) :
    ∃ fault, Value.modifyPath change (key :: rest) container =
      ((Value.modifyPath (fun _ => .null) [key] container).1, some fault) := by
  obtain ⟨table, rfl, hmissing⟩ := h
  obtain ⟨next, rest, rfl⟩ := List.exists_cons_of_ne_nil hrest
  refine ⟨.notAssignable "null", ?_⟩
  rw [Value.modifyPath, hmissing]
  rfl

/-- A path comes to its last key, or to a key in front of that which is no way on. -/
theorem exists_way (root : Value) (hpath : path ≠ []) :
    ∃ front key rest container, path = front ++ key :: rest ∧ Reaches root front container ∧
      (¬ Enters key container ∨ (rest = [] ∧ Enters key container) ∨ (rest ≠ [] ∧ Lacks key container)) := by
  induction path generalizing root with
  | nil => exact absurd rfl hpath
  | cons key rest ih =>
    by_cases henters : Enters key root
    · cases rest with
      | nil => exact ⟨[], key, [], root, rfl, .nil, .inr (.inl ⟨rfl, henters⟩)⟩
      | cons next rest =>
        cases henters with
        | item hindex hi =>
          obtain ⟨front, key', rest', container, hsplit, hreaches, hend⟩ := ih _ (List.cons_ne_nil next rest)
          exact ⟨key :: front, key', rest', container, by rw [hsplit, List.cons_append],
            .item hindex (List.getElem?_eq_getElem hi) hreaches, hend⟩
        | entry =>
          rename_i table
          cases hfound : valueAt? key table with
          | none => exact ⟨[], key, next :: rest, _, rfl, .nil, .inr (.inr ⟨List.cons_ne_nil next rest, table, rfl, hfound⟩)⟩
          | some child =>
            obtain ⟨front, key', rest', container, hsplit, hreaches, hend⟩ := ih child (List.cons_ne_nil next rest)
            exact ⟨key :: front, key', rest', container, by rw [hsplit, List.cons_append], .entry hfound hreaches, hend⟩
    · exact ⟨[], key, rest, root, rfl, .nil, .inl henters⟩

/-- An assignment along a way that is open leaves an updated value. -/
theorem Reaches.updated (h : Reaches root front container) (henters : Enters key container) (v : Value) :
    ∃ after, Value.modifyPath (fun _ => v) (front ++ [key]) root = (after, none) ∧ Updated v (front ++ [key]) root after := by
  induction h with
  | nil => exact henters.modifyPath v
  | item hindex hitem _ ih =>
    obtain ⟨child', hchild, hupdated⟩ := ih henters
    refine ⟨_, ?_, .inner (.item hindex hitem) hupdated⟩
    rw [List.cons_append, Value.modifyPath, hindex]
    simp only [hitem, hchild]
  | entry hfound _ ih =>
    obtain ⟨child', hchild, hupdated⟩ := ih henters
    obtain ⟨i, here, hplace, hentry⟩ := Table.get?_eq_some hfound
    refine ⟨_, ?_, .inner (.entry hplace hentry) hupdated⟩
    rw [List.cons_append, Value.modifyPath, hfound]
    simp only [Option.getD_some, hchild, insertEntry, Table.insert_found hplace hentry]

/-- How an assignment along a path ends: the value is updated, or it is left as it is in front of a container that cannot be entered, or
null has been entered at the key of an object at which there is nothing to go on with. -/
theorem modifyPath_cases (root v : Value) (hpath : path ≠ []) :
    let assigned := modifyPath (fun _ => v) path root
    (assigned.2 = none ∧ Assignable path root ∧ Updated v path root assigned.1) ∨
      (assigned.2 ≠ none ∧ ∃ front key rest container, path = front ++ key :: rest ∧ Reaches root front container ∧
        ((¬ Enters key container ∧ assigned.1 = root) ∨
          (rest ≠ [] ∧ Lacks key container ∧ Updated .null (front ++ [key]) root assigned.1))) := by
  intro assigned
  obtain ⟨front, key, rest, container, rfl, hreaches, hrefused | ⟨rfl, henters⟩ | ⟨hrest, hlacks⟩⟩ := exists_way root hpath
  · obtain ⟨fault, hfault⟩ := modifyPath_refused hrefused (fun _ => v) rest
    have hassigned : assigned = (root, some fault) := by
      refine (hreaches.modifyPath _ _).trans ?_
      rw [hfault, hreaches.modifyPath_self]
    rw [hassigned]
    exact .inr ⟨nofun, front, key, rest, container, rfl, hreaches, .inl ⟨hrefused, rfl⟩⟩
  · obtain ⟨after, hassigned, hupdated⟩ := hreaches.updated henters v
    have hassigned : assigned = (after, none) := hassigned
    rw [hassigned]
    exact .inl ⟨rfl, ⟨front, key, container, rfl, hreaches, henters⟩, hupdated⟩
  · obtain ⟨fault, hfault⟩ := hlacks.modifyPath (fun _ => v) hrest
    have henters : Enters key container := by
      obtain ⟨table, rfl, -⟩ := hlacks
      exact .entry
    obtain ⟨after, hnull, hupdated⟩ := hreaches.updated henters .null
    have hassigned : assigned = (after, some fault) := by
      refine (hreaches.modifyPath _ _).trans ?_
      rw [hfault]
      rw [hreaches.modifyPath] at hnull
      obtain ⟨rfl, -⟩ := Prod.mk.inj hnull
      rfl
    rw [hassigned]
    exact .inr ⟨nofun, front, key, rest, container, rfl, hreaches, .inr ⟨hrest, hlacks, hupdated⟩⟩

/-- An assignment succeeds exactly along an open way. -/
theorem modifyPath_eq_none_iff (root v : Value) (hpath : path ≠ []) :
    (modifyPath (fun _ => v) path root).2 = none ↔ Assignable path root := by
  constructor
  · intro h
    rcases modifyPath_cases root v hpath with ⟨-, hassignable, -⟩ | ⟨hfault, -⟩
    · exact hassignable
    · exact absurd h hfault
  · rintro ⟨front, key, container, rfl, hreaches, henters⟩
    obtain ⟨after, hassigned, -⟩ := hreaches.updated henters v
    rw [hassigned]

end HostScript.Value
