import Mathlib
import HostScript.Value.Table

/-!
# Where a search in a table ends

A search ends at an entry whose key is equal to the one that it looks for, or in a gap between the entries, whatever the order
(`Table.place_sits`). If the keys of the table are in order around the one that is looked for, it ends where a search from left to right
does, however high the entries stand (`Table.place_eq_locate`). Only then an entry that has been put into a table is found again.
-/

namespace HostScript.Table

variable {V : Type} {order : V → Ordering} {table : Table V} {key here value old : V} {keys front : List V} {start index : Nat}

theorem rungs_keys (table : Table V) : table.rungs.map Prod.fst = table.entries.map Prod.fst := by
  unfold rungs allHeights
  rw [List.map_fst_zip]
  simp only [List.length_map, List.length_append, List.length_replicate]
  omega

/-! ## Any order -/

/-- A place among keys of which the first has the given index: at an equal key, or in a gap. -/
inductive Sits (order : V → Ordering) (start : Nat) : List V → Place → Prop
  | found {front behind : List V} {key : V} (hkey : order key = .eq) :
    Sits order start (front ++ key :: behind) (.found (start + front.length))
  | gap {front behind : List V} : Sits order start (front ++ behind) (.gap (start + front.length))

/-- A place is one among more keys. -/
theorem Sits.append {place : Place} (h : Sits order start keys place) (more : List V) : Sits order start (keys ++ more) place := by
  cases h with
  | found hkey =>
    rw [List.append_assoc, List.cons_append]
    exact .found hkey
  | gap =>
    rw [List.append_assoc]
    exact .gap

/-- A place behind some keys is one among all of them. -/
theorem Sits.shift {place : Place} (front : List V) (h : Sits order (start + front.length) keys place) :
    Sits order start (front ++ keys) place := by
  cases h with
  | found hkey =>
    rw [← List.append_assoc, Nat.add_assoc, ← List.length_append]
    exact .found hkey
  | gap =>
    rw [← List.append_assoc, Nat.add_assoc, ← List.length_append]
    exact .gap

/-- The keys that have been passed stand in front of the rest. -/
theorem scan_sits {below : Nat → List (V × Nat) → Place} {height : Nat} (passed rest : List (V × Nat)) (start : Nat)
    (hbelow : ∀ start rungs, Sits order start (rungs.map Prod.fst) (below start rungs)) :
    Sits order start ((passed.reverse ++ rest).map Prod.fst) (scan order below height start passed rest) := by
  induction rest generalizing passed start with
  | nil =>
    rw [List.append_nil]
    exact hbelow _ _
  | cons rung rest ih =>
    obtain ⟨key, standing⟩ := rung
    have hpassed : ((passed.reverse ++ [(key, standing)]).map Prod.fst).length = passed.length + 1 := by simp
    rw [scan]
    split
    · rw [List.append_cons, ← List.reverse_cons]
      exact ih _ _
    · split
      · rw [List.map_append]
        exact (hbelow _ _).append _
      · rename_i hkey
        rw [List.map_append, List.map_cons, ← List.length_reverse, ← List.length_map (f := Prod.fst)]
        exact .found hkey
      · rw [List.append_cons, List.map_append]
        refine .shift _ ?_
        rw [hpassed]
        exact ih [] _

/-- A search ends at a place among the keys. -/
theorem seek_sits (levels start : Nat) (rungs : List (V × Nat)) :
    Sits order start (rungs.map Prod.fst) (seek order levels start rungs) := by
  induction levels generalizing start rungs with
  | zero => exact @Sits.gap _ order start [] _
  | succ levels ih => exact scan_sits [] rungs start ih

theorem place_sits (order : V → Ordering) (table : Table V) : Sits order 0 (table.entries.map Prod.fst) (table.place order) := by
  rw [← rungs_keys]
  exact seek_sits _ _ _

/-- An entry that a search ends at has an equal key. -/
theorem exists_found (h : table.place order = .found index) :
    ∃ entry, table.entries[index]? = some entry ∧ order entry.1 = .eq := by
  have hsits := place_sits order table
  rw [h] at hsits
  generalize hkeys : table.entries.map Prod.fst = keys at hsits
  cases hsits with
  | @found front behind key hkey =>
    have hhere : (table.entries[front.length]?).map Prod.fst = some key := by
      rw [← List.getElem?_map, hkeys, List.getElem?_append_right (Nat.le_refl _), Nat.sub_self]
      rfl
    obtain ⟨entry, hentry, rfl⟩ := Option.map_eq_some_iff.mp hhere
    exact ⟨entry, by rw [Nat.zero_add, hentry], hkey⟩

/-! ## What is found -/

/-- A value that is found is that of an entry. -/
theorem get?_eq_some (h : table.get? order = some value) :
    ∃ index here, table.place order = .found index ∧ table.entries[index]? = some (here, value) := by
  unfold get? at h
  cases hplace : table.place order with
  | found index =>
    rw [hplace] at h
    obtain ⟨⟨here, value'⟩, hentry, hvalue⟩ := Option.map_eq_some_iff.mp h
    obtain rfl : value' = value := hvalue
    exact ⟨index, here, rfl, hentry⟩
  | gap index =>
    rw [hplace] at h
    nomatch h

/-- Where no value is found the key is in a gap: an index at which a key is found has an entry. -/
theorem get?_eq_none (h : table.get? order = none) : ∃ index, table.place order = .gap index := by
  unfold get? at h
  cases hplace : table.place order with
  | found index =>
    obtain ⟨entry, hentry, -⟩ := exists_found hplace
    rw [hplace, Place.value?, hentry] at h
    nomatch h
  | gap index => exact ⟨index, rfl⟩

theorem get?_found (hplace : table.place order = .found index) (hentry : table.entries[index]? = some (here, value)) :
    table.get? order = some value := by
  rw [get?, hplace, Place.value?, hentry]
  rfl

/-! ## What an entry changes -/

theorem insert_found (hplace : table.place order = .found index) (hentry : table.entries[index]? = some (here, old)) (key value : V) :
    table.insert order key value = { table with entries := table.entries.set index (here, value) } := by
  unfold insert
  rw [hplace]
  simp only [List.modify_eq_set_getElem?, hentry, Option.map_some, Option.getD_some, Option.map_eq_map]

theorem insert_gap (hplace : table.place order = .gap index) (key value : V) :
    table.insert order key value = ⟨table.entries.insertIdx index (key, value), table.grown index⟩ := by
  unfold insert
  rw [hplace]

theorem keys_set {entries : List (V × V)} (hentry : entries[index]? = some (here, old)) (value : V) :
    (entries.set index (here, value)).map Prod.fst = entries.map Prod.fst := by
  obtain ⟨hindex, hentry⟩ := List.getElem?_eq_some_iff.mp hentry
  have hlength : index < (entries.map Prod.fst).length := by rwa [List.length_map]
  have hkey : (entries.map Prod.fst)[index] = here := by rw [List.getElem_map, hentry]
  rw [List.map_set, ← hkey, List.set_getElem_self]

/-- Where a search ends does not depend on the values. -/
theorem place_set (hentry : table.entries[index]? = some (here, old)) (order : V → Ordering) (value : V) :
    Table.place order ⟨table.entries.set index (here, value), table.heights⟩ = table.place order := by
  unfold place rungs levels allHeights
  dsimp only
  rw [keys_set hentry, List.length_set]

/-- Every entry afterwards is the new one, was there before, or was there with another value. -/
theorem mem_insert {entry : V × V} (h : entry ∈ (table.insert order key value).entries) :
    entry = (key, value) ∨ entry ∈ table.entries ∨ ∃ here old, (here, old) ∈ table.entries ∧ entry = (here, value) := by
  cases hplace : table.place order with
  | gap index =>
    rw [insert_gap hplace] at h
    rcases List.eq_or_mem_of_mem_insertIdx h with rfl | h
    · exact .inl rfl
    · exact .inr (.inl h)
  | found index =>
    obtain ⟨⟨here, old⟩, hentry, -⟩ := exists_found hplace
    rw [insert_found hplace hentry] at h
    rcases List.mem_or_eq_of_mem_set h with h | rfl
    · exact .inr (.inl h)
    · exact .inr (.inr ⟨here, old, List.mem_of_getElem? hentry, rfl⟩)

/-! ## Keys in order -/

/-- Keys are in order around the one that is looked for: in front of a key that is not greater all keys are smaller. -/
def Ordered (order : V → Ordering) (keys : List V) : Prop :=
  keys.Pairwise fun former latter => order latter ≠ .lt → order former = .gt

/-- A search from left to right: it ends at the first key that is not smaller. -/
def locate (order : V → Ordering) : Nat → List V → Place
  | start, [] => .gap start
  | start, key :: rest => match order key with
    | .lt => .gap start
    | .eq => .found start
    | .gt => locate order (start + 1) rest

theorem locate_smaller (h : ∀ k ∈ front, order k = .gt) (start : Nat) (keys : List V) :
    locate order start (front ++ keys) = locate order (start + front.length) keys := by
  induction front generalizing start with
  | nil => rfl
  | cons k front ih =>
    obtain ⟨hk, hfront⟩ := List.forall_mem_cons.mp h
    rw [List.cons_append, locate, hk]
    exact (ih hfront (start + 1)).trans (by rw [List.length_cons, Nat.add_right_comm, Nat.add_assoc])

/-- What stands behind a greater key is not looked at. -/
theorem locate_greater (h : order key = .lt) (start : Nat) (front behind : List V) :
    locate order start (front ++ key :: behind) = locate order start front := by
  induction front generalizing start with
  | nil => simp only [List.nil_append, locate, h]
  | cons k front ih => rw [List.cons_append, locate, locate, ih]

/-- A node is searched as if its keys and those below were gone through from left to right. -/
theorem scan_locate {below : Nat → List (V × Nat) → Place} {height : Nat} (passed rest : List (V × Nat)) (start : Nat)
    (hordered : Ordered order ((passed.reverse ++ rest).map Prod.fst)) (hpassed : height = 0 → passed = [])
    (hbelow : ∀ start rungs, Ordered order (rungs.map Prod.fst) → (height = 0 → rungs = []) →
      below start rungs = locate order start (rungs.map Prod.fst)) :
    scan order below height start passed rest = locate order start ((passed.reverse ++ rest).map Prod.fst) := by
  induction rest generalizing passed start with
  | nil =>
    rw [List.append_nil] at hordered ⊢
    exact hbelow _ _ hordered fun h => by rw [hpassed h]; rfl
  | cons rung rest ih =>
    obtain ⟨key, standing⟩ := rung
    rw [scan]
    split
    · rename_i hlower
      rw [List.append_cons, ← List.reverse_cons] at hordered ⊢
      exact ih _ _ hordered fun h => absurd (h ▸ hlower) (Nat.not_lt_zero _)
    · -- the keys that have been passed are in front of one of the node
      rw [List.map_append, List.map_cons] at hordered ⊢
      have hfront : order key ≠ .lt → ∀ k ∈ passed.reverse.map Prod.fst, order k = .gt :=
        fun hkey k hk => (List.pairwise_append.mp hordered).2.2 k hk key List.mem_cons_self hkey
      have hlength : (passed.reverse.map Prod.fst).length = passed.length := by rw [List.length_map, List.length_reverse]
      split
      · rename_i hkey
        rw [locate_greater hkey]
        exact hbelow _ _ (List.pairwise_append.mp hordered).1 fun h => by rw [hpassed h]; rfl
      · rename_i hkey
        rw [locate_smaller (hfront (by rw [hkey]; decide)), locate, hkey, hlength]
      · rename_i hkey
        rw [locate_smaller (hfront (by rw [hkey]; decide)), locate, hkey, hlength]
        have hrest : Ordered order ((([] : List (V × Nat)).reverse ++ rest).map Prod.fst) :=
          (List.pairwise_cons.mp (List.pairwise_append.mp hordered).2.1).2
        exact ih [] _ hrest fun _ => rfl

theorem seek_locate (levels start : Nat) (rungs : List (V × Nat)) (h : Ordered order (rungs.map Prod.fst)) :
    seek order (levels + 1) start rungs = locate order start (rungs.map Prod.fst) := by
  induction levels generalizing start rungs with
  | zero => exact scan_locate [] rungs start h (fun _ => rfl) fun start rungs _ hnone => by rw [hnone rfl]; rfl
  | succ levels ih => exact scan_locate [] rungs start h (fun _ => rfl) fun start rungs hrungs _ => ih start rungs hrungs

/-- Among keys in order a search ends where one from left to right does. -/
theorem place_eq_locate (h : Ordered order (table.entries.map Prod.fst)) :
    table.place order = locate order 0 (table.entries.map Prod.fst) := by
  rw [← rungs_keys] at h ⊢
  exact seek_locate _ 0 _ h

/-- In front of a gap the keys are smaller, and behind it they are greater. -/
theorem Ordered.locate_gap (h : Ordered order keys) (hgap : locate order start keys = .gap index) :
    ∃ front behind, keys = front ++ behind ∧ index = start + front.length ∧ (∀ k ∈ front, order k = .gt) ∧
      ∀ k ∈ behind, order k = .lt := by
  induction keys generalizing start with
  | nil =>
    obtain rfl := Place.gap.inj hgap
    exact ⟨[], [], rfl, rfl, nofun, nofun⟩
  | cons key keys ih =>
    obtain ⟨hkey, hkeys⟩ := List.pairwise_cons.mp h
    rw [locate] at hgap
    split at hgap
    · rename_i hgreater
      obtain rfl := Place.gap.inj hgap
      refine ⟨[], key :: keys, rfl, rfl, nofun, List.forall_mem_cons.mpr ⟨hgreater, fun k hk => ?_⟩⟩
      by_contra hne
      rw [hkey k hk hne] at hgreater
      nomatch hgreater
    · nomatch hgap
    · rename_i hsmaller
      obtain ⟨front, behind, rfl, rfl, hfront, hbehind⟩ := ih hkeys hgap
      exact ⟨key :: front, behind, rfl, by rw [List.length_cons]; omega, List.forall_mem_cons.mpr ⟨hsmaller, hfront⟩, hbehind⟩

/-! ## Entries that are put in -/

/-- A new entry goes to the end if its key is greater than all others. -/
theorem insert_last (h : ∀ entry ∈ table.entries, order entry.1 = .gt) (key value : V) :
    (table.insert order key value).entries = table.entries ++ [(key, value)] := by
  have hkeys : ∀ k ∈ table.entries.map Prod.fst, order k = .gt := by
    intro k hk
    obtain ⟨entry, hentry, rfl⟩ := List.mem_map.mp hk
    exact h entry hentry
  have hordered : Ordered order (table.entries.map Prod.fst) :=
    List.pairwise_of_forall_mem_list fun former hformer _ _ _ => hkeys former hformer
  have hplace : table.place order = .gap table.entries.length := by
    have hend := locate_smaller hkeys 0 []
    rw [List.append_nil, List.length_map, Nat.zero_add] at hend
    rw [place_eq_locate hordered, hend]
    rfl
  rw [insert_gap hplace]
  exact List.insertIdx_length_self

theorem insertIdx_split (before behind : List (V × V)) (entry : V × V) :
    (before ++ behind).insertIdx before.length entry = before ++ entry :: behind := by
  induction before with
  | nil => rfl
  | cons e before ih => exact congrArg (e :: ·) ih

/-- A new entry among keys in order is put behind the smaller keys and in front of the greater ones. -/
theorem exists_gap (h : Ordered order (table.entries.map Prod.fst)) (hplace : table.place order = .gap index) :
    ∃ before behind, table.entries = before ++ behind ∧ index = before.length ∧ (∀ entry ∈ before, order entry.1 = .gt) ∧
      ∀ entry ∈ behind, order entry.1 = .lt := by
  rw [place_eq_locate h] at hplace
  obtain ⟨front, rest, hkeys, rfl, hfront, hrest⟩ := h.locate_gap hplace
  obtain ⟨before, behind, hentries, rfl, rfl⟩ := List.map_eq_append_iff.mp hkeys
  refine ⟨before, behind, hentries, by rw [List.length_map, Nat.zero_add], fun entry hentry => ?_, fun entry hentry => ?_⟩
  · exact hfront _ (List.mem_map_of_mem hentry)
  · exact hrest _ (List.mem_map_of_mem hentry)

/-- The value of the first key that is not smaller, if it is equal. -/
def lookup (order : V → Ordering) : List (V × V) → Option V
  | [] => none
  | (key, value) :: rest => match order key with
    | .lt => none
    | .eq => some value
    | .gt => lookup order rest

/-- Among keys in order the value of a key is found from left to right. -/
theorem get?_eq_lookup (h : Ordered order (table.entries.map Prod.fst)) : table.get? order = lookup order table.entries := by
  have hfound : ∀ entries before : List (V × V),
      (locate order before.length (entries.map Prod.fst)).value? (before ++ entries) = lookup order entries := by
    intro entries
    induction entries with
    | nil => exact fun _ => rfl
    | cons entry entries ih =>
      intro before
      obtain ⟨key, value⟩ := entry
      rw [List.map_cons, locate, lookup]
      cases order key with
      | lt => rfl
      | eq => simp [Place.value?]
      | gt =>
        have hrest := ih (before ++ [(key, value)])
        rw [List.length_append, List.length_singleton, List.append_assoc] at hrest
        exact hrest
  unfold get?
  rw [place_eq_locate h]
  exact hfound table.entries []

/-- An entry whose key is apart is not seen. -/
theorem lookup_apart {before behind : List (V × V)} (hne : order key ≠ .eq)
    (hbehind : order key = .lt → ∀ entry ∈ behind, order entry.1 = .lt) (value : V) :
    lookup order (before ++ (key, value) :: behind) = lookup order (before ++ behind) := by
  induction before with
  | nil =>
    rw [List.nil_append, List.nil_append, lookup]
    cases hkey : order key with
    | eq => exact absurd hkey hne
    | gt => rfl
    | lt =>
      cases behind with
      | nil => rfl
      | cons entry behind => rw [lookup, hbehind hkey entry List.mem_cons_self]
  | cons entry before ih => rw [List.cons_append, List.cons_append, lookup, lookup, ih]

/-- Behind smaller keys an equal one is found. -/
theorem lookup_self {before : List (V × V)} (hbefore : ∀ entry ∈ before, order entry.1 = .gt) (hkey : order key = .eq)
    (value : V) (behind : List (V × V)) : lookup order (before ++ (key, value) :: behind) = some value := by
  induction before with
  | nil => rw [List.nil_append, lookup, hkey]
  | cons entry before ih =>
    obtain ⟨hentry, hbefore⟩ := List.forall_mem_cons.mp hbefore
    rw [List.cons_append, lookup, hentry]
    exact ih hbefore

section

variable {before behind : List (V × V)} {heights : List Nat} (hbefore : ∀ entry ∈ before, order entry.1 = .gt)
  (hbehind : ∀ entry ∈ behind, order entry.1 = .lt)

include hbefore hbehind

/-- An entry that has been put among keys in order is found, however high the entries stand now. -/
theorem get?_self (hkey : order key = .eq) (value : V) :
    get? order ⟨before ++ (key, value) :: behind, heights⟩ = some value := by
  have hordered : Ordered order ((before ++ (key, value) :: behind).map Prod.fst) := by
    unfold Ordered
    rw [List.pairwise_map, List.pairwise_append]
    refine ⟨List.pairwise_of_forall_mem_list fun former hformer _ _ _ => hbefore former hformer, ?_,
      fun former hformer _ _ _ => hbefore former hformer⟩
    rw [List.pairwise_cons]
    refine ⟨fun latter hlatter hne => absurd (hbehind latter hlatter) hne, ?_⟩
    exact List.pairwise_of_forall_mem_list fun _ _ latter hlatter hne => absurd (hbehind latter hlatter) hne
  rw [get?_eq_lookup hordered]
  exact lookup_self hbefore hkey value behind

/-- It does not change what is found at a key that is apart from it, if all keys are in order around that one too. -/
theorem get?_apart {other : V → Ordering} (hother : Ordered other ((before ++ behind).map Prod.fst)) (hne : other key ≠ .eq)
    (hgreater : other key = .gt → ∀ k, order k = .gt → other k = .gt) (hsmaller : other key = .lt → ∀ k, order k = .lt → other k = .lt)
    (value : V) (former : List Nat) :
    get? other ⟨before ++ (key, value) :: behind, heights⟩ = get? other ⟨before ++ behind, former⟩ := by
  have hafter : other key = .lt → ∀ entry ∈ behind, other entry.1 = .lt :=
    fun hkey entry hentry => hsmaller hkey _ (hbehind entry hentry)
  have hordered : Ordered other ((before ++ (key, value) :: behind).map Prod.fst) := by
    unfold Ordered at hother ⊢
    rw [List.pairwise_map, List.pairwise_append] at hother ⊢
    obtain ⟨hfirst, hlast, hboth⟩ := hother
    refine ⟨hfirst, List.pairwise_cons.mpr ⟨fun latter hlatter hnot => ?_, hlast⟩, fun entry hentry latter hlatter hnot => ?_⟩
    · cases hkey : other key with
      | eq => exact absurd hkey hne
      | lt => exact absurd (hafter hkey latter hlatter) hnot
      | gt => rfl
    · rcases List.mem_cons.mp hlatter with rfl | hlatter
      · cases hkey : other key with
        | eq => exact absurd hkey hne
        | lt => exact absurd hkey hnot
        | gt => exact hgreater hkey _ (hbefore entry hentry)
      · exact hboth entry hentry latter hlatter hnot
  rw [get?_eq_lookup hordered, get?_eq_lookup hother]
  exact lookup_apart hne hafter value

end

end HostScript.Table
