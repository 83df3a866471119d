/-!
# Tables

Entries that are found by their keys. A table is a search tree whose nodes hold at most eleven entries and whose leaves have one depth. It
is kept as the row of its entries from left to right, with the height above the leaves of the node in which each of them stands; the
heights tell where the nodes begin and end. Nothing here knows an order of the keys: a search is given how the key that it looks for
compares. Only if the keys that it compares with are in order it finds whatever is there.
-/

namespace HostScript

/-- The entries of a search tree from left to right, and the heights of the nodes in which they stand. Beyond the end of the heights they
are zero, so that the heights of a tree of one node need not be kept. -/
structure Table (V : Type) where
  entries : List (V × V)
  heights : List Nat := []
  deriving Repr

namespace Table

variable {V : Type}

/-- Where a key is: at the index of its entry, or in the gap in front of an index, in which it would be put. -/
inductive Place
  | found (index : Nat)
  | gap (index : Nat)
  deriving DecidableEq, Repr

/-- The table without entries. -/
def empty : Table V := ⟨[], []⟩

/-- The number of entries. -/
def length (table : Table V) : Nat := table.entries.length

/-- The height of every entry. -/
def allHeights (table : Table V) : List Nat := table.heights ++ List.replicate (table.entries.length - table.heights.length) 0

/-- The keys from left to right, with their heights. -/
def rungs (table : Table V) : List (V × Nat) := (table.entries.map Prod.fst).zip table.allHeights

/-- The number of levels on which nodes stand. -/
def levels (table : Table V) : Nat := table.heights.foldl max 0 + 1

/-! ## Searching -/

/-- Looks for a key among those of a node, from left to right. The keys that stand lower are passed and kept in reverse. In front of a
greater key of the node, or behind its last key, the search goes on with what has been passed. -/
def scan (order : V → Ordering) (below : Nat → List (V × Nat) → Place) (height : Nat) (start : Nat) (passed : List (V × Nat)) :
    List (V × Nat) → Place
  | [] => below start passed.reverse
  | (key, standing) :: rest =>
    if standing < height then scan order below height start ((key, standing) :: passed) rest
    else match order key with
      | .lt => below start passed.reverse
      | .eq => .found (start + passed.length)
      | .gt => scan order below height (start + passed.length + 1) [] rest

/-- Looks for a key on the given number of levels, among the keys that begin at an index. -/
def seek (order : V → Ordering) : Nat → Nat → List (V × Nat) → Place
  | 0, start, _ => .gap start
  | levels + 1, start, rungs => scan order (seek order levels) levels start [] rungs

/-- Looks for a key from the root on. The order compares it with another one. -/
def place (order : V → Ordering) (table : Table V) : Place := seek order table.levels 0 table.rungs

/-- The value at a place. -/
def Place.value? (entries : List (V × V)) : Place → Option V
  | .found index => entries[index]?.map Prod.snd
  | .gap _ => none

/-- The value of a key. -/
def get? (order : V → Ordering) (table : Table V) : Option V := (table.place order).value? table.entries

/-! ## Growing -/

/-- The number of entries that a node holds. -/
def capacity : Nat := 11

/-- The indices of the entries of the node at a height in which the entry of an index stands: there is nothing higher between them. -/
def nodeOf (height index : Nat) (heights : List Nat) : List Nat :=
  let front := (heights.take index).reverse.takeWhile (· ≤ height)
  let behind := (heights.drop (index + 1)).takeWhile (· ≤ height)
  (List.range' (index - front.length) (front.length + 1 + behind.length)).filter fun i => heights[i]? == some height

/-- The rank of the entry at which a node that is too full is split, given the rank of the one that has come last. It is one of the two in
the middle: the last one stands in the smaller part, or beside the entry that is raised. -/
def middle (rank : Nat) : Nat := if rank < 5 || rank == 6 then 5 else 6

/-- What becomes of the heights after an entry has come into a node at a height: if the node is too full its middle entry is raised, and
has come into the node above. -/
def settle : Nat → Nat → Nat → List Nat → List Nat
  | 0, _, _, heights => heights
  | levels + 1, height, index, heights =>
    let node := nodeOf height index heights
    if node.length ≤ capacity then heights
    else match node[middle (node.idxOf index)]? with
      | some raised => settle levels (height + 1) raised (heights.set raised (height + 1))
      | none => heights

/-- The heights after an entry has been put at an index. -/
def grown (table : Table V) (index : Nat) : List Nat :=
  let heights := settle table.levels 0 index (table.allHeights.insertIdx index 0)
  if heights.all (· == 0) then [] else heights

/-- Puts an entry into a table. An equal key already there stays and takes the new value. -/
def insert (order : V → Ordering) (key value : V) (table : Table V) : Table V :=
  match table.place order with
  | .found index => { table with entries := table.entries.modify index fun entry => (entry.1, value) }
  | .gap index => ⟨table.entries.insertIdx index (key, value), table.grown index⟩

end Table

end HostScript
