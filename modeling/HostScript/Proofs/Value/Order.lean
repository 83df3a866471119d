import Mathlib
import HostScript.Value.Basic
import HostScript.Proofs.Number.Rounding

/-!
# The order of values

Integers are compared exactly with each other and rounded when they meet a float, so a float can equal two different integers and
then the order contradicts itself. `KeptApart` says of a set of numbers that this does not happen in it, and
`compare_ordered_iff` that the order of the values that hold no other numbers is lawful exactly then. Sets without floats are
kept apart, and so are sets without integers beyond `2 ^ 53`.
-/

namespace HostScript

/-! ## Three comparisons -/

/-- The comparisons of a first thing with a second, of the second with a third and of the first with the third agree: what is
equal can be replaced, and two steps in one direction are a step in that direction. -/
structure Composes (first second both : Ordering) : Prop where
  eq_left : first = .eq → both = second
  eq_right : second = .eq → both = first
  same : first = second → both = first

/-- Comparing the other way round swaps the result. -/
theorem ord_swap {α : Type} [Ord α] [Std.OrientedOrd α] (a b : α) : compare b a = (compare a b).swap :=
  Std.OrientedCmp.eq_swap

/-- The results of a transitive order compose. -/
theorem composes_compare {α : Type} [Ord α] [Std.TransOrd α] (a b c : α) :
    Composes (compare a b) (compare b c) (compare a c) where
  eq_left h := Std.TransCmp.congr_left h
  eq_right h := (Std.TransCmp.congr_right h).symm
  same h := by
    cases hab : compare a b with
    | lt => exact Std.TransCmp.lt_trans hab (h ▸ hab)
    | gt => exact Std.TransCmp.gt_trans hab (h ▸ hab)
    | eq =>
      rw [Std.TransCmp.congr_left hab, ← h]
      exact hab

/-- Lexicographic comparisons agree if the comparisons in front do, and those behind whenever they are needed. -/
theorem Composes.then {o₁ o₂ o₃ p₁ p₂ p₃ : Ordering} (ho : Composes o₁ o₂ o₃)
    (hp : o₁ = .eq → o₂ = .eq → Composes p₁ p₂ p₃) : Composes (o₁.then p₁) (o₂.then p₂) (o₃.then p₃) := by
  by_cases h₁ : o₁ = .eq
  · obtain rfl : o₃ = o₂ := ho.eq_left h₁
    subst h₁
    by_cases h₂ : o₃ = .eq
    · subst h₂
      exact hp rfl rfl
    · -- the second comparison decides, and the third is the same
      have hdecided : ∀ p : Ordering, o₃.then p = o₃ := by
        intro p
        cases o₃ <;> first | rfl | exact absurd rfl h₂
      rw [hdecided p₂, hdecided p₃]
      exact ⟨fun _ => rfl, fun h => absurd h h₂, fun h => h.symm⟩
  · have hdecided : ∀ p : Ordering, o₁.then p = o₁ := by
      intro p
      cases o₁ <;> first | rfl | exact absurd rfl h₁
    by_cases h₂ : o₂ = .eq
    · obtain rfl : o₃ = o₁ := ho.eq_right h₂
      subst h₂
      rw [hdecided p₁, hdecided p₃]
      exact ⟨fun h => absurd h h₁, fun _ => rfl, fun _ => rfl⟩
    · have hdecided₂ : ∀ p : Ordering, o₂.then p = o₂ := by
        intro p
        cases o₂ <;> first | rfl | exact absurd rfl h₂
      rw [hdecided p₁, hdecided₂ p₂]
      refine ⟨fun h => absurd h h₁, fun h => absurd h h₂, fun h => ?_⟩
      rw [ho.same h, hdecided p₃]

/-- An equal first pair leaves the result of both to the second one. -/
theorem composes_eq (o : Ordering) : Composes .eq o o :=
  ⟨fun _ => rfl, fun h => h, fun h => h.symm⟩

/-- Whatever the first result is, a second one that is `.gt` may be that of both. -/
theorem composes_gt (o : Ordering) : Composes o .gt .gt :=
  ⟨fun _ => rfl, fun h => absurd h (by decide), fun h => h.symm⟩

/-! ## Numbers -/

/-- No float of a set of numbers equals two of its integers. -/
def KeptApart (S : Number → Prop) : Prop :=
  ∀ (i j : Int64) (x : Binary64), S (.int i) → S (.int j) → S (.float x) →
    Binary64.ofInt i.toInt = x → Binary64.ofInt j.toInt = x → i = j

/-- Integers alone are kept apart. -/
theorem keptApart_int : KeptApart fun n => ∃ i, n = .int i := by
  rintro i j x - - ⟨k, hk⟩
  contradiction

/-- Integers up to `2 ^ 53` and all floats are kept apart. -/
theorem keptApart_exact : KeptApart fun n => ∀ i : Int64, n = .int i → i.toInt.natAbs ≤ Binary64.exactIntegerLimit := by
  intro i j x hi hj _ hix hjx
  have h : i.toInt = j.toInt := Binary64.ofInt_injective (hi i rfl) (hj j rfl) (hix.trans hjx.symm)
  exact Int64.toInt_inj.mp h

namespace Number

/-- Where a number stands among the floats. -/
def key (n : Number) : Int := n.toBinary64.orderKey

/-- Integers are compared as integers. -/
theorem compare_int_int (i j : Int64) : (int i).compare (int j) = Ord.compare i.toInt j.toInt := rfl

/-- A float is compared with a number by their keys. -/
theorem compare_float_left (x : Binary64) (n : Number) : (float x).compare n = Ord.compare (float x).key n.key := by
  cases n <;> rfl

/-- A number is compared with a float by their keys. -/
theorem compare_float_right (n : Number) (x : Binary64) : n.compare (float x) = Ord.compare n.key (float x).key := by
  cases n <;> rfl

/-- Comparing numbers the other way round swaps the result. -/
theorem compare_swap (a b : Number) : b.compare a = (a.compare b).swap := by
  cases a with
  | int i =>
    cases b with
    | int j => exact ord_swap i.toInt j.toInt
    | float y => exact ord_swap (int i).key (float y).key
  | float x =>
    rw [compare_float_left, compare_float_right]
    exact ord_swap (float x).key b.key

/-- Greater integers have greater keys, or the same ones. -/
theorem key_mono {i j : Int64} (h : i.toInt ≤ j.toInt) : (int i).key ≤ (int j).key := Binary64.ofInt_mono h

/-- Comparisons of integers agree if what they say of equality and of the directions does. -/
theorem composes_of_order {p q r s t u : Int} (hleft : p = q → (r < s ↔ t < u) ∧ (r = s ↔ t = u))
    (hright : r = s → (p < q ↔ t < u) ∧ (p = q ↔ t = u)) (hlt : p < q → r < s → t < u) (hgt : q < p → s < r → u < t) :
    Composes (Ord.compare p q) (Ord.compare r s) (Ord.compare t u) := by
  have hsame : ∀ {m n k l : Int}, (m < n ↔ k < l) → (m = n ↔ k = l) → Ord.compare m n = Ord.compare k l := by
    intro m n k l hlt heq
    rcases lt_trichotomy m n with h | h | h
    · rw [Int.compare_eq_lt.mpr h, Int.compare_eq_lt.mpr (hlt.mp h)]
    · rw [Int.compare_eq_eq.mpr h, Int.compare_eq_eq.mpr (heq.mp h)]
    · rw [Int.compare_eq_gt.mpr h, Int.compare_eq_gt.mpr (by omega)]
  refine ⟨fun h => ?_, fun h => ?_, fun h => ?_⟩
  · have := hleft (Int.compare_eq_eq.mp h)
    exact (hsame this.1 this.2).symm
  · have := hright (Int.compare_eq_eq.mp h)
    exact (hsame this.1 this.2).symm
  · rcases lt_trichotomy p q with hpq | hpq | hpq
    · rw [Int.compare_eq_lt.mpr hpq] at h ⊢
      exact Int.compare_eq_lt.mpr (hlt hpq (Int.compare_eq_lt.mp h.symm))
    · have := hleft hpq
      rw [h]
      exact (hsame this.1 this.2).symm
    · rw [Int.compare_eq_gt.mpr hpq] at h ⊢
      exact Int.compare_eq_gt.mpr (hgt hpq (Int.compare_eq_gt.mp h.symm))

/-- The order of numbers that are kept apart is transitive. -/
theorem compare_composes {S : Number → Prop} (h : KeptApart S) {a b c : Number} (ha : S a) (hb : S b) (hc : S c) :
    Composes (a.compare b) (b.compare c) (a.compare c) := by
  -- two integers and a float between them, before them or behind them: the float equals at most one of them
  have happart : ∀ {i j : Int64} {x : Binary64}, S (int i) → S (int j) → S (float x) →
      (int i).key = (float x).key → (int j).key = (float x).key → i.toInt = j.toInt := by
    intro i j x hi hj hx hix hjx
    exact congrArg _ (h i j x hi hj hx (Binary64.orderKey_injective hix) (Binary64.orderKey_injective hjx))
  have hmono : ∀ i j : Int64, (i.toInt ≤ j.toInt → (int i).key ≤ (int j).key) ∧ (j.toInt ≤ i.toInt → (int j).key ≤ (int i).key) :=
    fun i j => ⟨key_mono, key_mono⟩
  cases a with
  | float x =>
    cases b with
    | float y =>
      rw [compare_float_left, compare_float_left, compare_float_left]
      exact composes_compare _ _ _
    | int j =>
      cases c with
      | float z =>
        rw [compare_float_left, compare_float_right, compare_float_left]
        exact composes_compare _ _ _
      | int k =>
        have hjk := happart hb hc ha
        have := hmono j k
        rw [compare_float_left, compare_int_int, compare_float_left]
        apply composes_of_order <;> omega
  | int i =>
    cases b with
    | float y =>
      cases c with
      | float z =>
        rw [compare_float_right, compare_float_right, compare_float_right]
        exact composes_compare _ _ _
      | int k =>
        have hik := happart ha hc hb
        have := hmono i k
        rw [compare_float_right, compare_float_left, compare_int_int]
        apply composes_of_order <;> omega
    | int j =>
      cases c with
      | float z =>
        have hij := happart ha hb hc
        have := hmono i j
        rw [compare_int_int, compare_float_right, compare_float_right]
        apply composes_of_order <;> omega
      | int k =>
        rw [compare_int_int, compare_int_int, compare_int_int]
        exact composes_compare _ _ _

end Number

namespace Value

/-! ## Values -/

mutual

/-- All numbers in a value, at any depth and also in keys, belong to a set. -/
def Within (S : Number → Prop) : Value → Prop
  | .number n => S n
  | .array items => ItemsWithin S items
  | .object ⟨entries, _⟩ => EntriesWithin S entries
  | _ => True

/-- All numbers in a row of values belong to a set. -/
def ItemsWithin (S : Number → Prop) : List Value → Prop
  | [] => True
  | v :: rest => v.Within S ∧ ItemsWithin S rest

/-- All numbers in the entries of an object belong to a set. -/
def EntriesWithin (S : Number → Prop) : List (Value × Value) → Prop
  | [] => True
  | (key, value) :: rest => key.Within S ∧ value.Within S ∧ EntriesWithin S rest

end

/-! Values of one kind have the same shape. -/

variable {v : Value}

/-- Only `null` has the rank of `null`. -/
theorem eq_null (h : kindRank .null = v.kindRank) : v = .null := by
  cases v <;> first | rfl | simp [kindRank] at h

/-- Only truth values have the rank of one. -/
theorem eq_bool {p : Bool} (h : kindRank (.bool p) = v.kindRank) : ∃ q, v = .bool q := by
  cases v <;> first | exact ⟨_, rfl⟩ | simp [kindRank] at h

/-- Only numbers have the rank of one. -/
theorem eq_number {m : Number} (h : kindRank (.number m) = v.kindRank) : ∃ n, v = .number n := by
  cases v <;> first | exact ⟨_, rfl⟩ | simp [kindRank] at h

/-- Only strings have the rank of one. -/
theorem eq_string {s : String} (h : kindRank (.string s) = v.kindRank) : ∃ t, v = .string t := by
  cases v <;> first | exact ⟨_, rfl⟩ | simp [kindRank] at h

/-- Only arrays have the rank of one. -/
theorem eq_array {as : List Value} (h : kindRank (.array as) = v.kindRank) : ∃ bs, v = .array bs := by
  cases v <;> first | exact ⟨_, rfl⟩ | simp [kindRank] at h

/-- Only objects have the rank of one. -/
theorem eq_object {as : Table Value} (h : kindRank (.object as) = v.kindRank) : ∃ bs, v = .object bs := by
  cases v <;> first | exact ⟨_, rfl⟩ | simp [kindRank] at h

/-- Values of different kinds are compared by kind. -/
theorem compare_kinds {a b : Value} (h : a.kindRank ≠ b.kindRank) : a.compare b = Ord.compare a.kindRank b.kindRank := by
  cases a <;> cases b <;> first | rfl | exact absurd rfl h

/-- The kind is compared first. -/
theorem compare_eq_then (a b : Value) : a.compare b = (Ord.compare a.kindRank b.kindRank).then (a.compare b) := by
  by_cases h : a.kindRank = b.kindRank
  · rw [h, Nat.compare_eq_eq.mpr rfl, Ordering.eq_then]
  · rw [compare_kinds h]
    cases hranks : Ord.compare a.kindRank b.kindRank with
    | eq => exact absurd (Nat.compare_eq_eq.mp hranks) h
    | lt => rfl
    | gt => rfl

/-- Items are compared by the first pair, and then by the others. -/
theorem compareItems_cons (a b : Value) (as bs : List Value) :
    compareItems (a :: as) (b :: bs) = (a.compare b).then (compareItems as bs) := by
  rw [compareItems]
  cases a.compare b <;> rfl

/-- Entries are compared by their keys, then by their values, and then by the others. -/
theorem compareEntries_cons (key value otherKey otherValue : Value) (as bs : List (Value × Value)) :
    compareEntries ((key, value) :: as) ((otherKey, otherValue) :: bs) =
      (key.compare otherKey).then ((value.compare otherValue).then (compareEntries as bs)) := by
  rw [compareEntries]
  cases key.compare otherKey <;> cases value.compare otherValue <;> rfl

mutual

/-- The comparison the other way round gives the opposite. -/
theorem compare_swap (a b : Value) : b.compare a = (a.compare b).swap := by
  by_cases h : a.kindRank = b.kindRank
  · cases a with
    | null =>
      obtain rfl := eq_null h
      rfl
    | bool p =>
      obtain ⟨q, rfl⟩ := eq_bool h
      exact ord_swap p q
    | number m =>
      obtain ⟨n, rfl⟩ := eq_number h
      exact Number.compare_swap m n
    | string s =>
      obtain ⟨t, rfl⟩ := eq_string h
      exact ord_swap s t
    | array as =>
      obtain ⟨bs, rfl⟩ := eq_array h
      exact compareItems_swap as bs
    | object table =>
      obtain ⟨as, _⟩ := table
      obtain ⟨⟨bs, _⟩, rfl⟩ := eq_object h
      exact compareEntries_swap as bs
  · rw [compare_kinds h, compare_kinds (Ne.symm h)]
    exact ord_swap _ _

/-- Comparing items the other way round swaps the result. -/
theorem compareItems_swap (as bs : List Value) : compareItems bs as = (compareItems as bs).swap := by
  cases as with
  | nil => cases bs <;> rfl
  | cons a as =>
    cases bs with
    | nil => rfl
    | cons b bs => rw [compareItems_cons, compareItems_cons, Ordering.swap_then, compare_swap a b, compareItems_swap as bs]

/-- Comparing entries the other way round swaps the result. -/
theorem compareEntries_swap (as bs : List (Value × Value)) : compareEntries bs as = (compareEntries as bs).swap := by
  cases as with
  | nil => cases bs <;> rfl
  | cons a as =>
    obtain ⟨key, value⟩ := a
    cases bs with
    | nil => rfl
    | cons b bs =>
      obtain ⟨otherKey, otherValue⟩ := b
      rw [compareEntries_cons, compareEntries_cons, Ordering.swap_then, Ordering.swap_then, compare_swap key otherKey,
        compare_swap value otherValue, compareEntries_swap as bs]

end

/-- Every value is equal to itself. -/
theorem compare_self (v : Value) : v.compare v = .eq := by
  have hswap := compare_swap v v
  cases h : v.compare v with
  | eq => rfl
  | lt => rw [h] at hswap; cases hswap
  | gt => rw [h] at hswap; cases hswap

mutual

/-- The order of values whose numbers are kept apart is transitive. -/
theorem compare_composes {S : Number → Prop} (h : KeptApart S) (a b c : Value) (ha : a.Within S) (hb : b.Within S)
    (hc : c.Within S) : Composes (a.compare b) (b.compare c) (a.compare c) := by
  rw [compare_eq_then a b, compare_eq_then b c, compare_eq_then a c]
  refine (composes_compare a.kindRank b.kindRank c.kindRank).then fun hab hbc => ?_
  have hab := Nat.compare_eq_eq.mp hab
  have hac := hab.trans (Nat.compare_eq_eq.mp hbc)
  cases a with
  | null =>
    obtain rfl := eq_null hab
    obtain rfl := eq_null hac
    exact composes_eq _
  | bool p =>
    obtain ⟨q, rfl⟩ := eq_bool hab
    obtain ⟨r, rfl⟩ := eq_bool hac
    exact composes_compare p q r
  | number m =>
    obtain ⟨n, rfl⟩ := eq_number hab
    obtain ⟨k, rfl⟩ := eq_number hac
    exact Number.compare_composes h ha hb hc
  | string s =>
    obtain ⟨t, rfl⟩ := eq_string hab
    obtain ⟨u, rfl⟩ := eq_string hac
    exact composes_compare s t u
  | array as =>
    obtain ⟨bs, rfl⟩ := eq_array hab
    obtain ⟨cs, rfl⟩ := eq_array hac
    exact compareItems_composes h as bs cs ha hb hc
  | object table =>
    obtain ⟨as, _⟩ := table
    obtain ⟨⟨bs, _⟩, rfl⟩ := eq_object hab
    obtain ⟨⟨cs, _⟩, rfl⟩ := eq_object hac
    exact compareEntries_composes h as bs cs ha hb hc
termination_by structural a

/-- Items compose if the numbers in them are kept apart. -/
theorem compareItems_composes {S : Number → Prop} (h : KeptApart S) (as bs cs : List Value) (ha : ItemsWithin S as)
    (hb : ItemsWithin S bs) (hc : ItemsWithin S cs) :
    Composes (compareItems as bs) (compareItems bs cs) (compareItems as cs) := by
  cases as with
  | nil => cases bs <;> cases cs <;> constructor <;> simp [compareItems]
  | cons a as =>
    cases bs with
    | nil => cases cs <;> constructor <;> simp [compareItems]
    | cons b bs =>
      cases cs with
      | nil => exact composes_gt _
      | cons c cs =>
        rw [compareItems_cons, compareItems_cons, compareItems_cons]
        exact (compare_composes h a b c ha.1 hb.1 hc.1).then fun _ _ => compareItems_composes h as bs cs ha.2 hb.2 hc.2
termination_by structural as

/-- Entries compose if the numbers in them are kept apart. -/
theorem compareEntries_composes {S : Number → Prop} (h : KeptApart S) (as bs cs : List (Value × Value)) (ha : EntriesWithin S as)
    (hb : EntriesWithin S bs) (hc : EntriesWithin S cs) :
    Composes (compareEntries as bs) (compareEntries bs cs) (compareEntries as cs) := by
  cases as with
  | nil => cases bs <;> cases cs <;> constructor <;> simp [compareEntries]
  | cons a as =>
    obtain ⟨key₁, value₁⟩ := a
    cases bs with
    | nil => cases cs <;> constructor <;> simp [compareEntries]
    | cons b bs =>
      obtain ⟨key₂, value₂⟩ := b
      cases cs with
      | nil => exact composes_gt _
      | cons c cs =>
        obtain ⟨key₃, value₃⟩ := c
        rw [compareEntries_cons, compareEntries_cons, compareEntries_cons]
        refine (compare_composes h key₁ key₂ key₃ ha.1 hb.1 hc.1).then fun _ _ => ?_
        refine (compare_composes h value₁ value₂ value₃ ha.2.1 hb.2.1 hc.2.1).then fun _ _ => ?_
        exact compareEntries_composes h as bs cs ha.2.2 hb.2.2 hc.2.2
termination_by structural as

end

/-! ## The laws -/

/-- The laws of a total order whose equality is an equivalence, for three values. -/
structure Ordered (a b c : Value) : Prop where
  swap : b.compare a = (a.compare b).swap
  lt_trans : a.compare b = .lt → b.compare c = .lt → a.compare c = .lt
  eq_trans : a.compare b = .eq → b.compare c = .eq → a.compare c = .eq
  lt_of_eq_of_lt : a.compare b = .eq → b.compare c = .lt → a.compare c = .lt

/-- The laws hold of all values whose numbers are kept apart. -/
theorem ordered_of_keptApart {S : Number → Prop} (h : KeptApart S) {a b c : Value} (ha : a.Within S) (hb : b.Within S)
    (hc : c.Within S) : Ordered a b c := by
  have hcomposes := compare_composes h a b c ha hb hc
  refine ⟨compare_swap a b, fun hab hbc => ?_, fun hab hbc => ?_, fun hab hbc => ?_⟩
  · rw [hcomposes.same (hab.trans hbc.symm), hab]
  · rw [hcomposes.eq_left hab, hbc]
  · rw [hcomposes.eq_left hab, hbc]

/-- The laws hold of all values without integers beyond `2 ^ 53`. -/
theorem ordered_of_exact {a b c : Value}
    (ha : a.Within fun n => ∀ i : Int64, n = .int i → i.toInt.natAbs ≤ Binary64.exactIntegerLimit)
    (hb : b.Within fun n => ∀ i : Int64, n = .int i → i.toInt.natAbs ≤ Binary64.exactIntegerLimit)
    (hc : c.Within fun n => ∀ i : Int64, n = .int i → i.toInt.natAbs ≤ Binary64.exactIntegerLimit) : Ordered a b c :=
  ordered_of_keptApart keptApart_exact ha hb hc

/-- A float that equals two integers is equal to the smaller, which is smaller than the other, without being smaller than the
other. -/
theorem not_ordered {i j : Int64} {x : Binary64} (hi : Binary64.ofInt i.toInt = x) (hj : Binary64.ofInt j.toInt = x)
    (h : i.toInt < j.toInt) : ¬Ordered (.number (.float x)) (.number (.int i)) (.number (.int j)) := by
  intro hordered
  have hequal : ∀ k : Int64, Binary64.ofInt k.toInt = x → Number.compare (.float x) (.int k) = .eq := by
    rintro k rfl
    rw [Number.compare_float_left]
    exact Int.compare_eq_eq.mpr rfl
  have hlt : Number.compare (.float x) (.int j) = .lt :=
    hordered.lt_of_eq_of_lt (hequal i hi) (Int.compare_eq_lt.mpr h)
  rw [hequal j hj] at hlt
  contradiction

/-- The order of the values whose numbers belong to a set is a total order, with an equality that is an equivalence, exactly if no
float of the set equals two integers of the set. The comparison the other way round is the opposite in any case. -/
theorem compare_ordered_iff (S : Number → Prop) : (∀ a b : Value, b.compare a = (a.compare b).swap) ∧
    ((∀ a b c : Value, a.Within S → b.Within S → c.Within S → Ordered a b c) ↔ KeptApart S) := by
  refine ⟨compare_swap, fun h i j x hi hj hx hix hjx => ?_, fun h a b c => ordered_of_keptApart h⟩
  rcases lt_trichotomy i.toInt j.toInt with hlt | heq | hgt
  · exact absurd (h (.number (.float x)) (.number (.int i)) (.number (.int j)) hx hi hj) (not_ordered hix hjx hlt)
  · exact Int64.toInt_inj.mp heq
  · exact absurd (h (.number (.float x)) (.number (.int j)) (.number (.int i)) hx hj hi) (not_ordered hjx hix hgt)

/-- The float `2 ^ 53` equals the integers `2 ^ 53` and `2 ^ 53 + 1`, which differ: equality is not transitive, and the float is
equal to the smaller integer without being smaller than the larger. -/
theorem compare_past_exact :
    let i : Value := .number (.int 9007199254740992)
    let x : Value := .number (.float (.ofInt 9007199254740992))
    let j : Value := .number (.int 9007199254740993)
    j.compare x = .eq ∧ x.compare i = .eq ∧ j.compare i = .gt ∧ i.compare j = .lt ∧ ¬Ordered j x i ∧ ¬Ordered x i j := by
  have hi : Binary64.ofInt (9007199254740992 : Int64).toInt = .ofInt 9007199254740992 := by decide +kernel
  have hj : Binary64.ofInt (9007199254740993 : Int64).toInt = .ofInt 9007199254740992 := by decide +kernel
  refine ⟨by decide +kernel, by decide +kernel, by decide +kernel, by decide +kernel, fun h => ?_, not_ordered hi hj (by decide)⟩
  exact absurd (h.eq_trans (by decide +kernel) (by decide +kernel)) (by decide +kernel)

end Value

end HostScript
