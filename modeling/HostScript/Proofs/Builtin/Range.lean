import Mathlib
import HostScript.Builtin
import HostScript.Proofs.Number.Integers

/-!
# Rows of integers and their totals

`range` refuses a row exactly if the distance between its ends is above the limit, for all 64-bit ends, and otherwise gives every integer
from the start to the stop in order; `sum` gives the exact total of integers exactly if no total on the way has more than 64 bits
(`ranges_and_totals_exact`). `countedRange` is the row by 64-bit arithmetic: the distance is held at the bounds, and one is added until
the stop is reached. It gives the same.
-/

namespace HostScript

namespace Binary64

/-- The value of a whole number of units is the integer towards zero, in units. -/
theorem toInt_mul_unit {x : Binary64} (h : unit ∣ x.scaled) : x.toInt * unit = x.signedScaled := by
  have hscaled : ((x.scaled / unit : Nat) : Int) * unit = x.scaled := by exact_mod_cast Nat.div_mul_cancel h
  unfold toInt signedScaled
  dsimp only
  split
  · rw [Int.neg_mul, hscaled]
  · exact hscaled

theorem natAbs_signedScaled (x : Binary64) : x.signedScaled.natAbs = x.scaled := by
  unfold signedScaled
  split
  · rw [Int.natAbs_neg, Int.natAbs_natCast]
  · exact Int.natAbs_natCast _

/-- A float stands for an integer exactly if it is finite, its value is the integer, and the magnitude is at most `2 ^ 53`. -/
theorem toExactInt?_eq_some_iff {x : Binary64} {i : Int} :
    x.toExactInt? = some i ↔ x.isFinite ∧ i.natAbs ≤ 2 ^ 53 ∧ x.signedScaled = i * unit := by
  have hwhole : x.isIntegral ↔ x.isFinite ∧ unit ∣ x.scaled := by
    rw [isIntegral, Bool.and_eq_true, beq_iff_eq, Nat.dvd_iff_mod_eq_zero]
  unfold toExactInt?
  rw [exactIntegerLimit_eq, Option.ite_none_right_eq_some, Bool.and_eq_true, decide_eq_true_iff, hwhole, Option.some.injEq]
  constructor
  · rintro ⟨⟨⟨hfinite, hdvd⟩, hlimit⟩, rfl⟩
    exact ⟨hfinite, hlimit, (toInt_mul_unit hdvd).symm⟩
  · rintro ⟨hfinite, hlimit, hvalue⟩
    have hdvd : unit ∣ x.scaled := by
      rw [← natAbs_signedScaled, hvalue, Int.natAbs_mul, Int.natAbs_natCast]
      exact Nat.dvd_mul_left _ _
    have hunit : (unit : Int) ≠ 0 := by exact_mod_cast unit_pos.ne'
    obtain rfl : x.toInt = i := Int.eq_of_mul_eq_mul_right hunit ((toInt_mul_unit hdvd).trans hvalue)
    exact ⟨⟨⟨hfinite, hdvd⟩, hlimit⟩, rfl⟩

end Binary64

namespace Builtin

open Number (Representable)

variable {v : Value} {a b i n start stop : Int64} {f : Builtin}

/-! ## Arguments -/

/-- A value stands for an integer: it is the integer, or a float with the same value and a magnitude of at most `2 ^ 53`. -/
inductive StandsFor : Value → Int64 → Prop
  | int (i : Int64) : StandsFor (.number (.int i)) i
  | float {x : Binary64} {i : Int64} (finite : x.isFinite) (limit : i.toInt.natAbs ≤ 2 ^ 53)
      (value : x.signedScaled = i.toInt * Binary64.unit) : StandsFor (.number (.float x)) i

/-- Where an integer is asked for, what stands for one is taken for it. -/
theorem StandsFor.integer (h : StandsFor v i) (f : Builtin) : integer f v = .ok i.toInt := by
  cases h with
  | int => rfl
  | float finite limit value =>
    have hexact : (Number.float _).toInt? = some i.toInt := Binary64.toExactInt?_eq_some_iff.mpr ⟨finite, limit, value⟩
    unfold Builtin.integer numeric
    simp only [bind, Except.bind, hexact]
    rfl

/-! ## Counting with 64-bit integers -/

/-- The difference, held at the least and the greatest integer. -/
def saturatingSub (a b : Int64) : Int64 :=
  (Number.int64? (a.toInt - b.toInt)).getD (if a < b then Int64.minValue else Int64.maxValue)

/-- A held difference is above a bound other than the greatest integer exactly if the exact one is. -/
theorem lt_saturatingSub (hn : n ≠ Int64.maxValue) : n < saturatingSub a b ↔ n.toInt < a.toInt - b.toInt := by
  have hle := n.le_toInt
  have hlt := n.toInt_lt
  have hmax : n.toInt ≠ 2 ^ 63 - 1 := fun h => hn (Int64.toInt_inj.mp (h.trans Int64.toInt_maxValue.symm))
  unfold saturatingSub
  cases hexact : Number.int64? (a.toInt - b.toInt) with
  | some d =>
    rw [Option.getD_some, Int64.lt_iff_toInt_lt, Number.int64?_eq_some_iff.mp hexact]
  | none =>
    have hrange := Number.int64?_eq_none_iff.mp hexact
    unfold Representable at hrange
    rw [Option.getD_none, Int64.lt_iff_toInt_lt]
    split
    · rename_i hab
      rw [Int64.lt_iff_toInt_lt] at hab
      rw [Int64.toInt_minValue]
      omega
    · rename_i hab
      rw [Int64.lt_iff_toInt_lt] at hab
      rw [Int64.toInt_maxValue]
      omega

/-- Below another integer there is room for one more. -/
theorem toInt_add_one (h : start < stop) : (start + 1).toInt = start.toInt + 1 := by
  have hle := start.le_toInt
  have hlt := stop.toInt_lt
  rw [Int64.lt_iff_toInt_lt] at h
  rw [Int64.toInt_add, show (1 : Int64).toInt = 1 from rfl, Int.bmod_eq_of_le] <;> omega

/-- Adds one until the stop is reached. -/
def countUp (start stop : Int64) : List Int64 :=
  if start < stop then start :: countUp (start + 1) stop else []
termination_by (stop.toInt - start.toInt).toNat
decreasing_by
  rename_i h
  rw [toInt_add_one h]
  rw [Int64.lt_iff_toInt_lt] at h
  omega

/-- The integers counted, by their places: no one is missed, none is given twice, and the stop is not reached. -/
theorem countUp_getElem? (start stop : Int64) (k : Nat) :
    (countUp start stop)[k]?.map Int64.toInt = if start.toInt + k < stop.toInt then some (start.toInt + k) else none := by
  fun_induction countUp start stop generalizing k with
  | case1 start h ih =>
    have hlt := Int64.lt_iff_toInt_lt.mp h
    cases k with
    | zero => simp [hlt]
    | succ k =>
      rw [List.getElem?_cons_succ, ih, toInt_add_one h]
      simp only [Nat.cast_succ, add_assoc, add_comm (1 : Int)]
  | case2 start h =>
    rw [Int64.lt_iff_toInt_lt] at h
    rw [List.getElem?_nil, Option.map_none, if_neg (by omega)]

/-- The row of integers by 64-bit arithmetic. -/
def countedRange (start stop : Int64) : Except Fault (List Value) :=
  if 0x100000 < saturatingSub stop start then .error .rangeTooLong else .ok ((countUp start stop).map fun i => .number (.int i))

theorem countUp_eq (start stop : Int64) :
    countUp start stop = (List.range (stop.toInt - start.toInt).toNat).map fun (k : Nat) => Int64.ofInt (start.toInt + k) := by
  have hle := start.le_toInt
  have hlt := stop.toInt_lt
  refine List.ext_getElem? fun k => Option.map_injective (fun _ _ => Int64.toInt_inj.mp) ?_
  rw [countUp_getElem?, List.getElem?_map]
  split
  · rw [List.getElem?_range (by omega), Option.map_some, Option.map_some, Int64.toInt_ofInt_of_le (by omega) (by omega)]
  · rw [List.getElem?_eq_none (by rw [List.length_range]; omega)]
    rfl

/-- Counting with 64-bit integers gives the row of the exact ones. -/
theorem countedRange_eq (start stop : Int64) : countedRange start stop = rangeItems start.toInt stop.toInt := by
  have hlimit : 0x100000 < saturatingSub stop start ↔ maxRangeLength < stop.toInt - start.toInt := lt_saturatingSub (by decide)
  unfold countedRange rangeItems
  rw [countUp_eq, List.map_map]
  by_cases h : maxRangeLength < stop.toInt - start.toInt
  · rw [if_pos h, if_pos (hlimit.mpr h)]
  · rw [if_neg h, if_neg (mt hlimit.mp h)]
    rfl

/-! ## Ranges -/

/-- The array of integers. -/
def integers (items : List Int64) : Value := .array (items.map fun i => .number (.int i))

/-- The result is the row of integers from a start up to a stop, with its length, and a refusal exactly if there are more than `2 ^ 20` of
them. -/
structure IsRange (start stop : Int64) (result : Except Fault Value) : Prop where
  refused (fault : Fault) : result = .error fault ↔ 2 ^ 20 < stop.toInt - start.toInt ∧ fault = .rangeTooLong
  filled : stop.toInt - start.toInt ≤ 2 ^ 20 → ∃ items : List Int64, result = .ok (integers items) ∧
    (∀ k : Nat, items[k]?.map Int64.toInt = if start.toInt + k < stop.toInt then some (start.toInt + k) else none) ∧
    ∃ n : Int64, apply .len [integers items] = .ok (.number (.int n)) ∧ n.toInt = Max.max 0 (stop.toInt - start.toInt)

theorem length_countUp (start stop : Int64) : (countUp start stop).length = (stop.toInt - start.toInt).toNat := by
  rw [countUp_eq, List.length_map, List.length_range]

/-- A length that 64 bits can hold. -/
theorem len_integers {items : List Int64} (h : items.length < 2 ^ 63) :
    ∃ n : Int64, apply .len [integers items] = .ok (.number (.int n)) ∧ n.toInt = items.length := by
  have hrange : Representable (items.length : Int) := by
    unfold Representable
    omega
  obtain ⟨n, hn⟩ := Option.ne_none_iff_exists'.mp fun hnone => Number.int64?_eq_none_iff.mp hnone hrange
  have hword : items.length.toUInt64.toNat = items.length := by
    rw [Nat.toUInt64_eq, UInt64.toNat_ofNat']
    exact Nat.mod_eq_of_lt (by omega)
  refine ⟨n, ?_, Number.int64?_eq_some_iff.mp hn⟩
  change Except.ok (Value.ofNat (items.map _).length.toUInt64.toNat) = _
  rw [List.length_map, hword, Value.ofNat, Number.ofNat, Number.exactOr, hn]

theorem isRange_rangeItems (start stop : Int64) : IsRange start stop ((rangeItems start.toInt stop.toInt).map Value.array) := by
  rw [← countedRange_eq]
  have hlimit : 0x100000 < saturatingSub stop start ↔ 2 ^ 20 < stop.toInt - start.toInt := lt_saturatingSub (by decide)
  unfold countedRange
  by_cases h : 2 ^ 20 < stop.toInt - start.toInt
  · rw [if_pos (hlimit.mpr h)]
    refine ⟨fun fault => ⟨fun hfault => ⟨h, (Except.error.inj hfault).symm⟩, fun hfault => by rw [hfault.2]; rfl⟩, fun hle => ?_⟩
    exact absurd h (not_lt.mpr hle)
  · rw [if_neg (mt hlimit.mp h)]
    refine ⟨fun fault => ⟨nofun, fun hfault => absurd hfault.1 h⟩, fun _ => ?_⟩
    have hlength := length_countUp start stop
    have hfew : (countUp start stop).length < 2 ^ 63 := by omega
    obtain ⟨n, hlen, hn⟩ := len_integers hfew
    exact ⟨countUp start stop, rfl, countUp_getElem? start stop, n, hlen, by rw [hn]; omega⟩

/-- The row between two arguments that stand for integers, and up to one of them. -/
theorem isRange_apply {first last : Value} (hfirst : StandsFor first start) (hlast : StandsFor last stop) :
    IsRange start stop (apply .range [first, last]) ∧ IsRange 0 stop (apply .range [last]) := by
  have hrow : ∀ row : Except Fault (List Value), (row >>= fun items => Except.ok (Value.array items)) = row.map Value.array := by
    rintro (_ | _) <;> rfl
  have hboth : apply .range [first, last] = (rangeItems start.toInt stop.toInt).map Value.array := by
    change (integer .range first >>= fun start => integer .range last >>= fun stop => rangeItems start stop >>= fun items =>
      Except.ok (Value.array items)) = _
    rw [hfirst.integer, hlast.integer]
    exact hrow (rangeItems start.toInt stop.toInt)
  have hone : apply .range [last] = (rangeItems (0 : Int64).toInt stop.toInt).map Value.array := by
    change (integer .range last >>= fun stop => rangeItems 0 stop >>= fun items => Except.ok (Value.array items)) = _
    rw [hlast.integer]
    exact hrow (rangeItems 0 stop.toInt)
  rw [hboth, hone]
  exact ⟨isRange_rangeItems start stop, isRange_rangeItems 0 stop⟩

/-! ## Totals -/

/-- Adds integers to a number, one by one. -/
def addAll (sum : Number) (items : List Int64) : Number := items.foldl (fun sum i => sum.add (.int i)) sum

/-- What has become a float stays one. -/
theorem addAll_float (x : Binary64) (items : List Int64) : ∃ y, addAll (.float x) items = .float y := by
  induction items generalizing x with
  | nil => exact ⟨x, rfl⟩
  | cons i items ih => exact ih _

/-- The sums on the way to a total have 64 bits each. -/
def Bounded (start : Int) (items : List Int64) : Prop :=
  ∀ front, front <+: items → Representable (start + (front.map Int64.toInt).sum)

theorem bounded_nil (start : Int64) : Bounded start.toInt [] := by
  intro front hfront
  obtain rfl := List.prefix_nil.mp hfront
  simpa using Number.representable_toInt start

theorem bounded_cons {start : Int64} {items : List Int64} : Bounded start.toInt (i :: items) ↔ Bounded (start.toInt + i.toInt) items := by
  constructor
  · intro h front hfront
    have := h (i :: front) ((List.prefix_cons_inj i).mpr hfront)
    rwa [List.map_cons, List.sum_cons, ← add_assoc] at this
  · intro h front hfront
    rcases List.prefix_cons_iff.mp hfront with rfl | ⟨rest, rfl, hrest⟩
    · simpa using Number.representable_toInt start
    · rw [List.map_cons, List.sum_cons, ← add_assoc]
      exact h rest hrest

/-- Adding integers gives an integer exactly if every sum on the way has 64 bits, and it is the exact one. -/
theorem addAll_eq_int_iff {items : List Int64} {total : Int64} :
    addAll (.int a) items = .int total ↔ Bounded a.toInt items ∧ total.toInt = a.toInt + (items.map Int64.toInt).sum := by
  induction items generalizing a with
  | nil =>
    rw [List.map_nil, List.sum_nil, add_zero, and_iff_right (bounded_nil a), Int64.toInt_inj]
    exact ⟨fun h => (Number.int.inj h).symm, fun h => congrArg _ h.symm⟩
  | cons i items ih =>
    have hsum := Number.add_exactly a i
    rw [bounded_cons, List.map_cons, List.sum_cons, ← add_assoc]
    change addAll ((Number.int a).add (.int i)) items = _ ↔ _
    by_cases hrange : Representable (a.toInt + i.toInt)
    · obtain ⟨s, hs⟩ := hsum.whole.mpr hrange
      rw [hs, ih, (hsum.int s).mp hs]
    · obtain ⟨x, hx, -⟩ := hsum.float hrange
      obtain ⟨y, hy⟩ := addAll_float x items
      rw [hx, hy]
      refine ⟨nofun, fun h => absurd ?_ hrange⟩
      simpa using h.1 [] List.nil_prefix

/-- The sum of an array of integers is what adding them up gives, unless that is not finite. -/
theorem apply_sum (items : List Int64) :
    apply .sum [integers items] = ((addAll (.int 0) items).ensureFinite.mapError Fault.arithmetic).map Value.number := by
  have hfold : ∀ sum : Number, (items.map fun i => Value.number (.int i)).foldlM
      (fun sum v => do return sum.add (← numeric .sum v)) sum = (.ok (addAll sum items) : Except Fault Number) := by
    induction items with
    | nil => exact fun sum => rfl
    | cons i items ih => exact fun sum => ih (sum.add (.int i))
  change (total (items.map fun i => Value.number (.int i)) >>= fun sum => Except.ok (Value.number sum)) = _
  unfold total
  rw [hfold]
  change (((addAll (.int 0) items).ensureFinite.mapError Fault.arithmetic) >>= fun sum => Except.ok (Value.number sum)) = _
  cases (addAll (.int 0) items).ensureFinite <;> rfl

/-- The sum of integers is an integer exactly if every sum on the way has 64 bits, and it is the exact one. -/
theorem apply_sum_eq_int_iff {items : List Int64} {total : Int64} :
    apply .sum [integers items] = .ok (.number (.int total)) ↔ Bounded 0 items ∧ total.toInt = (items.map Int64.toInt).sum := by
  have hexact : addAll (.int 0) items = .int total ↔ _ := addAll_eq_int_iff
  rw [show (0 : Int64).toInt = 0 from rfl, zero_add] at hexact
  rw [apply_sum, ← hexact]
  cases hsum : addAll (.int 0) items with
  | int s => exact ⟨fun h => congrArg _ (Number.int.inj (Value.number.inj (Except.ok.inj h))), fun h => congrArg _ (congrArg _ h)⟩
  | float x =>
    unfold Number.ensureFinite
    split <;> exact ⟨nofun, nofun⟩

/-! ## The laws -/

/-- Rows of integers and their totals are exact. A row between any two arguments that stand for 64-bit integers, or up to one from zero,
is refused exactly if the exact distance is above `2 ^ 20`, and 64-bit arithmetic gives the same row. A sum of integers is the exact
integer, exactly if every sum on the way has 64 bits. -/
theorem ranges_and_totals_exact {first last : Value} {start stop : Int64} (hfirst : StandsFor first start) (hlast : StandsFor last stop)
    (items : List Int64) :
    IsRange start stop (apply .range [first, last]) ∧ IsRange 0 stop (apply .range [last]) ∧
    countedRange start stop = rangeItems start.toInt stop.toInt ∧
    ((∀ front, front <+: items → Representable (front.map Int64.toInt).sum) ↔
      ∃ total : Int64, apply .sum [integers items] = .ok (.number (.int total)) ∧ total.toInt = (items.map Int64.toInt).sum) := by
  obtain ⟨hboth, hone⟩ := isRange_apply hfirst hlast
  refine ⟨hboth, hone, countedRange_eq start stop, ?_⟩
  have hbounded : (∀ front, front <+: items → Representable (front.map Int64.toInt).sum) ↔ Bounded 0 items := by
    unfold Bounded
    simp only [zero_add]
  rw [hbounded]
  constructor
  · intro h
    have htotal := h items (List.prefix_refl items)
    obtain ⟨total, hexact⟩ := Option.ne_none_iff_exists'.mp fun hnone => Number.int64?_eq_none_iff.mp hnone htotal
    have hsum := Number.int64?_eq_some_iff.mp hexact
    rw [zero_add] at hsum
    exact ⟨total, apply_sum_eq_int_iff.mpr ⟨h, hsum⟩, hsum⟩
  · rintro ⟨total, happly, -⟩
    exact (apply_sum_eq_int_iff.mp happly).1

/-- The float zero with a negative sign. -/
def negativeZero : Value := .number (.float ⟨true, 0⟩)

/-- A distance of 64 bits between the least integer and a float, and a total that leaves the 64 bits on the way and comes back. -/
theorem ranges_and_totals_exact_extremes :
    StandsFor (.number (.int Int64.minValue)) Int64.minValue ∧ StandsFor negativeZero 0 ∧
      IsRange Int64.minValue 0 (apply .range [.number (.int Int64.minValue), negativeZero]) ∧ IsRange 0 0 (apply .range [negativeZero]) ∧
      countedRange Int64.minValue 0 = rangeItems Int64.minValue.toInt (0 : Int64).toInt ∧
      ((∀ front, front <+: [Int64.maxValue, 1, Int64.minValue] → Representable (front.map Int64.toInt).sum) ↔
        ∃ total : Int64, apply .sum [integers [Int64.maxValue, 1, Int64.minValue]] = .ok (.number (.int total)) ∧
          total.toInt = ([Int64.maxValue, 1, Int64.minValue].map Int64.toInt).sum) := by
  have hleast : StandsFor (.number (.int Int64.minValue)) Int64.minValue := .int _
  have hzero : StandsFor negativeZero 0 := .float (by decide) (by decide) (by decide +kernel)
  exact ⟨hleast, hzero, ranges_and_totals_exact hleast hzero [Int64.maxValue, 1, Int64.minValue]⟩

end Builtin

end HostScript
