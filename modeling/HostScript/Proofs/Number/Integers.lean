import Mathlib
import HostScript.Machine.Operators
import HostScript.Proofs.Number.Finite

/-!
# Arithmetic on integers

For all pairs of 64-bit integers, a sum, difference, product, opposite or magnitude is the exact integer if that has 64 bits and a
finite float otherwise; a quotient is an integer exactly if the division leaves no remainder and the quotient has 64 bits; a remainder
is always an integer (`integers_exact`). The least integer divided by minus one is the only pair whose quotient has more than 64 bits.
`checkedDiv` and `checkedMod` are division by operations on 64-bit integers that give nothing where they would overflow.
-/

namespace HostScript

namespace Binary64

/-! ## Floats of integers -/

/-- A quotient far below the largest finite magnitude is rounded to a finite value. -/
theorem rankOfScaled_lt {num den : Nat} (bits : Nat) (h : num / den < 2 ^ bits) (hbits : bits ≤ 2000) :
    rankOfScaled num den < infinityRank := by
  have hshift : shiftOf (num / den) ≤ bits - 52 := by
    rw [← shiftOf_two_pow bits]
    exact shiftOf_mono h.le
  have hquotient : num / (den <<< shiftOf (num / den)) < 2 * blockSize := by
    rw [Nat.shiftLeft_eq, ← Nat.div_div_eq_div_mul]
    exact div_shiftOf_lt (num / den)
  have hround := roundHalfEven_le num (den <<< shiftOf (num / den))
  have hblock : shiftOf (num / den) + 2 < 2047 := by omega
  have hrank : shiftOf (num / den) * blockSize + roundHalfEven num (den <<< shiftOf (num / den)) < infinityRank :=
    calc shiftOf (num / den) * blockSize + roundHalfEven num (den <<< shiftOf (num / den))
        ≤ (shiftOf (num / den) + 2) * blockSize := by
          rw [Nat.add_mul]
          omega
      _ < infinityRank := Nat.mul_lt_mul_of_pos_right hblock blockSize_pos
  exact lt_of_le_of_lt (min_le_left _ _) hrank

/-- The magnitude of a rank has at most as many bits as its block gives. -/
theorem scaled_lt {x : Binary64} (block : Nat) (h : x.rank ≤ block * blockSize) : x.scaled < 2 ^ (53 + block) := by
  have hoffset := Nat.mod_lt x.rank blockSize_pos
  by_cases hleast : x.rank < blockSize
  · rw [scaled_least hleast]
    refine hleast.trans_le ?_
    rw [blockSize_eq]
    exact Nat.pow_le_pow_right (by decide) (by omega)
  · have hblock : x.rank / blockSize ≤ block := Nat.div_le_of_le_mul (by rwa [Nat.mul_comm])
    rw [scaled_block hleast, Nat.pow_add]
    refine Nat.mul_lt_mul_of_lt_of_le ?_ (Nat.pow_le_pow_right (by decide) (by omega)) (Nat.two_pow_pos _)
    rw [blockSize_eq] at hoffset ⊢
    omega

/-- A float from the given block of ranks on has at least the first value of the block. -/
theorem le_scaled {x : Binary64} (block : Nat) (h : (block + 1) * blockSize ≤ x.rank) : 2 ^ (52 + block) ≤ x.scaled := by
  have hblock : block + 1 ≤ x.rank / blockSize := (Nat.le_div_iff_mul_le blockSize_pos).mpr h
  have hleast : ¬x.rank < blockSize := by
    intro hlt
    rw [Nat.div_eq_of_lt hlt] at hblock
    omega
  rw [scaled_block hleast, Nat.pow_add]
  refine Nat.mul_le_mul ?_ (Nat.pow_le_pow_right (by decide) (by omega))
  rw [blockSize_eq]
  omega

/-- The freely rounded rank of a number up to `2 ^ 64` is bounded, in units of the given number of bits. -/
theorem freeRank_le_of_le_two_pow {n : Nat} (h : n ≤ 2 ^ 64) (bits : Nat) : freeRank (n * 2 ^ bits) ≤ (64 + bits - 52 + 2) * blockSize := by
  have hmono := freeRank_mono (Nat.mul_le_mul_right (2 ^ bits) h)
  rw [← Nat.pow_add] at hmono
  have hlast := freeRank_le (2 ^ (64 + bits))
  rw [shiftOf_two_pow] at hlast
  exact hmono.trans hlast

/-- The freely rounded rank of a positive number of units lies above the blocks of a single unit. -/
theorem le_freeRank_of_pos {n bits : Nat} (h : 0 < n) (hbits : 52 < bits) : (bits - 52 + 1) * blockSize ≤ freeRank (n * 2 ^ bits) := by
  have hshift := shiftOf_mono (Nat.le_mul_of_pos_left (2 ^ bits) h)
  rw [shiftOf_two_pow] at hshift
  exact (Nat.mul_le_mul_right _ (by omega)).trans (le_freeRank (by omega))

/-- A magnitude of so many bits is far from infinity, and so are the sums and products of two of them. -/
def moderateBits : Nat := 53 + (64 + unitBits - 52 + 2)

/-- What is known of the float of an integer. -/
structure Moderate (x : Binary64) : Prop where
  finite : x.isFinite
  scaled_lt : x.scaled < 2 ^ moderateBits

/-- A moderate float is a number. -/
theorem Moderate.isNaN {x : Binary64} (h : x.Moderate) : x.isNaN = false := by
  have hrank := isFinite_iff.mp h.finite
  exact decide_eq_false (by omega)

/-- The negative of a moderate float is moderate. -/
theorem Moderate.neg {x : Binary64} (h : x.Moderate) : x.neg.Moderate := ⟨h.finite, h.scaled_lt⟩

/-- An integer up to `2 ^ 64` becomes a moderate float. -/
theorem moderate_ofInt {i : Int} (h : i.natAbs ≤ 2 ^ 64) : (ofInt i).Moderate := by
  refine ⟨isFinite_ofInt h, ?_⟩
  unfold moderateBits
  refine scaled_lt _ ?_
  rw [ofInt_eq]
  exact (min_le_left _ _).trans (freeRank_le_of_le_two_pow h unitBits)

/-- An integer other than zero is at least one as a float. -/
theorem unit_le_scaled_ofInt {i : Int} (hne : i ≠ 0) : unit ≤ (ofInt i).scaled := by
  have hrank : (unitBits - 52 + 1) * blockSize ≤ (ofInt i).rank := by
    rw [ofInt_eq]
    exact le_min (le_freeRank_of_pos (Int.natAbs_pos.mpr hne) (by decide)) (Nat.mul_le_mul_right _ (by decide))
  have hbits : 52 + (unitBits - 52) = unitBits := by decide
  have hscaled := le_scaled _ hrank
  rwa [hbits, ← unit_eq] at hscaled

/-- The sum of moderate floats is finite. -/
theorem Moderate.add {x y : Binary64} (hx : x.Moderate) (hy : y.Moderate) : (x.add y).isFinite := by
  unfold Binary64.add
  simp only [hx.isNaN, hy.isNaN, hx.finite, hy.finite, Bool.or_self, Bool.not_true, Bool.false_eq_true, if_false]
  split
  · exact isFinite_iff.mpr (show 0 < infinityRank by decide)
  · have hsum : (x.signedScaled + y.signedScaled).natAbs < 2 ^ (moderateBits + 1) := by
      have hlx := hx.scaled_lt
      have hly := hy.scaled_lt
      rw [Nat.pow_succ]
      unfold signedScaled
      generalize 2 ^ moderateBits = bound at *
      split <;> split <;> omega
    exact isFinite_iff.mpr (rankOfScaled_lt _ (by rwa [Nat.div_one]) (by decide))

/-- The product of moderate floats is finite. -/
theorem Moderate.mul {x y : Binary64} (hx : x.Moderate) (hy : y.Moderate) : (x.mul y).isFinite := by
  unfold Binary64.mul
  simp only [hx.isNaN, hy.isNaN, hx.finite, hy.finite, Bool.or_self, Bool.not_true, Bool.false_eq_true, if_false]
  have hbits : moderateBits + moderateBits = moderateBits + moderateBits - unitBits + unitBits := by decide
  have hproduct : x.scaled * y.scaled < 2 ^ (moderateBits + moderateBits) := by
    rw [pow_add]
    exact Nat.mul_lt_mul'' hx.scaled_lt hy.scaled_lt
  rw [hbits, pow_add, ← unit_eq] at hproduct
  have hquotient := (Nat.div_lt_iff_lt_mul unit_pos).mpr hproduct
  exact isFinite_iff.mpr (rankOfScaled_lt (moderateBits + moderateBits - unitBits) hquotient (by decide))

/-- The quotient of moderate floats is finite if the divisor is at least one. -/
theorem Moderate.div {x y : Binary64} (hx : x.Moderate) (hy : y.Moderate) (hone : unit ≤ y.scaled) : (x.div y).isFinite := by
  have hzero : y.isZero = false := by
    refine beq_false_of_ne fun hrank => ?_
    have hnone : y.scaled = 0 := by
      unfold scaled
      rw [hrank]
      rfl
    have := unit_pos
    omega
  unfold Binary64.div
  simp only [hx.isNaN, hy.isNaN, hx.finite, hy.finite, hzero, Bool.or_self, Bool.not_true, Bool.false_eq_true, if_false]
  refine isFinite_iff.mpr (rankOfScaled_lt moderateBits ?_ (by decide))
  rw [Nat.shiftLeft_eq, ← unit_eq]
  calc x.scaled * unit / y.scaled ≤ x.scaled * unit / unit := Nat.div_le_div_left hone unit_pos
    _ = x.scaled := Nat.mul_div_cancel _ unit_pos
    _ < 2 ^ moderateBits := hx.scaled_lt

end Binary64

namespace Number

open Machine (arithNumbers)

variable {a b i q r : Int64} {exact : Int} {rounded : Binary64}

/-! ## Exact results -/

/-- A result that a 64-bit integer can hold. -/
def Representable (exact : Int) : Prop := -0x8000000000000000 ≤ exact ∧ exact < 0x8000000000000000

/-- A 64-bit integer is representable. -/
theorem representable_toInt (i : Int64) : Representable i.toInt := ⟨i.le_toInt, i.toInt_lt⟩

/-- An exact integer fits into 64 bits as the one of its value. -/
theorem int64?_eq_some_iff : int64? exact = some i ↔ i.toInt = exact := by
  unfold int64?
  split
  · rename_i h
    rw [Option.some.injEq]
    constructor
    · rintro rfl
      exact Int64.toInt_ofInt_of_le (by simpa using h.1) (by simpa using h.2)
    · rintro rfl
      exact Int64.ofInt_toInt i
  · rename_i h
    constructor
    · nofun
    · rintro rfl
      exact absurd (representable_toInt i) h

/-- An exact integer does not fit into 64 bits if and only if it is not representable. -/
theorem int64?_eq_none_iff : int64? exact = none ↔ ¬Representable exact := by
  unfold int64? Representable
  split <;> simp_all

/-- An exact result as a number: the integer if it has 64 bits, and a finite float otherwise. -/
structure Exactly (exact : Int) (n : Number) : Prop where
  int (i : Int64) : n = .int i ↔ i.toInt = exact
  whole : (∃ i, n = .int i) ↔ Representable exact
  float : ¬Representable exact → ∃ x, n = .float x ∧ x.isFinite

/-- A result that is the integer where it fits and a finite float where it does not is exact where it can be. -/
theorem exactly_exactOr (h : rounded.isFinite) : Exactly exact (exactOr exact rounded) := by
  cases hexact : int64? exact with
  | some i =>
    have hi : i.toInt = exact := int64?_eq_some_iff.mp hexact
    have hresult : exactOr exact rounded = .int i := by rw [exactOr, hexact]
    rw [hresult, ← hi]
    refine ⟨fun j => ?_, ⟨fun _ => representable_toInt i, fun _ => ⟨i, rfl⟩⟩, fun hnot => absurd (representable_toInt i) hnot⟩
    rw [Number.int.injEq, Int64.toInt_inj]
    exact eq_comm
  | none =>
    have hnot := int64?_eq_none_iff.mp hexact
    have hresult : exactOr exact rounded = .float rounded := by rw [exactOr, hexact]
    rw [hresult]
    refine ⟨fun j => ⟨nofun, ?_⟩, ⟨nofun, fun h => absurd h hnot⟩, fun _ => ⟨rounded, rfl, h⟩⟩
    rintro rfl
    exact absurd (representable_toInt j) hnot

/-- Such a result is finite. -/
theorem isFinite_of_exactly {n : Number} (h : Exactly exact n) : n.isFinite := by
  by_cases hexact : Representable exact
  · obtain ⟨i, rfl⟩ := h.whole.mpr hexact
    rfl
  · obtain ⟨x, rfl, hx⟩ := h.float hexact
    exact hx

/-- A 64-bit integer becomes a moderate float. -/
theorem moderate_toInt (i : Int64) : (Binary64.ofInt i.toInt).Moderate := Binary64.moderate_ofInt (natAbs_toInt_le i)

/-- Addition is exact where the sum can be represented. -/
theorem add_exactly (a b : Int64) : Exactly (a.toInt + b.toInt) ((Number.int a).add (.int b)) :=
  exactly_exactOr ((moderate_toInt a).add (moderate_toInt b))

/-- Subtraction is exact where the difference can be represented. -/
theorem sub_exactly (a b : Int64) : Exactly (a.toInt - b.toInt) ((Number.int a).sub (.int b)) :=
  exactly_exactOr ((moderate_toInt a).add (moderate_toInt b).neg)

/-- Multiplication is exact where the product can be represented. -/
theorem mul_exactly (a b : Int64) : Exactly (a.toInt * b.toInt) ((Number.int a).mul (.int b)) :=
  exactly_exactOr ((moderate_toInt a).mul (moderate_toInt b))

/-- Negation is exact where the negative can be represented. -/
theorem neg_exactly (a : Int64) : Exactly (-a.toInt) (Number.int a).neg := exactly_exactOr (Binary64.isFinite_neg (moderate_toInt a).finite)

/-- The absolute value is exact where it can be represented. -/
theorem abs_exactly (a : Int64) : Exactly |a.toInt| (Number.int a).abs := by
  rw [Int.abs_eq_natAbs, Number.abs]
  exact exactly_exactOr (Binary64.isFinite_abs (moderate_toInt a).finite)

/-! ## Quotients -/

/-- A quotient of integers. -/
structure IsQuotient (a b : Int64) (result : Except Fault Number) : Prop where
  fails (fault : Fault) : result = .error fault ↔ b = 0 ∧ fault = .divideByZero
  int (q : Int64) : result = .ok (.int q) ↔ b ≠ 0 ∧ q.toInt * b.toInt = a.toInt
  float : b ≠ 0 → (∀ q : Int64, q.toInt * b.toInt ≠ a.toInt) → ∃ x, result = .ok (.float x) ∧ x.isFinite

/-- An integer that is not zero has a value that is not zero. -/
theorem toInt_ne_zero (h : b ≠ 0) : b.toInt ≠ 0 := by
  intro hzero
  exact h (Int64.toInt_inj.mp hzero)

/-- An integer that is not zero is not taken for zero. -/
theorem isZero_int (h : b ≠ 0) : (Number.int b).isZero = false := beq_false_of_ne h

/-- The integers that give a dividend if they are multiplied by the divisor. -/
theorem quotient_iff (hb : b ≠ 0) : q.toInt * b.toInt = a.toInt ↔ a.toInt.tmod b.toInt = 0 ∧ q.toInt = a.toInt.tdiv b.toInt := by
  constructor
  · intro h
    rw [← h]
    exact ⟨Int.mul_tmod_left _ _, (Int.mul_tdiv_cancel _ (toInt_ne_zero hb)).symm⟩
  · rintro ⟨hrest, hq⟩
    rw [hq]
    exact Int.tdiv_mul_cancel (Int.dvd_of_tmod_eq_zero hrest)

/-- Division gives the quotient, an integer if and only if there is no remainder, and fails for a zero divisor. -/
theorem div_isQuotient (a b : Int64) : IsQuotient a b ((Number.int a).div (.int b)) := by
  by_cases hb : b = 0
  · subst hb
    have hresult : (Number.int a).div (.int 0) = .error .divideByZero := rfl
    rw [hresult]
    exact ⟨fun fault => ⟨fun h => ⟨rfl, (Except.error.inj h).symm⟩, fun h => by rw [h.2]⟩,
      fun q => ⟨nofun, fun h => absurd rfl h.1⟩, fun h => absurd rfl h⟩
  · have hfinite : (Binary64.div (.ofInt a.toInt) (.ofInt b.toInt)).isFinite :=
      (moderate_toInt a).div (moderate_toInt b) (Binary64.unit_le_scaled_ofInt (toInt_ne_zero hb))
    unfold div
    rw [isZero_int hb, if_neg Bool.false_ne_true]
    dsimp only
    split
    · rename_i hrest
      have hexactly : Exactly (a.toInt.tdiv b.toInt) (exactOr (a.toInt.tdiv b.toInt) _) := exactly_exactOr hfinite
      refine ⟨fun fault => ⟨nofun, fun h => absurd h.1 hb⟩, fun q => ?_, fun _ hnone => ?_⟩
      · rw [Except.ok.injEq, hexactly.int, quotient_iff hb]
        exact ⟨fun h => ⟨hb, hrest, h⟩, fun h => h.2.2⟩
      · obtain ⟨x, hx, hxfinite⟩ := hexactly.float fun hrange => by
          obtain ⟨q, hq⟩ := hexactly.whole.mpr hrange
          exact hnone q ((quotient_iff hb).mpr ⟨hrest, (hexactly.int q).mp hq⟩)
        exact ⟨x, congrArg _ hx, hxfinite⟩
    · rename_i hrest
      refine ⟨fun fault => ⟨nofun, fun h => absurd h.1 hb⟩, fun q => ?_, fun _ _ => ⟨_, rfl, hfinite⟩⟩
      rw [quotient_iff hb]
      exact ⟨nofun, fun h => absurd h.2.1 hrest⟩

/-! ## Remainders -/

/-- A remainder of integers: the only integer that is smaller than the divisor, apart from a multiple of the divisor is the dividend, and
is zero or of the sign of the dividend. -/
structure IsRemainder (a b : Int64) (result : Except Fault Number) : Prop where
  fails (fault : Fault) : result = .error fault ↔ b = 0 ∧ fault = .moduloByZero
  some : b ≠ 0 → ∃ r, result = .ok (.int r)
  int (r : Int64) : result = .ok (.int r) ↔
    b ≠ 0 ∧ |r.toInt| < |b.toInt| ∧ b.toInt ∣ a.toInt - r.toInt ∧ (r.toInt = 0 ∨ r.toInt.sign = a.toInt.sign)

/-- The remainder of the division towards zero: smaller than the divisor, with the sign of the dividend. -/
theorem tmod_remainder {m n : Int} (hn : n ≠ 0) :
    |m.tmod n| < |n| ∧ n ∣ m - m.tmod n ∧ (m.tmod n = 0 ∨ (m.tmod n).sign = m.sign) := by
  have hsplit := Int.mul_tdiv_add_tmod m n
  refine ⟨?_, ⟨m.tdiv n, by omega⟩, ?_⟩
  · rw [Int.abs_eq_natAbs, Int.abs_eq_natAbs, Int.natAbs_tmod]
    exact_mod_cast Nat.mod_lt _ (Int.natAbs_pos.mpr hn)
  · rcases lt_trichotomy (m.tmod n) 0 with hneg | hzero | hpos
    · have hm : m < 0 := by
        by_contra hnot
        exact absurd (Int.tmod_nonneg n (not_lt.mp hnot)) (not_le.mpr hneg)
      exact .inr ((Int.sign_eq_neg_one_of_neg hneg).trans (Int.sign_eq_neg_one_of_neg hm).symm)
    · exact .inl hzero
    · have hm : 0 < m := by
        by_contra hnot
        have hopposite := Int.tmod_nonneg n (show 0 ≤ -m by omega)
        rw [Int.neg_tmod] at hopposite
        omega
      exact .inr ((Int.sign_eq_one_of_pos hpos).trans (Int.sign_eq_one_of_pos hm).symm)

/-- Two remainders of one division are the same. -/
theorem remainder_unique {m n s t : Int} (hs : |s| < |n|) (ht : |t| < |n|) (hdvds : n ∣ m - s) (hdvdt : n ∣ m - t)
    (hsigns : s = 0 ∨ s.sign = m.sign) (hsignt : t = 0 ∨ t.sign = m.sign) : s = t := by
  have hdvd : n ∣ s - t := by
    have := Int.dvd_sub hdvdt hdvds
    rwa [sub_sub_sub_cancel_left] at this
  have hsmall : |s - t| < |n| := by
    -- both are on the same side of zero
    have hside : 0 ≤ s ∧ 0 ≤ t ∨ s ≤ 0 ∧ t ≤ 0 := by
      rcases hsigns with rfl | hsigns
      · omega
      · rcases hsignt with rfl | hsignt
        · omega
        · have hsame := hsigns.trans hsignt.symm
          rcases lt_trichotomy s 0 with hneg | rfl | hpos
          · rw [Int.sign_eq_neg_one_of_neg hneg] at hsame
            exact .inr ⟨hneg.le, (Int.neg_of_sign_eq_neg_one hsame.symm).le⟩
          · omega
          · rw [Int.sign_eq_one_of_pos hpos] at hsame
            exact .inl ⟨hpos.le, (Int.pos_of_sign_eq_one hsame.symm).le⟩
    rw [Int.abs_eq_natAbs] at *
    omega
  have hzero := Int.eq_zero_of_dvd_of_natAbs_lt_natAbs hdvd (by rwa [Int.abs_eq_natAbs, Int.abs_eq_natAbs, Nat.cast_lt] at hsmall)
  omega

/-- The remainder of integers is an integer, whatever the quotient. -/
theorem mod_int (hb : b ≠ 0) : ∃ r : Int64, (Number.int a).mod (.int b) = .ok (.int r) ∧ r.toInt = a.toInt.tmod b.toInt := by
  have hrange : Representable (a.toInt.tmod b.toInt) := by
    have hlt := (tmod_remainder (m := a.toInt) (toInt_ne_zero hb)).1
    have hbound := representable_toInt b
    rw [Int.abs_eq_natAbs, Int.abs_eq_natAbs] at hlt
    unfold Representable at hbound ⊢
    omega
  obtain ⟨r, hr⟩ := Option.ne_none_iff_exists'.mp fun h => int64?_eq_none_iff.mp h hrange
  have hcast : Int64.ofInt (a.toInt.tmod b.toInt) = r := by
    rw [← int64?_eq_some_iff.mp hr]
    exact Int64.ofInt_toInt r
  refine ⟨r, ?_, int64?_eq_some_iff.mp hr⟩
  unfold mod
  rw [isZero_int hb, if_neg Bool.false_ne_true]
  dsimp only
  rw [hcast]

/-- The remainder is the one of the division towards zero, and fails for a zero divisor. -/
theorem mod_isRemainder (a b : Int64) : IsRemainder a b ((Number.int a).mod (.int b)) := by
  by_cases hb : b = 0
  · subst hb
    have hresult : (Number.int a).mod (.int 0) = .error .moduloByZero := rfl
    rw [hresult]
    exact ⟨fun fault => ⟨fun h => ⟨rfl, (Except.error.inj h).symm⟩, fun h => by rw [h.2]⟩, fun h => absurd rfl h,
      fun r => ⟨nofun, fun h => absurd rfl h.1⟩⟩
  · obtain ⟨r, hresult, hr⟩ := mod_int (a := a) hb
    rw [hresult]
    obtain ⟨hlt, hdvd, hsign⟩ := tmod_remainder (m := a.toInt) (toInt_ne_zero hb)
    rw [← hr] at hlt hdvd hsign
    refine ⟨fun fault => ⟨nofun, fun h => absurd h.1 hb⟩, fun _ => ⟨r, rfl⟩, fun s => ?_⟩
    rw [Except.ok.injEq, Number.int.injEq]
    constructor
    · rintro rfl
      exact ⟨hb, hlt, hdvd, hsign⟩
    · rintro ⟨-, hlt', hdvd', hsign'⟩
      exact Int64.toInt_inj.mp (remainder_unique hlt hlt' hdvd hdvd' hsign hsign')

/-! ## Division by operations that may overflow -/

/-- The quotient towards zero, unless the divisor is zero or the quotient has more than 64 bits. -/
def quotient? (a b : Int64) : Option Int64 := if b = 0 then none else int64? (a.toInt.tdiv b.toInt)

/-- The remainder, where there is a quotient. -/
def remainder? (a b : Int64) : Option Int64 := (quotient? a b).map fun _ => .ofInt (a.toInt.tmod b.toInt)

/-- The quotient of integers, by operations that give nothing where they would overflow. -/
def checkedDiv (a b : Int64) : Except Fault Number :=
  let rounded := Binary64.div (.ofInt a.toInt) (.ofInt b.toInt)
  if b = 0 then .error .divideByZero
  else if remainder? a b = some 0 then .ok (((quotient? a b).map .int).getD (.float rounded))
  else .ok (.float rounded)

/-- The remainder of integers, by operations that give nothing where they would overflow. -/
def checkedMod (a b : Int64) : Except Fault Number :=
  if b = 0 then .error .moduloByZero else .ok (.int ((remainder? a b).getD 0))

/-- The checked quotient is that of the division towards zero, where it fits into 64 bits. -/
theorem quotient?_eq_int64 (hb : b ≠ 0) : quotient? a b = int64? (a.toInt.tdiv b.toInt) := if_neg hb

/-- The least integer divided by minus one is the only quotient that overflows. -/
theorem quotient?_eq_none_iff : quotient? a b = none ↔ b = 0 ∨ a = Int64.minValue ∧ b = -1 := by
  by_cases hb : b = 0
  · exact ⟨fun _ => .inl hb, fun _ => if_pos hb⟩
  have hbound := representable_toInt a
  have hmin : Int64.minValue.toInt = -0x8000000000000000 := by decide
  have hone : (-1 : Int64).toInt = -1 := by decide
  rw [quotient?_eq_int64 hb, int64?_eq_none_iff, or_iff_right hb, ← Int64.toInt_inj, ← Int64.toInt_inj, hmin, hone]
  have hne := toInt_ne_zero hb
  unfold Representable at hbound ⊢
  constructor
  · intro hnot
    have hquotient : (a.toInt.tdiv b.toInt).natAbs = a.toInt.natAbs / b.toInt.natAbs := Int.natAbs_tdiv _ _
    by_cases hlarge : 2 ≤ b.toInt.natAbs
    · have hhalf : a.toInt.natAbs / b.toInt.natAbs ≤ a.toInt.natAbs / 2 := Nat.div_le_div_left hlarge (by decide)
      rw [← hquotient] at hhalf
      omega
    · rcases (show b.toInt = 1 ∨ b.toInt = -1 by omega) with h | h
      · rw [h, Int.tdiv_one] at hnot
        exact absurd hbound hnot
      · rw [h, Int.tdiv_neg, Int.tdiv_one] at hnot
        exact ⟨by omega, h⟩
  · rintro ⟨ha, h⟩
    rw [ha, h]
    decide

/-- The remainder of integers fits into 64 bits. -/
theorem toInt_ofInt_tmod (hb : b ≠ 0) : (Int64.ofInt (a.toInt.tmod b.toInt)).toInt = a.toInt.tmod b.toInt := by
  obtain ⟨r, -, hr⟩ := mod_int (a := a) hb
  rw [← hr, Int64.ofInt_toInt]

/-- Division with checks of the 64-bit quotient and remainder is division. -/
theorem checkedDiv_eq (a b : Int64) : checkedDiv a b = (Number.int a).div (.int b) := by
  by_cases hb : b = 0
  · subst hb
    rfl
  unfold checkedDiv div remainder?
  rw [isZero_int hb, if_neg Bool.false_ne_true, if_neg hb, quotient?_eq_int64 hb]
  dsimp only
  cases hquotient : int64? (a.toInt.tdiv b.toInt) with
  | some q =>
    have hzero : Option.map (fun _ => Int64.ofInt (a.toInt.tmod b.toInt)) (some q) = some 0 ↔ a.toInt.tmod b.toInt = 0 := by
      rw [Option.map_some, Option.some.injEq, ← Int64.toInt_inj, toInt_ofInt_tmod hb]
      rfl
    have hexact : exactOr (a.toInt.tdiv b.toInt) (.div (.ofInt a.toInt) (.ofInt b.toInt)) = .int q := by rw [exactOr, hquotient]
    by_cases hrest : a.toInt.tmod b.toInt = 0
    · rw [if_pos (hzero.mpr hrest), if_pos hrest, hexact]
      rfl
    · rw [if_neg (mt hzero.mp hrest), if_neg hrest]
  | none =>
    have hexact : exactOr (a.toInt.tdiv b.toInt) (.div (.ofInt a.toInt) (.ofInt b.toInt)) =
        .float (.div (.ofInt a.toInt) (.ofInt b.toInt)) := by rw [exactOr, hquotient]
    rw [hexact, ite_self]
    exact if_neg nofun

/-- The remainder with a check of the 64-bit operation is the remainder. -/
theorem checkedMod_eq (a b : Int64) : checkedMod a b = (Number.int a).mod (.int b) := by
  by_cases hb : b = 0
  · subst hb
    rfl
  unfold checkedMod mod
  rw [isZero_int hb, if_neg Bool.false_ne_true, if_neg hb]
  dsimp only
  cases hquotient : quotient? a b with
  | some q => rw [remainder?, hquotient]; rfl
  | none =>
    obtain ⟨rfl, rfl⟩ := (quotient?_eq_none_iff.mp hquotient).resolve_left hb
    rfl

/-! ## Scripts -/

/-- What arithmetic on two integers gives is finite, so a script does not refuse it. -/
structure Accepted (a b : Number) : Prop where
  add : arithNumbers .add a b = .ok (a.add b)
  sub : arithNumbers .sub a b = .ok (a.sub b)
  mul : arithNumbers .mul a b = .ok (a.mul b)
  div : arithNumbers .div a b = a.div b
  mod : arithNumbers .mod a b = a.mod b

/-- A finite number passes the check for finiteness. -/
theorem ensureFinite_ok {n : Number} (h : n.isFinite) : n.ensureFinite = .ok n := if_pos h

/-- The check for finiteness changes nothing where all results are finite. -/
theorem bind_ensureFinite {result : Except Fault Number} (h : ∀ n, result = .ok n → n.isFinite) : (result >>= ensureFinite) = result := by
  cases result with
  | error fault => rfl
  | ok n => exact ensureFinite_ok (h n rfl)

/-- All operations on integers are accepted: their results pass the check for finiteness. -/
theorem accepted_int (a b : Int64) : Accepted (.int a) (.int b) where
  add := ensureFinite_ok (isFinite_of_exactly (add_exactly a b))
  sub := ensureFinite_ok (isFinite_of_exactly (sub_exactly a b))
  mul := ensureFinite_ok (isFinite_of_exactly (mul_exactly a b))
  div := by
    refine bind_ensureFinite fun n hn => ?_
    have hquotient := div_isQuotient a b
    by_cases hb : b = 0
    · rw [(hquotient.fails .divideByZero).mpr ⟨hb, rfl⟩] at hn
      nomatch hn
    cases n with
    | int q => rfl
    | float x =>
      obtain ⟨y, hy, hfinite⟩ := hquotient.float hb fun q hq => by
        rw [(hquotient.int q).mpr ⟨hb, hq⟩] at hn
        nomatch hn
      rw [hy] at hn
      obtain rfl := Number.float.inj (Except.ok.inj hn)
      exact hfinite
  mod := by
    refine bind_ensureFinite fun n hn => ?_
    by_cases hb : b = 0
    · rw [((mod_isRemainder a b).fails .moduloByZero).mpr ⟨hb, rfl⟩] at hn
      nomatch hn
    · obtain ⟨r, hr⟩ := (mod_isRemainder a b).some hb
      rw [hr] at hn
      obtain rfl := Except.ok.inj hn
      rfl

/-- Arithmetic on any two 64-bit integers: sums, differences, products, opposites and magnitudes are exact or finite floats, a quotient and
a remainder fail exactly for the divisor zero and are otherwise what division with remainder gives. A script refuses none of these
results, and dividing by operations that give nothing on overflow gives the same ones. -/
theorem integers_exact (a b : Int64) :
    Exactly (a.toInt + b.toInt) ((Number.int a).add (.int b)) ∧
    Exactly (a.toInt - b.toInt) ((Number.int a).sub (.int b)) ∧
    Exactly (a.toInt * b.toInt) ((Number.int a).mul (.int b)) ∧
    Exactly (-a.toInt) (Number.int a).neg ∧
    Exactly |a.toInt| (Number.int a).abs ∧
    IsQuotient a b ((Number.int a).div (.int b)) ∧
    IsRemainder a b ((Number.int a).mod (.int b)) ∧
    Accepted (.int a) (.int b) ∧
    (quotient? a b = none ↔ b = 0 ∨ a = Int64.minValue ∧ b = -1) ∧
    checkedDiv a b = (Number.int a).div (.int b) ∧ checkedMod a b = (Number.int a).mod (.int b) :=
  ⟨add_exactly a b, sub_exactly a b, mul_exactly a b, neg_exactly a, abs_exactly a, div_isQuotient a b, mod_isRemainder a b,
    accepted_int a b, quotient?_eq_none_iff, checkedDiv_eq a b, checkedMod_eq a b⟩

/-- The least integer by minus one: the quotient goes on as a float, the remainder is zero. -/
example : (Number.int Int64.minValue).div (.int (-1)) = .ok (.float (.ofInt 0x8000000000000000)) ∧
    (Number.int Int64.minValue).mod (.int (-1)) = .ok (.int 0) := by decide +kernel

end Number

end HostScript
