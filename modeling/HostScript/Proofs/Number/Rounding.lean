import Mathlib
import HostScript.Number.Basic

/-!
# Rounding integers to floating point

Rounding keeps the order of integers, as far as the total order of the floating point values can tell them apart, and up to
`2 ^ 53` it loses nothing. Both facts are read off the ranks: a magnitude whose binary logarithm is `shift + 52` lands in the block of
ranks that the shift selects or at its upper end, and within a block rounding is monotone.
-/

namespace HostScript

namespace Binary64

/-! ## Halves -/

/-- A quotient is not rounded to less than its integral part, -/
theorem div_le_roundHalfEven (num den : Nat) : num / den ≤ roundHalfEven num den := by
  unfold roundHalfEven
  dsimp only
  split_ifs <;> omega

/-- nor to more than the next integer. -/
theorem roundHalfEven_le (num den : Nat) : roundHalfEven num den ≤ num / den + 1 := by
  unfold roundHalfEven
  dsimp only
  split_ifs <;> omega

/-- A quotient without remainder is not rounded. -/
theorem roundHalfEven_dvd {num den : Nat} (hden : 0 < den) (h : den ∣ num) : roundHalfEven num den = num / den := by
  have hrest : num % den = 0 := Nat.mod_eq_zero_of_dvd h
  unfold roundHalfEven
  simp only [hrest, Nat.mul_zero, hden, if_true]

/-- Rounding quotients of one divisor keeps their order. -/
theorem roundHalfEven_mono {num num' : Nat} (den : Nat) (h : num ≤ num') :
    roundHalfEven num den ≤ roundHalfEven num' den := by
  rcases (Nat.div_le_div_right (c := den) h).lt_or_eq with hlt | heq
  · have hupper := roundHalfEven_le num den
    have hlower := div_le_roundHalfEven num' den
    omega
  · -- of two quotients with one whole part, the larger has the larger rest
    have hrest : num % den ≤ num' % den := by
      have hnum := Nat.div_add_mod num den
      have hnum' := Nat.div_add_mod num' den
      rw [heq] at hnum
      omega
    unfold roundHalfEven
    simp only [heq]
    split_ifs <;> omega

/-! ## Ranks of whole magnitudes -/

/-- The ranks of one exponent are as many as the fractions of 52 bits. -/
theorem blockSize_eq : blockSize = 2 ^ 52 := by
  norm_num [blockSize]

/-- The shift that brings a magnitude down to 53 bits. -/
def shiftOf (magnitude : Nat) : Nat := magnitude.log2 - 52

/-- The rank nearest to a whole magnitude, with no end of the range in sight. -/
def freeRank (magnitude : Nat) : Nat :=
  shiftOf magnitude * blockSize + roundHalfEven magnitude (2 ^ shiftOf magnitude)

/-- A whole number has the rank it has without the limit, up to infinity. -/
theorem rankOfScaled_one (magnitude : Nat) : rankOfScaled magnitude 1 = min (freeRank magnitude) infinityRank := by
  unfold rankOfScaled freeRank shiftOf
  simp only [Nat.div_one, Nat.one_shiftLeft]

/-- A greater number is shifted as far at least. -/
theorem shiftOf_mono {m n : Nat} (h : m ≤ n) : shiftOf m ≤ shiftOf n := by
  have : m.log2 ≤ n.log2 := by
    rw [Nat.log2_eq_log_two, Nat.log2_eq_log_two]
    exact Nat.log_mono_right h
  unfold shiftOf
  omega

/-- What is left of a number after its shift has 53 bits at most. -/
theorem lt_of_shiftOf (magnitude : Nat) : magnitude < 2 ^ (shiftOf magnitude + 53) := by
  have hlog : magnitude < 2 ^ (magnitude.log2 + 1) := Nat.lt_log2_self
  have hexp : magnitude.log2 + 1 ≤ shiftOf magnitude + 53 := by
    unfold shiftOf
    omega
  exact lt_of_lt_of_le hlog (Nat.pow_le_pow_right (by omega) hexp)

/-- What is left of a number after a shift has 53 bits. -/
theorem le_of_shiftOf {magnitude : Nat} (h : 0 < shiftOf magnitude) : 2 ^ (shiftOf magnitude + 52) ≤ magnitude := by
  have hlog : shiftOf magnitude + 52 = magnitude.log2 := by
    unfold shiftOf at h ⊢
    omega
  have hne : magnitude ≠ 0 := by
    rintro rfl
    exact absurd h (by decide)
  rw [hlog]
  exact Nat.log2_self_le hne

/-- Dropping the bits of the shift leaves 53 bits. -/
theorem div_shiftOf_lt (magnitude : Nat) : magnitude / 2 ^ shiftOf magnitude < 2 * blockSize := by
  have h := lt_of_shiftOf magnitude
  rw [Nat.pow_add] at h
  rw [blockSize_eq, Nat.div_lt_iff_lt_mul (by positivity)]
  calc magnitude < 2 ^ shiftOf magnitude * 2 ^ 53 := h
    _ = 2 * 2 ^ 52 * 2 ^ shiftOf magnitude := by ring

/-- A rank does not pass the end of its block. -/
theorem freeRank_le (magnitude : Nat) : freeRank magnitude ≤ (shiftOf magnitude + 2) * blockSize := by
  have hquotient := div_shiftOf_lt magnitude
  have hround := roundHalfEven_le magnitude (2 ^ shiftOf magnitude)
  unfold freeRank
  rw [Nat.add_mul]
  omega

/-- A rank is not in front of its block. -/
theorem le_freeRank {magnitude : Nat} (h : 0 < shiftOf magnitude) : (shiftOf magnitude + 1) * blockSize ≤ freeRank magnitude := by
  have hmagnitude := le_of_shiftOf h
  have hquotient : blockSize ≤ magnitude / 2 ^ shiftOf magnitude := by
    rw [Nat.le_div_iff_mul_le (by positivity), blockSize_eq, ← Nat.pow_add, Nat.add_comm]
    exact hmagnitude
  have hround := div_le_roundHalfEven magnitude (2 ^ shiftOf magnitude)
  unfold freeRank
  rw [Nat.add_mul]
  omega

/-- A rank in an earlier block is no greater than one in a later block. -/
theorem freeRank_le_of_shiftOf {m n : Nat} (h : shiftOf m < shiftOf n) :
    freeRank m ≤ (shiftOf m + 2) * blockSize ∧ (shiftOf m + 2) * blockSize ≤ freeRank n := by
  refine ⟨freeRank_le m, ?_⟩
  calc (shiftOf m + 2) * blockSize ≤ (shiftOf n + 1) * blockSize := Nat.mul_le_mul_right _ (by omega)
    _ ≤ freeRank n := le_freeRank (by omega)

/-- The rank does not fall. -/
theorem freeRank_mono {m n : Nat} (h : m ≤ n) : freeRank m ≤ freeRank n := by
  rcases (shiftOf_mono h).lt_or_eq with hlt | heq
  · exact (freeRank_le_of_shiftOf hlt).1.trans (freeRank_le_of_shiftOf hlt).2
  · unfold freeRank
    rw [heq]
    exact Nat.add_le_add_left (roundHalfEven_mono _ h) _

/-- Magnitudes that end in as many zero bits as the shift drops keep apart. -/
theorem freeRank_strictMono {m n : Nat} (hm : 2 ^ shiftOf m ∣ m) (hn : 2 ^ shiftOf n ∣ n) (h : m < n) : freeRank m < freeRank n := by
  have hround : roundHalfEven m (2 ^ shiftOf m) = m / 2 ^ shiftOf m := roundHalfEven_dvd (by positivity) hm
  rcases (shiftOf_mono h.le).lt_or_eq with hlt | heq
  · refine lt_of_lt_of_le ?_ (freeRank_le_of_shiftOf hlt).2
    have hquotient := div_shiftOf_lt m
    unfold freeRank
    rw [hround, Nat.add_mul]
    omega
  · unfold freeRank
    rw [hround, roundHalfEven_dvd (by positivity) hn, heq]
    rw [heq] at hm
    exact Nat.add_lt_add_left (Nat.div_lt_div_of_lt_of_dvd hn h) _

/-! ## Integers -/

/-- The order key tells all numbers apart. -/
theorem orderKey_injective {x y : Binary64} (h : x.orderKey = y.orderKey) : x = y := by
  obtain ⟨negative, rank⟩ := x
  obtain ⟨negative', rank'⟩ := y
  unfold orderKey at h
  cases negative <;> cases negative' <;> simp_all <;> omega

/-- The value nearest to an integer has a rank that grows with its magnitude. -/
theorem ofInt_eq (i : Int) :
    ofInt i = ⟨decide (i < 0), min (freeRank (i.natAbs * 2 ^ unitBits)) infinityRank⟩ := by
  unfold ofInt ofScaled
  rw [rankOfScaled_one, Nat.shiftLeft_eq]

/-- Rounding keeps the order of integers. -/
theorem ofInt_mono {i j : Int} (h : i ≤ j) : (ofInt i).orderKey ≤ (ofInt j).orderKey := by
  have hrank : ∀ {m n : Nat}, m ≤ n →
      min (freeRank (m * 2 ^ unitBits)) infinityRank ≤ min (freeRank (n * 2 ^ unitBits)) infinityRank := fun hmn =>
    min_le_min_right _ (freeRank_mono (Nat.mul_le_mul_right _ hmn))
  rw [ofInt_eq, ofInt_eq]
  unfold orderKey
  by_cases hi : i < 0
  · by_cases hj : j < 0
    · have := hrank (show j.natAbs ≤ i.natAbs by omega)
      simp only [hi, hj, decide_true, if_true]
      omega
    · simp only [hi, hj, decide_true, decide_false, if_true, Bool.false_eq_true, if_false]
      omega
  · have hj : ¬j < 0 := by omega
    have := hrank (show i.natAbs ≤ j.natAbs by omega)
    simp only [hi, hj, decide_false, Bool.false_eq_true, if_false]
    omega

/-- The integers that are exact go up to the power of two with 53. -/
theorem exactIntegerLimit_eq : exactIntegerLimit = 2 ^ 53 := by
  norm_num [exactIntegerLimit, blockSize]

/-- How far a power of two is shifted. -/
theorem shiftOf_two_pow (n : Nat) : shiftOf (2 ^ n) = n - 52 := by
  unfold shiftOf
  rw [Nat.log2_two_pow]

/-- The bits that the shift drops from a multiple of at most 53 bits of a power of two are zero. -/
theorem dvd_of_le_exactIntegerLimit {n : Nat} (bits : Nat) (h : n ≤ exactIntegerLimit) : 2 ^ shiftOf (n * 2 ^ bits) ∣ n * 2 ^ bits := by
  rw [exactIntegerLimit_eq] at h
  rcases h.lt_or_eq with hlt | heq
  · refine Dvd.dvd.mul_left (Nat.pow_dvd_pow 2 ?_) n
    have hbits : n * 2 ^ bits < 2 ^ (53 + bits) := by
      rw [Nat.pow_add]
      exact Nat.mul_lt_mul_of_pos_right hlt (Nat.two_pow_pos bits)
    by_cases hzero : n * 2 ^ bits = 0
    · simp [hzero, shiftOf]
    · have hlog := (Nat.log2_lt hzero).mpr hbits
      unfold shiftOf
      omega
  · rw [heq, ← Nat.pow_add]
    refine Nat.pow_dvd_pow 2 ?_
    rw [shiftOf_two_pow]
    omega

/-- The ranks of integers up to `2 ^ 53` differ. -/
theorem freeRank_lt_freeRank {m n : Nat} (bits : Nat) (h : m < n) (hn : n ≤ exactIntegerLimit) :
    freeRank (m * 2 ^ bits) < freeRank (n * 2 ^ bits) :=
  freeRank_strictMono (dvd_of_le_exactIntegerLimit bits (h.le.trans hn)) (dvd_of_le_exactIntegerLimit bits hn)
    (Nat.mul_lt_mul_of_pos_right h (Nat.two_pow_pos bits))

/-- The ranks of integers up to `2 ^ 53` are ranks of finite values. -/
theorem freeRank_lt_infinityRank {n bits : Nat} (h : n ≤ exactIntegerLimit) (hbits : bits ≤ unitBits) :
    freeRank (n * 2 ^ bits) < infinityRank := by
  have hlast : freeRank (2 ^ (53 + bits)) ≤ (53 + bits - 52 + 2) * blockSize := shiftOf_two_pow (53 + bits) ▸ freeRank_le _
  rw [exactIntegerLimit_eq] at h
  have hmono := freeRank_mono (Nat.mul_le_mul_right (2 ^ bits) h)
  rw [← Nat.pow_add] at hmono
  have hblock : 53 + bits - 52 + 2 < 2047 := by
    unfold unitBits at hbits
    omega
  calc freeRank (n * 2 ^ bits) ≤ (53 + bits - 52 + 2) * blockSize := hmono.trans hlast
    _ < infinityRank := Nat.mul_lt_mul_of_pos_right hblock (by decide)

/-- Up to `2 ^ 53` rounding keeps integers apart. -/
theorem ofInt_injective {i j : Int} (hi : i.natAbs ≤ exactIntegerLimit) (hj : j.natAbs ≤ exactIntegerLimit)
    (h : ofInt i = ofInt j) : i = j := by
  rw [ofInt_eq, ofInt_eq] at h
  obtain ⟨hsign, hrank⟩ := Binary64.mk.inj h
  rw [min_eq_left (freeRank_lt_infinityRank hi le_rfl).le, min_eq_left (freeRank_lt_infinityRank hj le_rfl).le] at hrank
  have habs : i.natAbs = j.natAbs := by
    rcases Nat.lt_trichotomy i.natAbs j.natAbs with hlt | heq | hgt
    · exact absurd hrank (freeRank_lt_freeRank unitBits hlt hj).ne
    · exact heq
    · exact absurd hrank (freeRank_lt_freeRank unitBits hgt hi).ne'
  have hneg : i < 0 ↔ j < 0 := decide_eq_decide.mp hsign
  omega

end Binary64

end HostScript
