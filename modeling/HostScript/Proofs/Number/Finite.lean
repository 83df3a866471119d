import Mathlib
import HostScript.Number.Text
import HostScript.Proofs.Number.Digits
import HostScript.Proofs.Number.Rounding

/-!
# Finite numbers

Changing the sign of a finite number, dropping its fractional part and turning it into a float leave it finite, and so is every number
that is read from a text. Nothing like it holds of sums and products: only what a calculation refuses keeps its result finite. The text
of a finite number begins with a digit or a minus sign (`compact_head`).
-/

namespace HostScript

namespace Binary64

/-! ## Ranks below infinity -/

theorem unit_eq : unit = 2 ^ unitBits := Nat.one_shiftLeft unitBits

/-- A float is finite if and only if its rank lies below that of infinity. -/
theorem isFinite_iff {x : Binary64} : x.isFinite ↔ x.rank < infinityRank := decide_eq_true_iff

/-- A whole magnitude with a rank below infinity is rounded to a finite value. -/
theorem isFinite_ofScaled {magnitude : Nat} (h : freeRank magnitude < infinityRank) (negative : Bool) :
    (ofScaled negative magnitude 1).isFinite := by
  rw [isFinite_iff, ofScaled, rankOfScaled_one, min_eq_left h.le]
  exact h

/-- Rounding a magnitude whose dropped bits are zero does not leave its block. -/
theorem freeRank_lt_of_dvd {magnitude : Nat} (h : 2 ^ shiftOf magnitude ∣ magnitude) :
    freeRank magnitude < (shiftOf magnitude + 2) * blockSize := by
  have hquotient := div_shiftOf_lt magnitude
  unfold freeRank
  rw [roundHalfEven_dvd (Nat.two_pow_pos _) h, Nat.add_mul]
  omega

/-- The magnitudes of one block have the shift of the block. -/
theorem shiftOf_block {offset : Nat} (h : offset < blockSize) (shift : Nat) : shiftOf ((blockSize + offset) * 2 ^ shift) = shift := by
  have hsize : 2 ^ 52 ≤ blockSize + offset ∧ blockSize + offset < 2 ^ 53 := by
    rw [blockSize_eq] at h ⊢
    omega
  have hlog : ((blockSize + offset) * 2 ^ shift).log2 = 52 + shift := by
    have hpos := Nat.mul_pos (show 0 < blockSize + offset by omega) (Nat.two_pow_pos shift)
    rw [Nat.log2_eq_iff hpos.ne', Nat.pow_add, Nat.add_right_comm, Nat.pow_add]
    exact ⟨Nat.mul_le_mul_right _ hsize.1, Nat.mul_lt_mul_of_pos_right hsize.2 (Nat.two_pow_pos shift)⟩
  unfold shiftOf
  omega

/-- The magnitude of a value that is not among the least ones. -/
theorem scaled_block {x : Binary64} (h : ¬x.rank < blockSize) :
    x.scaled = (blockSize + x.rank % blockSize) * 2 ^ (x.rank / blockSize - 1) := by
  unfold scaled scaledOfRank
  rw [if_neg h, Nat.shiftLeft_eq]

/-- In the first block of ranks the value is the rank. -/
theorem scaled_least {x : Binary64} (h : x.rank < blockSize) : x.scaled = x.rank := by
  unfold scaled scaledOfRank
  rw [if_pos h]

theorem blockSize_pos : 0 < blockSize := by decide

/-- The magnitude of a finite value has a rank below infinity. -/
theorem freeRank_scaled {x : Binary64} (h : x.isFinite) : freeRank x.scaled < infinityRank := by
  rw [isFinite_iff] at h
  by_cases hleast : x.rank < blockSize
  · have hlimit : x.rank ≤ exactIntegerLimit := by
      unfold exactIntegerLimit
      omega
    have hrank : freeRank (x.rank * 2 ^ 0) < infinityRank := freeRank_lt_infinityRank hlimit (Nat.zero_le _)
    rwa [pow_zero, Nat.mul_one, ← scaled_least hleast] at hrank
  · have hshift := shiftOf_block (Nat.mod_lt x.rank blockSize_pos) (x.rank / blockSize - 1)
    rw [← scaled_block hleast] at hshift
    have hdvd : 2 ^ shiftOf x.scaled ∣ x.scaled := by
      rw [hshift, scaled_block hleast]
      exact Nat.dvd_mul_left _ _
    have hblock : x.rank / blockSize < 2047 := Nat.div_lt_of_lt_mul (by rw [Nat.mul_comm]; exact h)
    have hfirst : 1 ≤ x.rank / blockSize := (Nat.one_le_div_iff blockSize_pos).mpr (by omega)
    calc freeRank x.scaled < (shiftOf x.scaled + 2) * blockSize := freeRank_lt_of_dvd hdvd
      _ ≤ 2047 * blockSize := Nat.mul_le_mul_right _ (by omega)

/-- A value is an integer, or less than `2 ^ 53`. -/
theorem integral_or_small (x : Binary64) : unit ∣ x.scaled ∨ x.scaled < exactIntegerLimit * unit := by
  by_cases hleast : x.rank < blockSize
  · right
    rw [scaled_least hleast, exactIntegerLimit]
    have hunit : 1 ≤ unit := by
      rw [unit_eq]
      exact Nat.two_pow_pos _
    nlinarith
  · rw [scaled_block hleast, unit_eq]
    by_cases hshift : unitBits ≤ x.rank / blockSize - 1
    · exact .inl (Dvd.dvd.mul_left (Nat.pow_dvd_pow 2 hshift) _)
    · right
      have hoffset := Nat.mod_lt x.rank blockSize_pos
      have hpow : 2 ^ (x.rank / blockSize - 1) ≤ 2 ^ unitBits := Nat.pow_le_pow_right (by omega) (by omega)
      calc (blockSize + x.rank % blockSize) * 2 ^ (x.rank / blockSize - 1)
          ≤ (blockSize + x.rank % blockSize) * 2 ^ unitBits := Nat.mul_le_mul_left _ hpow
        _ < exactIntegerLimit * 2 ^ unitBits := by
            refine Nat.mul_lt_mul_of_pos_right ?_ (Nat.two_pow_pos _)
            unfold exactIntegerLimit
            omega

/-! ## Operations that keep a value finite -/

/-- The negative of a finite float is finite. -/
theorem isFinite_neg {x : Binary64} (h : x.isFinite) : x.neg.isFinite := h

/-- The absolute value of a finite float is finite. -/
theorem isFinite_abs {x : Binary64} (h : x.isFinite) : x.abs.isFinite := h

/-- An integer of at most `2 ^ 53` is finite. -/
theorem isFinite_ofWhole {whole : Nat} (h : whole ≤ exactIntegerLimit) (negative : Bool) :
    (ofScaled negative (whole * unit) 1).isFinite := by
  rw [unit_eq]
  exact isFinite_ofScaled (freeRank_lt_infinityRank h le_rfl) negative

theorem unit_pos : 0 < unit := by
  rw [unit_eq]
  exact Nat.two_pow_pos _

/-- Cutting off the fraction of a finite float leaves a finite one. -/
theorem isFinite_trunc {x : Binary64} (h : x.isFinite) : x.trunc.isFinite := by
  unfold trunc
  rw [if_pos h]
  rcases integral_or_small x with hdvd | hsmall
  · rw [Nat.div_mul_cancel hdvd]
    exact isFinite_ofScaled (freeRank_scaled h) _
  · exact isFinite_ofWhole ((Nat.div_lt_iff_lt_mul unit_pos).mpr hsmall).le _

/-- Rounding a finite float to an integer leaves a finite one. -/
theorem isFinite_round {x : Binary64} (h : x.isFinite) : x.round.isFinite := by
  unfold round
  rw [if_pos h]
  have hunit := unit_pos
  rcases integral_or_small x with ⟨whole, hwhole⟩ | hsmall
  · have hquotient : (2 * x.scaled + unit) / (2 * unit) * unit = x.scaled := by
      have hsplit : 2 * x.scaled + unit = unit + 2 * unit * whole := by
        rw [hwhole]
        ring
      rw [hsplit, Nat.add_mul_div_left _ _ (by omega), Nat.div_eq_of_lt (by omega), Nat.zero_add, hwhole, Nat.mul_comm]
    rw [hquotient]
    exact isFinite_ofScaled (freeRank_scaled h) _
  · refine isFinite_ofWhole (Nat.le_of_lt_succ ?_) _
    have hbound : (exactIntegerLimit + 1) * (2 * unit) = 2 * (exactIntegerLimit * unit) + 2 * unit := by ring
    rw [Nat.div_lt_iff_lt_mul (by omega), Nat.succ_eq_add_one, hbound]
    generalize exactIntegerLimit * unit = limit at hsmall ⊢
    omega

/-- The ranks of integers of at most 64 bits are ranks of finite values. -/
theorem freeRank_lt_of_le_two_pow {n bits : Nat} (h : n ≤ 2 ^ 64) (hbits : bits ≤ unitBits) : freeRank (n * 2 ^ bits) < infinityRank := by
  have hlast : freeRank (2 ^ (64 + bits)) ≤ (64 + bits - 52 + 2) * blockSize := shiftOf_two_pow (64 + bits) ▸ freeRank_le _
  have hmono := freeRank_mono (Nat.mul_le_mul_right (2 ^ bits) h)
  rw [← Nat.pow_add] at hmono
  have hblock : 64 + bits - 52 + 2 < 2047 := by
    unfold unitBits at hbits
    omega
  calc freeRank (n * 2 ^ bits) ≤ (64 + bits - 52 + 2) * blockSize := hmono.trans hlast
    _ < infinityRank := Nat.mul_lt_mul_of_pos_right hblock blockSize_pos

/-- Integers of at most 64 bits are finite. -/
theorem isFinite_ofInt {i : Int} (h : i.natAbs ≤ 2 ^ 64) : (ofInt i).isFinite := by
  unfold ofInt
  rw [Nat.shiftLeft_eq]
  exact isFinite_ofScaled (freeRank_lt_of_le_two_pow h le_rfl) _

end Binary64

namespace Number

variable {n : Number}

/-! ## Numbers -/

/-- An exact integer, or a finite float in its place, is finite. -/
theorem isFinite_exactOr {rounded : Binary64} (h : rounded.isFinite) (exact : Int) : (exactOr exact rounded).isFinite := by
  unfold exactOr
  split
  · rfl
  · exact h

/-- The absolute value of a 64-bit integer is at most `2 ^ 64`. -/
theorem natAbs_toInt_le (i : Int64) : i.toInt.natAbs ≤ 2 ^ 64 := by
  have hlt := i.toInt_lt
  have hle := i.le_toInt
  omega

/-- A finite number is a finite float. -/
theorem isFinite_toBinary64 (h : n.isFinite) : n.toBinary64.isFinite := by
  cases n with
  | int i => exact Binary64.isFinite_ofInt (natAbs_toInt_le i)
  | float x => exact h

/-- Turned into a float a finite number is finite. -/
theorem isFinite_toFloat (h : n.isFinite) : n.toFloat.isFinite := isFinite_toBinary64 h

/-- The negative of a finite number is finite. -/
theorem isFinite_neg (h : n.isFinite) : n.neg.isFinite := by
  cases n with
  | int i => exact isFinite_exactOr (Binary64.isFinite_neg (Binary64.isFinite_ofInt (natAbs_toInt_le i))) _
  | float x => exact Binary64.isFinite_neg h

/-- The absolute value of a finite number is finite. -/
theorem isFinite_abs (h : n.isFinite) : n.abs.isFinite := by
  cases n with
  | int i =>
    rw [Number.abs]
    exact isFinite_exactOr (Binary64.isFinite_abs (Binary64.isFinite_ofInt (natAbs_toInt_le i))) _
  | float x => exact Binary64.isFinite_abs h

/-- The number of a finite float is finite, whether it becomes an integer or stays a float. -/
theorem isFinite_ofIntegral {x : Binary64} (h : x.isFinite) : (ofIntegral x).isFinite := by
  unfold ofIntegral
  split
  · rfl
  · exact h

/-- Rounding a finite number leaves a finite one. -/
theorem isFinite_round (h : n.isFinite) : n.round.isFinite := by
  cases n with
  | int i => rfl
  | float x => exact isFinite_ofIntegral (Binary64.isFinite_round h)

/-- Cutting off the fraction of a finite number leaves a finite one. -/
theorem isFinite_trunc (h : n.isFinite) : n.trunc.isFinite := by
  cases n with
  | int i => rfl
  | float x => exact isFinite_ofIntegral (Binary64.isFinite_trunc h)

/-- A count up to `2 ^ 64` is a finite number. -/
theorem isFinite_ofNat {k : Nat} (h : k ≤ 2 ^ 64) : (ofNat k).isFinite :=
  isFinite_exactOr (Binary64.isFinite_ofInt (by rwa [Int.natAbs_natCast])) _

/-- What is not finite is refused. -/
theorem isFinite_of_ensureFinite {m : Number} (h : n.ensureFinite = .ok m) : m.isFinite := by
  unfold ensureFinite at h
  split at h
  · rename_i hfinite
    obtain rfl := Except.ok.inj h
    exact hfinite
  · nomatch h

/-- A number that is read from a text is finite. -/
theorem isFinite_of_ofText {text : String} (h : ofText? text = some n) : n.isFinite := by
  unfold ofText? at h
  dsimp only at h
  split at h
  · obtain rfl := Option.some.inj h
    rfl
  · split at h
    · split at h
      · rename_i hfinite
        obtain rfl := Option.some.inj h
        exact hfinite
      · nomatch h
    · nomatch h

/-! ## The text of a finite number -/

/-- A text begins with a digit. -/
def StartsWithDigit (text : List Char) : Prop := ∃ c rest, text = c :: rest ∧ c.isDigit

/-- What begins with a digit does so whatever follows. -/
theorem StartsWithDigit.append {text : List Char} (h : StartsWithDigit text) (more : List Char) : StartsWithDigit (text ++ more) := by
  obtain ⟨c, rest, rfl, hc⟩ := h
  exact ⟨c, rest ++ more, rfl, hc⟩

/-- A beginning of what begins with a digit does so too, unless it is empty. -/
theorem StartsWithDigit.take {text : List Char} (h : StartsWithDigit text) (n : Nat) : StartsWithDigit (text.take (n + 1)) := by
  obtain ⟨c, rest, rfl, hc⟩ := h
  exact ⟨c, rest.take n, rfl, hc⟩

/-- The digits of a natural number begin with a digit. -/
theorem startsWithDigit_digits (k : Nat) : StartsWithDigit (Nat.toDigits 10 k) := by
  obtain ⟨c, rest, hdigits⟩ := List.exists_cons_of_ne_nil (Nat.toDigits_ne_nil (n := k) (b := 10))
  exact ⟨c, rest, hdigits, isDigit_digits (n := k) c (hdigits ▸ List.mem_cons_self)⟩

/-- The significant digits of a decimal begin with a digit. -/
theorem startsWithDigit_significantDigits (d : Decimal) : StartsWithDigit d.significantDigits := by
  unfold Decimal.significantDigits
  dsimp only
  split
  · exact ⟨'0', [], rfl, rfl⟩
  · rename_i hkept
    rw [List.isEmpty_iff] at hkept
    obtain ⟨c, rest, hdigits⟩ := List.exists_cons_of_ne_nil hkept
    have hmem : c ∈ ((Nat.toDigits 10 d.digits).reverse.dropWhile (· == '0')).reverse := by
      rw [hdigits]
      exact List.mem_cons_self
    have hsuffix := (List.dropWhile_sublist (· == '0')).subset (List.mem_reverse.mp hmem)
    exact ⟨c, rest, hdigits, isDigit_digits c (List.mem_reverse.mp hsuffix)⟩

/-- The plain layout of digits begins with a digit. -/
theorem startsWithDigit_plain {digits : List Char} (h : StartsWithDigit digits) (leading : Int) :
    StartsWithDigit (Decimal.plain digits leading) := by
  unfold Decimal.plain
  split
  · exact ⟨'0', _, rfl, rfl⟩
  · dsimp only
    split
    · exact (h.append _).append _
    · exact (h.take _).append _

/-- The layout with an exponent begins with a digit. -/
theorem startsWithDigit_scientific {digits : List Char} (h : StartsWithDigit digits) (exponentPlus : Bool) (leading : Int) :
    StartsWithDigit (Decimal.scientific exponentPlus digits leading) := by
  obtain ⟨c, rest, rfl, hc⟩ := h
  unfold Decimal.scientific
  cases rest with
  | nil => exact ⟨c, _, rfl, hc⟩
  | cons second rest => exact ⟨c, _, rfl, hc⟩

/-- Every layout of a decimal begins with a digit. -/
theorem startsWithDigit_magnitude (layout : Decimal.Layout) (d : Decimal) : StartsWithDigit (layout.magnitude d) := by
  unfold Decimal.Layout.magnitude
  dsimp only
  split
  · exact startsWithDigit_plain (startsWithDigit_significantDigits d) _
  · exact startsWithDigit_scientific (startsWithDigit_significantDigits d) _ _

/-- The text of a finite number is a digit and what follows it, perhaps behind a minus sign. -/
theorem compact_head (h : n.isFinite) : ∃ text, StartsWithDigit text ∧ (n.compact.toList = text ∨ n.compact.toList = '-' :: text) := by
  cases n with
  | int i =>
    refine ⟨_, startsWithDigit_digits i.toInt.natAbs, ?_⟩
    change (integerText i.toInt).toList = _ ∨ (integerText i.toInt).toList = _
    unfold integerText
    rw [String.toList_ofList]
    split
    · exact .inr rfl
    · exact .inl rfl
  | float x =>
    have hnan : x.isNaN = false := by
      have hrank := Binary64.isFinite_iff.mp h
      unfold Binary64.isNaN
      exact decide_eq_false (by omega)
    have hfinite : x.isFinite = true := h
    refine ⟨_, startsWithDigit_magnitude compactLayout (Decimal.shortest compactLayout.tie x.rank), ?_⟩
    change (compactLayout.render x).toList = _ ∨ (compactLayout.render x).toList = _
    unfold Decimal.Layout.render
    rw [hnan, hfinite]
    simp only [Bool.not_true, Bool.false_eq_true, if_false, String.toList_ofList]
    split
    · exact .inr rfl
    · exact .inl rfl

/-- A finite number is not written as `null`. -/
theorem compact_ne_null (h : n.isFinite) : n.compact ≠ "null" := by
  intro hnull
  obtain ⟨text, ⟨c, rest, rfl, hc⟩, htext⟩ := compact_head h
  rw [hnull] at htext
  rcases htext with htext | htext
  · obtain rfl := (List.cons.inj htext).1
    exact absurd hc (by decide)
  · exact absurd (List.cons.inj htext).1 (by decide)

end Number

end HostScript
