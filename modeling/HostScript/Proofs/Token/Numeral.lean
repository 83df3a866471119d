import Mathlib
import HostScript.Token.Lexer

/-!
# Numerals

The texts of numbers. `IsNumeral` says what they consist of and that they have a value. The reader of numbers, `splitNumber`, reads
a numeral back in front of everything that does not extend it, and what it reads is a numeral if it has a value.
-/

namespace HostScript.Lexer

/-- A whole part of a number: a zero, or digits that do not begin with one. -/
inductive IsWhole : List Char → Prop
  | zero : IsWhole ['0']
  | digits {c : Char} {rest : List Char} (hc : c.isDigit) (hzero : c ≠ '0') (h : ∀ d ∈ rest, d.isDigit) : IsWhole (c :: rest)

/-- A fraction of a number: nothing, or a point and digits. -/
inductive IsFraction : List Char → Prop
  | none : IsFraction []
  | digits {ds : List Char} (hne : ds ≠ []) (h : ∀ d ∈ ds, d.isDigit) : IsFraction ('.' :: ds)

/-- An exponent of a number: nothing, or a mark, a sign and digits. -/
inductive IsExponent : List Char → Prop
  | none : IsExponent []
  | digits {mark : Char} {sign ds : List Char} (hm : mark = 'e' ∨ mark = 'E') (hs : sign = [] ∨ sign = ['+'] ∨ sign = ['-'])
    (hne : ds ≠ []) (h : ∀ d ∈ ds, d.isDigit) : IsExponent (mark :: sign ++ ds)

/-- The text of a number that can be read. -/
structure IsNumeral (text : List Char) : Prop where
  parts : ∃ whole fraction exponent, text = whole ++ fraction ++ exponent ∧ IsWhole whole ∧ IsFraction fraction ∧ IsExponent exponent
  value : (Number.ofText? (String.ofList text)).isSome

/-- What is checked of the members of a list one by one holds of all of them. -/
theorem forall_mem_of_all {α : Type} {p : α → Prop} [DecidablePred p] {list : List α} (h : list.all fun a => decide (p a)) :
    ∀ a ∈ list, p a := fun a ha => of_decide_eq_true (List.all_eq_true.mp h a ha)

/-! ## Digits -/

/-- What satisfies a condition is taken up to the first character that does not. -/
theorem takeWhile_exact {p : Char → Bool} {inside rest : List Char} (h : ∀ c ∈ inside, p c)
    (hrest : ∀ d, rest.head? = some d → p d = false) : (inside ++ rest).takeWhile p = inside := by
  rw [List.takeWhile_append_of_pos h]
  cases rest with
  | nil => simp
  | cons d rest => simp [hrest d rfl]

/-- What satisfies a condition is dropped up to the first character that does not. -/
theorem dropWhile_exact {p : Char → Bool} {inside rest : List Char} (h : ∀ c ∈ inside, p c)
    (hrest : ∀ d, rest.head? = some d → p d = false) : (inside ++ rest).dropWhile p = rest := by
  rw [List.dropWhile_append_of_pos h]
  cases rest with
  | nil => rfl
  | cons d rest => simp [hrest d rfl]

/-- Behind what is dropped stands a character that does not satisfy the condition. -/
theorem head_dropWhile {p : Char → Bool} {text : List Char} : ∀ d, (text.dropWhile p).head? = some d → p d = false := by
  intro d hd
  induction text with
  | nil => nomatch hd
  | cons c text ih =>
    rw [List.dropWhile_cons] at hd
    split at hd
    · exact ih hd
    · rename_i hc
      obtain rfl := Option.some.inj hd
      simpa using hc

/-- Digits are read up to the first character that is none. -/
theorem splitDigits_exact {digits rest : List Char} (h : ∀ c ∈ digits, c.isDigit)
    (hrest : ∀ d, rest.head? = some d → d.isDigit = false) : splitDigits (digits ++ rest) = (digits, rest) := by
  unfold splitDigits
  rw [takeWhile_exact h hrest, dropWhile_exact h hrest]

/-- Digits that are split off are all that there are. -/
theorem splitDigits_ok (text : List Char) :
    ∃ digits rest, splitDigits text = (digits, rest) ∧ text = digits ++ rest ∧ (∀ c ∈ digits, c.isDigit) ∧
      ∀ d, rest.head? = some d → d.isDigit = false :=
  ⟨_, _, rfl, List.takeWhile_append_dropWhile.symm, fun _ hc => List.mem_takeWhile_imp hc, head_dropWhile⟩

/-! ## Numbers -/

/-- A whole part begins with a digit and consists of digits. -/
theorem IsWhole.cons {whole : List Char} (h : IsWhole whole) : ∃ c rest, whole = c :: rest ∧ ∀ d ∈ whole, d.isDigit := by
  cases h with
  | zero => exact ⟨'0', [], rfl, forall_mem_of_all rfl⟩
  | digits hc _ h => exact ⟨_, _, rfl, List.forall_mem_cons.mpr ⟨hc, h⟩⟩

/-- What follows the digits of a number is no digit: a point, the mark of an exponent, or what stands behind the number. -/
theorem IsFraction.head {fraction rest : List Char} (h : IsFraction fraction) (hrest : ∀ d, rest.head? = some d → d.isDigit = false) :
    ∀ d, (fraction ++ rest).head? = some d → d.isDigit = false := by
  cases h with
  | none => exact hrest
  | digits =>
    intro d hd
    obtain rfl := Option.some.inj hd
    decide

/-- Behind the fraction no digit and no point stands, whether an exponent follows or not. -/
theorem IsExponent.head {exponent rest : List Char} (h : IsExponent exponent)
    (hrest : ∀ d, rest.head? = some d → extendsNumber d = false) :
    ∀ d, (exponent ++ rest).head? = some d → d.isDigit = false ∧ d ≠ '.' := by
  intro d hd
  cases h with
  | none =>
    have := hrest d hd
    constructor
    · cases hdigit : d.isDigit with
      | false => rfl
      | true => simp [extendsNumber, Char.isAlphanum, hdigit] at this
    · rintro rfl
      nomatch this
  | digits hm =>
    obtain rfl := Option.some.inj hd
    rcases hm with rfl | rfl <;> decide

/-- A whole part is read to its end. -/
theorem splitWhole_exact {whole rest : List Char} (h : IsWhole whole)
    (hrest : ∀ d, rest.head? = some d → d.isDigit = false) : splitWhole (whole ++ rest) = (whole, rest) := by
  cases h with
  | zero => rfl
  | digits hc hzero h =>
    have hdigits := splitDigits_exact (List.forall_mem_cons.mpr ⟨hc, h⟩) hrest
    rw [List.cons_append] at hdigits ⊢
    unfold splitWhole
    split
    · rename_i heq
      exact absurd (List.cons.inj heq).1 hzero
    · exact hdigits

/-- A fraction is read to its end. -/
theorem splitFraction_exact {fraction rest : List Char} (h : IsFraction fraction)
    (hrest : ∀ d, rest.head? = some d → d.isDigit = false ∧ d ≠ '.') : splitFraction (fraction ++ rest) = (fraction, rest) := by
  cases h with
  | none =>
    rw [List.nil_append]
    unfold splitFraction
    split
    · exact absurd rfl (hrest '.' rfl).2
    · rfl
  | @digits ds hne h =>
    have hsplit := splitDigits_exact h fun d hd => (hrest d hd).1
    simp only [splitFraction, List.cons_append, hsplit]
    rw [if_neg (by simpa using hne)]

/-- An exponent is read to its end. -/
theorem splitExponent_exact {exponent rest : List Char} (h : IsExponent exponent)
    (hrest : ∀ d, rest.head? = some d → extendsNumber d = false) : splitExponent (exponent ++ rest) = (exponent, rest) := by
  have hdigit : ∀ d, rest.head? = some d → d.isDigit = false := fun d hd => (IsExponent.none.head hrest d hd).1
  cases h with
  | none =>
    rw [List.nil_append]
    unfold splitExponent
    split
    · rfl
    · rename_i c more
      have := hrest c rfl
      rw [if_neg]
      intro hmark
      rcases (Bool.or_eq_true _ _).mp hmark with hc | hc <;>
      · obtain rfl := beq_iff_eq.mp hc
        nomatch this
  | @digits mark sign ds hm hs hne h =>
    have hmark : (mark == 'e' || mark == 'E') = true := by rcases hm with rfl | rfl <;> rfl
    have hsplit := splitDigits_exact h hdigit
    rcases hs with rfl | rfl | rfl
    · cases ds with
      | nil => exact absurd rfl hne
      | cons c ds =>
        have hc : c.isDigit := h c List.mem_cons_self
        have hplus : c ≠ '+' := by
          rintro rfl
          nomatch hc
        have hminus : c ≠ '-' := by
          rintro rfl
          nomatch hc
        simp only [splitExponent, List.cons_append, List.nil_append, hmark, if_true] at hsplit ⊢
        split
        · rename_i heq
          exact absurd (List.cons.inj heq).1 hplus
        · rename_i heq
          exact absurd (List.cons.inj heq).1 hminus
        · simp only [hsplit, List.nil_append]
    · simp only [splitExponent, List.cons_append, List.nil_append, hmark, if_true, hsplit]
    · simp only [splitExponent, List.cons_append, List.nil_append, hmark, if_true, hsplit]

/-- A number is read back, if what follows does not extend it. -/
theorem splitNumber_exact {text rest : List Char} (h : IsNumeral text)
    (hrest : ∀ d, rest.head? = some d → extendsNumber d = false) : splitNumber (text ++ rest) = (text, rest) := by
  obtain ⟨whole, fraction, exponent, rfl, hw, hf, he⟩ := h.parts
  have hexponent := he.head hrest
  have hfraction := hf.head fun d hd => (hexponent d hd).1
  unfold splitNumber
  rw [List.append_assoc, List.append_assoc, splitWhole_exact hw hfraction]
  dsimp only
  rw [splitFraction_exact hf hexponent]
  dsimp only
  rw [splitExponent_exact he hrest]

/-! ### What a number consists of -/

/-- What is read as a whole part is one. -/
theorem splitWhole_ok {c : Char} (text : List Char) (hc : c.isDigit) :
    ∃ whole rest, splitWhole (c :: text) = (whole, rest) ∧ c :: text = whole ++ rest ∧ IsWhole whole := by
  unfold splitWhole
  split
  · rename_i rest heq
    obtain ⟨rfl, rfl⟩ := List.cons.inj heq
    exact ⟨['0'], text, rfl, rfl, .zero⟩
  · rename_i hzero
    obtain ⟨digits, rest, hsplit, htext, hdigits, hrest⟩ := splitDigits_ok (c :: text)
    refine ⟨digits, rest, hsplit, htext, ?_⟩
    cases digits with
    | nil =>
      have := hrest c (by rw [List.nil_append] at htext; rw [← htext]; rfl)
      rw [hc] at this
      nomatch this
    | cons d digits =>
      obtain ⟨rfl, -⟩ := List.cons.inj htext
      exact .digits hc (fun h => hzero text (by rw [h])) (List.forall_mem_cons.mp hdigits).2

/-- What is read as a fraction is one. -/
theorem splitFraction_ok (text : List Char) :
    ∃ fraction rest, splitFraction text = (fraction, rest) ∧ text = fraction ++ rest ∧ IsFraction fraction := by
  unfold splitFraction
  split
  · rename_i after
    obtain ⟨digits, rest, hsplit, htext, hdigits, -⟩ := splitDigits_ok after
    simp only [hsplit]
    split
    · exact ⟨[], _, rfl, rfl, .none⟩
    · rename_i hne
      exact ⟨'.' :: digits, rest, rfl, by rw [htext, List.cons_append], .digits (by simpa using hne) hdigits⟩
  · exact ⟨[], text, rfl, rfl, .none⟩

/-- An exponent that is split off may lack its digits. -/
theorem splitExponent_ok (text : List Char) :
    ∃ exponent rest, splitExponent text = (exponent, rest) ∧ text = exponent ++ rest ∧
      (IsExponent exponent ∨ ∃ mark sign, exponent = mark :: sign ∧ (mark = 'e' ∨ mark = 'E') ∧
        (sign = [] ∨ sign = ['+'] ∨ sign = ['-'])) := by
  cases text with
  | nil => exact ⟨[], [], rfl, rfl, .inl .none⟩
  | cons mark text =>
    by_cases hmark : (mark == 'e' || mark == 'E') = true
    · have hm : mark = 'e' ∨ mark = 'E' := by simpa using hmark
      have hsign : ∃ sign after, (sign = [] ∨ sign = ['+'] ∨ sign = ['-']) ∧ text = sign ++ after ∧
          splitExponent (mark :: text) = (mark :: sign ++ (splitDigits after).1, (splitDigits after).2) := by
        simp only [splitExponent, hmark, if_true]
        split
        · exact ⟨['+'], _, .inr (.inl rfl), rfl, rfl⟩
        · exact ⟨['-'], _, .inr (.inr rfl), rfl, rfl⟩
        · exact ⟨[], text, .inl rfl, rfl, rfl⟩
      obtain ⟨sign, after, hs, rfl, hsplit⟩ := hsign
      obtain ⟨digits, rest, hdigits, rfl, hall, -⟩ := splitDigits_ok after
      rw [hdigits] at hsplit
      refine ⟨_, _, hsplit, by simp, ?_⟩
      by_cases hne : digits = []
      · right
        exact ⟨mark, sign, by simp [hne], hm, hs⟩
      · left
        exact .digits hm hs hne hall
    · refine ⟨[], mark :: text, ?_, rfl, .inl .none⟩
      simp only [splitExponent]
      rw [if_neg hmark]

/-- A number without digits in its exponent has no value. -/
theorem ofText_exponent {whole fraction sign : List Char} {mark : Char} (hw : IsWhole whole) (hf : IsFraction fraction)
    (hm : mark = 'e' ∨ mark = 'E') (hs : sign = [] ∨ sign = ['+'] ∨ sign = ['-']) :
    Number.ofText? (String.ofList (whole ++ fraction ++ mark :: sign)) = none := by
  obtain ⟨c, rest, hwhole, hdigits⟩ := hw.cons
  have hmark : mark.isDigit = false ∧ mark ≠ '.' := by rcases hm with rfl | rfl <;> decide
  have hafter : ∀ d, (mark :: sign).head? = some d → d.isDigit = false := by
    intro d hd
    obtain rfl := Option.some.inj hd
    exact hmark.1
  have hsplit : Number.splitSign (whole ++ fraction ++ mark :: sign) = (false, whole ++ fraction ++ mark :: sign) := by
    have hc : c.isDigit := hdigits c (by rw [hwhole]; exact List.mem_cons_self)
    rw [hwhole]
    unfold Number.splitSign
    split
    · rename_i heq
      obtain ⟨rfl, -⟩ := List.cons.inj heq
      nomatch hc
    · rename_i heq
      obtain ⟨rfl, -⟩ := List.cons.inj heq
      nomatch hc
    · rfl
  have hinteger : Number.integerOfChars? false (whole ++ fraction ++ mark :: sign) = none := by
    unfold Number.integerOfChars?
    rw [if_neg]
    simp [hmark.1]
  have hexponent : Decimal.exponentOfChars? (mark :: sign) = none := by
    unfold Decimal.exponentOfChars?
    rcases hs with rfl | rfl | rfl <;> simp
  have hdecimal : Decimal.ofChars? (whole ++ fraction ++ mark :: sign) = none := by
    unfold Decimal.ofChars?
    have hhead := hf.head hafter
    rw [List.append_assoc, takeWhile_exact hdigits hhead, dropWhile_exact hdigits hhead]
    cases hf with
    | none =>
      split
      rename_i heq
      split at heq
      · rename_i htext
        exact absurd (List.cons.inj htext).1 hmark.2
      · obtain ⟨rfl, rfl⟩ := Prod.mk.inj heq
        simp [hexponent]
    | digits hne hds => simp [takeWhile_exact hds hafter, dropWhile_exact hds hafter, hexponent]
  unfold Number.ofText?
  rw [String.toList_ofList, hsplit]
  simp only [hinteger, hdecimal]

/-- A number that is split off and has a value is a numeral. -/
theorem splitNumber_ok {c : Char} (text : List Char) (hc : c.isDigit) :
    ∃ literal rest, splitNumber (c :: text) = (literal, rest) ∧ c :: text = literal ++ rest ∧
      ((Number.ofText? (String.ofList literal)).isSome → IsNumeral literal) := by
  obtain ⟨whole, afterWhole, hwhole, htext, hw⟩ := splitWhole_ok text hc
  obtain ⟨fraction, afterFraction, hfraction, rfl, hf⟩ := splitFraction_ok afterWhole
  obtain ⟨exponent, rest, hexponent, rfl, he⟩ := splitExponent_ok afterFraction
  refine ⟨whole ++ fraction ++ exponent, rest, ?_, ?_, fun hvalue => ?_⟩
  · unfold splitNumber
    simp only [hwhole, hfraction, hexponent]
  · rw [htext, List.append_assoc, List.append_assoc]
  · rcases he with he | ⟨mark, sign, rfl, hm, hs⟩
    · exact ⟨⟨whole, fraction, exponent, rfl, hw, hf, he⟩, hvalue⟩
    · rw [ofText_exponent hw hf hm hs] at hvalue
      nomatch hvalue

end HostScript.Lexer
