import FragmentAssembly.Binary32.Text
import FragmentAssembly.Proofs.Binary32.Shortest
import FragmentAssembly.Proofs.Text.Numeral

/-!
# The text of a number reads back

Finite numbers are written as numerals that denote them again, bit by bit.  The texts of the other
numbers are no numerals.
-/

namespace FragmentAssembly

/-! ## Digits -/

theorem all_isDigit_toDigits (n : Nat) : (Nat.toDigits 10 n).all Char.isDigit = true :=
  List.all_eq_true.mpr fun _ hc => Nat.isDigit_of_mem_toDigits (by decide) (by decide) hc

theorem all_isDigit_zeros (n : Nat) : (List.replicate n '0').all Char.isDigit = true := by
  rw [List.all_replicate]
  split <;> rfl

theorem toList_zeros (n : Int) : (NumeralStyle.zeros n).toList = List.replicate n.toNat '0' :=
  String.toList_ofList

/-- The text of an integer is an exponent behind its mark. -/
theorem exists_exponentPart (n : Int) : ∃ e : ExponentPart, e.IsRegular ∧ e.mark = 'e' ∧
    (toString n).toList = e.sign.toList ++ e.digits ∧
    (if e.sign = some '-' then -(Nat.ofDigitChars 10 e.digits 0 : Int)
      else Nat.ofDigitChars 10 e.digits 0) = n := by
  rw [Int.toString_eq_repr, Int.repr_eq_if]
  by_cases hsign : 0 ≤ n
  · refine ⟨⟨'e', none, Nat.toDigits 10 n.toNat⟩,
      ⟨.inl rfl, rfl, all_isDigit_toDigits _, Nat.toDigits_ne_nil⟩, rfl, ?_, ?_⟩
    · rw [if_pos hsign, Nat.toList_repr]
      rfl
    · rw [if_neg (by simp), Nat.ofDigitChars_ten_toDigits]
      omega
  · refine ⟨⟨'e', some '-', Nat.toDigits 10 (-n).toNat⟩,
      ⟨.inl rfl, rfl, all_isDigit_toDigits _, Nat.toDigits_ne_nil⟩, rfl, ?_, ?_⟩
    · rw [if_neg hsign, String.toList_append, Nat.toList_repr]
      rfl
    · rw [if_pos rfl, Nat.ofDigitChars_ten_toDigits]
      omega

/-! ## Unsigned texts -/

/-- A text is that of an unsigned numeral, whose value is `digits * 10 ^ exponent` with zeros
moved from the exponent into the digits. -/
def Spells (text : String) (digits : Nat) (exponent : Int) : Prop :=
  ∃ n : Numeral, n.IsRegular ∧ n.sign = none ∧ text.toList = n.chars ∧
    ∃ count : Nat, n.value = ⟨false, digits * 10 ^ count, exponent - count⟩

namespace NumeralStyle

section Positional

variable {chars : List Char} {digits : Nat} {exponent : Int}

/-- Zeros stand between the point and the digits. -/
theorem spells_small (hall : chars.all Char.isDigit = true)
    (hdigits : Nat.ofDigitChars 10 chars 0 = digits) (hsmall : chars.length + exponent ≤ 0) :
    Spells (literal.positional chars (chars.length + exponent)) digits exponent := by
  unfold positional
  rw [if_pos hsmall]
  refine ⟨⟨none, ['0'], some (List.replicate (-(chars.length + exponent)).toNat '0' ++ chars),
    none⟩, ⟨rfl, rfl, List.cons_ne_nil _ _, ?_, nofun⟩, rfl, ?_, 0, ?_⟩
  · rintro _ ⟨rfl⟩
    rw [List.all_append, all_isDigit_zeros, hall]
    rfl
  · simp [Numeral.chars, toList_zeros]
  · have hzeros : Nat.ofDigitChars 10 ['0'] 0 = 0 := rfl
    simp only [Numeral.value, Numeral.exponentValue, Option.getD_some, Nat.ofDigitChars_append,
      hzeros, Nat.ofDigitChars_replicate_zero, Nat.mul_zero, hdigits, List.length_append,
      List.length_replicate, Decimal.mk.injEq]
    refine ⟨by simp, by simp, by omega⟩

/-- Zeros stand between the digits and the point. -/
theorem spells_great (hall : chars.all Char.isDigit = true)
    (hdigits : Nat.ofDigitChars 10 chars 0 = digits) (hne : chars ≠ []) (hgreat : 0 ≤ exponent) :
    Spells (literal.positional chars (chars.length + exponent)) digits exponent := by
  have hpos : 0 < chars.length := List.length_pos_iff.mpr hne
  have hcount : (chars.length + exponent - chars.length).toNat = exponent.toNat := by omega
  unfold positional
  rw [if_neg (by omega), if_pos (by omega)]
  refine ⟨⟨none, chars ++ List.replicate (chars.length + exponent - chars.length).toNat '0',
    some ['0'], none⟩, ⟨rfl, ?_, ?_, ?_, nofun⟩, rfl, ?_, exponent.toNat + 1, ?_⟩
  · rw [List.all_append, all_isDigit_zeros, hall]
    rfl
  · exact List.append_ne_nil_of_left_ne_nil hne _
  · rintro _ ⟨rfl⟩
    rfl
  · simp [Numeral.chars, toList_zeros, literal]
  · -- the zero behind the point is one more digit
    have hzero : ∀ init, Nat.ofDigitChars 10 ['0'] init = 10 ^ 1 * init := fun init => by
      rw [← Nat.ofDigitChars_replicate_zero]
      rfl
    simp only [Numeral.value, Numeral.exponentValue, Option.getD_some, Nat.ofDigitChars_append,
      hzero, Nat.ofDigitChars_replicate_zero, hdigits, hcount, List.length_singleton,
      Decimal.mk.injEq]
    refine ⟨by simp, by ring, by omega⟩

/-- The point stands between two digits. -/
theorem spells_inner (hall : chars.all Char.isDigit = true)
    (hdigits : Nat.ofDigitChars 10 chars 0 = digits) (hsome : 0 < chars.length + exponent)
    (hless : exponent < 0) :
    Spells (literal.positional chars (chars.length + exponent)) digits exponent := by
  unfold positional
  rw [if_neg (by omega), if_neg (by omega)]
  have hne : chars.take (chars.length + exponent).toNat ≠ [] := by
    apply List.ne_nil_of_length_pos
    rw [List.length_take]
    omega
  refine ⟨⟨none, chars.take (chars.length + exponent).toNat,
    some (chars.drop (chars.length + exponent).toNat), none⟩,
    ⟨rfl, ?_, hne, ?_, nofun⟩, rfl, ?_, 0, ?_⟩
  · exact List.all_eq_true.mpr fun c hc => List.all_eq_true.mp hall c (List.mem_of_mem_take hc)
  · rintro _ ⟨rfl⟩
    exact List.all_eq_true.mpr fun c hc => List.all_eq_true.mp hall c (List.mem_of_mem_drop hc)
  · simp [Numeral.chars]
  · simp only [Numeral.value, Numeral.exponentValue, Option.getD_some, List.take_append_drop,
      hdigits, List.length_drop, Decimal.mk.injEq]
    refine ⟨by simp, by simp, by omega⟩

end Positional

/-- Digits with a point among them. -/
theorem spells_positional (digits : Nat) (exponent : Int) :
    Spells (literal.positional (Nat.toDigits 10 digits)
      ((Nat.toDigits 10 digits).length + exponent)) digits exponent := by
  have hall := all_isDigit_toDigits digits
  have hdigits : Nat.ofDigitChars 10 (Nat.toDigits 10 digits) 0 = digits :=
    Nat.ofDigitChars_ten_toDigits
  by_cases hsmall : (Nat.toDigits 10 digits).length + exponent ≤ 0
  · exact spells_small hall hdigits hsmall
  · by_cases hgreat : 0 ≤ exponent
    · exact spells_great hall hdigits Nat.toDigits_ne_nil hgreat
    · exact spells_inner hall hdigits (by omega) (by omega)

/-- Digits with a point behind the first one, and an exponent. -/
theorem spells_exponential (digits : Nat) (exponent : Int) :
    Spells (exponential (Nat.toDigits 10 digits) ((Nat.toDigits 10 digits).length + exponent))
      digits exponent := by
  have hall := all_isDigit_toDigits digits
  have hdigits : Nat.ofDigitChars 10 (Nat.toDigits 10 digits) 0 = digits :=
    Nat.ofDigitChars_ten_toDigits
  have hne : Nat.toDigits 10 digits ≠ [] := Nat.toDigits_ne_nil
  generalize Nat.toDigits 10 digits = chars at hall hdigits hne ⊢
  obtain ⟨first, rest, rfl⟩ := List.exists_cons_of_ne_nil hne
  rw [List.all_cons, Bool.and_eq_true] at hall
  generalize hplace : ((first :: rest).length : Int) + exponent = place
  obtain ⟨e, he, hmark, htext, hvalue⟩ := exists_exponentPart (place - 1)
  rw [Int.toString_eq_repr] at htext
  have hwhole : [first].all Char.isDigit = true := by rw [List.all_cons, hall.1]; rfl
  have hexponent : ∀ e', some e = some e' → e'.IsRegular := by
    rintro _ ⟨rfl⟩
    exact he
  have hlength : (first :: rest).length = rest.length + 1 := rfl
  unfold exponential
  -- a single digit is written without a point
  by_cases hone : (first :: rest).length ≤ 1
  · obtain rfl : rest = [] := by
      rw [List.length_cons] at hone
      exact List.eq_nil_of_length_eq_zero (by omega)
    refine ⟨⟨none, [first], none, some e⟩, ⟨rfl, hwhole, List.cons_ne_nil _ _, nofun, hexponent⟩,
      rfl, ?_, 0, ?_⟩
    · simp [Numeral.chars, hmark, htext]
    · simp only [Numeral.value, Numeral.exponentValue, Option.getD_none, List.append_nil, hdigits,
        hvalue, Decimal.mk.injEq]
      refine ⟨by simp, by simp, by omega⟩
  · refine ⟨⟨none, [first], some rest, some e⟩, ⟨rfl, hwhole, List.cons_ne_nil _ _, ?_, hexponent⟩,
      rfl, ?_, 0, ?_⟩
    · rintro _ ⟨rfl⟩
      exact hall.2
    · rw [if_neg hone]
      simp [Numeral.chars, hmark, htext]
    · simp only [Numeral.value, Numeral.exponentValue, Option.getD_some, List.singleton_append,
        hdigits, hvalue, Decimal.mk.injEq]
      refine ⟨by simp, by simp, by omega⟩

theorem spells_unsigned (digits : Nat) (exponent : Int) :
    Spells (literal.unsigned digits exponent) digits (if digits = 0 then 0 else exponent) := by
  unfold unsigned
  by_cases hzero : digits = 0
  · subst hzero
    rw [if_pos rfl, if_pos rfl]
    refine ⟨⟨none, ['0'], some ['0'], none⟩, ⟨rfl, rfl, List.cons_ne_nil _ _, ?_, nofun⟩, rfl, rfl,
      1, rfl⟩
    rintro _ ⟨rfl⟩
    rfl
  · rw [if_neg hzero, if_neg hzero]
    dsimp only
    split
    · exact spells_positional digits exponent
    · exact spells_exponential digits exponent

end NumeralStyle

/-! ## Numbers -/

namespace Binary32

/-- Reading the decimal gives the number back, also with zeros behind its digits. -/
theorem ofDecimal_shortest {a : Binary32} (hfinite : a.isFinite = true) (count : Nat) :
    ofDecimal ⟨a.isNegative, a.shortest.digits * 10 ^ count,
      (if a.shortest.digits = 0 then 0 else a.shortest.exponent) - count⟩ = a := by
  rw [isFinite, decide_eq_true_eq] at hfinite
  rcases Nat.eq_zero_or_pos a.magnitude with hzero | hpos
  · have hshortest : a.shortest.digits = 0 := by
      rw [shortest, if_pos (show a.isZero = true by rw [isZero, decide_eq_true_eq, hzero])]
    have hsame : ofMagnitude a.isNegative 0 = a := by rw [← hzero, ofMagnitude_view]
    rw [hshortest, Nat.zero_mul, ofDecimal, if_pos rfl]
    exact hsame
  · have hnear := isNear_shortest hpos
    rw [if_neg (digits_ne_zero_of_isNear hpos hnear),
      ofDecimal_eq hpos hfinite ((isNear_mul_pow count).mpr hnear), ofMagnitude_view]

/-- A finite number is written as a numeral that denotes it. -/
theorem exists_numeral {a : Binary32} (hfinite : a.isFinite = true) :
    ∃ n : Numeral, n.IsRegular ∧ (a.text .literal).toList = n.chars ∧ ofNumeral n = a := by
  have hmagnitude : a.magnitude < infinityMagnitude := by
    rw [isFinite, decide_eq_true_eq] at hfinite
    exact hfinite
  have hnumber : ¬a.isNaN = true := by
    rw [isNaN, decide_eq_true_eq]
    omega
  have hbounded : ¬a.isInfinite = true := by
    rw [isInfinite, decide_eq_true_eq]
    omega
  -- the sign goes in front of the numeral of the magnitude
  obtain ⟨n, hregular, hsign, htext, count, hvalue⟩ :=
    NumeralStyle.spells_unsigned a.shortest.digits a.shortest.exponent
  have hread := ofDecimal_shortest hfinite count
  unfold text
  rw [if_neg hnumber, if_neg hbounded]
  dsimp only
  cases hnegative : a.isNegative with
  | false =>
    rw [hnegative] at hread
    refine ⟨n, hregular, ?_, ?_⟩
    · rw [if_neg Bool.false_ne_true, String.toList_append, htext]
      rfl
    · rw [ofNumeral, hvalue]
      exact hread
  | true =>
    rw [hnegative] at hread
    refine ⟨{ n with sign := some '-' }, { hregular with sign := rfl }, ?_, ?_⟩
    · rw [if_pos rfl, String.toList_append, htext, Numeral.chars, Numeral.chars, hsign]
      rfl
    · have hsigned : { n with sign := some '-' : Numeral }.value =
          { n.value with negative := true } := rfl
      rw [ofNumeral, hsigned, hvalue]
      exact hread

/-- The texts of infinities and of NaNs are no numerals. -/
theorem ofChars?_of_not_isFinite {a : Binary32} (h : a.isFinite = false) (rest : List Char) :
    Numeral.ofChars? ((a.text .literal).toList ++ rest) = none := by
  unfold text
  by_cases hnumber : a.isNaN = true
  · rw [if_pos hnumber]
    rfl
  · have hinfinite : a.isInfinite = true := by
      rw [isFinite, decide_eq_false_iff_not] at h
      rw [isNaN, decide_eq_true_eq] at hnumber
      rw [isInfinite, decide_eq_true_eq]
      omega
    rw [if_neg hnumber, if_pos hinfinite]
    cases a.isNegative <;> rfl

end Binary32

end FragmentAssembly
