import FragmentAssembly.Proofs.Text.Numeral

/-!
# The grammar of numerals

Which texts are numerals, and where the longest one at the beginning of a text ends.  A mark of an
exponent behind the digits belongs to the numeral, so without digits of its own there is none.
-/

namespace FragmentAssembly

namespace Numeral

/-- The parts of the numeral consist of the characters that can stand there, and it has a digit
besides those of its exponent. -/
structure IsWellFormed (n : Numeral) : Prop where
  sign : n.sign.all isSign = true
  whole : n.whole.all Char.isDigit = true
  fraction : ∀ digits, n.fraction = some digits → digits.all Char.isDigit = true
  nonempty : n.whole ≠ [] ∨ ∃ digits, n.fraction = some digits ∧ digits ≠ []
  exponent : ∀ e, n.exponent = some e → e.IsRegular

def isExponentMark (c : Char) : Bool :=
  c = 'e' || c = 'E'

/-- A character that makes the numeral longer: a digit, a mark of an exponent if it has none, and a
point if it has none and no exponent either. -/
def goesOnWith (n : Numeral) (c : Char) : Bool :=
  c.isDigit || n.exponent.isNone && (isExponentMark c || n.fraction.isNone && c = '.')

/-- The longest numeral ends in front of `rest`. -/
def EndsBefore (n : Numeral) (rest : List Char) : Prop :=
  rest.head?.all (!n.goesOnWith ·) = true

/-! ## Parts -/

theorem takeSign_iff {cs after : List Char} {sign : Option Char} :
    takeSign cs = (sign, after) ↔
      sign.all isSign = true ∧ cs = sign.toList ++ after ∧
        (sign = none → after.head?.all (!isSign ·) = true) := by
  constructor
  · intro h
    cases cs with
    | nil =>
      cases h
      exact ⟨rfl, rfl, fun _ => rfl⟩
    | cons c cs =>
      rw [takeSign] at h
      split at h
      · rename_i hsign
        cases h
        exact ⟨hsign, rfl, fun hnone => absurd hnone (Option.some_ne_none c)⟩
      · rename_i hsign
        cases h
        refine ⟨rfl, rfl, fun _ => ?_⟩
        rw [List.head?_cons, Option.all_some, Bool.not_eq_true', isSign]
        exact Bool.eq_false_iff.mpr hsign
  · rintro ⟨hsign, rfl, hnone⟩
    cases sign with
    | none => exact takeSign_append rfl (hnone rfl)
    | some c =>
      have hc : (decide (c = '+') || decide (c = '-')) = true := hsign
      rw [Option.toList_some, List.singleton_append, takeSign, if_pos hc]

/-- The digits are those up to the first other character, with at most one point among them. -/
theorem takeDigits?_iff {cs whole after : List Char} {fraction : Option (List Char)} :
    takeDigits? cs = some (whole, fraction, after) ↔
      whole.all Char.isDigit = true ∧
        (∀ digits, fraction = some digits → digits.all Char.isDigit = true) ∧
        (whole ≠ [] ∨ ∃ digits, fraction = some digits ∧ digits ≠ []) ∧
        cs = whole ++ (fractionChars fraction ++ after) ∧
        after.head?.all (!Char.isDigit ·) = true ∧
        (fraction = none → ∀ more, after ≠ '.' :: more) := by
  constructor
  · intro h
    have htext := takeDigits?_eq h
    -- a point is taken even where no digits are behind it
    by_cases hpoint : ∃ more, cs.dropWhile Char.isDigit = '.' :: more
    · obtain ⟨more, hmore⟩ := hpoint
      rw [takeDigits?_point hmore] at h
      split at h
      · cases h
      · rename_i hdigits
        cases h
        refine ⟨List.all_takeWhile, ?_, ?_, htext.symm, head_of_dropWhile _ _, nofun⟩
        · rintro _ ⟨⟩
          exact List.all_takeWhile
        · rw [Bool.and_eq_true, List.isEmpty_iff, List.isEmpty_iff, not_and] at hdigits
          by_cases hwhole : cs.takeWhile Char.isDigit = []
          · exact .inr ⟨_, rfl, hdigits hwhole⟩
          · exact .inl hwhole
    · rw [not_exists] at hpoint
      rw [takeDigits?_plain hpoint] at h
      split at h
      · cases h
      · rename_i hdigits
        cases h
        rw [List.isEmpty_iff] at hdigits
        exact ⟨List.all_takeWhile, nofun, .inl hdigits, htext.symm, head_of_dropWhile _ _,
          fun _ => hpoint⟩
  · rintro ⟨hwhole, hfraction, hnonempty, rfl, hafter, hpoint⟩
    cases fraction with
    | none =>
      have hne : whole ≠ [] := by
        rcases hnonempty with hne | ⟨_, hsome, -⟩
        · exact hne
        · cases hsome
      exact takeDigits?_append hwhole hne nofun hafter (hpoint rfl)
    | some digits =>
      have hdot : ('.' :: (digits ++ after)).head?.all (!Char.isDigit ·) = true := rfl
      have hdrop : (whole ++ '.' :: (digits ++ after)).dropWhile Char.isDigit =
          '.' :: (digits ++ after) := dropWhile_of_head hwhole hdot
      rw [fractionChars, List.cons_append, takeDigits?_point hdrop, takeWhile_of_head hwhole hdot,
        takeWhile_of_head (hfraction digits rfl) hafter,
        dropWhile_of_head (hfraction digits rfl) hafter]
      have hdigits : (whole.isEmpty && digits.isEmpty) = false := by
        rw [Bool.and_eq_false_iff, List.isEmpty_eq_false_iff, List.isEmpty_eq_false_iff]
        rcases hnonempty with hne | ⟨_, hsome, hne⟩
        · exact .inl hne
        · cases hsome
          exact .inr hne
      rw [hdigits, if_neg Bool.false_ne_true]

theorem takeExponent?_iff {cs : List Char} {exponent : Option ExponentPart} :
    takeExponent? cs = some exponent ↔
      (∀ e, exponent = some e → e.IsRegular) ∧ ∃ rest, cs = exponentChars exponent ++ rest ∧
        if exponent.isNone then rest.head?.all (!isExponentMark ·) = true
        else rest.head?.all (!Char.isDigit ·) = true := by
  -- from right to left the taken parts are given, so the reader can be run on them
  constructor
  · intro h
    cases cs with
    | nil =>
      cases h
      exact ⟨nofun, [], rfl, rfl⟩
    | cons c cs =>
      rw [takeExponent?] at h
      dsimp only at h
      split at h
      · rename_i hmark
        split at h
        · cases h
        · rename_i hdigits
          cases h
          obtain ⟨hsign, htext, -⟩ := takeSign_iff.mp
            (show takeSign cs = ((takeSign cs).1, (takeSign cs).2) from rfl)
          rw [Bool.or_eq_true, decide_eq_true_eq, decide_eq_true_eq] at hmark
          rw [List.isEmpty_iff] at hdigits
          refine ⟨?_, (takeSign cs).2.dropWhile Char.isDigit, ?_, head_of_dropWhile _ _⟩
          · rintro _ ⟨⟩
            exact ⟨hmark, hsign, List.all_takeWhile, hdigits⟩
          · rw [exponentChars, List.cons_append, List.append_assoc,
              List.takeWhile_append_dropWhile, ← htext]
      · -- no exponent is begun, so its letter does not stand here
        rename_i hmark
        cases h
        refine ⟨nofun, c :: cs, rfl, ?_⟩
        show Option.all (!isExponentMark ·) (some c) = true
        rw [Option.all_some, Bool.not_eq_true', isExponentMark]
        exact Bool.eq_false_iff.mpr hmark
  · rintro ⟨hregular, rest, rfl, hrest⟩
    cases exponent with
    | none =>
      cases rest with
      | nil => rfl
      | cons c rest =>
        have hmark : isExponentMark c = false := by simpa using hrest
        rw [exponentChars, List.nil_append, takeExponent?]
        exact if_neg (Bool.eq_false_iff.mp hmark)
    | some e =>
      obtain ⟨hmark, hsign, hdigits, hne⟩ := hregular e rfl
      have hmark' : (decide (e.mark = 'e') || decide (e.mark = 'E')) = true := by
        rw [Bool.or_eq_true, decide_eq_true_eq, decide_eq_true_eq]
        exact hmark
      have hempty : e.digits.isEmpty = false := List.isEmpty_eq_false_iff.mpr hne
      rw [exponentChars, List.cons_append, List.append_assoc, takeExponent?, if_pos hmark',
        takeSign_append hsign (head_of_digits hdigits hne)]
      simp only [takeWhile_of_head hdigits hrest, hempty, Bool.false_eq_true, if_false]

/-! ## The longest numeral -/

/-- What ends a numeral ends each of its parts. -/
theorem endsBefore_iff {n : Numeral} {rest : List Char} :
    n.EndsBefore rest ↔ rest.head?.all (!Char.isDigit ·) = true ∧
      (n.exponent = none → rest.head?.all (!isExponentMark ·) = true ∧
        (n.fraction = none → ∀ more, rest ≠ '.' :: more)) := by
  unfold EndsBefore
  cases rest with
  | nil => exact ⟨fun _ => ⟨rfl, fun _ => ⟨rfl, nofun⟩⟩, fun _ => rfl⟩
  | cons c rest =>
    have hpoint : (∀ more, c :: rest ≠ '.' :: more) ↔ c ≠ '.' :=
      ⟨fun h hc => h rest (by rw [hc]), fun h more hmore => h (List.cons.inj hmore).1⟩
    rw [hpoint]
    simp only [List.head?_cons, Option.all_some, goesOnWith, Bool.not_or, Bool.and_eq_true,
      Bool.not_eq_true', Bool.and_eq_false_iff, Bool.or_eq_false_iff, decide_eq_false_iff_not]
    cases n.exponent <;> cases n.fraction <;> simp

theorem head_not_isSign {whole rest : List Char} {fraction : Option (List Char)}
    (hwhole : whole.all Char.isDigit = true)
    (hnonempty : whole ≠ [] ∨ ∃ digits, fraction = some digits ∧ digits ≠ []) :
    (whole ++ (fractionChars fraction ++ rest)).head?.all (!isSign ·) = true := by
  by_cases hne : whole = []
  · rcases hnonempty with hnot | ⟨digits, rfl, -⟩
    · exact absurd hne hnot
    · rw [hne]
      rfl
  · exact head_of_digits hwhole hne

/-- An exponent begins with a letter, which is no digit and no point. -/
theorem head_exponentChars {e : ExponentPart} (h : e.IsRegular) (rest : List Char) :
    (exponentChars (some e) ++ rest).head?.all (!Char.isDigit ·) = true ∧
      ∀ more, exponentChars (some e) ++ rest ≠ '.' :: more := by
  rw [exponentChars]
  rcases h.mark with hmark | hmark <;> rw [hmark] <;>
    exact ⟨rfl, fun more heq => absurd (List.cons.inj heq).1 (by decide)⟩

/-- A numeral is read part by part. -/
theorem ofChars?_eq_some {cs : List Char} {n : Numeral} :
    ofChars? cs = some n ↔ ∃ unsigned after, takeSign cs = (n.sign, unsigned) ∧
      takeDigits? unsigned = some (n.whole, n.fraction, after) ∧
      takeExponent? after = some n.exponent := by
  unfold ofChars?
  simp only [Option.bind_eq_bind, Option.bind_eq_some_iff, Option.pure_def, Option.some.injEq]
  constructor
  · rintro ⟨⟨w, f, after⟩, hdigits, e, hexponent, rfl⟩
    exact ⟨_, after, rfl, hdigits, hexponent⟩
  · rintro ⟨unsigned, after, hsign, hdigits, hexponent⟩
    rw [hsign]
    exact ⟨_, hdigits, _, hexponent, rfl⟩

/-- A numeral is read exactly if it is well formed and the longest one in front. -/
theorem ofChars?_iff {cs : List Char} {n : Numeral} :
    ofChars? cs = some n ↔
      n.IsWellFormed ∧ ∃ rest, cs = n.chars ++ rest ∧ n.EndsBefore rest := by
  rw [ofChars?_eq_some]
  -- the three parts follow each other, and each ends where the next one can begin
  constructor
  · rintro ⟨unsigned, after, hsign, hdigits, hexponent⟩
    obtain ⟨hsigns, rfl, -⟩ := takeSign_iff.mp hsign
    obtain ⟨hwhole, hfraction, hnonempty, rfl, hafter, hpoint⟩ := takeDigits?_iff.mp hdigits
    obtain ⟨hregular, rest, rfl, hrest⟩ := takeExponent?_iff.mp hexponent
    refine ⟨⟨hsigns, hwhole, hfraction, hnonempty, hregular⟩, rest, ?_, endsBefore_iff.mpr ?_⟩
    · rw [chars_eq, List.append_assoc, List.append_assoc, List.append_assoc]
    · cases hnone : n.exponent with
      | some e =>
        rw [hnone] at hrest
        exact ⟨hrest, nofun⟩
      | none =>
        rw [hnone] at hrest hafter hpoint
        exact ⟨hafter, fun _ => ⟨hrest, hpoint⟩⟩
  · rintro ⟨hwell, rest, rfl, hends⟩
    obtain ⟨hdigit, hnone⟩ := endsBefore_iff.mp hends
    refine ⟨n.whole ++ (fractionChars n.fraction ++ (exponentChars n.exponent ++ rest)),
      exponentChars n.exponent ++ rest, takeSign_iff.mpr ⟨hwell.sign, ?_, fun _ => ?_⟩,
      takeDigits?_iff.mpr ⟨hwell.whole, hwell.fraction, hwell.nonempty, rfl, ?_, ?_⟩,
      takeExponent?_iff.mpr ⟨hwell.exponent, rest, rfl, ?_⟩⟩
    · rw [chars_eq, List.append_assoc, List.append_assoc, List.append_assoc]
    · exact head_not_isSign hwell.whole hwell.nonempty
    · cases hexponent : n.exponent with
      | none => exact hdigit
      | some e => exact (head_exponentChars (hwell.exponent e hexponent) rest).1
    · intro hfraction
      cases hexponent : n.exponent with
      | none => exact (hnone hexponent).2 hfraction
      | some e => exact (head_exponentChars (hwell.exponent e hexponent) rest).2
    · cases hexponent : n.exponent with
      | none => exact (hnone hexponent).1
      | some e => exact hdigit

/-- A numeral is read where the text is cut off behind it. -/
theorem ofChars?_of_append {cs more : List Char} {n : Numeral} (h : ofChars? (cs ++ more) = some n)
    (hle : n.chars.length ≤ cs.length) : ofChars? cs = some n := by
  obtain ⟨hwell, rest, htext, hends⟩ := ofChars?_iff.mp h
  obtain ⟨behind, rfl⟩ : n.chars <+: cs :=
    List.prefix_of_prefix_length_le ⟨rest, htext.symm⟩ (List.prefix_append cs more) hle
  rw [List.append_assoc] at htext
  obtain rfl := List.append_cancel_left htext
  refine ofChars?_iff.mpr ⟨hwell, behind, rfl, ?_⟩
  cases behind with
  | nil => rfl
  | cons c behind => exact hends

end Numeral

end FragmentAssembly
