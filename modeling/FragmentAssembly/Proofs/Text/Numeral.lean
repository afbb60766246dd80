import FragmentAssembly.Text.Numeral

/-!
# Numerals read back

The characters of a numeral are read as this numeral, if what follows them cannot belong to it.
-/

namespace FragmentAssembly

/-! ## The longest beginning with a property -/

/-- The longest beginning of characters with a property ends where the first one without it is. -/
theorem takeWhile_of_head {p : Char → Bool} {cs rest : List Char} (hcs : cs.all p = true)
    (hrest : rest.head?.all (!p ·) = true) : (cs ++ rest).takeWhile p = cs := by
  have hall : ∀ c ∈ cs, p c = true := List.all_eq_true.mp hcs
  rw [List.takeWhile_append_of_pos hall]
  cases rest with
  | nil => exact List.append_nil cs
  | cons c rest =>
    have hc : p c = false := by simpa using hrest
    rw [List.takeWhile_cons_of_neg (Bool.eq_false_iff.mp hc), List.append_nil]

theorem dropWhile_of_head {p : Char → Bool} {cs rest : List Char} (hcs : cs.all p = true)
    (hrest : rest.head?.all (!p ·) = true) : (cs ++ rest).dropWhile p = rest := by
  have hall : ∀ c ∈ cs, p c = true := List.all_eq_true.mp hcs
  rw [List.dropWhile_append_of_pos hall]
  cases rest with
  | nil => rfl
  | cons c rest =>
    have hc : p c = false := by simpa using hrest
    exact List.dropWhile_cons_of_neg (Bool.eq_false_iff.mp hc)

theorem head_of_dropWhile (p : Char → Bool) (cs : List Char) :
    (cs.dropWhile p).head?.all (!p ·) = true := by
  have hhead := List.head?_dropWhile_not p cs
  cases hdrop : cs.dropWhile p with
  | nil => rfl
  | cons c rest =>
    rw [hdrop] at hhead
    simpa using hhead

/-! ## Regular numerals -/

def isSign (c : Char) : Bool :=
  c = '+' || c = '-'

structure ExponentPart.IsRegular (e : ExponentPart) : Prop where
  mark : e.mark = 'e' ∨ e.mark = 'E'
  sign : e.sign.all isSign = true
  digits : e.digits.all Char.isDigit = true
  nonempty : e.digits ≠ []

/-- The parts of the numeral consist of the characters that can stand there, and there is a digit
in front of the point. -/
structure Numeral.IsRegular (n : Numeral) : Prop where
  sign : n.sign.all isSign = true
  whole : n.whole.all Char.isDigit = true
  nonempty : n.whole ≠ []
  fraction : ∀ digits, n.fraction = some digits → digits.all Char.isDigit = true
  exponent : ∀ e, n.exponent = some e → e.IsRegular

namespace Numeral

/-- A character that a numeral can go on with. -/
def continues (c : Char) : Bool :=
  c.isDigit || c = '.' || c = 'e' || c = 'E'

theorem takeSign_append {sign : Option Char} {cs : List Char} (hsign : sign.all isSign = true)
    (hcs : cs.head?.all (!isSign ·) = true) : takeSign (sign.toList ++ cs) = (sign, cs) := by
  cases sign with
  | some c =>
    rw [Option.toList_some, List.singleton_append, takeSign]
    have hc : (decide (c = '+') || decide (c = '-')) = true := by simpa [isSign] using hsign
    rw [if_pos hc]
  | none =>
    rw [Option.toList_none, List.nil_append]
    cases cs with
    | nil => rfl
    | cons c cs =>
      have hc : (decide (c = '+') || decide (c = '-')) = false := by simpa [isSign] using hcs
      rw [takeSign, if_neg (Bool.eq_false_iff.mp hc)]

theorem isSign_of_isDigit {c : Char} (h : c.isDigit = true) : isSign c = false := by
  rw [isSign, Bool.or_eq_false_iff, decide_eq_false_iff_not, decide_eq_false_iff_not]
  constructor
  · rintro rfl
    exact absurd h (by decide)
  · rintro rfl
    exact absurd h (by decide)

/-- Digits do not begin with a sign. -/
theorem head_of_digits {cs rest : List Char} (hcs : cs.all Char.isDigit = true) (hne : cs ≠ []) :
    (cs ++ rest).head?.all (!isSign ·) = true := by
  obtain ⟨c, cs, rfl⟩ := List.exists_cons_of_ne_nil hne
  rw [List.all_cons, Bool.and_eq_true] at hcs
  rw [List.cons_append, List.head?_cons, Option.all_some, isSign_of_isDigit hcs.1]
  rfl

def fractionChars : Option (List Char) → List Char
  | none => []
  | some digits => '.' :: digits

def exponentChars : Option ExponentPart → List Char
  | none => []
  | some e => e.mark :: (e.sign.toList ++ e.digits)

theorem chars_eq (n : Numeral) :
    n.chars = n.sign.toList ++
      (n.whole ++ (fractionChars n.fraction ++ exponentChars n.exponent)) := by
  obtain ⟨sign, whole, fraction, exponent⟩ := n
  cases fraction <;> cases exponent <;> simp [chars, fractionChars, exponentChars]

/-- A point ends digits, and so does everything that a numeral does not go on with. -/
theorem head_not_isDigit {cs : List Char} (h : cs.head?.all (!continues ·) = true) :
    cs.head?.all (!Char.isDigit ·) = true := by
  cases cs with
  | nil => rfl
  | cons c cs =>
    simp only [List.head?_cons, Option.all_some, continues, Bool.not_or, Bool.and_eq_true] at h ⊢
    exact h.1.1.1

/-- The exponent is read from its characters. -/
theorem takeExponent?_append {exponent : Option ExponentPart} {rest : List Char}
    (h : ∀ e, exponent = some e → e.IsRegular) (hrest : rest.head?.all (!continues ·) = true) :
    takeExponent? (exponentChars exponent ++ rest) = some exponent := by
  cases exponent with
  | none =>
    rw [exponentChars, List.nil_append]
    cases rest with
    | nil => rfl
    | cons c rest =>
      simp only [List.head?_cons, Option.all_some, continues, Bool.not_or, Bool.and_eq_true,
        Bool.not_eq_true'] at hrest
      rw [takeExponent?, hrest.1.2, hrest.2]
      rfl
  | some e =>
    obtain ⟨hmark, hsign, hdigits, hne⟩ := h e rfl
    have hmark' : (decide (e.mark = 'e') || decide (e.mark = 'E')) = true := by
      rw [Bool.or_eq_true, decide_eq_true_eq, decide_eq_true_eq]
      exact hmark
    have hend := head_not_isDigit hrest
    have hempty : e.digits.isEmpty = false := List.isEmpty_eq_false_iff.mpr hne
    rw [exponentChars, List.cons_append, List.append_assoc, takeExponent?, if_pos hmark',
      takeSign_append hsign (head_of_digits hdigits hne)]
    simp only [takeWhile_of_head hdigits hend, hempty, Bool.false_eq_true, if_false]

/-- The digits are read from their characters, if neither a digit nor a point follows. -/
theorem takeDigits?_append {whole : List Char} {fraction : Option (List Char)} {rest : List Char}
    (hwhole : whole.all Char.isDigit = true) (hne : whole ≠ [])
    (hfraction : ∀ digits, fraction = some digits → digits.all Char.isDigit = true)
    (hrest : rest.head?.all (!Char.isDigit ·) = true) (hpoint : ∀ cs, rest ≠ '.' :: cs) :
    takeDigits? (whole ++ (fractionChars fraction ++ rest)) = some (whole, fraction, rest) := by
  have hempty : whole.isEmpty = false := List.isEmpty_eq_false_iff.mpr hne
  cases fraction with
  | none =>
    rw [fractionChars, List.nil_append, takeDigits?, takeWhile_of_head hwhole hrest,
      dropWhile_of_head hwhole hrest]
    split
    · rename_i after
      exact absurd rfl (hpoint after)
    · rw [hempty, if_neg Bool.false_ne_true]
  | some digits =>
    -- the digits in front of the point end there, and those behind it at the rest
    have hdot : ('.' :: (digits ++ rest)).head?.all (!Char.isDigit ·) = true := rfl
    rw [fractionChars, List.cons_append, takeDigits?, takeWhile_of_head hwhole hdot,
      dropWhile_of_head hwhole hdot]
    show (if (whole.isEmpty && ((digits ++ rest).takeWhile Char.isDigit).isEmpty) = true then none
      else some (whole, some ((digits ++ rest).takeWhile Char.isDigit),
        (digits ++ rest).dropWhile Char.isDigit)) = _
    rw [takeWhile_of_head (hfraction digits rfl) hrest,
      dropWhile_of_head (hfraction digits rfl) hrest, hempty, Bool.false_and,
      if_neg Bool.false_ne_true]

/-- A numeral is read from its characters. -/
theorem ofChars?_append {n : Numeral} {rest : List Char} (h : n.IsRegular)
    (hrest : rest.head?.all (!continues ·) = true) : ofChars? (n.chars ++ rest) = some n := by
  obtain ⟨hsign, hwhole, hne, hfraction, hexponent⟩ := h
  have hread := takeExponent?_append hexponent hrest
  -- what follows the digits is a mark or the rest, and neither is a digit or a point
  have hend : (exponentChars n.exponent ++ rest).head?.all (!Char.isDigit ·) = true ∧
      ∀ cs, exponentChars n.exponent ++ rest ≠ '.' :: cs := by
    cases hpart : n.exponent with
    | some e =>
      rw [exponentChars, List.cons_append, List.head?_cons, Option.all_some]
      rcases (hexponent e hpart).mark with hmark | hmark
      · rw [hmark]
        exact ⟨rfl, fun cs h => nomatch h⟩
      · rw [hmark]
        exact ⟨rfl, fun cs h => nomatch h⟩
    | none =>
      rw [exponentChars, List.nil_append]
      refine ⟨head_not_isDigit hrest, ?_⟩
      rintro cs rfl
      cases hrest
  have hdigits := takeDigits?_append hwhole hne hfraction hend.1 hend.2
  have hunsigned : (n.whole ++ (fractionChars n.fraction ++
      (exponentChars n.exponent ++ rest))).head?.all (!isSign ·) = true :=
    head_of_digits hwhole hne
  rw [chars_eq, List.append_assoc, List.append_assoc, List.append_assoc, ofChars?,
    takeSign_append hsign hunsigned]
  dsimp only
  rw [hdigits]
  simp only [Option.bind_eq_bind, Option.bind_some, hread]
  rfl

/-! ## Numerals in front of other text -/

/-- What a numeral can contain: digits, a point, marks of exponents and signs. -/
def isNumeralChar (c : Char) : Bool :=
  continues c || isSign c

section Front

variable {cs rest : List Char}

theorem takeWhile_append_of_head {p : Char → Bool} (hrest : rest.head?.all (!p ·) = true) :
    (cs ++ rest).takeWhile p = cs.takeWhile p := by
  induction cs with
  | nil => exact @takeWhile_of_head p [] rest rfl hrest
  | cons c cs ih =>
    rw [List.cons_append, List.takeWhile_cons, List.takeWhile_cons, ih]

theorem dropWhile_append_of_head {p : Char → Bool} (hrest : rest.head?.all (!p ·) = true) :
    (cs ++ rest).dropWhile p = cs.dropWhile p ++ rest := by
  induction cs with
  | nil => exact @dropWhile_of_head p [] rest rfl hrest
  | cons c cs ih =>
    rw [List.cons_append, List.dropWhile_cons, List.dropWhile_cons, ih]
    split
    · rfl
    · rfl

theorem head_not_of_imp {p q : Char → Bool} (himp : ∀ c, q c = true → p c = true)
    (h : rest.head?.all (!p ·) = true) : rest.head?.all (!q ·) = true := by
  cases rest with
  | nil => rfl
  | cons c rest =>
    simp only [List.head?_cons, Option.all_some, Bool.not_eq_true'] at h ⊢
    rw [Bool.eq_false_iff] at h ⊢
    exact fun hq => h (himp c hq)

theorem head_not_isDigit_of_isNumeralChar (h : rest.head?.all (!isNumeralChar ·) = true) :
    rest.head?.all (!Char.isDigit ·) = true :=
  head_not_of_imp (fun c hc => by simp only [isNumeralChar, continues, hc, Bool.true_or]) h

theorem takeSign_front (h : rest.head?.all (!isNumeralChar ·) = true) :
    takeSign (cs ++ rest) = ((takeSign cs).1, (takeSign cs).2 ++ rest) := by
  cases cs with
  | nil =>
    have hsign : rest.head?.all (!isSign ·) = true :=
      head_not_of_imp (fun c hc => by simp only [isNumeralChar, hc, Bool.or_true]) h
    exact @takeSign_append none rest rfl hsign
  | cons c cs =>
    rw [List.cons_append, takeSign, takeSign]
    split
    · rfl
    · rfl

theorem takeDigits?_point {after : List Char} (h : cs.dropWhile Char.isDigit = '.' :: after) :
    takeDigits? cs =
      if (cs.takeWhile Char.isDigit).isEmpty && (after.takeWhile Char.isDigit).isEmpty then none
      else some (cs.takeWhile Char.isDigit, some (after.takeWhile Char.isDigit),
        after.dropWhile Char.isDigit) := by
  unfold takeDigits?
  rw [h]
  rfl

theorem takeDigits?_plain (h : ∀ after, cs.dropWhile Char.isDigit ≠ '.' :: after) :
    takeDigits? cs =
      if (cs.takeWhile Char.isDigit).isEmpty then none
      else some (cs.takeWhile Char.isDigit, none, cs.dropWhile Char.isDigit) := by
  unfold takeDigits?
  dsimp only
  split
  · rename_i after hafter
    exact absurd hafter (h after)
  · rfl

theorem takeDigits?_front (h : rest.head?.all (!isNumeralChar ·) = true) :
    takeDigits? (cs ++ rest) =
      (takeDigits? cs).map fun (whole, fraction, after) => (whole, fraction, after ++ rest) := by
  have hdigit := head_not_isDigit_of_isNumeralChar h
  have htake : (cs ++ rest).takeWhile Char.isDigit = cs.takeWhile Char.isDigit :=
    takeWhile_append_of_head hdigit
  have hdrop : (cs ++ rest).dropWhile Char.isDigit = cs.dropWhile Char.isDigit ++ rest :=
    dropWhile_append_of_head hdigit
  by_cases hpoint : ∃ after, cs.dropWhile Char.isDigit = '.' :: after
  · obtain ⟨after, hafter⟩ := hpoint
    rw [hafter, List.cons_append] at hdrop
    rw [takeDigits?_point hafter, takeDigits?_point hdrop, htake,
      takeWhile_append_of_head hdigit, dropWhile_append_of_head hdigit]
    split <;> rfl
  · rw [not_exists] at hpoint
    -- what stands behind cannot bring the point that was missing
    have hpoint' : ∀ after, (cs ++ rest).dropWhile Char.isDigit ≠ '.' :: after := by
      intro after hafter
      rw [hdrop] at hafter
      cases hcs : cs.dropWhile Char.isDigit with
      | nil =>
        rw [hcs, List.nil_append] at hafter
        rw [hafter] at h
        cases h
      | cons c more =>
        rw [hcs, List.cons_append] at hafter
        obtain ⟨rfl, -⟩ := List.cons.inj hafter
        exact hpoint more hcs
    rw [takeDigits?_plain hpoint, takeDigits?_plain hpoint', htake, hdrop]
    split <;> rfl

theorem takeExponent?_front (h : rest.head?.all (!isNumeralChar ·) = true) :
    takeExponent? (cs ++ rest) = takeExponent? cs := by
  cases cs with
  | nil =>
    have hcontinues : rest.head?.all (!continues ·) = true :=
      head_not_of_imp (fun c hc => by simp only [isNumeralChar, hc, Bool.true_or]) h
    exact @takeExponent?_append none rest nofun hcontinues
  | cons c cs =>
    rw [List.cons_append, takeExponent?, takeExponent?, takeSign_front h]
    dsimp only
    rw [takeWhile_append_of_head (head_not_isDigit_of_isNumeralChar h)]

/-- Text that cannot belong to a numeral does not change whether there is one in front of it. -/
theorem ofChars?_front (h : rest.head?.all (!isNumeralChar ·) = true) :
    ofChars? (cs ++ rest) = ofChars? cs := by
  unfold ofChars?
  rw [takeSign_front h]
  dsimp only
  rw [takeDigits?_front h]
  cases takeDigits? (takeSign cs).2 with
  | none => rfl
  | some found =>
    simp only [Option.map_some, Option.bind_eq_bind, Option.bind_some, takeExponent?_front h]

end Front

/-! ## The characters of a numeral -/

theorem takeSign_eq (cs : List Char) : (takeSign cs).1.toList ++ (takeSign cs).2 = cs := by
  cases cs with
  | nil => rfl
  | cons c cs =>
    rw [takeSign]
    split
    · rfl
    · rfl

theorem takeDigits?_eq {cs whole after : List Char} {fraction : Option (List Char)}
    (h : takeDigits? cs = some (whole, fraction, after)) :
    whole ++ (fractionChars fraction ++ after) = cs := by
  unfold takeDigits? at h
  dsimp only at h
  split at h
  · rename_i afterPoint hdrop
    split at h
    · cases h
    · cases h
      rw [fractionChars, List.cons_append, List.takeWhile_append_dropWhile, ← hdrop,
        List.takeWhile_append_dropWhile]
  · split at h
    · cases h
    · cases h
      exact List.takeWhile_append_dropWhile

theorem takeExponent?_eq {cs : List Char} {exponent : Option ExponentPart}
    (h : takeExponent? cs = some exponent) : exponentChars exponent <+: cs := by
  cases cs with
  | nil =>
    cases h
    exact List.nil_prefix
  | cons c cs =>
    rw [takeExponent?] at h
    dsimp only at h
    split at h
    · split at h
      · cases h
      · cases h
        refine ⟨(takeSign cs).2.dropWhile Char.isDigit, ?_⟩
        rw [exponentChars, List.cons_append, List.append_assoc, List.takeWhile_append_dropWhile,
          takeSign_eq]
    · cases h
      exact List.nil_prefix

/-- A numeral that is read was in front. -/
theorem chars_prefix {cs : List Char} {n : Numeral} (h : ofChars? cs = some n) :
    n.chars <+: cs := by
  unfold ofChars? at h
  simp only [Option.bind_eq_bind, Option.bind_eq_some_iff, Option.pure_def,
    Option.some.injEq] at h
  obtain ⟨⟨whole, fraction, after⟩, hdigits, exponent, hexponent, rfl⟩ := h
  obtain ⟨behind, hbehind⟩ := takeExponent?_eq hexponent
  refine ⟨behind, ?_⟩
  rw [chars_eq, List.append_assoc, List.append_assoc, List.append_assoc, hbehind,
    takeDigits?_eq hdigits, takeSign_eq]

end Numeral

end FragmentAssembly
