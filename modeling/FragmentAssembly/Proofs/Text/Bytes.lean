import FragmentAssembly.Proofs.Text.Next

/-!
# Texts as bytes

The bytes of a text, each as the character with its number.  None of the bytes of a character
outside ASCII is in ASCII, so a text and its bytes have the same digits, names, blanks and comments.
-/

namespace FragmentAssembly

def byteChars (cs : List Char) : List Char :=
  cs.flatMap fun c => (String.utf8EncodeChar c).map Char.ofUInt8

theorem byteChars_toList (s : String) :
    byteChars s.toList = s.toUTF8.data.toList.map Char.ofUInt8 := by
  have hbytes : s.toUTF8.data.toList = s.toList.flatMap String.utf8EncodeChar := by
    conv_lhs => rw [← String.ofList_toList (s := s)]
    rw [String.toUTF8_eq_toByteArray]
    exact List.toList_data_toByteArray
  rw [hbytes, List.map_flatMap, byteChars]

theorem byteChars_cons (c : Char) (cs : List Char) :
    byteChars (c :: cs) = (String.utf8EncodeChar c).map Char.ofUInt8 ++ byteChars cs :=
  List.flatMap_cons

theorem byteChars_append (cs cs' : List Char) :
    byteChars (cs ++ cs') = byteChars cs ++ byteChars cs' :=
  List.flatMap_append

theorem length_byteChars (cs : List Char) : (byteChars cs).length = bytes cs := by
  rw [byteChars, List.length_flatMap, bytes]
  simp only [List.length_map, String.length_utf8EncodeChar]

namespace Token

variable {c : Char} {cs : List Char}

theorem toNat_ofUInt8 (byte : UInt8) : (Char.ofUInt8 byte).toNat = byte.toNat :=
  UInt8.toNat_toUInt32 byte

theorem byteChars_cons_leadByte (c : Char) (cs : List Char) : byteChars (c :: cs) =
    leadByte c :: ((String.utf8EncodeChar c).tail.map Char.ofUInt8 ++ byteChars cs) := by
  obtain ⟨byte, hencode, hbyte⟩ := encode_eq_cons c
  rw [byteChars_cons, hencode, List.map_cons, hbyte]
  rfl

theorem byteChars_cons_of_size (h : c.utf8Size = 1) (cs : List Char) :
    byteChars (c :: cs) = c :: byteChars cs := by
  rw [byteChars_cons_leadByte, leadByte_of_size h, String.utf8EncodeChar_eq_singleton h]
  rfl

/-- A text in ASCII is its own bytes. -/
theorem byteChars_of_size (h : ∀ c ∈ cs, c.utf8Size = 1) : byteChars cs = cs := by
  induction cs with
  | nil => rfl
  | cons c cs ih =>
    rw [byteChars_cons_of_size (h c List.mem_cons_self),
      ih fun d hd => h d (List.mem_cons_of_mem c hd)]

/-! ## Bytes in the place of characters -/

/-- A test that all characters outside ASCII pass, or none. -/
def Uniform (p : Char → Bool) : Prop :=
  ∃ v, ∀ c : Char, 128 ≤ c.toNat → p c = v

namespace Uniform

variable {p : Char → Bool}

theorem not (h : Uniform p) : Uniform (!p ·) := by
  obtain ⟨v, hv⟩ := h
  exact ⟨!v, fun c hc => congrArg _ (hv c hc)⟩

/-- The bytes of a character pass if the character does. -/
theorem byte (h : Uniform p) {b : Char} (hb : b ∈ byteChars [c]) : p b = p c := by
  by_cases hc : c.utf8Size = 1
  · rw [byteChars_of_size (by simpa using hc), List.mem_singleton] at hb
    rw [hb]
  · obtain ⟨v, hv⟩ := h
    rw [byteChars_cons, List.mem_append, List.mem_map] at hb
    obtain ⟨byte, hbyte, rfl⟩ | hnil := hb
    · rw [hv _ (toNat_ofUInt8 byte ▸ le_of_mem_utf8EncodeChar hc hbyte), hv c]
      exact Nat.le_of_not_lt (mt size_eq_one_iff.mpr hc)
    · cases hnil

theorem leadByte (h : Uniform p) (c : Char) : p (leadByte c) = p c := by
  apply h.byte
  rw [byteChars_cons_leadByte]
  exact List.mem_cons_self

theorem head_byteChars (h : Uniform p) (cs : List Char) :
    (byteChars cs).head?.all p = cs.head?.all p := by
  cases cs with
  | nil => rfl
  | cons c cs =>
    rw [byteChars_cons_leadByte, List.head?_cons, List.head?_cons, Option.all_some,
      Option.all_some, h.leadByte]

theorem all_byteChars (h : Uniform p) (hcs : cs.all p = true) : (byteChars cs).all p = true := by
  rw [List.all_eq_true] at hcs ⊢
  intro b hb
  obtain ⟨c, hc, hbc⟩ := List.mem_flatMap.mp hb
  have hb' : b ∈ byteChars [c] := List.mem_flatMap.mpr ⟨c, List.mem_singleton_self c, hbc⟩
  rw [h.byte hb']
  exact hcs c hc

end Uniform

/-- Letters and digits are in ASCII. -/
theorem isAlphanum_of_le (h : 128 ≤ c.toNat) : c.isAlphanum = false := by
  have hval : 128 ≤ c.val.toNat := h
  have hranges : c.isAlphanum = (decide (c.val ≥ 'A'.val ∧ c.val ≤ 'Z'.val) ||
      c.val ≥ 'a'.val && c.val ≤ 'z'.val || c.val ≥ '0'.val && c.val ≤ '9'.val) := rfl
  simp only [hranges, ge_iff_le, UInt32.le_iff_toNat_le, Bool.or_eq_false_iff,
    Bool.and_eq_false_iff, decide_eq_false_iff_not]
  have hZ : 'Z'.val.toNat = 90 := rfl
  have hz : 'z'.val.toNat = 122 := rfl
  have h9 : '9'.val.toNat = 57 := rfl
  omega

theorem uniform_isDigit : Uniform Char.isDigit := by
  refine ⟨false, fun c hc => ?_⟩
  have hno := isAlphanum_of_le hc
  rw [Char.isAlphanum, Bool.or_eq_false_iff] at hno
  exact hno.2

theorem uniform_isNameChar : Uniform isNameChar := by
  refine ⟨false, fun c hc => ?_⟩
  rw [isNameChar, isAlphanum_of_le hc, Bool.false_or, Bool.or_eq_false_iff,
    decide_eq_false_iff_not, decide_eq_false_iff_not]
  constructor <;>
    · rintro rfl
      exact absurd hc (by decide)

theorem isVisible_of_le (h : 128 ≤ c.toNat) : isVisible c = true := by
  have hne : ∀ d : Char, d.toNat < 128 → c ≠ d := by
    rintro d hd rfl
    omega
  rw [isVisible, isBlank, isLineBreak]
  simp [hne '#' (by decide), hne ' ' (by decide), hne '\t' (by decide), hne '\n' (by decide),
    hne '\r' (by decide)]

theorem uniform_isAlphanum : Uniform Char.isAlphanum :=
  ⟨false, fun _ => isAlphanum_of_le⟩

theorem uniform_isVisible : Uniform isVisible :=
  ⟨true, fun _ => isVisible_of_le⟩

theorem size_of_isNameChar (h : isNameChar c = true) : c.utf8Size = 1 := by
  refine Decidable.byContradiction fun hc => ?_
  simp only [isNameChar, Bool.or_eq_true, decide_eq_true_eq] at h
  rcases h with (h | rfl) | rfl
  · rw [isAlphanum_of_le (Nat.le_of_not_lt (mt size_eq_one_iff.mpr hc))] at h
    cases h
  · exact hc rfl
  · exact hc rfl

theorem uniform_isLineBreak : Uniform isLineBreak := by
  refine ⟨false, fun c hc => ?_⟩
  rw [isLineBreak, Bool.or_eq_false_iff, decide_eq_false_iff_not, decide_eq_false_iff_not]
  constructor <;>
    · rintro rfl
      exact absurd hc (by decide)

/-- Blanks and the ends of lines are in ASCII. -/
theorem size_of_isBlank (h : isBlank c = true) : c.utf8Size = 1 := by
  simp only [isBlank, isLineBreak, Bool.or_eq_true, decide_eq_true_eq] at h
  rcases h with (rfl | rfl) | rfl | rfl <;> rfl

theorem isGap_byteChars (h : IsGap cs) : IsGap (byteChars cs) := by
  induction h with
  | nil => exact .nil
  | blank hblank _ ih =>
    rw [byteChars_cons_of_size (size_of_isBlank hblank)]
    exact .blank hblank ih
  | @comment text cs c htext hbreak _ ih =>
    have hblank : isBlank c = true := by rw [isBlank, hbreak, Bool.or_true]
    rw [byteChars_cons_of_size rfl, byteChars_append,
      byteChars_cons_of_size (size_of_isBlank hblank)]
    refine .comment ?_ hbreak ih
    exact uniform_isLineBreak.not.all_byteChars htext

theorem isTrailing_byteChars (h : IsTrailing cs) : IsTrailing (byteChars cs) := by
  cases h with
  | gap h => exact .gap (isGap_byteChars h)
  | comment h htext =>
    rw [byteChars_append, byteChars_cons_of_size rfl]
    exact .comment (isGap_byteChars h) (uniform_isLineBreak.not.all_byteChars htext)

end Token

end FragmentAssembly
