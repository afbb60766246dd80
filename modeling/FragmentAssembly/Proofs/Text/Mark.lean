import FragmentAssembly.Text.Cursor

/-!
# Marks and characters

A mark is one byte.  If it is one of ASCII, it is a whole character of the text; else the cursor
stands inside a character behind it.
-/

namespace FragmentAssembly

namespace Token

variable {c : Char}

theorem size_eq_one_iff : c.utf8Size = 1 ↔ c.toNat < 128 := by
  rw [Char.utf8Size_eq_one_iff, UInt32.le_iff_toNat_le]
  exact Nat.lt_succ_iff.symm

theorem leadByte_of_size (h : c.utf8Size = 1) : leadByte c = c := by
  have hlt : c.val.toNat < 128 := size_eq_one_iff.mp h
  rw [leadByte, String.utf8EncodeChar_eq_singleton h, List.headD_cons, Char.ext_iff,
    ← UInt32.toNat_inj]
  show c.val.toUInt8.toUInt32.toNat = c.val.toNat
  rw [UInt8.toNat_toUInt32, UInt32.toNat_toUInt8]
  omega

/-- No byte of a character outside ASCII is one of ASCII. -/
theorem le_of_mem_utf8EncodeChar {byte : UInt8} (hc : c.utf8Size ≠ 1)
    (h : byte ∈ String.utf8EncodeChar c) : 128 ≤ byte.toNat := by
  have hlarge : ¬c.val.toNat ≤ 127 := fun hle => hc (size_eq_one_iff.mpr (Nat.lt_succ_of_le hle))
  unfold String.utf8EncodeChar at h
  dsimp only at h
  rw [if_neg hlarge] at h
  split at h
  · simp only [List.mem_cons, List.not_mem_nil, or_false] at h
    rcases h with rfl | rfl <;>
      · rw [UInt8.toNat_ofNat']
        omega
  · split at h
    · simp only [List.mem_cons, List.not_mem_nil, or_false] at h
      rcases h with rfl | rfl | rfl <;>
        · rw [UInt8.toNat_ofNat']
          omega
    · simp only [List.mem_cons, List.not_mem_nil, or_false] at h
      rcases h with rfl | rfl | rfl | rfl <;>
        · rw [UInt8.toNat_ofNat']
          omega

/-- A character is its first byte and some more. -/
theorem encode_eq_cons (c : Char) : ∃ byte, String.utf8EncodeChar c =
    byte :: (String.utf8EncodeChar c).tail ∧ leadByte c = Char.ofUInt8 byte := by
  obtain ⟨byte, bytes, h⟩ : ∃ byte bytes, String.utf8EncodeChar c = byte :: bytes := by
    apply List.exists_cons_of_length_pos
    rw [String.length_utf8EncodeChar]
    exact c.utf8Size_pos
  exact ⟨byte, by rw [h, List.tail_cons], by rw [leadByte, h, List.headD_cons]⟩

theorem leadByte_size : (leadByte c).utf8Size = 1 ↔ c.utf8Size = 1 := by
  refine ⟨fun h => Decidable.byContradiction fun hc => ?_, fun h => by rwa [leadByte_of_size h]⟩
  obtain ⟨byte, hencode, hbyte⟩ := encode_eq_cons c
  have hle := le_of_mem_utf8EncodeChar hc (hencode ▸ List.mem_cons_self)
  rw [hbyte, size_eq_one_iff] at h
  have hnat : (Char.ofUInt8 byte).toNat = byte.toNat := UInt8.toNat_toUInt32 byte
  omega

theorem leadByte_eq_iff {d : Char} (hd : d.utf8Size = 1) : leadByte c = d ↔ c = d := by
  constructor
  · rintro rfl
    exact (leadByte_of_size (leadByte_size.mp hd)).symm
  · rintro rfl
    exact leadByte_of_size hd

/-- A token behind which the cursor stands between two characters. -/
def IsWhole : Token → Prop
  | punctuation mark => mark.utf8Size = 1
  | _ => True

instance : DecidablePred IsWhole
  | integer _ => isTrue trivial
  | identifier _ => isTrue trivial
  | punctuation mark => inferInstanceAs (Decidable (mark.utf8Size = 1))

/-- Only a mark can be a part of a character. -/
theorem forall_not_isWhole {P : Token → Prop}
    (h : ∀ mark : Char, mark.utf8Size ≠ 1 → P (.punctuation mark)) (t : Token)
    (ht : ¬t.IsWhole) : P t := by
  cases t with
  | integer digits => exact absurd trivial ht
  | identifier name => exact absurd trivial ht
  | punctuation mark => exact h mark ht

end Token

namespace Cursor

variable {k : Cursor} {c : Char} {cs : List Char}

theorem stepByte_of_rest (h : k.inside = []) (hrest : k.rest = c :: cs) : k.stepByte =
    { k.step with position := k.position + 1, inside := (String.utf8EncodeChar c).tail } := by
  rw [stepByte, h, hrest]

theorem stepByte_of_size (h : k.inside = []) (hrest : k.rest = c :: cs) (hc : c.utf8Size = 1) :
    k.stepByte = k.step := by
  rw [stepByte_of_rest h hrest, String.utf8EncodeChar_eq_singleton hc]
  simp only [step, hrest, h, hc, List.length_nil, Nat.add_zero]
  split <;> rfl

theorem inside_stepByte_eq_nil (h : k.inside = []) (hrest : k.rest = c :: cs) :
    k.stepByte.inside = [] ↔ c.utf8Size = 1 := by
  rw [stepByte_of_rest h hrest, ← List.length_eq_zero_iff, List.length_tail,
    String.length_utf8EncodeChar]
  have hpos := c.utf8Size_pos
  omega

variable {t : Token}

theorem exists_of_lead?_punctuation {mark : Char}
    (h : Token.lead? cs = some (.punctuation mark)) :
    ∃ c behind, cs = c :: behind ∧ mark = Token.leadByte c := by
  cases cs with
  | nil => cases h
  | cons c behind =>
    rw [Token.lead?] at h
    split at h
    · cases h
    · split at h
      · cases h
      · exact ⟨c, behind, rfl, (Token.punctuation.inj (Option.some.inj h)).symm⟩

theorem pass_of_isWhole (hinside : k.inside = []) (hlead : Token.lead? k.rest = some t)
    (h : t.IsWhole) : k.pass t = k.advance t.text.length := by
  cases t with
  | integer digits => rfl
  | identifier name => rfl
  | punctuation mark =>
    obtain ⟨c, behind, hrest, rfl⟩ := exists_of_lead?_punctuation hlead
    rw [pass, stepByte_of_size hinside hrest (Token.leadByte_size.mp h), Token.text,
      String.length_singleton]
    rfl

theorem inside_pass (hinside : k.inside = []) (hlead : Token.lead? k.rest = some t) :
    (k.pass t).inside = [] ↔ t.IsWhole := by
  cases t with
  | integer digits => exact iff_of_true (advance_inside _ hinside) trivial
  | identifier name => exact iff_of_true (advance_inside _ hinside) trivial
  | punctuation mark =>
    obtain ⟨c, behind, hrest, rfl⟩ := exists_of_lead?_punctuation hlead
    rw [pass, inside_stepByte_eq_nil hinside hrest]
    exact Token.leadByte_size.symm

theorem tokenStart_step (k : Cursor) : k.step.tokenStart = k.tokenStart := by
  unfold step
  dsimp only
  split
  · rfl
  · split <;> rfl

theorem tokenStart_advance (n : Nat) (k : Cursor) : (k.advance n).tokenStart = k.tokenStart := by
  induction n generalizing k with
  | zero => rfl
  | succ n ih => rw [advance, ih, tokenStart_step]

theorem tokenStart_stepByte (k : Cursor) : k.stepByte.tokenStart = k.tokenStart := by
  unfold stepByte
  split
  · rfl
  · rfl
  · exact k.tokenStart_step

theorem tokenStart_pass (k : Cursor) (t : Token) : (k.pass t).tokenStart = k.tokenStart := by
  cases t with
  | integer digits => exact tokenStart_advance _ k
  | identifier name => exact tokenStart_advance _ k
  | punctuation mark => exact k.tokenStart_stepByte

theorem tokenStart_skipIgnored (k : Cursor) : k.skipIgnored.tokenStart = k.tokenStart := by
  unfold skipIgnored
  split
  · exact tokenStart_advance _ k
  · rfl

end Cursor

end FragmentAssembly
