import FragmentAssembly.Proofs.Grammar.Basic

/-!
# Spelling of names

Which names are read as swizzles, masks, condition rules, registers, texture units and mnemonics:
exactly the ones that the grammar admits in their places.
-/

namespace FragmentAssembly

open Grammar

/-! ## Components -/

theorem Component.ofLetter?_eq_some {letter : Char} {c : Component} :
    ofLetter? letter = some c ↔ letter = c.letter := by
  constructor
  · intro h
    unfold ofLetter? at h
    split at h
    · cases h
      rfl
    · cases h
      rfl
    · cases h
      rfl
    · cases h
      rfl
    · cases h
  · rintro rfl
    exact ofLetter?_letter c

theorem mem_componentLetters {letter : Char} :
    letter ∈ componentLetters ↔ ∃ c : Component, letter = c.letter := by
  constructor
  · intro h
    simp only [componentLetters, List.mem_cons, List.not_mem_nil, or_false] at h
    rcases h with rfl | rfl | rfl | rfl
    · exact ⟨.x, rfl⟩
    · exact ⟨.y, rfl⟩
    · exact ⟨.z, rfl⟩
    · exact ⟨.w, rfl⟩
  · rintro ⟨c, rfl⟩
    cases c <;> decide

/-- Letters name components one by one. -/
theorem mapM_ofLetter?_eq_some {letters : List Char} {cs : List Component} :
    letters.mapM Component.ofLetter? = some cs ↔ letters = cs.map Component.letter := by
  induction letters generalizing cs with
  | nil => simp [eq_comm]
  | cons letter letters ih =>
    cases cs with
    | nil => simp [Option.bind_eq_some_iff]
    | cons c cs =>
      simp only [List.mapM_cons, Option.pure_def, Option.bind_eq_bind, Option.bind_eq_some_iff,
        Option.some.injEq, List.cons.injEq, List.map_cons, ih, Component.ofLetter?_eq_some]
      constructor
      · rintro ⟨_, rfl, _, rfl, rfl, rfl⟩
        exact ⟨rfl, rfl⟩
      · rintro ⟨rfl, rfl⟩
        exact ⟨c, rfl, cs, rfl, rfl, rfl⟩

theorem exists_components {letters : List Char} (h : ∀ c ∈ letters, c ∈ componentLetters) :
    ∃ cs : List Component, letters = cs.map Component.letter := by
  induction letters with
  | nil => exact ⟨[], rfl⟩
  | cons letter letters ih =>
    rw [List.forall_mem_cons] at h
    obtain ⟨c, rfl⟩ := mem_componentLetters.mp h.1
    obtain ⟨cs, rfl⟩ := ih h.2
    exact ⟨c :: cs, rfl⟩

/-- One letter is repeated, and four letters are taken as they are. -/
theorem Swizzle.ofName?_eq_some {letters : String} {s : Swizzle} :
    Swizzle.ofName? letters = some s ↔
      (∃ c, letters.toList = [c.letter] ∧ s = Quad.replicate c) ∨
        letters.toList = s.toList.map Component.letter := by
  constructor
  · intro h
    unfold Swizzle.ofName? at h
    split at h
    · rename_i c hc
      cases h
      exact .inl ⟨c, mapM_ofLetter?_eq_some.mp hc, rfl⟩
    · rename_i hs
      cases h
      exact .inr (mapM_ofLetter?_eq_some.mp hs)
    · cases h
  · rintro (⟨c, hc, rfl⟩ | hs)
    · have hmap : letters.toList.mapM Component.ofLetter? = some [c] :=
        mapM_ofLetter?_eq_some.mpr hc
      rw [Swizzle.ofName?, hmap]
    · rw [Swizzle.ofName?, mapM_ofLetter?_eq_some.mpr hs]
      rfl

theorem isSwizzle_iff {letters : String} :
    IsSwizzle letters ↔ ∃ s, Swizzle.ofName? letters = some s := by
  simp only [Swizzle.ofName?_eq_some]
  constructor
  · rintro ⟨hletters, hlength⟩
    obtain ⟨cs, hcs⟩ := exists_components hletters
    rw [hcs, List.length_map] at hlength
    rw [hcs]
    match cs, hlength with
    | [a], _ => exact ⟨_, .inl ⟨a, rfl, rfl⟩⟩
    | [a, b, c, d], _ => exact ⟨⟨a, b, c, d⟩, .inr rfl⟩
  · rintro ⟨s, ⟨c, hc, -⟩ | hs⟩
    · refine ⟨fun letter hletter => ?_, .inl (congrArg List.length hc)⟩
      rw [hc, List.mem_singleton] at hletter
      exact mem_componentLetters.mpr ⟨c, hletter⟩
    · refine ⟨fun letter hletter => ?_, .inr (congrArg List.length hs)⟩
      rw [hs, List.mem_map] at hletter
      obtain ⟨c, -, rfl⟩ := hletter
      exact mem_componentLetters.mpr ⟨c, rfl⟩

theorem isComponent_iff {letters : String} :
    IsComponent letters ↔ ∃ s, Swizzle.ofName? letters = some s ∧ s.all (· = s.x) = true := by
  simp only [Swizzle.ofName?_eq_some]
  constructor
  · rintro ⟨letter, hletter, hletters⟩
    obtain ⟨c, rfl⟩ := mem_componentLetters.mp hletter
    refine ⟨Quad.replicate c, ?_, by simp [Quad.all, Quad.replicate]⟩
    rcases hletters with hone | hfour
    · exact .inl ⟨c, hone, rfl⟩
    · exact .inr hfour
  · rintro ⟨s, hs, hall⟩
    refine ⟨s.x.letter, mem_componentLetters.mpr ⟨s.x, rfl⟩, ?_⟩
    rcases hs with ⟨c, hc, rfl⟩ | hs
    · exact .inl hc
    · simp only [Quad.all, decide_true, Bool.true_and, Bool.and_eq_true, decide_eq_true_eq] at hall
      obtain ⟨⟨hy, hz⟩, hw⟩ := hall
      rw [Quad.toList, hy, hz, hw] at hs
      exact .inr hs

/-! ## Masks -/

/-- The first element that can be the next one is. -/
theorem cons_sublist_map {α β : Type} [DecidableEq β] (f : α → β) (b : β) (bs : List β)
    (as : List α) : (b :: bs).Sublist (as.map f) ↔
      ∃ a later, as.dropWhile (f · ≠ b) = a :: later ∧ bs.Sublist (later.map f) := by
  induction as with
  | nil => simp
  | cons a as ih =>
    rw [List.map_cons, List.dropWhile_cons]
    by_cases ha : f a = b
    · simp [ha]
    · rw [if_pos (by simpa using ha), ← ih, List.sublist_cons_iff]
      refine or_iff_left ?_
      rintro ⟨_, hsame, -⟩
      exact ha (List.cons.inj hsame).1.symm

theorem isSome_componentsInOrder? {allowed : List Component} {letters : List Char} :
    (componentsInOrder? allowed letters).isSome = true ↔
      letters.Sublist (allowed.map Component.letter) := by
  induction letters generalizing allowed with
  | nil => simp [componentsInOrder?]
  | cons letter letters ih =>
    rw [cons_sublist_map, componentsInOrder?]
    split
    · rename_i hnone
      rw [hnone]
      simp
    · rename_i found later hfound
      rw [Option.isSome_map, ih]
      constructor
      · intro h
        exact ⟨found, later, hfound, h⟩
      · rintro ⟨_, _, hfound', h⟩
        rw [hfound] at hfound'
        cases hfound'
        exact h

theorem isMask_iff {letters : String} :
    IsMask letters ↔ ∃ mask, WriteMask.ofName? letters = some mask := by
  rw [← Option.isSome_iff_exists, WriteMask.ofName?, Option.isSome_map,
    isSome_componentsInOrder?]
  exact Iff.rfl

/-! ## Names of a table -/

theorem exists_find?_iff {α : Type} {f : α → String} {as : List α} {name : String} :
    (∃ a, as.find? (f · = name) = some a) ↔ name ∈ as.map f := by
  rw [← Option.isSome_iff_exists, List.find?_isSome, List.mem_map]
  simp only [decide_eq_true_eq]

theorem mem_conditionNames {name : String} :
    name ∈ conditionNames ↔ ∃ rule, CondRule.ofName? name = some rule := by
  show name ∈ CondRule.all.map CondRule.name ↔ _
  exact exists_find?_iff.symm

theorem mem_conditionRegisterNames {name : String} :
    name ∈ conditionRegisterNames ↔ ∃ r, ConditionRegister.ofName? name = some r := by
  show name ∈ [ConditionRegister.rc, .hc].map ConditionRegister.name ↔ _
  exact exists_find?_iff.symm

/-- At most one register has a name. -/
theorem anyOf_registerNamed {n : Nat} {names : Vector String n}
    (hnames : ∀ i j, names.get i = names.get j → i = j) (name : String) (q : Fin n → Phrase) :
    (Phrase.anyOf fun i => (q i).given (name = names.get i)) =
      (match registerNamed? names name with
        | some i => q i
        | none => .never) := by
  funext cs ms rest
  apply propext
  unfold registerNamed?
  cases hfound : (List.finRange n).find? fun i => names.get i = name with
  | none =>
    refine ⟨?_, False.elim⟩
    rintro ⟨i, hi, -⟩
    have hother := List.find?_eq_none.mp hfound i (List.mem_finRange i)
    exact hother (decide_eq_true hi.symm)
  | some i =>
    have hdecide := List.find?_some hfound
    have hi : names.get i = name := of_decide_eq_true hdecide
    constructor
    · rintro ⟨j, hj, hq⟩
      rwa [← hnames j i (hj.symm.trans hi.symm)]
    · intro hq
      exact ⟨i, hi.symm, hq⟩

theorem inputNames_injective : ∀ i j, inputNames.get i = inputNames.get j → i = j := by
  decide +kernel

theorem outputNames_injective : ∀ i j, outputNames.get i = outputNames.get j → i = j := by
  decide +kernel

/-! ## Numbered registers -/

theorem isNumbered_append (letters more : List Char) {name : String} {n : Nat} :
    IsNumbered (letters ++ more) name n ↔ IsNumbered letters name n ∨ IsNumbered more name n := by
  simp only [IsNumbered, List.mem_append, or_and_right, exists_or]

theorem isNumbered_cons {letters : List Char} {name : String} {bank : Char} {digits : List Char}
    (hname : name.toList = bank :: digits) {n : Nat} :
    IsNumbered letters name n ↔ bank ∈ letters ∧
      (digits.isEmpty || !digits.all Char.isDigit) = false ∧ Nat.ofDigitChars 10 digits 0 = n := by
  rw [Bool.or_eq_false_iff, Bool.not_eq_false', List.isEmpty_eq_false_iff, and_assoc]
  constructor
  · rintro ⟨letter, hletter, digits', htext, hne, hdigits, hn⟩
    rw [hname, List.cons.injEq] at htext
    obtain ⟨rfl, rfl⟩ := htext
    exact ⟨hletter, hne, hdigits, hn⟩
  · rintro ⟨hletter, hne, hdigits, hn⟩
    exact ⟨bank, hletter, digits, hname, hne, hdigits, hn⟩

theorem wordSum_of_lt {offset n : Nat} (h : offset + n < UInt64.size) :
    wordSum offset n = offset + n := by
  rw [wordSum, if_pos (Nat.lt_of_le_of_lt (Nat.le_add_left n offset) h), Nat.mod_eq_of_lt h]

theorem wordSum_of_le {offset n : Nat} (h : UInt64.size ≤ n) :
    wordSum offset n = UInt64.size - 1 := by
  rw [wordSum, if_neg (Nat.not_lt.mpr h)]

/-- Without an offset nothing wraps around. -/
theorem wordSum_zero_lt {n : Nat} : wordSum 0 n < temporaryCount ↔ n < 96 := by
  unfold wordSum UInt64.size temporaryCount
  split <;> omega

theorem wordSum_half_lt {n : Nat} : wordSum halfTemporaryOffset n < temporaryCount ↔
    n < 64 ∨ n < 2 ^ 64 ∧ 2 ^ 64 ≤ n + 32 := by
  unfold wordSum UInt64.size halfTemporaryOffset temporaryCount
  split <;> omega

theorem temporaryNumber?_eq_some {name : String} {n : Nat} : temporaryNumber? name = some n ↔
    (∃ m, IsNumbered ['R', 'r'] name m ∧ n = wordSum 0 m) ∨
      ∃ m, IsNumbered ['H', 'h'] name m ∧ n = wordSum halfTemporaryOffset m := by
  unfold temporaryNumber?
  split
  · rename_i hname
    simp [IsNumbered, hname]
  · rename_i bank digits hname
    simp only [isNumbered_cons hname, List.mem_cons, List.not_mem_nil, or_false]
    split
    · rename_i hnone
      simp [hnone]
    · rename_i hdigits
      rw [Bool.not_eq_true] at hdigits
      -- no letter stands for both banks
      split
      · rename_i hfull
        rw [Bool.or_eq_true, decide_eq_true_eq, decide_eq_true_eq] at hfull
        have hhalf : ¬(bank = 'H' ∨ bank = 'h') := by
          rcases hfull with rfl | rfl <;> decide
        simp [hfull, hhalf, hdigits, eq_comm]
      · rename_i hfull
        rw [Bool.or_eq_true, decide_eq_true_eq, decide_eq_true_eq] at hfull
        split
        · rename_i hhalf
          rw [Bool.or_eq_true, decide_eq_true_eq, decide_eq_true_eq] at hhalf
          simp [hfull, hhalf, hdigits, eq_comm]
        · rename_i hhalf
          rw [Bool.or_eq_true, decide_eq_true_eq, decide_eq_true_eq] at hhalf
          simp [hfull, hhalf]

/-- What is taken as a temporary is one, or its number overflows. -/
theorem isTemporary_or_overflows {name : String} : IsTemporary name ∨ Overflows name ↔
    ∃ n < temporaryCount, temporaryNumber? name = some n := by
  simp only [temporaryNumber?_eq_some]
  constructor
  · rintro ((⟨n, hn, hname⟩ | ⟨n, hn, hname⟩) | ⟨n, hn, hsum, hname⟩)
    · exact ⟨_, wordSum_zero_lt.mpr hn, .inl ⟨n, hname, rfl⟩⟩
    · exact ⟨_, wordSum_half_lt.mpr (.inl hn), .inr ⟨n, hname, rfl⟩⟩
    · exact ⟨_, wordSum_half_lt.mpr (.inr ⟨hn, hsum⟩), .inr ⟨n, hname, rfl⟩⟩
  · rintro ⟨_, hn, ⟨m, hname, rfl⟩ | ⟨m, hname, rfl⟩⟩
    · exact .inl (.inl ⟨m, wordSum_zero_lt.mp hn, hname⟩)
    · rcases wordSum_half_lt.mp hn with hm | ⟨hm, hsum⟩
      · exact .inl (.inr ⟨m, hm, hname⟩)
      · exact .inr ⟨m, hm, hsum, hname⟩

theorem exists_isNumbered_iff {name : String} : (∃ n, IsNumbered ['R', 'r', 'H', 'h'] name n) ↔
    (temporaryNumber? name).isSome = true := by
  rw [Option.isSome_iff_exists]
  simp only [temporaryNumber?_eq_some]
  have hletters : ∀ n, IsNumbered ['R', 'r', 'H', 'h'] name n ↔
      IsNumbered ['R', 'r'] name n ∨ IsNumbered ['H', 'h'] name n :=
    fun _ => isNumbered_append ['R', 'r'] ['H', 'h']
  constructor
  · rintro ⟨n, hn⟩
    rcases (hletters n).mp hn with h | h
    · exact ⟨_, .inl ⟨n, h, rfl⟩⟩
    · exact ⟨_, .inr ⟨n, h, rfl⟩⟩
  · rintro ⟨n, ⟨m, h, -⟩ | ⟨m, h, -⟩⟩
    · exact ⟨m, (hletters m).mpr (.inl h)⟩
    · exact ⟨m, (hletters m).mpr (.inr h)⟩

/-- The words for other registers are not of the form of a temporary. -/
theorem temporaryNumber?_eq_none {name : String} (h : name ∈ ["RC", "HC", "f", "o", "p"]) :
    temporaryNumber? name = none := by
  simp only [List.mem_cons, List.not_mem_nil, or_false] at h
  rcases h with rfl | rfl | rfl | rfl | rfl <;> rfl

theorem isReserved_iff {name : String} : IsReserved name ↔ isReserved name = true := by
  rw [IsReserved, exists_isNumbered_iff, isReserved, Bool.or_eq_true, Bool.or_eq_true,
    decide_eq_true_eq, mem_conditionRegisterNames, ← Option.isSome_iff_exists, or_assoc]

theorem namesUnit_iff {name : String} {unit : TextureUnit} :
    NamesUnit name unit ↔ textureUnitNumber? name = some unit.val := by
  unfold textureUnitNumber? NamesUnit
  split
  · rename_i digits hname
    simp only [hname, List.cons.injEq, true_and]
    split
    · rename_i hnone
      rw [Bool.or_eq_true, List.isEmpty_iff, Bool.not_eq_true'] at hnone
      simp only [reduceCtorEq, iff_false, not_exists, not_and]
      rintro _ rfl hne hdigits
      rcases hnone with hnil | hother
      · exact absurd hnil hne
      · exact absurd hdigits (Bool.eq_false_iff.mp hother)
    · rename_i hdigits
      rw [Bool.or_eq_true, List.isEmpty_iff, Bool.not_eq_true', not_or,
        Bool.not_eq_false] at hdigits
      rw [Option.some.injEq]
      constructor
      · rintro ⟨_, rfl, -, -, hn⟩
        exact hn
      · intro hn
        exact ⟨digits, rfl, hdigits.1, hdigits.2, hn⟩
  · rename_i hother
    simp only [reduceCtorEq, iff_false, not_exists, not_and]
    intro digits hname
    exact absurd hname (hother digits)

/-! ## Mnemonics -/

namespace Suffixes

theorem eq_of_takePrecision {cs rest : List Char} {precision : Option Precision}
    (h : takePrecision cs = (precision, rest)) : cs = chars { precision } ++ rest := by
  unfold takePrecision at h
  split at h <;>
    · cases h
      rfl

theorem eq_of_takeMark {mark cs rest : List Char} {found : Bool}
    (h : takeMark mark cs = (found, rest)) : cs = (if found then mark else []) ++ rest := by
  unfold takeMark at h
  split at h
  · rename_i hmark
    cases h
    obtain ⟨rest, rfl⟩ := List.isPrefixOf_iff_prefix.mp hmark
    rw [List.drop_left]
    rfl
  · cases h
    rfl

/-- Only the letters of the suffixes are read as these. -/
theorem chars_of_ofChars? {cs : List Char} {s : Suffixes} (h : ofChars? cs = some s) :
    cs = s.chars := by
  unfold ofChars? at h
  rcases hprecision : takePrecision cs with ⟨precision, afterPrecision⟩
  rw [hprecision] at h
  dsimp only at h
  rcases hupdate : takeMark ['C'] afterPrecision with ⟨update, afterUpdate⟩
  rw [hupdate] at h
  dsimp only at h
  rcases hsaturate : takeMark ['_', 'S', 'A', 'T'] afterUpdate with ⟨saturate, afterSaturate⟩
  rw [hsaturate] at h
  dsimp only at h
  split at h
  · rename_i hempty
    cases h
    rw [eq_of_takePrecision hprecision, eq_of_takeMark hupdate, eq_of_takeMark hsaturate,
      List.isEmpty_iff.mp hempty]
    simp [chars]
  · cases h

end Suffixes

theorem Pattern.toList_of_ofMnemonic? {mnemonic : String} {pattern : Pattern} {rest : List Char}
    (h : ofMnemonic? mnemonic = some (pattern, rest)) :
    mnemonic.toList = pattern.name.toList ++ rest := by
  simp only [ofMnemonic?, Option.bind_eq_bind, Option.bind_eq_some_iff, Option.pure_def,
    Option.some.injEq, Prod.mk.injEq] at h
  obtain ⟨found, hfound, rfl, rfl⟩ := h
  have hbegins := List.find?_some hfound
  obtain ⟨rest, hrest⟩ := List.isPrefixOf_iff_prefix.mp hbegins
  rw [← hrest, ← String.length_toList, List.drop_left]

/-- What is read is what is spelt. -/
theorem readMnemonic_eq_ok {mnemonic : String} {pattern : Pattern} {suffixes : Suffixes} :
    readMnemonic mnemonic = .ok (pattern, suffixes) ↔ pattern.Spells suffixes mnemonic := by
  refine ⟨fun h => ?_, Pattern.Spells.readMnemonic⟩
  obtain ⟨hlisted, hallows⟩ := Compile.readMnemonic_ok h
  refine ⟨hlisted, hallows, ?_⟩
  unfold readMnemonic at h
  split at h
  · cases h
  · rename_i found rest hfound
    split at h
    · cases h
    · rename_i found hsuffixes
      split at h
      · cases h
        rw [← Suffixes.chars_of_ofChars? hsuffixes]
        exact Pattern.toList_of_ofMnemonic? hfound
      · cases h

theorem isMnemonic_iff {name : String} {pattern : Pattern} :
    IsMnemonic name pattern ↔ ∃ suffixes, readMnemonic name = .ok (pattern, suffixes) := by
  simp only [readMnemonic_eq_ok]
  constructor
  · rintro ⟨hlisted, suffixes, hallows, htext⟩
    exact ⟨suffixes, hlisted, hallows, htext⟩
  · rintro ⟨suffixes, hlisted, hallows, htext⟩
    exact ⟨hlisted, suffixes, hallows, htext⟩

end FragmentAssembly
