import FragmentAssembly.Proofs.Grammar.Recognition
import FragmentAssembly.Proofs.Grammar.Spelling

/-!
# Recognition of constants and conditions

One lemma for each action that reads a number, a vector, the letters behind a point or a condition:
it recognizes the production of this part.
-/

namespace FragmentAssembly

open Grammar

/-! ## First characters -/

namespace Grammar

theorem next_of_number {n : Numeral} {cs rest : List Char} (h : Number n cs rest) :
    ∃ c, next cs = some c ∧
      (n.sign = some c ∧ (c = '+' ∨ c = '-') ∨ n.sign = none ∧ (c.isDigit = true ∨ c = '.')) := by
  obtain ⟨hwell, hitem⟩ := h
  obtain ⟨c, more, hchars, hc⟩ := Scan.exists_chars_cons hwell
  rw [hitem.next_eq (Scan.isSolid_chars hwell), hchars]
  exact ⟨c, rfl, hc⟩

/-- A token begins a number if and only if its first character does. -/
theorem any_beginsNumber {cs : List Char} :
    (Token.lead? (Token.visible cs)).any Compile.beginsNumber = true ↔
      ∃ c, next cs = some c ∧ (c.isDigit = true ∨ c = '.') := by
  rw [next]
  cases Token.visible cs with
  | nil => simp [Token.lead?]
  | cons c cs =>
    rw [Token.lead?, List.head?_cons]
    -- integers begin with a digit, names with a letter, and a mark is the point or is not
    by_cases hdigit : c.isDigit = true
    · simp [hdigit, Compile.beginsNumber]
    · rw [if_neg hdigit]
      by_cases halpha : c.isAlpha = true
      · have hpoint : c ≠ '.' := by
          rintro rfl
          exact absurd halpha (by decide)
        simp [halpha, hdigit, hpoint, Compile.beginsNumber]
      · have hpoint : Token.leadByte c = '.' ↔ c = '.' := Token.leadByte_eq_iff rfl
        simp [halpha, hdigit, Compile.beginsNumber, hpoint]

namespace Phrase.Clears

variable {marks behind : List Char}

theorem number (h : ∀ c ∈ marks, c.isDigit = false ∧ c ∉ ['.', '+', '-']) :
    number.Clears marks behind := by
  rintro cs ms rest ⟨⟨n, hn⟩, -⟩ - c hc hnext
  obtain ⟨hdigit, hmarks⟩ := h c hc
  simp only [List.mem_cons, List.not_mem_nil, or_false, not_or] at hmarks
  obtain ⟨d, hd, hbegins⟩ := next_of_number hn
  obtain rfl : c = d := Option.some.inj (hnext.symm.trans hd)
  rcases hbegins with ⟨-, hplus | hminus⟩ | ⟨-, hdigit' | hpoint⟩
  · exact hmarks.2.1 hplus
  · exact hmarks.2.2 hminus
  · rw [hdigit] at hdigit'
    cases hdigit'
  · exact hmarks.1 hpoint

theorem unsignedNumber (h : ∀ c ∈ marks, c.isDigit = false ∧ c ≠ '.') :
    unsignedNumber.Clears marks behind := by
  rintro cs ms rest ⟨⟨n, hsign, hn⟩, -⟩ - c hc hnext
  obtain ⟨hdigit, hpoint⟩ := h c hc
  obtain ⟨d, hd, hbegins⟩ := next_of_number hn
  obtain rfl : c = d := Option.some.inj (hnext.symm.trans hd)
  rcases hbegins with ⟨hsome, -⟩ | ⟨-, hdigit' | hpoint'⟩
  · rw [hsign] at hsome
    cases hsome
  · rw [hdigit] at hdigit'
    cases hdigit'
  · exact hpoint hpoint'

theorem wordOf {P : String → Prop} (h : ∀ c ∈ marks, c.isAlpha = false) :
    (wordOf P).Clears marks behind :=
  .anyOf fun _ => .given fun _ => .word h

end Phrase.Clears

end Grammar

namespace Compile

variable {taken : List Char}

/-! ## Constants -/

theorem accepts_moreComponents (count : Nat) (htaken : ',' ∈ taken) :
    (liftM (Scan.moreComponents count) : Compile (List Binary32)).Accepts (moreNumbers count)
      taken := by
  induction count with
  | zero => exact .pure [] taken
  | succ count ih =>
    rw [Scan.moreComponents, lift_bind]
    refine Recognizes.optional rfl rfl ?_ (.pure [] taken) htaken
    rw [if_pos rfl, lift_bind]
    refine (Recognizes.number []).andThen (fun value => ?_) fun _ => .nil _ _
    rw [lift_bind]
    exact ih.map _

theorem accepts_vectorRest (taken : List Char) :
    (liftM Scan.vectorRest : Compile Vec4).Accepts
      (number.andThen ((moreNumbers 3).andThen (mark '\x7d'))) taken := by
  rw [Scan.vectorRest, lift_bind]
  refine (Recognizes.number []).andThen (fun first => ?_) fun _ => .nil _ _
  rw [lift_bind]
  refine (accepts_moreComponents 3 (List.mem_singleton_self ',')).andThen (fun more => ?_)
    fun _ => .mark rfl (by decide)
  rw [lift_bind]
  exact (Recognizes.expect rfl rfl taken).map _

theorem accepts_constant (taken : List Char) :
    (liftM Scan.constant : Compile Vec4).Accepts constant taken := by
  rw [Scan.constant, lift_bind]
  have hbrace : '\x7b'.isDigit = false ∧ '\x7b' ∉ ['.', '+', '-'] := ⟨rfl, by decide⟩
  refine Recognizes.choice rfl rfl ?_ ?_ fun _ => .number (List.forall_mem_singleton.mpr hbrace)
  · rw [if_pos rfl, lift_within]
    exact (accepts_vectorRest taken).within
  · rw [if_neg Bool.false_ne_true, lift_bind, lift_within]
    exact Accepts.map (Recognizes.number taken).within _

/-! ## Components and conditions -/

theorem recognizes_swizzle (taken : List Char) :
    (liftM Scan.swizzle : Compile Swizzle).Recognizes id
      (fun s => wordOf fun letters => Swizzle.ofName? letters = some s) taken := by
  rw [Scan.swizzle, lift_bind]
  refine (Recognizes.name
    (q := fun letters s => Phrase.empty.given (Swizzle.ofName? letters = some s))
    (fun letters => ?_) (fun _ => fails_fail _) (fun _ => fails_fail _)).congr fun s => ?_
  · cases hs : Swizzle.ofName? letters with
    | some s =>
      simp only [hs, Option.some.injEq]
      exact .pure s id taken
    | none =>
      simp only [hs, reduceCtorEq, Phrase.given_of_false]
      exact .of_fails (fails_fail _) id taken
  · rw [← wordOf_andThen, Phrase.andThen_empty]

theorem accepts_swizzle (taken : List Char) :
    (liftM Scan.swizzle : Compile Swizzle).Accepts (wordOf IsSwizzle) taken := by
  refine (recognizes_swizzle taken).forget.congr fun _ => ?_
  funext cs ms rest
  apply propext
  constructor
  · rintro ⟨s, letters, hs, hword⟩
    exact ⟨letters, isSwizzle_iff.mpr ⟨s, hs⟩, hword⟩
  · rintro ⟨letters, hletters, hword⟩
    obtain ⟨s, hs⟩ := isSwizzle_iff.mp hletters
    exact ⟨s, letters, hs, hword⟩

theorem accepts_writeMask (taken : List Char) :
    (liftM Scan.writeMask : Compile WriteMask).Accepts (wordOf IsMask) taken := by
  rw [Scan.writeMask, lift_bind]
  refine (Recognizes.nameOf (q := fun _ => .empty) (fun letters hletters => ?_)
    (fun letters hletters => ?_) (fun _ => fails_fail _) (fun _ => fails_fail _)).congr
    fun _ => Phrase.andThen_empty _
  · obtain ⟨m, hm⟩ := isMask_iff.mp hletters
    simp only [hm]
    exact Accepts.pure m taken
  · cases hm : WriteMask.ofName? letters with
    | some m => exact absurd (isMask_iff.mpr ⟨m, hm⟩) hletters
    | none =>
      simp only [hm]
      exact fails_fail _

theorem accepts_condition (htaken : '.' ∈ taken) :
    (liftM Scan.condition : Compile CondTest).Accepts condition taken := by
  rw [Scan.condition, lift_bind]
  refine Recognizes.nameOf (fun name hname => ?_) (fun name hname => ?_)
    (fun _ => fails_fail _) (fun _ => fails_fail _)
  · obtain ⟨rule, hrule⟩ := mem_conditionNames.mp hname
    simp only [hrule, lift_bind]
    refine Recognizes.optional rfl rfl ?_ (Accepts.pure _ taken) htaken
    rw [if_pos rfl, lift_bind]
    exact (accepts_swizzle taken).map _
  · cases hrule : CondRule.ofName? name with
    | some rule => exact absurd (mem_conditionNames.mpr ⟨rule, hrule⟩) hname
    | none =>
      simp only [hrule]
      exact fails_fail _

theorem accepts_negation (hminus : '-' ∈ taken) (hplus : '+' ∈ taken) :
    (liftM Scan.negation : Compile Bool).Accepts sign taken := by
  have hsign : sign =
      ((mark '-').andThen .empty).orElse ((mark '+').andThen .empty).optional := by
    rw [Phrase.andThen_empty, Phrase.andThen_empty]
    rfl
  rw [Scan.negation, lift_bind, hsign]
  refine Recognizes.choice rfl rfl (Accepts.pure true taken) ?_ fun _ => ?_
  · rw [if_neg Bool.false_ne_true, lift_bind]
    exact Recognizes.optional rfl rfl (Accepts.pure false taken) (Accepts.pure false taken) hplus
  · rw [Phrase.andThen_empty]
    exact .optional (.mark rfl (by decide)) (List.cons_subset.mpr ⟨hminus, List.nil_subset _⟩)

end Compile

end FragmentAssembly
