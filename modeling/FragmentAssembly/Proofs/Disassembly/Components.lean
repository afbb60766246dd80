import FragmentAssembly.Compile.Operand
import FragmentAssembly.Program.Disassembly
import FragmentAssembly.Proofs.Reading.Scan

/-!
# Vectors, swizzles, masks and conditions read back

The small texts that operands are made of.
-/

namespace FragmentAssembly

theorem forall_isFinite_iff {v : Vec4} : (∀ c, (v.get c).isFinite = true) ↔
    v.x.isFinite = true ∧ v.y.isFinite = true ∧ v.z.isFinite = true ∧ v.w.isFinite = true := by
  constructor
  · intro h
    exact ⟨h .x, h .y, h .z, h .w⟩
  · rintro ⟨hx, hy, hz, hw⟩ c
    cases c with
    | x => exact hx
    | y => exact hy
    | z => exact hz
    | w => exact hw

/-- What can stand behind a name with a suffix that was left out: no more of the name, and no
suffix. -/
structure Token.Stops (cs : List Char) : Prop where
  name : endsName cs = true
  dot : ".".toList.isPrefixOf (visible cs) = false

/-- The characters of marks end names and numbers. -/
theorem Token.Stops.of_solid {c : Char} (cs : List Char) (hsolid : isSolid (c :: cs) = true)
    (hname : isNameChar c = false) (hdot : c ≠ '.') : Stops (c :: cs) := by
  refine ⟨?_, ?_⟩
  · rw [endsName, List.head?_cons, Option.all_some, hname]
    rfl
  · show ['.'].isPrefixOf (visible (c :: cs)) = false
    rw [visible_of_isSolid hsolid, List.isPrefixOf, beq_false_of_ne hdot.symm, Bool.false_and]

instance (name : String) : Decidable (IsName name) :=
  decidable_of_iff (name.toList.head?.any Char.isAlpha = true ∧
      name.toList.tail.all Token.isNameChar = true) <| by
    unfold IsName
    cases name.toList with
    | nil => simp
    | cons c cs => simp

namespace Scan

variable {rest : List Char}

/-! ## Vectors -/

/-- Components with a comma in front of each. -/
def componentsText (components : List Binary32) : List Char :=
  components.flatMap fun a => ',' :: ' ' :: (a.text .literal).toList

theorem toList_literal (v : Vec4) :
    v.literal.toList = '\x7b' :: ((v.x.text .literal).toList ++
      (componentsText [v.y, v.z, v.w] ++ ['\x7d'])) := by
  simp [Vec4.literal, Vec4.text, Quad.toList, componentsText, String.intercalate_cons_cons]

theorem reads_moreComponents {components : List Binary32} {count : Nat}
    (hcount : components.length ≤ count) :
    (moreComponents count).Reads (componentsText components ++ '\x7d' :: rest)
      (∀ a ∈ components, a.isFinite = true) components ('\x7d' :: rest) := by
  induction components generalizing count with
  | nil =>
    have hnone : (∀ a ∈ ([] : List Binary32), a.isFinite = true) = True :=
      eq_true fun a ha => nomatch ha
    rw [hnone]
    cases count with
    | zero => exact .pure _ _
    | succ count => exact (reads_accept_other rfl).andThen (.pure _ _)
  | cons a components ih =>
    cases count with
    | zero => cases hcount
    | succ count =>
      have htext : componentsText (a :: components) ++ '\x7d' :: rest =
          ",".toList ++ ' ' :: ((a.text .literal).toList ++
            (componentsText components ++ '\x7d' :: rest)) := by
        simp [componentsText]
      -- a comma or the brace ends the number
      have hend : (componentsText components ++ '\x7d' :: rest).head?.all
          (!Numeral.continues ·) = true := by
        cases components <;> rfl
      rw [List.forall_mem_cons, htext]
      refine (reads_accept rfl _).andThen ?_
      refine Reads.bind (Reads.blank rfl (reads_number a hend)) ?_
      exact (ih (Nat.le_of_succ_le_succ hcount)).followedBy (.pure _ _)

/-- A vector is read if and only if its components are finite. -/
theorem reads_vectorRest (v : Vec4) :
    vectorRest.Reads ((v.x.text .literal).toList ++
        (componentsText [v.y, v.z, v.w] ++ '\x7d' :: rest))
      (∀ c, (v.get c).isFinite = true) v rest := by
  have hpossible : (∀ c, (v.get c).isFinite = true) =
      (v.x.isFinite = true ∧ ∀ a ∈ [v.y, v.z, v.w], a.isFinite = true) := by
    rw [forall_isFinite_iff]
    simp only [List.forall_mem_cons, List.not_mem_nil, false_implies, implies_true, and_true]
  rw [hpossible]
  refine Reads.bind (reads_number v.x rfl) ?_
  refine Reads.followedBy (reads_moreComponents (Nat.le_refl 3)) ?_
  exact (reads_expect rfl rest).andThen (.pure v rest)

theorem reads_constant (v : Vec4) :
    constant.Reads (v.literal.toList ++ rest) (∀ c, (v.get c).isFinite = true) v rest := by
  have htext : v.literal.toList ++ rest = "\x7b".toList ++ ((v.x.text .literal).toList ++
      (componentsText [v.y, v.z, v.w] ++ '\x7d' :: rest)) := by
    simp [toList_literal]
  rw [htext]
  exact (reads_accept rfl _).andThen (reads_vectorRest v).within

/-! ## Signs -/

/-- A minus sign where there is one. -/
def signText (negative : Bool) : String :=
  if negative then "-" else ""

theorem reads_negation (negative : Bool) (hminus : "-".toList.isPrefixOf rest = false)
    (hplus : "+".toList.isPrefixOf rest = false) (hsolid : Token.isSolid rest = true) :
    negation.Reads ((signText negative).toList ++ rest) True negative rest := by
  cases negative with
  | true => exact (reads_accept rfl rest).andThen (.pure true rest)
  | false =>
    rw [← Token.visible_of_isSolid hsolid] at hminus hplus
    refine (reads_accept_other hminus).andThen ?_
    exact (reads_accept_other hplus).andThen (.pure false rest)

end Scan

/-! ## Swizzles and masks -/

theorem Swizzle.ofName?_letters (s : Swizzle) :
    Swizzle.ofName? (String.ofList (s.toList.map Component.letter)) = some s := by
  simp [Swizzle.ofName?, Quad.toList, List.mapM_cons]

theorem isNameChar_letter (c : Component) : Token.isNameChar c.letter = true := by
  cases c <;> rfl

theorem isAlpha_letter (c : Component) : c.letter.isAlpha = true := by
  cases c <;> rfl

/-- A swizzle is written as letters that name it, and the identity is left out. -/
theorem Swizzle.suffix_cases (s : Swizzle) :
    (s = Swizzle.identity ∧ Swizzle.suffix s = "") ∨
      ∃ letters, Swizzle.suffix s = "." ++ letters ∧ IsName letters ∧
        Swizzle.ofName? letters = some s := by
  unfold Swizzle.suffix
  by_cases hidentity : s = Swizzle.identity
  · rw [if_pos hidentity]
    exact .inl ⟨hidentity, rfl⟩
  · rw [if_neg hidentity]
    right
    by_cases hsame : s.all (· = s.x) = true
    · rw [if_pos hsame]
      refine ⟨_, rfl, ⟨s.x.letter, [], String.toList_singleton _, isAlpha_letter _, rfl⟩, ?_⟩
      -- one letter is read as four equal ones
      have hs : s = Quad.replicate s.x := by
        simp only [Quad.all, decide_true, Bool.true_and, Bool.and_eq_true,
          decide_eq_true_eq] at hsame
        apply Quad.ext_get
        intro c
        cases c
        · rfl
        · exact hsame.1.1
        · exact hsame.1.2
        · exact hsame.2
      rw [Swizzle.ofName?, String.toList_singleton]
      simp [List.mapM_cons, ← hs]
    · rw [if_neg hsame]
      refine ⟨_, rfl, ⟨s.x.letter, [s.y.letter, s.z.letter, s.w.letter], String.toList_ofList,
        isAlpha_letter _, ?_⟩, Swizzle.ofName?_letters s⟩
      simp only [List.all_cons, isNameChar_letter, List.all_nil, Bool.and_self]

/-- One letter is written for a component that is repeated. -/
theorem Swizzle.suffix_replicate (c : Component) :
    ∃ letters, Swizzle.suffix (Quad.replicate c) = "." ++ letters ∧ IsName letters ∧
      Swizzle.ofName? letters = some (Quad.replicate c) := by
  rcases Swizzle.suffix_cases (Quad.replicate c) with ⟨hidentity, -⟩ | hletters
  · cases c <;> cases hidentity
  · exact hletters

/-- A mask is written as letters that name it, and a mask that allows everything is left out. -/
theorem WriteMask.suffix_cases {mask : WriteMask} (h : mask.any id = true) :
    (mask = Quad.replicate true ∧ WriteMask.suffix mask = "") ∨
      ∃ letters, WriteMask.suffix mask = "." ++ letters ∧ IsName letters ∧
        WriteMask.ofName? letters = some mask := by
  -- there are sixteen masks
  have hall : ∀ x y z w : Bool, (⟨x, y, z, w⟩ : WriteMask).any id = true →
      (⟨x, y, z, w⟩ : WriteMask).all id = true ∨
        IsName (String.ofList ((Swizzle.identity.toList.filter
          (⟨x, y, z, w⟩ : WriteMask).get).map Component.letter)) ∧
        WriteMask.ofName? (String.ofList ((Swizzle.identity.toList.filter
          (⟨x, y, z, w⟩ : WriteMask).get).map Component.letter)) = some ⟨x, y, z, w⟩ := by
    decide +kernel
  unfold WriteMask.suffix
  by_cases hfull : mask.all id = true
  · rw [if_pos hfull]
    refine .inl ⟨?_, rfl⟩
    simp only [Quad.all, id, Bool.and_eq_true] at hfull
    apply Quad.ext_get
    intro c
    cases c
    · exact hfull.1.1.1
    · exact hfull.1.1.2
    · exact hfull.1.2
    · exact hfull.2
  · rw [if_neg hfull]
    exact .inr ⟨_, rfl, (hall mask.x mask.y mask.z mask.w h).resolve_left hfull⟩

namespace Scan

variable {rest : List Char}

theorem reads_swizzle {letters : String} {s : Swizzle} (hname : IsName letters)
    (hs : Swizzle.ofName? letters = some s) (hend : Token.endsName rest = true) :
    swizzle.Reads (letters.toList ++ rest) True s rest := by
  rw [swizzle_eq_word]
  exact reads_word hname hs hend

theorem reads_writeMask {letters : String} {mask : WriteMask} (hname : IsName letters)
    (hmask : WriteMask.ofName? letters = some mask) (hend : Token.endsName rest = true) :
    writeMask.Reads (letters.toList ++ rest) True mask rest := by
  rw [writeMask_eq_word]
  exact reads_word hname hmask hend

/-! ## Conditions -/

theorem isName_rule (r : CondRule) : IsName r.name := by
  cases r <;> decide

theorem reads_condition (t : CondTest) (hstops : Token.Stops rest) :
    condition.Reads (t.text.toList ++ rest) True t rest := by
  have hrule := CondRule.ofName?_name t.rule
  rw [condition_eq_word, CondTest.text, String.toList_append, List.append_assoc]
  rcases Swizzle.suffix_cases t.swizzle with ⟨hidentity, hsuffix⟩ | ⟨letters, hsuffix, hname, hs⟩
  · rw [hsuffix]
    refine (reads_word (isName_rule t.rule) hrule hstops.name).andThen ?_
    refine (reads_accept_other hstops.dot).andThen ?_
    have ht : t = { rule := t.rule } := by
      rw [show ({ rule := t.rule } : CondTest) = ⟨t.rule, Swizzle.identity⟩ from rfl, ← hidentity]
    rw [if_neg Bool.false_ne_true, ← ht]
    exact .pure t rest
  · rw [hsuffix, String.toList_append, List.append_assoc]
    refine (reads_word (isName_rule t.rule) hrule rfl).andThen ?_
    refine (reads_accept rfl _).andThen ?_
    rw [if_pos rfl]
    exact (reads_swizzle hname hs hstops.name).andThen (.pure t rest)

end Scan

end FragmentAssembly
