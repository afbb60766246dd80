import FragmentAssembly.Proofs.Grammar.Constant

/-!
# Recognition of destinations

The name of a target says what stands behind it.
-/

namespace FragmentAssembly

open Grammar

namespace Compile

variable {taken : List Char}

theorem accepts_markInput (i : InputIndex) : (markInput i).Accepts .empty taken :=
  .silent (fun _ => rfl) fun _ _ h => { h with }

theorem accepts_inputRegister (taken : List Char) : inputRegister.Accepts input taken := by
  unfold inputRegister
  refine (Recognizes.expect rfl rfl []).andThen (fun _ => ?_) fun _ => .nil _ _
  rw [anyOf_word_andThen]
  refine Recognizes.identifier fun name => ?_
  rw [anyOf_registerNamed inputNames_injective]
  cases registerNamed? inputNames name with
  | none => exact .of_fails (fails_fail _) _ _
  | some i =>
    refine ((Recognizes.expect rfl rfl []).andThen (fun _ => ?_) fun _ => .nil _ _).congr
      fun _ => Phrase.andThen_empty _
    exact Accepts.silently (accepts_markInput i) fun _ => Accepts.pure i taken

/-- Marking an output, and the check behind it. -/
theorem accepts_markOutput (i : OutputIndex) :
    Accepts (do
        markOutput i
        if writesBothColors (← get).outputsWritten then
          Scan.fail .conflictingColorOutputs
        else
          return i) (.mentioning (.write i)) taken where
  sound := by
    intro d e a hok
    simp only [bind_eq_ok, markOutput, modify_eq_ok, get_eq_ok] at hok
    obtain ⟨-, d', rfl, -, -, ⟨rfl, rfl⟩, hok⟩ := hok
    split at hok
    · exact (fails_fail _ _ _ _ hok).elim
    · -- the output is marked before the check, so the check is about the mentions with it
      rename_i hcolors
      obtain ⟨rfl, rfl⟩ := pure_eq_ok.mp hok
      refine ⟨_, ⟨rfl, rfl⟩, fun ms hms => ?_⟩
      have hrecords := hms.write i
      exact ⟨⟨fun hboth => hcolors (hrecords.writesBothColors.mpr hboth), trivial⟩, hrecords⟩
  complete := by
    rintro _ cs rest new ms j ⟨rfl, rfl⟩ - hj hconsistent
    have hrecords := hj.write i
    have hmark : (markOutput i).Builds rest j True rest fun _ j' =>
        j' = { j with outputsWritten := j.outputsWritten ||| (1 <<< i.val) } := by
      apply Builds.change
      rintro d rfl
      exact ⟨rfl, rfl⟩
    refine hmark.andThen ?_
    rintro _ _ rfl
    refine Builds.look fun d hd hi => ?_
    have houtputs : d.outputsWritten = j.outputsWritten ||| (1 <<< i.val) :=
      congrArg Inventory.outputsWritten hi
    rw [houtputs, if_neg fun hboth => hconsistent.1 (hrecords.writesBothColors.mp hboth)]
    exact .pure ⟨rfl, hrecords⟩ rest

theorem accepts_outputRegister (taken : List Char) : outputRegister.Accepts output taken := by
  unfold outputRegister
  refine (Recognizes.expect rfl rfl []).andThen (fun _ => ?_) fun _ => .nil _ _
  rw [anyOf_word_andThen]
  refine Recognizes.identifier fun name => ?_
  rw [anyOf_registerNamed outputNames_injective]
  cases registerNamed? outputNames name with
  | none => exact .of_fails (fails_fail _) _ _
  | some i =>
    exact (Recognizes.expect rfl rfl []).andThen (fun _ => accepts_markOutput i) fun _ => .nil _ _

/-- What stands behind the name of a temporary, which is nothing. -/
def temporaryRest (name : String) : Phrase :=
  (Phrase.mentioning (.temporary name)).given (∃ n, IsNumbered ['R', 'r', 'H', 'h'] name n)

theorem temporaryRest_eq_never {name : String} (h : temporaryNumber? name = none) :
    temporaryRest name = .never := by
  have hnone : ¬∃ n, IsNumbered ['R', 'r', 'H', 'h'] name n := by
    rw [exists_isNumbered_iff, h]
    exact Bool.false_ne_true
  rw [temporaryRest, eq_false hnone, Phrase.given_of_false]

/-- The number of a temporary is checked when its name has been read. -/
theorem accepts_temporary {name : String} {n : Nat} (hname : temporaryNumber? name = some n)
    (taken : List Char) :
    (liftM (Scan.temporary n) : Compile TemporaryIndex).Accepts (temporaryRest name) taken := by
  have hform : ∃ m, IsNumbered ['R', 'r', 'H', 'h'] name m := by
    rw [exists_isNumbered_iff, hname, Option.isSome_some]
  rw [temporaryRest, eq_true hform, Phrase.given_of_true]
  have hallowed : IsTemporary name ∨ Overflows name ↔ n < temporaryCount := by
    rw [isTemporary_or_overflows, hname]
    constructor
    · rintro ⟨m, hm, ⟨rfl⟩⟩
      exact hm
    · exact fun hn => ⟨n, hn, rfl⟩
  by_cases hn : n < temporaryCount
  · have hindex : (liftM (Scan.temporary n) : Compile TemporaryIndex) = pure ⟨n, hn⟩ := by
      unfold Scan.temporary
      rw [dif_pos hn]
      rfl
    rw [hindex]
    constructor
    · intro d e a hok
      obtain ⟨rfl, rfl⟩ := pure_eq_ok.mp hok
      exact ⟨_, ⟨rfl, rfl⟩, fun ms hms => ⟨⟨hallowed.mpr hn, trivial⟩, hms.temporary name⟩⟩
    · rintro _ cs rest new ms i ⟨rfl, rfl⟩ - hi -
      exact .pure ⟨rfl, hi.temporary name⟩ rest
  · have hindex : (liftM (Scan.temporary n) : Compile TemporaryIndex) =
        liftM (Scan.fail .invalidTemporary : Scan TemporaryIndex) := by
      unfold Scan.temporary
      rw [dif_neg hn]
    rw [hindex]
    constructor
    · intro d e a hok
      exact (fails_fail _ _ _ _ hok).elim
    · rintro _ cs rest new ms i ⟨rfl, rfl⟩ - - hconsistent
      exact absurd (hallowed.mp hconsistent.1) hn

/-- What stands behind the name of a target. -/
def targetRest (name : String) : Phrase :=
  (Phrase.empty.given (name ∈ conditionRegisterNames)).orElse
    ((output.given (name = "o")).orElse (temporaryRest name))

theorem target_eq : target = .anyOf fun name => (word name).andThen (targetRest name) := by
  unfold target targetRest temporary temporaryRest
  rw [wordOf_eq, word_andThen, Phrase.anyOf_orElse, Phrase.anyOf_orElse]
  simp only [Phrase.andThen_orElse]

theorem accepts_writable (name : String) (taken : List Char) :
    (writable name).Accepts (targetRest name) taken := by
  unfold writable targetRest
  cases hregister : ConditionRegister.ofName? name with
  | some r =>
    have hmem := mem_conditionRegisterNames.mpr ⟨r, hregister⟩
    have hout : name ≠ "o" := by
      rintro rfl
      cases hregister
    have htemporary := temporaryRest_eq_never
      (temporaryNumber?_eq_none (List.mem_append_left ["f", "o", "p"] hmem))
    simp only [hmem, hout, htemporary, Phrase.given_of_true, Phrase.given_of_false,
      Phrase.orElse_never]
    exact Accepts.pure _ taken
  | none =>
    have hmem : name ∉ conditionRegisterNames := by
      rw [mem_conditionRegisterNames, hregister]
      exact nofun
    by_cases hout : name = "o"
    · subst hout
      have htemporary := temporaryRest_eq_never (show temporaryNumber? "o" = none from rfl)
      simp only [hmem, htemporary, if_true, Phrase.given_of_true, Phrase.given_of_false,
        Phrase.never_orElse, Phrase.orElse_never]
      exact (accepts_outputRegister taken).map _
    · simp only [hmem, hout, if_false, Phrase.given_of_false, Phrase.never_orElse]
      cases hnumber : temporaryNumber? name with
      | some n => exact (accepts_temporary hnumber taken).map _
      | none =>
        rw [temporaryRest_eq_never hnumber]
        exact .of_fails (fails_fail _) _ _

theorem accepts_destinationMask (htaken : '.' ∈ taken) :
    (liftM destinationMask : Compile WriteMask).Accepts mask.optional taken := by
  rw [destinationMask, lift_bind]
  exact Recognizes.optional rfl rfl (accepts_writeMask taken) (Accepts.pure _ taken) htaken

theorem accepts_destinationGuard (htaken : '(' ∈ taken) :
    (liftM destinationGuard : Compile CondTest).Accepts guard.optional taken := by
  rw [destinationGuard, lift_bind]
  refine Recognizes.optional rfl rfl ?_ (Accepts.pure _ taken) htaken
  rw [if_pos rfl, lift_bind, lift_within]
  refine Accepts.andThen (accepts_condition (List.mem_singleton_self '.')).within (fun test => ?_)
    fun _ => .mark rfl (by decide)
  rw [lift_bind]
  exact Accepts.map (Recognizes.expect rfl rfl taken) _

theorem accepts_destination (hdot : '.' ∈ taken) (hparen : '(' ∈ taken) :
    destination.Accepts Grammar.destination taken := by
  unfold destination Grammar.destination
  rw [target_eq, Phrase.anyOf_andThen]
  simp only [Phrase.andThen_assoc]
  refine Recognizes.name (fun name => ?_) (fun _ => fails_fail _) (fun _ => fails_fail _)
  refine Accepts.andThen (accepts_writable name []) (fun register => ?_) fun _ => .nil _ _
  refine Accepts.andThen (accepts_destinationMask (List.mem_singleton_self '.')) (fun mask => ?_)
    fun _ => ?_
  · exact Accepts.map (accepts_destinationGuard hparen) _
  · exact .optional (.begins rfl (by decide) _) (List.cons_subset.mpr ⟨hdot, List.nil_subset _⟩)

end Compile

end FragmentAssembly
