import FragmentAssembly.Proofs.Grammar.Destination

/-!
# Recognition of sources

A number is told from another base by its first character, and a register from a constant by its
name.
-/

namespace FragmentAssembly

open Grammar

namespace Compile

variable {taken : List Char}

/-! ## Sources -/

def Operand.isConstant : Operand → Bool
  | .register _ => false
  | .constant _ => true

theorem accepts_note (n : Note) : (note n).Accepts .empty taken :=
  .silent (fun _ => rfl) fun _ _ h => h

theorem accepts_addLiteral (v : Vec4) : (addLiteral v).Accepts .empty taken :=
  .silent (fun _ => rfl) fun _ _ h => h.literal v

/-- A literal is entered into the table, which no mention concerns. -/
theorem recognizes_literal {α : Type} {m : Compile α} {p : Phrase} (h : m.Accepts p [])
    (value : α → Vec4) (n : Nat → α → Note) (taken : List Char) :
    Recognizes (do
        let a ← m
        let index ← addLiteral (value a)
        note (n index a)
        return Operand.constant index) Operand.isConstant (fun x => p.given (true = x)) taken := by
  refine (h.andThen (q := fun x => Phrase.empty.given (true = x)) (fun a => ?_)
    fun _ => .nil _ _).congr fun x => ?_
  · refine Accepts.silently (accepts_addLiteral (value a)) fun index => ?_
    exact Accepts.silently (accepts_note _) fun _ => .pure (Operand.constant index) _ taken
  · rw [← Phrase.given_andThen, Phrase.andThen_empty]

theorem accepts_localParameter (taken : List Char) :
    (liftM Scan.localParameter : Compile LocalParameterIndex).Accepts localParameter taken := by
  have hinteger : integerOf (· < 64) = .anyOf fun n =>
      (integerOf fun m => m = n ∧ n < UInt64.size).given (n < 64) := by
    funext cs ms rest
    apply propext
    constructor
    · rintro ⟨⟨digits, hlt, hdigits⟩, rfl⟩
      exact ⟨_, hlt, ⟨digits, ⟨rfl, Nat.lt_trans hlt (by decide)⟩, hdigits⟩, rfl⟩
    · rintro ⟨n, hlt, ⟨digits, ⟨rfl, -⟩, hdigits⟩, rfl⟩
      exact ⟨⟨digits, hlt, hdigits⟩, rfl⟩
  rw [Scan.localParameter, lift_bind]
  refine (Recognizes.expect rfl rfl []).andThen (fun _ => ?_) fun _ => .nil _ _
  rw [lift_bind, hinteger, Phrase.anyOf_andThen]
  simp only [Phrase.given_andThen]
  refine (Recognizes.integer []).bindValue fun n => .given (fun hlt => ?_) fun hlt => ?_
  · rw [dif_pos hlt, lift_bind]
    exact Accepts.map (Recognizes.expect rfl rfl taken) _
  · rw [dif_neg hlt]
    exact fails_fail _

/-- Looking up the name of a constant. -/
theorem recognizes_lookup (name : String) :
    Recognizes (do
        match (← get).parameters.lookup? name with
        | some index => return Operand.constant index
        | none => Scan.fail (.undefinedSymbol name)) Operand.isConstant
      (fun x => (Phrase.mentioning (.use name)).given (true = x)) taken where
  sound := by
    intro d e o hok
    simp only [bind_eq_ok, get_eq_ok] at hok
    obtain ⟨_, _, ⟨rfl, rfl⟩, hok⟩ := hok
    cases hfound : d.parameters.lookup? name with
    | none =>
      rw [hfound] at hok
      exact (fails_fail _ _ _ _ hok).elim
    | some index =>
      rw [hfound] at hok
      obtain ⟨rfl, rfl⟩ := pure_eq_ok.mp hok
      refine ⟨[.use name], ⟨rfl, rfl, rfl⟩, fun ms hms => ⟨⟨?_, trivial⟩, hms.use name⟩⟩
      exact (hms.name name).mp (Option.isSome_iff_exists.mpr ⟨index, hfound⟩)
  complete := by
    rintro _ cs rest new ms i ⟨rfl, rfl, rfl⟩ - hi hconsistent
    obtain ⟨index, hfound⟩ := Option.isSome_iff_exists.mp ((hi.name name).mpr hconsistent.1)
    refine Builds.look fun d hd hinventory => ?_
    have hparameters : d.parameters = i.parameters := congrArg Inventory.parameters hinventory
    rw [hparameters, hfound]
    exact .pure ⟨rfl, hi.use name⟩ rest

/-- What stands behind the name of a register or constant. -/
def baseRest (name : String) (isConstant : Bool) : Phrase :=
  if isConstant then .mentioning (.use name)
  else (input.given (name = "f")).orElse
    ((localParameter.given (name = "p")).orElse (temporaryRest name))

theorem register_eq : register = .anyOf fun name => (word name).andThen (baseRest name false) := by
  unfold register baseRest temporary temporaryRest
  rw [word_andThen, word_andThen, Phrase.anyOf_orElse, Phrase.anyOf_orElse]
  simp only [Phrase.andThen_orElse, Bool.false_eq_true, if_false]

theorem namedConstant_eq :
    namedConstant = .anyOf fun name => (word name).andThen (baseRest name true) := by
  unfold namedConstant baseRest
  simp only [if_true]

/-- No constant has a reserved name. -/
theorem recognizes_reserved {name : String} {m : Compile Operand} {p : Phrase}
    (hreserved : IsReserved name) (hrest : baseRest name false = p)
    (h : m.Recognizes Operand.isConstant (fun x => p.given (false = x)) taken) :
    m.Recognizes Operand.isConstant (baseRest name) taken := by
  refine h.extend ?_ ?_
  · rintro _ cs new rest ⟨rfl, hp⟩
    rw [hrest]
    exact hp
  · intro x cs new rest ms i hi hconsistent hp
    cases x with
    | false =>
      rw [hrest] at hp
      exact ⟨rfl, hp⟩
    | true =>
      -- to be used it must be defined, and no reserved name is
      obtain ⟨-, rfl⟩ := hp
      exact absurd hreserved (hi.free name hconsistent.1)

theorem recognizes_namedOperand (name : String) (taken : List Char) :
    (namedOperand name).Recognizes Operand.isConstant (baseRest name) taken := by
  unfold namedOperand
  -- the names of registers are tried before those of parameters, which cannot be any of them
  by_cases hregister : (ConditionRegister.ofName? name).isSome = true
  · have hmem := mem_conditionRegisterNames.mpr (Option.isSome_iff_exists.mp hregister)
    rw [if_pos hregister]
    have hother : name ≠ "f" ∧ name ≠ "p" := by
      constructor <;>
        · rintro rfl
          cases hregister
    have htemporary := temporaryRest_eq_never
      (temporaryNumber?_eq_none (List.mem_append_left ["f", "o", "p"] hmem))
    refine recognizes_reserved (p := .never) (.inl hmem) ?_ ?_
    · simp [baseRest, hother, htemporary]
    · exact (Recognizes.of_fails (fails_fail _) _ _).extend False.elim fun _ _ h => h.2
  · rw [if_neg hregister]
    have hmem : name ∉ conditionRegisterNames := fun hmem =>
      hregister (Option.isSome_iff_exists.mpr (mem_conditionRegisterNames.mp hmem))
    by_cases hinput : name = "f"
    · subst hinput
      rw [if_pos rfl]
      refine recognizes_reserved (.inr (.inl (by decide))) ?_
        (Accepts.mapTo (accepts_inputRegister taken) fun i => rfl)
      simp [baseRest, temporaryRest_eq_never (show temporaryNumber? "f" = none from rfl)]
    · rw [if_neg hinput]
      by_cases hparameter : name = "p"
      · subst hparameter
        rw [if_pos rfl]
        refine recognizes_reserved (.inr (.inl (by decide))) ?_
          (Accepts.mapTo (accepts_localParameter taken) fun i => rfl)
        simp [baseRest, temporaryRest_eq_never (show temporaryNumber? "p" = none from rfl)]
      · rw [if_neg hparameter]
        cases hnumber : temporaryNumber? name with
        | none =>
          have htemporary := temporaryRest_eq_never hnumber
          refine (recognizes_lookup name).congr fun x => ?_
          cases x <;> simp [baseRest, hinput, hparameter, htemporary]
        | some n =>
          have hreserved : IsReserved name := by
            rw [isReserved_iff, isReserved, hnumber, Option.isSome_some, Bool.or_true]
          refine recognizes_reserved hreserved ?_
            (Accepts.mapTo (accepts_temporary hnumber taken) fun t => rfl)
          simp [baseRest, hinput, hparameter]

/-- No name begins like a number. -/
theorem not_isAlpha_of_begins {c : Char} (h : c.isDigit = true ∨ c = '.') : c.isAlpha = false := by
  rw [Bool.eq_false_iff]
  intro halpha
  rcases h with hdigit | rfl
  · rw [Token.not_isDigit_of_isAlpha halpha] at hdigit
    cases hdigit
  · exact absurd halpha (by decide)

/-- What is not a number begins neither with a digit nor with a point. -/
theorem any_beginsNumber_eq_false {p : Phrase} {cs rest : List Char} {ms : List Mention}
    (hclear : ∀ c, c.isDigit = true ∨ c = '.' → p.Clears [c] []) (h : p cs ms rest) :
    (Token.lead? (Token.visible cs)).any beginsNumber = false := by
  rw [Bool.eq_false_iff, ne_eq, any_beginsNumber]
  rintro ⟨c, hnext, hc⟩
  exact hclear c hc cs ms rest h (avoids_nil rest) c List.mem_cons_self hnext

/-- What begins with a digit or a point has no sign. -/
theorem sign_eq_none {n : Numeral} {cs rest : List Char}
    (hbegins : (Token.lead? (Token.visible cs)).any beginsNumber = true) (h : Number n cs rest) :
    n.sign = none := by
  obtain ⟨c, hnext, hc⟩ := any_beginsNumber.mp hbegins
  obtain ⟨d, hd, hsign⟩ := next_of_number h
  obtain rfl : c = d := Option.some.inj (hnext.symm.trans hd)
  rcases hsign with ⟨-, rfl | rfl⟩ | ⟨hnone, -⟩
  · exact absurd hc (by decide)
  · exact absurd hc (by decide)
  · exact hnone

/-- Of all numbers those without a sign begin with a digit or a point. -/
theorem number_and_beginsNumber {cs rest : List Char} {ms : List Mention} :
    (Token.lead? (Token.visible cs)).any beginsNumber = true ∧ number cs ms rest ↔
      unsignedNumber cs ms rest := by
  constructor
  · rintro ⟨hbegins, ⟨n, hn⟩, rfl⟩
    exact ⟨⟨n, sign_eq_none hbegins hn, hn⟩, rfl⟩
  · rintro ⟨⟨n, hnone, hn⟩, rfl⟩
    obtain ⟨c, hnext, hbegins⟩ := next_of_number hn
    rcases hbegins with ⟨hsome, -⟩ | ⟨-, hc⟩
    · rw [hnone] at hsome
      cases hsome
    · exact ⟨any_beginsNumber.mpr ⟨c, hnext, hc⟩, ⟨n, hn⟩, rfl⟩

/-- What a source reads if it is not a number. -/
def otherBase (isConstant : Bool) : Phrase :=
  ((mark '\x7b').andThen
    ((number.andThen ((moreNumbers 3).andThen (mark '\x7d'))).given (true = isConstant))).orElse
      (.anyOf fun name => (word name).andThen (baseRest name isConstant))

theorem base_eq (isConstant : Bool) {cs rest : List Char} {ms : List Mention} :
    base isConstant cs ms rest ↔
      ((Token.lead? (Token.visible cs)).any beginsNumber = true ∧
        (number.given (true = isConstant)) cs ms rest) ∨
      ((Token.lead? (Token.visible cs)).any beginsNumber = false ∧
        otherBase isConstant cs ms rest) := by
  -- neither a brace nor a letter begins a number
  have hother : otherBase isConstant cs ms rest →
      (Token.lead? (Token.visible cs)).any beginsNumber = false := by
    refine any_beginsNumber_eq_false fun c hc => ?_
    refine .orElse (.begins rfl ?_ _) (.anyOf fun name => .first (.word ?_) _)
    · rw [List.mem_singleton]
      rintro rfl
      exact absurd hc (by decide)
    · exact List.forall_mem_singleton.mpr (not_isAlpha_of_begins hc)
  cases isConstant with
  | true =>
    simp only [otherBase, Phrase.given_of_true] at hother ⊢
    rw [number_and_beginsNumber, base, if_pos rfl, namedConstant_eq, and_iff_right_of_imp hother]
    exact Iff.rfl
  | false =>
    simp only [otherBase, Bool.true_eq_false, Phrase.given_of_false, Phrase.andThen_never,
      Phrase.never_orElse] at hother ⊢
    rw [and_iff_right_of_imp hother, base, if_neg Bool.false_ne_true, register_eq]
    exact (or_iff_right And.right).symm

theorem recognizes_operand (taken : List Char) :
    operand.Recognizes Operand.isConstant base taken := by
  unfold operand
  refine (Recognizes.ahead _ (recognizes_literal (Recognizes.number []) _ _ taken)
    (Recognizes.nameOrMark (c := '\x7b') rfl rfl rfl
      (recognizes_literal (accepts_vectorRest []) id (fun index v => .vectorLiteral index v) taken)
      (fun name => recognizes_namedOperand name taken)
      (fun _ => fails_fail _) fun mark hmark => ?_)).congr fun x => ?_
  · split
    · rename_i heq
      cases heq
    · rename_i heq
      exact absurd (Token.punctuation.inj heq) hmark
    · exact fails_fail _
  · funext cs ms rest
    exact propext (base_eq x).symm

theorem accepts_vectorSuffix (o : Operand) (htaken : '.' ∈ taken) :
    (liftM (Compile.vectorSuffix o) : Compile Swizzle).Accepts
      (Grammar.vectorSuffix (Operand.isConstant o)) taken := by
  rw [Compile.vectorSuffix, lift_bind]
  exact Recognizes.optional rfl rfl (accepts_swizzle taken) (Accepts.pure _ taken) htaken

/-- A swizzle that must select one component. -/
theorem accepts_component (taken : List Char) :
    Accepts (do
        let s ← (liftM Scan.swizzle : Compile Swizzle)
        liftM (if s.all (· = s.x) then pure s else Scan.fail .invalidSwizzle : Scan Swizzle))
      (wordOf IsComponent) taken := by
  refine ((recognizes_swizzle []).bindValue
    (q := fun s _ => Phrase.empty.given (s.all (· = s.x) = true)) fun s => ?_).congr fun _ => ?_
  · refine .given (fun hall => ?_) fun hall => ?_
    · rw [if_pos hall]
      exact Accepts.pure s taken
    · rw [if_neg hall]
      exact fails_fail _
  · simp only [← Phrase.given_andThen, Phrase.andThen_empty]
    funext cs ms rest
    apply propext
    constructor
    · rintro ⟨s, hall, letters, hs, hword⟩
      exact ⟨letters, isComponent_iff.mpr ⟨s, hs, hall⟩, hword⟩
    · rintro ⟨letters, hletters, hword⟩
      obtain ⟨s, hs, hall⟩ := isComponent_iff.mp hletters
      exact ⟨s, hall, letters, hs, hword⟩

theorem accepts_scalarSuffix (o : Operand) (htaken : '.' ∈ taken) :
    (liftM (Compile.scalarSuffix o) : Compile Swizzle).Accepts
      (Grammar.scalarSuffix (Operand.isConstant o)) taken := by
  unfold Compile.scalarSuffix
  rw [lift_bind]
  cases o with
  | constant index =>
    refine Recognizes.optional rfl rfl ?_ (Accepts.pure _ taken) htaken
    rw [if_pos rfl, lift_bind]
    exact accepts_component taken
  | register r =>
    have hsuffix : Grammar.scalarSuffix (Operand.isConstant (.register r)) =
        ((mark '.').andThen (wordOf IsComponent)).orElse .never :=
      (Phrase.orElse_never _).symm
    rw [hsuffix]
    refine Recognizes.choice rfl rfl ?_ (.of_fails (fails_failAhead _) _ _)
      fun _ _ _ _ h => h.elim
    rw [if_pos rfl, lift_bind]
    exact accepts_component taken

/-- Neither signs nor bars begin a selection. -/
theorem clears_selection (suffix : Bool → Phrase) {marks behind : List Char}
    (h : marks ⊆ ['-', '+', '|']) : (selection suffix).Clears marks behind := by
  have hmarks : ∀ c ∈ ['-', '+', '|'],
      c.isDigit = false ∧ c ≠ '.' ∧ c.isAlpha = false ∧ c ≠ '\x7b' := by
    intro c hc
    simp only [List.mem_cons, List.not_mem_nil, or_false] at hc
    rcases hc with rfl | rfl | rfl <;> decide
  have hword : ∀ c ∈ marks, c.isAlpha = false := fun c hc => (hmarks c (h hc)).2.2.1
  refine .anyOf fun isConstant => .first ?_ _
  cases isConstant with
  | true =>
    refine .orElse (.unsignedNumber fun c hc => ?_) (.orElse (.begins rfl ?_ _) ?_)
    · exact ⟨(hmarks c (h hc)).1, (hmarks c (h hc)).2.1⟩
    · exact fun hc => (hmarks _ (h hc)).2.2.2 rfl
    · exact .anyOf fun _ => .first (.word hword) _
  | false =>
    refine .orElse ?_ (.orElse ?_ (.anyOf fun name => .first (.word hword) _))
    · exact .first (.word hword) _
    · exact .first (.word hword) _

theorem accepts_sourceWith {suffix : Operand → Scan Swizzle} {q : Bool → Phrase}
    (hsuffix : ∀ o {taken}, '.' ∈ taken →
      (liftM (suffix o) : Compile Swizzle).Accepts (q (Operand.isConstant o)) taken)
    (htaken : '.' ∈ taken) : (sourceWith suffix).Accepts (source q) taken := by
  have hsign : (liftM Scan.negation : Compile Bool).Accepts sign ['-', '+'] :=
    accepts_negation (by decide) (by decide)
  unfold sourceWith source
  refine hsign.andThen (fun outer => ?_)
    fun _ => .orElse (.begins rfl (by decide) _) (clears_selection q (by decide))
  refine Recognizes.choice rfl rfl ?_ ?_ fun _ => clears_selection q (by decide)
  · simp only [if_true]
    refine hsign.andThen (fun inner => ?_) fun _ => .first (clears_selection q (by decide)) _
    rw [selection, Phrase.anyOf_andThen]
    simp only [Phrase.andThen_assoc]
    refine (recognizes_operand []).bind (fun o => ?_) fun _ _ => .nil _ _
    refine (hsuffix o (List.mem_singleton_self '.')).andThen (fun swizzle => ?_)
      fun _ => .mark rfl (by decide)
    exact Accepts.map (Recognizes.expect rfl rfl taken) _
  · simp only [Bool.false_eq_true, if_false, pure_bind]
    refine (recognizes_operand []).bind (fun o => ?_) fun _ _ => .nil _ _
    exact Accepts.map (hsuffix o htaken) _

/-! ## Texture images -/

theorem recognizes_textureUnit (taken : List Char) :
    (liftM textureUnit : Compile TextureUnit).Recognizes id
      (fun unit => wordOf (NamesUnit · unit)) taken := by
  rw [textureUnit, lift_bind]
  refine (Recognizes.identifier (q := fun name unit => Phrase.empty.given (NamesUnit name unit))
    fun name => ?_).congr fun unit => (wordOf_eq _).symm
  simp only [namesUnit_iff]
  cases textureUnitNumber? name with
  | none =>
    simp only [reduceCtorEq, Phrase.given_of_false]
    exact .of_fails (fails_fail _) id taken
  | some n =>
    simp only [Option.some.injEq]
    by_cases hn : n < textureUnitCount
    · rw [dif_pos hn]
      refine (Recognizes.pure (⟨n, hn⟩ : TextureUnit) id taken).congr fun unit => ?_
      rw [id, Fin.ext_iff]
    · rw [dif_neg hn]
      refine (Recognizes.of_fails (fails_fail _) id taken).congr fun unit => ?_
      have hother : ¬n = unit.val := fun hval => hn (hval ▸ unit.isLt)
      simp only [hother, Phrase.given_of_false]

/-- A target that was read is one whose name stood there. -/
theorem keyword_of_targetAmong {targets : List TextureTarget} {target : TextureTarget}
    {k l : Cursor} (h : targetAmong targets k = .ok target l) :
    Keyword target.name k.ahead l.ahead := by
  induction targets generalizing k with
  | nil => exact (failAhead_eq_ok.mp h).elim
  | cons first targets ih =>
    simp only [targetAmong, bind_eq_ok] at h
    obtain ⟨found, k', haccept, h⟩ := h
    have hkeyword := Scan.keyword_of_acceptWord haccept
    cases found with
    | true =>
      obtain ⟨rfl, rfl⟩ := pure_eq_ok.mp h
      exact hkeyword
    | false =>
      have hsame : k'.ahead = k.ahead := hkeyword
      rw [← hsame]
      exact ih h

theorem recognizes_target (taken : List Char) :
    (liftM (targetAmong TextureTarget.all) : Compile TextureTarget).Recognizes id
      (fun target => keyword target.name) taken := by
  refine .lift keyword_of_targetAmong fun {target cs rest} h => ⟨target, rfl, ?_⟩
  obtain ⟨behind, rfl, hends, hskips⟩ := h
  have hall : target ∈ TextureTarget.all := by
    cases target <;> decide
  exact (reads_targetAmong hall hends).skips hskips

theorem accepts_useTexture (image : TextureImage) :
    (useTexture image).Accepts (.mentioning (.sample image)) taken where
  sound := by
    intro d e a hok
    simp only [useTexture, bind_eq_ok, get_eq_ok] at hok
    obtain ⟨_, _, ⟨rfl, rfl⟩, hok⟩ := hok
    -- a unit that is in use keeps its target, and a free one takes any
    cases hused : d.textures.get image.unit with
    | some used =>
      simp only [hused] at hok
      split at hok
      · exact (fails_fail _ _ _ _ hok).elim
      · rename_i hsame
        obtain ⟨-, rfl⟩ := pure_eq_ok.mp hok
        rw [ne_eq, Decidable.not_not] at hsame
        subst hsame
        refine ⟨_, ⟨rfl, rfl⟩, fun ms hms => ?_⟩
        refine ⟨⟨fun target htarget => ?_, trivial⟩, hms.sample_again hused⟩
        have hother := (hms.texture image.unit target).mpr htarget
        exact Option.some.inj (hother.symm.trans hused)
    | none =>
      simp only [hused, set_eq_ok] at hok
      subst hok
      refine ⟨_, ⟨rfl, rfl⟩, fun ms hms => ?_⟩
      refine ⟨⟨fun target htarget => ?_, trivial⟩, hms.sample hused⟩
      have hother := (hms.texture image.unit target).mpr htarget
      have hunused : d.inventory.textures.get image.unit = none := hused
      rw [hother] at hunused
      cases hunused
  complete := by
    rintro _ cs rest new ms i ⟨rfl, rfl⟩ - hi hconsistent
    refine Builds.look fun d hd hinventory => ?_
    have htextures : d.textures = i.textures := congrArg Inventory.textures hinventory
    rw [htextures]
    cases hused : i.textures.get image.unit with
    | some used =>
      have hsame : used = image.target := hconsistent.1 used ((hi.texture _ _).mp hused)
      subst hsame
      dsimp only
      rw [if_neg (by simp)]
      exact .pure ⟨rfl, hi.sample_again hused⟩ rest
    | none =>
      rintro e he -
      refine .of_ok rfl ⟨hd, rfl, ?_⟩
      obtain rfl := hinventory
      exact hi.sample hused

theorem accepts_textureImage (taken : List Char) : textureImage.Accepts image taken := by
  unfold textureImage image
  refine (recognizes_textureUnit []).bindValue fun unit => ?_
  refine Accepts.andThen (Recognizes.expect rfl rfl []) (fun _ => ?_) fun _ => .nil _ _
  refine (recognizes_target []).bindValue fun target => ?_
  exact Accepts.map (accepts_useTexture ⟨unit, target⟩) _

end Compile

end FragmentAssembly
