import FragmentAssembly.Proofs.Reading.Abreast
import Mathlib.Data.List.Forall2

/-!
# Statements read abreast

What is gathered from texts that are read abreast is the same, up to whole programs, except for the
places where the instructions stand.
-/

namespace FragmentAssembly

open Coupling

/-- Drafts of texts that are read abreast have gathered the same, notes excepted. -/
def Coupling.onDraft (c : Coupling ParseError Cursor) : Coupling ParseError Draft where
  beside d e := c.beside d.cursor e.cursor ∧ e.inventory = d.inventory
  alike := c.alike
  spent d := c.spent d.cursor
  last := c.last

/-- Instructions that were read in different places. -/
def Instruction.Moved (a b : Instruction) : Prop :=
  ∃ position, b = { a with position }

namespace Compile

variable {c : Coupling ParseError Cursor}

theorem nests_onDraft (h : c.Nests) : c.onDraft.Nests :=
  ⟨h.alike, h.last⟩

section Lift

variable {α β : Type} {V : α → β → Prop} {D : α → Prop} {m : Scan α} {n : Scan β}

theorem together_lift (h : c.Together V D m n) :
    c.onDraft.Together V D (liftM m : Compile α) (liftM n : Compile β) := by
  intro d e hde
  rw [lift_apply, lift_apply]
  have hmn := h d.cursor e.cursor hde.1
  generalize m d.cursor = x at hmn
  generalize n e.cursor = y at hmn
  cases hmn with
  | ok value state => exact .ok value ⟨state, hde.2⟩
  | error h => exact .error h
  | @spent _ k value state =>
    -- the draft that the first run is left with
    exact Pairs.spent (c := c.onDraft) (s := { d with cursor := k }) value state _
  | last h => exact Pairs.last (c := c.onDraft) h _

theorem stays_lift (h : c.Stays D m) : c.onDraft.Stays D (liftM m : Compile α) := by
  intro d hd
  rw [lift_apply]
  rcases h d.cursor hd with ⟨a, k, ha, hD, hk⟩ | ⟨f, k, hf, hlast⟩
  · rw [ha]
    exact .inl ⟨a, _, rfl, hD, hk⟩
  · rw [hf]
    exact .inr ⟨f, _, rfl, hlast⟩

theorem follows_lift (h : c.Follows V D m n) :
    c.onDraft.Follows V D (liftM m : Compile α) (liftM n : Compile β) :=
  ⟨together_lift h.together, stays_lift h.stays⟩

theorem together_fail (h : c.Abreast) {cause : ErrorCause} (hcause : cause.place = .inside) :
    c.onDraft.Together V D (liftM (Scan.fail cause : Scan α) : Compile α)
      (liftM (Scan.fail cause : Scan β) : Compile β) :=
  together_lift (h.fail hcause)

end Lift

/-- What is entered into both drafts is the same. -/
theorem together_modifyGet {α : Type} {f : Draft → α × Draft}
    (hcursor : ∀ d, (f d).2.cursor = d.cursor)
    (hsame : ∀ d e : Draft, e.inventory = d.inventory →
      (f e).1 = (f d).1 ∧ (f e).2.inventory = (f d).2.inventory) :
    c.onDraft.Together Eq Never (modifyGet f : Compile α) (modifyGet f) := by
  intro d e hde
  obtain ⟨hvalue, hinventory⟩ := hsame d e hde.2
  refine .ok hvalue.symm ⟨?_, hinventory⟩
  rw [hcursor, hcursor]
  exact hde.1

theorem together_note (n n' : Note) {D : Unit → Prop} :
    c.onDraft.Together Eq D (note n) (note n') :=
  .modify fun _ _ h => h

theorem together_markInput (i : InputIndex) :
    c.onDraft.Together Eq Never (markInput i) (markInput i) := by
  apply together_modifyGet (fun d => rfl)
  intro d e h
  exact ⟨rfl, congrArg (fun i' => { i' with inputsRead := i'.inputsRead ||| (1 <<< i.val) }) h⟩

theorem together_markOutput (i : OutputIndex) :
    c.onDraft.Together Eq Never (markOutput i) (markOutput i) := by
  apply together_modifyGet (fun d => rfl)
  intro d e h
  exact ⟨rfl,
    congrArg (fun i' => { i' with outputsWritten := i'.outputsWritten ||| (1 <<< i.val) }) h⟩

theorem together_addNamed (name : String) (kind : ParameterKind) (value : Vec4) :
    c.onDraft.Together Eq Never (addNamed name kind value) (addNamed name kind value) := by
  apply together_modifyGet (fun d => rfl)
  intro d e h
  have hparameters : e.parameters = d.parameters := congrArg Inventory.parameters h
  rw [hparameters]
  exact ⟨rfl, congrArg (fun i' => { i' with
    parameters := (d.parameters.addNamed name kind value).2 }) h⟩

theorem together_addLiteral (value : Vec4) :
    c.onDraft.Together Eq Never (addLiteral value) (addLiteral value) := by
  apply together_modifyGet (fun d => rfl)
  intro d e h
  have hparameters : e.parameters = d.parameters := congrArg Inventory.parameters h
  rw [hparameters]
  exact ⟨rfl, congrArg (fun i' => { i' with
    parameters := (d.parameters.addLiteral value).2 }) h⟩

/-! ## Destinations -/

theorem together_inputRegister (h : c.Abreast) :
    c.onDraft.Together Eq Never inputRegister inputRegister := by
  apply (together_lift (Scan.follows_expect h "[" (by decide)).together).andThen
  intro _ _ _
  apply (together_lift (Scan.follows_identifier h).together).andThen
  rintro name _ rfl
  cases registerNamed? inputNames name with
  | none => exact together_fail h rfl
  | some i =>
    apply (together_lift (Scan.follows_expect h "]" (by decide)).together).andThen
    intro _ _ _
    exact (together_markInput i).andThen fun _ _ _ => .pure rfl

theorem together_outputRegister (h : c.Abreast) :
    c.onDraft.Together Eq Never outputRegister outputRegister := by
  apply (together_lift (Scan.follows_expect h "[" (by decide)).together).andThen
  intro _ _ _
  apply (together_lift (Scan.follows_identifier h).together).andThen
  rintro name _ rfl
  cases registerNamed? outputNames name with
  | none => exact together_fail h rfl
  | some i =>
    apply (together_lift (Scan.follows_expect h "]" (by decide)).together).andThen
    intro _ _ _
    apply (together_markOutput i).andThen
    intro _ _ _
    apply Together.look
    intro d e hde
    have houtputs : e.outputsWritten = d.outputsWritten := congrArg Inventory.outputsWritten hde.2
    rw [houtputs]
    split
    · exact together_fail h rfl d e hde
    · exact .ok rfl hde

theorem together_writable (h : c.Abreast) (name : String) :
    c.onDraft.Together Eq Never (writable name) (writable name) := by
  unfold writable
  cases ConditionRegister.ofName? name with
  | some register => exact .pure rfl
  | none =>
    dsimp only
    split
    · apply (together_outputRegister h).andThen
      rintro i _ rfl
      exact .pure rfl
    · cases temporaryNumber? name with
      | none => exact together_fail h rfl
      | some number =>
        apply (together_lift (Scan.together_temporary h number)).andThen
        rintro i _ rfl
        exact .pure rfl

theorem follows_destinationMask (h : c.Abreast) :
    c.Follows Eq Always destinationMask destinationMask := by
  apply (h.accept "." (by decide)).bind
  · rintro found _ rfl
    cases found with
    | true => exact (Scan.follows_writeMask h).together.weaken (fun _ _ h => h) fun _ _ => trivial
    | false => exact .pure rfl
  · rintro found rfl
    exact .pure trivial

theorem follows_destinationGuard (h : c.Abreast) :
    c.Follows Eq Always destinationGuard destinationGuard := by
  have hclose := Scan.follows_expect h ")" (by decide)
  apply (h.accept "(" (by decide)).bind
  · rintro found _ rfl
    cases found with
    | true =>
      apply ((Scan.follows_condition h).within h.toNests .conditionCode).together.bind
      · rintro test _ rfl
        exact hclose.together.andThen fun _ _ _ => .pure rfl
      · intro test _
        exact hclose.stays.andThen
    | false => exact .pure rfl
  · rintro found rfl
    exact .pure trivial

theorem follows_destination (h : c.Abreast) :
    c.onDraft.Follows Eq Always destination destination := by
  have hguard := follows_lift (follows_destinationGuard h)
  rw [destination, token_bind (Token.forall_not_isWhole fun _ _ => rfl)]
  apply (follows_lift (h.token _ _ rfl rfl)).andThen
  rintro t _ rfl
  cases t with
  | identifier name =>
    apply (together_writable h name).andThen
    rintro register _ rfl
    apply (follows_lift (follows_destinationMask h)).together.bind
    · rintro mask _ rfl
      exact hguard.together.map fun _ _ => congrArg _
    · intro mask _
      apply hguard.stays.bind
      intro guard _
      exact .pure trivial
  | integer digits => exact together_fail h rfl
  | punctuation mark => exact together_fail h rfl

/-! ## Sources -/

theorem together_scalarLiteral (h : c.Abreast) :
    c.onDraft.Together Eq Never scalarLiteral scalarLiteral := by
  apply (follows_lift h.number).together.andThen
  rintro value _ rfl
  apply (together_addLiteral _).andThen
  rintro index _ rfl
  exact (together_note _ _).andThen fun _ _ _ => .pure rfl

theorem together_vectorLiteral (h : c.Abreast) :
    c.onDraft.Together Eq Never vectorLiteral vectorLiteral := by
  apply (follows_lift (Scan.follows_vectorRest h)).together.andThen
  rintro value _ rfl
  apply (together_addLiteral _).andThen
  rintro index _ rfl
  exact (together_note _ _).andThen fun _ _ _ => .pure rfl

theorem together_namedOperand (h : c.Abreast) (name : String) :
    c.onDraft.Together Eq Never (namedOperand name) (namedOperand name) := by
  unfold namedOperand
  split
  · exact together_fail h rfl
  split
  · apply (together_inputRegister h).andThen
    rintro i _ rfl
    exact .pure rfl
  split
  · apply (together_lift (Scan.follows_localParameter h).together).andThen
    rintro i _ rfl
    exact .pure rfl
  cases temporaryNumber? name with
  | some number =>
    apply (together_lift (Scan.together_temporary h number)).andThen
    rintro i _ rfl
    exact .pure rfl
  | none =>
    apply Together.look
    intro d e hde
    have hparameters : e.parameters = d.parameters := congrArg Inventory.parameters hde.2
    rw [hparameters]
    cases d.parameters.lookup? name with
    | some index => exact .ok rfl hde
    | none => exact together_fail h rfl d e hde

theorem operand_eq_wholeToken : operand = (do
    if (← Scan.peek?).any beginsNumber then
      scalarLiteral
    else
      match ← Scan.wholeToken .unexpectedEnd .invalidSource with
      | .identifier name => namedOperand name
      | .punctuation '\x7b' => vectorLiteral
      | _ => Scan.fail .invalidSource) := by
  unfold operand
  congr 1
  funext ahead
  split
  · rfl
  · refine token_bind (Token.forall_not_isWhole fun mark hmark => ?_)
    split
    · contradiction
    · rename_i heq
      obtain rfl := Token.punctuation.inj heq
      exact absurd rfl hmark
    · rfl

theorem follows_operand (h : c.Abreast) : c.onDraft.Follows Eq Never operand operand := by
  have htoken := follows_lift (h.token .unexpectedEnd .invalidSource rfl rfl)
  rw [operand_eq_wholeToken]
  apply (follows_lift h.peek?).bind
  · rintro ahead _ rfl
    split
    · exact together_scalarLiteral h
    · apply htoken.together.andThen
      rintro t _ rfl
      split
      · exact together_namedOperand h _
      · exact together_vectorLiteral h
      · exact together_fail h rfl
  · rintro ahead rfl
    exact htoken.stays.andThen

/-- A suffix that goes together makes a source operand that does. -/
theorem follows_sourceWith (h : c.Abreast) {suffix : Operand → Scan Swizzle}
    (hsuffix : ∀ o, c.Follows Eq Always (suffix o) (suffix o)) :
    c.onDraft.Follows Eq Always (sourceWith suffix) (sourceWith suffix) := by
  have hbar := follows_lift (h.accept "|" (by decide))
  have hclose := follows_lift (Scan.follows_expect h "|" (by decide))
  have hnegation := follows_lift (Scan.follows_negation h)
  have hoperand := follows_operand h
  apply hnegation.bind
  · rintro outer _ rfl
    apply hbar.together.bind
    · rintro absolute _ rfl
      cases absolute with
      | false =>
        apply (Together.pure (D := Never) rfl).andThen
        rintro inner _ rfl
        apply hoperand.together.andThen
        rintro operand _ rfl
        apply (follows_lift (hsuffix operand)).together.map
        rintro swizzle _ rfl
        rfl
      | true =>
        apply hnegation.together.bind
        · rintro inner _ rfl
          apply hoperand.together.andThen
          rintro operand _ rfl
          apply (follows_lift (hsuffix operand)).together.bind
          · rintro swizzle _ rfl
            exact hclose.together.andThen fun _ _ _ => .pure rfl
          · intro swizzle _
            exact hclose.stays.andThen
        · intro inner _
          exact hoperand.stays.andThen
    · rintro absolute rfl
      apply (Stays.pure (D := Always) trivial).bind
      intro inner _
      exact hoperand.stays.andThen
  · -- nothing is left of the first text: it has no sign and no bar, and the operand is missed
    rintro outer rfl
    apply hbar.stays.bind
    rintro absolute rfl
    apply (Stays.pure (D := Always) trivial).bind
    intro inner _
    exact hoperand.stays.andThen

theorem follows_vectorSuffix (h : c.Abreast) (o : Operand) :
    c.Follows Eq Always (vectorSuffix o) (vectorSuffix o) := by
  apply (h.accept "." (by decide)).bind
  · rintro found _ rfl
    cases found with
    | true => exact (Scan.follows_swizzle h).together.weaken (fun _ _ h => h) fun _ _ => trivial
    | false => exact .pure rfl
  · rintro found rfl
    exact .pure trivial

theorem follows_scalarSuffix (h : c.Abreast) (o : Operand) :
    c.Follows Eq Always (scalarSuffix o) (scalarSuffix o) := by
  apply (h.accept "." (by decide)).bind
  · rintro found _ rfl
    cases found with
    | true =>
      apply (Scan.follows_swizzle h).together.andThen
      rintro s _ rfl
      split
      · exact .pure rfl
      · exact h.fail rfl
    | false =>
      cases o with
      | constant index => exact .pure rfl
      | register r => exact (h.failAhead rfl).together
  · rintro found rfl
    cases o with
    | constant index => exact .pure trivial
    | register r => exact (h.failAhead (V := Eq) rfl).stays

theorem follows_vectorSource (h : c.Abreast) :
    c.onDraft.Follows Eq Always vectorSource vectorSource :=
  (follows_sourceWith h (follows_vectorSuffix h)).within (nests_onDraft h.toNests) _

theorem follows_scalarSource (h : c.Abreast) :
    c.onDraft.Follows Eq Always scalarSource scalarSource :=
  (follows_sourceWith h (follows_scalarSuffix h)).within (nests_onDraft h.toNests) _

/-! ## Texture images -/

theorem isChunk_targetName (t : TextureTarget) : Token.isChunk t.name.toList = true := by
  cases t <;> decide

theorem follows_targetAmong (h : c.Abreast) (targets : List TextureTarget) :
    c.Follows Eq Never (targetAmong targets) (targetAmong targets) := by
  induction targets with
  | nil => exact h.failAhead rfl
  | cons target targets ih =>
    apply (h.acceptWord target.name (isChunk_targetName target)).bind
    · rintro found _ rfl
      cases found with
      | true => exact .pure rfl
      | false => exact ih.together
    · rintro found rfl
      exact ih.stays

theorem follows_textureUnit (h : c.Abreast) : c.Follows Eq Never textureUnit textureUnit := by
  apply (Scan.follows_identifier h).andThen
  rintro name _ rfl
  cases textureUnitNumber? name with
  | none => exact h.fail rfl
  | some number =>
    dsimp only
    split
    · exact .pure rfl
    · exact h.fail rfl

theorem together_useTexture (h : c.Abreast) (image : TextureImage) :
    c.onDraft.Together Eq Never (useTexture image) (useTexture image) := by
  apply Together.look
  intro d e hde
  have htextures : e.textures = d.textures := congrArg Inventory.textures hde.2
  rw [htextures]
  cases d.textures.get image.unit with
  | some used =>
    dsimp only
    split
    · exact together_fail h rfl d e hde
    · exact .ok rfl hde
  | none =>
    refine .ok rfl ⟨hde.1, congrArg (fun i => { i with
      textures := d.textures.set image.unit.val (some image.target) image.unit.isLt }) hde.2⟩

theorem follows_textureImage (h : c.Abreast) :
    c.onDraft.Follows Eq Never textureImage textureImage := by
  apply (follows_lift (follows_textureUnit h)).andThen
  rintro unit _ rfl
  apply (follows_lift (Scan.follows_expect h "," (by decide))).together.andThen
  intro _ _ _
  apply (follows_lift (follows_targetAmong h TextureTarget.all)).together.andThen
  rintro target _ rfl
  exact (together_useTexture h ⟨unit, target⟩).andThen fun _ _ _ => .pure rfl

/-! ## Instructions -/

theorem follows_commaSeparated (h : c.Abreast) {α : Type} {item : Compile α}
    (hitem : c.onDraft.Follows Eq Always item item) (count : Nat) :
    c.onDraft.Follows Eq Always (commaSeparated item count) (commaSeparated item count) := by
  induction count with
  | zero => exact .pure rfl trivial
  | succ count ih =>
    cases count with
    | zero => exact hitem.map fun _ _ h => congrArg ([·]) h
    | succ count =>
      have hcomma := follows_lift (Scan.follows_expect h "," (by decide))
      apply hitem.bind
      · rintro a _ rfl
        apply hcomma.together.andThen
        intro _ _ _
        exact ih.together.map fun _ _ => congrArg _
      · intro a _
        exact hcomma.stays.andThen

/-- The operands do not depend on where the instruction was read. -/
theorem follows_operands (h : c.Abreast) {a b : Instruction} (hab : a.Moved b) (o : Operands) :
    c.onDraft.Follows Instruction.Moved Always (operands a o) (operands b o) := by
  obtain ⟨position, rfl⟩ := hab
  have hvectors := follows_commaSeparated h (follows_vectorSource h)
  cases o with
  | vectors count =>
    apply (hvectors count).map
    rintro sources _ rfl
    exact ⟨position, rfl⟩
  | scalars count =>
    apply (follows_commaSeparated h (follows_scalarSource h) count).map
    rintro sources _ rfl
    exact ⟨position, rfl⟩
  | lookup vectors =>
    have hcomma := follows_lift (Scan.follows_expect h "," (by decide))
    apply (hvectors vectors).bind
    · rintro sources _ rfl
      apply hcomma.together.andThen
      intro _ _ _
      have himage := (follows_textureImage h).within (nests_onDraft h.toNests) .textureImage
      apply himage.together.andThen
      rintro image _ rfl
      exact .pure ⟨position, rfl⟩
    · intro sources _
      exact hcomma.stays.andThen
  | condition =>
    apply (follows_lift ((Scan.follows_condition h).within h.toNests .conditionCode)).map
    rintro condition _ rfl
    exact ⟨position, rfl⟩

theorem together_destinationOf (h : c.Abreast) {a b : Instruction} (hab : a.Moved b)
    (writes : Bool) :
    c.onDraft.Together Instruction.Moved Never (destinationOf a writes)
      (destinationOf b writes) := by
  obtain ⟨position, rfl⟩ := hab
  cases writes with
  | false => exact .pure ⟨position, rfl⟩
  | true =>
    have hcomma := follows_lift (Scan.follows_expect h "," (by decide))
    apply ((follows_destination h).within (nests_onDraft h.toNests)
      .destinationRegister).together.bind
    · rintro target _ rfl
      exact hcomma.together.andThen fun _ _ _ => .pure ⟨position, rfl⟩
    · intro target _
      exact hcomma.stays.andThen

theorem place_of_readMnemonic {mnemonic : String} {cause : ErrorCause}
    (h : readMnemonic mnemonic = .error cause) : cause.place = .inside := by
  unfold readMnemonic at h
  split at h
  · cases h
    rfl
  · split at h
    · cases h
      rfl
    · split at h
      · cases h
      · cases h
        rfl

theorem together_instruction (h : c.Abreast) (mnemonic : String) :
    c.onDraft.Together Instruction.Moved Never (instruction mnemonic) (instruction mnemonic) := by
  apply Together.look
  intro d e hde
  dsimp only
  cases hmnemonic : readMnemonic mnemonic with
  | error cause => exact together_fail h (place_of_readMnemonic hmnemonic) d e hde
  | ok found =>
    have hclose := follows_lift (Scan.follows_expect h ";" (by decide))
    -- from here on the instructions differ in their position alone
    refine (together_destinationOf h ⟨e.cursor.tokenStart, rfl⟩ found.1.writes).andThen
      (fun a b hab => ?_) d e hde
    apply (follows_operands h hab found.1.operands).together.bind
    · intro a b hab
      exact hclose.together.andThen fun _ _ _ => .pure hab
    · intro a _
      exact hclose.stays.andThen

/-! ## Statements -/

theorem follows_definitionValue (h : c.Abreast) (kind : ParameterKind) :
    c.Follows Eq Always (definitionValue kind) (definitionValue kind) := by
  have hconstant := Scan.follows_constant h
  have hgiven : c.Follows Eq Always (Scan.expect "=" >>= fun _ => Scan.constant)
      (Scan.expect "=" >>= fun _ => Scan.constant) := by
    apply (Scan.follows_expect h "=" (by decide)).andThen
    intro _ _ _
    exact hconstant.together.weaken (fun _ _ h => h) fun _ _ => trivial
  cases kind with
  | constant => exact hgiven
  | literal => exact hgiven
  | declared =>
    apply (h.accept "=" (by decide)).bind
    · rintro found _ rfl
      cases found with
      | true => exact hconstant.together.weaken (fun _ _ h => h) fun _ _ => trivial
      | false => exact .pure rfl
    · rintro found rfl
      exact .pure trivial

theorem together_definition (h : c.Abreast) (kind : ParameterKind) :
    c.onDraft.Together Eq Never (definition kind) (definition kind) := by
  have hclose := follows_lift (Scan.follows_expect h ";" (by decide))
  apply (follows_lift (Scan.follows_identifier h)).together.andThen
  rintro name _ rfl
  split
  · exact (together_fail h (V := fun _ _ => False) (D := Never) rfl).andThen fun _ _ => False.elim
  apply Together.look
  intro d e hde
  have hparameters : e.parameters = d.parameters := congrArg Inventory.parameters hde.2
  rw [hparameters]
  split
  · have hfail : c.onDraft.Together (fun _ _ => False) Never
        (liftM (Scan.fail (.duplicateSymbol name) : Scan Unit) : Compile Unit)
        (liftM (Scan.fail (.duplicateSymbol name) : Scan Unit) : Compile Unit) :=
      together_fail h rfl
    exact hfail.andThen (fun _ _ => False.elim) d e hde
  · refine (follows_lift (follows_definitionValue h kind)).together.bind ?_ ?_ d e hde
    · rintro value _ rfl
      apply hclose.together.andThen
      intro _ _ _
      apply (together_addNamed name kind value).andThen
      rintro index _ rfl
      exact together_note _ _
    · intro value _
      exact hclose.stays.andThen

theorem together_finish (h : c.Abreast) :
    c.onDraft.Together Instruction.Moved Always finish finish := by
  apply Together.look
  intro d e hde
  have hmissing : c.onDraft.Follows Instruction.Moved Always
      (liftM (Scan.failAhead .codeAfterEnd : Scan Instruction) : Compile Instruction)
      (liftM (Scan.failAhead .codeAfterEnd : Scan Instruction) : Compile Instruction) :=
    follows_lift (h.failAhead rfl)
  refine (together_lift (?_ : c.Together Eq (· = true) Scan.atEnd Scan.atEnd)).bind ?_ ?_ d e hde
  · apply h.peek?.together.bind
    · rintro ahead _ rfl
      exact .pure rfl
    · rintro ahead rfl
      exact .pure rfl
  · rintro found _ rfl
    cases found with
    | true => exact .pure ⟨_, rfl⟩
    | false => exact hmissing.together
  · rintro found rfl
    exact .pure trivial

theorem follows_statementName (h : c.Abreast) :
    c.Follows Eq Never statementName statementName := by
  rw [statementName, Scan.token?_bind rfl (Token.forall_not_isWhole fun _ _ => rfl)]
  apply (h.token _ _ rfl rfl).andThen
  rintro t _ rfl
  cases t with
  | identifier name => exact .pure rfl
  | integer digits => exact h.fail rfl
  | punctuation mark => exact h.fail rfl

/-- Statements that were read in different places. -/
inductive Statement.Moved : Statement → Statement → Prop where
  | definition : Moved .definition .definition
  | instruction {a b : Instruction} (h : a.Moved b) : Moved (.instruction a) (.instruction b)
  | finish {a b : Instruction} (h : a.Moved b) : Moved (.finish a) (.finish b)

/-- Only behind the `END` nothing need be left of a text. -/
def Statement.IsFinish (added : Statement) : Prop :=
  ∃ ins, added = .finish ins

theorem together_statement (h : c.Abreast) (count : Nat) :
    c.onDraft.Together Statement.Moved Statement.IsFinish (statement count) (statement count) := by
  apply (together_lift (follows_statementName h).together).andThen
  rintro name _ rfl
  split
  · exact together_fail h rfl
  split
  · apply ((together_definition h .constant).within (nests_onDraft h.toNests) _).andThen
    intro _ _ _
    exact .pure .definition
  split
  · apply ((together_definition h .declared).within (nests_onDraft h.toNests) _).andThen
    intro _ _ _
    exact .pure .definition
  split
  · apply (together_finish h).bind
    · intro a b hab
      exact .pure (.finish hab)
    · intro a _
      exact .pure ⟨a, rfl⟩
  · apply ((together_instruction h name).within (nests_onDraft h.toNests) _).andThen
    intro a b hab
    apply Together.look
    intro d e hde
    exact ((together_note _ _ (D := Never)).andThen fun _ _ _ => .pure (.instruction hab)) d e hde

end Compile

end FragmentAssembly
