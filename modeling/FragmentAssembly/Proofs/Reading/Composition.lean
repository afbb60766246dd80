import FragmentAssembly.Proofs.Assembly.Join
import FragmentAssembly.Proofs.Disassembly.Statement
import FragmentAssembly.Proofs.Grammar.Item
import FragmentAssembly.Proofs.Reading.Growth
import FragmentAssembly.Proofs.Reading.Locality

/-!
# Reading behind another text

A statement that was read once is read again behind another text, if the two texts are compatible.
It then denotes the same, though its literals may have other indices.
-/

namespace FragmentAssembly

/-! ## Operands in larger tables -/

section Extension

variable {s s' t t' : ParameterTable}

theorem Readable.Alike.extends {a b : Readable} (h : a.Alike s t b) (hs : s'.Extends s)
    (ht : t'.Extends t) : a.Alike s' t' b := by
  rcases h.cases with ⟨rfl, hregister⟩ | ⟨i, j, entry, rfl, rfl, hi, hj⟩
  · exact .of_register hregister
  · exact .of_entry (hs.get? hi) (ht.get? hj)

theorem Source.Alike.extends {a b : Source} (h : a.Alike s t b) (hs : s'.Extends s)
    (ht : t'.Extends t) : a.Alike s' t' b :=
  { h with register := h.register.extends hs ht }

theorem Instruction.Alike.extends {a b : Instruction} (h : a.Alike s t b) (hs : s'.Extends s)
    (ht : t'.Extends t) : a.Alike s' t' b :=
  { h with sources := h.sources.imp fun _ _ hsource => hsource.extends hs ht }

end Extension

namespace Compile

/-- Operands as they are read: the same register, or constants that are equal. -/
inductive Operand.Alike (s t : ParameterTable) : Operand → Operand → Prop where
  | register {r : Readable} (h : ∀ i, r ≠ .parameter i) : Alike s t (.register r) (.register r)
  | constant {i j : Nat} {entry : Parameter} (hi : s.get? i = some entry)
    (hj : t.get? j = some entry) : Alike s t (.constant i) (.constant j)

theorem Operand.Alike.extends {s s' t t' : ParameterTable} {a b : Operand}
    (h : a.Alike s t b) (hs : s'.Extends s)
    (ht : t'.Extends t) : a.Alike s' t' b := by
  cases h with
  | register h => exact .register h
  | constant hi hj => exact .constant (hs.get? hi) (ht.get? hj)

theorem Operand.Alike.readable {s t : ParameterTable} {a b : Operand} (h : a.Alike s t b) :
    a.readable.Alike s t b.readable := by
  cases h with
  | register h => exact .of_register h
  | constant hi hj => exact .of_entry hi hj

/-! ## Reading on -/

/-- What two readings return, with the tables that they leave. -/
abbrev Comparison (α : Type) : Type :=
  α → α → ParameterTable → ParameterTable → Prop

/-- It holds of later tables as well. -/
def Comparison.Lasts {α : Type} (V : Comparison α) : Prop :=
  ∀ ⦃a a' s s' t t'⦄, V a a' s t → s'.Extends s → t'.Extends t → V a a' s' t'

/-- What is the same in both readings. -/
def same {α : Type} : Comparison α :=
  fun a a' _ _ => a' = a

theorem lasts_same {α : Type} : (same : Comparison α).Lasts :=
  fun _ _ _ _ _ _ h _ _ => h

/-- What the first action reads in front of a stop, the second one reads behind a text whose
inventory `b` is compatible, and it fails behind any other text. -/
def Carries {α : Type} (m n : Compile α) (V : Comparison α) : Prop :=
  ∀ ⦃d e : Draft⦄ ⦃a : α⦄, m d = .ok a e → d.inventory.Grows e.inventory ∧
    ∀ ⦃stop : Char⦄, Token.isStop stop = true →
      ∀ ⦃rest u : List Char⦄, e.cursor.ahead = rest ++ stop :: u →
        ∃ text, d.cursor.ahead = text ++ stop :: u ∧
          ∀ (v : List Char) (b i : Inventory), b.Joined d.inventory i →
            n.Builds (text ++ stop :: v) i (b.Compatible e.inventory) (rest ++ stop :: v)
              fun a' j => b.Joined e.inventory j ∧ j.parameters.Extends i.parameters ∧
                V a a' e.parameters j.parameters

namespace Carries

variable {α β : Type} {m n : Compile α} {f g : α → Compile β} {V : Comparison α}
  {W : Comparison β}

theorem pure {a a' : α} (h : ∀ s t, V a a' s t) : Carries (Pure.pure a) (Pure.pure a') V := by
  intro d e c hok
  obtain ⟨rfl, rfl⟩ := pure_eq_ok.mp hok
  refine ⟨.refl _, fun stop _ rest u hrest => ⟨rest, hrest, fun v b i hi => ?_⟩⟩
  refine Builds.congr_possible (iff_true_intro hi.compatible) ?_
  exact .pure ⟨hi, .refl _, h _ _⟩ _

/-- The continuations only know `S` of what was returned, but whatever was found out of it is still
true in the end. -/
theorem bind {S : α → α → Prop} (hself : ∀ a, S a a) (hm : Carries m n V)
    (hVS : ∀ {a a' s t}, V a a' s t → S a a') (hlasts : V.Lasts)
    (hf : ∀ a a', S a a' → Carries (f a) (g a') fun c c' s t => V a a' s t → W c c' s t) :
    Carries (m >>= f) (n >>= g) W := by
  intro d e c hok
  obtain ⟨a, d', ha, hc⟩ := bind_eq_ok.mp hok
  obtain ⟨hgrows, hread⟩ := hm ha
  obtain ⟨hgrows', hread'⟩ := hf a a (hself a) hc
  refine ⟨hgrows.trans hgrows', fun stop hstop rest u hrest => ?_⟩
  obtain ⟨mid, hmid, -⟩ := hread' hstop hrest
  obtain ⟨text, htext, hbuilds⟩ := hread hstop hmid
  refine ⟨text, htext, fun v b i hi => ?_⟩
  have hpossible : b.Compatible e.inventory ↔
      b.Compatible d'.inventory ∧ b.Compatible e.inventory :=
    (and_iff_right_of_imp hgrows'.compatible).symm
  refine Builds.congr_possible hpossible ((hbuilds v b i hi).bind fun a' j hj => ?_)
  obtain ⟨hjoined, hextends, hV⟩ := hj
  obtain ⟨-, hread''⟩ := hf a a' (hVS hV) hc
  obtain ⟨mid', hmid', hbuilds'⟩ := hread'' hstop hrest
  obtain rfl : mid' = mid := List.append_cancel_right (hmid'.symm.trans hmid)
  refine (hbuilds' v b j hjoined).weaken fun c' k hk => ?_
  obtain ⟨hjoined', hextends', hW⟩ := hk
  exact ⟨hjoined', hextends.trans hextends', hW (hlasts hV hgrows'.onward hextends')⟩

/-- The continuations know nothing of what was returned. -/
theorem collect (hm : Carries m n V) (hlasts : V.Lasts)
    (hf : ∀ a a', Carries (f a) (g a') fun c c' s t => V a a' s t → W c c' s t) :
    Carries (m >>= f) (n >>= g) W :=
  hm.bind (S := fun _ _ => True) (fun _ => trivial) (fun _ => trivial) hlasts fun a a' _ => hf a a'

/-- What both readings return is the same. -/
theorem andThen (hm : Carries m n same) (hf : ∀ a, Carries (f a) (g a) W) :
    Carries (m >>= f) (n >>= g) W := by
  refine hm.bind (S := fun a a' => a' = a) (fun _ => rfl) id lasts_same fun a a' ha => ?_
  subst ha
  intro d e c hok
  obtain ⟨hgrows, hread⟩ := hf a' hok
  refine ⟨hgrows, fun stop hstop rest u hrest => ?_⟩
  obtain ⟨text, htext, hbuilds⟩ := hread hstop hrest
  exact ⟨text, htext, fun v b i hi => (hbuilds v b i hi).weaken fun c' j hj =>
    ⟨hj.1, hj.2.1, fun _ => hj.2.2⟩⟩

theorem lift {m : Scan α} (hm : m.IsLocal) : Carries (liftM m) (liftM m) same := by
  intro d e a hok
  obtain ⟨k, ha, rfl⟩ := lift_eq_ok.mp hok
  refine ⟨.refl _, fun stop hstop rest u hrest => ?_⟩
  obtain ⟨text, htext, hreads⟩ := hm ha hstop hrest
  refine ⟨text, htext, fun v b i hi => ?_⟩
  refine Builds.congr_possible (iff_true_intro hi.compatible) ?_
  refine (Builds.lift (hreads v)).weaken ?_
  rintro a' j ⟨rfl, rfl⟩
  exact ⟨hi, .refl _, rfl⟩

theorem fail {cause : ErrorCause} :
    Carries (liftM (Scan.fail cause : Scan α)) n V :=
  fun _ _ _ hok => (lift_fail_ne_ok hok).elim

theorem within {c : Construct} (h : Carries m n V) :
    Carries (within c m) (FragmentAssembly.within c n) V := by
  intro d e a hok
  obtain ⟨hgrows, hread⟩ := h (within_eq_ok.mp hok)
  refine ⟨hgrows, fun stop hstop rest u hrest => ?_⟩
  obtain ⟨text, htext, hbuilds⟩ := hread hstop hrest
  exact ⟨text, htext, fun v b i hi => (hbuilds v b i hi).within⟩

/-- An action that reads nothing. -/
theorem aside (h : ∀ {d e : Draft} {a : α}, m d = .ok a e → e.cursor = d.cursor ∧
      d.inventory.Grows e.inventory ∧ ∀ (cs : List Char) (b i : Inventory), b.Joined d.inventory i →
        n.Builds cs i (b.Compatible e.inventory) cs fun a' j => b.Joined e.inventory j ∧
          j.parameters.Extends i.parameters ∧ V a a' e.parameters j.parameters) :
    Carries m n V := by
  intro d e a hok
  obtain ⟨hcursor, hgrows, hbuilds⟩ := h hok
  refine ⟨hgrows, fun stop _ rest u hrest => ⟨rest, ?_, fun v b i hi => hbuilds _ b i hi⟩⟩
  rw [← hcursor]
  exact hrest

end Carries

/-! ## Registers and texture units -/

theorem carries_note (n n' : Note) : Carries (note n) (note n') same := by
  refine .aside fun {d e a} hok => ?_
  obtain rfl := modify_eq_ok.mp hok
  refine ⟨rfl, .refl _, fun cs b i hi => ?_⟩
  refine Builds.congr_possible (iff_true_intro hi.compatible) ?_
  refine (builds_note n').weaken ?_
  rintro _ _ rfl
  exact ⟨hi, .refl _, rfl⟩

theorem carries_markInput (n : InputIndex) : Carries (markInput n) (markInput n) same := by
  refine .aside fun {d e a} hok => ?_
  obtain rfl := modify_eq_ok.mp hok
  refine ⟨rfl, .input _ n, fun cs b i hi => ?_⟩
  have hjoined := hi.input n
  refine Builds.congr_possible (iff_true_intro hjoined.compatible) ?_
  apply Builds.change
  rintro d' rfl
  exact ⟨rfl, hjoined, .refl _, rfl⟩

theorem carries_inputRegister : Carries inputRegister inputRegister same := by
  refine (Carries.lift (Scan.isLocal_expect rfl)).andThen fun _ =>
    (Carries.lift Scan.isLocal_identifier).andThen fun name => ?_
  split
  · exact .fail
  · exact (Carries.lift (Scan.isLocal_expect rfl)).andThen fun _ =>
      (carries_markInput _).andThen fun _ => .pure fun _ _ => rfl

/-- Marking an output, and the check behind it. -/
theorem carries_markOutput (n : OutputIndex) :
    Carries (do
        markOutput n
        if writesBothColors (← get).outputsWritten then
          Scan.fail .conflictingColorOutputs
        else
          return n)
      (do
        markOutput n
        if writesBothColors (← get).outputsWritten then
          Scan.fail .conflictingColorOutputs
        else
          return n) same := by
  refine .aside fun {d e a} hok => ?_
  simp only [bind_eq_ok, markOutput, modify_eq_ok, get_eq_ok] at hok
  obtain ⟨-, d', rfl, -, -, ⟨rfl, rfl⟩, hok⟩ := hok
  split at hok
  · exact (lift_fail_ne_ok hok).elim
  obtain ⟨rfl, rfl⟩ := pure_eq_ok.mp hok
  refine ⟨rfl, .output _ n, fun cs b i hi => ?_⟩
  have hcompatible := hi.compatible_output n
  have hmark : (markOutput n).Builds cs i True cs fun _ j =>
      j = { i with outputsWritten := i.outputsWritten ||| (1 <<< n.val) } := by
    apply Builds.change
    rintro d' rfl
    exact ⟨rfl, rfl⟩
  refine hmark.andThen ?_
  rintro _ _ rfl
  refine Builds.look fun d' _ hd' => ?_
  have houtputs : d'.outputsWritten = i.outputsWritten ||| (1 <<< n.val) :=
    congrArg Inventory.outputsWritten hd'
  rw [houtputs]
  split
  · rename_i hboth
    exact .fail fun hpossible => Bool.false_ne_true ((hcompatible.mp hpossible).symm.trans hboth)
  · rename_i hone
    have hpossible := hcompatible.mpr (Bool.eq_false_iff.mpr hone)
    refine Builds.congr_possible (iff_true_intro hpossible) ?_
    exact .pure ⟨hi.output n hpossible, .refl _, rfl⟩ _

theorem carries_outputRegister : Carries outputRegister outputRegister same := by
  refine (Carries.lift (Scan.isLocal_expect rfl)).andThen fun _ =>
    (Carries.lift Scan.isLocal_identifier).andThen fun name => ?_
  split
  · exact .fail
  · exact (Carries.lift (Scan.isLocal_expect rfl)).andThen fun _ => carries_markOutput _

theorem carries_writable (name : String) : Carries (writable name) (writable name) same := by
  unfold writable
  split
  · exact .pure fun _ _ => rfl
  · split
    · exact carries_outputRegister.andThen fun _ => .pure fun _ _ => rfl
    · split
      · exact (Carries.lift (Scan.isLocal_temporary _)).andThen fun _ => .pure fun _ _ => rfl
      · exact .fail

theorem carries_destination : Carries destination destination same := by
  refine (Carries.lift Scan.isLocal_token).andThen fun t => ?_
  split
  · exact (carries_writable _).andThen fun _ =>
      (Carries.lift isLocal_destinationMask).andThen fun _ =>
        (Carries.lift isLocal_destinationGuard).andThen fun _ => .pure fun _ _ => rfl
  · exact .fail

theorem carries_useTexture (image : TextureImage) :
    Carries (useTexture image) (useTexture image) same := by
  refine .aside fun {d e a} hok => ?_
  have hsamples := samples_of_useTexture hok
  refine ⟨?_, .sample hsamples, fun cs b i hi => ?_⟩
  · simp only [useTexture, bind_eq_ok, get_eq_ok] at hok
    obtain ⟨f, g, ⟨rfl, rfl⟩, hok⟩ := hok
    cases hused : d.textures.get image.unit with
    | some used =>
      simp only [hused] at hok
      split at hok
      · exact (lift_fail_ne_ok hok).elim
      · obtain ⟨-, rfl⟩ := pure_eq_ok.mp hok
        rfl
    | none =>
      simp only [hused] at hok
      obtain rfl := set_eq_ok.mp hok
      rfl
  -- the unit may be in use by the other text
  have hcompatible := hi.compatible_sample hsamples
  refine Builds.look fun d' hahead hd' => ?_
  have htextures : d'.textures = i.textures := congrArg Inventory.textures hd'
  rw [htextures]
  cases hused : i.textures.get image.unit with
  | some used =>
    rw [hused] at hcompatible
    dsimp only
    split
    · rename_i hother
      exact .fail fun hpossible => hother (hcompatible.mp hpossible used rfl)
    · rename_i hsame
      obtain rfl := Decidable.not_not.mp hsame
      have hpossible := hcompatible.mpr fun _ h => (Option.some.inj h).symm
      refine Builds.congr_possible (iff_true_intro hpossible) ?_
      exact .pure ⟨hi.sample hsamples (.again hused) hpossible, .refl _, rfl⟩ _
  | none =>
    rw [hused] at hcompatible
    have hpossible := hcompatible.mpr fun _ hused => by cases hused
    refine Builds.congr_possible (iff_true_intro hpossible) ?_
    rintro _ - -
    obtain rfl := hd'
    exact .of_ok rfl ⟨hahead, hi.sample hsamples (.fresh hused) hpossible, .refl _, rfl⟩

theorem carries_textureImage : Carries textureImage textureImage same :=
  (Carries.lift isLocal_textureUnit).andThen fun _ =>
    (Carries.lift (Scan.isLocal_expect rfl)).andThen fun _ =>
      (Carries.lift (isLocal_targetAmong _)).andThen fun _ =>
        (carries_useTexture _).andThen fun _ => .pure fun _ _ => rfl

/-! ## Source operands -/

theorem carries_addLiteral (v : Vec4) :
    Carries (addLiteral v) (addLiteral v) fun index index' s t =>
      ∃ entry, s.get? index = some entry ∧ t.get? index' = some entry := by
  refine .aside fun {d e index} hok => ?_
  obtain ⟨rfl, rfl⟩ := modifyGet_eq_ok.mp hok
  refine ⟨rfl, .literal _ v, fun cs b i hi => ?_⟩
  have hjoined := hi.literal v
  refine Builds.congr_possible (iff_true_intro hjoined.compatible) ?_
  refine (builds_addLiteral v).weaken ?_
  rintro _ _ ⟨rfl, rfl⟩
  exact ⟨hjoined, ParameterTable.extends_addLiteral _ v, hi.parameters.get?_addLiteral hi.regular v⟩

/-- The end of a literal. -/
theorem carries_literal (v : Vec4) (noted : Nat → Note) :
    Carries (do
        let index ← addLiteral v
        note (noted index)
        return Operand.constant index)
      (do
        let index ← addLiteral v
        note (noted index)
        return Operand.constant index) fun o o' s t => o.Alike s t o' := by
  refine (carries_addLiteral v).collect (fun _ _ _ _ _ _ ⟨entry, hs, ht⟩ hs' ht' =>
    ⟨entry, hs'.get? hs, ht'.get? ht⟩) fun index index' => ?_
  refine (carries_note _ _).andThen fun _ => .pure fun s t => ?_
  rintro ⟨entry, hs, ht⟩
  exact .constant hs ht

theorem carries_scalarLiteral :
    Carries scalarLiteral scalarLiteral fun o o' s t => o.Alike s t o' :=
  (Carries.lift Scan.isLocal_number).andThen fun value =>
    carries_literal _ fun index => .scalarLiteral index value

theorem carries_vectorLiteral :
    Carries vectorLiteral vectorLiteral fun o o' s t => o.Alike s t o' :=
  (Carries.lift Scan.isLocal_vectorRest).andThen fun value =>
    carries_literal _ fun index => .vectorLiteral index value

/-- A name is looked up in the table of its own reading. -/
theorem carries_lookup (name : String) :
    Carries (do
        match (← get).parameters.lookup? name with
        | some index => return Operand.constant index
        | none => Scan.fail (.undefinedSymbol name))
      (do
        match (← get).parameters.lookup? name with
        | some index => return Operand.constant index
        | none => Scan.fail (.undefinedSymbol name)) fun o o' s t => o.Alike s t o' := by
  refine .aside fun {d e o} hok => ?_
  simp only [bind_eq_ok, get_eq_ok] at hok
  obtain ⟨_, _, ⟨rfl, rfl⟩, hok⟩ := hok
  cases hfound : d.parameters.lookup? name with
  | none =>
    rw [hfound] at hok
    exact (lift_fail_ne_ok hok).elim
  | some index =>
    rw [hfound] at hok
    obtain ⟨rfl, rfl⟩ := pure_eq_ok.mp hok
    refine ⟨rfl, .refl _, fun cs b i hi => ?_⟩
    refine Builds.congr_possible (iff_true_intro hi.compatible) ?_
    refine Builds.look fun d' _ hd' => ?_
    obtain ⟨index', entry, hfound', hs, ht⟩ := hi.parameters.lookup? hi.regular hfound
    have hparameters : d'.parameters = i.parameters := congrArg Inventory.parameters hd'
    rw [hparameters, hfound']
    exact .pure ⟨hi, .refl _, .constant hs ht⟩ _

theorem carries_namedOperand (name : String) :
    Carries (namedOperand name) (namedOperand name) fun o o' s t => o.Alike s t o' := by
  unfold namedOperand
  split
  · exact .fail
  · split
    · exact carries_inputRegister.andThen fun _ => .pure fun _ _ => .register nofun
    · split
      · exact (Carries.lift Scan.isLocal_localParameter).andThen fun _ =>
          .pure fun _ _ => .register nofun
      · split
        · exact (Carries.lift (Scan.isLocal_temporary _)).andThen fun _ =>
            .pure fun _ _ => .register nofun
        · exact carries_lookup name

theorem carries_operand : Carries operand operand fun o o' s t => o.Alike s t o' := by
  refine (Carries.lift Scan.isLocal_peek?).andThen fun t => ?_
  split
  · exact carries_scalarLiteral
  · refine (Carries.lift Scan.isLocal_token).andThen fun t => ?_
    split
    · exact carries_namedOperand _
    · exact carries_vectorLiteral
    · exact .fail

theorem carries_sourceWith {suffix : Operand → Scan Swizzle} (hlocal : ∀ o, (suffix o).IsLocal)
    (hsuffix : ∀ {s t o o'}, Operand.Alike s t o o' → suffix o' = suffix o) :
    Carries (sourceWith suffix) (sourceWith suffix) fun r r' s t => r.Alike s t r' := by
  -- what follows the operand depends on it only through the suffix
  have hrest : ∀ (outer inner absolute : Bool), Carries (do
        let operand ← operand
        let swizzle ← suffix operand
        if absolute then
          Scan.expect "|"
        return (⟨operand.readable, swizzle, inner, absolute, absolute && outer⟩ : Source))
      (do
        let operand ← operand
        let swizzle ← suffix operand
        if absolute then
          Scan.expect "|"
        return (⟨operand.readable, swizzle, inner, absolute, absolute && outer⟩ : Source))
      fun r r' s t => r.Alike s t r' := by
    intro outer inner absolute
    refine carries_operand.bind (S := fun o o' => suffix o' = suffix o) (fun _ => rfl) hsuffix
      (fun _ _ _ _ _ _ => Operand.Alike.extends) fun o o' ho => ?_
    rw [ho]
    refine (Carries.lift (hlocal o)).andThen fun swizzle => ?_
    have hlast : ∀ s t, Operand.Alike s t o o' → Source.Alike s t
        ⟨o.readable, swizzle, inner, absolute, absolute && outer⟩
        ⟨o'.readable, swizzle, inner, absolute, absolute && outer⟩ :=
      fun s t h => ⟨h.readable, rfl, rfl, rfl, rfl⟩
    cases absolute with
    | true => exact (Carries.lift (Scan.isLocal_expect rfl)).andThen fun _ => .pure hlast
    | false => exact .pure hlast
  refine (Carries.lift Scan.isLocal_negation).andThen fun outer =>
    (Carries.lift (Scan.isLocal_accept rfl)).andThen fun absolute => ?_
  cases absolute with
  | true => exact (Carries.lift Scan.isLocal_negation).andThen fun inner => hrest outer inner true
  | false => exact hrest outer outer false

theorem carries_vectorSource :
    Carries vectorSource vectorSource fun r r' s t => r.Alike s t r' :=
  (carries_sourceWith isLocal_vectorSuffix fun _ => rfl).within

theorem carries_scalarSource :
    Carries scalarSource scalarSource fun r r' s t => r.Alike s t r' := by
  refine (carries_sourceWith isLocal_scalarSuffix fun ho => ?_).within
  cases ho <;> rfl

end Compile

end FragmentAssembly
