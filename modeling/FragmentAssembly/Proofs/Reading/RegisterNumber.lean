import FragmentAssembly.Compile
import FragmentAssembly.Proofs.Grammar.Spelling
import FragmentAssembly.Proofs.Grammar.Item
import FragmentAssembly.Proofs.Text.Lexer

/-!
# Numbers of registers

A register is named by a number of any length.  The number is compared with the size of the register
file when the name is read, and a compilation that comes to a number out of range fails there.
-/

namespace FragmentAssembly

/-! ## Parts of a run -/

/-- The action `n` runs from the state `t` as a part of another action that runs from `s`. -/
inductive Part {σ β : Type} (n : EStateM ParseError σ β) (t : σ) :
    {α : Type} → EStateM ParseError σ α → σ → Prop where
  | whole : Part n t n t
  | first {α γ : Type} {m : EStateM ParseError σ α} {s : σ} (f : α → EStateM ParseError σ γ)
    (h : Part n t m s) : Part n t (m >>= f) s
  | second {α γ : Type} {m : EStateM ParseError σ α} {f : α → EStateM ParseError σ γ} {s u : σ}
    {a : α} (hm : m s = .ok a u) (h : Part n t (f a) u) : Part n t (m >>= f) s
  | within {α : Type} {m : EStateM ParseError σ α} {s : σ} (c : Construct) (h : Part n t m s) :
    Part n t (within c m) s

/-- An action fails with any of its parts.  Only the constructs around the error are added. -/
theorem Part.fails {σ α β : Type} {n : EStateM ParseError σ β} {t : σ}
    {m : EStateM ParseError σ α} {s : σ} (h : Part n t m s) {e : ParseError} {u : σ}
    (hn : n t = .error e u) :
    ∃ e', m s = .error e' u ∧ e'.cause = e.cause ∧ e'.position = e.position := by
  induction h with
  | whole => exact ⟨e, hn, rfl, rfl⟩
  | first f _ ih =>
    obtain ⟨e', hm, hcause, hposition⟩ := ih
    exact ⟨e', by rw [bind_apply, hm], hcause, hposition⟩
  | second hm _ ih =>
    obtain ⟨e', hf, hcause, hposition⟩ := ih
    exact ⟨e', by rw [bind_apply, hm]; exact hf, hcause, hposition⟩
  | within c _ ih =>
    obtain ⟨e', hm, hcause, hposition⟩ := ih
    exact ⟨e'.inside c, by rw [FragmentAssembly.within, hm], hcause, hposition⟩

/-- The action `m` fails in the draft `d`, and with it every compilation that comes there. -/
def Refuses {α : Type} (m : Compile α) (d : Draft) (cause : ErrorCause) (place : Nat) : Prop :=
  (∃ d', m d = .error ⟨cause, place, []⟩ d') ∧
  ∀ source : String, Part m d Compile.program { cursor := .ofText source } →
    ∃ e, compile source = .error e ∧ e.cause = cause ∧ e.position = place

theorem refuses_of_error {α : Type} {m : Compile α} {d d' : Draft} {cause : ErrorCause}
    {place : Nat} (h : m d = .error ⟨cause, place, []⟩ d') : Refuses m d cause place := by
  refine ⟨⟨d', h⟩, fun source hpart => ?_⟩
  obtain ⟨e, hprogram, hcause, hposition⟩ := hpart.fails h
  refine ⟨e, ?_, hcause, hposition⟩
  rw [compile, compilation, hprogram]
  rfl

/-! ## Tokens -/

/-- The cursor behind the next token, which has `length` characters. -/
def Cursor.past (k : Cursor) (length : Nat) : Cursor :=
  k.skipIgnored.markToken.advance length

def Draft.past (d : Draft) (length : Nat) : Draft :=
  { d with cursor := d.cursor.past length }

theorem Cursor.tokenStart_past (k : Cursor) (length : Nat) :
    (k.past length).tokenStart = k.skipIgnored.position :=
  tokenStart_advance _ _

theorem Draft.tokenStart_past (d : Draft) (length : Nat) :
    (d.past length).cursor.tokenStart = d.cursor.skipIgnored.position :=
  d.cursor.tokenStart_past length

/-- Behind a token that another one follows directly. -/
theorem Cursor.past_of_isSolid {k : Cursor} {text behind : List Char}
    (hshown : Token.isSolid text = true) (hahead : k.ahead = text ++ behind)
    (hsolid : Token.isSolid behind = true) : (k.past text.length).ahead = behind ∧
      (k.past text.length).skipIgnored.position = k.skipIgnored.position + bytes text := by
  have hinside : k.inside = [] := by
    apply inside_of_isSolid
    rw [hahead]
    exact Token.isSolid_append behind hshown
  have hmarked : k.skipIgnored.markToken.inside = [] := k.skipIgnored_inside.trans hinside
  have htext : k.skipIgnored.markToken.rest = text ++ behind :=
    (rest_skipIgnored hinside).trans hahead
  have hrest : (k.past text.length).rest = behind := by
    rw [past, advance_rest, htext, List.drop_left]
  have hpast : (k.past text.length).inside = [] := advance_inside _ hmarked
  refine ⟨by rw [ahead_of_inside hpast, hrest, Token.visible_of_isSolid hsolid], ?_⟩
  rw [skipIgnored_of_isSolid hpast (by rwa [hrest])]
  exact position_advance hmarked htext

namespace Scan

variable {k : Cursor} {behind : List Char}

theorem token_of_lead? {t : Token} (hinside : k.inside = []) (h : Token.lead? k.ahead = some t)
    (hwhole : t.IsWhole) : token k = .ok t (k.past t.text.length) := by
  rw [← Cursor.rest_skipIgnored hinside] at h
  have hnext : token? k = .ok (some t) (k.past t.text.length) := by
    rw [token?_apply hinside, Cursor.next_of_isWhole hinside h hwhole]
    rfl
  unfold token
  rw [bind_apply, hnext]
  rfl

/-- A mark that comes next is taken. -/
theorem expect_of_ahead {mark : String} (hsolid : Token.isSolid mark.toList = true)
    (h : k.ahead = mark.toList ++ behind) : expect mark k = .ok () (k.past mark.length) := by
  have hinside : k.inside = [] := by
    apply Cursor.inside_of_isSolid
    rw [h]
    exact Token.isSolid_append behind hsolid
  have hprefix : mark.toList.isPrefixOf k.ahead = true := by
    rw [h, List.isPrefixOf_iff_prefix]
    exact List.prefix_append _ _
  unfold expect
  rw [bind_apply, accept_apply mark hinside, if_pos hprefix]
  rfl

theorem inside_of_identifier {name : String}
    (h : Token.lead? k.ahead = some (.identifier name)) : k.inside = [] := by
  refine Decidable.byContradiction fun hinside => ?_
  rw [Cursor.ahead, if_neg (mt List.isEmpty_iff.mp hinside)] at h
  cases h

theorem identifier_of_ahead {name : String} (hname : IsName name)
    (hends : Token.endsName behind = true) (hahead : k.ahead = name.toList ++ behind) :
    identifier k = .ok name (k.past name.length) := by
  have hlead : Token.lead? k.ahead = some (.identifier name) := by
    rw [hahead]
    exact Token.lead?_name hname hends
  unfold identifier
  rw [bind_apply, token_of_lead? (inside_of_identifier hlead) hlead trivial]
  rfl

/-- An integer has to fit into a word. -/
theorem integer_of_ahead {digits : List Char} (hne : digits ≠ [])
    (hdigits : digits.all Char.isDigit = true) (hends : behind.head?.all (!Char.isDigit ·) = true)
    (hahead : k.ahead = digits ++ behind) :
    integer k = if Nat.ofDigitChars 10 digits 0 < UInt64.size then
        .ok (Nat.ofDigitChars 10 digits 0) (k.past digits.length)
      else .error ⟨.invalidNumber, k.skipIgnored.position, []⟩ (k.past digits.length) := by
  obtain ⟨c, cs, rfl⟩ := List.exists_cons_of_ne_nil hne
  rw [List.all_cons, Bool.and_eq_true] at hdigits
  have hlead : Token.lead? k.ahead = some (.integer (String.ofList (c :: cs))) := by
    rw [hahead, List.cons_append, Token.lead?, if_pos hdigits.1, takeWhile_of_head hdigits.2 hends]
  have htext : (Token.integer (String.ofList (c :: cs))).text.length = (c :: cs).length :=
    String.length_ofList
  have hinside : k.inside = [] := by
    apply Cursor.inside_of_isSolid
    rw [hahead]
    exact isSolid_of_isDigit _ hdigits.1
  unfold integer
  rw [bind_apply, token_of_lead? hinside hlead trivial, htext]
  dsimp only
  rw [String.toList_ofList]
  by_cases h : Nat.ofDigitChars 10 (c :: cs) 0 < UInt64.size
  · rw [if_pos h, if_pos h]
    rfl
  · rw [if_neg h, if_neg h, ← k.tokenStart_past (c :: cs).length]
    rfl

/-- The number of a local parameter is read as an integer before it is checked. -/
theorem localParameter_of_ahead {digits : List Char} (hne : digits ≠ [])
    (hdigits : digits.all Char.isDigit = true)
    (hahead : k.ahead = '[' :: (digits ++ ']' :: behind)) :
    localParameter k = if h : Nat.ofDigitChars 10 digits 0 < localParameterCount then
        .ok ⟨Nat.ofDigitChars 10 digits 0, h⟩ (((k.past 1).past digits.length).past 1)
      else .error ⟨if Nat.ofDigitChars 10 digits 0 < UInt64.size then .invalidLocalParameter
        else .invalidNumber, k.skipIgnored.position + 1, []⟩ ((k.past 1).past digits.length) := by
  have hdigit : Token.isSolid digits = true := by
    obtain ⟨c, cs, rfl⟩ := List.exists_cons_of_ne_nil hne
    rw [List.all_cons, Bool.and_eq_true] at hdigits
    exact isSolid_of_isDigit _ hdigits.1
  -- the brackets and the digits stand side by side
  have hclosing : Token.isSolid (']' :: behind) = true := rfl
  have hafter : (']' :: behind).head?.all (!Char.isDigit ·) = true := rfl
  obtain ⟨hnumber, hplace⟩ : (k.past 1).ahead = digits ++ ']' :: behind ∧
      (k.past 1).skipIgnored.position = k.skipIgnored.position + 1 :=
    Cursor.past_of_isSolid rfl (show k.ahead = ['['] ++ _ from hahead)
      (Token.isSolid_append _ hdigit)
  have hbehind := (Cursor.past_of_isSolid hdigit hnumber hclosing).1
  have hinteger := integer_of_ahead hne hdigits hafter hnumber
  have hopen : expect "[" k = .ok () (k.past 1) := expect_of_ahead rfl hahead
  have hclose : expect "]" ((k.past 1).past digits.length) =
      .ok () (((k.past 1).past digits.length).past 1) := expect_of_ahead rfl hbehind
  unfold localParameter
  rw [bind_apply, hopen]
  show (integer >>= _) (k.past 1) = _
  rw [bind_apply, hinteger]
  by_cases hword : Nat.ofDigitChars 10 digits 0 < UInt64.size
  · rw [if_pos hword, if_pos hword]
    dsimp only
    by_cases h : Nat.ofDigitChars 10 digits 0 < localParameterCount
    · rw [dif_pos h, dif_pos h, bind_apply, hclose]
      rfl
    · rw [dif_neg h, dif_neg h, ← hplace, ← (k.past 1).tokenStart_past digits.length]
      rfl
  · have hgreat : ¬Nat.ofDigitChars 10 digits 0 < localParameterCount := fun h =>
      hword (Nat.lt_trans h (by decide))
    rw [if_neg hword, if_neg hword, dif_neg hgreat]
    dsimp only
    rw [hplace]

end Scan

/-! ## Names with numbers -/

section Names

variable {digits : List Char} {offset : Nat} {bank : Char}

/-- The letters of the two banks of temporaries, with the number of the first one in each. -/
def temporaryBanks : List (Char × Nat) :=
  [('R', 0), ('r', 0), ('H', halfTemporaryOffset), ('h', halfTemporaryOffset)]

theorem isNumber (hne : digits ≠ []) (hdigits : digits.all Char.isDigit = true) :
    (digits.isEmpty || !digits.all Char.isDigit) = false := by
  rw [hdigits, List.isEmpty_eq_false_iff.mpr hne]
  rfl

theorem temporaryNumber?_of_digits (hbank : (bank, offset) ∈ temporaryBanks) (hne : digits ≠ [])
    (hdigits : digits.all Char.isDigit = true) :
    temporaryNumber? (String.ofList (bank :: digits)) =
      some (wordSum offset (Nat.ofDigitChars 10 digits 0)) := by
  rw [temporaryNumber?, String.toList_ofList]
  simp only [temporaryBanks, List.mem_cons, Prod.mk.injEq, List.not_mem_nil, or_false] at hbank
  rcases hbank with ⟨rfl, rfl⟩ | ⟨rfl, rfl⟩ | ⟨rfl, rfl⟩ | ⟨rfl, rfl⟩ <;>
    simp [isNumber hne hdigits]

/-- A sum that wraps around is the only one that is less than it should be. -/
theorem le_wordSum {offset n : Nat} (h : temporaryCount ≤ offset + n)
    (hword : offset = 0 ∨ n + offset < UInt64.size ∨ UInt64.size ≤ n) :
    temporaryCount ≤ wordSum offset n := by
  by_cases hgreat : UInt64.size ≤ n
  · rw [wordSum_of_le hgreat]
    decide
  · have hsum : offset + n < UInt64.size := by
      rcases hword with rfl | hsum | hgreat'
      · rw [Nat.zero_add]
        exact Nat.lt_of_not_le hgreat
      · rwa [Nat.add_comm]
      · exact absurd hgreat' hgreat
    rwa [wordSum_of_lt hsum]

theorem textureUnitNumber?_of_digits (hne : digits ≠ [])
    (hdigits : digits.all Char.isDigit = true) :
    textureUnitNumber? (String.ofList ('T' :: 'E' :: 'X' :: digits)) =
      some (Nat.ofDigitChars 10 digits 0) := by
  rw [textureUnitNumber?, String.toList_ofList]
  simp [isNumber hne hdigits]

theorem all_isNameChar_of_isDigit (hdigits : digits.all Char.isDigit = true) :
    digits.all Token.isNameChar = true := by
  rw [List.all_eq_true] at hdigits ⊢
  intro c hc
  rw [Token.isNameChar, Token.isAlphanum_of_isDigit (hdigits c hc), Bool.true_or, Bool.true_or]

theorem isName_temporary (hbank : (bank, offset) ∈ temporaryBanks)
    (hdigits : digits.all Char.isDigit = true) : IsName (String.ofList (bank :: digits)) := by
  refine ⟨bank, digits, String.toList_ofList, ?_, all_isNameChar_of_isDigit hdigits⟩
  simp only [temporaryBanks, List.mem_cons, Prod.mk.injEq, List.not_mem_nil, or_false] at hbank
  rcases hbank with ⟨rfl, -⟩ | ⟨rfl, -⟩ | ⟨rfl, -⟩ | ⟨rfl, -⟩ <;> rfl

/-- The words for other registers are no names of temporaries. -/
theorem not_other_register {name : String} {n : Nat} (h : temporaryNumber? name = some n) :
    ConditionRegister.ofName? name = none ∧ name ≠ "f" ∧ name ≠ "p" ∧ name ≠ "o" := by
  refine ⟨?_, ?_, ?_, ?_⟩
  · cases hname : ConditionRegister.ofName? name with
    | none => rfl
    | some r =>
      have hfound := List.find?_some hname
      rw [decide_eq_true_eq] at hfound
      rw [← hfound] at h
      cases r <;> cases h
  all_goals
    rintro rfl
    cases h

end Names

/-! ## Registers -/

section Registers

variable {d : Draft} {name : String} {behind : List Char}

theorem operand_of_name (hname : IsName name) (hends : Token.endsName behind = true)
    (hahead : d.cursor.ahead = name.toList ++ behind) :
    Compile.operand d = Compile.namedOperand name (d.past name.length) := by
  have hlead : Token.lead? d.cursor.ahead = some (.identifier name) := by
    rw [hahead]
    exact Token.lead?_name hname hends
  have hword : (some (Token.identifier name)).any Compile.beginsNumber = false := rfl
  have hinside := Scan.inside_of_identifier hlead
  unfold Compile.operand
  rw [bind_apply, lift_apply, Scan.peek?_apply hinside, hlead]
  dsimp only
  rw [hword, if_neg Bool.false_ne_true, bind_apply, lift_apply,
    Scan.token_of_lead? hinside hlead trivial]
  rfl

/-- The number of a temporary is checked when its name has been read. -/
theorem temporary_apply (number : Nat) (d : Draft) : (liftM (Scan.temporary number) : Compile _) d =
    if h : number < temporaryCount then .ok ⟨number, h⟩ d
    else .error ⟨.invalidTemporary, d.cursor.tokenStart, []⟩ d := by
  by_cases h : number < temporaryCount
  · have htemporary : Scan.temporary number = pure ⟨number, h⟩ := dif_pos h
    rw [htemporary, dif_pos h]
    rfl
  · have htemporary : Scan.temporary number = Scan.fail .invalidTemporary := dif_neg h
    rw [htemporary, dif_neg h]
    rfl

theorem operand_temporary {number : Nat} (hnumber : temporaryNumber? name = some number)
    (hname : IsName name) (hends : Token.endsName behind = true)
    (hahead : d.cursor.ahead = name.toList ++ behind) : Compile.operand d =
      if h : number < temporaryCount then
        .ok (.register (.temporary ⟨number, h⟩)) (d.past name.length)
      else .error ⟨.invalidTemporary, d.cursor.skipIgnored.position, []⟩ (d.past name.length) := by
  obtain ⟨hcondition, hinput, hlocal, -⟩ := not_other_register hnumber
  rw [operand_of_name hname hends hahead]
  unfold Compile.namedOperand
  rw [hcondition, if_neg (by decide), if_neg hinput, if_neg hlocal, hnumber]
  dsimp only
  rw [bind_apply, temporary_apply, Draft.tokenStart_past]
  by_cases h : number < temporaryCount
  · rw [dif_pos h, dif_pos h]
    rfl
  · rw [dif_neg h, dif_neg h]

/-- What follows the register of a destination. -/
def destinationBehind (register : Writable) : Compile (Destination × CondTest) := do
  let mask ← Compile.destinationMask
  let guard ← Compile.destinationGuard
  return (⟨register, mask⟩, guard)

theorem destination_temporary {number : Nat} (hnumber : temporaryNumber? name = some number)
    (hname : IsName name) (hends : Token.endsName behind = true)
    (hahead : d.cursor.ahead = name.toList ++ behind) : Compile.destination d =
      if h : number < temporaryCount then
        destinationBehind (.temporary ⟨number, h⟩) (d.past name.length)
      else .error ⟨.invalidTemporary, d.cursor.skipIgnored.position, []⟩ (d.past name.length) := by
  obtain ⟨hcondition, -, -, houtput⟩ := not_other_register hnumber
  have hlead : Token.lead? d.cursor.ahead = some (.identifier name) := by
    rw [hahead]
    exact Token.lead?_name hname hends
  unfold Compile.destination
  rw [bind_apply, lift_apply,
    Scan.token_of_lead? (Scan.inside_of_identifier hlead) hlead trivial]
  show (Compile.writable name >>= _) (d.past name.length) = _
  unfold Compile.writable
  rw [hcondition, if_neg houtput, hnumber]
  dsimp only
  rw [bind_apply, bind_apply, temporary_apply, Draft.tokenStart_past]
  by_cases h : number < temporaryCount
  · rw [dif_pos h, dif_pos h]
    rfl
  · rw [dif_neg h, dif_neg h]

theorem operand_localParameter {digits : List Char} (hne : digits ≠ [])
    (hdigits : digits.all Char.isDigit = true)
    (hahead : d.cursor.ahead = 'p' :: '[' :: (digits ++ ']' :: behind)) :
    Compile.operand d = if h : Nat.ofDigitChars 10 digits 0 < localParameterCount then
        .ok (.register (.localParameter ⟨Nat.ofDigitChars 10 digits 0, h⟩))
          ((((d.past 1).past 1).past digits.length).past 1)
      else .error ⟨if Nat.ofDigitChars 10 digits 0 < UInt64.size then .invalidLocalParameter
        else .invalidNumber, d.cursor.skipIgnored.position + 2, []⟩
          (((d.past 1).past 1).past digits.length) := by
  have hbracket : Token.isSolid ('[' :: (digits ++ ']' :: behind)) = true := rfl
  obtain ⟨hbehind, hplace⟩ : (d.past 1).cursor.ahead = '[' :: (digits ++ ']' :: behind) ∧
      (d.past 1).cursor.skipIgnored.position = d.cursor.skipIgnored.position + 1 :=
    Cursor.past_of_isSolid rfl (show d.cursor.ahead = ['p'] ++ _ from hahead) hbracket
  have hparameter := Scan.localParameter_of_ahead hne hdigits hbehind
  rw [hplace] at hparameter
  have hname : IsName "p" := ⟨'p', [], rfl, rfl, rfl⟩
  rw [operand_of_name hname rfl hahead]
  show (liftM Scan.localParameter >>= _ : Compile _) (d.past 1) = _
  rw [bind_apply, lift_apply, hparameter]
  by_cases h : Nat.ofDigitChars 10 digits 0 < localParameterCount
  · rw [dif_pos h, dif_pos h]
    rfl
  · rw [dif_neg h, dif_neg h]
    rfl

theorem textureUnit_apply {digits : List Char} (hne : digits ≠ [])
    (hdigits : digits.all Char.isDigit = true) (hends : Token.endsName behind = true)
    (hahead : d.cursor.ahead = 'T' :: 'E' :: 'X' :: (digits ++ behind)) :
    (liftM Compile.textureUnit : Compile TextureUnit) d =
      if h : Nat.ofDigitChars 10 digits 0 < textureUnitCount then
        .ok ⟨Nat.ofDigitChars 10 digits 0, h⟩ (d.past (digits.length + 3))
      else .error ⟨.invalidTextureUnit, d.cursor.skipIgnored.position, []⟩
        (d.past (digits.length + 3)) := by
  have hname : IsName (String.ofList ('T' :: 'E' :: 'X' :: digits)) :=
    ⟨'T', 'E' :: 'X' :: digits, String.toList_ofList, rfl, by
      simpa [Token.isNameChar] using all_isNameChar_of_isDigit hdigits⟩
  have hidentifier := Scan.identifier_of_ahead hname hends
    (show d.cursor.ahead = _ ++ behind by rw [hahead, String.toList_ofList]; rfl)
  rw [String.length_ofList] at hidentifier
  rw [lift_apply]
  unfold Compile.textureUnit
  rw [bind_apply, hidentifier]
  dsimp only
  rw [textureUnitNumber?_of_digits hne hdigits]
  dsimp only
  by_cases h : Nat.ofDigitChars 10 digits 0 < textureUnitCount
  · rw [dif_pos h, dif_pos h]
    rfl
  · rw [dif_neg h, dif_neg h, ← d.cursor.tokenStart_past (digits.length + 3)]
    rfl

end Registers

/-- There may be any number of digits.  A temporary, a texture unit or a local parameter is taken if
its number is less than that of the registers in its file.  Otherwise the compilation fails there
with the cause of that file, except for a local parameter whose number is no word.  Nothing is said
of a half temporary whose number is a word, but no longer one when the offset has been added. -/
theorem register_number {digits behind : List Char} (hne : digits ≠ [])
    (hdigits : digits.all Char.isDigit = true) (d : Draft) :
    let n := Nat.ofDigitChars 10 digits 0
    let place := d.cursor.skipIgnored.position
    (∀ bank offset, (bank, offset) ∈ temporaryBanks →
      d.cursor.ahead = bank :: (digits ++ behind) → Token.endsName behind = true →
      (offset = 0 ∨ n + offset < UInt64.size ∨ UInt64.size ≤ n) →
        (∀ h : offset + n < temporaryCount,
          Compile.operand d =
            .ok (.register (.temporary ⟨offset + n, h⟩)) (d.past (digits.length + 1)) ∧
          Compile.destination d =
            destinationBehind (.temporary ⟨offset + n, h⟩) (d.past (digits.length + 1))) ∧
        (temporaryCount ≤ offset + n → Refuses Compile.operand d .invalidTemporary place ∧
          Refuses Compile.destination d .invalidTemporary place)) ∧
    (d.cursor.ahead = 'T' :: 'E' :: 'X' :: (digits ++ behind) → Token.endsName behind = true →
      (∀ h : n < textureUnitCount,
        (liftM Compile.textureUnit : Compile TextureUnit) d =
          .ok ⟨n, h⟩ (d.past (digits.length + 3))) ∧
      (textureUnitCount ≤ n →
        Refuses (liftM Compile.textureUnit) d .invalidTextureUnit place)) ∧
    (d.cursor.ahead = 'p' :: '[' :: (digits ++ ']' :: behind) →
      (∀ h : n < localParameterCount, ∃ d',
        Compile.operand d = .ok (.register (.localParameter ⟨n, h⟩)) d') ∧
      (localParameterCount ≤ n → n < UInt64.size →
        Refuses Compile.operand d .invalidLocalParameter (place + 2)) ∧
      (UInt64.size ≤ n → Refuses Compile.operand d .invalidNumber (place + 2))) ∧
    ErrorCause.category .invalidTemporary = .semantic ∧
    ErrorCause.category .invalidTextureUnit = .semantic ∧
    ErrorCause.category .invalidLocalParameter = .semantic := by
  intro n place
  -- each file has one equation for all numbers, and its two cases are read off it
  refine ⟨fun bank offset hbank hahead hends hword => ?_, fun hahead hends => ?_, fun hahead => ?_,
    rfl, rfl, rfl⟩
  · have hnumber := temporaryNumber?_of_digits hbank hne hdigits
    have hname := isName_temporary hbank hdigits
    have htext : d.cursor.ahead = (String.ofList (bank :: digits)).toList ++ behind := by
      rw [hahead, String.toList_ofList]
      rfl
    have hlength : (String.ofList (bank :: digits)).length = digits.length + 1 := by
      rw [String.length_ofList, List.length_cons]
    refine ⟨fun h => ?_, fun h => ?_⟩
    · rw [wordSum_of_lt (Nat.lt_trans h (by decide))] at hnumber
      have hsource := operand_temporary hnumber hname hends htext
      have htarget := destination_temporary hnumber hname hends htext
      rw [dif_pos h, hlength] at hsource htarget
      exact ⟨hsource, htarget⟩
    · have hgreat := Nat.not_lt.mpr (le_wordSum h hword)
      have hsource := operand_temporary hnumber hname hends htext
      have htarget := destination_temporary hnumber hname hends htext
      rw [dif_neg hgreat] at hsource htarget
      exact ⟨refuses_of_error hsource, refuses_of_error htarget⟩
  · have hunit := textureUnit_apply hne hdigits hends hahead
    refine ⟨fun h => ?_, fun h => ?_⟩
    · rw [dif_pos h] at hunit
      exact hunit
    · rw [dif_neg (Nat.not_lt.mpr h)] at hunit
      exact refuses_of_error hunit
  · have hparameter := operand_localParameter hne hdigits hahead
    refine ⟨fun h => ?_, fun h hword => ?_, fun hword => ?_⟩
    · rw [dif_pos h] at hparameter
      exact ⟨_, hparameter⟩
    · rw [dif_neg (Nat.not_lt.mpr h), if_pos hword] at hparameter
      exact refuses_of_error hparameter
    · have hgreat : ¬n < localParameterCount := fun h =>
        Nat.not_lt.mpr hword (Nat.lt_trans h (by decide))
      rw [dif_neg hgreat, if_neg (Nat.not_lt.mpr hword)] at hparameter
      exact refuses_of_error hparameter

/-- A compilation that comes to a local parameter, whose number has a leading zero. -/
theorem register_number_parameter : ∃ e,
    compile "!!FP1.0 MOV R0, p[064]; END" = .error e ∧
      e.cause = .invalidLocalParameter ∧ e.position = 18 := by
  have hpart : Part Compile.operand { cursor := ⟨"p[064]; END".toList, 16, 1, 0, 17, 14, []⟩ }
      Compile.program { cursor := .ofText "!!FP1.0 MOV R0, p[064]; END" } := by
    unfold Compile.program
    -- the header, and the first statement up to its mnemonic
    refine .second rfl (.second rfl (.first _ ?_))
    unfold Compile.statement
    refine .second rfl ?_
    rw [if_neg (by decide), if_neg (by decide), if_neg (by decide), if_neg (by decide)]
    refine .first _ (.within _ ?_)
    unfold Compile.instruction
    refine .second rfl (.second rfl (.first _ ?_))
    -- the only source, behind the signs that it does not have
    show Part _ _ (Compile.commaSeparated Compile.vectorSource 1 >>= _) _
    refine .first _ ?_
    show Part _ _ (Compile.vectorSource >>= _) _
    refine .first _ (.within _ ?_)
    unfold Compile.sourceWith
    exact .second rfl (.second rfl (.second rfl (.first _ .whole)))
  have hnumber := @register_number ['0', '6', '4'] "; END".toList (by decide) (by decide)
    { cursor := ⟨"p[064]; END".toList, 16, 1, 0, 17, 14, []⟩ }
  have hrefuses := (hnumber.2.2.1 (by decide)).2.1 (by decide) (by decide)
  exact hrefuses.2 _ hpart

/-- A number that is no word is not recognised as that of a local parameter. -/
theorem parameter_number_beyond_word :
    compile "!!FP1.0 MOV o[COLR], p[18446744073709551616]; END" =
      .error ⟨.invalidNumber, 23, [.vectorSource, .instruction]⟩ ∧
    ErrorCause.category .invalidNumber = .syntactic :=
  ⟨by decide +kernel, rfl⟩

end FragmentAssembly
