import FragmentAssembly.Proofs.Reading.Cut

/-!
# Reading the beginning of a text

If a text is cut off, then the beginning is read as before up to the cut.  There something is
missed, unless what would come next may be left out.
-/

namespace FragmentAssembly

open Coupling

namespace Scan

variable {c : Cut} {signs : Bool}

/-! ## Registers -/

theorem abridges_temporary (number : Nat) :
    c.coupling.Abridges (c.At signs) (temporary number) (fun _ => c.At signs) Never := by
  unfold temporary
  split
  · exact .pure fun _ h => h
  · exact .fail fun _ _ _ => fail_eq_ok.mp

/-- The number of a local parameter is one token, as a bracket follows it. -/
theorem abridges_localParameter : c.coupling.Abridges (c.At false) localParameter
    (fun _ => c.At false) Never := by
  apply (abridges_expect "[" false false rfl rfl rfl).andThen
  intro _
  have hinteger : c.coupling.Abridges (c.At false) integer (fun _ l => ∃ digits,
      Cut.Read (c.Begins false)
        (.integer digits) l) Never := by
    rw [integer, token_bind (Token.forall_not_isWhole fun _ _ => rfl)]
    apply (abridges_wholeToken (c.Begins false) .token).andThen
    intro t
    cases t with
    | integer digits =>
      dsimp only
      split
      · exact .pure fun _ h => ⟨digits, h⟩
      · exact .fail fun _ _ _ => fail_eq_ok.mp
    | identifier name => exact .fail fun _ _ _ => fail_eq_ok.mp
    | punctuation mark => exact .fail fun _ _ _ => fail_eq_ok.mp
  apply hinteger.andThen
  intro number
  split
  · apply Abridges.andThen (Q := fun _ => c.At false)
    · refine (abridges_expect "]" false false rfl rfl rfl).weaken ?_ (fun _ _ h => h) fun _ h => h
      rintro l l' a ⟨digits, cs, hplace, hlead, -, hrest⟩ hok
      obtain ⟨behind, hbehind, -⟩ := mark_of_expect (c := ']') rfl hok
      have hinside : l.inside = [] :=
        Cursor.inside_of_mem (c := ']') (by decide) (hbehind ▸ List.mem_cons_self)
      rw [Cursor.ahead_of_inside hinside] at hbehind
      show Token.Place _ false (Token.visible l.rest)
      rw [hbehind] at hrest ⊢
      exact hplace.index hlead hrest.symm
    · intro _
      exact .pure fun _ h => h
  · exact .fail fun _ _ _ => fail_eq_ok.mp

/-! ## Values -/

theorem abridges_number_signed :
    c.coupling.Abridges (c.At true) number (fun _ => c.At true) Never :=
  abridges_number.weaken (fun _ _ _ h _ => ⟨h, fun _ _ => .inl rfl⟩) (fun _ _ h => h) fun _ h => h

theorem abridges_moreComponents (count : Nat) :
    c.coupling.Abridges (c.At true) (moreComponents count) (fun _ => c.At true) Always := by
  induction count with
  | zero => exact .pure fun _ h => h
  | succ count ih =>
    apply (abridges_mark "," true true rfl rfl rfl).bind
    · intro found
      cases found with
      | false => exact .pure fun _ h => h
      | true => exact abridges_number_signed.andThen fun _ => ih.map fun _ _ h => h
    · rintro found rfl
      exact .pure trivial

/-- Behind a vector signs do not belong to numbers any more. -/
theorem abridges_vectorRest :
    c.coupling.Abridges (c.At true) vectorRest (fun _ => c.At false) Never := by
  apply abridges_number_signed.andThen
  intro first
  apply (abridges_moreComponents 3).bind
  · intro more
    exact (abridges_expect "\x7d" true false rfl rfl rfl).andThen fun _ => .pure fun _ h => h
  · intro more _
    exact (stays_expect "\x7d" (by decide)).andThen

theorem abridges_constant : c.coupling.Abridges (c.At true) constant
    (fun _ l => ∃ signs, c.At signs l) Never := by
  apply (abridges_mark "\x7b" true true rfl rfl rfl).bind
  · intro found
    cases found with
    | true =>
      exact (abridges_vectorRest.within Cut.nests _).weaken (fun _ _ _ h _ => h)
        (fun _ _ h => ⟨false, h⟩) fun _ h => h
    | false =>
      exact (abridges_number_signed.within Cut.nests _).andThen fun _ =>
        .pure fun _ h => ⟨true, h⟩
  · rintro found rfl
    exact (stays_number.within Cut.nests _).andThen

/-! ## Components and conditions -/

theorem abridges_word {α : Type} {P : List Char → Prop} {Q : Cursor → Prop}
    (hname : ∀ {name l}, Cut.Read P (.identifier name) l → Q l) (meaning? : String → Option α)
    (cause : ErrorCause) :
    c.coupling.Abridges (fun l => P l.rest) (word meaning? cause) (fun _ => Q) Never := by
  rw [word, token_bind (Token.forall_not_isWhole fun _ _ => rfl)]
  apply (abridges_wholeToken P .token).andThen
  intro t
  cases t with
  | identifier name =>
    dsimp only
    split
    · exact .pure fun _ => hname
    · exact .fail fun _ _ _ => fail_eq_ok.mp
  | integer digits => exact .fail fun _ _ _ => fail_eq_ok.mp
  | punctuation mark => exact .fail fun _ _ _ => fail_eq_ok.mp

theorem abridges_swizzle : c.coupling.Abridges (fun l => c.Follows '.' signs l.rest) swizzle
    (fun _ => c.At signs) Never := by
  rw [swizzle_eq_word]
  exact abridges_word at_of_name_behind _ _

theorem abridges_writeMask : c.coupling.Abridges (fun l => c.Follows '.' signs l.rest) writeMask
    (fun _ => c.At signs) Never := by
  rw [writeMask_eq_word]
  exact abridges_word at_of_name_behind _ _

theorem abridges_condition :
    c.coupling.Abridges (c.At signs) condition (fun _ => c.At signs) Always := by
  rw [condition_eq_word]
  apply (abridges_word (P := c.Begins signs) at_of_name _ _).andThen
  intro rule
  apply Abridges.bind (D := (· = false))
    (Q := fun found l => if found then c.Follows '.' signs l.rest else c.At signs l)
  · exact abridges_accept rfl
  · intro found
    cases found with
    | false => exact .pure fun _ h => h
    | true => exact abridges_swizzle.andThen fun _ => .pure fun _ h => h
  · rintro found rfl
    exact .pure trivial

/-- Where signs do not belong to numbers, they are items. -/
theorem abridges_negation :
    c.coupling.Abridges (c.At false) negation (fun _ => c.At false) (· = false) := by
  apply (abridges_mark "-" false false rfl rfl rfl).bind
  · intro found
    cases found with
    | true => exact .pure fun _ h => h
    | false =>
      apply (abridges_mark "+" false false rfl rfl rfl).bind
      · intro found
        cases found <;> exact .pure fun _ h => h
      · intro _ _
        exact .pure rfl
  · rintro found rfl
    apply (stays_accept "+" (by decide)).bind
    intro _ _
    exact .pure rfl

end Scan

/-- The action begins and ends in front of items whose signs are their own. -/
abbrev Cut.Keeps (c : Cut) {α : Type} (m : Compile α) (D : α → Prop) : Prop :=
  c.coupling.onDraft.Abridges (fun d => c.At false d.cursor) m (fun _ d => c.At false d.cursor) D

namespace Compile

variable {c : Cut} {α : Type}

theorem stays_destinationGuard : c.coupling.Stays Always destinationGuard := by
  apply (Scan.stays_accept "(" (by decide)).bind
  rintro found rfl
  exact .pure trivial

theorem stays_operand : c.coupling.onDraft.Stays Never operand := by
  apply (stays_lift Scan.stays_peek?).bind
  rintro t rfl
  exact (stays_lift Scan.stays_token).andThen

/-! ## Destinations -/

theorem keeps_fail {cause : ErrorCause} {D : α → Prop} :
    c.Keeps (liftM (Scan.fail cause : Scan α) : Compile α) D :=
  .fail fun _ _ _ => lift_fail_ne_ok

theorem keeps_pure (a : α) {D : α → Prop} : c.Keeps (pure a) D :=
  .pure fun _ h => h

theorem keeps_markInput (i : InputIndex) : c.Keeps (markInput i) Never :=
  (together_markInput i).abridges fun _ _ _ hP hok => modify_eq_ok.mp hok ▸ hP

theorem keeps_inputRegister : c.Keeps inputRegister Never := by
  apply (Scan.abridges_expect "[" false false rfl rfl rfl).lift.andThen
  intro _
  apply Scan.abridges_identifier.lift.andThen
  intro name
  split
  · exact keeps_fail
  · apply (Scan.abridges_expect "]" false false rfl rfl rfl).lift.andThen
    intro _
    exact (keeps_markInput _).andThen fun _ => keeps_pure _

theorem keeps_outputRegister : c.Keeps outputRegister Never := by
  apply (Scan.abridges_expect "[" false false rfl rfl rfl).lift.andThen
  intro _
  apply Scan.abridges_identifier.lift.andThen
  intro name
  split
  · exact keeps_fail
  · rename_i i _
    apply (Scan.abridges_expect "]" false false rfl rfl rfl).lift.andThen
    intro _
    have hmark : c.Keeps (markOutput i) Never :=
      (together_markOutput i).abridges fun _ _ _ hP hok => modify_eq_ok.mp hok ▸ hP
    apply hmark.andThen
    intro _
    apply Abridges.look
    intro d e f j hde hP hok
    have houtputs : e.outputsWritten = d.outputsWritten := congrArg Inventory.outputsWritten hde.2
    rw [houtputs] at hok
    split at hok
    · exact (lift_fail_ne_ok hok).elim
    · rename_i hone
      rw [if_neg hone]
      exact keeps_pure i hde hP hok

theorem keeps_writable (name : String) : c.Keeps (writable name) Never := by
  unfold writable
  split
  · exact keeps_pure _
  · split
    · exact keeps_outputRegister.andThen fun _ => keeps_pure _
    · split
      · exact (Scan.abridges_temporary _).lift.andThen fun _ => keeps_pure _
      · exact keeps_fail

theorem abridges_destinationMask :
    c.coupling.Abridges (c.At false) destinationMask (fun _ => c.At false) Always := by
  apply (Scan.abridges_accept rfl).bind
  · intro found
    cases found with
    | true =>
      exact Scan.abridges_writeMask.weaken (fun _ _ _ h _ => h) (fun _ _ h => h) fun _ _ => trivial
    | false => exact .pure fun _ h => h
  · rintro found rfl
    exact .pure trivial

theorem abridges_destinationGuard :
    c.coupling.Abridges (c.At false) destinationGuard (fun _ => c.At false) Always := by
  apply (Scan.abridges_mark "(" false false rfl rfl rfl).bind
  · intro found
    cases found with
    | true =>
      apply (Scan.abridges_condition.within Cut.nests _).bind
      · intro test
        exact (Scan.abridges_expect ")" false false rfl rfl rfl).andThen fun _ =>
          .pure fun _ h => h
      · intro test _
        exact (Scan.stays_expect ")" (by decide)).andThen
    | false => exact .pure fun _ h => h
  · rintro found rfl
    exact .pure trivial

theorem keeps_destination : c.Keeps destination Always := by
  rw [destination, token_bind (Token.forall_not_isWhole fun _ _ => rfl)]
  apply (Scan.abridges_wholeToken (c.Begins false) .token).lift.andThen
  intro t
  cases t with
  | identifier name =>
    apply Abridges.andThen (Q := fun _ d => c.At false d.cursor)
    · exact (keeps_writable name).weaken (fun _ _ _ h _ => Scan.at_of_name h) (fun _ _ h => h)
        fun _ h => h
    · intro register
      apply abridges_destinationMask.lift.bind
      · intro mask
        exact abridges_destinationGuard.lift.map fun _ _ h => h
      · intro mask _
        exact (stays_lift stays_destinationGuard).bind fun _ _ => .pure trivial
  | integer digits => exact .fail fun _ _ _ => lift_fail_ne_ok
  | punctuation mark => exact .fail fun _ _ _ => lift_fail_ne_ok

/-! ## Sources -/

theorem keeps_note (n : Note) : c.Keeps (note n) Never :=
  (together_note n n).abridges fun _ _ _ hP hok => modify_eq_ok.mp hok ▸ hP

theorem keeps_addLiteral (v : Vec4) : c.Keeps (addLiteral v) Never :=
  (together_addLiteral v).abridges fun _ _ _ hP hok => (modifyGet_eq_ok.mp hok).2 ▸ hP

/-- The end of a literal. -/
theorem keeps_literal (v : Vec4) (noted : Nat → Note) : c.Keeps (do
    let index ← addLiteral v
    note (noted index)
    return Operand.constant index) Never :=
  (keeps_addLiteral v).andThen fun _ => (keeps_note _).andThen fun _ => keeps_pure _

theorem keeps_namedOperand (name : String) : c.Keeps (namedOperand name) Never := by
  unfold namedOperand
  split
  · exact keeps_fail
  · split
    · exact keeps_inputRegister.andThen fun _ => keeps_pure _
    · split
      · exact Scan.abridges_localParameter.lift.andThen fun _ => keeps_pure _
      · split
        · exact (Scan.abridges_temporary _).lift.andThen fun _ => keeps_pure _
        · apply Abridges.look
          intro d e f o hde hP hok
          have hparameters : e.parameters = d.parameters := congrArg Inventory.parameters hde.2
          rw [hparameters] at hok
          cases hfound : d.parameters.lookup? name with
          | some index =>
            rw [hfound] at hok
            exact keeps_pure _ hde hP hok
          | none =>
            rw [hfound] at hok
            exact (lift_fail_ne_ok hok).elim

theorem sign_of_beginsNumber {cs : List Char} {n : Numeral}
    (hbegins : (Token.lead? cs).any beginsNumber = true) (hn : Numeral.ofChars? cs = some n) :
    n.sign = none := by
  obtain ⟨hwell, rest, rfl, -⟩ := Numeral.ofChars?_iff.mp hn
  obtain ⟨d, more, hchars, ⟨-, rfl | rfl⟩ | ⟨hsign, -⟩⟩ := Scan.exists_chars_cons hwell
  · rw [hchars] at hbegins
    cases hbegins
  · rw [hchars] at hbegins
    cases hbegins
  · exact hsign

/-- The numbers of operands have no signs. -/
theorem abridges_number_plain : c.coupling.Abridges (fun l => c.At false l ∧
      (Token.lead? l.ahead).any beginsNumber = true) Scan.number (fun _ => c.At false) Never := by
  refine Scan.abridges_number.weaken ?_ (fun _ _ h => h) fun _ h => h
  rintro l _ _ ⟨hat, hbegins⟩ -
  exact ⟨hat, fun n hn => .inr (sign_of_beginsNumber hbegins hn)⟩

theorem keeps_operand : c.Keeps operand Never := by
  rw [operand_eq_wholeToken]
  apply Scan.abridges_peek?.lift.bind
  · intro t
    split
    · rename_i hbegins
      apply Abridges.andThen (Q := fun _ d => c.At false d.cursor)
      · refine abridges_number_plain.lift.weaken ?_ (fun _ _ h => h) fun _ h => h
        rintro d _ _ ⟨hat, rfl⟩ -
        exact ⟨hat, hbegins⟩
      · intro v
        exact keeps_literal _ fun index => .scalarLiteral index v
    · apply Abridges.andThen (Q := fun t d => Cut.Read (c.Begins false) t d.cursor)
      · exact (Scan.abridges_wholeToken (c.Begins false) .token).lift.weaken
            (fun _ _ _ h _ => h.1) (fun _ _ h => h) fun _ h => h
      · intro t
        split
        · exact (keeps_namedOperand _).weaken (fun _ _ _ h _ => Scan.at_of_name h) (fun _ _ h => h)
            fun _ h => h
        · apply Abridges.andThen (Q := fun _ d => c.At false d.cursor)
          · refine Scan.abridges_vectorRest.lift.weaken ?_ (fun _ _ h => h) fun _ h => h
            exact fun _ _ _ h _ => Scan.at_of_brace h
          · intro v
            exact keeps_literal _ fun index => .vectorLiteral index v
        · exact .fail fun _ _ _ => lift_fail_ne_ok
  · rintro t rfl
    exact (stays_lift (Scan.stays_wholeToken .token)).andThen

theorem abridges_vectorSuffix (o : Operand) :
    c.coupling.Abridges (c.At false) (vectorSuffix o) (fun _ => c.At false) Always := by
  apply (Scan.abridges_accept rfl).bind
  · intro found
    cases found with
    | true =>
      exact Scan.abridges_swizzle.weaken (fun _ _ _ h _ => h) (fun _ _ h => h) fun _ _ => trivial
    | false => exact .pure fun _ h => h
  · rintro found rfl
    exact .pure trivial

/-- Behind a register in front of the cut the suffix is missing. -/
theorem short_scalarSuffix {k l m : Cursor} {o : Operand} {s : Swizzle}
    {Q : Swizzle → Cursor → Prop} (hk : c.coupling.spent k) (hl : l.ahead = c.more)
    (hok : scalarSuffix o l = .ok s m) : c.coupling.Short Q Always s m (scalarSuffix o k) := by
  have hnone : Scan.accept "." k = .ok false k.skipIgnored := by
    rw [Scan.accept_apply "." (Cut.inside_of_spent hk), hk.1, if_neg (by decide)]
  have hspent := Cut.spent_skipIgnored hk
  unfold scalarSuffix
  rw [bind_apply, hnone]
  cases o with
  | constant index => exact .spent trivial hspent
  | register r =>
    show c.coupling.Short Q Always s m
      (Scan.failAhead (.expected "scalar suffix") k.skipIgnored)
    rw [Scan.failAhead_apply (Cut.inside_of_spent hspent)]
    refine .last ⟨Cut.position_of_spent hspent, .suffix ?_⟩
    -- the whole text goes on with the point
    obtain ⟨found, l', haccept, hok⟩ := bind_eq_ok.mp hok
    cases found with
    | false => exact (failAhead_eq_ok.mp hok).elim
    | true =>
      obtain ⟨behind, hbehind, -⟩ := Scan.mark_of_accept (c := '.') rfl haccept
      rw [← hl, hbehind]
      rfl

theorem abridges_scalarSuffix (o : Operand) :
    c.coupling.Abridges (c.At false) (scalarSuffix o) (fun _ => c.At false) Always := by
  intro k l l' s hkl hat hok
  by_cases hmore : l.ahead = c.more
  · exact short_scalarSuffix (Cut.spent_of_beside hkl hmore) hmore hok
  · refine (Abridges.bind (Scan.abridges_accept_ahead rfl) (fun found => ?_) fun _ => False.elim)
      hkl ⟨hat, hmore⟩ hok
    cases found with
    | true =>
      refine Scan.abridges_swizzle.andThen fun s => ?_
      split
      · exact .pure fun _ h => h
      · exact .fail fun _ _ _ => fail_eq_ok.mp
    | false =>
      cases o with
      | constant index => exact .pure fun _ h => h
      | register r => exact .fail fun _ _ _ => failAhead_eq_ok.mp

/-- A suffix that is cut short makes a source operand that is. -/
theorem keeps_sourceWith {suffix : Operand → Scan Swizzle} (hsuffix : ∀ o,
    c.coupling.Abridges (c.At false) (suffix o) (fun _ => c.At false) Always) :
    c.Keeps (sourceWith suffix) Always := by
  -- what follows the signs and the bar
  have hrest : ∀ outer inner absolute : Bool, c.Keeps (do
      let operand ← operand
      let swizzle ← suffix operand
      if absolute then
        Scan.expect "|"
      return (⟨operand.readable, swizzle, inner, absolute, absolute && outer⟩ : Source))
        Always := by
    intro outer inner absolute
    apply keeps_operand.andThen
    intro o
    apply (hsuffix o).lift.bind
    · intro swizzle
      cases absolute with
      | true =>
        exact (Scan.abridges_expect "|" false false rfl rfl rfl).lift.andThen fun _ => keeps_pure _
      | false => exact keeps_pure _
    · intro swizzle _
      cases absolute with
      | true => exact (stays_lift (Scan.stays_expect "|" (by decide))).andThen
      | false => exact .pure trivial
  apply Scan.abridges_negation.lift.bind
  · intro outer
    apply (Scan.abridges_mark "|" false false rfl rfl rfl).lift.bind
    · intro absolute
      cases absolute with
      | false => exact hrest outer outer false
      | true =>
        apply Scan.abridges_negation.lift.bind
        · exact fun inner => hrest outer inner true
        · intro inner _
          exact stays_operand.andThen
    · rintro absolute rfl
      exact stays_operand.andThen
  · rintro outer rfl
    apply (stays_lift (Scan.stays_accept "|" (by decide))).bind
    rintro absolute rfl
    exact stays_operand.andThen

theorem keeps_vectorSource : c.Keeps vectorSource Always :=
  (keeps_sourceWith abridges_vectorSuffix).within (nests_onDraft Cut.nests) _

theorem keeps_scalarSource : c.Keeps scalarSource Always :=
  (keeps_sourceWith abridges_scalarSuffix).within (nests_onDraft Cut.nests) _

/-! ## Texture images -/

theorem startsWith_of_targetAmong {targets : List TextureTarget} {target : TextureTarget}
    {l m : Cursor} (h : targetAmong targets l = .ok target m) :
    Token.startsWith target.name l.ahead = true := by
  induction targets generalizing l with
  | nil => exact (failAhead_eq_ok.mp h).elim
  | cons first targets ih =>
    obtain ⟨found, l', haccept, h⟩ := bind_eq_ok.mp h
    rw [Scan.acceptWord_apply first.name (onRest_eq_ok.mp haccept).1] at haccept
    split at haccept
    · rename_i hstarts
      cases haccept
      obtain ⟨rfl, -⟩ := pure_eq_ok.mp h
      exact hstarts
    · cases haccept
      rw [← l.ahead_skipIgnored]
      exact ih h

theorem targetAmong_of_spent (targets : List TextureTarget) {k : Cursor}
    (hk : c.coupling.spent k) :
    ∃ k', targetAmong targets k = .error ⟨.invalidTextureTarget, c.size, []⟩ k' := by
  induction targets generalizing k with
  | nil =>
    refine ⟨k.skipIgnored, ?_⟩
    rw [← Cut.position_of_spent hk]
    exact Scan.failAhead_apply (Cut.inside_of_spent hk)
  | cons first targets ih =>
    have hnone : Scan.acceptWord first.name k = .ok false k.skipIgnored := by
      rw [Scan.acceptWord_apply first.name (Cut.inside_of_spent hk), hk.1,
        if_neg (by cases first <;> decide)]
    obtain ⟨k', hk'⟩ := ih (Cut.spent_skipIgnored hk)
    refine ⟨k', ?_⟩
    rw [targetAmong, bind_apply, hnone]
    exact hk'

theorem abridges_acceptWord (target : TextureTarget) :
    c.coupling.Abridges (fun l => c.At false l ∧ l.ahead ≠ c.more) (Scan.acceptWord target.name)
      (fun found l => if found then c.At false l else c.At false l ∧ l.ahead ≠ c.more) Never := by
  rintro k l l' found hkl ⟨hat, hne⟩ hok
  obtain ⟨hki, hli⟩ := Cut.inside_of_beside hkl
  have hahead := Cut.ahead_of_beside hkl
  rw [Scan.acceptWord_apply target.name hli] at hok
  rw [Scan.acceptWord_apply target.name hki]
  have hle : Token.startsWith target.name l.ahead = true →
      target.name.length ≤ k.ahead.length := fun hstarts =>
    Cut.literal_le hkl hne hat (.target target hstarts)
  have hsame : Token.startsWith target.name l.ahead = Token.startsWith target.name k.ahead := by
    rw [hahead] at hle ⊢
    exact (Cut.splits_ahead hkl).startsWith_append hle
  split at hok
  · rename_i hstarts
    cases hok
    rw [if_pos (hsame ▸ hstarts)]
    have hbeside := Cut.beside_taken hkl (hle hstarts)
    refine .ok hbeside ?_
    show Token.Place _ false
      (Token.visible (l.skipIgnored.markToken.advance target.name.length).rest)
    rw [← Cursor.ahead_of_inside (Cut.inside_of_beside hbeside).2, Cursor.ahead_taken hli]
    rw [Cursor.ahead_of_inside hli] at hstarts ⊢
    exact Token.Place.literal hat (.target target hstarts)
  · rename_i hother
    cases hok
    rw [if_neg (hsame ▸ hother)]
    refine .ok (Cut.beside_skipIgnored hkl) ?_
    rw [if_neg Bool.false_ne_true, Cursor.ahead_skipIgnored]
    refine ⟨?_, hne⟩
    show Token.Place _ false (Token.visible l.skipIgnored.rest)
    rw [Cursor.rest_skipIgnored hli, Cursor.visible_ahead hli, Cursor.ahead_of_inside hli]
    exact hat

theorem abridges_targetAmong (targets : List TextureTarget) :
    c.coupling.Abridges (c.At false) (targetAmong targets) (fun _ => c.At false) Never := by
  intro k l l' target hkl hat hok
  by_cases hmore : l.ahead = c.more
  · obtain ⟨k', hk'⟩ := targetAmong_of_spent targets (Cut.spent_of_beside hkl hmore)
    rw [hk']
    exact .last ⟨rfl, .target target (hmore ▸ startsWith_of_targetAmong hok)⟩
  · have hahead : c.coupling.Abridges (fun l => c.At false l ∧ l.ahead ≠ c.more)
        (targetAmong targets) (fun _ => c.At false) Never := by
      clear hok
      induction targets with
      | nil => exact .fail fun _ _ _ => failAhead_eq_ok.mp
      | cons first targets ih =>
        apply (abridges_acceptWord first).andThen
        intro found
        cases found with
        | true => exact .pure fun _ h => h
        | false => exact ih
    exact hahead hkl ⟨hat, hmore⟩ hok

theorem keeps_useTexture (image : TextureImage) : c.Keeps (useTexture image) Never := by
  apply Abridges.look
  intro d e f a hde hP hok
  have htextures : e.textures = d.textures := congrArg Inventory.textures hde.2
  rw [htextures] at hok
  cases hused : d.textures.get image.unit with
  | some used =>
    rw [hused] at hok
    dsimp only at hok ⊢
    split at hok
    · exact (lift_fail_ne_ok hok).elim
    · rename_i hsame
      rw [if_neg hsame]
      exact keeps_pure _ hde hP hok
  | none =>
    rw [hused] at hok
    obtain rfl := set_eq_ok.mp hok
    refine .ok ⟨hde.1, ?_⟩ hP
    exact congrArg (fun i => { i with
      textures := d.textures.set image.unit.val (some image.target) image.unit.isLt }) hde.2

theorem keeps_textureImage : c.Keeps textureImage Never := by
  have hunit : c.coupling.Abridges (c.At false) textureUnit (fun _ => c.At false) Never := by
    apply Scan.abridges_identifier.andThen
    intro name
    split
    · exact .fail fun _ _ _ => fail_eq_ok.mp
    · split
      · exact .pure fun _ h => h
      · exact .fail fun _ _ _ => fail_eq_ok.mp
  apply hunit.lift.andThen
  intro unit
  apply (Scan.abridges_expect "," false false rfl rfl rfl).lift.andThen
  intro _
  apply (abridges_targetAmong TextureTarget.all).lift.andThen
  intro target
  exact (keeps_useTexture ⟨unit, target⟩).andThen fun _ => keeps_pure _

/-! ## Instructions -/

theorem keeps_commaSeparated {item : Compile α} (hitem : c.Keeps item Always) (count : Nat) :
    c.Keeps (commaSeparated item count) Always := by
  induction count with
  | zero => exact keeps_pure _
  | succ count ih =>
    cases count with
    | zero => exact hitem.map fun _ _ h => h
    | succ count =>
      apply hitem.bind
      · intro a
        apply (Scan.abridges_expect "," false false rfl rfl rfl).lift.andThen
        intro _
        exact ih.map fun _ _ h => h
      · intro a _
        exact (stays_lift (Scan.stays_expect "," (by decide))).andThen

theorem keeps_operands (ins : Instruction) (shape : Operands) :
    c.Keeps (operands ins shape) Always := by
  cases shape with
  | vectors count => exact (keeps_commaSeparated keeps_vectorSource count).map fun _ _ h => h
  | scalars count => exact (keeps_commaSeparated keeps_scalarSource count).map fun _ _ h => h
  | lookup vectors =>
    apply (keeps_commaSeparated keeps_vectorSource vectors).bind
    · intro sources
      apply (Scan.abridges_expect "," false false rfl rfl rfl).lift.andThen
      intro _
      exact (keeps_textureImage.within (nests_onDraft Cut.nests) _).andThen fun _ => keeps_pure _
    · intro sources _
      exact (stays_lift (Scan.stays_expect "," (by decide))).andThen
  | condition => exact (Scan.abridges_condition.within Cut.nests _).lift.map fun _ _ h => h

theorem keeps_destinationOf (ins : Instruction) (writes : Bool) :
    c.Keeps (destinationOf ins writes) Never := by
  cases writes with
  | false => exact keeps_pure _
  | true =>
    apply (keeps_destination.within (nests_onDraft Cut.nests) _).bind
    · intro target
      exact (Scan.abridges_expect "," false false rfl rfl rfl).lift.andThen fun _ => keeps_pure _
    · intro target _
      exact (stays_lift (Scan.stays_expect "," (by decide))).andThen

theorem keeps_instruction (mnemonic : String) : c.Keeps (instruction mnemonic) Never := by
  apply Abridges.look
  intro d e f ins hde hP hok
  -- the instruction stands in the same place
  have hposition : e.cursor.tokenStart = d.cursor.tokenStart := by
    rw [hde.1.1]
    rfl
  rw [hposition] at hok
  cases hmnemonic : readMnemonic mnemonic with
  | error cause =>
    rw [hmnemonic] at hok
    exact (lift_fail_ne_ok hok).elim
  | ok found =>
    rw [hmnemonic] at hok
    refine Abridges.andThen (keeps_destinationOf _ _) (fun target => ?_) hde hP hok
    apply (keeps_operands target _).bind
    · intro filled
      exact (Scan.abridges_expect ";" false false rfl rfl rfl).lift.andThen fun _ => keeps_pure _
    · intro filled _
      exact (stays_lift (Scan.stays_expect ";" (by decide))).andThen

/-! ## Statements -/

theorem abridges_definitionValue (kind : ParameterKind) :
    c.coupling.Abridges (c.At false) (definitionValue kind)
      (fun _ l => ∃ signs, c.At signs l) Always := by
  have hgiven : c.coupling.Abridges (c.At false) (Scan.expect "=" >>= fun _ => Scan.constant)
      (fun _ l => ∃ signs, c.At signs l) Always := by
    apply (Scan.abridges_expect "=" false true rfl rfl rfl).andThen
    intro _
    exact Scan.abridges_constant.weaken (fun _ _ _ h _ => h) (fun _ _ h => h) fun _ => False.elim
  cases kind with
  | constant => exact hgiven
  | literal => exact hgiven
  | declared =>
    apply (Scan.abridges_mark "=" false true rfl rfl rfl).bind
    · intro found
      cases found with
      | true =>
        exact Scan.abridges_constant.weaken (fun _ _ _ h _ => h) (fun _ _ h => h)
          fun _ => False.elim
      | false => exact .pure fun _ h => ⟨false, h⟩
    · rintro found rfl
      exact .pure trivial

/-- A semicolon ends values. -/
theorem abridges_semicolon : c.coupling.Abridges (fun l => ∃ signs, c.At signs l)
    (Scan.expect ";") (fun _ => c.At false) Never := by
  rintro k l l' a hkl ⟨signs, hat⟩ hok
  have hopens : Token.opensLiteral signs ';' = false := by cases signs <;> rfl
  have hsigns : (Token.punctuation ';').signsBehind signs = false := by cases signs <;> rfl
  exact Scan.abridges_expect ";" signs false rfl hopens hsigns hkl hat hok

theorem keeps_definition (kind : ParameterKind) : c.Keeps (definition kind) Never := by
  apply Scan.abridges_identifier.lift.andThen
  intro name
  split
  · exact .fail fun d e a hok => by
      obtain ⟨_, _, hfail, -⟩ := bind_eq_ok.mp hok
      exact lift_fail_ne_ok hfail
  · apply Abridges.look
    intro d e f a hde hP hok
    have hparameters : e.parameters = d.parameters := congrArg Inventory.parameters hde.2
    rw [hparameters] at hok
    split at hok
    · obtain ⟨_, _, hfail, -⟩ := bind_eq_ok.mp hok
      exact (lift_fail_ne_ok hfail).elim
    · rename_i hnew
      rw [if_neg hnew]
      refine Abridges.bind (abridges_definitionValue kind).lift (fun value => ?_)
        (fun value _ => ?_) hde hP hok
      · apply abridges_semicolon.lift.andThen
        intro _
        have hadd : c.Keeps (addNamed name kind value) Never :=
          (together_addNamed name kind value).abridges fun _ _ _ hP hok =>
            (modifyGet_eq_ok.mp hok).2 ▸ hP
        exact hadd.andThen fun _ => keeps_note _
      · exact (stays_lift (Scan.stays_expect ";" (by decide))).andThen

/-- Nothing is left behind an `END`. -/
theorem abridges_finish {Q : Instruction → Draft → Prop} :
    c.coupling.onDraft.Abridges (fun _ => True) finish Q Never := by
  apply Abridges.look
  intro d e f ins hde _ hok
  obtain ⟨last, g, hlast, hok⟩ := bind_eq_ok.mp hok
  obtain ⟨l, hpeek, rfl⟩ := lift_eq_ok.mp hlast
  obtain ⟨t, l', hpeek, hnone⟩ := bind_eq_ok.mp hpeek
  obtain ⟨rfl, rfl⟩ := Scan.ahead_of_peek? hpeek
  obtain ⟨rfl, rfl⟩ := pure_eq_ok.mp hnone
  exfalso
  -- the rest of the text is there
  have hne : e.cursor.ahead ≠ [] := by
    rw [Cut.ahead_of_beside hde.1]
    apply List.append_ne_nil_of_right_ne_nil
    intro hmore
    have hsolid := c.splits.solid
    rw [hmore] at hsolid
    cases hsolid
  obtain ⟨t, ht⟩ := Token.exists_lead? hne
  rw [ht] at hok
  obtain ⟨k, hk, -⟩ := lift_eq_ok.mp hok
  exact failAhead_eq_ok.mp hk

theorem abridges_statementName :
    c.coupling.Abridges (c.At false) statementName (fun _ => c.At false) Never := by
  rw [statementName, Scan.token?_bind rfl (Token.forall_not_isWhole fun _ _ => rfl)]
  apply (Scan.abridges_wholeToken (c.Begins false) .statement).andThen
  intro t
  cases t with
  | identifier name => exact .pure fun _ => Scan.at_of_name
  | integer digits => exact .fail fun _ _ _ => fail_eq_ok.mp
  | punctuation mark => exact .fail fun _ _ _ => fail_eq_ok.mp

/-- A statement in front of the cut is not the `END`. -/
theorem abridges_statement (count : Nat) :
    c.coupling.onDraft.Abridges (fun d => c.At false d.cursor) (statement count)
      (fun added d => (∀ ins, added ≠ .finish ins) ∧ c.At false d.cursor) Never := by
  have hdefinition : ∀ (around : Construct) (kind : ParameterKind), c.coupling.onDraft.Abridges
      (fun d => c.At false d.cursor)
      (within around (definition kind) >>= fun _ => pure Statement.definition)
      (fun added d => (∀ ins, added ≠ .finish ins) ∧ c.At false d.cursor) Never := by
    intro around kind
    apply ((keeps_definition kind).within (nests_onDraft Cut.nests) around).andThen
    intro _
    exact .pure fun _ h => ⟨fun _ => Statement.noConfusion, h⟩
  apply abridges_statementName.lift.andThen
  intro name
  split
  · exact .fail fun _ _ _ => lift_fail_ne_ok
  split
  · exact hdefinition .defineStatement .constant
  split
  · exact hdefinition .declareStatement .declared
  split
  · apply Abridges.andThen (Q := fun _ _ => False)
    · exact abridges_finish.weaken (fun _ _ _ _ _ => trivial) (fun _ _ h => h) fun _ h => h
    · exact fun _ => .pure fun _ => False.elim
  · apply ((keeps_instruction name).within (nests_onDraft Cut.nests) _).andThen
    intro ins
    apply Abridges.look
    intro d e f added hde hP hok
    have hline : e.cursor.line = d.cursor.line := by
      rw [hde.1.1]
      rfl
    rw [hline] at hok
    refine Abridges.andThen (keeps_note _) (fun _ => ?_) hde hP hok
    exact .pure fun _ h => ⟨fun _ => Statement.noConfusion, h⟩

/-- Statements that are all read in the whole text end at the cut. -/
theorem last_of_statements {fuel count : Nat} {d e f : Draft} {instructions : List Instruction}
    (hde : c.coupling.onDraft.beside d e) (hat : c.At false e.cursor)
    (hok : statements fuel count e = .ok instructions f) :
    ∃ error g, statements fuel count d = .error error g ∧ c.coupling.last error := by
  induction fuel generalizing count d e f instructions with
  | zero => exact (lift_fail_ne_ok hok).elim
  | succ fuel ih =>
    obtain ⟨added, m, hadded, hmore⟩ := bind_eq_ok.mp hok
    have hshort := abridges_statement count hde hat hadded
    rw [statements, bind_apply]
    generalize statement count d = x at hshort
    cases hshort with
    | @ok m' state post =>
      cases added with
      | definition => exact ih state post.2 hmore
      | instruction ins =>
        obtain ⟨rest, _, hrest, -⟩ := bind_eq_ok.mp hmore
        obtain ⟨error, g, herror, hlast⟩ := ih state post.2 hrest
        refine ⟨error, g, ?_, hlast⟩
        show (statements fuel (count + 1) >>= _) m' = _
        rw [bind_apply, herror]
      | finish ins => exact absurd rfl (post.1 ins)
    | spent value state => exact value.elim
    | last h => exact ⟨_, _, rfl, h⟩

end Compile

end FragmentAssembly
