import FragmentAssembly.Proofs.Disassembly.Statement
import FragmentAssembly.Proofs.Grammar.Source
import FragmentAssembly.Proofs.Reading.Fuel

/-!
# Recognition of statements

The actions that read instructions, definitions and whole statements recognize the productions of
the grammar.  The statements of a program are read if and only if they are derived and their
mentions agree.
-/

namespace FragmentAssembly

open Grammar

namespace Compile

variable {taken : List Char}

/-! ## Instructions -/

theorem accepts_commaSeparated {α : Type} {item : Compile α} {p : Phrase}
    (hitem : item.Accepts p ['.']) (count : Nat) :
    (commaSeparated item count).Accepts (separated p count) ['.'] := by
  induction count with
  | zero => exact Accepts.pure [] ['.']
  | succ count ih =>
    cases count with
    | zero => exact Accepts.map hitem _
    | succ count =>
      refine Accepts.andThen hitem (fun first => ?_) fun _ => .begins rfl (by decide) _
      refine Accepts.andThen (Recognizes.expect rfl rfl []) (fun _ => ?_) fun _ => .nil _ _
      exact Accepts.map ih _

theorem accepts_vectorSource : vectorSource.Accepts (source Grammar.vectorSuffix) ['.'] :=
  (accepts_sourceWith (fun o _ => accepts_vectorSuffix o) List.mem_cons_self).within

theorem accepts_scalarSource : scalarSource.Accepts (source Grammar.scalarSuffix) ['.'] :=
  (accepts_sourceWith (fun o _ => accepts_scalarSuffix o) List.mem_cons_self).within

theorem accepts_operands (ins : Instruction) (shape : Operands) :
    (Compile.operands ins shape).Accepts (Grammar.operands shape) ['.'] := by
  cases shape with
  | vectors count => exact Accepts.map (accepts_commaSeparated accepts_vectorSource count) _
  | scalars count => exact Accepts.map (accepts_commaSeparated accepts_scalarSource count) _
  | lookup count =>
    refine Accepts.andThen (accepts_commaSeparated accepts_vectorSource count) (fun sources => ?_)
      fun _ => .begins rfl (by decide) _
    refine Accepts.andThen (Recognizes.expect rfl rfl []) (fun _ => ?_) fun _ => .nil _ _
    exact Accepts.map (accepts_textureImage ['.']).within _
  | condition =>
    unfold Compile.operands
    rw [lift_within]
    exact Accepts.map (accepts_condition List.mem_cons_self).within _

theorem accepts_destinationOf (ins : Instruction) (writes : Bool) (taken : List Char) :
    (Compile.destinationOf ins writes).Accepts (Grammar.destinationOf writes) taken := by
  cases writes with
  | false => exact Accepts.pure ins taken
  | true =>
    have hdestination : Compile.destination.Accepts Grammar.destination ['.', '('] :=
      accepts_destination (by decide) (by decide)
    refine Accepts.andThen hdestination.within (fun target => ?_) fun _ => .mark rfl (by decide)
    exact Accepts.map (Recognizes.expect rfl rfl taken) _

/-- What stands behind the mnemonic of an instruction. -/
def instructionRest (mnemonic : String) : Phrase :=
  .anyOf fun pattern => ((Grammar.destinationOf pattern.writes).andThen
    ((Grammar.operands pattern.operands).andThen (mark ';'))).given (IsMnemonic mnemonic pattern)

theorem accepts_instruction (mnemonic : String) (taken : List Char) :
    (Compile.instruction mnemonic).Accepts (instructionRest mnemonic) taken := by
  unfold Compile.instruction instructionRest
  simp only [isMnemonic_iff]
  refine Recognizes.look fun d => ?_
  cases readMnemonic mnemonic with
  | error cause =>
    refine (Recognizes.of_fails (fails_fail cause) _ taken).extend False.elim ?_
    rintro _ cs new rest ms i - - ⟨pattern, ⟨suffixes, hfound⟩, -⟩
    cases hfound
  | ok found =>
    obtain ⟨pattern, suffixes⟩ := found
    have hpattern : ∀ other, (∃ s, (Except.ok (pattern, suffixes) :
        Except ErrorCause (Pattern × Suffixes)) = .ok (other, s)) ↔ other = pattern := by
      intro other
      constructor
      · rintro ⟨s, hs⟩
        cases hs
        rfl
      · rintro rfl
        exact ⟨suffixes, rfl⟩
    -- a mnemonic belongs to one pattern, and that one is known here
    simp only [hpattern]
    rw [Phrase.anyOf_given_eq]
    refine Accepts.andThen (accepts_destinationOf _ pattern.writes []) (fun ins => ?_)
      fun _ => .nil _ _
    refine Accepts.andThen (accepts_operands ins pattern.operands) (fun ins => ?_)
      fun _ => .mark rfl (by decide)
    exact Accepts.map (Recognizes.expect rfl rfl taken) _

/-! ## Definitions -/

def parameterValue : ParameterKind → Phrase
  | .declared => definedValue.optional
  | _ => definedValue

theorem accepts_definitionValue (kind : ParameterKind) :
    (liftM (definitionValue kind) : Compile Vec4).Accepts (parameterValue kind) ['='] := by
  have hvalue : Accepts (do
      liftM (Scan.expect "=")
      liftM Scan.constant : Compile Vec4) definedValue ['='] :=
    Accepts.andThen (Recognizes.expect rfl rfl []) (fun _ => accepts_constant ['='])
      fun _ => .nil _ _
  cases kind with
  | declared =>
    unfold definitionValue
    rw [lift_bind]
    exact Recognizes.optional rfl rfl (accepts_constant ['=']) (Accepts.pure _ ['=']) (by decide)
  | constant =>
    unfold definitionValue
    rw [lift_bind]
    exact hvalue
  | literal =>
    unfold definitionValue
    rw [lift_bind]
    exact hvalue

theorem gathers_define {i : Inventory} {name : String} (hfree : ¬IsReserved name)
    (hnew : ¬(i.parameters.lookup? name).isSome = true) (kind : ParameterKind) (v : Vec4) :
    i.Gathers [.define name]
      { i with parameters := (i.parameters.addNamed name kind v).2 } := by
  intro ms hms
  exact ⟨⟨fun hdefined => hnew ((hms.name name).mpr hdefined), trivial⟩, hms.define hfree kind v⟩

/-- The rest of a definition, whose name is free. -/
theorem accepts_definitionRest {name : String} (hfree : ¬IsReserved name) (kind : ParameterKind) :
    Accepts (do
        if ((← get).parameters.lookup? name).isSome then
          Scan.fail (.duplicateSymbol name)
        let value ← definitionValue kind
        Scan.expect ";"
        let index ← addNamed name kind value
        note (.parameterDefined name kind index value))
      ((parameterValue kind).andThen ((mark ';').andThen (.mentioning (.define name)))) taken where
  sound := by
    intro d e a hok
    simp only [bind_eq_ok, get_eq_ok] at hok
    obtain ⟨_, _, ⟨rfl, rfl⟩, hok⟩ := hok
    split at hok
    · simp only [bind_eq_ok, lift_eq_ok, fail_eq_ok, false_and, exists_false] at hok
    · rename_i hnew
      simp only [bind_eq_ok, lift_eq_ok, addNamed, modifyGet_eq_ok, note, modify_eq_ok] at hok
      obtain ⟨v, _, ⟨k, hvalue, rfl⟩, _, _, ⟨l, hmark, rfl⟩, index, _, ⟨rfl, rfl⟩, rfl⟩ := hok
      obtain ⟨new, hp, hnew'⟩ := (accepts_definitionValue kind).sound
        (lift_eq_ok.mpr ⟨k, hvalue, rfl⟩)
      have hitem := Scan.mark_of_expect rfl hmark
      refine ⟨_, ⟨_, new, _, hp, ⟨_, [], _, ⟨hitem, rfl⟩, ⟨rfl, rfl⟩, rfl⟩, rfl⟩, ?_⟩
      exact hnew'.append (gathers_define hfree hnew kind v)
  complete := by
    rintro _ cs rest _ ms i ⟨mid, before, _, hvalue, ⟨_, _, _, ⟨hitem, rfl⟩, ⟨rfl, rfl⟩, rfl⟩, rfl⟩
      - hi hconsistent
    obtain ⟨hbefore, hlast⟩ := consistent_append.mp hconsistent
    have hnew : ¬(i.parameters.lookup? name).isSome = true := fun hfound =>
      hlast.1 (List.mem_append_left before ((hi.name name).mp hfound))
    refine Builds.look fun d hd hinventory => ?_
    have hparameters : d.parameters = i.parameters := congrArg Inventory.parameters hinventory
    rw [hparameters, if_neg hnew]
    -- the semicolon cannot be taken for an equals sign
    have hclears : (mark ';').Clears ['='] [] := .mark rfl (by decide)
    have havoids : Avoids ['='] mid := hclears _ [] _ ⟨hitem, rfl⟩ (avoids_nil _)
    refine ((accepts_definitionValue kind).complete (x := ()) hvalue havoids hi hbefore).andThen ?_
    rintro v j ⟨-, hj⟩
    refine Builds.read (Scan.reads_expect_mark rfl rfl hitem) ?_
    refine (builds_addNamed name kind v).andThen ?_
    rintro index _ rfl
    refine (builds_note _).weaken ?_
    rintro _ _ rfl
    have hrecords := hj.define hfree kind v
    rw [List.append_assoc] at hrecords
    exact ⟨rfl, hrecords⟩

theorem accepts_definition (kind : ParameterKind) (taken : List Char) :
    (Compile.definition kind).Accepts (parameter (parameterValue kind)) taken := by
  unfold Compile.definition parameter
  simp only [Phrase.given_andThen]
  refine Recognizes.identifier fun name => .given (fun hfree => ?_) fun hreserved => ?_
  · have hfree' : ¬isReserved name = true := fun h => hfree (isReserved_iff.mpr h)
    rw [if_neg hfree']
    exact accepts_definitionRest hfree kind
  · rw [if_pos (isReserved_iff.mp (Classical.not_not.mp hreserved))]
    exact (fails_fail _).bind _

/-! ## Statements -/

/-- What a statement is. -/
inductive StatementKind where
  | definition
  | instruction
  | finish

def Statement.kind : Statement → StatementKind
  | definition => .definition
  | instruction _ => .instruction
  | finish _ => .finish

/-- Nothing is left but blanks and comments. -/
def ending : Phrase :=
  fun cs ms rest => Token.visible cs = [] ∧ rest = cs ∧ ms = []

/-- What stands behind the name of a statement. -/
def statementRest (name : String) : StatementKind → Phrase
  | .definition => ((parameter definedValue).given (name = "DEFINE")).orElse
      ((parameter definedValue.optional).given (name = "DECLARE"))
  | .instruction => instructionRest name
  | .finish => ending.given (name = "END")

theorem accepts_finish (taken : List Char) : Compile.finish.Accepts ending taken := by
  unfold Compile.finish
  refine Recognizes.look fun d => ?_
  rw [Scan.atEnd, lift_bind, bind_assoc]
  refine (Recognizes.ahead Option.isNone (Accepts.pure _ taken)
    (.of_fails (fails_failAhead _) _ taken)).congr fun _ => ?_
  funext cs ms rest
  apply propext
  have hnone : (Token.lead? (Token.visible cs)).isNone = true ↔ Token.visible cs = [] := by
    cases Token.visible cs with
    | nil => exact iff_of_true rfl rfl
    | cons c cs =>
      refine iff_of_false ?_ (List.cons_ne_nil c cs)
      rw [Token.lead?]
      split
      · simp
      · split <;> simp
  rw [hnone]
  exact or_iff_left And.right

theorem recognizes_statementName (taken : List Char) :
    (liftM statementName : Compile String).Recognizes id word taken := by
  refine .lift (fun {k l name} h => ?_) fun {name cs rest} h => ⟨name, rfl, ?_⟩
  · simp only [statementName, bind_eq_ok] at h
    obtain ⟨t, k', htoken, h⟩ := h
    cases t with
    | none => exact (fail_eq_ok.mp h).elim
    | some t =>
      cases t with
      | identifier found =>
        obtain ⟨rfl, rfl⟩ := pure_eq_ok.mp h
        exact Scan.item_of_token? htoken
      | integer digits => exact (fail_eq_ok.mp h).elim
      | punctuation mark => exact (fail_eq_ok.mp h).elim
  · exact (Scan.reads_token?_item h).andThen (.pure name rest)

/-- No instruction is named like another statement. -/
theorem instructionRest_keyword {name : String} (h : name ∈ keywords) :
    instructionRest name = .never := by
  funext cs ms rest
  refine eq_false ?_
  rintro ⟨pattern, ⟨hlisted, suffixes, -, hname⟩, -⟩
  exact pattern.not_prefix_keyword hlisted name h ⟨_, hname.symm⟩

theorem recognizes_statement {count : Nat} (hcount : count < maxInstructions) (taken : List Char) :
    (statement count).Recognizes Statement.kind
      (fun kind => .anyOf fun name => (word name).andThen (statementRest name kind)) taken := by
  unfold statement
  refine (recognizes_statementName []).bindValue fun name => ?_
  rw [if_neg (Nat.not_le_of_lt hcount)]
  -- the keywords are no mnemonics, so one alternative is left for each name
  by_cases hdefine : name = "DEFINE"
  · subst hdefine
    have hother : instructionRest "DEFINE" = .never := instructionRest_keyword (by decide)
    rw [if_pos rfl]
    refine (Accepts.mapTo (accepts_definition .constant taken).within fun _ => rfl).congr
      fun kind => ?_
    cases kind <;> simp [statementRest, parameterValue, Statement.kind, hother]
  · rw [if_neg hdefine]
    by_cases hdeclare : name = "DECLARE"
    · subst hdeclare
      have hother : instructionRest "DECLARE" = .never := instructionRest_keyword (by decide)
      rw [if_pos rfl]
      refine (Accepts.mapTo (accepts_definition .declared taken).within fun _ => rfl).congr
        fun kind => ?_
      cases kind <;> simp [statementRest, parameterValue, Statement.kind, hother]
    · rw [if_neg hdeclare]
      by_cases hend : name = "END"
      · subst hend
        have hother : instructionRest "END" = .never := instructionRest_keyword (by decide)
        rw [if_pos rfl]
        refine (Accepts.mapTo (g := Statement.finish) (accepts_finish taken) fun _ => rfl).congr
          fun kind => ?_
        cases kind <;> simp [statementRest, hother]
      · rw [if_neg hend]
        refine (Accepts.andThen (q := fun kind => Phrase.empty.given (.instruction = kind))
          (accepts_instruction name []).within (fun ins => ?_) fun _ => .nil _ _).congr
          fun kind => ?_
        · refine Recognizes.look fun d => ?_
          exact Accepts.silently (accepts_note _) fun _ => .pure (Statement.instruction ins) _ taken
        · cases kind <;> simp [statementRest, hdefine, hdeclare, hend, Phrase.andThen_empty]

/-! ## Programs -/

theorem definition_eq : Grammar.definition =
    .anyOf fun name => (word name).andThen (statementRest name .definition) := by
  unfold Grammar.definition statementRest
  rw [word_andThen, word_andThen, Phrase.anyOf_orElse]
  simp only [Phrase.andThen_orElse]

theorem instruction_eq : Grammar.instruction =
    .anyOf fun name => (word name).andThen (statementRest name .instruction) := by
  unfold Grammar.instruction statementRest instructionRest
  simp only [wordOf_andThen, Phrase.andThen_anyOf]
  rw [Phrase.anyOf_comm]

variable {d e : Draft} {cs : List Char}

/-- Statements that were read are derived. -/
theorem statements_of_ok {fuel count : Nat} {instructions : List Instruction}
    (h : statements fuel count d = .ok instructions e) :
    ∃ ms n, Statements d.cursor.ahead ms n ∧ d.inventory.Gathers ms e.inventory ∧
      count + n < maxInstructions := by
  -- on the fuel, as `statements` goes on where one statement ends
  induction fuel generalizing count d instructions with
  | zero => exact (fails_fail _ _ _ _ h).elim
  | succ fuel ih =>
    simp only [statements, bind_eq_ok] at h
    obtain ⟨added, d', hadded, h⟩ := h
    -- a statement behind the last one there is room for would have been refused
    obtain ⟨hcount, -⟩ := assembles_of_statement hadded
    obtain ⟨new, hp, hnew⟩ := (recognizes_statement hcount []).sound hadded
    cases added with
    | definition =>
      obtain ⟨ms, n, hrest, hms, hbound⟩ := ih h
      rw [Statement.kind, ← definition_eq] at hp
      exact ⟨new ++ ms, n, .definition hp hrest, hnew.append hms, hbound⟩
    | instruction ins =>
      simp only [bind_eq_ok, pure_eq_ok] at h
      obtain ⟨rest, f, hstatements, rfl, rfl⟩ := h
      obtain ⟨ms, n, hrest, hms, hbound⟩ := ih hstatements
      rw [Statement.kind, ← instruction_eq] at hp
      exact ⟨new ++ ms, n + 1, .instruction hp hrest, hnew.append hms, by omega⟩
    | finish ins =>
      obtain ⟨rfl, rfl⟩ := pure_eq_ok.mp h
      obtain ⟨name, mid, _, _, ⟨hname, rfl⟩, ⟨rfl, hnothing, hsame, rfl⟩, rfl⟩ := hp
      rw [hname.2.visible_rest] at hnothing
      subst hnothing
      exact ⟨[], 0, .finish ⟨hname, rfl⟩, hnew, hcount⟩

/-- A statement that is derived is read, and takes some of the text. -/
theorem statement_ok {kind : StatementKind} {mid : List Char} {new before : List Mention}
    {count : Nat}
    (h : (Phrase.anyOf fun name => (word name).andThen (statementRest name kind)) cs new mid)
    (hahead : d.cursor.ahead = Token.visible cs) (hcount : count < maxInstructions)
    (hrecords : d.inventory.Records before) (hconsistent : Consistent before new) :
    ∃ added e, statement count d = .ok added e ∧ e.cursor.ahead = Token.visible mid ∧
      e.cursor.rest.length < d.cursor.rest.length ∧ added.kind = kind ∧
        e.inventory.Records (before ++ new) := by
  have hbuilds := (recognizes_statement hcount []).complete h (avoids_nil mid) hrecords hconsistent
  obtain ⟨added, e, hstatement, hrest, hkind, hrecords'⟩ := (hbuilds d hahead rfl).success trivial
  exact ⟨added, e, hstatement, hrest, rest_lt_of_statement hstatement, hkind, hrecords'⟩

/-- Statements that are derived are read, if their mentions agree and there is room for them. -/
theorem statements_ok {ms : List Mention} {n : Nat} (h : Statements cs ms n) {fuel count : Nat}
    {before : List Mention} (hfuel : d.cursor.rest.length < fuel)
    (hahead : d.cursor.ahead = Token.visible cs) (hcount : count + n < maxInstructions)
    (hrecords : d.inventory.Records before) (hconsistent : Consistent before ms) :
    ∃ instructions e, statements fuel count d = .ok instructions e ∧
      e.inventory.Records (before ++ ms) := by
  -- on the derivation; the kind of what is read says that it is the statement that was derived
  induction h generalizing fuel count d before with
  | @finish cs hend =>
    obtain ⟨fuel, rfl⟩ : ∃ k, fuel = k + 1 := ⟨fuel - 1, by omega⟩
    have hphrase : (Phrase.anyOf fun name => (word name).andThen (statementRest name .finish))
        cs [] [] := ⟨"END", [], [], [], hend, ⟨rfl, rfl, rfl, rfl⟩, rfl⟩
    obtain ⟨added, e, hstatement, -, -, hkind, hrecords'⟩ :=
      statement_ok hphrase hahead hcount hrecords trivial
    cases added with
    | finish ins => exact ⟨[ins], e, bind_eq_ok.mpr ⟨_, e, hstatement, rfl⟩, hrecords'⟩
    | definition => cases hkind
    | instruction ins => cases hkind
  | @definition cs mid new more n first rest ih =>
    obtain ⟨fuel, rfl⟩ : ∃ k, fuel = k + 1 := ⟨fuel - 1, by omega⟩
    obtain ⟨hnew, hmore⟩ := consistent_append.mp hconsistent
    have hroom : count < maxInstructions := by omega
    rw [definition_eq] at first
    obtain ⟨added, e, hstatement, hrest, hlt, hkind, hrecords'⟩ :=
      statement_ok first hahead hroom hrecords hnew
    have hfuel' : e.cursor.rest.length < fuel := by omega
    obtain ⟨instructions, f, hstatements, hrecords''⟩ := ih hfuel' hrest hcount hrecords' hmore
    rw [List.append_assoc] at hrecords''
    cases added with
    | definition => exact ⟨_, f, bind_eq_ok.mpr ⟨_, e, hstatement, hstatements⟩, hrecords''⟩
    | instruction ins => cases hkind
    | finish ins => cases hkind
  | @instruction cs mid new more n first rest ih =>
    obtain ⟨fuel, rfl⟩ : ∃ k, fuel = k + 1 := ⟨fuel - 1, by omega⟩
    obtain ⟨hnew, hmore⟩ := consistent_append.mp hconsistent
    have hroom : count < maxInstructions := by omega
    rw [instruction_eq] at first
    obtain ⟨added, e, hstatement, hrest, hlt, hkind, hrecords'⟩ :=
      statement_ok first hahead hroom hrecords hnew
    have hfuel' : e.cursor.rest.length < fuel := by omega
    have hcount' : count + 1 + n < maxInstructions := by omega
    obtain ⟨instructions, f, hstatements, hrecords''⟩ := ih hfuel' hrest hcount' hrecords' hmore
    rw [List.append_assoc] at hrecords''
    cases added with
    | instruction ins =>
      refine ⟨ins :: instructions, f, bind_eq_ok.mpr ⟨_, e, hstatement, ?_⟩, hrecords''⟩
      exact bind_eq_ok.mpr ⟨_, f, hstatements, rfl⟩
    | definition => cases hkind
    | finish ins => cases hkind

end Compile

end FragmentAssembly
