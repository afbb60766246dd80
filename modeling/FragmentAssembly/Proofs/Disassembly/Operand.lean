import FragmentAssembly.Proofs.Disassembly.Table

/-!
# Operands read back

In front of the text of an operand the compiler reads an operand that denotes the same, and enters
into its inventory what was entered when the program was assembled.
-/

namespace FragmentAssembly

/-! ## Names of registers -/

theorem temporary_text : ∀ i : TemporaryIndex, IsName (TemporaryIndex.text i) ∧
    temporaryNumber? (TemporaryIndex.text i) = some i.val ∧
    ConditionRegister.ofName? (TemporaryIndex.text i) = none ∧
    TemporaryIndex.text i ≠ "f" ∧ TemporaryIndex.text i ≠ "p" ∧ TemporaryIndex.text i ≠ "o" := by
  decide +kernel

theorem registerNamed?_inputNames : ∀ i : InputIndex, IsName (inputNames.get i) ∧
    registerNamed? inputNames (inputNames.get i) = some i := by
  decide +kernel

theorem registerNamed?_outputNames : ∀ i : OutputIndex, IsName (outputNames.get i) ∧
    registerNamed? outputNames (outputNames.get i) = some i := by
  decide +kernel

/-- A name that is not reserved is not that of a register. -/
theorem of_not_isReserved {name : String} (h : isReserved name = false) :
    ConditionRegister.ofName? name = none ∧ name ≠ "f" ∧ name ≠ "p" ∧
      temporaryNumber? name = none := by
  simp only [isReserved, Bool.or_eq_false_iff, decide_eq_false_iff_not, Option.isSome_eq_false_iff,
    Option.isNone_iff_eq_none, List.mem_cons, List.not_mem_nil, or_false, not_or] at h
  exact ⟨h.1.1, h.1.2.1, h.1.2.2.2, h.2⟩

/-! ## Inventories of both programs -/

/-- The inventory `j`, with which the text of a program is read, has what had been entered into
`i`.  Its table begins with all named entries of the table `t` of the program.  Both tables are in
step. -/
structure Inventory.Mirrors (t : ParameterTable) (i j : Inventory) : Prop where
  inputsRead : j.inputsRead = i.inputsRead
  outputsWritten : j.outputsWritten = i.outputsWritten
  textures : j.textures = i.textures
  parameters : j.parameters.entries = t.named ++ i.parameters.literals
  before : i.parameters.InStep
  after : j.parameters.InStep

/-- If the operand is a literal, its text can be read. -/
def Readable.IsPrintable (t : ParameterTable) (r : Readable) : Prop :=
  ∀ index entry, r = .parameter index → t.get? index = some entry → entry.name = none →
    ∀ c, (entry.value.get c).isFinite = true

theorem Readable.isPrintable_of_register {t : ParameterTable} {r : Readable}
    (h : ∀ index, r ≠ .parameter index) : r.IsPrintable t :=
  fun index _ hr => absurd hr (h index)

theorem ParameterTable.get?_namedFirst {t u : ParameterTable} {s : ParameterTable} {index : Nat}
    {entry : Parameter} (hu : u.entries = t.named ++ s.literals) (hs : s.literals <+: t.literals)
    (h : u.get? index = some entry) : t.namedFirst.get? index = some entry := by
  have hextends : t.namedFirst.Extends u := by
    show u.entries <+: t.named ++ t.literals
    rw [hu]
    exact (List.prefix_append_right_inj _).mpr hs
  exact hextends.get? h

/-! ## Texts of registers and entries -/

theorem ParameterTable.GrowsInto.inRange {s t : ParameterTable} {r : Readable}
    (h : s.GrowsInto t) (hr : r.InRange s) : r.InRange t := by
  obtain ⟨u, hu, htuned⟩ := h
  have hmore := hr.extends hu
  cases r with
  | temporary n => exact n.isLt
  | input n => exact n.isLt
  | localParameter n => exact n.isLt
  | parameter index => exact Nat.lt_of_lt_of_eq hmore htuned.size.symm

/-- An entry is written with its name, and a literal with its value. -/
theorem Program.registerText_parameter {p : Program} {index : Nat} {entry : Parameter}
    (hregular : p.parameters.IsRegular) (hentry : p.parameters.get? index = some entry) :
    (∃ name, entry.name = some name ∧ IsName name ∧ isReserved name = false ∧
        p.registerText (.parameter index) = name) ∨
      entry = ⟨none, .literal, entry.value⟩ ∧
        p.registerText (.parameter index) = entry.value.literal := by
  have hown := hregular.entry entry (ParameterTable.mem_of_get? hentry)
  have htext : p.registerText (.parameter index) = p.parameters.operandText index := rfl
  rw [htext, ParameterTable.operandText, hentry]
  obtain ⟨name, kind, value⟩ := entry
  cases name with
  | none => exact .inr ⟨hown.eq_literal (hown.kind_eq rfl) rfl, rfl⟩
  | some name =>
    rcases hown with ⟨hnone, -⟩ | ⟨other, hother, hname, hfree, -⟩
    · cases hnone
    · cases hother
      exact .inl ⟨name, rfl, hname, hfree, rfl⟩

/-- The text of a register or entry begins with a letter or a brace. -/
theorem Program.registerText_head {p : Program} {r : Readable}
    (hregular : p.parameters.IsRegular) (hr : r.InRange p.parameters) :
    ∃ c cs, (p.registerText r).toList = c :: cs ∧ (c.isAlpha = true ∨ c = '\x7b') := by
  cases r with
  | temporary n =>
    obtain ⟨⟨c, cs, htext, halpha, -⟩, -⟩ := temporary_text n
    exact ⟨c, cs, htext, .inl halpha⟩
  | input n =>
    refine ⟨'f', '[' :: ((inputNames.get n).toList ++ [']']), ?_, .inl rfl⟩
    simp [registerText]
  | localParameter n =>
    refine ⟨'p', '[' :: ((toString n.val).toList ++ [']']), ?_, .inl rfl⟩
    simp [registerText]
  | parameter index =>
    obtain ⟨entry, hentry⟩ : ∃ entry, p.parameters.get? index = some entry :=
      ⟨_, List.getElem?_eq_getElem hr⟩
    rcases registerText_parameter hregular hentry with
      ⟨name, -, ⟨c, cs, hcs, halpha, -⟩, -, htext⟩ | ⟨-, htext⟩
    · exact ⟨c, cs, by rw [htext, hcs], .inl halpha⟩
    · exact ⟨'\x7b', _, by rw [htext, Scan.toList_literal], .inr rfl⟩

namespace Compile

open Scan (Reads)

variable {p : Program} {i i' j : Inventory} {rest : List Char}

/-! ## Sources -/

theorem builds_operand_name {name : String} {possible : Prop} {cs : List Char}
    {post : Operand → Inventory → Prop} (hname : IsName name) (hend : Token.endsName cs = true)
    (h : (namedOperand name).Builds cs i possible rest post) :
    operand.Builds (name.toList ++ cs) i possible rest post := by
  have hlead : Token.lead? (Token.visible (name.toList ++ cs)) = some (.identifier name) := by
    rw [Token.visible_append cs (Token.isSolid_of_isName hname)]
    exact Token.lead?_name hname hend
  refine Builds.read (Scan.reads_peek? _) ?_
  rw [hlead, Option.any_some, beginsNumber, if_neg Bool.false_ne_true]
  exact Builds.read (Scan.reads_token_name hname hend) h

theorem builds_addLiteral (v : Vec4) :
    (addLiteral v).Builds rest i True rest fun index j => index = (i.parameters.addLiteral v).1 ∧
      j = { i with parameters := (i.parameters.addLiteral v).2 } := by
  apply Builds.change
  rintro d rfl
  exact ⟨rfl, rfl, rfl⟩

theorem builds_note (n : Note) : (note n).Builds rest i True rest fun _ j => j = i := by
  apply Builds.change
  rintro d rfl
  exact ⟨rfl, rfl⟩

theorem builds_operand_literal (v : Vec4) :
    operand.Builds (v.literal.toList ++ rest) i (∀ c, (v.get c).isFinite = true) rest
      fun o j => o.readable = .parameter (i.parameters.addLiteral v).1 ∧
        j = { i with parameters := (i.parameters.addLiteral v).2 } := by
  have htext : v.literal.toList ++ rest = ['\x7b'] ++ ((v.x.text .literal).toList ++
      (Scan.componentsText [v.y, v.z, v.w] ++ '\x7d' :: rest)) := by
    simp [Scan.toList_literal]
  rw [htext]
  refine Builds.read (Scan.reads_peek? _) ?_
  have hbrace : ∀ cs : List Char,
      Token.lead? (Token.visible (['\x7b'] ++ cs)) = some (.punctuation '\x7b') := fun cs => rfl
  rw [hbrace, if_neg (by decide)]
  refine Builds.read (Scan.reads_token_brace _) ?_
  show vectorLiteral.Builds _ _ _ _ _
  refine (Builds.lift (Scan.reads_vectorRest v)).followedBy ?_
  rintro _ _ ⟨rfl, rfl⟩
  refine (builds_addLiteral _).andThen ?_
  rintro _ _ ⟨rfl, rfl⟩
  refine (builds_note _).andThen ?_
  rintro _ _ rfl
  exact .pure ⟨rfl, rfl⟩ _

theorem builds_inputRegister (n : InputIndex) :
    inputRegister.Builds ('[' :: ((inputNames.get n).toList ++ ']' :: rest)) i True rest
      fun m j => m = n ∧ j = { i with inputsRead := i.inputsRead ||| (1 <<< n.val) } := by
  obtain ⟨hname, hfound⟩ := registerNamed?_inputNames n
  refine Builds.read (Scan.reads_expect_char rfl rfl _) ?_
  refine Builds.read (Scan.reads_identifier hname rfl) ?_
  rw [hfound]
  refine Builds.read (Scan.reads_expect_char rfl rfl _) ?_
  have hmark : (markInput n).Builds rest i True rest fun _ j =>
      j = { i with inputsRead := i.inputsRead ||| (1 <<< n.val) } := by
    apply Builds.change
    rintro d rfl
    exact ⟨rfl, rfl⟩
  refine hmark.andThen ?_
  rintro _ _ rfl
  exact .pure ⟨rfl, rfl⟩ _

theorem reads_localParameter (n : LocalParameterIndex) :
    Scan.localParameter.Reads ('[' :: ((toString n.val).toList ++ ']' :: rest)) True n rest := by
  have hsize : n.val < UInt64.size := Nat.lt_trans n.isLt (by decide)
  refine (Scan.reads_expect_char rfl rfl _).andThen ?_
  refine (Scan.reads_integer hsize rfl).andThen ?_
  rw [dif_pos n.isLt]
  exact (Scan.reads_expect_char rfl rfl _).andThen (.pure _ _)

theorem reads_temporary (n : TemporaryIndex) :
    (Scan.temporary n.val).Reads rest True n rest := by
  unfold Scan.temporary
  rw [dif_pos n.isLt]
  exact .pure n rest

/-- The name of an entry is read as its index in the table of this reading. -/
theorem builds_operand_named {name : String} {index : Nat} (hregular : p.parameters.IsRegular)
    (hname : IsName name) (hfound : i.parameters.lookup? name = some index)
    (hgrows : i.parameters.GrowsInto p.parameters) (hmirrors : i.Mirrors p.parameters i')
    (hend : Token.endsName rest = true) :
    operand.Builds ((p.registerText (.parameter index)).toList ++ rest) i'
      ((Readable.parameter index).IsPrintable p.parameters) rest fun o j' =>
        (Readable.parameter index).Alike p.parameters p.parameters.namedFirst o.readable ∧
          i.Mirrors p.parameters j' := by
  obtain ⟨entry, hentry, hentryName⟩ := ParameterTable.get?_of_lookup? hmirrors.before hfound
  obtain ⟨entry', hentry', htuned⟩ := hgrows.get? hentry
  have hname' : entry'.name = some name := htuned.name.trans hentryName
  have hmem := ParameterTable.mem_of_get? hentry'
  obtain ⟨hfree, htext⟩ : isReserved name = false ∧ p.registerText (.parameter index) = name := by
    rcases Program.registerText_parameter hregular hentry' with
      ⟨other, hother, -, hfree, htext⟩ | ⟨hliteral, -⟩
    · rw [hname', Option.some.injEq] at hother
      rw [hother]
      exact ⟨hfree, htext⟩
    · rw [hliteral] at hname'
      cases hname'
  -- a name that is not reserved is looked up in the table
  obtain ⟨hcondition, hf, hp, hnumber⟩ := of_not_isReserved hfree
  have hprintable : (Readable.parameter index).IsPrintable p.parameters := by
    rintro _ other ⟨rfl⟩ hother hnone
    rw [hentry', Option.some.injEq] at hother
    rw [← hother, hname'] at hnone
    cases hnone
  refine .congr_possible (iff_true_intro hprintable) ?_
  rw [htext]
  refine builds_operand_name hname hend ?_
  unfold namedOperand
  rw [hcondition, Option.isSome_none, if_neg Bool.false_ne_true, if_neg hf, if_neg hp, hnumber]
  refine Builds.look fun d hd hi => ?_
  -- the index differs from the one in the program, but the entry there is the same
  obtain ⟨index', hlookup, hget⟩ := ParameterTable.lookup?_named hregular hmirrors.after
    hmirrors.parameters (fun _ hliteral => ParameterTable.name_of_mem_literals hliteral) hmem hname'
  have hparameters : d.parameters = i'.parameters := congrArg Inventory.parameters hi
  rw [hparameters, hlookup]
  have hfirst := ParameterTable.get?_namedFirst hmirrors.parameters (hgrows.literals hregular) hget
  exact .pure ⟨.of_entry hentry' hfirst, hmirrors⟩ _

/-- A value in braces is entered as it was when the program was assembled. -/
theorem builds_operand_addLiteral (v : Vec4) (hregular : p.parameters.IsRegular)
    (hgrows : (i.parameters.addLiteral v).2.GrowsInto p.parameters)
    (hmirrors : i.Mirrors p.parameters i') :
    operand.Builds ((p.registerText (.parameter (i.parameters.addLiteral v).1)).toList ++ rest) i'
      ((Readable.parameter (i.parameters.addLiteral v).1).IsPrintable p.parameters) rest
      fun o j' => (Readable.parameter (i.parameters.addLiteral v).1).Alike p.parameters
          p.parameters.namedFirst o.readable ∧
        Inventory.Mirrors p.parameters
          { i with parameters := (i.parameters.addLiteral v).2 } j' := by
  obtain ⟨entry, hentry, hkind, hvalue⟩ := ParameterTable.get?_addLiteral i.parameters v
  obtain ⟨entry', hentry', htuned⟩ := hgrows.get? hentry
  have hkind' : entry'.kind = .literal := htuned.kind.trans hkind
  have hvalue' : entry'.value = v := by
    rw [htuned.value (by rw [hkind]; decide), hvalue]
  obtain rfl : entry' = ⟨none, .literal, v⟩ :=
    (hregular.entry entry' (ParameterTable.mem_of_get? hentry')).eq_literal hkind' hvalue'
  have htext : p.registerText (.parameter (i.parameters.addLiteral v).1) = v.literal := by
    rcases Program.registerText_parameter hregular hentry' with ⟨name, hname, -⟩ | ⟨-, htext⟩
    · cases hname
    · exact htext
  have hprintable : (Readable.parameter (i.parameters.addLiteral v).1).IsPrintable p.parameters ↔
      ∀ c, (v.get c).isFinite = true := by
    constructor
    · intro h
      exact h _ _ rfl hentry' rfl
    · rintro hfinite _ other ⟨rfl⟩ hother -
      rw [hentry', Option.some.injEq] at hother
      rw [← hother]
      exact hfinite
  refine .congr_possible hprintable ?_
  rw [htext]
  refine (builds_operand_literal v).weaken ?_
  rintro o _ ⟨ho, rfl⟩
  -- both tables have the literal now, each behind its own entries
  have hbefore : ∀ entry ∈ i.parameters.entries, entry.IsRegular :=
    (hgrows.of_extends (ParameterTable.extends_addLiteral _ v)).regular hregular
  have hmirror := ParameterTable.addLiteral_mirror (v := v) hbefore hregular.entry
    hmirrors.parameters
  obtain ⟨found, hget, hkind, hvalue⟩ := ParameterTable.get?_addLiteral i'.parameters v
  have hfirst := ParameterTable.get?_namedFirst hmirror (hgrows.literals hregular) hget
  obtain rfl : found = ⟨none, .literal, v⟩ := by
    have hmem := ParameterTable.mem_of_get? hget
    rw [hmirror, List.mem_append] at hmem
    refine Parameter.IsRegular.eq_literal ?_ hkind hvalue
    rcases hmem with hmem | hmem
    · exact hregular.entry found (List.mem_filter.mp hmem).1
    · exact hgrows.regular hregular found (List.mem_filter.mp hmem).1
  rw [ho]
  exact ⟨.of_entry hentry' hfirst, { hmirrors with
    parameters := hmirror
    before := hmirrors.before.addLiteral v
    after := hmirrors.after.addLiteral v }⟩

/-- The text of a register or entry is read as one that denotes the same. -/
theorem builds_operand {r : Readable} (hregular : p.parameters.IsRegular) (hread : i.Reads r j)
    (hgrows : j.parameters.GrowsInto p.parameters) (hmirrors : i.Mirrors p.parameters i')
    (hend : Token.endsName rest = true) :
    operand.Builds ((p.registerText r).toList ++ rest) i' (r.IsPrintable p.parameters) rest
      fun o j' => r.Alike p.parameters p.parameters.namedFirst o.readable ∧
        j.Mirrors p.parameters j' := by
  -- a register is printed by its name alone, so only parameters depend on the inventory
  cases hread with
  | temporary n =>
    obtain ⟨hname, hnumber, hcondition, hf, hp, -⟩ := temporary_text n
    show operand.Builds ((TemporaryIndex.text n).toList ++ rest) _ _ _ _
    refine .congr_possible (iff_true_intro (Readable.isPrintable_of_register nofun)) ?_
    refine builds_operand_name hname hend ?_
    unfold namedOperand
    rw [hcondition, Option.isSome_none, if_neg Bool.false_ne_true, if_neg hf, if_neg hp, hnumber]
    refine Builds.read (reads_temporary n) ?_
    exact .pure ⟨.of_register nofun, hmirrors⟩ _
  | input n =>
    have htext : (p.registerText (.input n)).toList ++ rest =
        "f".toList ++ '[' :: ((inputNames.get n).toList ++ ']' :: rest) := by
      simp [Program.registerText]
    rw [htext]
    refine .congr_possible (iff_true_intro (Readable.isPrintable_of_register nofun)) ?_
    refine builds_operand_name (by decide) rfl ?_
    refine (builds_inputRegister n).andThen ?_
    rintro m _ ⟨rfl, rfl⟩
    exact .pure ⟨.of_register nofun, { hmirrors with
      inputsRead := congrArg (· ||| (1 <<< m.val)) hmirrors.inputsRead }⟩ _
  | localParameter n =>
    have htext : (p.registerText (.localParameter n)).toList ++ rest =
        "p".toList ++ '[' :: ((toString n.val).toList ++ ']' :: rest) := by
      simp [Program.registerText]
    rw [htext]
    refine .congr_possible (iff_true_intro (Readable.isPrintable_of_register nofun)) ?_
    refine builds_operand_name (by decide) rfl ?_
    refine Builds.read (reads_localParameter n) ?_
    exact .pure ⟨.of_register nofun, hmirrors⟩ _
  | named hname hfound => exact builds_operand_named hregular hname hfound hgrows hmirrors hend
  | literal v => exact builds_operand_addLiteral v hregular hgrows hmirrors

end Compile

end FragmentAssembly
