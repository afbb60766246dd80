import FragmentAssembly.Proofs.Disassembly.Instruction

/-!
# Statements read back

The text of a program begins with the definitions of its named parameters.  Reading them gives the
table of named entries, and then every instruction finds the names that it uses.
-/

namespace FragmentAssembly

/-- Each element adds at least one element. -/
theorem length_le_length_flatMap {α β : Type} {f : α → List β} {as : List α}
    (h : ∀ a ∈ as, f a ≠ []) : as.length ≤ (as.flatMap f).length := by
  induction as with
  | nil => exact Nat.le_refl 0
  | cons a as ih =>
    rw [List.forall_mem_cons] at h
    have hfirst := List.length_pos_iff.mpr h.1
    have hrest := ih h.2
    rw [List.flatMap_cons, List.length_append, List.length_cons]
    omega

namespace Compile

open Scan (Reads)

variable {p : Program} {i i' j : Inventory} {cs rest : List Char} {count : Nat}

theorem reads_statementName {name : String} (hname : IsName name)
    (hend : Token.endsName rest = true) :
    statementName.Reads (name.toList ++ rest) True name rest :=
  (Scan.reads_token?_name hname hend).andThen (.pure name rest)

/-- A statement is what its first word says. -/
theorem builds_statement {name : String} {possible : Prop}
    {post : Statement → Inventory → Prop} (hname : IsName name) (hend : Token.endsName cs = true)
    (hcount : count < maxInstructions)
    (h : Builds (if name = "DEFINE" then do
        within .defineStatement (definition .constant)
        return Statement.definition
      else if name = "DECLARE" then do
        within .declareStatement (definition .declared)
        return Statement.definition
      else if name = "END" then
        return Statement.finish (← finish)
      else do
        let ins ← within .instruction (instruction name)
        note (.instructionRead ins.opcode ins.position (← get).cursor.line)
        return Statement.instruction ins) cs i possible rest post) :
    (statement count).Builds (name.toList ++ cs) i possible rest post := by
  refine Builds.read (reads_statementName hname hend) ?_
  rw [if_neg (Nat.not_le_of_lt hcount)]
  exact h

/-! ## Definitions -/

theorem reads_definitionValue (kind : ParameterKind) (v : Vec4) :
    (definitionValue kind).Reads (' ' :: '=' :: ' ' :: (v.literal.toList ++ rest))
      (∀ c, (v.get c).isFinite = true) v rest := by
  apply Reads.blank rfl
  have hvalue : Scan.constant.Reads (' ' :: (v.literal.toList ++ rest))
      (∀ c, (v.get c).isFinite = true) v rest :=
    Reads.blank rfl (Scan.reads_constant v)
  unfold definitionValue
  cases kind with
  | constant => exact (Scan.reads_expect_char rfl rfl _).andThen hvalue
  | literal => exact (Scan.reads_expect_char rfl rfl _).andThen hvalue
  | declared =>
    refine (Scan.reads_accept_char rfl rfl _).andThen ?_
    rw [if_pos rfl]
    exact hvalue

/-- The text of a definition behind its keyword. -/
def definitionText (name : String) (v : Vec4) (rest : List Char) : List Char :=
  ' ' :: (name.toList ++ ' ' :: '=' :: ' ' :: (v.literal.toList ++ ';' :: '\n' :: rest))

theorem builds_addNamed (name : String) (kind : ParameterKind) (v : Vec4) :
    (addNamed name kind v).Builds rest i True rest fun _ j =>
      j = { i with parameters := (i.parameters.addNamed name kind v).2 } := by
  apply Builds.change
  rintro d rfl
  exact ⟨rfl, rfl⟩

theorem builds_definition {name : String} (kind : ParameterKind) (v : Vec4) (hname : IsName name)
    (hfree : isReserved name = false) (hnew : i.parameters.lookup? name = none) :
    (definition kind).Builds (definitionText name v rest) i (∀ c, (v.get c).isFinite = true)
      ('\n' :: rest) fun _ j =>
        j = { i with parameters := (i.parameters.addNamed name kind v).2 } := by
  refine Builds.congr_text (Token.visible_blank _ rfl) ?_
  refine Builds.read (Scan.reads_identifier hname rfl) ?_
  rw [hfree, if_neg Bool.false_ne_true]
  refine Builds.look fun d hd hi => ?_
  have hparameters : d.parameters = i.parameters := congrArg Inventory.parameters hi
  rw [hparameters, hnew, if_neg (by decide)]
  refine (Builds.lift (reads_definitionValue kind v)).followedBy ?_
  rintro _ _ ⟨rfl, rfl⟩
  refine Builds.read (Scan.reads_expect_char rfl rfl _) ?_
  refine (builds_addNamed name kind _).andThen ?_
  rintro index _ rfl
  refine (builds_note _).weaken ?_
  rintro _ _ rfl
  rfl

theorem builds_definitionStatement {name : String} (c : Construct) (kind : ParameterKind) (v : Vec4)
    (hname : IsName name) (hfree : isReserved name = false)
    (hnew : i.parameters.lookup? name = none) :
    Builds (do
        within c (definition kind)
        return Statement.definition) (definitionText name v rest) i
      (∀ c, (v.get c).isFinite = true) ('\n' :: rest) fun added j => added = .definition ∧
        j = { i with parameters := (i.parameters.addNamed name kind v).2 } := by
  refine (builds_definition kind v hname hfree hnew).within.followedBy ?_
  rintro _ _ rfl
  exact .pure ⟨rfl, rfl⟩ _

/-- The statement of an entry is read as the definition that added it. -/
theorem builds_statement_definition (rest : List Char) {entry : Parameter} {name : String}
    (hregular : entry.IsRegular) (hentry : entry.name = some name)
    (hnew : i.parameters.lookup? name = none) (hcount : count < maxInstructions) :
    ∃ text, entry.statement? = some text ∧
      (statement count).Builds (text.toList ++ rest) i (∀ c, (entry.value.get c).isFinite = true)
        ('\n' :: rest) fun added j => added = .definition ∧
          j = { i with parameters := (i.parameters.addNamed name entry.kind entry.value).2 } := by
  obtain ⟨_, kind, v⟩ := entry
  obtain rfl := hentry
  obtain ⟨hname, hfree, hkind⟩ : IsName name ∧ isReserved name = false ∧ kind ≠ .literal := by
    rcases hregular with ⟨hnone, -⟩ | ⟨other, hother, hname, hfree, hkind⟩
    · cases hnone
    · cases hother
      exact ⟨hname, hfree, hkind⟩
  have htext : ∀ keyword : String,
      (keyword ++ " " ++ name ++ " = " ++ v.literal ++ ";\n").toList ++ rest =
        keyword.toList ++ definitionText name v rest := by
    intro keyword
    simp [definitionText]
  cases kind with
  | literal => exact absurd rfl hkind
  | constant =>
    refine ⟨_, rfl, ?_⟩
    rw [htext]
    refine builds_statement (by decide) rfl hcount ?_
    rw [if_pos rfl]
    exact builds_definitionStatement _ .constant v hname hfree hnew
  | declared =>
    refine ⟨_, rfl, ?_⟩
    rw [htext]
    refine builds_statement (by decide) rfl hcount ?_
    rw [if_neg (by decide), if_pos rfl]
    exact builds_definitionStatement _ .declared v hname hfree hnew

/-! ## Instructions -/

theorem builds_statement_instruction {ins : Instruction} {pattern : Pattern}
    (hlisted : pattern ∈ Pattern.table) (hfits : ins.Fits pattern) (henters : i.Enters ins j)
    (hregular : p.parameters.IsRegular) (hgrows : j.parameters.GrowsInto p.parameters)
    (hmirrors : i.Mirrors p.parameters i') (hcount : count < maxInstructions) :
    (statement count).Builds ((p.instructionText ins).toList ++ rest) i'
      (∀ s ∈ ins.sources, s.register.IsPrintable p.parameters) rest fun added j' =>
        (∃ ins', added = .instruction ins' ∧
          ins.Alike p.parameters p.parameters.namedFirst ins') ∧ j.Mirrors p.parameters j' := by
  obtain ⟨hname, hkeyword, -⟩ := hfits.readMnemonic hlisted
  obtain ⟨cs, htext, hbuilds⟩ :=
    builds_instruction rest hlisted hfits henters hregular hgrows hmirrors
  -- the mnemonic is no keyword, so none of the other statements is tried
  simp only [keywords, List.mem_cons, List.not_mem_nil, or_false, not_or] at hkeyword
  rw [htext]
  refine builds_statement hname rfl hcount ?_
  rw [if_neg hkeyword.1, if_neg hkeyword.2.1, if_neg hkeyword.2.2]
  refine hbuilds.within.followedBy ?_
  rintro ins' j' ⟨halike, hmirrors'⟩
  refine Builds.look fun d _ _ => ?_
  refine (builds_note _).andThen ?_
  rintro _ _ rfl
  exact .pure ⟨⟨ins', rfl, halike⟩, hmirrors'⟩ _

theorem reads_atEnd (hrest : Token.visible rest = []) : Scan.atEnd.Reads rest True true rest := by
  have hnone : Token.lead? (Token.visible rest) = none := by
    rw [hrest]
    rfl
  refine (Scan.reads_peek? rest).andThen ?_
  rw [hnone]
  exact .pure true rest

/-- Nothing but blanks and comments stand behind the `END`. -/
theorem builds_finish (hrest : Token.visible rest = []) :
    finish.Builds rest i True rest fun ins j =>
      (∃ position, ins = { opcode := .halt, position }) ∧ j = i := by
  refine Builds.look fun d _ _ => ?_
  refine Builds.read (reads_atEnd hrest) ?_
  exact .pure ⟨⟨_, rfl⟩, rfl⟩ _

theorem builds_statement_finish (hcount : count < maxInstructions)
    (hrest : Token.visible rest = []) (hend : Token.endsName rest = true) :
    (statement count).Builds ("END".toList ++ rest) i True rest fun added j =>
      (∃ position, added = .finish { opcode := .halt, position }) ∧ j = i := by
  refine builds_statement (by decide) hend hcount ?_
  rw [if_neg (by decide), if_neg (by decide), if_pos rfl]
  refine (builds_finish hrest).andThen ?_
  rintro _ _ ⟨⟨position, rfl⟩, rfl⟩
  exact .pure ⟨⟨position, rfl⟩, rfl⟩ _

/-! ## Programs -/

/-- The text of a program behind its definitions. -/
def bodyText (p : Program) (body : List Instruction) : List Char :=
  body.flatMap (fun ins => (p.instructionText ins ++ "\n").toList) ++ "END\n".toList

theorem bodyText_cons (p : Program) (ins : Instruction) (body : List Instruction) :
    bodyText p (ins :: body) = (p.instructionText ins).toList ++ '\n' :: bodyText p body := by
  simp [bodyText]

/-- A definition enters no literal, and all names have been entered already. -/
theorem mirrors_of_defines {t : ParameterTable} (h : i.Defines j) (hmirrors : i.Mirrors t i') :
    j.Mirrors t i' := by
  have hbefore := h.inStep hmirrors.before
  cases h with
  | @named name kind v =>
    have hliterals : (i.parameters.addNamed name kind v).2.literals = i.parameters.literals := by
      simp [ParameterTable.literals, ParameterTable.addNamed]
    refine { hmirrors with parameters := ?_, before := hbefore }
    rw [hmirrors.parameters, hliterals]

/-- What the instructions of a program are read as. -/
def BodyRead (t : ParameterTable) (body instructions : List Instruction) : Prop :=
  ∃ body' position, instructions = body' ++ [{ opcode := .halt, position }] ∧
    List.Forall₂ (Instruction.Alike t t.namedFirst) body body'

theorem builds_body {fuel : Nat} {body : List Instruction} (hregular : p.parameters.IsRegular)
    (h : Assembles i body j) (hgrows : j.parameters.GrowsInto p.parameters)
    (hmirrors : i.Mirrors p.parameters i') (hfuel : body.length < fuel)
    (hcount : count + body.length < maxInstructions) :
    (statements fuel count).Builds (bodyText p body) i'
      (∀ ins ∈ body, ∀ s ∈ ins.sources, s.register.IsPrintable p.parameters) ['\n']
      fun instructions j' => BodyRead p.parameters body instructions ∧
        j.Mirrors p.parameters j' := by
  induction h generalizing i' fuel count with
  | nil i =>
    obtain ⟨fuel, rfl⟩ : ∃ n, fuel = n + 1 := Nat.exists_eq_succ_of_ne_zero (Nat.ne_of_gt hfuel)
    refine .congr_possible (iff_true_intro fun ins hins => nomatch hins) ?_
    rw [statements]
    refine (builds_statement_finish hcount rfl rfl).andThen ?_
    rintro _ _ ⟨⟨position, rfl⟩, rfl⟩
    exact .pure ⟨⟨[], position, rfl, .nil⟩, hmirrors⟩ _
  | define entry _ ih => exact ih hgrows (mirrors_of_defines entry hmirrors) hfuel hcount
  | @instruction i m j pattern ins body hlisted hfits hentry hrest ih =>
    rw [List.length_cons] at hfuel hcount
    obtain ⟨fuel, rfl⟩ : ∃ n, fuel = n + 1 := ⟨fuel - 1, by omega⟩
    have hmiddle := hgrows.of_extends hrest.grows
    rw [bodyText_cons, statements]
    refine .congr_possible List.forall_mem_cons ?_
    refine (builds_statement_instruction hlisted hfits hentry hregular hmiddle hmirrors
      (by omega)).bind ?_
    rintro _ m' ⟨⟨ins', rfl, halike⟩, hmirrors'⟩
    refine Builds.congr_text (Token.visible_blank _ rfl) ?_
    refine (ih hgrows hmirrors' (by omega) (by omega)).followedBy ?_
    rintro _ j' ⟨⟨body', position, rfl, halikes⟩, hmirrors''⟩
    exact .pure ⟨⟨ins' :: body', position, rfl, .cons halike halikes⟩, hmirrors''⟩ _

/-- The definitions of the named entries of a list. -/
def definitionsText (entries : List Parameter) : List Char :=
  (String.join (entries.filterMap Parameter.statement?)).toList

/-- An entry of a regular table is new where only the named entries before it are there. -/
theorem lookup?_of_named {t : ParameterTable} (hregular : t.IsRegular) {done more : List Parameter}
    {entry : Parameter} (hnamed : t.named = done ++ entry :: more) {name : String}
    (hname : entry.name = some name) : (ParameterTable.ofEntries done).lookup? name = none := by
  have hdistinct := hregular.distinct.filter (·.name.isSome)
  rw [show t.entries.filter (·.name.isSome) = _ from hnamed, List.pairwise_append] at hdistinct
  refine (ParameterTable.lookup?_eq_none (ParameterTable.inStep_ofEntries done)).mpr
    fun earlier hearlier hsame => ?_
  exact hdistinct.2.2 earlier hearlier entry List.mem_cons_self name hsame hname

/-- Definitions that are left to read are read, and then the instructions. -/
theorem builds_statements {fuel : Nat} {body : List Instruction} {done entries : List Parameter}
    (hregular : p.parameters.IsRegular) (hnamed : p.parameters.named = done ++ entries)
    (h : Assembles {} body j) (hgrows : j.parameters.GrowsInto p.parameters)
    (hfuel : entries.length + body.length < fuel) (hcount : body.length < maxInstructions) :
    (statements fuel 0).Builds (definitionsText entries ++ bodyText p body)
      { parameters := .ofEntries done }
      ((∀ entry ∈ entries, ∀ c, (entry.value.get c).isFinite = true) ∧
        ∀ ins ∈ body, ∀ s ∈ ins.sources, s.register.IsPrintable p.parameters) ['\n']
      fun instructions j' => BodyRead p.parameters body instructions ∧
        j.Mirrors p.parameters j' := by
  induction entries generalizing done fuel with
  | nil =>
    rw [List.length_nil, Nat.zero_add] at hfuel
    rw [← Nat.zero_add body.length] at hcount
    -- all named entries are there now, and no literal yet
    have hmirrors : Inventory.Mirrors p.parameters {} { parameters := .ofEntries done } :=
      ⟨rfl, rfl, rfl, by simp [hnamed, ParameterTable.literals, ParameterTable.ofEntries],
        ParameterTable.inStep_empty, ParameterTable.inStep_ofEntries done⟩
    refine .congr_possible ?_ (builds_body hregular h hgrows hmirrors hfuel hcount)
    exact and_iff_right fun entry hentry => absurd hentry List.not_mem_nil
  | cons entry entries ih =>
    rw [List.length_cons] at hfuel
    obtain ⟨fuel, rfl⟩ : ∃ n, fuel = n + 1 := ⟨fuel - 1, by omega⟩
    have hmem : entry ∈ p.parameters.named := by
      rw [hnamed]
      exact List.mem_append_right _ List.mem_cons_self
    obtain ⟨hentry, hsome⟩ := List.mem_filter.mp hmem
    obtain ⟨name, hname⟩ := Option.isSome_iff_exists.mp hsome
    -- names are given once, so the definition is not rejected
    have hnew := lookup?_of_named hregular hnamed hname
    obtain ⟨text, htext, hbuilds⟩ := builds_statement_definition
      (i := { parameters := .ofEntries done })
      (definitionsText entries ++ bodyText p body) (hregular.entry entry hentry) hname hnew
      (Nat.zero_lt_of_lt hcount)
    have hsplit : definitionsText (entry :: entries) ++ bodyText p body =
        text.toList ++ (definitionsText entries ++ bodyText p body) := by
      simp [definitionsText, htext]
    rw [hsplit, statements, List.forall_mem_cons, and_assoc]
    refine hbuilds.bind ?_
    rintro _ _ ⟨rfl, rfl⟩
    refine Builds.congr_text (Token.visible_blank _ rfl) ?_
    have hadded : ((ParameterTable.ofEntries done).addNamed name entry.kind entry.value).2 =
        .ofEntries (done ++ [entry]) := by
      rw [ParameterTable.addNamed_ofEntries, ← hname]
    rw [hadded]
    refine ih ?_ (by omega)
    rw [hnamed, List.append_assoc]
    rfl

end Compile

end FragmentAssembly
