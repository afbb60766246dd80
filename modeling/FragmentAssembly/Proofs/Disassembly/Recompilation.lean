import FragmentAssembly.Proofs.Disassembly.Alike
import FragmentAssembly.Proofs.Disassembly.Literals
import FragmentAssembly.Proofs.Disassembly.Statement

/-!
# Programs read back

The text of a program is accepted if and only if all values of its parameters are finite, and is
then read as a program that differs in the numbering of its parameters only.
-/

namespace FragmentAssembly

/-! ## Reading the text of a program -/

namespace Compile

variable {p : Program} {j : Inventory}

theorem toList_disassembly (p : Program) : p.disassembly.toList =
    "!!FP1.0".toList ++ '\n' :: (definitionsText p.parameters.named ++ bodyText p p.body) := by
  rw [Program.disassembly, ParameterTable.filterMap_statement?]
  simp [definitionsText, bodyText, List.flatMap_map]

theorem length_le_definitionsText {entries : List Parameter}
    (h : ∀ entry ∈ entries, entry.IsRegular ∧ entry.name.isSome = true) :
    entries.length ≤ (definitionsText entries).length := by
  induction entries with
  | nil => exact Nat.le_refl 0
  | cons entry entries ih =>
    rw [List.forall_mem_cons] at h
    obtain ⟨⟨hregular, hsome⟩, hrest⟩ := h
    obtain ⟨text, htext, hpositive⟩ : ∃ text, entry.statement? = some text ∧
        0 < text.toList.length := by
      obtain ⟨name, kind, v⟩ := entry
      obtain ⟨name, rfl⟩ := Option.isSome_iff_exists.mp hsome
      rcases hregular with ⟨hnone, -⟩ | ⟨_, -, -, -, hkind⟩
      · cases hnone
      · cases kind with
        | literal => exact absurd rfl hkind
        | constant => exact ⟨_, rfl, by simp⟩
        | declared => exact ⟨_, rfl, by simp⟩
    have hlength : (definitionsText (entry :: entries)).length =
        text.toList.length + (definitionsText entries).length := by
      simp [definitionsText, htext]
    have hmore := ih hrest
    rw [List.length_cons, hlength]
    omega

theorem length_le_bodyText (p : Program) (body : List Instruction) :
    body.length ≤ (bodyText p body).length := by
  have hlines : body.length ≤
      (body.flatMap fun ins => (p.instructionText ins ++ "\n").toList).length := by
    apply length_le_length_flatMap
    intro ins _
    simp
  rw [bodyText, List.length_append]
  omega

/-- Behind the header there is enough text for all statements. -/
theorem program_disassembly (p : Program) : ∃ k : Cursor, k.inside = [] ∧
    k.rest = '\n' :: (definitionsText p.parameters.named ++ bodyText p p.body) ∧
      program { cursor := Cursor.ofText p.disassembly } =
        statements (k.rest.length + 1) 0 { cursor := k } := by
  have htext := toList_disassembly p
  have hprefix : "!!FP1.0".toList.isPrefixOf (Cursor.ofText p.disassembly).rest = true := by
    show "!!FP1.0".toList.isPrefixOf p.disassembly.toList = true
    rw [htext, List.isPrefixOf_iff_prefix]
    exact List.prefix_append _ _
  -- the header is the first line up to its break
  have hheader : header (Cursor.ofText p.disassembly) =
      .ok () ((Cursor.ofText p.disassembly).advance 7) := by
    rw [header, if_pos hprefix]
  refine ⟨(Cursor.ofText p.disassembly).advance 7, Cursor.advance_inside 7 rfl, ?_, ?_⟩
  · rw [Cursor.advance_rest]
    show p.disassembly.toList.drop 7 = _
    rw [htext]
    rfl
  · show EStateM.bind (liftM header) _ _ = _
    have hlift : (liftM header : Compile Unit) { cursor := Cursor.ofText p.disassembly } =
        .ok () { cursor := (Cursor.ofText p.disassembly).advance 7 } :=
      lift_eq_ok.mpr ⟨_, hheader, rfl⟩
    unfold EStateM.bind
    rw [hlift]
    rfl

/-- The text of a program is read as definitions and a body if its values can be read. -/
theorem decides_program (hregular : p.parameters.IsRegular) (h : Assembles {} p.body j)
    (hgrows : j.parameters.GrowsInto p.parameters) (hcount : p.body.length < maxInstructions) :
    Decides program { cursor := Cursor.ofText p.disassembly }
      ((∀ entry ∈ p.parameters.named, ∀ c, (entry.value.get c).isFinite = true) ∧
        ∀ ins ∈ p.body, ∀ s ∈ ins.sources, s.register.IsPrintable p.parameters)
      fun instructions d => BodyRead p.parameters p.body instructions ∧
        j.Mirrors p.parameters d.inventory := by
  obtain ⟨k, hinside, hrest, hprogram⟩ := program_disassembly p
  have hnamed : p.parameters.named.length ≤ (definitionsText p.parameters.named).length := by
    refine length_le_definitionsText fun entry hentry => ?_
    obtain ⟨hmem, hsome⟩ := List.mem_filter.mp hentry
    exact ⟨hregular.entry entry hmem, hsome⟩
  have hbody := length_le_bodyText p p.body
  -- each statement is written with one character at least
  have hfuel : p.parameters.named.length + p.body.length < k.rest.length + 1 := by
    rw [hrest, List.length_cons, List.length_append]
    omega
  have hahead : k.ahead =
      Token.visible (definitionsText p.parameters.named ++ bodyText p p.body) := by
    rw [Cursor.ahead_of_inside hinside, hrest, Token.visible_blank _ rfl]
  have hnone : p.parameters.named = [] ++ p.parameters.named := rfl
  have hdecides := builds_statements hregular hnone h hgrows hfuel hcount { cursor := k } hahead rfl
  obtain ⟨hsuccess, hfailure⟩ := hdecides.weaken fun instructions d hd => hd.2
  rw [← hprogram] at hsuccess hfailure
  exact ⟨hsuccess, hfailure⟩

end Compile

/-- A text is compiled if it is read and writes some output. -/
theorem compile_of_decides {source : String} {possible : Prop}
    {post : List Instruction → Draft → Prop}
    (h : Decides Compile.program { cursor := Cursor.ofText source } possible post)
    (houtputs : ∀ instructions d, post instructions d → d.outputsWritten ≠ 0) :
    ((∃ r, compile source = .ok r) ↔ possible) ∧ ∀ r, compile source = .ok r →
      ∃ instructions d, post instructions d ∧ r = d.program source instructions := by
  -- compiling adds only the check of the outputs to what decides
  by_cases hpossible : possible
  · obtain ⟨instructions, d, hprogram, hpost⟩ := h.success hpossible
    have hcompile : compile source = .ok (d.program source instructions) := by
      unfold compile compilation
      rw [hprogram]
      dsimp only
      rw [Draft.success, if_neg (houtputs instructions d hpost)]
    refine ⟨iff_of_true ⟨_, hcompile⟩ hpossible, fun r hr => ?_⟩
    rw [hcompile, Except.ok.injEq] at hr
    exact ⟨instructions, d, hpost, hr.symm⟩
  · obtain ⟨e, d, hprogram⟩ := h.failure hpossible
    have hcompile : compile source = .error e := by
      unfold compile compilation
      rw [hprogram]
      rfl
    refine ⟨iff_of_false ?_ hpossible, fun r hr => ?_⟩
    · rintro ⟨r, hr⟩
      rw [hcompile] at hr
      cases hr
    · rw [hcompile] at hr
      cases hr

/-- What is the same in a program that was read from the text of another one. -/
structure Program.Restores (p r : Program) : Prop where
  instructions : List.Forall₂ (Instruction.Alike p.parameters r.parameters) p.instructions
    r.instructions
  inputsRead : r.inputsRead = p.inputsRead
  outputsWritten : r.outputsWritten = p.outputsWritten
  textures : r.textures = p.textures
  disassembly : r.disassembly = p.disassembly
  parameters : (p.parameters.entries.Pairwise fun a b => a.name = none → b.name = none) →
    r.parameters = p.parameters

/-- A draft with the inventory of a program, and instructions that are alike, restore it. -/
theorem Program.restores_of_mirrors {p : Program} {d : Draft} {instructions : List Instruction}
    {position : Nat} (hstep : p.parameters.InStep)
    (hended : p.instructions = p.body ++ [{ opcode := .halt, position }])
    (hread : Compile.BodyRead p.parameters p.body instructions)
    (hmirrors : p.inventory.Mirrors p.parameters d.inventory) (source : String) :
    p.Restores (d.program source instructions) := by
  obtain ⟨body, position', rfl, halike⟩ := hread
  have hparameters : d.parameters = p.parameters.namedFirst :=
    hmirrors.after.eq_ofEntries.trans (congrArg ParameterTable.ofEntries hmirrors.parameters)
  rw [← hparameters] at halike
  have hbody : (d.program source (body ++ [{ opcode := .halt, position := position' }])).body =
      body := Program.body_eq rfl
  refine ⟨?_, hmirrors.inputsRead, hmirrors.outputsWritten, hmirrors.textures, ?_, ?_⟩
  · rw [hended]
    exact List.rel_append halike (.cons ⟨rfl, .nil, rfl, rfl, rfl, rfl, rfl, rfl⟩ .nil)
  · apply Program.disassembly_eq hparameters
    rw [hbody]
    exact halike
  · intro hfirst
    exact hparameters.trans (ParameterTable.namedFirst_eq hstep hfirst)

/-- Values that were set do not show in what is mirrored. -/
theorem Program.Retuned.mirrors {p q : Program} {j : Inventory} (h : p.Retuned q)
    (hregular : q.parameters.IsRegular) (hmirrors : p.inventory.Mirrors q.parameters j) :
    q.inventory.Mirrors q.parameters j := by
  have hliterals : q.parameters.literals = p.parameters.literals := 
    h.parameters.literals hregular.entry
  have hsame := h.same
  refine ⟨?_, ?_, ?_, ?_, hregular.inStep, hmirrors.after⟩
  · rw [hmirrors.inputsRead, hsame]
    rfl
  · rw [hmirrors.outputsWritten, hsame]
    rfl
  · rw [hmirrors.textures, hsame]
    rfl
  · rw [hmirrors.parameters]
    exact congrArg (q.parameters.named ++ ·) hliterals.symm

/-- The text of a compiled program is read if and only if its values are finite, and what is read
restores the program. -/
theorem decides_disassembly {source : String} {p q : Program} (hcompile : compile source = .ok p)
    (hupdates : p.Updates q) :
    Decides Compile.program { cursor := Cursor.ofText q.disassembly } q.parameters.IsFinite
      fun instructions d => d.outputsWritten ≠ 0 ∧
        ∀ text, q.Restores (d.program text instructions) := by
  obtain ⟨body, position, hbody, hlength, hassembles, houtputs⟩ := assembles_of_compile hcompile
  have htuned := Program.retuned_of_updates hupdates
  -- the table grows from an empty one, and updates keep it regular
  have hempty : ParameterTable.IsRegular {} :=
    ⟨fun entry hentry => (nomatch hentry), .nil, ParameterTable.inStep_empty⟩
  have hregular : q.parameters.IsRegular :=
    (hassembles.isRegular hempty).retuned htuned.parameters
  have hgrows : p.parameters.GrowsInto q.parameters := ⟨_, .refl _, htuned.parameters⟩
  rw [hbody, List.length_append, List.length_singleton] at hlength
  rw [← htuned.instructions] at hbody
  obtain rfl := Program.body_eq hbody
  rw [← isFinite_iff hassembles htuned.parameters]
  apply (Compile.decides_program hregular hassembles hgrows hlength).weaken
  rintro instructions d ⟨hread, hmirrors⟩
  constructor
  · -- the printed program writes the same outputs, so it is not rejected for writing none
    have hsame : d.outputsWritten = p.outputsWritten := hmirrors.outputsWritten
    rwa [hsame]
  · exact fun text =>
      Program.restores_of_mirrors hregular.inStep hbody hread
        (htuned.mirrors hregular hmirrors) text

/-- What is read from the text of a compiled program restores it. -/
theorem restores_of_compile {source : String} {p q r : Program} (hcompile : compile source = .ok p)
    (hupdates : p.Updates q) (hr : compile q.disassembly = .ok r) : q.Restores r := by
  obtain ⟨-, hresult⟩ :=
    compile_of_decides (decides_disassembly hcompile hupdates) fun _ _ h => h.1
  obtain ⟨instructions, d, ⟨-, hrestores⟩, rfl⟩ := hresult r hr
  exact hrestores _

/-- The text of a compiled program, whatever values its parameters have been set to since, is
accepted if and only if these values are finite.  It is the text of a program that is the same up
to the numbers of its parameters. -/
theorem recompile {source : String} {p q : Program} (hcompile : compile source = .ok p)
    (hupdates : p.Updates q) :
    ((∃ r, compile q.disassembly = .ok r) ↔ q.parameters.IsFinite) ∧
      ∀ r, compile q.disassembly = .ok r → q.Restores r := by
  obtain ⟨haccepted, -⟩ :=
    compile_of_decides (decides_disassembly hcompile hupdates) fun _ _ h => h.1
  exact ⟨haccepted, fun r hr => restores_of_compile hcompile hupdates hr⟩

/-- A program with a literal in front of a parameter. -/
def lateText : String :=
  "!!FP1.0 MIN R0, f[COL0], 0.25; DECLARE tint = \x7b1.0, 0.5\x7d; "
    ++ "MULH o[COLR].xyz (GT), -|R0.x|, tint; END"

theorem compile_lateText : ∃ p, compile lateText = .ok p ∧ p.parameters.IsFinite ∧
    p.parameters.lookup? "tint" = some 1 ∧
    (p.parameters.get? 1).any (·.kind = .declared) = true ∧
    ¬(p.parameters.setValue 1 (Quad.replicate (.infinity false))).IsFinite :=
  exists_of_decide (by decide +kernel)

/-- It is read back until its parameter is set to infinity. -/
theorem recompile_late : ∃ p q, compile lateText = .ok p ∧ p.Updates q ∧
    (∃ r, compile p.disassembly = .ok r ∧ p.Restores r) ∧ ¬∃ r, compile q.disassembly = .ok r := by
  obtain ⟨p, hp, hfinite, hfound, hdeclared, hinfinite⟩ := compile_lateText
  have hupdate := Program.Update.setNamed p (Quad.replicate (.infinity false)) hfound hdeclared
  have hupdates : p.Updates _ := Relation.ReflTransGen.single hupdate
  obtain ⟨haccepted, hrestored⟩ := recompile hp Relation.ReflTransGen.refl
  obtain ⟨r, hr⟩ := haccepted.mpr hfinite
  exact ⟨p, _, hp, hupdates, ⟨r, hr, hrestored r hr⟩,
    fun haccepted' => hinfinite ((recompile hp hupdates).1.mp haccepted')⟩

end FragmentAssembly
