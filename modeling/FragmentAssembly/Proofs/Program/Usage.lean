import FragmentAssembly.Proofs.Program.WellFormed

/-!
# Use of registers

A program comes with a summary of the inputs, outputs and texture units that it uses.  The summary
of a compiled program is exact: what the operands of its instructions name is marked, and nothing
else is.  Nor is there a literal in its table that no operand names.
-/

namespace FragmentAssembly

/-! ## Register files -/

theorem get_ofFn {α : Type} {n : Nat} (f : Fin n → α) (i : Fin n) :
    (Vector.ofFn f).get i = f i := by
  show (Vector.ofFn f)[i.val] = f i
  rw [Vector.getElem_ofFn]

theorem get_set {α : Type} {n : Nat} (v : Vector α n) (i l : Fin n) (a : α) :
    (v.set i.val a i.isLt).get l = if i = l then a else v.get l := by
  show (v.set i.val a i.isLt)[l.val] = if i = l then a else v[l.val]
  rw [Vector.getElem_set]
  simp only [Fin.ext_iff]

/-! ## Operands and marks -/

/-- The register is input `n`. -/
def Readable.IsInput (r : Readable) (n : Nat) : Prop :=
  ∃ i : InputIndex, r = .input i ∧ i.val = n

/-- The register is output `n`. -/
def Writable.IsOutput (r : Writable) (n : Nat) : Prop :=
  ∃ i : OutputIndex, r = .output i ∧ i.val = n

namespace Instruction

def ReadsInput (ins : Instruction) (n : Nat) : Prop :=
  ∃ s ∈ ins.sources, s.register.IsInput n

def WritesOutput (ins : Instruction) (n : Nat) : Prop :=
  ∃ d ∈ ins.destination.toList, d.register.IsOutput n

def Samples (ins : Instruction) (image : TextureImage) : Prop :=
  ins.texture = some image

/-- Some operand is the entry `index` of the parameter table. -/
def Names (ins : Instruction) (index : Nat) : Prop :=
  ∃ s ∈ ins.sources, s.register = .parameter index

end Instruction

/-- Setting a bit sets no other one. -/
theorem testBit_mark (bits m n : Nat) :
    (bits ||| (1 <<< m)).testBit n = true ↔ bits.testBit n = true ∨ m = n := by
  rw [Nat.testBit_or, Bool.or_eq_true, Nat.one_shiftLeft, Nat.testBit_two_pow, decide_eq_true_eq]

namespace Inventory

variable {i j : Inventory} {n : Nat}

/-! ## Inputs -/

theorem Reads.inputsRead {r : Readable} (h : i.Reads r j) :
    j.inputsRead.testBit n = true ↔ i.inputsRead.testBit n = true ∨ r.IsInput n := by
  cases h with
  | input m => simp only [testBit_mark, Readable.IsInput, Readable.input.injEq, exists_eq_left']
  | temporary => simp only [Readable.IsInput, reduceCtorEq, false_and, exists_false, or_false]
  | localParameter => simp only [Readable.IsInput, reduceCtorEq, false_and, exists_false, or_false]
  | named => simp only [Readable.IsInput, reduceCtorEq, false_and, exists_false, or_false]
  | literal => simp only [Readable.IsInput, reduceCtorEq, false_and, exists_false, or_false]

theorem Writes.inputsRead {r : Writable} (h : i.Writes r j) : j.inputsRead = i.inputsRead := by
  cases h <;> rfl

theorem Samples.inputsRead {image : TextureImage} (h : i.Samples image j) :
    j.inputsRead = i.inputsRead := by
  cases h <;> rfl

theorem Enters.inputsRead {ins : Instruction} (h : i.Enters ins j) :
    j.inputsRead.testBit n = true ↔ i.inputsRead.testBit n = true ∨ ins.ReadsInput n := by
  obtain ⟨written, read, sampled⟩ := h
  rw [sampled.keeps (f := Inventory.inputsRead) Samples.inputsRead,
    ← written.keeps (f := Inventory.inputsRead) fun hwrites => hwrites.2.inputsRead]
  exact read.iff fun hreads => hreads.2.inputsRead

/-! ## Outputs -/

theorem Writes.outputsWritten {r : Writable} (h : i.Writes r j) :
    j.outputsWritten.testBit n = true ↔ i.outputsWritten.testBit n = true ∨ r.IsOutput n := by
  cases h with
  | output => simp only [testBit_mark, Writable.IsOutput, Writable.output.injEq, exists_eq_left']
  | temporary => simp only [Writable.IsOutput, reduceCtorEq, false_and, exists_false, or_false]
  | conditionOnly => simp only [Writable.IsOutput, reduceCtorEq, false_and, exists_false, or_false]

theorem Reads.outputsWritten {r : Readable} (h : i.Reads r j) :
    j.outputsWritten = i.outputsWritten := by
  cases h <;> rfl

theorem Samples.outputsWritten {image : TextureImage} (h : i.Samples image j) :
    j.outputsWritten = i.outputsWritten := by
  cases h <;> rfl

theorem Enters.outputsWritten {ins : Instruction} (h : i.Enters ins j) :
    j.outputsWritten.testBit n = true ↔
      i.outputsWritten.testBit n = true ∨ ins.WritesOutput n := by
  obtain ⟨written, read, sampled⟩ := h
  rw [sampled.keeps (f := Inventory.outputsWritten) Samples.outputsWritten,
    read.keeps (f := Inventory.outputsWritten) fun hreads => hreads.2.outputsWritten]
  exact written.iff fun hwrites => hwrites.2.outputsWritten

/-- One of the two colors at most. -/
def OneColor (i : Inventory) : Prop :=
  Compile.writesBothColors i.outputsWritten = false

theorem Writes.oneColor {r : Writable} (h : i.Writes r j) (hi : i.OneColor) : j.OneColor := by
  cases h with
  | output hcolors => exact hcolors
  | temporary => exact hi
  | conditionOnly => exact hi

theorem Enters.oneColor {ins : Instruction} (h : i.Enters ins j) (hi : i.OneColor) :
    j.OneColor := by
  obtain ⟨written, read, sampled⟩ := h
  unfold OneColor
  rw [sampled.keeps (f := Inventory.outputsWritten) Samples.outputsWritten,
    read.keeps (f := Inventory.outputsWritten) fun hreads => hreads.2.outputsWritten]
  exact written.preserves (P := OneColor) (fun hwrites => hwrites.2.oneColor) hi

/-! ## Texture units -/

theorem Samples.textures {image : TextureImage} (h : i.Samples image j) (unit : TextureUnit)
    (target : TextureTarget) :
    j.textures.get unit = some target ↔
      i.textures.get unit = some target ∨ image = ⟨unit, target⟩ := by
  obtain ⟨unit', target'⟩ := image
  simp only [TextureImage.mk.injEq]
  cases h with
  | fresh hunused =>
    dsimp only at hunused
    rw [get_set]
    by_cases hunit : unit' = unit
    · -- the unit had no target before
      subst hunit
      simp only [if_true, hunused, Option.some.injEq, reduceCtorEq, true_and, false_or]
    · simp only [hunit, if_false, false_and, or_false]
  | again hused =>
    dsimp only at hused
    refine ⟨.inl, fun h => h.elim id ?_⟩
    rintro ⟨rfl, rfl⟩
    exact hused

theorem Reads.textures {r : Readable} (h : i.Reads r j) : j.textures = i.textures := by
  cases h <;> rfl

theorem Writes.textures {r : Writable} (h : i.Writes r j) : j.textures = i.textures := by
  cases h <;> rfl

theorem Enters.textures {ins : Instruction} (h : i.Enters ins j) (unit : TextureUnit)
    (target : TextureTarget) :
    j.textures.get unit = some target ↔
      i.textures.get unit = some target ∨ ins.Samples ⟨unit, target⟩ := by
  obtain ⟨written, read, sampled⟩ := h
  rw [← written.keeps (f := Inventory.textures) fun hwrites => hwrites.2.textures,
    ← read.keeps (f := Inventory.textures) fun hreads => hreads.2.textures]
  have hsampled := sampled.iff (P := fun i => i.textures.get unit = some target)
    fun hsamples => hsamples.textures unit target
  simp only [Option.mem_toList, exists_eq_right] at hsampled
  exact hsampled

/-! ## Literals -/

variable {index : Nat} {entry : Parameter}

/-- Only the operand that is entered can be a literal that was not there. -/
theorem Reads.used {r : Readable} (h : i.Reads r j)
    (hentry : j.parameters.get? index = some entry) :
    i.parameters.get? index = some entry ∨ r = .parameter index := by
  cases h with
  | temporary => exact .inl hentry
  | input => exact .inl hentry
  | localParameter => exact .inl hentry
  | named => exact .inl hentry
  | literal v =>
    by_cases hindex : index < i.parameters.size
    · have hold : i.parameters.get? index = some i.parameters.entries[index] :=
        List.getElem?_eq_getElem hindex
      left
      rw [← hentry, (ParameterTable.extends_addLiteral i.parameters v).get? hold, hold]
    · right
      -- an index that is new belongs to the literal that was added
      unfold ParameterTable.addLiteral at hentry ⊢
      cases hfound : i.parameters.entries.findIdx? fun entry =>
          entry.kind = .literal && entry.value = v with
      | some found =>
        simp only [hfound] at hentry
        exact absurd (List.getElem?_eq_some_iff.mp hentry).1 hindex
      | none =>
        simp only [hfound] at hentry
        have hlast := (List.getElem?_eq_some_iff.mp hentry).1
        rw [List.length_append, List.length_singleton] at hlast
        have hsize : index = i.parameters.size := by
          unfold ParameterTable.size at *
          omega
        rw [hsize]

theorem Enters.used {ins : Instruction} (h : i.Enters ins j)
    (hentry : j.parameters.get? index = some entry) :
    i.parameters.get? index = some entry ∨ ins.Names index := by
  obtain ⟨written, read, sampled⟩ := h
  rw [sampled.keeps (f := Inventory.parameters) Samples.parameters] at hentry
  rw [← written.keeps (f := Inventory.parameters) fun hwrites => hwrites.2.parameters]
  exact read.origin (P := fun i => i.parameters.get? index = some entry)
    (fun hreads => hreads.2.used) hentry

/-- A definition adds an entry that has a name and is no literal. -/
theorem Defines.old (h : i.Defines j) (hentry : j.parameters.get? index = some entry)
    (hliteral : entry.name = none ∨ entry.kind = .literal) :
    i.parameters.get? index = some entry := by
  cases h with
  | @named name kind v _ _ _ hkind =>
    by_cases hindex : index < i.parameters.size
    · have hold : i.parameters.get? index = some i.parameters.entries[index] :=
        List.getElem?_eq_getElem hindex
      rw [← hentry, (ParameterTable.extends_addNamed i.parameters name kind v).get? hold, hold]
    · dsimp only [ParameterTable.get?, ParameterTable.addNamed] at hentry
      rw [List.getElem?_append_right (Nat.le_of_not_lt hindex), List.getElem?_singleton] at hentry
      split at hentry
      · cases hentry
        rcases hliteral with hname | hliteral
        · cases hname
        · exact absurd hliteral hkind
      · cases hentry

/-! ## Definitions -/

theorem Defines.inputsRead (h : i.Defines j) : j.inputsRead = i.inputsRead := by
  cases h
  rfl

theorem Defines.outputsWritten (h : i.Defines j) : j.outputsWritten = i.outputsWritten := by
  cases h
  rfl

theorem Defines.textures (h : i.Defines j) : j.textures = i.textures := by
  cases h
  rfl

end Inventory

/-! ## Assemblies -/

section Assemblies

variable {i j : Inventory} {body : List Instruction}

theorem Assembles.inputsRead (h : Assembles i body j) (n : Nat) :
    j.inputsRead.testBit n = true ↔
      i.inputsRead.testBit n = true ∨ ∃ ins ∈ body, ins.ReadsInput n :=
  h.iff (fun entry => by rw [entry.inputsRead]) fun entry => entry.inputsRead

theorem Assembles.outputsWritten (h : Assembles i body j) (n : Nat) :
    j.outputsWritten.testBit n = true ↔
      i.outputsWritten.testBit n = true ∨ ∃ ins ∈ body, ins.WritesOutput n :=
  h.iff (fun entry => by rw [entry.outputsWritten]) fun entry => entry.outputsWritten

theorem Assembles.oneColor (h : Assembles i body j) (hi : i.OneColor) : j.OneColor :=
  h.preserves (P := Inventory.OneColor)
    (fun entry hi => by rw [Inventory.OneColor, entry.outputsWritten]; exact hi)
    (fun entry hi => entry.oneColor hi) hi

theorem Assembles.textures (h : Assembles i body j) (unit : TextureUnit)
    (target : TextureTarget) :
    j.textures.get unit = some target ↔
      i.textures.get unit = some target ∨ ∃ ins ∈ body, ins.Samples ⟨unit, target⟩ :=
  h.iff (P := fun i => i.textures.get unit = some target) (fun entry => by rw [entry.textures])
    fun entry => entry.textures unit target

/-- Every literal is an operand of some instruction. -/
theorem Assembles.used (h : Assembles i body j) {index : Nat} {entry : Parameter}
    (hentry : j.parameters.get? index = some entry)
    (hliteral : entry.name = none ∨ entry.kind = .literal) :
    i.parameters.get? index = some entry ∨ ∃ ins ∈ body, ins.Names index :=
  h.origin (P := fun i => i.parameters.get? index = some entry)
    (fun entry hj => entry.old hj hliteral) (fun entry hj => entry.used hj) hentry

end Assemblies

/-! ## Compiled programs -/

namespace Program

/-- The summary of a program says what its instructions use, and no more. -/
structure IsSummarized (p : Program) : Prop where
  inputsRead : ∀ n, p.inputsRead.testBit n = true ↔ ∃ ins ∈ p.instructions, ins.ReadsInput n
  outputsWritten : ∀ n,
    p.outputsWritten.testBit n = true ↔ ∃ ins ∈ p.instructions, ins.WritesOutput n
  textures : ∀ unit target,
    p.textures.get unit = some target ↔ ∃ ins ∈ p.instructions, ins.Samples ⟨unit, target⟩

/-- The inputs that the operands of a program read are marked. -/
def MarksInputs (p : Program) : Prop :=
  ∀ ins ∈ p.instructions, ∀ s ∈ ins.sources, ∀ i, s.register = .input i → p.readsInput i = true

theorem IsSummarized.marksInputs {p : Program} (h : p.IsSummarized) : p.MarksInputs :=
  fun ins hins s hs i hi => (h.inputsRead i.val).mpr ⟨ins, hins, s, hs, i, hi, rfl⟩

/-- The values of parameters are not part of a summary. -/
theorem IsSummarized.retuned {p q : Program} (h : p.IsSummarized) (hpq : p.Retuned q) :
    q.IsSummarized := by
  rw [hpq.same]
  exact ⟨h.inputsRead, h.outputsWritten, h.textures⟩

theorem MarksInputs.retuned {p q : Program} (h : p.MarksInputs) (hpq : p.Retuned q) :
    q.MarksInputs := by
  intro ins hins s hs i hi
  rw [hpq.instructions] at hins
  have hmark := h ins hins s hs i hi
  rw [readsInput, hpq.same]
  exact hmark

end Program

/-- The `END` behind a body has no operands. -/
theorem exists_mem_body_iff {Q : Instruction → Prop} {body : List Instruction} {position : Nat}
    (hend : ¬Q { opcode := .halt, position }) :
    (∃ ins ∈ body ++ [{ opcode := .halt, position }], Q ins) ↔ ∃ ins ∈ body, Q ins := by
  simp only [List.mem_append, List.mem_singleton, or_and_right, exists_or, exists_eq_left, hend,
    or_false]

theorem isSummarized_of_compile {source : String} {p : Program} (h : compile source = .ok p) :
    p.IsSummarized := by
  obtain ⟨body, position, hbody, -, hassembles, -⟩ := assembles_of_compile h
  refine ⟨fun n => ?_, fun n => ?_, fun unit target => ?_⟩
  · have hread : p.inputsRead.testBit n = true ↔ _ := hassembles.inputsRead n
    rw [hbody, exists_mem_body_iff (by simp [Instruction.ReadsInput]), hread]
    simp
  · have hwritten : p.outputsWritten.testBit n = true ↔ _ := hassembles.outputsWritten n
    rw [hbody, exists_mem_body_iff (by simp [Instruction.WritesOutput]), hwritten]
    simp
  · have hsampled : p.textures.get unit = some target ↔ _ := hassembles.textures unit target
    rw [hbody, exists_mem_body_iff (by simp [Instruction.Samples]), hsampled]
    simp [Vector.get]

theorem marksInputs_of_compile {source : String} {p : Program} (h : compile source = .ok p) :
    p.MarksInputs :=
  (isSummarized_of_compile h).marksInputs

/-- The summary of a compiled program is exact.  A bit is set just if some operand is that register,
and a texture unit has a target just if some instruction samples it, in which case all that sample
it use this target.  Some output is written, but not both colors, and every literal is used. -/
theorem usage_of_compile {source : String} {p : Program} (hcompile : compile source = .ok p) :
    (∀ n, p.inputsRead.testBit n = true ↔ ∃ ins ∈ p.instructions, ins.ReadsInput n) ∧
      (∀ n, p.outputsWritten.testBit n = true ↔ ∃ ins ∈ p.instructions, ins.WritesOutput n) ∧
      (∀ unit target, p.textures.get unit = some target ↔
        ∃ ins ∈ p.instructions, ins.texture = some ⟨unit, target⟩) ∧
      (∀ unit target, p.textures.get unit = some target → ∀ ins ∈ p.instructions,
        ∀ image, ins.texture = some image → image.unit = unit → image.target = target) ∧
      p.outputsWritten ≠ 0 ∧
      ¬(p.writesOutput .colr = true ∧ p.writesOutput .colh = true) ∧
      ∀ index entry, p.parameters.get? index = some entry → entry.kind = .literal →
        ∃ ins ∈ p.instructions, ins.Names index := by
  have hsummary := isSummarized_of_compile hcompile
  obtain ⟨body, position, hbody, -, hassembles, hwritten⟩ := assembles_of_compile hcompile
  refine ⟨hsummary.inputsRead, hsummary.outputsWritten, hsummary.textures, ?_, hwritten, ?_, ?_⟩
  · rintro unit target hget ins hins ⟨_, target'⟩ himage rfl
    -- the target that this instruction uses is that of the summary
    have hget' := (hsummary.textures _ target').mpr ⟨ins, hins, himage⟩
    rw [hget, Option.some.injEq] at hget'
    exact hget'.symm
  · have hcolors : Compile.writesBothColors p.outputsWritten = false := hassembles.oneColor rfl
    rw [Compile.writesBothColors, Bool.and_eq_false_iff] at hcolors
    rintro ⟨hcolr, hcolh⟩
    rcases hcolors with hnot | hnot
    · exact Bool.false_ne_true (hnot.symm.trans hcolr)
    · exact Bool.false_ne_true (hnot.symm.trans hcolh)
  · intro index entry hentry hliteral
    rcases hassembles.used hentry (.inr hliteral) with hempty | ⟨ins, hins, hnames⟩
    · cases hempty
    · rw [hbody]
      exact ⟨ins, List.mem_append_left _ hins, hnames⟩

theorem usage_of_compile_halved :
    ∃ p, compile "!!FP1.0 TEX R0, f[TEX0], TEX0, 2D; MUL o[COLR], R0, 0.5; END" = .ok p ∧
      (∃ ins ∈ p.instructions, ins.ReadsInput 4) ∧ (∃ ins ∈ p.instructions, ins.WritesOutput 0) ∧
      (∃ ins ∈ p.instructions, ins.texture = some ⟨0, .twoD⟩) ∧
      ∃ ins ∈ p.instructions, ins.Names 0 := by
  obtain ⟨p, hp, hread, hwritten, hsampled, hliteral⟩ : ∃ p,
      compile "!!FP1.0 TEX R0, f[TEX0], TEX0, 2D; MUL o[COLR], R0, 0.5; END" = .ok p ∧
        p.inputsRead.testBit 4 = true ∧ p.outputsWritten.testBit 0 = true ∧
        p.textures.get 0 = some .twoD ∧
        p.parameters.get? 0 = some ⟨none, .literal, Quad.replicate ⟨0x3f000000⟩⟩ :=
    exists_of_decide (by decide +kernel)
  obtain ⟨hinputs, houtputs, htextures, -, -, -, hliterals⟩ := usage_of_compile hp
  exact ⟨p, hp, (hinputs 4).mp hread, (houtputs 0).mp hwritten, (htextures 0 _).mp hsampled,
    hliterals 0 _ hliteral rfl⟩

end FragmentAssembly
