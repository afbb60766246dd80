import FragmentAssembly.Proofs.Assembly.Soundness
import FragmentAssembly.Proofs.ParameterTable
import FragmentAssembly.Proofs.Program.Update

/-!
# Well-formed programs

The instructions of a well-formed program end with the only `END`, they have the operands that
their opcodes call for, and their operands name registers and entries that exist.  Compiled
programs are well formed, and parameter updates keep them so.
-/

namespace FragmentAssembly

/-! ## Operands in range -/

/-- The register is in its file, or the entry in the table. -/
def Readable.InRange (t : ParameterTable) : Readable → Prop
  | .temporary i => i.val < temporaryCount
  | .input i => i.val < inputCount
  | .localParameter i => i.val < localParameterCount
  | .parameter i => i < t.size

def Writable.InRange : Writable → Prop
  | .temporary i => i.val < temporaryCount
  | .output i => i.val < outputCount
  | .conditionOnly r => r = .rc ∨ r = .hc

theorem Writable.inRange (r : Writable) : r.InRange := by
  cases r with
  | temporary i => exact i.isLt
  | output i => exact i.isLt
  | conditionOnly r =>
    cases r
    · exact .inl rfl
    · exact .inr rfl

/-- The operands of an instruction are those that a pattern calls for, and they exist. -/
structure Instruction.WellFormed (ins : Instruction) (t : ParameterTable) : Prop where
  fits : ∃ p ∈ Pattern.table, ins.Fits p
  register : ∀ s ∈ ins.sources, s.register.InRange t
  swizzle : ∀ s ∈ ins.sources, ∀ c, (s.swizzle.get c).toNat < 4
  destination : ∀ d, ins.destination = some d → d.register.InRange ∧ d.mask.any id = true
  unit : ∀ image, ins.texture = some image → image.unit.val < textureUnitCount

structure Program.WellFormed (p : Program) : Prop where
  length_pos : 1 ≤ p.instructions.length
  length_le : p.instructions.length ≤ maxInstructions
  ended : ∃ position, p.instructions = p.body ++ [{ opcode := .halt, position }]
  unfinished : ∀ ins ∈ p.body, ins.opcode ≠ .halt
  instruction : ∀ ins ∈ p.body, ins.WellFormed p.parameters

theorem Component.toNat_lt (c : Component) : c.toNat < 4 := by
  cases c <;> decide

/-- No mnemonic of the table stands for the end of a program. -/
theorem Pattern.opcode_ne_halt : ∀ p ∈ Pattern.table, p.opcode ≠ .halt := by
  decide

/-- The body is what stands before the `END`. -/
theorem Program.body_eq {p : Program} {body : List Instruction} {position : Nat}
    (h : p.instructions = body ++ [{ opcode := .halt, position }]) : p.body = body := by
  simp only [Program.body, h, List.getLast?_concat, if_true, List.dropLast_concat]

theorem Readable.InRange.extends {s t : ParameterTable} {r : Readable} (h : r.InRange s)
    (hmore : t.Extends s) : r.InRange t := by
  cases r with
  | temporary i => exact h
  | input i => exact h
  | localParameter i => exact h
  | parameter i => exact Nat.lt_of_lt_of_le h hmore.length_le

/-! ## Inventories grow -/

namespace Inventory

variable {i j k : Inventory}

theorem Reads.grows {r : Readable} (h : i.Reads r j) : j.parameters.Extends i.parameters := by
  cases h with
  | temporary => exact .refl _
  | input => exact .refl _
  | localParameter => exact .refl _
  | named => exact .refl _
  | literal v => exact ParameterTable.extends_addLiteral _ v

theorem Reads.inStep {r : Readable} (h : i.Reads r j) (hi : i.parameters.InStep) :
    j.parameters.InStep := by
  cases h with
  | temporary => exact hi
  | input => exact hi
  | localParameter => exact hi
  | named => exact hi
  | literal v => exact hi.addLiteral v

/-- What has been entered exists. -/
theorem Reads.inRange {r : Readable} (h : i.Reads r j) (hi : i.parameters.InStep) :
    r.InRange j.parameters := by
  cases h with
  | temporary t => exact t.isLt
  | input n => exact n.isLt
  | localParameter n => exact n.isLt
  | named hname hfound =>
    obtain ⟨entry, hentry, -⟩ := ParameterTable.get?_of_lookup? hi hfound
    exact (List.getElem?_eq_some_iff.mp hentry).1
  | literal v =>
    obtain ⟨entry, hentry, -⟩ := ParameterTable.get?_addLiteral i.parameters v
    exact (List.getElem?_eq_some_iff.mp hentry).1

theorem Writes.parameters {r : Writable} (h : i.Writes r j) : j.parameters = i.parameters := by
  cases h <;> rfl

theorem Samples.parameters {image : TextureImage} (h : i.Samples image j) :
    j.parameters = i.parameters := by
  cases h <;> rfl

theorem Defines.grows (h : i.Defines j) : j.parameters.Extends i.parameters := by
  cases h with
  | named v => exact ParameterTable.extends_addNamed _ _ _ v

theorem Defines.inStep (h : i.Defines j) (hi : i.parameters.InStep) : j.parameters.InStep := by
  cases h with
  | named v => exact hi.addNamed _ _ v

theorem grows_of_chain {sources : List Source} (h : Chain ReadsSource i sources j) :
    j.parameters.Extends i.parameters :=
  h.preserves (P := (·.parameters.Extends i.parameters)) (fun hread hi => hi.trans hread.2.grows)
    (.refl _)

/-- Every source of a chain exists in the end. -/
theorem inRange_of_chain {sources : List Source} (h : Chain ReadsSource i sources j)
    (hi : i.parameters.InStep) : ∀ s ∈ sources, s.register.InRange j.parameters := by
  induction h with
  | nil i => exact fun s hs => nomatch hs
  | cons head tail ih =>
    intro s hs
    rcases List.mem_cons.mp hs with rfl | hs
    · exact (head.2.inRange hi).extends (grows_of_chain tail)
    · exact ih (head.2.inStep hi) s hs

theorem Enters.grows {ins : Instruction} (h : i.Enters ins j) :
    j.parameters.Extends i.parameters := by
  obtain ⟨written, read, sampled⟩ := h
  rw [sampled.keeps (f := Inventory.parameters) Samples.parameters,
    ← written.keeps (f := Inventory.parameters) fun hwrites => hwrites.2.parameters]
  exact grows_of_chain read

theorem Enters.inStep {ins : Instruction} (h : i.Enters ins j) (hi : i.parameters.InStep) :
    j.parameters.InStep := by
  obtain ⟨written, read, sampled⟩ := h
  rw [sampled.keeps (f := Inventory.parameters) Samples.parameters]
  apply read.preserves (P := (·.parameters.InStep)) fun hread => hread.2.inStep
  rw [written.keeps (f := Inventory.parameters) fun hwrites => hwrites.2.parameters]
  exact hi

/-- An instruction that was entered has operands that exist. -/
theorem Enters.wellFormed {ins : Instruction} {p : Pattern} (h : i.Enters ins j)
    (hi : i.parameters.InStep) (hlisted : p ∈ Pattern.table) (hfits : ins.Fits p) :
    ins.WellFormed j.parameters := by
  obtain ⟨written, read, sampled⟩ := h
  have hstep := written.keeps (f := Inventory.parameters) fun hwrites => hwrites.2.parameters
  rw [sampled.keeps (f := Inventory.parameters) Samples.parameters]
  -- indices other than those of entries are in range by their types
  refine ⟨⟨p, hlisted, hfits⟩, inRange_of_chain read (by rwa [hstep]),
    fun s _ c => (s.swizzle.get c).toNat_lt, fun d hd => ?_, fun image _ => image.unit.isLt⟩
  rw [hd] at written
  cases written with
  | cons head _ => exact ⟨d.register.inRange, head.1⟩

end Inventory

theorem Instruction.WellFormed.extends {ins : Instruction} {s t : ParameterTable}
    (h : ins.WellFormed s) (hmore : t.Extends s) : ins.WellFormed t :=
  { h with register := fun r hr => (h.register r hr).extends hmore }

theorem Assembles.grows {i j : Inventory} {body : List Instruction} (h : Assembles i body j) :
    j.parameters.Extends i.parameters :=
  h.preserves (P := (·.parameters.Extends i.parameters)) (fun entry hi => hi.trans entry.grows)
    (fun entry hi => hi.trans entry.grows) (.refl _)

theorem Assembles.wellFormed {i j : Inventory} {body : List Instruction} (h : Assembles i body j)
    (hi : i.parameters.InStep) :
    ∀ ins ∈ body, ins.opcode ≠ .halt ∧ ins.WellFormed j.parameters := by
  induction h with
  | nil i => exact fun ins hins => nomatch hins
  | define entry _ ih => exact ih (entry.inStep hi)
  | instruction listed fits entry rest ih =>
    intro ins hins
    rcases List.mem_cons.mp hins with rfl | hins
    · -- the operands still exist when later statements have added to the table
      refine ⟨?_, (entry.wellFormed hi listed fits).extends rest.grows⟩
      rw [fits.opcode]
      exact Pattern.opcode_ne_halt _ listed
    · exact ih (entry.inStep hi) ins hins

/-! ## Compiled programs -/

theorem wellFormed_of_compile {source : String} {p : Program} (h : compile source = .ok p) :
    p.WellFormed := by
  obtain ⟨body, position, hbody, hlength, hassembles, -⟩ := assembles_of_compile h
  have hwell := hassembles.wellFormed ParameterTable.inStep_empty
  obtain rfl := Program.body_eq hbody
  refine ⟨?_, hlength, ⟨position, hbody⟩, fun ins hins => (hwell ins hins).1,
    fun ins hins => (hwell ins hins).2⟩
  rw [hbody, List.length_append]
  exact Nat.le_add_left _ _

theorem Program.Retuned.body {p q : Program} (h : p.Retuned q) : q.body = p.body := by
  simp only [Program.body, h.instructions]

theorem Program.WellFormed.retuned {p q : Program} (h : p.WellFormed) (hpq : p.Retuned q) :
    q.WellFormed := by
  refine ⟨?_, ?_, ?_, ?_, fun ins hins => ?_⟩
  · rw [hpq.instructions]
    exact h.length_pos
  · rw [hpq.instructions]
    exact h.length_le
  · rw [hpq.instructions, hpq.body]
    exact h.ended
  · rw [hpq.body]
    exact h.unfinished
  · rw [hpq.body] at hins
    have hins := h.instruction ins hins
    refine { hins with register := fun s hs => ?_ }
    have hrange := hins.register s hs
    revert hrange
    cases s.register with
    | temporary i => exact id
    | input i => exact id
    | localParameter i => exact id
    | parameter i =>
      -- an update adds no entry and removes none
      intro hrange
      exact Nat.lt_of_lt_of_eq hrange hpq.parameters.size.symm

end FragmentAssembly
