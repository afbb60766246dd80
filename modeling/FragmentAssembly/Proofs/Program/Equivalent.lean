import FragmentAssembly.Proofs.Program.Alike

/-!
# Equivalent programs

The instructions of equivalent programs do the same with operands of the same values.  Where the
instructions stand in their texts, how the parameters are called and numbered, and which parameters
there are besides does not matter.
-/

namespace FragmentAssembly

/-- Operands of programs with tables `s` and `t` that read the same: the same register, or entries
with the same value. -/
inductive Readable.Equivalent (s t : ParameterTable) : Readable → Readable → Prop where
  | temporary (i : TemporaryIndex) : Equivalent s t (.temporary i) (.temporary i)
  | input (i : InputIndex) : Equivalent s t (.input i) (.input i)
  | localParameter (i : LocalParameterIndex) :
    Equivalent s t (.localParameter i) (.localParameter i)
  | parameter {i j : Nat} (h : t.value j = s.value i) :
    Equivalent s t (.parameter i) (.parameter j)

structure Source.Equivalent (s t : ParameterTable) (a b : Source) : Prop where
  register : a.register.Equivalent s t b.register
  swizzle : b.swizzle = a.swizzle
  negateBase : b.negateBase = a.negateBase
  absolute : b.absolute = a.absolute
  negateAbsolute : b.negateAbsolute = a.negateAbsolute

/-- The precision of an instruction and its position do not matter. -/
structure Instruction.Equivalent (s t : ParameterTable) (a b : Instruction) : Prop where
  opcode : b.opcode = a.opcode
  sources : List.Forall₂ (Source.Equivalent s t) a.sources b.sources
  destination : b.destination = a.destination
  condition : b.condition = a.condition
  saturate : b.saturate = a.saturate
  updateCodes : b.updateCodes = a.updateCodes
  texture : b.texture = a.texture

structure Program.Equivalent (p q : Program) : Prop where
  instructions : List.Forall₂ (Instruction.Equivalent p.parameters q.parameters) p.instructions
    q.instructions
  inputsRead : q.inputsRead = p.inputsRead
  outputsWritten : q.outputsWritten = p.outputsWritten
  localParameters : q.localParameters = p.localParameters

/-! ## Decisions -/

instance (s t : ParameterTable) : (a b : Readable) → Decidable (a.Equivalent s t b)
  | .temporary i, .temporary j =>
    decidable_of_iff (i = j) ⟨fun h => h ▸ .temporary i, fun | .temporary _ => rfl⟩
  | .input i, .input j => decidable_of_iff (i = j) ⟨fun h => h ▸ .input i, fun | .input _ => rfl⟩
  | .localParameter i, .localParameter j =>
    decidable_of_iff (i = j) ⟨fun h => h ▸ .localParameter i, fun | .localParameter _ => rfl⟩
  | .parameter i, .parameter j =>
    decidable_of_iff (t.value j = s.value i) ⟨.parameter, fun | .parameter h => h⟩
  | .temporary _, .input _ | .temporary _, .localParameter _ | .temporary _, .parameter _
  | .input _, .temporary _ | .input _, .localParameter _ | .input _, .parameter _
  | .localParameter _, .temporary _ | .localParameter _, .input _
  | .localParameter _, .parameter _ | .parameter _, .temporary _ | .parameter _, .input _
  | .parameter _, .localParameter _ => isFalse nofun

instance (s t : ParameterTable) (a b : Source) : Decidable (a.Equivalent s t b) :=
  decidable_of_iff (a.register.Equivalent s t b.register ∧ b.swizzle = a.swizzle ∧
      b.negateBase = a.negateBase ∧ b.absolute = a.absolute ∧
      b.negateAbsolute = a.negateAbsolute)
    ⟨fun h => ⟨h.1, h.2.1, h.2.2.1, h.2.2.2.1, h.2.2.2.2⟩, fun h => ⟨h.1, h.2, h.3, h.4, h.5⟩⟩

instance (s t : ParameterTable) (a b : Instruction) : Decidable (a.Equivalent s t b) :=
  decidable_of_iff (b.opcode = a.opcode ∧
      List.Forall₂ (Source.Equivalent s t) a.sources b.sources ∧
      b.destination = a.destination ∧ b.condition = a.condition ∧ b.saturate = a.saturate ∧
      b.updateCodes = a.updateCodes ∧ b.texture = a.texture)
    ⟨fun h => ⟨h.1, h.2.1, h.2.2.1, h.2.2.2.1, h.2.2.2.2.1, h.2.2.2.2.2.1, h.2.2.2.2.2.2⟩,
      fun h => ⟨h.1, h.2, h.3, h.4, h.5, h.6, h.7⟩⟩

instance (p q : Program) : Decidable (p.Equivalent q) :=
  decidable_of_iff
    (List.Forall₂ (Instruction.Equivalent p.parameters q.parameters) p.instructions
        q.instructions ∧
      q.inputsRead = p.inputsRead ∧ q.outputsWritten = p.outputsWritten ∧
      q.localParameters = p.localParameters)
    ⟨fun h => ⟨h.1, h.2.1, h.2.2.1, h.2.2.2⟩, fun h => ⟨h.1, h.2, h.3, h.4⟩⟩

variable {s t : ParameterTable}

/-! ## Alike is equivalent -/

theorem Readable.Alike.equivalent {a b : Readable} (h : a.Alike s t b) : a.Equivalent s t b := by
  rcases h.cases with ⟨rfl, hregister⟩ | ⟨i, j, entry, rfl, rfl, hi, hj⟩
  · cases a with
    | temporary i => exact .temporary i
    | input i => exact .input i
    | localParameter i => exact .localParameter i
    | parameter i => exact absurd rfl (hregister i)
  · refine .parameter ?_
    rw [ParameterTable.value, ParameterTable.value, hi, hj]

theorem Source.Alike.equivalent {a b : Source} (h : a.Alike s t b) : a.Equivalent s t b :=
  ⟨h.register.equivalent, h.swizzle, h.negateBase, h.absolute, h.negateAbsolute⟩

theorem Instruction.Alike.equivalent {a b : Instruction} (h : a.Alike s t b) :
    a.Equivalent s t b :=
  ⟨h.opcode, h.sources.imp fun _ _ => Source.Alike.equivalent, h.destination, h.condition,
    h.saturate, h.updateCodes, h.texture⟩

end FragmentAssembly
