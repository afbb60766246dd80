import FragmentAssembly.Proofs.Execution.Levels
import FragmentAssembly.Proofs.Program.Alike
import FragmentAssembly.Proofs.Program.Usage

/-!
# Programs with more derivatives

A program in which some `DDX` and `DDY` of no effect have been inserted runs like the program
without them, as long as its derivatives are found.  The machines of the two differ in one
temporary at most.
-/

namespace FragmentAssembly

/-! ## Samplers without memory -/

/-- The answers of a sampler depend on nothing but the lookup. -/
structure Sampler.IsMemoryless (sampler : Sampler) : Prop where
  answer : ∀ before before' request, sampler.answer before request = sampler.answer before' request
  imageSize : ∀ before before' unit, sampler.imageSize before unit = sampler.imageSize before' unit

theorem Sampler.isMemoryless_solid (color : Vec4) : (solid color).IsMemoryless :=
  ⟨fun _ _ _ => rfl, fun _ _ _ => rfl⟩

/-! ## Instructions without effect -/

/-- A `DDX` or `DDY` that writes components of the temporary `d` and nothing else. -/
structure Instruction.Probes (ins : Instruction) (d : TemporaryIndex) : Prop where
  opcode : ins.opcode = .ddx ∨ ins.opcode = .ddy
  quiet : ins.updateCodes = false
  destination : ∃ mask, ins.destination = some ⟨.temporary d, mask⟩

/-- An instruction that neither reads nor writes the temporary `d`. -/
structure Instruction.Avoids (ins : Instruction) (d : TemporaryIndex) : Prop where
  sources : ∀ s ∈ ins.sources, s.register ≠ .temporary d
  destination : ∀ t ∈ ins.destination, t.register ≠ .temporary d

instance (ins : Instruction) (d : TemporaryIndex) : Decidable (ins.Avoids d) :=
  decidable_of_iff ((∀ s ∈ ins.sources, s.register ≠ .temporary d) ∧
      ∀ t ∈ ins.destination, t.register ≠ .temporary d)
    ⟨fun h => ⟨h.1, h.2⟩, fun h => ⟨h.1, h.2⟩⟩

theorem Instruction.Probes.action {ins : Instruction} {d : TemporaryIndex} (h : ins.Probes d) :
    ∃ axis, ins.opcode.action = .compute (.derivative axis) := by
  rcases h.opcode with hx | hy
  · rw [hx]
    exact ⟨.x, rfl⟩
  · rw [hy]
    exact ⟨.y, rfl⟩

/-- Machines that agree but for the temporary `d` and for inputs that are not read. -/
structure Machine.SameBut (d : TemporaryIndex) (isRead : InputIndex → Prop) (m n : Machine) :
    Prop where
  temporaries : ∀ i, i ≠ d → n.temporaries.get i = m.temporaries.get i
  inputs : ∀ i, isRead i → n.inputs.get i = m.inputs.get i
  outputs : n.outputs = m.outputs
  codes : n.codes = m.codes

/-- Runs on the same fragment of programs with the same local parameters, which take the same
answers from the sampler. -/
structure Job.Twins (j k : Job) : Prop where
  sampler : k.sampler = j.sampler
  span : k.span = j.span
  fragment : k.fragment = j.fragment
  startCodes : k.startCodes = j.startCodes
  localParameters : k.program.localParameters = j.program.localParameters
  memoryless : j.sampler.IsMemoryless

/-- Both programs read the input. -/
def Job.BothRead (j k : Job) (i : InputIndex) : Prop :=
  j.program.readsInput i = true ∧ k.program.readsInput i = true

/-- Operands that denote the same in both programs, and that do not read `d`. -/
structure Source.Twin (j k : Job) (d : TemporaryIndex) (r r' : Source) : Prop where
  alike : r.Alike j.program.parameters k.program.parameters r'
  avoids : r.register ≠ .temporary d
  isRead : ∀ i, r.register = .input i → j.BothRead k i

/-- Instructions that do the same in both programs, and that have nothing to do with `d`. -/
structure Instruction.Twin (j k : Job) (d : TemporaryIndex) (a b : Instruction) : Prop where
  alike : a.Alike j.program.parameters k.program.parameters b
  avoids : a.Avoids d
  isRead : ∀ s ∈ a.sources, ∀ i, s.register = .input i → j.BothRead k i

theorem Instruction.Twin.source {j k : Job} {d : TemporaryIndex} {a b : Instruction}
    (h : a.Twin j k d b) (n : Nat) :
    (a.sources[n]? = none ∧ b.sources[n]? = none) ∨
      ∃ r r', a.sources[n]? = some r ∧ b.sources[n]? = some r' ∧ r.Twin j k d r' := by
  rcases getElem?_of_forall₂ h.alike.sources n with hnone | ⟨r, r', hr, hr', halike⟩
  · exact .inl hnone
  · have hmem := List.mem_of_getElem? hr
    exact .inr ⟨r, r', hr, hr', halike, h.avoids.sources r hmem, h.isRead r hmem⟩

section Twins

variable {j k : Job} {d : TemporaryIndex} {m n : Machine} {a b : Instruction}

/-! ## Reading -/

theorem read_twin (htwins : j.Twins k) (hsame : m.SameBut d (j.BothRead k) n) {r r' : Source}
    (h : r.Twin j k d r') : n.read k.program r'.register = m.read j.program r.register := by
  have havoids := h.avoids
  have hread := h.isRead
  rcases h.alike.register.cases with ⟨heq, hflat⟩ | ⟨i, i', entry, hi, hi', hentry, hentry'⟩
  · rw [← heq]
    cases hregister : r.register with
    | temporary i =>
      rw [hregister] at havoids
      exact hsame.temporaries i fun hid => havoids (hid ▸ rfl)
    | input i => exact hsame.inputs i (hread i hregister)
    | localParameter i => exact congrArg (·.get i) htwins.localParameters
    | parameter i => exact absurd hregister (hflat i)
  · -- the index of a literal may differ, but not its entry
    rw [hi, hi']
    simp only [Machine.read, ParameterTable.value, hentry, hentry']

theorem fetch_twin (htwins : j.Twins k) (hsame : m.SameBut d (j.BothRead k) n) {r r' : Source}
    (h : r.Twin j k d r') : n.fetch k.program r' = m.fetch j.program r := by
  unfold Machine.fetch Source.modify
  rw [read_twin htwins hsame h, h.alike.swizzle, h.alike.negateBase, h.alike.absolute,
    h.alike.negateAbsolute]

theorem vector_twin (htwins : j.Twins k) (hsame : m.SameBut d (j.BothRead k) n)
    (h : a.Twin j k d b) (i : Nat) : Reference.vector k n b i = Reference.vector j m a i := by
  unfold Reference.vector
  rcases h.source i with ⟨hnone, hnone'⟩ | ⟨r, r', hr, hr', htwin⟩
  · rw [hnone, hnone']
    rfl
  · rw [hr, hr', Option.map_some, Option.map_some, fetch_twin htwins hsame htwin]

theorem request_twin (htwins : j.Twins k) (hsame : m.SameBut d (j.BothRead k) n)
    (h : a.Twin j k d b) (before before' : Array Request) (image : TextureImage)
    (mode : LookupMode) :
    Reference.request k n before' b image mode = Reference.request j m before a image mode := by
  unfold Reference.request
  rw [vector_twin htwins hsame h, vector_twin htwins hsame h, vector_twin htwins hsame h,
    htwins.span, htwins.fragment, htwins.sampler,
    htwins.memoryless.imageSize before' before image.unit]

/-! ## Storing -/

/-- A store depends on neither operands nor position. -/
theorem store_twin (h : a.Twin j k d b) (m : Machine) (value : Vec4) :
    m.store b value = m.store a value := by
  have halike := h.alike
  unfold Machine.store Machine.result Machine.updateCodes Instruction.enabled
    Instruction.declared Instruction.computed
  rw [halike.opcode, halike.destination, halike.condition, halike.saturate, halike.updateCodes]

theorem sameBut_updateCodes {isRead : InputIndex → Prop} (h : m.SameBut d isRead n)
    (ins : Instruction) (t : Destination) (value : Vec4) :
    (m.updateCodes ins t value).SameBut d isRead (n.updateCodes ins t value) := by
  unfold Machine.updateCodes
  rw [h.codes]
  split
  · exact ⟨h.temporaries, h.inputs, h.outputs, rfl⟩
  · exact h

theorem sameBut_write {isRead : InputIndex → Prop} (h : m.SameBut d isRead n) {r : Writable}
    (hr : r ≠ .temporary d) (mask : WriteMask) (value : Vec4) :
    (m.write mask value r).1.SameBut d isRead (n.write mask value r).1 := by
  cases r with
  | temporary i =>
    have hid : i ≠ d := fun hid => hr (hid ▸ rfl)
    refine ⟨fun l hl => ?_, h.inputs, h.outputs, h.codes⟩
    simp only [Machine.write, h.temporaries i hid]
    rw [get_set, get_set, h.temporaries l hl]
  | output i =>
    refine ⟨h.temporaries, h.inputs, ?_, h.codes⟩
    simp only [Machine.write, h.outputs]
  | conditionOnly r => exact h

/-- Twins keep two machines the same but for `d`. -/
theorem sameBut_store {isRead : InputIndex → Prop} (h : m.SameBut d isRead n)
    (ha : a.Avoids d) (value : Vec4) :
    (m.store a value).1.SameBut d isRead (n.store a value).1 := by
  unfold Machine.store
  cases hdestination : a.destination with
  | none => exact h
  | some t =>
    simp only [h.codes]
    split
    · exact sameBut_write (sameBut_updateCodes h a t _) (ha.destination t hdestination) _ _
    · exact sameBut_updateCodes h a t _

/-- An instruction that only writes `d` does too. -/
theorem sameBut_store_probe {isRead : InputIndex → Prop} (h : m.SameBut d isRead n)
    {x : Instruction} (hx : x.Probes d) (value : Vec4) :
    m.SameBut d isRead (n.store x value).1 := by
  obtain ⟨mask, hdestination⟩ := hx.destination
  unfold Machine.store Machine.updateCodes
  simp only [hdestination, hx.quiet, Bool.false_eq_true, if_false]
  split
  · refine ⟨fun l hl => ?_, h.inputs, h.outputs, h.codes⟩
    simp only [Machine.write]
    rw [get_set, if_neg (Ne.symm hl)]
    exact h.temporaries l hl
  · exact h

theorem kills_twin {isRead : InputIndex → Prop} (h : m.SameBut d isRead n)
    (hab : a.Twin j k d b) : n.kills b.condition = m.kills a.condition := by
  unfold Machine.kills
  rw [h.codes, hab.alike.condition]

/-! ## Neighbours -/

theorem inputDerivative_twin (htwins : j.Twins k) (hsame : m.SameBut d (j.BothRead k) n)
    {i : InputIndex} (hi : j.BothRead k i) (axis : Axis) :
    k.inputDerivative n i axis = j.inputDerivative m i axis := by
  unfold Job.inputDerivative
  rw [htwins.span, hsame.inputs i hi]

theorem sameBut_neighbour (htwins : j.Twins k) (hsame : m.SameBut d (j.BothRead k) n)
    (axis : Axis) :
    (j.neighbour m axis).SameBut d (j.BothRead k) (k.neighbour n axis) := by
  -- temporaries and outputs are fresh, and the inputs of both have moved by the same step
  refine ⟨fun _ _ => rfl, fun i hi => ?_, rfl, htwins.startCodes⟩
  simp only [Job.neighbour, get_ofFn, hi.1, hi.2, if_true]
  rw [inputDerivative_twin htwins hsame hi, hsame.inputs i hi]

end Twins

end FragmentAssembly
