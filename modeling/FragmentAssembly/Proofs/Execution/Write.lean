import FragmentAssembly.Proofs.Execution.Events

/-!
# What an instruction writes

Every instruction but `KIL` and `END` computes one value from the machine before it.  What it then
changes is said here for each component of the machine: the write mask, the components that the
instruction computes and the condition decide over the destination, and the condition does not
decide over the condition codes.
-/

namespace FragmentAssembly

/-! ## Clamped numbers -/

/-- The second number is the first one, moved to the range from zero to one. -/
structure Binary32.Clamped (a b : Binary32) : Prop where
  nan : a.isNaN = true → b = a
  below : lt a zero = true → b = zero
  between : le zero a = true → le a one = true → b = a
  above : lt one a = true → b = one

theorem Binary32.clamped_saturate (a : Binary32) : a.Clamped a.saturate := by
  have hzero : zero.isNaN = false := by decide
  have hone : one.isNaN = false := by decide
  have horder : zero.orderKey < one.orderKey := by decide
  unfold saturate
  refine ⟨fun h => ?_, fun h => ?_, fun h h' => ?_, fun h => ?_⟩
  · simp [lt, h]
  · rw [if_pos h]
  · simp only [le, Bool.and_eq_true, decide_eq_true_eq] at h h'
    have hbelow : lt a zero = false := by simp [lt]; omega
    have habove : lt one a = false := by simp [lt]; omega
    simp only [hbelow, habove, Bool.false_eq_true, if_false]
  · simp only [lt, Bool.and_eq_true, decide_eq_true_eq] at h
    have hbelow : lt a zero = false := by simp [lt]; omega
    have habove : lt one a = true := by simp [lt, h, hone]
    simp only [hbelow, habove, Bool.false_eq_true, if_false, if_true]

/-! ## Gates -/

namespace Instruction

variable {ins : Instruction} {d : Destination} {codes : Quad CondCode} {i : Component}

/-- The component is in the write mask, and the instruction computes it. -/
def Declares (ins : Instruction) (d : Destination) (i : Component) : Prop :=
  d.mask.get i = true ∧ ¬(ins.opcode = .rfl ∧ i = .w)

/-- The code that is tested for the component passes. -/
def Passes (ins : Instruction) (codes : Quad CondCode) (i : Component) : Prop :=
  ins.condition.rule.accepts (codes.get (ins.condition.swizzle.get i)) = true

instance : Decidable (ins.Declares d i) :=
  inferInstanceAs (Decidable (_ ∧ ¬(_ ∧ _)))

instance : Decidable (ins.Passes codes i) :=
  inferInstanceAs (Decidable (_ = _))

theorem get_declared : (ins.declared d).get i = true ↔ ins.Declares d i := by
  rw [declared, Quad.get_zipWith, Bool.and_eq_true, get_computed]
  rfl

theorem get_enabled :
    (ins.enabled d codes).get i = true ↔ ins.Declares d i ∧ ins.Passes codes i := by
  rw [enabled, Quad.get_zipWith, Bool.and_eq_true, get_declared]
  simp only [CondTest.passes, Quad.get_map, Quad.get_select, Passes]

end Instruction

theorem Machine.kills_iff (m : Machine) (ins : Instruction) :
    m.kills ins.condition = true ↔ ∃ i, ins.Passes m.codes i := by
  rw [kills, Quad.any_id]
  simp only [CondTest.passes, Quad.get_map, Quad.get_select, Instruction.Passes]

/-! ## Stores -/

/-- All that an instruction with destination `d` and result `value` changes in machine `m`. -/
structure Machine.Wrote (m : Machine) (ins : Instruction) (d : Destination) (value : Vec4)
    (n : Machine) : Prop where
  temporaries : ∀ t i, (n.temporaries.get t).get i =
    if d.register = .temporary t ∧ ins.Declares d i ∧ ins.Passes m.codes i then value.get i
    else (m.temporaries.get t).get i
  outputs : ∀ o i, (n.outputs.get o).get i =
    if d.register = .output o ∧ ins.Declares d i ∧ ins.Passes m.codes i then value.get i
    else (m.outputs.get o).get i
  codes : ∀ i, n.codes.get i =
    if ins.updateCodes = true ∧ ins.Declares d i then CondCode.ofValue (value.get i)
    else m.codes.get i
  inputs : n.inputs = m.inputs

namespace Machine

variable {ins : Instruction} {d : Destination}

theorem registers_updateCodes (m : Machine) (ins : Instruction) (d : Destination) (value : Vec4) :
    (m.updateCodes ins d value).temporaries = m.temporaries ∧
      (m.updateCodes ins d value).outputs = m.outputs ∧
      (m.updateCodes ins d value).inputs = m.inputs := by
  unfold updateCodes
  split <;> exact ⟨rfl, rfl, rfl⟩

/-- The condition has no say in the update of the codes. -/
theorem get_codes_updateCodes (m : Machine) (ins : Instruction) (d : Destination) (value : Vec4)
    (i : Component) : (m.updateCodes ins d value).codes.get i =
      if ins.updateCodes = true ∧ ins.Declares d i then CondCode.ofValue (value.get i)
      else m.codes.get i := by
  unfold updateCodes
  cases ins.updateCodes with
  | false => simp
  | true =>
    simp only [if_true, Quad.merge, Quad.get_ofFn, Quad.get_map, Instruction.get_declared,
      true_and]

/-- An update of the codes is a write without a destination that could be written. -/
theorem wrote_updateCodes (m : Machine) (value : Vec4)
    (hclosed : ∀ i, ¬(ins.Declares d i ∧ ins.Passes m.codes i)) :
    m.Wrote ins d value (m.updateCodes ins d value) := by
  obtain ⟨htemporaries, houtputs, hinputs⟩ := m.registers_updateCodes ins d value
  refine ⟨fun t i => ?_, fun o i => ?_, m.get_codes_updateCodes ins d value, hinputs⟩
  · rw [if_neg fun h => hclosed i h.2, htemporaries]
  · rw [if_neg fun h => hclosed i h.2, houtputs]

/-- The components of a register that is merged with a value, and those of the others. -/
theorem get_set_merge {n : Nat} (registers : Vector Vec4 n) (l t : Fin n) (codes : Quad CondCode)
    (value : Vec4) (i : Component) :
    ((registers.set l.val (Quad.merge (ins.enabled d codes) value (registers.get l)) l.isLt).get
        t).get i =
      if l = t ∧ ins.Declares d i ∧ ins.Passes codes i then value.get i
      else (registers.get t).get i := by
  rw [get_set]
  by_cases hl : l = t
  · subst hl
    simp only [if_true, Quad.merge, Quad.get_ofFn, Instruction.get_enabled, true_and]
  · simp only [hl, if_false, false_and]

/-- Where something passes, the register of the destination is written behind the update. -/
theorem wrote_write (m : Machine) (value : Vec4) :
    m.Wrote ins d value
      ((m.updateCodes ins d value).write (ins.enabled d m.codes) value d.register).1 := by
  have hcodes := m.get_codes_updateCodes ins d value
  obtain ⟨htemporaries, houtputs, hinputs⟩ := m.registers_updateCodes ins d value
  cases hregister : d.register with
  | temporary l =>
    refine ⟨fun t i => ?_, fun o i => ?_, hcodes, hinputs⟩
    · simp only [write, htemporaries, hregister, Writable.temporary.injEq]
      exact get_set_merge m.temporaries l t m.codes value i
    · simp only [write, houtputs, hregister, reduceCtorEq, false_and, if_false]
  | output l =>
    refine ⟨fun t i => ?_, fun o i => ?_, hcodes, hinputs⟩
    · simp only [write, htemporaries, hregister, reduceCtorEq, false_and, if_false]
    · simp only [write, houtputs, hregister, Writable.output.injEq]
      exact get_set_merge m.outputs l o m.codes value i
  | conditionOnly r =>
    refine ⟨fun t i => ?_, fun o i => ?_, hcodes, hinputs⟩
    · simp only [write, htemporaries, hregister, reduceCtorEq, false_and, if_false]
    · simp only [write, houtputs, hregister, reduceCtorEq, false_and, if_false]

theorem wrote_store (m : Machine) (hdestination : ins.destination = some d) (value : Vec4) :
    m.Wrote ins d (result ins value) (m.store ins value).1 := by
  unfold store
  rw [hdestination]
  dsimp only
  split
  · exact wrote_write m (result ins value)
  · next hnone =>
    refine wrote_updateCodes m (result ins value) fun i hi => hnone ?_
    rw [Quad.any_id]
    exact ⟨i, Instruction.get_enabled.mpr hi⟩

/-- The result is the value, which is clamped if the instruction asks for it. -/
theorem get_result (ins : Instruction) (value : Vec4) (i : Component) :
    if ins.saturate then (value.get i).Clamped ((result ins value).get i)
    else (result ins value).get i = value.get i := by
  unfold result
  cases ins.saturate with
  | false => rfl
  | true =>
    simp only [if_true, Quad.get_map]
    exact Binary32.clamped_saturate _

end Machine

/-! ## Instructions -/

theorem Pattern.writes_of_hasResult :
    ∀ p ∈ Pattern.table, p.opcode.action.hasResult = true → p.writes = true := by
  decide

/-- Every instruction but `KIL` and `END` has a destination for what it computes. -/
theorem Program.WellFormed.exists_destination {p : Program} (h : p.WellFormed) {ins : Instruction}
    (hins : ins ∈ p.instructions) (hkil : ins.opcode ≠ .kil) (hhalt : ins.opcode ≠ .halt) :
    ∃ c d, ins.opcode.action = .compute c ∧ ins.destination = some d := by
  obtain ⟨position, hended⟩ := h.ended
  rw [hended] at hins
  rcases List.mem_append.mp hins with hbody | hlast
  · obtain ⟨p, hlisted, hfits⟩ := (h.instruction ins hbody).fits
    have hwrites := Pattern.writes_of_hasResult p hlisted
    rw [← hfits.destination, ← hfits.opcode] at hwrites
    cases haction : ins.opcode.action with
    | compute c =>
      rw [haction] at hwrites
      obtain ⟨d, hd⟩ := Option.isSome_iff_exists.mp (hwrites rfl)
      exact ⟨c, d, rfl, hd⟩
    | kill => exact absurd (Opcode.eq_kil_of_action haction) hkil
    | halt => exact absurd (Opcode.eq_halt_of_action haction) hhalt
  · rw [List.mem_singleton] at hlast
    subst hlast
    exact absurd rfl hhalt

namespace Job

variable {job : Job} {ins : Instruction} {levels depth pc : Nat} {s : ExecState}

/-- At every level a derivative that the reference does not have is zero.  Only a nested run keeps
its flag. -/
theorem refines_derivative_of_le (hlevels : levels ≤ maxDerivativeDepth)
    (hfragment : job.fragment < job.span.size)
    (hcomplete : ∀ ins ∈ job.program.instructions, ins.Complete) :
    Deriver.Refines
      (fun value t => value = Quad.zero ∧ (levels = maxDerivativeDepth → t.tooDeep = false))
      (job.derivative levels) (Reference.derivative job levels) := by
  rcases Nat.lt_or_eq_of_le hlevels with hlt | rfl
  · exact (refines_derivative hlt hfragment hcomplete).weaken fun _ _ h =>
      ⟨h.1, fun heq => absurd heq (Nat.ne_of_lt hlt)⟩
  · exact (refines_derivative_outermost hfragment hcomplete).weaken fun _ _ h => ⟨h.1, fun _ => h.2⟩

/-- An instruction that computes something stores the value of the reference, or zero where that has
none. -/
theorem step_compute (job : Job) (depth pc : Nat) {c : Computation}
    (hlevels : levels ≤ maxDerivativeDepth)
    (hfragment : job.fragment < job.span.size)
    (hcomplete : ∀ ins ∈ job.program.instructions, ins.Complete)
    (hins : ins ∈ job.program.instructions) (haction : ins.opcode.action = .compute c)
    (hclear : s.tooDeep = false) :
    ∃ t, job.step depth (job.derivative levels) pc ins s = .ok .next t ∧
      t.machine = (s.machine.store ins (Reference.valueOrZero
        (Reference.compute job (Reference.derivative job levels) pc ins s.machine s.requests
          c))).1 ∧
      (levels = maxDerivativeDepth → t.tooDeep = false) := by
  obtain ⟨hsources, htexture⟩ := hcomplete ins hins c haction
  obtain ⟨value, u, hvalue, hmachine, hagrees⟩ := refinesOn_compute hfragment
    (refines_derivative_of_le hlevels hfragment hcomplete) hsources htexture pc s rfl hclear
  obtain ⟨events, hstore⟩ := store_eq depth ins value u
  refine ⟨{ u with machine := (u.machine.store ins value).1, events }, ?_, ?_, ?_⟩
  · unfold step
    rw [haction]
    exact bind_eq_ok.mpr ⟨value, u, hvalue, bind_eq_ok.mpr ⟨(), _, hstore, rfl⟩⟩
  · rw [hmachine, (hagrees.weaken And.left).eq_valueOrZero]
  · exact fun houtermost => hagrees.clear fun habsent => habsent.2 houtermost

theorem discard_machine (job : Job) (depth pc : Nat) (s : ExecState) :
    ∃ t, job.discard depth pc s = .ok .killed t ∧ t.machine = s.machine := by
  by_cases hdepth : depth = 0
  · subst hdepth
    exact ⟨_, discard_outermost job pc s, rfl⟩
  · exact ⟨s, discard_eq hdepth pc s, rfl⟩

/-- A `KIL` ends the run, or the run goes on from the same machine. -/
theorem runFrom_kil (job : Job) (depth : Nat) (derive : Deriver) (pc : Nat)
    (haction : ins.opcode.action = .kill) (hclear : s.tooDeep = false) :
    (s.machine.kills ins.condition = true → ∀ rest, ∃ t,
      job.runFrom depth derive pc (ins :: rest) s = .ok .killed t ∧ t.machine = s.machine) ∧
    (s.machine.kills ins.condition = false → ∃ t, t.machine = s.machine ∧ ∀ rest,
      job.runFrom depth derive pc (ins :: rest) s = job.runFrom depth derive (pc + 1) rest t) := by
  -- what is shown of the instruction is not part of the machine
  obtain ⟨u, hemit, hmachine, hflag⟩ : ∃ u,
      Exec.emit depth (.instruction pc ins.position ins.opcode) s = .ok () u ∧
        u.machine = s.machine ∧ u.tooDeep = s.tooDeep := by
    refine ⟨_, rfl, ?_⟩
    split <;> exact ⟨rfl, rfl⟩
  constructor
  · intro hkills rest
    have hadvance := advance_kill job derive haction hemit
    rw [hmachine, if_pos hkills] at hadvance
    obtain ⟨t, ht, hkept⟩ := discard_machine job depth pc u
    exact ⟨t, runFrom_kill hadvance ht, hkept.trans hmachine⟩
  · intro hpasses
    refine ⟨u, hmachine, fun rest => ?_⟩
    rw [runFrom, bind_apply, hemit]
    dsimp only
    rw [bind_apply, step_kill job derive haction, hmachine, if_neg (Bool.eq_false_iff.mp hpasses)]
    show (if u.tooDeep = true then _ else _ : Exec Outcome) u = _
    rw [hflag, hclear, if_neg Bool.false_ne_true]

end Job

/-- An instruction of a compiled program computes one value from the machine before it, which is
clamped if it is to be saturated.  The components that are declared and pass are written, and the
codes of those that are declared are updated.  Nothing else changes, and nothing at all does at a
`KIL` or at the `END`; a `KIL` ends the run if and only if one of the codes that it selects
passes.  All of this is so at any level of nesting. -/
theorem step_effect {source : String} {p q : Program} (hcompile : compile source = .ok p)
    (hupdates : p.Updates q) {span : Span} {fragment : Nat} (hfragment : fragment < span.size)
    (sampler : Sampler) (startCodes : Quad CondCode) {levels : Nat}
    (hlevels : levels ≤ maxDerivativeDepth) {ins : Instruction} (hins : ins ∈ q.instructions)
    (depth pc : Nat) {s : ExecState} (hclear : s.tooDeep = false) :
    let job := Interpreter.job q sampler span fragment startCodes
    let derive := job.derivative levels
    (ins.opcode ≠ .kil → ins.opcode ≠ .halt →
      ∃ c d raw value t, ins.opcode.action = .compute c ∧ ins.destination = some d ∧
        raw = Reference.valueOrZero (Reference.compute job (Reference.derivative job levels) pc ins
          s.machine s.requests c) ∧
        (∀ i, if ins.saturate then (raw.get i).Clamped (value.get i)
          else value.get i = raw.get i) ∧
        job.step depth derive pc ins s = .ok .next t ∧ s.machine.Wrote ins d value t.machine ∧
        (levels = maxDerivativeDepth → t.tooDeep = false)) ∧
    (ins.opcode = .kil →
      (∃ flow, job.step depth derive pc ins s = .ok flow s ∧
        (flow = .kill ↔ ∃ i, ins.Passes s.machine.codes i)) ∧
      ((∃ i, ins.Passes s.machine.codes i) → ∀ rest, ∃ t,
        job.runFrom depth derive pc (ins :: rest) s = .ok .killed t ∧ t.machine = s.machine) ∧
      ((¬∃ i, ins.Passes s.machine.codes i) → ∃ t, t.machine = s.machine ∧ ∀ rest,
        job.runFrom depth derive pc (ins :: rest) s =
          job.runFrom depth derive (pc + 1) rest t)) ∧
    (ins.opcode = .halt → job.step depth derive pc ins s = .ok .halt s) := by
  intro job derive
  have hwell : q.WellFormed :=
    (wellFormed_of_compile hcompile).retuned (Program.retuned_of_updates hupdates)
  -- `KIL` and `END` compute nothing, so every other instruction has a destination
  refine ⟨fun hkil hhalt => ?_, fun hkil => ?_, fun hhalt => ?_⟩
  · obtain ⟨c, d, haction, hdestination⟩ := hwell.exists_destination hins hkil hhalt
    obtain ⟨t, hstep, hmachine, hflag⟩ := Job.step_compute job depth pc hlevels hfragment
      hwell.complete hins haction hclear
    refine ⟨c, d, _, _, t, haction, hdestination, rfl, Machine.get_result ins _, hstep, ?_, hflag⟩
    rw [hmachine]
    exact s.machine.wrote_store hdestination _
  · have haction : ins.opcode.action = .kill := by rw [hkil]; rfl
    have hkills := s.machine.kills_iff ins
    obtain ⟨hends, hgoes⟩ := Job.runFrom_kil job depth derive pc haction hclear
    refine ⟨⟨_, Job.step_kill job derive haction s, ?_⟩, fun h => hends (hkills.mpr h),
      fun h => hgoes (Bool.eq_false_iff.mpr fun hpasses => h (hkills.mp hpasses))⟩
    rw [← hkills]
    cases s.machine.kills ins.condition <;> simp
  · exact Job.step_halt (by rw [hhalt]; rfl) s

/-- An instruction of `tintedText` that writes nothing but a condition code. -/
theorem step_effect_tinted :
    ∃ p ins, compile tintedText = .ok p ∧ p.Updates p ∧ 0 < (Span.single {}).size ∧
      ins ∈ p.instructions ∧ ins.opcode = .mul ∧ ∃ d value t,
        (Interpreter.job p (.solid Quad.zero) (.single {}) 0 (Quad.replicate .eq)).step 0
          ((Interpreter.job p (.solid Quad.zero) (.single {}) 0
            (Quad.replicate .eq)).derivative maxDerivativeDepth) 2 ins {} = .ok .next t ∧
        Machine.Wrote {} ins d value t.machine ∧ d.register = .conditionOnly .rc := by
  obtain ⟨p, hp, hmul⟩ : ∃ p, compile tintedText = .ok p ∧ ∃ ins ∈ p.instructions,
      ins.opcode = .mul ∧ ins.destination.any (·.register = .conditionOnly .rc) = true :=
    exists_of_decide (by decide +kernel)
  obtain ⟨ins, hins, hopcode, hregister⟩ := hmul
  have hkept : p.Updates p := Relation.ReflTransGen.refl
  obtain ⟨hcomputes, -, -⟩ := step_effect hp hkept (show 0 < (Span.single {}).size by decide)
    (.solid Quad.zero) (Quad.replicate .eq) (Nat.le_refl maxDerivativeDepth) hins 0 2
    (show ({} : ExecState).tooDeep = false by rfl)
  obtain ⟨c, d, raw, value, t, -, hd, -, -, hstep, hwrote, -⟩ :=
    hcomputes (by rw [hopcode]; decide) (by rw [hopcode]; decide)
  rw [hd, Option.any_some, decide_eq_true_eq] at hregister
  exact ⟨p, ins, hp, hkept, by decide, hins, hopcode, d, value, t, hstep, hwrote, hregister⟩

end FragmentAssembly
