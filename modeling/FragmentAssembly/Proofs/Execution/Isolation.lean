import FragmentAssembly.Proofs.Coupling
import FragmentAssembly.Proofs.Execution.Insertion

/-!
# Isolation of runs

What a run on a fragment gives depends on the program, on the inputs that are marked and their
steps, on the levels of detail of the texture units in use, and on the answers of the sampler.
Neither the other fragments nor what earlier runs have left in the machine show in it.
-/

namespace FragmentAssembly

/-! ## Machines -/

/-- Machines that a program cannot tell apart: they may differ in inputs that it does not read. -/
structure Machine.SameFor (p : Program) (m n : Machine) : Prop where
  temporaries : n.temporaries = m.temporaries
  inputs : ∀ i, p.readsInput i = true → n.inputs.get i = m.inputs.get i
  outputs : n.outputs = m.outputs
  codes : n.codes = m.codes

/-- If the operand reads an input, the input is marked. -/
def Source.Marked (p : Program) (r : Source) : Prop :=
  ∀ i, r.register = .input i → p.readsInput i = true

namespace Machine.SameFor

variable {p : Program} {m n : Machine}

theorem fetch (h : m.SameFor p n) {r : Source} (hr : r.Marked p) : n.fetch p r = m.fetch p r := by
  have hread : n.read p r.register = m.read p r.register := by
    cases hregister : r.register with
    | temporary i => exact congrArg (·.get i) h.temporaries
    | input i => exact h.inputs i (hr i hregister)
    | localParameter i => rfl
    | parameter i => rfl
  unfold Machine.fetch
  rw [hread]

theorem kills (h : m.SameFor p n) (t : CondTest) : n.kills t = m.kills t := by
  unfold Machine.kills
  rw [h.codes]

theorem updateCodes (h : m.SameFor p n) (ins : Instruction) (d : Destination) (value : Vec4) :
    (m.updateCodes ins d value).SameFor p (n.updateCodes ins d value) := by
  unfold Machine.updateCodes
  rw [h.codes]
  split
  · exact ⟨h.temporaries, h.inputs, h.outputs, rfl⟩
  · exact h

theorem write (h : m.SameFor p n) (mask : WriteMask) (value : Vec4) (r : Writable) :
    (m.write mask value r).1.SameFor p (n.write mask value r).1 ∧
      (n.write mask value r).2 = (m.write mask value r).2 := by
  cases r with
  | temporary i =>
    simp only [Machine.write, h.temporaries]
    exact ⟨⟨rfl, h.inputs, h.outputs, h.codes⟩, trivial⟩
  | output i =>
    simp only [Machine.write, h.outputs]
    exact ⟨⟨h.temporaries, h.inputs, rfl, h.codes⟩, trivial⟩
  | conditionOnly r => exact ⟨h, rfl⟩

/-- The same is stored in both machines. -/
theorem store (h : m.SameFor p n) (ins : Instruction) (value : Vec4) :
    (m.store ins value).1.SameFor p (n.store ins value).1 ∧
      (n.store ins value).2 = (m.store ins value).2 := by
  unfold Machine.store
  cases ins.destination with
  | none => exact ⟨h, rfl⟩
  | some d =>
    have hupdated := h.updateCodes ins d (Machine.result ins value)
    have hwritten := hupdated.write (ins.enabled d m.codes) (Machine.result ins value) d.register
    simp only [h.codes]
    split
    · exact ⟨hwritten.1, by rw [hwritten.2]⟩
    · exact ⟨hupdated, rfl⟩

end Machine.SameFor

/-! ## States -/

/-- States of two runs that started in `s₀` and `t₀`.  The program cannot tell the machines apart,
and the runs have made the same lookups and shown the same events. -/
structure ExecState.Alongside (p : Program) (s₀ t₀ s t : ExecState) : Prop where
  machine : s.machine.SameFor p t.machine
  tooDeep : t.tooDeep = s.tooDeep
  requests : ∃ asked, s.requests = s₀.requests ++ asked ∧ t.requests = t₀.requests ++ asked
  events : ∃ shown, s.events = s₀.events.dispatchAll shown ∧
    t.events = t₀.events.dispatchAll shown

/-- Runs that started in `s₀` and `t₀` go alongside each other to the end. -/
def Program.isolation (p : Program) (s₀ t₀ : ExecState) : Coupling Fault ExecState where
  beside := ExecState.Alongside p s₀ t₀
  alike := Eq
  spent := Never
  last := Never

/-- Runs of the same program on fragments that it cannot tell apart.  They agree on the steps of
the marked inputs, on the levels of detail of the units in use, and on the answers of the samplers
to the same lookups, which come after those of `s₀` in one run and of `t₀` in the other. -/
structure Job.Peers (j k : Job) (s₀ t₀ : ExecState) : Prop where
  program : k.program = j.program
  marks : j.program.MarksInputs
  step : ∀ axis i, j.program.readsInput i = true →
    (k.span.step axis).get i = (j.span.step axis).get i
  lambda : ∃ f g, j.span.fragments[j.fragment]? = some f ∧
    k.span.fragments[k.fragment]? = some g ∧
    ∀ ins ∈ j.program.instructions, ∀ image, ins.texture = some image →
      g.lambda.get image.unit = f.lambda.get image.unit
  startCodes : k.startCodes = j.startCodes
  answer : ∀ asked request, k.sampler.answer (t₀.requests ++ asked) request =
    j.sampler.answer (s₀.requests ++ asked) request
  imageSize : ∀ asked unit, k.sampler.imageSize (t₀.requests ++ asked) unit =
    j.sampler.imageSize (s₀.requests ++ asked) unit

section Actions

variable {p : Program} {s₀ t₀ : ExecState} {j k : Job} {ins : Instruction}
  {derive derive' : Deriver}

/-! ## Traces -/

namespace Exec

theorem keeps_note (n n' : Note) {D : Unit → Prop} :
    (p.isolation s₀ t₀).Together Eq D (note n) (note n') :=
  .modify fun _ _ h => ⟨h.machine, h.tooDeep, h.requests, h.events⟩

theorem keeps_setTooDeep (b : Bool) : (p.isolation s₀ t₀).Keeps Never (setTooDeep b) :=
  .modify fun _ _ h => ⟨h.machine, rfl, h.requests, h.events⟩

theorem keeps_emit (depth : Nat) (e : Event) : (p.isolation s₀ t₀).Keeps Never (emit depth e) := by
  apply Coupling.Together.modify
  intro s t h
  split
  · obtain ⟨shown, hs, ht⟩ := h.events
    refine ⟨h.machine, h.tooDeep, h.requests, shown ++ [e], ?_, ?_⟩
    · rw [hs, Listeners.dispatch_dispatchAll]
    · rw [ht, Listeners.dispatch_dispatchAll]
  · exact h

/-- Samplers that agree give the same answer in both runs. -/
theorem keeps_sample {sampler sampler' : Sampler}
    (hanswer : ∀ asked request, sampler'.answer (t₀.requests ++ asked) request =
      sampler.answer (s₀.requests ++ asked) request) (request : Request) :
    (p.isolation s₀ t₀).Together Eq Never (sample sampler request) (sample sampler' request) := by
  intro s t h
  obtain ⟨asked, hs, ht⟩ := h.requests
  show Coupling.Pairs _ Eq Never (.ok (sampler.answer s.requests request) _)
    (.ok (sampler'.answer t.requests request) _)
  apply Coupling.Pairs.ok (by rw [hs, ht, hanswer])
  refine ⟨h.machine, h.tooDeep, ⟨asked.push request, ?_, ?_⟩, h.events⟩
  · dsimp only
    rw [hs, Array.append_push]
  · dsimp only
    rw [ht, Array.append_push]

end Exec

namespace Job

/-! ## Instructions -/

/-- The operand of an instruction is the same, and it reads no input that is not marked. -/
theorem keeps_source (hmarks : ∀ r ∈ ins.sources, r.Marked p) (n : Nat) :
    (p.isolation s₀ t₀).Together (fun r r' => r = r' ∧ r.Marked p) Never (source ins n)
      (source ins n) := by
  unfold source
  cases hfound : ins.sources[n]? with
  | some r => exact .pure ⟨rfl, hmarks r (List.mem_of_getElem? hfound)⟩
  | none => exact fun _ _ _ => .error rfl

theorem keeps_vector (hpeers : j.Peers k s₀ t₀) (hins : ins ∈ j.program.instructions) (n : Nat) :
    (j.program.isolation s₀ t₀).Together Eq Never (j.vector ins n) (k.vector ins n) := by
  apply (keeps_source (hpeers.marks ins hins) n).andThen
  rintro r _ ⟨rfl, hr⟩
  apply Coupling.Together.look
  intro s t h
  rw [hpeers.program]
  exact .ok (h.machine.fetch hr).symm h

theorem keeps_scalar (hpeers : j.Peers k s₀ t₀) (hins : ins ∈ j.program.instructions) (n : Nat) :
    (j.program.isolation s₀ t₀).Together Eq Never (j.scalar ins n) (k.scalar ins n) :=
  (keeps_vector hpeers hins n).andThen fun _ _ h => .pure (congrArg Quad.x h)

theorem keeps_fragmentLambda (hpeers : j.Peers k s₀ t₀)
    (hins : ins ∈ j.program.instructions) {image : TextureImage}
    (himage : ins.texture = some image) :
    (p.isolation s₀ t₀).Together Eq Never (j.fragmentLambda image.unit)
      (k.fragmentLambda image.unit) := by
  obtain ⟨f, g, hf, hg, hlambda⟩ := hpeers.lambda
  unfold fragmentLambda
  rw [hf, hg]
  exact .pure (hlambda ins hins image himage).symm

theorem keeps_request (hpeers : j.Peers k s₀ t₀) (hins : ins ∈ j.program.instructions)
    {image : TextureImage} (himage : ins.texture = some image) (mode : LookupMode) :
    (j.program.isolation s₀ t₀).Together Eq Never (j.request ins image mode)
      (k.request ins image mode) := by
  have hvector : ∀ n, (j.program.isolation s₀ t₀).Together Eq Never (j.vector ins n)
      (k.vector ins n) := keeps_vector hpeers hins
  apply (hvector 0).andThen
  rintro coordinates _ rfl
  apply (keeps_fragmentLambda hpeers hins himage).andThen
  rintro lambda _ rfl
  cases mode with
  | plain => exact .pure rfl
  | biased => exact .pure rfl
  | projective => exact .pure rfl
  | derivatives =>
    apply (hvector 1).andThen
    rintro ddx _ rfl
    apply (hvector 2).andThen
    rintro ddy _ rfl
    -- the size of an image may depend on the lookups before
    apply Coupling.Together.look
    intro s t h
    obtain ⟨asked, hs, ht⟩ := h.requests
    rw [hs, ht, hpeers.imageSize]
    exact .ok rfl h

theorem keeps_lookup (hpeers : j.Peers k s₀ t₀) (hins : ins ∈ j.program.instructions)
    (mode : LookupMode) :
    (j.program.isolation s₀ t₀).Together Eq Never (j.lookup ins mode) (k.lookup ins mode) := by
  unfold lookup
  cases himage : ins.texture with
  | none => exact fun _ _ _ => .error rfl
  | some image =>
    apply (keeps_request hpeers hins himage mode).andThen
    rintro request _ rfl
    exact Exec.keeps_sample hpeers.answer request

/-- Two ways to find derivatives give the same for operands that read marked inputs. -/
def KeepsDerivatives (p : Program) (s₀ t₀ : ExecState) (derive derive' : Deriver) : Prop :=
  ∀ pc r axis, r.Marked p →
    (p.isolation s₀ t₀).Together Eq Never (derive pc r axis) (derive' pc r axis)

theorem keeps_compute (hpeers : j.Peers k s₀ t₀) (hins : ins ∈ j.program.instructions)
    (hderive : KeepsDerivatives j.program s₀ t₀ derive derive') (pc : Nat) (c : Computation) :
    (j.program.isolation s₀ t₀).Together Eq Never (j.compute derive pc ins c)
      (k.compute derive' pc ins c) := by
  have hvector : ∀ n, (j.program.isolation s₀ t₀).Together Eq Never (j.vector ins n)
      (k.vector ins n) := keeps_vector hpeers hins
  have hscalar : ∀ n, (j.program.isolation s₀ t₀).Together Eq Never (j.scalar ins n)
      (k.scalar ins n) := keeps_scalar hpeers hins
  cases c with
  | constant value => exact .pure rfl
  | vector1 f => exact (hvector 0).andThen fun _ _ ha => .pure (ha ▸ rfl)
  | vector2 f =>
    exact (hvector 0).andThen fun _ _ ha => (hvector 1).andThen fun _ _ hb => .pure (ha ▸ hb ▸ rfl)
  | vector3 f =>
    exact (hvector 0).andThen fun _ _ ha => (hvector 1).andThen fun _ _ hb =>
      (hvector 2).andThen fun _ _ hc => .pure (ha ▸ hb ▸ hc ▸ rfl)
  | scalar1 f => exact (hscalar 0).andThen fun _ _ ha => .pure (ha ▸ rfl)
  | scalar2 f =>
    exact (hscalar 0).andThen fun _ _ ha => (hscalar 1).andThen fun _ _ hb => .pure (ha ▸ hb ▸ rfl)
  | derivative axis =>
    apply (keeps_source (hpeers.marks ins hins) 0).andThen
    rintro r _ ⟨rfl, hr⟩
    exact hderive pc r axis hr
  | lookup mode => exact keeps_lookup hpeers hins mode

theorem keeps_store (depth : Nat) (ins : Instruction) (value : Vec4) :
    (p.isolation s₀ t₀).Keeps Never (store depth ins value) := by
  apply Coupling.Together.look
  intro s t h
  obtain ⟨hmachine, hwritten⟩ := h.machine.store ins value
  have hset : (p.isolation s₀ t₀).beside { s with machine := (s.machine.store ins value).1 }
      { t with machine := (t.machine.store ins value).1 } :=
    ⟨hmachine, h.tooDeep, h.requests, h.events⟩
  -- both runs show the same register with the same value
  simp only [hwritten]
  cases (s.machine.store ins value).2 with
  | none => exact .ok rfl hset
  | some written => exact Exec.keeps_emit depth _ _ _ hset

theorem keeps_step (hpeers : j.Peers k s₀ t₀) (hins : ins ∈ j.program.instructions)
    (hderive : KeepsDerivatives j.program s₀ t₀ derive derive') (depth pc : Nat) :
    (j.program.isolation s₀ t₀).Together Eq Never (j.step depth derive pc ins)
      (k.step depth derive' pc ins) := by
  unfold step
  cases ins.opcode.action with
  | compute c =>
    apply (keeps_compute hpeers hins hderive pc c).andThen
    rintro value _ rfl
    exact (keeps_store depth ins value).andThen fun _ _ _ => .pure rfl
  | kill =>
    apply Coupling.Together.look
    intro s t h
    rw [h.machine.kills]
    exact .ok rfl h
  | halt => exact .pure rfl

theorem keeps_discard (depth pc : Nat) :
    (p.isolation s₀ t₀).Together Eq Never (j.discard depth pc) (k.discard depth pc) := by
  have hrest : (p.isolation s₀ t₀).Keeps Never
      (do Exec.emit depth (.kill pc); return Outcome.killed : Exec Outcome) :=
    (Exec.keeps_emit depth _).andThen fun _ _ _ => .pure rfl
  unfold discard
  dsimp only
  split
  · exact (Exec.keeps_note _ _).andThen fun _ _ _ => hrest
  · exact hrest

/-! ## Runs -/

theorem keeps_runFrom (hpeers : j.Peers k s₀ t₀)
    (hderive : KeepsDerivatives j.program s₀ t₀ derive derive') (depth : Nat)
    {instructions : List Instruction}
    (hinside : ∀ ins ∈ instructions, ins ∈ j.program.instructions) (pc : Nat) :
    (j.program.isolation s₀ t₀).Together Eq Never (j.runFrom depth derive pc instructions)
      (k.runFrom depth derive' pc instructions) := by
  induction instructions generalizing pc with
  | nil => exact .pure rfl
  | cons ins rest ih =>
    apply (Exec.keeps_emit depth _).andThen
    intro _ _ _
    apply (keeps_step hpeers (hinside ins List.mem_cons_self) hderive depth pc).andThen
    rintro flow _ rfl
    cases flow with
    | halt => exact .pure rfl
    | kill => exact keeps_discard depth pc
    | next =>
      apply Coupling.Together.look
      intro s t h
      rw [h.tooDeep]
      split
      · exact .ok rfl h
      · exact ih (fun ins hins => hinside ins (List.mem_cons_of_mem _ hins)) (pc + 1) s t h

theorem inputDerivative_peers (hpeers : j.Peers k s₀ t₀) {m n : Machine} (h : m.SameFor j.program n)
    {i : InputIndex} (hi : j.program.readsInput i = true) (axis : Axis) :
    k.inputDerivative n i axis = j.inputDerivative m i axis := by
  unfold inputDerivative
  rw [hpeers.step axis i hi, h.inputs i hi]

/-- The machines of the neighbouring fragments are moved by the same steps. -/
theorem neighbour_peers (hpeers : j.Peers k s₀ t₀) {m n : Machine} (h : m.SameFor j.program n)
    (axis : Axis) : (j.neighbour m axis).SameFor j.program (k.neighbour n axis) := by
  refine ⟨rfl, fun i hi => ?_, rfl, hpeers.startCodes⟩
  simp only [neighbour, get_ofFn, hpeers.program, hi, if_true]
  rw [inputDerivative_peers hpeers h hi, h.inputs i hi]

theorem keeps_onMachine {m n : Machine} (hmn : m.SameFor p n) {action action' : Exec Outcome}
    (h : (p.isolation s₀ t₀).Together Eq Never action action') :
    (p.isolation s₀ t₀).Together (Option.Rel (Machine.SameFor p)) Never (onMachine m action)
      (onMachine n action') := by
  intro s t hst
  have hrun := h { s with machine := m, tooDeep := false } { t with machine := n, tooDeep := false }
    ⟨hmn, rfl, hst.requests, hst.events⟩
  unfold onMachine
  generalize action { s with machine := m, tooDeep := false } = x at hrun
  generalize action' { t with machine := n, tooDeep := false } = y at hrun
  cases hrun with
  | @ok _ _ u v value state =>
    -- the machines and flags are put back, and the traces stay
    refine .ok ?_ ⟨hst.machine, hst.tooDeep, state.requests, state.events⟩
    rw [state.tooDeep]
    split
    · exact .none
    · exact .some state.machine
  | error h => exact .error h
  | spent value => exact value.elim
  | last h => exact h.elim

theorem keeps_difference (hpeers : j.Peers k s₀ t₀)
    (hderive : KeepsDerivatives j.program s₀ t₀ derive derive') (depth : Nat) :
    KeepsDerivatives j.program s₀ t₀ (j.difference depth derive) (k.difference depth derive') := by
  intro pc r axis hr
  apply (Exec.keeps_note _ _).andThen
  intro _ _ _
  apply Coupling.Together.look
  intro s t h
  have hnested := @keeps_runFrom s₀ t₀ j k derive derive' hpeers hderive (depth + 1)
    (j.program.instructions.take pc) (fun _ hins => List.mem_of_mem_take hins) 0
  have hshadow := keeps_onMachine (neighbour_peers hpeers h.machine axis) hnested
  rw [hpeers.program]
  refine hshadow.andThen (fun x y hxy => ?_) s t h
  cases hxy with
  | none => exact (Exec.keeps_setTooDeep true).andThen fun _ _ _ => .pure rfl
  | some hmachines =>
    apply Coupling.Together.pure
    rw [hmachines.fetch hr, h.machine.fetch hr]

theorem keeps_settle (depth pc : Nat) (value : Vec4) :
    (p.isolation s₀ t₀).Keeps Never (settle depth pc value) := by
  apply Coupling.Together.look
  intro s t h
  rw [h.tooDeep]
  split
  · refine (Exec.keeps_note _ _).andThen (fun _ _ _ => ?_) s t h
    exact (Exec.keeps_setTooDeep false).andThen fun _ _ _ => .pure rfl
  · exact .ok rfl h

/-- Derivatives are the same at every level of nesting. -/
theorem keeps_derivative (hpeers : j.Peers k s₀ t₀) (levels : Nat) :
    KeepsDerivatives j.program s₀ t₀ (j.derivative levels) (k.derivative levels) := by
  have hinput : ∀ (r : Source) (i : InputIndex) (axis : Axis), j.program.readsInput i = true →
      (j.program.isolation s₀ t₀).Together Eq Never
        (return j.inputOperandDerivative (← get).machine r i axis)
        (return k.inputOperandDerivative (← get).machine r i axis) := by
    intro r i axis hi
    apply Coupling.Together.look
    intro s t h
    unfold inputOperandDerivative
    rw [inputDerivative_peers hpeers h.machine hi, h.machine.inputs i hi]
    exact .ok rfl h
  -- only a temporary depends on the levels
  induction levels with
  | zero =>
    intro pc r axis hr
    unfold derivative
    cases hregister : r.register with
    | input i => exact hinput r i axis (hr i hregister)
    | parameter i => exact .pure rfl
    | localParameter i => exact .pure rfl
    | temporary i => exact (Exec.keeps_setTooDeep true).andThen fun _ _ _ => .pure rfl
  | succ levels ih =>
    intro pc r axis hr
    unfold derivative
    cases hregister : r.register with
    | input i => exact hinput r i axis (hr i hregister)
    | parameter i => exact .pure rfl
    | localParameter i => exact .pure rfl
    | temporary i =>
      apply (keeps_difference hpeers ih (depthAt (levels + 1)) pc r axis hr).andThen
      rintro value _ rfl
      exact keeps_settle _ pc value

theorem keeps_run (hpeers : j.Peers k s₀ t₀) (stop : Nat) :
    (j.program.isolation s₀ t₀).Together Eq Never (j.run stop) (k.run stop) := by
  unfold run
  rw [hpeers.program]
  exact keeps_runFrom hpeers (keeps_derivative hpeers maxDerivativeDepth) 0
    (fun _ hins => List.mem_of_mem_take hins) 0

/-- Runs of the beginning of a program stay alongside each other. -/
theorem run_alongside (hpeers : j.Peers k s₀ t₀) {stop : Nat} {s t u : ExecState}
    {outcome : Outcome} (h : ExecState.Alongside j.program s₀ t₀ s t)
    (hrun : j.run stop s = .ok outcome u) :
    ∃ v, k.run stop t = .ok outcome v ∧ ExecState.Alongside j.program s₀ t₀ u v := by
  have hpairs := keeps_run hpeers stop s t h
  rw [hrun] at hpairs
  generalize k.run stop t = y at hpairs ⊢
  cases hpairs with
  | ok value state => exact ⟨_, by rw [value], state⟩
  | spent value => exact value.elim

end Job

end Actions

end FragmentAssembly
